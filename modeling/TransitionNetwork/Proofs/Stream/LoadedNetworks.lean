import Mathlib.Data.List.Perm.Subperm
import TransitionNetwork.Proofs.Stream.SectionsYield

/-!
# Networks loaded from streams

A loaded network consists of the transitions that its stream holds and of what follows from them.
In every slot the written part of the state is the one that was read. A state that ends no rule
has the transitions that were read for it, up to the actions that an older stream keeps in them;
a rule stop state has, behind those, its return transitions. Such a network can be written.
-/

namespace TransitionNetwork

namespace Network

/-- The transitions of a list that leave a state, in order. -/
def transitionsFrom (edges : List (StateId × Transition)) (k : StateId) : List Transition :=
  (edges.filter (·.1 = k)).map Prod.snd

/-- The states of a network that was put together have given transitions each. -/
def TransitionsAre (net : Network) (transitions : StateId → List Transition) : Prop :=
  ∀ k, ∀ s ∈ net.state? k, s.transitions = transitions k

/-- Steps that keep transitions keep which they are. -/
theorem TransitionsAre.of_keeps {net net' : Network} {transitions : StateId → List Transition}
    (h : net.TransitionsAre transitions) (hkeeps : Keeps State.transitions net net') :
    net'.TransitionsAre transitions := by
  intro k s' hs'
  obtain ⟨s, hs, hsame⟩ := hkeeps.exists_of_state? hs'
  exact hsame.trans (h k s hs)

/-- Added transitions stand behind the others of the states that they leave. -/
theorem TransitionsAre.addTransitions {net : Network} {transitions : StateId → List Transition}
    (h : net.TransitionsAre transitions) (edges : List (StateId × Transition)) :
    (net.addTransitions edges).TransitionsAre fun k => transitions k ++ transitionsFrom edges k := by
  intro k s' hs'
  have hk := net.transitions_addTransitions edges k
  rw [Option.mem_def.mp hs', Option.map_some] at hk
  obtain ⟨s, hs, hsame⟩ := Option.map_eq_some_iff.mp hk.symm
  rw [← hsame, h k s hs]
  rfl

end Network

namespace Stream

open Decoder

/-! ## Transitions -/

/-- Transitions without actions cannot be renumbered. -/
theorem eq_of_renumbered {count : Nat} {ts ts' : List Transition}
    (h : ∀ t ∈ ts, ∃ outermostReturn, t.kind = .epsilon outermostReturn)
    (hts : List.Forall₂ (Transition.Renumbered count) ts ts') : ts' = ts := by
  induction hts with
  | nil => rfl
  | cons ht _ ih =>
    obtain ⟨⟨outermostReturn, hkind⟩, hrest⟩ := List.forall_mem_cons.mp h
    rcases ht with rfl | ⟨rule, index, flag, haction, -⟩
    · rw [ih hrest]
    · rw [hkind] at haction
      cases haction

/-- A renumbered action can be written if the action can and the entries can be counted. -/
theorem writable_of_renumbered {net : Network} {count : Nat} (hcount : IsValue count)
    {t t' : Transition} (h : t.Renumbered count t') (ht : t.Writable net) : t'.Writable net := by
  rcases h with rfl | ⟨rule, index, flag, hkind, i, hi, rfl⟩
  · exact ht
  · obtain ⟨hlive, ht⟩ := ht
    rw [hkind] at ht
    refine ⟨hlive, ht.1, ?_⟩
    rintro _ ⟨⟩
    have hgreatest := hcount.2
    exact ⟨by lia, by lia⟩

/-- What the written transitions are completed to: return transitions that end rules, and links
that are not written. -/
theorem linked_eq_ok {w : Written} {linked : Network} (h : w.linked = .ok linked) :
    ∃ returns, (w.network.addTransitions w.edges).returnEdges = .ok returns ∧
      Network.Revises State.written w.network linked ∧
      Network.Revises State.withoutKind ((w.network.addTransitions w.edges).addTransitions returns)
        linked := by
  obtain ⟨returned, hreturned, h⟩ := bind_eq_ok.mp h
  obtain ⟨returns, hreturns, rfl⟩ := Network.addReturnEdges_eq_ok.mp hreturned
  obtain ⟨hwritten, hrest⟩ := Network.revises_linkBlocksAndLoops h
  exact ⟨returns, hreturns, ((Network.keeps_addTransitions _ _).trans
    (Network.keeps_addTransitions _ _)).trans hwritten, hrest⟩

variable {w : Written}

/-- Each state has the transitions that were read for it, and then those that return from it. -/
theorem transitions_linked (hnone : w.network.TransitionsAre fun _ => []) {linked : Network}
    {returns : List (StateId × Transition)}
    (h : Network.Revises State.withoutKind
      ((w.network.addTransitions w.edges).addTransitions returns) linked) :
    linked.TransitionsAre fun k =>
      Network.transitionsFrom w.edges k ++ Network.transitionsFrom returns k := by
  exact ((hnone.addTransitions w.edges).addTransitions returns).of_keeps
    (h.keeps.comp State.transitions)

/-- Rules end in rule stop states of their own. -/
theorem exists_of_ruleStop? (hw : WellRead w) {rule : RuleIndex} {stop : StateId}
    (h : w.network.ruleStop? rule = some stop) :
    ∃ s, w.network.state? stop = some s ∧ s.kind.isRuleStop ∧ s.rule = some rule := by
  obtain ⟨s', hs', rfl, hkind, hrule⟩ := Network.rule_of_linkRuleStops hw.rulesLinked h
  obtain ⟨k, hk⟩ := Network.mem_states.mp hs'
  change w.network.stated.state? k = some s' at hk
  rw [Network.state?_stated] at hk
  obtain ⟨s, hs, rfl⟩ := Option.map_eq_some_iff.mp hk
  refine ⟨s, ?_, ?_, hrule⟩
  · have hnumber : s.number = k := hw.states.numbered k s hs
    exact hnumber.symm ▸ hs
  · rw [StateKind.isRuleStop_eq] at hkind ⊢
    rwa [← StateKind.type_written]

/-- Return transitions leave rule stop states only. -/
theorem transitionsFrom_returns (hw : WellRead w) {returns : List (StateId × Transition)}
    (h : (w.network.addTransitions w.edges).returnEdges = .ok returns) {k : StateId} {s : State}
    (hs : w.network.state? k = some s) (hstop : s.kind.isRuleStop = false) :
    Network.transitionsFrom returns k = [] := by
  rw [Network.transitionsFrom, List.map_eq_nil_iff, List.filter_eq_nil_iff]
  intro edge hedge
  obtain ⟨rule, hrule, -⟩ := Network.mem_returnEdges h hedge
  have htable := congrArg Network.ruleStops (Network.keeps_addTransitions w.network w.edges).tables
  change (w.network.addTransitions w.edges).ruleStops = w.network.ruleStops at htable
  rw [Network.ruleStop?, htable] at hrule
  obtain ⟨s', hs', hkind, -⟩ := exists_of_ruleStop? hw hrule
  intro hk
  rw [of_decide_eq_true hk, hs, Option.some.injEq] at hs'
  rw [← hs', hstop] at hkind
  cases hkind

/-- Return transitions consume nothing. -/
theorem epsilon_of_mem_returns {returns : List (StateId × Transition)}
    (h : (w.network.addTransitions w.edges).returnEdges = .ok returns) {k : StateId} :
    ∀ t ∈ Network.transitionsFrom returns k, ∃ outermostReturn,
      t.kind = .epsilon outermostReturn := by
  intro t ht
  obtain ⟨edge, hedge, rfl⟩ := List.mem_map.mp ht
  obtain ⟨-, -, hkind⟩ := Network.mem_returnEdges h (List.mem_of_mem_filter hedge)
  exact hkind

/-! ## Counting -/

/-- A list of transitions is as long as another one that has, from each state, at least as many. -/
theorem length_le_of_transitionsFrom {edges edges' : List (StateId × Transition)}
    (h : ∀ k, (Network.transitionsFrom edges k).length ≤
      (Network.transitionsFrom edges' k).length) : edges.length ≤ edges'.length := by
  have hcount : ∀ (edges : List (StateId × Transition)) k,
      (edges.map Prod.fst).count k = (Network.transitionsFrom edges k).length := by
    intro edges k
    rw [Network.transitionsFrom, List.length_map, ← List.countP_eq_length_filter, List.count,
      List.countP_map]
    exact List.countP_congr fun edge _ => by simp
  have hsub : (edges.map Prod.fst).Subperm (edges'.map Prod.fst) := by
    apply List.subperm_ext_iff.mpr
    intro k _
    rw [hcount, hcount]
    exact h k
  have hle := hsub.length_le
  rwa [List.length_map, List.length_map] at hle

/-- The written transitions of a network by their states. -/
theorem transitionsFrom_writtenPairs {net : Network} (hnumbered : net.Numbered) (k : StateId) :
    Network.transitionsFrom net.writtenPairs k =
      (net.state? k).toList.flatMap fun s => if s.kind.isRuleStop then [] else s.transitions := by
  have hpairs : net.writtenPairs = net.states.flatMap fun s =>
      if s.kind.isRuleStop then [] else s.transitions.map (s.number, ·) := by
    rw [Network.writtenPairs, writtenEdges]
    induction net.states with
    | nil => rfl
    | cons s rest ih =>
      rw [List.filter_cons, List.flatMap_cons, ← ih]
      cases s.kind.isRuleStop with
      | false =>
        rw [Bool.not_false, if_pos rfl, List.flatMap_cons, List.map_append, List.map_map]
        rfl
      | true => rfl
  rw [Network.transitionsFrom, hpairs, hnumbered.filter_flatMap fun s edge hedge => ?_,
    List.map_flatMap]
  · congr 1
    funext s
    cases s.kind.isRuleStop with
    | false => exact List.map_map.trans (List.map_id _)
    | true => rfl
  · cases hstop : s.kind.isRuleStop with
    | false =>
      rw [hstop] at hedge
      obtain ⟨t, -, rfl⟩ := List.mem_map.mp hedge
      rfl
    | true =>
      rw [hstop] at hedge
      cases hedge

/-- A network has no more written transitions than a list that has as many from each state that
ends no rule. -/
theorem length_writtenEdges_le {net : Network} (hnumbered : net.Numbered)
    {edges : List (StateId × Transition)}
    (h : ∀ k, ∀ s ∈ net.state? k, s.kind.isRuleStop = false →
      s.transitions.length = (Network.transitionsFrom edges k).length) :
    (writtenEdges net).length ≤ edges.length := by
  have hlength : (Network.writtenPairs net).length = (writtenEdges net).length :=
    List.length_map _
  rw [← hlength]
  apply length_le_of_transitionsFrom
  intro k
  rw [transitionsFrom_writtenPairs hnumbered]
  cases hs : net.state? k with
  | none => exact Nat.zero_le _
  | some s =>
    rw [Option.toList_some, List.flatMap_singleton]
    cases hstop : s.kind.isRuleStop with
    | false => exact (h k s hs hstop).le
    | true => exact Nat.zero_le _

/-! ## Completed networks -/

/-- A network that was completed from a stream: it has the written parts of the states that were
read, and each state has the transitions that were read for it and the return transitions, up to
the renumbering of actions. -/
structure Completes (w : Written) (returns : List (StateId × Transition)) (count : Nat)
    (net : Network) : Prop where
  restates : w.network.Restates net
  transitions : ∀ k, ∀ s ∈ net.state? k, List.Forall₂ (Transition.Renumbered count)
    (Network.transitionsFrom w.edges k ++ Network.transitionsFrom returns k) s.transitions

/-- No transition of a rule stop state was read. -/
def NoStopEdges (w : Written) : Prop :=
  ∀ k, ∀ s ∈ w.network.state? k, s.kind.isRuleStop → Network.transitionsFrom w.edges k = []

/-- Each state of a completed network ends a rule if the state that was read does. -/
theorem Completes.exists_state? {returns : List (StateId × Transition)} {count : Nat}
    {net : Network} (h : Completes w returns count net) {k : StateId} {s : State}
    (hs : s ∈ net.state? k) :
    ∃ s' ∈ w.network.state? k, s'.kind.isRuleStop = s.kind.isRuleStop :=
  h.restates.symm.exists_state? hs

/-- A state that ends no rule has the transitions that were read for it. -/
theorem Completes.written {returns : List (StateId × Transition)} {count : Nat} {net : Network}
    (h : Completes w returns count net) (hw : WellRead w)
    (hreturns : (w.network.addTransitions w.edges).returnEdges = .ok returns) {k : StateId}
    {s : State} (hs : s ∈ net.state? k) (hstop : s.kind.isRuleStop = false) :
    List.Forall₂ (Transition.Renumbered count) (Network.transitionsFrom w.edges k)
      s.transitions := by
  obtain ⟨s', hs', hsame⟩ := h.exists_state? hs
  have hk := h.transitions k s hs
  rwa [transitionsFrom_returns hw hreturns hs' (hsame.trans hstop), List.append_nil] at hk

/-- A rule stop state has its return transitions. -/
theorem Completes.returned {returns : List (StateId × Transition)} {count : Nat} {net : Network}
    (h : Completes w returns count net) (hstops : NoStopEdges w)
    (hreturns : (w.network.addTransitions w.edges).returnEdges = .ok returns) {k : StateId}
    {s : State} (hs : s ∈ net.state? k) (hstop : s.kind.isRuleStop) :
    s.transitions = Network.transitionsFrom returns k := by
  obtain ⟨s', hs', hsame⟩ := h.exists_state? hs
  have hk := h.transitions k s hs
  rw [hstops k s' hs' (hsame.trans hstop), List.nil_append] at hk
  exact eq_of_renumbered (epsilon_of_mem_returns hreturns) hk

/-- The transitions of a completed network that end no rule can be written. -/
theorem Completes.writable {returns : List (StateId × Transition)} {count : Nat} {net : Network}
    (h : Completes w returns count net) (hw : WellRead w) (hcount : IsValue count)
    (hreturns : (w.network.addTransitions w.edges).returnEdges = .ok returns) :
    ∀ s ∈ net.states, s.kind.isRuleStop = false → ∀ t ∈ s.transitions, t.Writable net := by
  intro s hs hstop t ht
  obtain ⟨k, hk⟩ := Network.mem_states.mp hs
  obtain ⟨t', ht', hrenumbered⟩ := exists_of_mem_forall₂ (h.written hw hreturns hk hstop) ht
  obtain ⟨edge, hedge, rfl⟩ := List.mem_map.mp ht'
  have hwritable := writable_of_restates h.restates
    (hw.edges edge (List.mem_of_mem_filter hedge)).2
  exact writable_of_renumbered hcount hrenumbered hwritable

/-- A completed network has no more written transitions than were read. -/
theorem Completes.edgeCount {returns : List (StateId × Transition)} {count : Nat} {net : Network}
    (h : Completes w returns count net) (hw : WellRead w)
    (hreturns : (w.network.addTransitions w.edges).returnEdges = .ok returns) :
    IsValue (writtenEdges net).length := by
  have hle := length_writtenEdges_le (h.restates.keeps.number.numbered hw.states.numbered)
    fun k s hs hstop => (h.written hw hreturns hs hstop).length_eq.symm
  have hgreatest := hw.edgeCount.2
  exact ⟨by lia, by lia⟩

/-- Each transition of a completed network was read, up to the renumbering of actions, or returns
from a rule. -/
theorem Completes.stems {returns : List (StateId × Transition)} {count : Nat} {net : Network}
    (h : Completes w returns count net)
    (hreturns : (w.network.addTransitions w.edges).returnEdges = .ok returns) {s : State}
    (hs : s ∈ net.states) {t : Transition} (ht : t ∈ s.transitions) :
    (∃ edge ∈ w.edges, edge.2.Renumbered count t) ∨
      ∃ outermostReturn, t.kind = .epsilon outermostReturn := by
  obtain ⟨k, hk⟩ := Network.mem_states.mp hs
  obtain ⟨t', ht', hrenumbered⟩ := exists_of_mem_forall₂ (h.transitions k s hk) ht
  rcases List.mem_append.mp ht' with hread | hreturn
  · obtain ⟨edge, hedge, rfl⟩ := List.mem_map.mp hread
    exact Or.inl ⟨edge, List.mem_of_mem_filter hedge, hrenumbered⟩
  · obtain ⟨outermostReturn, hkind⟩ := epsilon_of_mem_returns hreturns t' hreturn
    rcases hrenumbered with rfl | ⟨_, _, _, haction, -⟩
    · exact Or.inr ⟨outermostReturn, hkind⟩
    · rw [hkind] at haction
      cases haction

/-- What return transitions do not have is found among renumbered transitions at most as often as
there were others. -/
theorem countP_le_of_renumbered {count : Nat} {found : Transition → Bool}
    (hfound : ∀ t outermostReturn, t.kind = .epsilon outermostReturn → found t = false)
    {returned : List Transition}
    (hreturned : ∀ t ∈ returned, ∃ outermostReturn, t.kind = .epsilon outermostReturn)
    {read ts : List Transition}
    (h : List.Forall₂ (Transition.Renumbered count) (read ++ returned) ts) :
    ts.countP found ≤ read.length := by
  induction read generalizing ts with
  | nil =>
    rw [eq_of_renumbered hreturned h]
    refine le_of_eq (List.countP_eq_zero.mpr fun t ht => ?_)
    obtain ⟨outermostReturn, hkind⟩ := hreturned t ht
    rw [hfound t outermostReturn hkind]
    exact Bool.false_ne_true
  | cons t rest ih =>
    cases h with
    | cons _ hrest =>
      have hown : ∀ t : Transition, [t].countP found ≤ 1 := fun t => List.countP_le_length
      rw [← List.singleton_append, List.countP_append, List.length_cons, Nat.add_comm]
      exact Nat.add_le_add (ih hrest) (hown _)

/-- In a completed network it is found at most as often as transitions were read. -/
theorem Completes.length_filterMap_le {returns : List (StateId × Transition)} {count : Nat}
    {net : Network} (h : Completes w returns count net) (hw : WellRead w)
    (hreturns : (w.network.addTransitions w.edges).returnEdges = .ok returns) {β : Type}
    {f : Transition → Option β}
    (hf : ∀ t outermostReturn, t.kind = .epsilon outermostReturn → f t = none) :
    ((net.states.flatMap State.transitions).filterMap f).length ≤ w.edges.length := by
  let found : Transition → Bool := fun t => (f t).isSome
  have hfound : ∀ t outermostReturn, t.kind = .epsilon outermostReturn → found t = false :=
    fun t outermostReturn hkind => by
      change (f t).isSome = false
      rw [hf t outermostReturn hkind]
      rfl
  -- Counted with their states, transitions can be compared state by state with those that were read.
  let pairs := net.states.flatMap fun s => (s.transitions.filter found).map (s.number, ·)
  have hlength : ((net.states.flatMap State.transitions).filterMap f).length = pairs.length := by
    rw [List.length_filterMap_eq_countP, List.countP_flatMap, List.length_flatMap]
    congr 1
    refine List.map_congr_left fun s _ => ?_
    rw [List.length_map, Function.comp_apply, List.countP_eq_length_filter]
  rw [hlength]
  apply length_le_of_transitionsFrom
  intro k
  have hnumbered := h.restates.keeps.number.numbered hw.states.numbered
  have hpairs : ∀ s : State, ∀ edge ∈ (s.transitions.filter found).map (s.number, ·),
      edge.1 = s.number := by
    intro s edge hedge
    obtain ⟨t, -, rfl⟩ := List.mem_map.mp hedge
    rfl
  rw [Network.transitionsFrom, hnumbered.filter_flatMap hpairs]
  cases hs : net.state? k with
  | none => exact Nat.zero_le _
  | some s =>
    rw [Option.toList_some, List.flatMap_singleton, List.length_map, List.length_map,
      ← List.countP_eq_length_filter]
    exact countP_le_of_renumbered hfound (epsilon_of_mem_returns hreturns) (h.transitions k s hs)

/-- The sets of a completed network can be written, also those of rule stop states. -/
theorem Completes.sets {returns : List (StateId × Transition)} {count : Nat} {net : Network}
    (h : Completes w returns count net) (hw : WellRead w)
    (hreturns : (w.network.addTransitions w.edges).returnEdges = .ok returns) :
    IsValue (usedSets net).length ∧ ∀ used ∈ usedSets net, used.Writable := by
  have hepsilon : ∀ (t : Transition) outermostReturn, t.kind = .epsilon outermostReturn →
      usedSet? t = none := fun t outermostReturn hkind => by rw [usedSet?, hkind]
  refine ⟨?_, fun used hused => ?_⟩
  · have hdups := length_eraseDups_le
      ((net.states.flatMap State.transitions).filterMap usedSet?)
    have hle := h.length_filterMap_le hw hreturns hepsilon
    have hcount := hw.edgeCount.2
    rw [usedSets]
    exact ⟨by lia, by lia⟩
  · obtain ⟨t, ht, htused⟩ := List.mem_filterMap.mp (List.mem_eraseDups.mp hused)
    obtain ⟨s, hs, ht⟩ := List.mem_flatMap.mp ht
    rcases h.stems hreturns hs ht with ⟨edge, hedge, hrenumbered⟩ | ⟨outermostReturn, hkind⟩
    · rcases hrenumbered with rfl | ⟨_, _, _, -, _, -, rfl⟩
      · exact writable_of_usedSet? (hw.edges edge hedge).2 htused
      · cases htused
    · rw [hepsilon t outermostReturn hkind] at htused
      cases htused

/-! ## Actions -/

/-- What becomes of the actions: nothing, or in a lexer from an older stream their transitions
refer to the entries of a table. -/
structure ActionsRead (decided result : Network) : Prop where
  withoutActions : result.withoutActions = decided.withoutActions
  renumbered : ∀ k, Option.Rel (State.Renumbered result.lexerActions.length) (decided.state? k)
    (result.state? k)
  count : IsValue result.lexerActions.length
  actions : ∀ action ∈ result.lexerActions, action.Writable
  noActions : result.grammar = .parser → result.lexerActions = []

/-- A network with other lexer actions has the same states. -/
theorem actionsRead_of_actions (decided : Network) {actions : List LexerAction}
    (hcount : IsValue actions.length) (hactions : ∀ action ∈ actions, action.Writable)
    (hnone : decided.grammar = .parser → actions = []) :
    ActionsRead decided { decided with lexerActions := actions } := by
  refine ⟨rfl, fun k => ?_, hcount, hactions, hnone⟩
  change Option.Rel _ (decided.state? k) (decided.state? k)
  cases decided.state? k with
  | none => exact Option.Rel.none
  | some s => exact Option.Rel.some (State.Renumbered.refl _ s)

/-- An entry of the table can be written if its transition can. -/
theorem writable_of_customAction? {net : Network} {t : Transition} {action : LexerAction}
    (ht : t.Writable net) (h : t.customAction? = some action) : action.Writable := by
  obtain ⟨target, kind⟩ := t
  obtain ⟨-, hkind⟩ := ht
  cases kind with
  | action owner index contextDependent =>
    cases h
    obtain ⟨howner, hindex⟩ := hkind
    refine ⟨howner, ?_⟩
    cases index with
    | none => exact (by decide : IsValue (-1))
    | some i => exact hindex i rfl
  | _ => cases h

/-- The actions of a network can be written if those that the table would get can. -/
theorem yields_actionsRead {revision : Revision} {decided : Network}
    (hnone : decided.lexerActions = [])
    (hcount : IsValue decided.tabulateActions.lexerActions.length)
    (hentries : ∀ action ∈ decided.tabulateActions.lexerActions, action.Writable) :
    Yields (lexerActions revision decided) (ActionsRead decided) := by
  rw [lexerActions]
  split
  next hgrammar =>
    have hsame : decided = { decided with lexerActions := [] } := by rw [← hnone]
    apply Yields.pure
    have hnil : IsValue ([] : List LexerAction).length := by decide
    have hread := actionsRead_of_actions decided hnil (fun _ h => by cases h) fun _ => rfl
    rwa [← hsame] at hread
  next hgrammar =>
    split
    · exact (Yields.counted yields_lexerAction).bind fun actions hactions =>
        Yields.pure (actionsRead_of_actions decided hactions.1 hactions.2 fun h => by
          rw [hgrammar] at h
          cases h)
    · refine Yields.pure ⟨decided.withoutActions_tabulateActions, decided.state?_tabulateActions,
        hcount, hentries, fun h => ?_⟩
      cases hgrammar.symm.trans h

/-- The section of the lexer actions leaves all but actions, which refer to the entries of a table
afterwards. -/
theorem yields_lexerActions {revision : Revision} {decided : Network}
    (hnone : decided.lexerActions = [])
    (hcount : IsValue (writtenEdges decided).length)
    (hreturns : ∀ s ∈ decided.states, s.kind.isRuleStop → ∀ t ∈ s.transitions,
      ∃ outermostReturn, t.kind = .epsilon outermostReturn)
    (hedges : ∀ s ∈ decided.states, s.kind.isRuleStop = false → ∀ t ∈ s.transitions,
      t.Writable decided) :
    Yields (lexerActions revision decided) (ActionsRead decided) := by
  have hstop : ∀ s ∈ decided.states, s.kind.isRuleStop → ∀ t ∈ s.transitions,
      t.customAction? = none := by
    intro s hs hs' t ht
    obtain ⟨outermostReturn, hkind⟩ := hreturns s hs hs' t ht
    rw [Transition.customAction?, hkind]
  refine yields_actionsRead hnone ?_ fun action haction => ?_
  · have hle : decided.tabulateActions.lexerActions.length ≤ (writtenEdges decided).length :=
      length_filterMap_le hstop
    exact ⟨by lia, by have := hcount.2; lia⟩
  · obtain ⟨t, ht, hfound⟩ := List.mem_filterMap.mp haction
    obtain ⟨s, hs, ht⟩ := List.mem_flatMap.mp ht
    cases hs' : s.kind.isRuleStop with
    | true =>
      rw [hstop s hs hs' t ht] at hfound
      cases hfound
    | false => exact writable_of_customAction? (hedges s hs hs' t ht) hfound

/-- Reading lexer actions changes nothing but actions. -/
theorem yields_withoutActions (revision : Revision) (decided : Network) :
    Yields (lexerActions revision decided) fun result =>
      result.withoutActions = decided.withoutActions := by
  rw [lexerActions]
  split
  · exact Yields.pure rfl
  · split
    · exact (Yields.counted yields_lexerAction).bind fun actions _ => Yields.pure rfl
    · exact Yields.pure decided.withoutActions_tabulateActions

/-- Networks that look alike without actions have the same written states. -/
theorem restates_of_withoutActions {net net' : Network}
    (h : net'.withoutActions = net.withoutActions) : net.Restates net' := by
  have hgrammar := congrArg Network.grammar h
  refine ⟨hgrammar, ?_, fun k => ?_⟩
  · rw [← net.size_withoutActions, ← h, Network.size_withoutActions]
  · have hk := congrArg (fun net => (net.state? k).map State.written) h
    simp only [Network.state?_withoutActions, Option.map_map] at hk
    exact hk

/-! ## Loading -/

/-- The steps of a load without bypass transitions, from a stream that was read up to its
transitions to the network. -/
structure Loaded (options : LoadOptions) (w : Written) (linked : Network) (ids : List StateId)
    (result net : Network) : Prop where
  wellRead : WellRead w
  linkedOk : w.linked = .ok linked
  idCount : IsValue ids.length
  admits : ∀ id ∈ ids, (linked.kind? id).any StateRole.decision.admits
  withoutActions : result.withoutActions = (linked.addDecisions ids).withoutActions
  complete : result.complete options = .ok net
  marked : net = result.markPrecedenceDecisions

/-- The section of the decisions numbers a list of states that can be decisions. -/
theorem yields_decisions (linked : Network) :
    Yields (decisions linked) fun decided => ∃ ids : List StateId, IsValue ids.length ∧
      (∀ id ∈ ids, (linked.kind? id).any StateRole.decision.admits) ∧
        decided = linked.addDecisions ids :=
  (yields_stateIds linked .decision).bind fun ids hids =>
    Yields.pure ⟨ids, hids.1, hids.2, rfl⟩

/-- Without bypass transitions, completing a network only marks its precedence decisions. -/
theorem eq_of_complete {verify : Bool} {result net : Network}
    (h : result.complete ⟨verify, false⟩ = .ok net) : net = result.markPrecedenceDecisions := by
  obtain ⟨_, -, h⟩ := bind_eq_ok.mp h
  rw [if_neg (by simp)] at h
  cases h
  rfl

/-- Behind the transitions, a load changes neither the vocabulary nor the rules, and adds no
slots. -/
theorem Loaded.sameTables {options : LoadOptions} {linked result net : Network}
    {ids : List StateId} (h : Loaded options w linked ids result net) :
    net.maxTokenType = w.network.maxTokenType ∧ net.ruleStarts = w.network.ruleStarts ∧
      net.slots.size = w.network.slots.size := by
  obtain ⟨returns, -, hwritten, -⟩ := linked_eq_ok h.linkedOk
  have hmarked := result.revises_markPrecedenceDecisions.1
  let part (net : Network) : TokenType × List StateId := (net.maxTokenType, net.ruleStarts)
  have hsame : part net = part w.network := by
    have hlinked := congrArg part hwritten.tables
    have hdecided := congrArg part (linked.tables_addDecisions ids)
    have hresult := congrArg part h.withoutActions
    have hlast := congrArg part hmarked.tables
    rw [h.marked]
    exact hlast.trans (hresult.trans (hdecided.trans hlinked))
  refine ⟨congrArg Prod.fst hsame, congrArg Prod.snd hsame, ?_⟩
  rw [h.marked, hmarked.size, ← result.size_withoutActions, h.withoutActions,
    Network.size_withoutActions, Network.size_addDecisions, hwritten.size]

/-- The greatest token type is the one that was read. -/
theorem Loaded.maxTokenType {options : LoadOptions} {linked result net : Network}
    {ids : List StateId} (h : Loaded options w linked ids result net) :
    IsValue net.maxTokenType :=
  h.sameTables.1 ▸ h.wellRead.maxTokenType

/-- A load goes through these steps, and the last of its reading steps gives what it yields. -/
theorem exists_loaded {verify : Bool} {units : List UInt16} {net : Network}
    (h : Network.load ⟨verify, false⟩ units = .ok net) :
    ∃ w cursor linked ids result, written.runOn units = (.ok w, cursor) ∧
      Loaded ⟨verify, false⟩ w linked ids result net ∧
      ∀ property, Yields (lexerActions w.revision (linked.addDecisions ids)) property →
        property result := by
  obtain ⟨last, hlast⟩ : ∃ last, (Network.loader ⟨verify, false⟩).runFrom (Cursor.start units) =
      (.ok net, last) := ⟨_, Prod.ext h rfl⟩
  obtain ⟨result, final, hnetwork, hcomplete⟩ := runFrom_bind_eq_ok hlast
  obtain ⟨w, cursor, hwritten, hnetwork⟩ := runFrom_bind_eq_ok hnetwork
  obtain ⟨linked, behind, hlinked, hnetwork⟩ := runFrom_bind_eq_ok hnetwork
  obtain ⟨decided, next, hdecided, hactions⟩ := runFrom_bind_eq_ok hnetwork
  obtain ⟨hposition, hw⟩ := wellRead_of_runOn hwritten
  rw [runFrom_ofResult, Prod.mk.injEq] at hlinked hcomplete
  obtain ⟨hlinked, rfl⟩ := hlinked
  obtain ⟨hcomplete, -⟩ := hcomplete
  obtain ⟨hnext, ids, hcount, hids, rfl⟩ := yields_decisions linked _ next decided hposition hdecided
  have hyields : ∀ property, Yields (lexerActions w.revision (linked.addDecisions ids)) property →
      property result := fun property hproperty =>
    (hproperty next final result hnext hactions).2
  exact ⟨w, cursor, linked, ids, result, hwritten,
    ⟨hw, hlinked, hcount, hids, hyields _ (yields_withoutActions _ _), hcomplete,
      eq_of_complete hcomplete⟩, hyields⟩

/-- Numbering decisions leaves the written parts of the states. -/
theorem restates_addDecisions (net : Network) (ids : List StateId) :
    net.Restates (net.addDecisions ids) := by
  have hgrammar := congrArg Network.grammar (net.tables_addDecisions ids)
  exact ⟨hgrammar, net.size_addDecisions ids, (net.keeps_addDecisions ids).comp State.written⟩

/-- The transitions of a network that was completed from a stream, before actions are moved. -/
def completedTransitions (w : Written) (returns : List (StateId × Transition)) (k : StateId) :
    List Transition :=
  Network.transitionsFrom w.edges k ++ Network.transitionsFrom returns k

/-- A network with the transitions that were read and the return transitions completes what was
read. -/
theorem completes_of_transitionsAre {returns : List (StateId × Transition)} {net : Network}
    (hrestates : w.network.Restates net)
    (h : net.TransitionsAre (completedTransitions w returns)) : Completes w returns 0 net := by
  refine ⟨hrestates, fun k s hs => ?_⟩
  change List.Forall₂ _ (completedTransitions w returns k) _
  rw [← h k s hs]
  exact (State.Renumbered.refl 0 s).2

/-- Moving actions and marking precedence decisions leaves a network completed. -/
theorem completes_marked {returns : List (StateId × Transition)} {decided result : Network}
    (hrestates : w.network.Restates decided)
    (h : decided.TransitionsAre (completedTransitions w returns))
    (hactions : ActionsRead decided result) :
    Completes w returns result.lexerActions.length result.markPrecedenceDecisions := by
  obtain ⟨hwritten, hrest⟩ := result.revises_markPrecedenceDecisions
  refine ⟨(hrestates.trans (restates_of_withoutActions hactions.withoutActions)).trans
    hwritten.restates, fun k s hs => ?_⟩
  obtain ⟨s', hs', hsame⟩ := (hrest.keeps.comp State.transitions).exists_of_state? hs
  have hk := hactions.renumbered k
  rw [hs'] at hk
  generalize hd : decided.state? k = d at hk
  cases hk with
  | some hrenumbered =>
    have htransitions := h k _ hd
    change List.Forall₂ _ (completedTransitions w returns k) _
    rw [← htransitions]
    exact hsame ▸ hrenumbered.2

end Stream

end TransitionNetwork
