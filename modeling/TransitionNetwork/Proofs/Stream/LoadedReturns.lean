import TransitionNetwork.Proofs.Network.ReturnTransitions
import TransitionNetwork.Proofs.Stream.LoadedActions
import TransitionNetwork.Proofs.Stream.RoundTrip

/-!
# Return transitions of loaded networks

In a network that was loaded without bypasses, the transitions of a state are those that the stream
states for it, in the order of the stream. Behind them the last state of a rule has one return
transition for each call of the rule, whether the rule calls itself, is called several times from
one state or is not called at all. No other state has any.
-/

namespace TransitionNetwork

/-- Transitions as units state them, but that in a lexer from before the table of actions each
action refers to an entry of the table instead. -/
def Network.RestatesTransitions (net : Network) (units : List UInt16)
    (stated ts : List Transition) : Prop :=
  List.Forall₂ (Transition.Renumbered net.lexerActions.length) stated ts ∧
    ((∀ revision, Stream.taggedRevision units = .ok revision → net.grammar = .lexer →
      revision.supports .lexerActions) → ts = stated)

namespace Stream

open Decoder

variable {options : LoadOptions} {w : Written} {linked result net : Network} {ids : List StateId}

/-- A loaded network has the last states of rules that were linked when the rules were read. -/
theorem Loaded.ruleStops_eq (h : Loaded options w linked ids result net) :
    net.ruleStops = w.network.ruleStops := by
  obtain ⟨returns, -, hwritten, -⟩ := linked_eq_ok h.linkedOk
  have hlinked := congrArg Network.ruleStops hwritten.tables
  have hdecided := congrArg Network.ruleStops (linked.tables_addDecisions ids)
  have hresult := congrArg Network.ruleStops h.withoutActions
  rw [h.marked]
  exact (Eq.trans hresult hdecided).trans hlinked

/-- The transitions of a loaded network are those that were read and those that return, up to the
renumbering of actions in older lexers. -/
theorem Loaded.transitions (h : Loaded options w linked ids result net)
    (hactions : ActionsFrom w.revision (linked.addDecisions ids) result)
    {returns : List (StateId × Transition)}
    (hreturns : (w.network.addTransitions w.edges).returnEdges = .ok returns) {k : StateId}
    {s : State} (hs : net.state? k = some s) :
    List.Forall₂ (Transition.Renumbered net.lexerActions.length)
      (completedTransitions w returns k) s.transitions ∧
    ((net.grammar = .lexer → w.revision.supports .lexerActions) →
      s.transitions = completedTransitions w returns k) := by
  obtain ⟨returns', hreturns', -, hrest⟩ := linked_eq_ok h.linkedOk
  obtain rfl : returns = returns' := Except.ok.inj (hreturns.symm.trans hreturns')
  have hmarks := result.revises_markPrecedenceDecisions.2.keeps
  rw [← h.marked] at hmarks
  obtain ⟨s', hs', hsame⟩ := (hmarks.comp State.transitions).exists_of_state? hs
  change s.transitions = s'.transitions at hsame
  have hdecided := h.transitionsAre_decided hrest
  obtain ⟨hrenumbered, hnew⟩ := hactions.states k
  rw [hs'] at hrenumbered
  obtain ⟨s₀, hs₀, hrenumbered⟩ := exists_of_rel_of_some hrenumbered
  have hgrammar : net.grammar = (linked.addDecisions ids).grammar := by
    rw [h.marked]
    exact hactions.grammar_eq
  rw [hsame, h.lexerActions_eq, ← hdecided k s₀ hs₀]
  refine ⟨hrenumbered.2, fun hsupports => ?_⟩
  have hstate := hnew fun ⟨hlexer, hold⟩ => by
    rw [hsupports (hgrammar.trans hlexer)] at hold
    cases hold
  rw [hs', hs₀, Option.some.injEq] at hstate
  rw [hstate]

/-- Transitions that consume nothing are left where they stand when others are renumbered. -/
theorem exists_append_of_renumbered {count : Nat} {read returned ts : List Transition}
    (hreturned : ∀ t ∈ returned, ∃ outermostReturn, t.kind = .epsilon outermostReturn)
    (h : List.Forall₂ (Transition.Renumbered count) (read ++ returned) ts) :
    ∃ own, List.Forall₂ (Transition.Renumbered count) read own ∧ ts = own ++ returned := by
  have hread := List.forall₂_take read.length h
  have hrest := List.forall₂_drop read.length h
  rw [List.take_left] at hread
  rw [List.drop_left] at hrest
  refine ⟨ts.take read.length, hread, ?_⟩
  rw [← eq_of_renumbered hreturned hrest, List.take_append_drop]

/-- A rule is called in a loaded network as in the network that was read. -/
theorem Loaded.returnsOf_eq (h : Loaded options w linked ids result net)
    (hactions : ActionsFrom w.revision (linked.addDecisions ids) result)
    {returns : List (StateId × Transition)}
    (hreturns : (w.network.addTransitions w.edges).returnEdges = .ok returns) (rule : RuleIndex) :
    net.returnsOf rule = (w.network.addTransitions w.edges).returnsOf rule := by
  have hread := w.network.keeps_addTransitions w.edges
  have hrestates := h.restates
  have hwritten := hread.keeps.symm.trans hrestates.keeps
  obtain ⟨-, -, -, hstarts, -⟩ := h.tables
  have htable := congrArg Network.ruleStarts hread.tables
  refine Network.returnsOf_of_keeps hwritten (hstarts.trans htable.symm)
    (hrestates.size.trans hread.size.symm) fun k => ?_
  have hlive := hwritten.isSome k
  cases hs : (w.network.addTransitions w.edges).state? k with
  | none =>
    rw [hs, Option.isSome_none, Option.isSome_eq_false_iff, Option.isNone_iff_eq_none] at hlive
    rw [hlive]
  | some s =>
    obtain ⟨s', hs'⟩ := Option.isSome_iff_exists.mp (hlive.trans (by rw [hs]; rfl))
    have hstated : s.transitions = Network.transitionsFrom w.edges k :=
      Network.TransitionsAre.addTransitions h.wellRead.transitions w.edges k s hs
    rw [hs', Option.map_some, Option.map_some,
      Network.filterMap_returnOf?_of_renumbered _ rule (h.transitions hactions hreturns hs').1,
      completedTransitions, List.filterMap_append,
      Network.filterMap_returnOf?_of_epsilon _ rule (epsilon_of_mem_returns hreturns),
      List.append_nil, hstated]

/-- Rules end where they ended in the network that was read. -/
theorem Loaded.ruleStop?_read (h : Loaded options w linked ids result net) (rule : RuleIndex) :
    (w.network.addTransitions w.edges).ruleStop? rule = net.ruleStop? rule := by
  have htables := congrArg Network.ruleStops (w.network.keeps_addTransitions w.edges).tables
  have htable : (w.network.addTransitions w.edges).ruleStops = net.ruleStops :=
    Eq.trans htables h.ruleStops_eq.symm
  rw [Network.ruleStop?, Network.ruleStop?, htable]

section

variable {returns : List (StateId × Transition)}
  (hreturns : (w.network.addTransitions w.edges).returnEdges = .ok returns)

include hreturns

/-- The return transitions of the last state of a rule are those of the calls of that rule. -/
theorem Loaded.transitionsFrom_of_ruleStop (h : Loaded options w linked ids result net)
    (hactions : ActionsFrom w.revision (linked.addDecisions ids) result) {rule : RuleIndex}
    {stop : StateId} (hstop : net.ruleStop? rule = some stop) :
    Network.transitionsFrom returns stop = net.returnsOf rule := by
  have howned := h.wellReferenced.ruleStops
  obtain ⟨s, hs, -, hrule⟩ := howned rule stop hstop
  rw [h.returnsOf_eq hactions hreturns]
  refine Network.filter_returnEdges ((h.ruleStop?_read rule).trans hstop) (fun other hother => ?_)
    hreturns
  -- The state is the last one of its own rule only.
  obtain ⟨s', hs', -, hrule'⟩ := howned other stop ((h.ruleStop?_read other).symm.trans hother)
  cases hs.symm.trans hs'
  exact Option.some.inj (hrule'.symm.trans hrule)

/-- States in which no rule ends have no return transitions. -/
theorem Loaded.transitionsFrom_eq_nil (h : Loaded options w linked ids result net) {k : StateId}
    (hnone : ∀ rule, net.ruleStop? rule ≠ some k) : Network.transitionsFrom returns k = [] := by
  rw [Network.transitionsFrom, List.map_eq_nil_iff, List.filter_eq_nil_iff]
  intro edge hedge hk
  obtain ⟨rule, hrule, -⟩ := Network.mem_returnEdges hreturns hedge
  rw [of_decide_eq_true hk, h.ruleStop?_read] at hrule
  exact hnone rule hrule

end

end Stream

namespace Network

/-- In a network loaded without bypasses, the last state of a rule has the transitions that the
stream states for it and behind them the return transitions of the calls of that rule. Every other
state, be it a rule stop state, has those that the stream states and no others. -/
theorem transitions_of_load {verify : Bool} {units : List UInt16} {net : Network}
    (h : load ⟨verify, false⟩ units = .ok net) :
    (∀ rule stop, net.ruleStop? rule = some stop → ∃ s, net.state? stop = some s ∧
      ∃ own, net.RestatesTransitions units (transitionsFrom (Stream.statedEdges units) stop) own ∧
        s.transitions = own ++ net.returnsOf rule) ∧
    ∀ k s, net.state? k = some s → (∀ rule, net.ruleStop? rule ≠ some k) →
      net.RestatesTransitions units (transitionsFrom (Stream.statedEdges units) k)
        s.transitions := by
  obtain ⟨w, cursor, linked, ids, result, hwritten, hloaded, hyields⟩ := Stream.exists_loaded h
  have hactions := hyields _ (Stream.yields_actionsFrom _ _)
  obtain ⟨returns, hreturns, -, -⟩ := Stream.linked_eq_ok hloaded.linkedOk
  have hedges : Stream.statedEdges units = w.edges := by rw [Stream.statedEdges, hwritten]
  have hsupports (htag : ∀ revision, Stream.taggedRevision units = .ok revision →
      net.grammar = .lexer → revision.supports .lexerActions) :=
    htag w.revision (Stream.taggedRevision_of_runOn hwritten)
  rw [hedges]
  constructor
  · intro rule stop hstop
    obtain ⟨s, hs, -, -⟩ := hloaded.wellReferenced.ruleStops rule stop hstop
    have hreturned := hloaded.transitionsFrom_of_ruleStop hreturns hactions hstop
    obtain ⟨hrenumbered, hnew⟩ := hloaded.transitions hactions hreturns hs
    obtain ⟨own, hown, htransitions⟩ := Stream.exists_append_of_renumbered
      (Stream.epsilon_of_mem_returns hreturns) hrenumbered
    rw [hreturned] at htransitions
    refine ⟨s, hs, own, ⟨hown, fun htag => ?_⟩, htransitions⟩
    have hsame := hnew (hsupports htag)
    rw [htransitions, Stream.completedTransitions, hreturned] at hsame
    exact List.append_cancel_right hsame
  · intro k s hs hnone
    obtain ⟨hrenumbered, hnew⟩ := hloaded.transitions hactions hreturns hs
    rw [Stream.completedTransitions, hloaded.transitionsFrom_eq_nil hreturns hnone,
      List.append_nil] at hrenumbered hnew
    exact ⟨hrenumbered, fun htag => hnew (hsupports htag)⟩

/-- The second rule of the parser with a loop is called once, by an outermost call, and has
precedence levels; so its last state has one return transition, which carries the rule. -/
theorem transitions_of_load_loopParser :
    ∃ net s own, load ⟨true, false⟩ loopParserUnits = .ok net ∧ net.ruleStop? 1 = some 4 ∧
      net.state? 4 = some s ∧ net.returnsOf 1 = [⟨1, .epsilon (some 1)⟩] ∧
      net.RestatesTransitions loopParserUnits
        (transitionsFrom (Stream.statedEdges loopParserUnits) 4) own ∧
      s.transitions = own ++ net.returnsOf 1 := by
  have hload : ((load ⟨true, false⟩ loopParserUnits).toOption.map fun net =>
      (net.ruleStop? 1, net.returnsOf 1)) = some (some 4, [⟨1, .epsilon (some 1)⟩]) := by
    decide +kernel
  obtain ⟨net, hnet, hfacts⟩ := Option.map_eq_some_iff.mp hload
  obtain ⟨hstop, hreturns⟩ := Prod.mk.inj hfacts
  obtain ⟨s, hs, own, hown, htransitions⟩ :=
    (transitions_of_load (eq_ok_of_toOption hnet)).1 1 4 hstop
  exact ⟨net, s, own, eq_ok_of_toOption hnet, hstop, hs, hreturns, hown, htransitions⟩

end Network

end TransitionNetwork
