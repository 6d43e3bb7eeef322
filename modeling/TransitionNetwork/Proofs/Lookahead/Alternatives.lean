import Mathlib.Logic.Relation
import TransitionNetwork.Proofs.Lookahead.Paths

/-!
# Lookahead of alternatives

An alternative is explored from the target of its transition, with nothing pending. At the end of a
rule the last pending call continues; with nothing pending, the transitions of the rule stop state
are followed, which return to wherever the rule is called. Predicates are not passed. Unless the
walk passes over a call, it finds what the exploration meets: no entry if a predicate is met or
nothing is consumed, and otherwise the tokens that are consumed.
-/

namespace TransitionNetwork

namespace Transition

/-- Whether the transition is followed as if nothing stood there. -/
def passes (t : Transition) : Bool :=
  match t.kind with
  | .epsilon _ | .action _ _ _ => true
  | _ => false

/-- Whether the transition depends on a predicate or on the precedence level. -/
def isPredicate (t : Transition) : Bool :=
  match t.kind with
  | .predicate _ _ _ | .precedence _ => true
  | _ => false

/-- Of the transitions that consume a token, only those whose label holds it consume the end of the
input. -/
theorem exists_label_of_accepts_eof {t : Transition} {greatest : TokenType}
    (h : t.accepts Token.eof Token.firstUser greatest) :
    ∃ label, t.label? = some label ∧ label.contains Token.eof := by
  have hbelow : decide (Token.firstUser ≤ Token.eof) = false := rfl
  obtain ⟨target, kind⟩ := t
  cases kind with
  | atom label => exact ⟨_, rfl, (IntervalSet.contains_singleton _ _).mpr (of_decide_eq_true h).symm⟩
  | range start stop =>
    obtain ⟨hstart, hstop⟩ := Bool.and_eq_true_iff.mp h
    exact ⟨_, rfl, (IntervalSet.contains_ofRange _ _ _).mpr
      ⟨of_decide_eq_true hstart, of_decide_eq_true hstop⟩⟩
  | set label => exact ⟨label, rfl, h⟩
  | notSet excluded => simp [accepts, hbelow] at h
  | wildcard => simp [accepts, hbelow] at h
  | _ => cases h

end Transition

namespace Network

/-- A transition leaves the state of a place and is followed there: not from the end of a rule while
a call is pending. -/
def Follows (net : Network) (place : Place) (t : Transition) : Prop :=
  ∃ s, net.state? place.state = some s ∧ t ∈ s.transitions ∧
    (s.kind.isRuleStop → place.pending = [])

/-- A step of exploring an alternative. -/
inductive Explores (net : Network) : Place → Place → Prop
  /-- The end of a rule returns to where its call continues. -/
  | back {id follow : StateId} {pending : List StateId}
      (hstop : (net.kind? id).any StateKind.isRuleStop) :
      Explores net ⟨id, follow :: pending⟩ ⟨follow, pending⟩
  /-- A transition that consumes nothing leaves the pending calls. -/
  | pass {place : Place} {t : Transition} (hfollows : net.Follows place t) (hpasses : t.passes) :
      Explores net place ⟨t.target, place.pending⟩
  /-- A call leaves the state in which to continue pending. -/
  | call {place : Place} {t : Transition} {follow : StateId} (hfollows : net.Follows place t)
      (hfollow : t.follow? = some follow) :
      Explores net place ⟨t.target, follow :: place.pending⟩

/-- A transition is met where an alternative that begins in a state is explored. -/
def Meets (net : Network) (start : StateId) (t : Transition) : Prop :=
  ∃ place, Relation.ReflTransGen net.Explores ⟨start, []⟩ place ∧ net.Follows place t

/-- The lookahead of an alternative that begins in a state is exact. -/
structure ExactLookahead (net : Network) (start : StateId) (entry : Option IntervalSet) : Prop where
  /-- There is none exactly if a predicate is met or nothing is consumed. -/
  none_iff : entry = none ↔ (∃ t, net.Meets start t ∧ t.isPredicate) ∨
    ∀ t token, net.Meets start t → ¬ t.accepts token Token.firstUser net.maxTokenType
  /-- Otherwise it holds the tokens that are consumed by the transitions that are met. -/
  contains_iff : ∀ tokens ∈ entry, ∀ token, tokens.contains token ↔
    ∃ t, net.Meets start t ∧ t.accepts token Token.firstUser net.maxTokenType
  /-- The end of the input is among them only if it is in the label of a transition that is met. -/
  eof : ∀ tokens ∈ entry, tokens.contains Token.eof →
    ∃ t label, net.Meets start t ∧ t.label? = some label ∧ label.contains Token.eof

end Network

namespace Lookahead

/-- The lookahead of an alternative ends at predicates, and does not end with the stack. -/
def alternativeOptions : WalkOptions :=
  { stop := none, throughPredicates := false, collectsEof := false }

variable {net : Network} {context : Option Context} {k k' : Configuration} {place place' : Place}
  {id : StateId} {s : State} {t : Transition} {pending : List StateId} {token : TokenType}

/-! ## Following -/

/-- In an alternative a walk moves along the transitions that are followed as if nothing stood
there. -/
theorem moves_alternativeOptions (t : Transition) :
    moves alternativeOptions t.kind = t.passes := by
  obtain ⟨target, kind⟩ := t
  cases kind <;> rfl

/-- In an alternative a walk is blocked at predicates. -/
theorem blocks_alternativeOptions (t : Transition) :
    blocks alternativeOptions t.kind = t.isPredicate := by
  obtain ⟨target, kind⟩ := t
  cases kind <;> rfl

/-- Above the empty stack there is always a context. -/
theorem exists_context_of_stacked
    (hcontext : context.map Context.skeleton = stacked pending (some .empty)) :
    ∃ c, context = some c ∧ (c.isEmpty = true ↔ pending = []) := by
  cases pending with
  | nil =>
    rw [eq_bottom_of_stacked (by rintro _ ⟨⟩; rfl) hcontext]
    exact ⟨.empty, rfl, iff_of_true rfl rfl⟩
  | cons follow below =>
    obtain ⟨c, e, rfl, hnonempty, -⟩ := exists_entry_of_stacked hcontext
    exact ⟨c, rfl, iff_of_false (by simp [hnonempty]) (List.cons_ne_nil follow below)⟩

/-- The transitions of a state are followed unless its rule ends and a call is pending. -/
theorem goesOn_alternativeOptions_iff
    (hcontext : context.map Context.skeleton = stacked pending (some .empty)) :
    GoesOn alternativeOptions id s context ↔ (s.kind.isRuleStop → pending = []) := by
  obtain ⟨c, rfl, hempty⟩ := exists_context_of_stacked hcontext
  -- There is always a context and the end of the input is not collected, so nothing ends here.
  have hends (token : TokenType) : ¬ EndsWith alternativeOptions id s (some c) token := by
    rintro ⟨-, ⟨hnone, -⟩ | ⟨-, -, -, heof, -⟩⟩
    · cases hnone
    · cases heof
  rw [GoesOn, and_iff_right hends, ← hempty]
  constructor
  · intro hreturns hstop
    by_contra hnonempty
    exact hreturns c ⟨hstop, rfl, Bool.eq_false_iff.mpr hnonempty⟩
  · rintro hgoes _ ⟨hstop, ⟨⟩, hnonempty⟩
    rw [hgoes hstop] at hnonempty
    cases hnonempty

/-- A configuration contributes what the transitions that are followed from its place accept, and
the mark of a predicate if one of them is a predicate. -/
theorem Mirrors.contributes_alternative_iff (h : Mirrors (some .empty) k place) :
    Contributes net alternativeOptions k token ↔ ∃ t, net.Follows place t ∧
      (t.accepts token Token.firstUser net.maxTokenType ∨
        t.isPredicate ∧ token = Token.invalid) := by
  obtain ⟨id, context⟩ := k
  obtain ⟨state, pending⟩ := place
  obtain ⟨rfl, hcontext⟩ := Prod.mk.inj h
  simp only [← blocks_alternativeOptions]
  constructor
  · intro hcontributes
    cases hcontributes with
    | ends hstate hends =>
      obtain ⟨c, rfl, -⟩ := exists_context_of_stacked hcontext
      obtain ⟨-, ⟨hnone, -⟩ | ⟨-, -, -, heof, -⟩⟩ := hends
      · cases hnone
      · cases heof
    | bottom hstate hreturns he hreturn heof => cases heof
    | edge hstate hgoes ht htoken =>
      exact ⟨_, ⟨_, hstate, ht, (goesOn_alternativeOptions_iff hcontext).mp hgoes⟩, htoken⟩
  · rintro ⟨t, ⟨s, hstate, ht, hgoes⟩, htoken⟩
    exact .edge hstate ((goesOn_alternativeOptions_iff hcontext).mpr hgoes) ht htoken

/-! ## Exploring -/

variable [NodeDigest]

/-- Where a configuration leads mirrors where the exploration goes on from its place. -/
theorem Mirrors.exists_explores (h : Mirrors (some .empty) k place)
    (hleads : Leads net alternativeOptions k k') :
    ∃ place', net.Explores place place' ∧ Mirrors (some .empty) k' place' := by
  obtain ⟨state, pending⟩ := place
  cases hleads with
  | @back id context s c e hstate hreturns he hreturn =>
    obtain ⟨rfl, hcontext⟩ := Prod.mk.inj h
    obtain ⟨hstop, rfl, hnonempty⟩ := hreturns
    cases pending with
    | nil =>
      -- With nothing pending the context is empty, and nothing returns through it.
      obtain ⟨_, ⟨⟩, hempty⟩ := exists_context_of_stacked hcontext
      rw [hempty.mpr rfl] at hnonempty
      cases hnonempty
    | cons follow below =>
      exact ⟨_, .back (Network.any_kind?_iff.mpr ⟨s, hstate, hstop⟩),
        mirrors_of_mem_entries hcontext he⟩
  | @edge id context s t _ hstate hgoes ht hedge =>
    obtain ⟨rfl, hcontext⟩ := Prod.mk.inj h
    have hfollows : net.Follows ⟨id, pending⟩ t :=
      ⟨s, hstate, ht, (goesOn_alternativeOptions_iff hcontext).mp hgoes⟩
    cases hedge with
    | move hmoves =>
      exact ⟨_, .pass hfollows (moves_alternativeOptions t ▸ hmoves),
        congrArg (Prod.mk t.target) hcontext⟩
    | @call rule level follow next hkind =>
      exact ⟨_, .call hfollows (by rw [Transition.follow?, hkind]),
        mirrors_singleton hcontext _ _ _⟩

/-- Where the exploration goes on from a place is mirrored by where the configuration leads. -/
theorem Mirrors.exists_leads_of_explores (h : Mirrors (some .empty) k place)
    (hexplores : net.Explores place place') :
    ∃ k', Leads net alternativeOptions k k' ∧ Mirrors (some .empty) k' place' := by
  obtain ⟨id, context⟩ := k
  cases hexplores with
  | back hstop =>
    obtain ⟨rfl, hcontext⟩ := Prod.mk.inj h
    obtain ⟨s, hstate, hends⟩ := Network.any_kind?_iff.mp hstop
    obtain ⟨c, e, rfl, hnonempty, hentries, hfollow, -⟩ := exists_entry_of_stacked hcontext
    have he : e ∈ c.entries := by rw [hentries]; exact List.mem_singleton_self e
    exact ⟨_, .back hstate ⟨hends, rfl, hnonempty⟩ he (hfollow ▸ Int.natCast_nonneg _),
      mirrors_of_mem_entries hcontext he⟩
  | @pass _ t hfollows hpasses =>
    obtain ⟨rfl, hcontext⟩ := Prod.mk.inj h
    obtain ⟨s, hstate, ht, hgoes⟩ := hfollows
    exact ⟨_, .edge hstate ((goesOn_alternativeOptions_iff hcontext).mpr hgoes) ht
      (.move ((moves_alternativeOptions t).trans hpasses)), congrArg (Prod.mk t.target) hcontext⟩
  | @call _ t follow hfollows hfollow =>
    obtain ⟨rfl, hcontext⟩ := Prod.mk.inj h
    obtain ⟨s, hstate, ht, hgoes⟩ := hfollows
    obtain ⟨rule, level, hkind⟩ := Transition.exists_kind_of_follow? hfollow
    exact ⟨_, .edge hstate ((goesOn_alternativeOptions_iff hcontext).mpr hgoes) ht
      (.call 0 hkind), mirrors_singleton hcontext _ _ _⟩

/-- What can be reached mirrors what is explored. -/
theorem Mirrors.exists_explored (h : Mirrors (some .empty) k place)
    (hreaches : Reaches net alternativeOptions k k') :
    ∃ place', Relation.ReflTransGen net.Explores place place' ∧
      Mirrors (some .empty) k' place' := by
  induction hreaches with
  | refl => exact ⟨place, .refl, h⟩
  | step _ hleads ih =>
    obtain ⟨place', hexplored, hmirrors⟩ := ih
    obtain ⟨next, hexplores, hnext⟩ := hmirrors.exists_explores hleads
    exact ⟨next, hexplored.tail hexplores, hnext⟩

/-- What is explored is mirrored by what can be reached. -/
theorem Mirrors.exists_reaches_of_explored (h : Mirrors (some .empty) k place)
    (hexplored : Relation.ReflTransGen net.Explores place place') :
    ∃ k', Reaches net alternativeOptions k k' ∧ Mirrors (some .empty) k' place' := by
  induction hexplored with
  | refl => exact ⟨k, .refl, h⟩
  | tail _ hexplores ih =>
    obtain ⟨k', hreaches, hmirrors⟩ := ih
    obtain ⟨next, hleads, hnext⟩ := hmirrors.exists_leads_of_explores hexplores
    exact ⟨next, hreaches.step hleads, hnext⟩

end Lookahead

namespace Network

open Lookahead

variable [NodeDigest] {net : Network} {start : StateId}

/-- The walk of an alternative that passes over no call holds the tokens that the transitions accept
which the exploration meets, and the mark of a predicate if it meets one. -/
theorem contains_alternativeWalk_iff (hpassed : (net.alternativeWalk start).passedCall = false)
    (token : TokenType) :
    (net.alternativeWalk start).tokens.contains token ↔ ∃ t, net.Meets start t ∧
      (t.accepts token Token.firstUser net.maxTokenType ∨
        t.isPredicate ∧ token = Token.invalid) := by
  have hstart : Mirrors (some .empty) ⟨start, some .empty⟩ ⟨start, []⟩ := by
    rw [Mirrors, Configuration.position, stacked, Option.map_some, Context.skeleton_empty]
  have hempty : History.start.HoldsParent (some .empty) := by
    rintro _ ⟨⟩
    exact .empty
  constructor
  · intro htoken
    obtain ⟨k, hreaches, hcontributes⟩ :=
      (collected_walk net alternativeOptions start (some .empty)).contributed token htoken
    obtain ⟨place, hexplored, hmirrors⟩ := hstart.exists_explored hreaches
    obtain ⟨t, hfollows, htoken⟩ := hmirrors.contributes_alternative_iff.mp hcontributes
    exact ⟨t, ⟨place, hexplored, hfollows⟩, htoken⟩
  · rintro ⟨t, ⟨place, hexplored, hfollows⟩, htoken⟩
    -- Only here it matters that no call is passed over: the walk has been wherever one comes.
    obtain ⟨k, hreaches, hmirrors⟩ := hstart.exists_reaches_of_explored hexplored
    exact (closed_of_reaches hempty hpassed hreaches).1 token
      (hmirrors.contributes_alternative_iff.mpr ⟨t, hfollows, htoken⟩)

omit [NodeDigest] in
/-- Where no predicate is met, a canonical set of the tokens that are consumed gives an exact
lookahead. -/
theorem exactLookahead_of_contains_iff {tokens : IntervalSet}
    (hcanonical : IntervalSet.Canonical tokens.intervals)
    (haccepted : ∀ token, tokens.contains token ↔
      ∃ t, net.Meets start t ∧ t.accepts token Token.firstUser net.maxTokenType)
    (hnone : ¬ ∃ t, net.Meets start t ∧ t.isPredicate) :
    net.ExactLookahead start (if tokens.isEmpty then none else some tokens) := by
  by_cases hempty : tokens.isEmpty = true
  · rw [if_pos hempty]
    refine ⟨iff_of_true rfl (.inr fun t token hmeets haccepts => ?_),
      by rintro _ ⟨⟩, by rintro _ ⟨⟩⟩
    exact (IntervalSet.isEmpty_iff hcanonical).mp hempty token
      ((haccepted token).mpr ⟨t, hmeets, haccepts⟩)
  · rw [if_neg hempty]
    refine ⟨iff_of_false (Option.some_ne_none tokens) ?_, ?_, ?_⟩
    · rintro (h | h)
      · exact hnone h
      · refine hempty ((IntervalSet.isEmpty_iff hcanonical).mpr fun token htoken => ?_)
        obtain ⟨t, hmeets, haccepts⟩ := (haccepted token).mp htoken
        exact h t token hmeets haccepts
    · rintro _ ⟨⟩
      exact haccepted
    · rintro _ ⟨⟩ heof
      obtain ⟨t, hmeets, haccepts⟩ := (haccepted Token.eof).mp heof
      obtain ⟨label, hlabel, hmem⟩ := Transition.exists_label_of_accepts_eof haccepts
      exact ⟨t, label, hmeets, hlabel, hmem⟩

/-- If no transition accepts the mark of a predicate, then the walk of an alternative that passes
over no call gives an exact lookahead. -/
theorem exactLookahead_of_passesNone
    (hinvalid : ∀ s ∈ net.states, ∀ t ∈ s.transitions,
      ¬ t.accepts Token.invalid Token.firstUser net.maxTokenType)
    (hpassed : (net.alternativeWalk start).passedCall = false) {tokens : IntervalSet}
    (htokens : (net.alternativeWalk start).tokens = tokens) :
    net.ExactLookahead start
      (if tokens.isEmpty || tokens.contains Token.invalid then none else some tokens) := by
  have hcanonical := (collected_walk net alternativeOptions start (some .empty)).canonical
  change IntervalSet.Canonical (net.alternativeWalk start).tokens.intervals at hcanonical
  have hcontains := contains_alternativeWalk_iff hpassed
  rw [htokens] at hcanonical hcontains
  -- No transition accepts the mark, so only predicates leave it.
  have hmark : tokens.contains Token.invalid ↔ ∃ t, net.Meets start t ∧ t.isPredicate := by
    rw [hcontains]
    refine exists_congr fun t => and_congr_right fun ⟨_, _, s, hstate, ht, _⟩ => ?_
    rw [or_iff_right (hinvalid s (mem_states.mpr ⟨_, hstate⟩) t ht), and_iff_left rfl]
  cases hmarked : tokens.contains Token.invalid with
  | true =>
    rw [Bool.or_true, if_pos rfl]
    exact ⟨iff_of_true rfl (.inl (hmark.mp hmarked)), by rintro _ ⟨⟩, by rintro _ ⟨⟩⟩
  | false =>
    have hnone : ¬ ∃ t, net.Meets start t ∧ t.isPredicate := by
      rw [← hmark, hmarked]
      exact Bool.false_ne_true
    rw [Bool.or_false]
    refine exactLookahead_of_contains_iff hcanonical (fun token => ?_) hnone
    rw [hcontains]
    refine exists_congr fun t => and_congr_right fun hmeets => or_iff_left ?_
    exact fun h => hnone ⟨t, hmeets, h.1⟩

/-- If no transition accepts the mark of a predicate, then the lookahead of a state has an entry for
each of its transitions in order, which is exact unless the walk of the alternative passes over a
call. -/
theorem decisionLookahead_exact {id : StateId} {s : State}
    (hinvalid : ∀ s ∈ net.states, ∀ t ∈ s.transitions,
      ¬ t.accepts Token.invalid Token.firstUser net.maxTokenType)
    (hstate : net.state? id = some s) :
    List.Forall₂ (fun t entry =>
        (net.alternativeWalk t.target).passedCall = false → net.ExactLookahead t.target entry)
      s.transitions (net.decisionLookahead id) := by
  rw [decisionLookahead, hstate, List.forall₂_map_right_iff, List.forall₂_same]
  exact fun t _ hpassed => exactLookahead_of_passesNone hinvalid hpassed rfl

end Network

namespace Network

open Lookahead

/-- A parser whose first state decides between a call of a rule that consumes a token of type 5, and
a predicate before that rule. -/
def choosingNet : Network where
  grammar := .parser
  maxTokenType := 9
  slots := #[
    some { State.new .basic (some 0) with transitions := [.epsilon 1, .epsilon 2] },
    some { State.new .basic (some 0) with number := 1, transitions := [⟨3, .rule 1 0 2⟩] },
    some { State.new .basic (some 0) with number := 2, transitions := [⟨3, .predicate 0 0 false⟩] },
    some { State.new .basic (some 1) with number := 3, transitions := [.atom 0 5] }]
  decisions := []
  ruleStarts := []
  ruleStops := []
  modeStarts := []
  ruleTokenTypes := []
  lexerActions := []

/-- Neither alternative passes over a call. -/
theorem passedCall_choosingNet : (choosingNet.alternativeWalk 1).passedCall = false ∧
    (choosingNet.alternativeWalk 2).passedCall = false := by
  constructor
  · exact passedCall_walk_of_call rfl rfl rfl rfl rfl (by decide) rfl rfl rfl rfl
  · obtain ⟨depth, hdepth⟩ : ∃ depth, depthBound choosingNet (some .empty) = depth + 1 := ⟨_, rfl⟩
    rw [alternativeWalk, walk, hdepth, visit_of_state? depth (has_start _ _ _) rfl,
      leaveState_of_goesOn _ (goesOn_of_basic rfl rfl)]
    rfl

/-- The lookahead of both alternatives of the example is exact. -/
theorem decisionLookahead_exact_choosingNet :
    (∀ s ∈ choosingNet.states, ∀ t ∈ s.transitions,
      ¬ t.accepts Token.invalid Token.firstUser choosingNet.maxTokenType) ∧
    (choosingNet.alternativeWalk 1).passedCall = false ∧
    (choosingNet.alternativeWalk 2).passedCall = false ∧
    ∃ first second, choosingNet.decisionLookahead 0 = [first, second] ∧
      choosingNet.ExactLookahead 1 first ∧ choosingNet.ExactLookahead 2 second := by
  have hinvalid : ∀ s ∈ choosingNet.states, ∀ t ∈ s.transitions,
      ¬ t.accepts Token.invalid Token.firstUser choosingNet.maxTokenType := by decide
  have hstate : choosingNet.state? 0 =
      some { State.new .basic (some 0) with transitions := [.epsilon 1, .epsilon 2] } := rfl
  obtain ⟨hfirst, hsecond⟩ := passedCall_choosingNet
  refine ⟨hinvalid, hfirst, hsecond, ?_⟩
  generalize hentries : choosingNet.decisionLookahead 0 = entries
  have hexact := decisionLookahead_exact hinvalid hstate
  rw [hentries] at hexact
  cases hexact with
  | cons hfirstExact hrest =>
    cases hrest with
    | cons hsecondExact hnil =>
      cases hnil
      exact ⟨_, _, rfl, hfirstExact hfirst, hsecondExact hsecond⟩

end Network

end TransitionNetwork
