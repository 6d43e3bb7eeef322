import TransitionNetwork.Proofs.Network.Verified
import TransitionNetwork.Proofs.Stream.LoadedNetworks

/-!
# Networks up to the transitions of rule stop states

The transitions of rule stop states are not written, as they follow from the calls. Networks that
differ in them only are told apart by no step behind the written transitions, and they are verified
together as long as no rule stop state mixes transitions.
-/

namespace TransitionNetwork

/-- A state without its transitions if it ends a rule. -/
def State.withoutStopEdges (s : State) : State :=
  if s.kind.isRuleStop then s.clearTransitions else s

namespace State

/-- A state that ends a rule is seen without transitions. -/
theorem withoutStopEdges_of_stop {s : State} (h : s.kind.isRuleStop = true) :
    s.withoutStopEdges = s.clearTransitions := if_pos h

/-- Any other state is seen as it is. -/
theorem withoutStopEdges_of_not_stop {s : State} (h : s.kind.isRuleStop = false) :
    s.withoutStopEdges = s := if_neg (Bool.eq_false_iff.mp h)

/-- The kind of a state is seen. -/
theorem kind_withoutStopEdges (s : State) : s.withoutStopEdges.kind = s.kind := by
  rw [withoutStopEdges]
  split <;> rfl

/-- The view leaves everything by which states are linked. -/
theorem keepsLinks_withoutStopEdges : KeepsLinks withoutStopEdges where
  number s := by rw [withoutStopEdges]; split <;> rfl
  rule s := by rw [withoutStopEdges]; split <;> rfl
  kind := kind_withoutStopEdges
  targets s h := by rw [withoutStopEdges_of_not_stop h]
  mapKind s change h := by
    cases hstop : s.kind.isRuleStop with
    | true =>
      rw [withoutStopEdges_of_stop hstop, withoutStopEdges_of_stop (h.trans hstop)]
      rfl
    | false => rw [withoutStopEdges_of_not_stop hstop, withoutStopEdges_of_not_stop (h.trans hstop)]

/-- Transitions that are added to a state that ends a rule are not seen. -/
theorem withoutStopEdges_foldl {s : State} (h : s.kind.isRuleStop) (ts : List Transition) :
    (ts.foldl addTransition s).withoutStopEdges = s.withoutStopEdges := by
  induction ts generalizing s with
  | nil => rfl
  | cons t rest ih =>
    rw [List.foldl_cons, ih (s := s.addTransition t) h, withoutStopEdges_of_stop h,
      withoutStopEdges_of_stop (s := s.addTransition t) h]
    rfl

/-- The views without stop edges and without actions commute on states. -/
theorem withoutStopEdges_withoutActions (s : State) :
    s.withoutActions.withoutStopEdges = s.withoutStopEdges.withoutActions := by
  cases h : s.kind.isRuleStop with
  | true =>
    rw [withoutStopEdges_of_stop h, withoutStopEdges_of_stop (s := s.withoutActions) h]
    rfl
  | false =>
    rw [withoutStopEdges_of_not_stop h, withoutStopEdges_of_not_stop (s := s.withoutActions) h]

end State

namespace Network

/-- A network without the transitions of rule stop states. -/
def withoutStopEdges (net : Network) : Network := net.viewed State.withoutStopEdges id

/-- The view shows each state where it is. -/
theorem state?_withoutStopEdges (net : Network) (k : StateId) :
    net.withoutStopEdges.state? k = (net.state? k).map State.withoutStopEdges :=
  net.state?_viewed k

/-- The views without stop edges and without actions commute on networks. -/
theorem withoutStopEdges_withoutActions (net : Network) :
    net.withoutActions.withoutStopEdges = net.withoutStopEdges.withoutActions := by
  refine eq_of_state? rfl ?_ fun k => ?_
  · rw [withoutStopEdges, size_viewed, size_withoutActions, size_withoutActions, withoutStopEdges,
      size_viewed]
  · rw [state?_withoutStopEdges, state?_withoutActions, state?_withoutActions,
      state?_withoutStopEdges, Option.map_map, Option.map_map]
    exact Option.map_congr fun s _ => s.withoutStopEdges_withoutActions

/-- States that end no rule are the same if networks are the same but for the others. -/
theorem exists_state?_of_withoutStopEdges {net net' : Network}
    (h : net'.withoutStopEdges = net.withoutStopEdges) {k : StateId} {s' : State}
    (hs' : net'.state? k = some s') :
    ∃ s, net.state? k = some s ∧ s'.kind = s.kind ∧ (s'.kind.isRuleStop = false → s' = s) := by
  have hk := congrArg (Network.state? · k) h
  simp only [state?_withoutStopEdges, hs', Option.map_some] at hk
  obtain ⟨s, hs, hsame⟩ := Option.map_eq_some_iff.mp hk.symm
  have hkind : s'.kind = s.kind := by
    rw [← s'.kind_withoutStopEdges, ← hsame, s.kind_withoutStopEdges]
  refine ⟨s, hs, hkind, fun hstop => ?_⟩
  rw [State.withoutStopEdges_of_not_stop hstop,
    State.withoutStopEdges_of_not_stop (hkind ▸ hstop)] at hsame
  exact hsame.symm

/-- Added transitions matter as far as they do not leave rule stop states. -/
theorem withoutStopEdges_addTransitions_congr {net : Network}
    {edges edges' : List (StateId × Transition)}
    (h : ∀ k, ∀ s ∈ net.state? k, s.kind.isRuleStop = false →
      transitionsFrom edges' k = transitionsFrom edges k) :
    (net.addTransitions edges').withoutStopEdges = (net.addTransitions edges).withoutStopEdges := by
  have hfold (s : State) (edges : List (StateId × Transition)) (k : StateId) :
      (edges.filter (·.1 = k)).foldl (fun s edge => s.addTransition edge.2) s =
        (transitionsFrom edges k).foldl State.addTransition s := List.foldl_map.symm
  refine eq_of_state? ?_ ?_ fun k => ?_
  · change { (net.addTransitions edges').tables with } = { (net.addTransitions edges).tables with }
    rw [(keeps_addTransitions net edges).tables, (keeps_addTransitions net edges').tables]
  · rw [withoutStopEdges, size_viewed, withoutStopEdges, size_viewed,
      (keeps_addTransitions net edges).size, (keeps_addTransitions net edges').size]
  · rw [state?_withoutStopEdges, state?_withoutStopEdges, addTransitions_eq_modifyEach,
      addTransitions_eq_modifyEach, state?_modifyEach, state?_modifyEach, Option.map_map,
      Option.map_map]
    refine Option.map_congr fun s hs => ?_
    rw [Function.comp_apply, Function.comp_apply, hfold, hfold]
    cases hstop : s.kind.isRuleStop with
    | true => rw [State.withoutStopEdges_foldl hstop, State.withoutStopEdges_foldl hstop]
    | false => rw [h k s hs hstop]

/-- Transitions that are added to states that end rules alone are not seen. -/
theorem withoutStopEdges_addTransitions {net : Network} {edges : List (StateId × Transition)}
    (h : ∀ k, ∀ s ∈ net.state? k, s.kind.isRuleStop = false → transitionsFrom edges k = []) :
    (net.addTransitions edges).withoutStopEdges = net.withoutStopEdges := by
  have hnone : (net.addTransitions edges).withoutStopEdges =
      (net.addTransitions []).withoutStopEdges := withoutStopEdges_addTransitions_congr h
  exact hnone

/-- The first states of loops at the end of rules are the same. -/
theorem isPrecedenceDecision_withoutStopEdges (net : Network) (s : State) :
    net.withoutStopEdges.isPrecedenceDecision s.withoutStopEdges = net.isPrecedenceDecision s := by
  have hkind : net.withoutStopEdges.kind? = net.kind? :=
    funext (kind?_viewed State.keepsLinks_withoutStopEdges net)
  have hprecedence : net.withoutStopEdges.hasPrecedence = net.hasPrecedence := by
    funext rule
    rw [hasPrecedence, hasPrecedence, hkind]
    rfl
  cases hstop : s.kind.isRuleStop with
  | true =>
    rw [isPrecedenceDecision, isPrecedenceDecision, isPrecedenceLoopEntry, isPrecedenceLoopEntry,
      s.kind_withoutStopEdges, StateKind.eq_ruleStop hstop]
    exact (Bool.and_false _).trans (Bool.and_false _).symm
  | false =>
    rw [State.withoutStopEdges_of_not_stop hstop, isPrecedenceDecision, isPrecedenceDecision,
      hprecedence, isPrecedenceLoopEntry, isPrecedenceLoopEntry, hkind]
    congr 2
    cases s.transitions.getLast? with
    | none => rfl
    | some t =>
      rw [Option.bind_some, Option.bind_some, state?_withoutStopEdges]
      cases net.state? t.target with
      | none => rfl
      | some loopEnd =>
        rw [Option.map_some, Option.any_some, Option.any_some]
        -- A loop end ends no rule, so it has its transitions; of other states nothing is asked.
        cases hend : loopEnd.kind.isRuleStop with
        | false => rw [State.withoutStopEdges_of_not_stop hend]
        | true =>
          rw [loopEnd.kind_withoutStopEdges, StateKind.eq_ruleStop hend]
          rfl

/-- Precedence decisions are marked in the view as in the network. -/
theorem markPrecedenceDecisions_withoutStopEdges (net : Network) :
    net.markPrecedenceDecisions.withoutStopEdges =
      net.withoutStopEdges.markPrecedenceDecisions := by
  have hdeciding (kind : StateKind) : kind.decidingPrecedence.isRuleStop = kind.isRuleStop := by
    cases kind <;> rfl
  refine eq_of_state? rfl ?_ fun k => ?_
  · rw [withoutStopEdges, size_viewed, markPrecedenceDecisions, size_mapStates,
      markPrecedenceDecisions, size_mapStates, withoutStopEdges, size_viewed]
  · rw [state?_withoutStopEdges, markPrecedenceDecisions, state?_mapStates,
      markPrecedenceDecisions, state?_mapStates, state?_withoutStopEdges, Option.map_map,
      Option.map_map]
    refine Option.map_congr fun s _ => ?_
    rw [Function.comp_apply, Function.comp_apply, isPrecedenceDecision_withoutStopEdges]
    split
    · exact State.keepsLinks_withoutStopEdges.mapKind s _ (hdeciding s.kind)
    · rfl

/-- A network is verified with a verified one if they are the same but for rule stop states, and
these do not mix transitions. -/
theorem Verified.of_withoutStopEdges {net net' : Network} (h : net.Verified)
    (hsame : net'.withoutStopEdges = net.withoutStopEdges)
    (hstops : ∀ k, ∀ s ∈ net'.state? k, s.kind.isRuleStop →
      s.epsilonOnly = true ∨ s.transitions.length ≤ 1) : net'.Verified where
  requirements s' hs' rule hrule := by
    obtain ⟨k, hk⟩ := mem_states.mp hs'
    obtain ⟨s, hs, -, hown⟩ := exists_state?_of_withoutStopEdges hsame hk
    have hrules (net : Network) : net.withoutStopEdges.requirements s' = net.requirements s' :=
      requirements_viewed State.keepsLinks_withoutStopEdges net s'
    rw [← hrules net', hsame, hrules net] at hrule
    cases hstop : s'.kind.isRuleStop with
    | false => exact h.requirements s' (hown hstop ▸ mem_states.mpr ⟨k, hs⟩) rule hrule
    | true =>
      rw [Network.requirements, Network.kindRequirements, branching,
        StateKind.eq_ruleStop hstop] at hrule
      rcases List.mem_cons.mp hrule with rfl | hrule
      · simpa using hstops k s' hk hstop
      · cases List.mem_singleton.mp hrule
        exact Bool.or_true _
  rules rule start hstart := by
    have hstarts := congrArg Network.ruleStarts hsame
    have hstops := congrArg Network.ruleStops hsame
    change net'.ruleStarts = net.ruleStarts at hstarts
    change net'.ruleStops = net.ruleStops at hstops
    rw [ruleStart?, hstarts] at hstart
    obtain ⟨s, hs, hlinked⟩ := h.rules rule start hstart
    obtain ⟨s', hs', hkind, -⟩ := exists_state?_of_withoutStopEdges hsame.symm hs
    exact ⟨s', hs', by rw [← hkind, hlinked, ruleStop?, ruleStop?, hstops]⟩

end Network

end TransitionNetwork
