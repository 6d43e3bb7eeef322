import TransitionNetwork.Network.LegacyActions
import TransitionNetwork.Proofs.Network.Views

/-!
# Networks up to the payload of actions

Moving the actions of an older stream into a table changes what action transitions refer to and
nothing else. Networks that differ in this respect only are told apart by no step that derives
transitions or cross-links: each step commutes with dropping the payload of all actions.
-/

namespace TransitionNetwork

/-- The kind of a transition, without rule and index if it is an action. -/
def TransitionKind.withoutAction : TransitionKind → TransitionKind
  | action _ _ _ => action 0 none false
  | kind => kind

/-- A transition without what it tells about an action. -/
def Transition.withoutAction (t : Transition) : Transition := ⟨t.target, t.kind.withoutAction⟩

/-- A state without what its transitions tell about actions. -/
def State.withoutActions (s : State) : State :=
  { s with transitions := s.transitions.map Transition.withoutAction }

/-- Whether a transition consumes a token does not depend on what it tells about actions. -/
theorem Transition.isEpsilon_withoutAction (t : Transition) :
    t.withoutAction.isEpsilon = t.isEpsilon := by
  obtain ⟨target, kind⟩ := t
  cases kind <;> rfl

/-- A transition is added to the view of a state as it is seen. -/
theorem State.withoutActions_addTransition (s : State) (t : Transition) :
    (s.addTransition t).withoutActions = s.withoutActions.addTransition t.withoutAction := by
  simp only [addTransition, withoutActions, List.map_append, List.map_cons, List.map_nil,
    List.isEmpty_map, Transition.isEpsilon_withoutAction]

/-- The view leaves everything by which states are linked. -/
theorem State.keepsLinks_withoutActions : KeepsLinks withoutActions where
  number _ := rfl
  rule _ := rfl
  kind _ := rfl
  targets s _ := by
    rw [withoutActions, List.map_map]
    rfl
  mapKind _ _ _ := rfl

namespace Network

/-- A network without what its transitions and its table tell about actions. -/
def withoutActions (net : Network) : Network :=
  { net.mapStates State.withoutActions with lexerActions := [] }

/-- Dropping the payload of actions is a view of networks. -/
theorem withoutActions_eq_viewed :
    withoutActions = viewed State.withoutActions (fun _ => []) := rfl

/-- The view shows each state where it is. -/
theorem state?_withoutActions (net : Network) (k : StateId) :
    net.withoutActions.state? k = (net.state? k).map State.withoutActions :=
  state?_viewed (g := fun _ => []) net k

/-- The view shows the states in their order. -/
theorem states_withoutActions (net : Network) :
    net.withoutActions.states = net.states.map State.withoutActions :=
  states_viewed (g := fun _ => []) net

/-- The view empties the table of actions and no other. -/
theorem tables_withoutActions (net : Network) :
    net.withoutActions.tables = { net.tables with lexerActions := [] } := rfl

/-- The view has as many slots. -/
theorem size_withoutActions (net : Network) :
    net.withoutActions.slots.size = net.slots.size :=
  size_viewed (f := State.withoutActions) (g := fun _ => []) net

/-- Networks are equal if they agree up to actions, in every transition and in the table. -/
theorem eq_of_withoutActions {net net' : Network} (h : net.withoutActions = net'.withoutActions)
    (htransitions : Keeps State.transitions net net')
    (hactions : net.lexerActions = net'.lexerActions) : net = net' := by
  refine eq_of_state? ?_ ?_ fun k => ?_
  · have htables := congrArg tables h
    rw [tables_withoutActions, tables_withoutActions] at htables
    cases net
    cases net'
    simp only [tables, mk.injEq] at htables hactions ⊢
    simp only [htables, hactions, and_self]
  · rw [← size_withoutActions, h, size_withoutActions]
  · have hstate := congrArg (Network.state? · k) h
    have hk := htransitions k
    simp only [state?_withoutActions] at hstate
    cases hs : net.state? k <;> cases hs' : net'.state? k <;> rw [hs, hs'] at hstate hk
    · cases hstate
    · cases hstate
    next s s' =>
      rw [Option.map_some, Option.map_some, Option.some.injEq] at hstate hk
      cases s
      cases s'
      simp only [State.withoutActions, State.mk.injEq] at hstate hk
      simp only [hstate, hk]

/-! ## Steps -/

/-- Transitions are added to the view of a network as they are seen. -/
theorem withoutActions_addTransitions (net : Network) (edges : List (StateId × Transition)) :
    (net.addTransitions edges).withoutActions =
      net.withoutActions.addTransitions
        (edges.map fun edge => (edge.1, edge.2.withoutAction)) := by
  induction edges generalizing net with
  | nil => rfl
  | cons edge rest ih =>
    change ((net.modifyState _ _).addTransitions rest).withoutActions = _
    rw [ih, withoutActions_eq_viewed, viewed_modifyState _ _
      (b := (·.addTransition edge.2.withoutAction)) fun s => s.withoutActions_addTransition edge.2]
    rfl

/-- Decisions are numbered in the view as in the network. -/
theorem withoutActions_addDecisions (net : Network) (ids : List StateId) :
    (net.addDecisions ids).withoutActions = net.withoutActions.addDecisions ids :=
  viewed_addDecisions (f := State.withoutActions) (g := fun _ => []) (fun _ _ => rfl) net ids

/-! ## Return transitions -/

/-- The return transition of a call does not depend on actions. -/
theorem returnEdge?_withoutActions (net : Network) (t : Transition) :
    net.withoutActions.returnEdge? t.withoutAction = net.returnEdge? t := by
  rw [withoutActions_eq_viewed, returnEdge?_viewed State.keepsLinks_withoutActions]
  obtain ⟨target, kind⟩ := t
  cases kind <;> rfl

/-- Actions have no part in which transitions return from calls. -/
theorem returnEdges_withoutActions (net : Network) :
    net.withoutActions.returnEdges = net.returnEdges := by
  rw [returnEdges, returnEdges, states_withoutActions, List.flatMap_map]
  have hlist : (net.states.flatMap fun s => s.withoutActions.transitions) =
      (net.states.flatMap State.transitions).map Transition.withoutAction := by
    rw [List.map_flatMap]
    rfl
  rw [hlist, List.mapM_map]
  congr 2
  funext t
  exact net.returnEdge?_withoutActions t

/-- Every return transition consumes nothing and has no action. -/
theorem withoutAction_of_returnEdge? {net : Network} {t : Transition}
    {edge : StateId × Transition} (h : net.returnEdge? t = .ok (some edge)) :
    ∃ rule, net.ruleStop? rule = some edge.1 ∧ ∃ outermost, edge.2.kind = .epsilon outermost := by
  obtain ⟨target, kind⟩ := t
  cases kind with
  | rule rule precedence follow =>
    obtain ⟨callee, -, h⟩ := bind_eq_ok.mp h
    split at h
    · cases h
    next called _ =>
      dsimp only at h
      split at h
      · cases h
      next stop hstop =>
        cases h
        exact ⟨called, hstop, _, rfl⟩
  | _ => cases h

/-- Every return transition leaves the last state of a rule. -/
theorem mem_returnEdges {net : Network} {edges : List (StateId × Transition)}
    (h : net.returnEdges = .ok edges) {edge : StateId × Transition} (hedge : edge ∈ edges) :
    ∃ rule, net.ruleStop? rule = some edge.1 ∧ ∃ outermost, edge.2.kind = .epsilon outermost := by
  obtain ⟨found, hfound, h⟩ := bind_eq_ok.mp h
  cases h
  obtain ⟨found', hmem, hsome⟩ := List.mem_filterMap.mp hedge
  obtain ⟨t, -, ht⟩ := exists_of_mem_mapM_ok hfound hmem
  rw [id_eq] at hsome
  exact withoutAction_of_returnEdge? (hsome ▸ ht)

/-- Transitions that return from calls are added to the view as to the network. -/
theorem withoutActions_addReturnEdges (net : Network) :
    net.withoutActions.addReturnEdges = withoutActions <$> net.addReturnEdges := by
  rw [addReturnEdges, addReturnEdges, returnEdges_withoutActions]
  cases h : net.returnEdges with
  | error e => rfl
  | ok edges =>
    change Except.ok _ = Except.ok _
    rw [withoutActions_addTransitions]
    have hsame : edges.map (fun edge => (edge.1, edge.2.withoutAction)) = edges := by
      rw [← List.map_id edges, List.map_map]
      apply List.map_congr_left
      intro edge hedge
      obtain ⟨_, _, _, hkind⟩ := mem_returnEdges h hedge
      obtain ⟨source, target, kind⟩ := edge
      cases hkind
      rfl
    rw [hsame]

/-! ## Blocks and loops -/

/-- Blocks and loops are linked in the view as in the network. -/
theorem withoutActions_linkBlocksAndLoops (net : Network) :
    net.withoutActions.linkBlocksAndLoops = withoutActions <$> net.linkBlocksAndLoops :=
  viewed_linkBlocksAndLoops (g := fun _ => []) State.keepsLinks_withoutActions net

end Network

end TransitionNetwork
