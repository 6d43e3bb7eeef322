import TransitionNetwork.Network.ReturnEdges
import TransitionNetwork.Network.Structure
import TransitionNetwork.Proofs.Network.Slots

/-!
# Views of networks

A view leaves something out of every state, and possibly the table of actions. As long as it leaves
the number, the rule, the kind and, unless the state ends a rule, the targets of the transitions,
calls return alike and states keep the same rules, and blocks and loops are linked alike whether one
looks through the view before or after linking.
-/

namespace TransitionNetwork

/-- What a view of states leaves. Kinds may be changed before or after it, as long as no state is
made the last one of a rule or ceases to be. -/
structure State.KeepsLinks (f : State → State) : Prop where
  number : ∀ s, (f s).number = s.number
  rule : ∀ s, (f s).rule = s.rule
  kind : ∀ s, (f s).kind = s.kind
  targets : ∀ s, s.kind.isRuleStop = false →
    (f s).transitions.map Transition.target = s.transitions.map Transition.target
  mapKind : ∀ (s : State) (change : StateKind → StateKind),
    (change s.kind).isRuleStop = s.kind.isRuleStop → f (s.mapKind change) = (f s).mapKind change

/-- One kind ends rules. -/
theorem StateKind.eq_ruleStop {kind : StateKind} (h : kind.isRuleStop) : kind = .ruleStop := by
  cases kind <;> first | rfl | cases h

/-- Linking the end of a block makes no state the last of a rule, and none cease to be. -/
theorem StateKind.isRuleStop_withBlockStart (start : StateId) (kind : StateKind) :
    (kind.withBlockStart start).isRuleStop = kind.isRuleStop := by
  cases kind <;> rfl

/-- Linking a loop makes no state the last of a rule, and none cease to be. -/
theorem StateKind.isRuleStop_withLoopBack (loopBack : StateId) (kind : StateKind) :
    (kind.withLoopBack loopBack).isRuleStop = kind.isRuleStop := by
  rcases kind with _ | _ | _ | ⟨_ | _ | _, _⟩ | _ | _ | _ | _ | _ | _ <;> rfl

namespace Network

/-- The network with its states and its table of actions as they are seen. -/
def viewed (f : State → State) (g : List LexerAction → List LexerAction) (net : Network) :
    Network :=
  { net.mapStates f with lexerActions := g net.lexerActions }

variable {f : State → State} {g : List LexerAction → List LexerAction}

/-- The view shows each state where it is. -/
theorem state?_viewed (net : Network) (k : StateId) :
    (net.viewed f g).state? k = (net.state? k).map f := net.state?_mapStates f k

/-- The view has as many slots. -/
theorem size_viewed (net : Network) : (net.viewed f g).slots.size = net.slots.size :=
  net.size_mapStates f

/-- The view shows the states in their order. -/
theorem states_viewed (net : Network) : (net.viewed f g).states = net.states.map f := by
  simp only [states, viewed, mapStates, Array.toList_map, List.filterMap_map, List.map_filterMap]
  rfl

/-- A change of a state may be made before or after a view with which it commutes. -/
theorem viewed_modifyState (net : Network) (id : StateId) {a b : State → State}
    (h : ∀ s, f (a s) = b (f s)) :
    (net.modifyState id a).viewed f g = (net.viewed f g).modifyState id b := by
  refine eq_of_state? rfl ?_ fun k => ?_
  · rw [size_viewed, size_modifyState, size_modifyState, size_viewed]
  · rw [state?_viewed, state?_modifyState, state?_modifyState, state?_viewed]
    split
    · rw [Option.map_map, Option.map_map]
      exact Option.map_congr fun s _ => h s
    · rfl

/-- A state that is required of the view is the view of the required state. -/
theorem requireState_viewed (net : Network) (k : StateId) :
    (net.viewed f g).requireState k = f <$> net.requireState k := by
  rw [requireState, requireState, state?_viewed]
  cases net.state? k <;> rfl

/-- What becomes of a claim depends on the kind of the claimed state. -/
theorem claimBlockEnd_of_requireState {net : Network} {pair : StateId × StateId} {stop : State}
    (h : net.requireState pair.2 = .ok stop) :
    net.claimBlockEnd pair = match stop.kind with
      | .blockEnd none => .ok (net.link .withBlockStart [(pair.2, pair.1)])
      | .blockEnd (some _) => .error (.violation pair.2 .blockEndSharedByStarts)
      | _ => .error (.wrongKind pair.2 .blockEnd) := by
  rw [claimBlockEnd, h]
  rfl

/-- Decisions are numbered in a view that leaves decision numbers as in the network. -/
theorem viewed_addDecisions (hf : ∀ (s : State) (decision : Option Nat),
      f { s with decision } = { f s with decision }) (net : Network) (ids : List StateId) :
    (net.addDecisions ids).viewed f g = (net.viewed f g).addDecisions ids := by
  induction ids generalizing net with
  | nil => rfl
  | cons id rest ih =>
    change ((net.addDecision id).addDecisions rest).viewed f g = _
    rw [ih, addDecision, viewed_modifyState _ _
      (b := fun s => { s with decision := some net.decisions.length })
      fun s => hf s (some net.decisions.length)]
    rfl

section

variable (hf : State.KeepsLinks f)

include hf

/-- The view shows the kind of each state. -/
theorem kind?_viewed (net : Network) (k : StateId) : (net.viewed f g).kind? k = net.kind? k := by
  rw [kind?, kind?, state?_viewed, Option.map_map]
  exact Option.map_congr fun s _ => hf.kind s

/-- A transition asks for the same return transition. -/
theorem returnEdge?_viewed (net : Network) (t : Transition) :
    (net.viewed f g).returnEdge? t = net.returnEdge? t := by
  have hkind : (net.viewed f g).kind? = net.kind? := funext (kind?_viewed hf net)
  have hprecedence : (net.viewed f g).hasPrecedence = net.hasPrecedence := by
    funext rule
    rw [hasPrecedence, hasPrecedence, hkind]
    rfl
  obtain ⟨target, kind⟩ := t
  cases kind with
  | rule _ precedence follow =>
    rw [returnEdge?, returnEdge?, requireState_viewed, hprecedence]
    cases net.requireState target with
    | error e => rfl
    | ok callee =>
      simp only [Functor.map, Except.map, bind, Except.bind, hf.rule, hf.number]
      rfl
  | _ => rfl

/-- A state is to keep the same rules. -/
theorem requirements_viewed (net : Network) (s : State) :
    (net.viewed f g).requirements s = net.requirements s := by
  have htarget : (net.viewed f g).targetKind? s = net.targetKind? s := by
    funext i
    rw [targetKind?, targetKind?, funext (kind?_viewed hf net)]
  simp only [requirements, kindRequirements, loopBranches, htarget]

/-- States are linked alike before and after a view. -/
theorem viewed_link {change : StateId → StateKind → StateKind}
    (hchange : ∀ id kind, (change id kind).isRuleStop = kind.isRuleStop) (net : Network)
    (links : List (StateId × StateId)) :
    (net.link change links).viewed f g = (net.viewed f g).link change links := by
  induction links generalizing net with
  | nil => rfl
  | cons pair rest ih =>
    change ((net.modifyState _ _).link change rest).viewed f g = _
    rw [ih, viewed_modifyState _ _ fun s => hf.mapKind s _ (hchange pair.2 s.kind)]
    rfl

/-- A state that ends a rule closes no loop, and of every other state the targets are left. -/
theorem closedLoops_viewed (net : Network) (s : State) :
    (net.viewed f g).closedLoops (f s) = net.closedLoops s := by
  have hkind : (net.viewed f g).kind? = net.kind? := funext (kind?_viewed hf net)
  have hloops (s : State) : net.closedLoops s = ((s.transitions.map Transition.target).filter
      fun id => (net.kind? id).any (closes s.kind)).map (·, s.number) := by
    rw [closedLoops, List.filter_map, List.map_map]
    rfl
  have hviewed : (net.viewed f g).closedLoops (f s) = net.closedLoops (f s) := by
    rw [closedLoops, closedLoops, hkind]
  rw [hviewed, hloops, hloops, hf.kind, hf.number]
  cases hstop : s.kind.isRuleStop with
  | false => rw [hf.targets s hstop]
  | true =>
    have hnone (id : StateId) : (net.kind? id).any (closes s.kind) = false := by
      rw [StateKind.eq_ruleStop hstop]
      cases net.kind? id <;> rfl
    simp only [hnone, List.filter_false, List.map_nil]

/-- The end of a block is claimed in the view as in the network. -/
theorem viewed_claimBlockEnd (net : Network) (pair : StateId × StateId) :
    (net.viewed f g).claimBlockEnd pair = viewed f g <$> net.claimBlockEnd pair := by
  have hviewed := requireState_viewed (f := f) (g := g) net pair.2
  cases hstop : net.requireState pair.2 with
  | error e =>
    rw [hstop] at hviewed
    rw [claimBlockEnd, claimBlockEnd, hviewed, hstop]
    rfl
  | ok stop =>
    rw [hstop] at hviewed
    rw [claimBlockEnd_of_requireState hviewed, claimBlockEnd_of_requireState hstop, hf.kind]
    have hlink := viewed_link (g := g) hf StateKind.isRuleStop_withBlockStart net
      [(pair.2, pair.1)]
    rcases stop.kind with _ | _ | _ | _ | ⟨_ | _⟩ | _ | _ | _ | _ | _ <;>
      first | rfl | exact congrArg Except.ok hlink.symm

/-- Blocks and loops are linked alike before and after a view. -/
theorem viewed_linkBlocksAndLoops (net : Network) :
    (net.viewed f g).linkBlocksAndLoops = viewed f g <$> net.linkBlocksAndLoops := by
  have hpair (s : State) : blockPair? (f s) = blockPair? s := by
    rw [blockPair?, blockPair?, hf.kind, hf.number]
  have hpairs : (net.viewed f g).states.mapM blockPair? = net.states.mapM blockPair? := by
    rw [states_viewed, List.mapM_map]
    congr 1
    funext s
    exact hpair s
  have hloops : (net.viewed f g).states.flatMap (net.viewed f g).closedLoops =
      net.states.flatMap net.closedLoops := by
    rw [states_viewed, List.flatMap_map]
    congr 1
    funext s
    exact closedLoops_viewed hf net s
  -- Claims may fail, in the view just where they do in the network.
  have hclaims : ∀ (pairs : List (StateId × StateId)) (net : Network),
      pairs.foldlM claimBlockEnd (net.viewed f g) =
        viewed f g <$> pairs.foldlM claimBlockEnd net := by
    intro pairs
    induction pairs with
    | nil => exact fun _ => rfl
    | cons pair rest ih =>
      intro net
      rw [List.foldlM_cons, List.foldlM_cons, viewed_claimBlockEnd hf]
      cases net.claimBlockEnd pair with
      | error e => rfl
      | ok next => exact ih next
  rw [linkBlocksAndLoops, linkBlocksAndLoops, hpairs, hloops]
  cases net.states.mapM blockPair? with
  | error e => rfl
  | ok pairs =>
    change (do
      let net ← (pairs.filterMap id).foldlM claimBlockEnd (net.viewed f g)
      Except.ok (net.link .withLoopBack _)) = viewed f g <$> (do
      let net ← (pairs.filterMap id).foldlM claimBlockEnd net
      Except.ok (net.link .withLoopBack _))
    rw [hclaims]
    cases (pairs.filterMap id).foldlM claimBlockEnd net with
    | error e => rfl
    | ok claimed =>
      exact congrArg Except.ok (viewed_link hf StateKind.isRuleStop_withLoopBack claimed _).symm

end

end Network

end TransitionNetwork
