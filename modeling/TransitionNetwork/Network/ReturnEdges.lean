import TransitionNetwork.Network.Reference

/-!
# Return transitions

A rule stop state has no serialized transitions of its own making. Every rule transition adds
one to the stop state of the rule that it calls, leading back to the follow state of the call,
in order of the calling states and of their transitions.
-/

namespace TransitionNetwork

namespace Network

/-- The return transition that a transition asks for, with the rule stop state that is to own
it; none unless a rule is called. A return from an outermost call of a rule with precedence
levels carries that rule. -/
def returnEdge? (net : Network) (t : Transition) :
    Except LoadError (Option (StateId × Transition)) :=
  match t.kind with
  | .rule _ precedence follow => do
    let callee ← net.requireState t.target
    match callee.rule with
    | none => throw (.violation callee.number .ruleStartWithoutRule)
    | some rule =>
      let outermost := if net.hasPrecedence rule ∧ precedence = 0 then some rule else none
      match net.ruleStop? rule with
      | none => throw (.violation callee.number .ruleWithoutStop)
      | some stop => return some (stop, ⟨follow, .epsilon outermost⟩)
  | _ => .ok none

/-- The return transitions of all calls, in order of the calls. -/
def returnEdges (net : Network) : Except LoadError (List (StateId × Transition)) := do
  let edges ← (net.states.flatMap State.transitions).mapM net.returnEdge?
  return edges.filterMap id

/-- Give every rule stop state its return transitions, behind those that it has. -/
def addReturnEdges (net : Network) : Except LoadError Network := do
  return net.addTransitions (← net.returnEdges)

end Network

end TransitionNetwork
