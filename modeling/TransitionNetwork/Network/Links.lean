import TransitionNetwork.Network.Reference

/-!
# Cross-links between states

The last state of a rule is known to the first, the first state of a block to the last and the
state that closes a loop to the state that opens it. Only the links from block starts and loop
ends are serialized; the others follow from rule indices and transitions.
-/

namespace TransitionNetwork

namespace Network

/-- Change the kinds of the listed states, each by the state that is linked to it. -/
def link (net : Network) (f : StateId → StateKind → StateKind)
    (links : List (StateId × StateId)) : Network :=
  links.foldl (fun net pair => net.modifyState pair.1 (State.mapKind (f pair.2))) net

/-- Link the listed states to states given by serialized numbers; no link is made unless every
number names a state. -/
def linkNumbers (net : Network) (f : StateId → StateKind → StateKind)
    (numbers : List (StateId × Int)) : Except LoadError Network := do
  let links ← numbers.mapM fun pair => return (pair.1, ← net.resolve pair.2)
  return net.link f links

/-! ## Rules -/

/-- The rule that a rule stop state ends. -/
def stoppedRule (net : Network) (s : State) : Except LoadError RuleIndex :=
  match s.rule with
  | none => .error (.missing .rule (-1))
  | some rule => if rule < net.ruleCount then .ok rule else .error (.missing .rule rule)

/-- Let a rule end in a state, both in the table and in the first state of the rule. -/
def setRuleStop (net : Network) (rule : RuleIndex) (stop : StateId) : Network :=
  let net := { net with ruleStops := net.ruleStops.set rule (some stop) }
  match net.ruleStart? rule with
  | some start => net.modifyState start (State.mapKind (.withRuleStop stop))
  | none => net

/-- Let every rule end in the last of its rule stop states. -/
def linkRuleStops (net : Network) : Except LoadError Network := do
  let stops ← (net.states.filter (·.kind.isRuleStop)).mapM fun s =>
    return (← net.stoppedRule s, s.number)
  let net := { net with ruleStops := List.replicate net.ruleCount none }
  return stops.foldl (fun net stop => net.setRuleStop stop.1 stop.2) net

/-! ## Blocks and loops -/

/-- The first and last state of the block that a state begins, if it begins one. -/
def blockPair? (s : State) : Except LoadError (Option (StateId × StateId)) :=
  match s.kind with
  | .blockStart _ (some stop) => .ok (some (s.number, stop))
  | .blockStart _ none => .error (.violation s.number .blockStartWithoutEnd)
  | _ => .ok none

/-- Whether a state of the first kind closes a loop that a state of the second kind opens. -/
def closes : StateKind → StateKind → Bool
  | .plusLoopBack, opening => opening.isPlusBlockStart
  | .starLoopBack, opening => opening.isStarLoopEntry
  | _, _ => false

/-- The loops that a state closes, each as the state that opens it with the closing state. -/
def closedLoops (net : Network) (s : State) : List (StateId × StateId) :=
  (s.transitions.filter fun t => (net.kind? t.target).any (closes s.kind)).map fun t =>
    (t.target, s.number)

/-- Link a block end to a block start; only one block start can claim it. -/
def claimBlockEnd (net : Network) (pair : StateId × StateId) : Except LoadError Network := do
  let stop ← net.requireState pair.2
  match stop.kind with
  | .blockEnd none => return net.link .withBlockStart [(pair.2, pair.1)]
  | .blockEnd (some _) => throw (.violation pair.2 .blockEndSharedByStarts)
  | _ => throw (.wrongKind pair.2 .blockEnd)

/-- Link every block end to its block start, and every state that opens a loop to the last state
that closes it. -/
def linkBlocksAndLoops (net : Network) : Except LoadError Network := do
  let pairs ← net.states.mapM blockPair?
  let loops := net.states.flatMap net.closedLoops
  let net ← (pairs.filterMap id).foldlM claimBlockEnd net
  return net.link .withLoopBack loops

end Network

end TransitionNetwork
