import TransitionNetwork.Context.Basic
import TransitionNetwork.Network.Basic

/-!
# Call chains

A parser knows for every active rule which rule called it and in which state. Read against a
network, such a chain gives the stack of states in which the callers continue.
-/

namespace TransitionNetwork

/-- The active rules of a parser, the innermost first. Each has the state that called it, which
is unknown for the outermost rule as a rule. -/
inductive CallChain where
  /-- The outermost rule. -/
  | outermost (invoking : Option StateId)
  /-- A rule within its caller. -/
  | called (invoking : Option StateId) (caller : CallChain)
  deriving DecidableEq

namespace CallChain

/-- The chain in which each state calls the next rule, the first one from the outermost rule. -/
def ofCalls (states : List StateId) : CallChain :=
  states.foldl (fun caller state => called (some state) caller) (outermost none)

/-- The state that called the innermost rule. -/
def invoking : CallChain → Option StateId
  | outermost invoking => invoking
  | called invoking _ => invoking

/-- The number of active rules. -/
def depth : CallChain → Nat
  | outermost _ => 1
  | called _ caller => caller.depth + 1

end CallChain

/-- Why a call chain cannot be read against a network. -/
inductive CallError where
  /-- A state does not exist. -/
  | invalidState (number : StateId)
  /-- The first transition of a state calls no rule. -/
  | notRuleInvocation (state : StateId)
  deriving DecidableEq

/-- The text of an error. -/
def CallError.message : CallError → String
  | invalidState number => "invalid state number " ++ toString number
  | notRuleInvocation state => "state s" ++ toString state ++ " does not invoke a rule"

namespace Network

/-- A state that a caller of the network names. -/
def liveState (net : Network) (id : StateId) : Except CallError State :=
  match net.state? id with
  | some s => .ok s
  | none => .error (.invalidState id)

/-- The state in which a call from a state continues. -/
def followOf (net : Network) (invoking : StateId) : Except CallError StateId := do
  match (← net.liveState invoking).invoked? with
  | some follow => return follow
  | none => throw (.notRuleInvocation invoking)

/-- The states in which the callers of a chain continue, the innermost first. The outermost rule
and all rules outside an unknown call have no caller. -/
def followsOf (net : Network) : CallChain → Except CallError (List StateId)
  | .outermost _ => return []
  | .called none _ => return []
  | .called (some invoking) caller => do
    let follow ← net.followOf invoking
    return follow :: (← net.followsOf caller)

/-- The context of a call chain, whose outermost rule has the empty stack, and the identity that
is free after it. -/
def contextOf [NodeDigest] (net : Network) (chain : CallChain) (next : NodeId) :
    Except CallError (Context × NodeId) := do
  let follows ← net.followsOf chain
  return Context.empty.pushAll (follows.map fun (id : Nat) => (id : Int)) next

end Network

end TransitionNetwork
