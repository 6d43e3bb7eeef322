import TransitionNetwork.Network.PrecedenceLoops
import TransitionNetwork.Network.Reference

/-!
# Bypass transitions

Every rule of a parser can be given a second way through: a single token, of a type kept for
that rule, that stands for the whole rule. The body of the rule becomes one alternative of a new
block, and a state that consumes the token becomes the other. The block ends where the body
ended: in the last state of the rule, or in the entry of its precedence loop.
-/

namespace TransitionNetwork

/-- The place of a transition: its source and its position there. -/
abbrev TransitionPlace := StateId × Nat

namespace Network

/-- Turn every transition that leads to one state towards another, but for one place. -/
def retarget (net : Network) (old new : StateId) (excluded : Option TransitionPlace) : Network :=
  net.mapStates fun s =>
    { s with
      transitions := s.transitions.mapIdx fun i t =>
        if t.target = old ∧ excluded ≠ some (s.number, i) then { t with target := new } else t }

/-- The state in which the body of a rule ends, and a transition to it that is no end of the
body: the one by which a precedence loop starts again. -/
def bodyEnd (net : Network) (rule : RuleIndex) (start : StateId) :
    Except LoadError (StateId × Option TransitionPlace) :=
  if (net.kind? start).any StateKind.hasPrecedence then
    match net.states.find? fun s => s.rule = some rule ∧ net.isPrecedenceLoopEntry s with
    | some entry => .ok (entry.number, entry.kind.loopBack?.map (·, 0))
    | none => .error (.precedenceLoopNotFound rule)
  else
    match net.ruleStop? rule with
    | some stop => .ok (stop, none)
    | none => .error (.missing .rule rule)

/-- Add a block of a rule without transitions, whose first state is a decision: first its start,
then its end. -/
def addBlock (net : Network) (rule : RuleIndex) : Network :=
  let start := net.nextId
  let net := net.addState (.new (.blockStart .basic (some (start + 1))) (some rule))
  let net := net.addState (.new (.blockEnd (some start)) (some rule))
  net.addDecision start

/-- Move the transitions of one state to the end of those of another. -/
def moveTransitions (net : Network) (source destination : StateId) : Network :=
  let body := ((net.state? source).map State.transitions).getD []
  (net.modifyState source State.clearTransitions).addTransitions (body.map (destination, ·))

/-- Give a rule its second way through. -/
def addBypass (net : Network) (rule : RuleIndex) : Except LoadError Network :=
  match net.ruleStart? rule, net.ruleTokenType? rule with
  | some ruleStart, some token => do
    let start := net.nextId
    let stop := start + 1
    let net := net.addBlock rule
    let (bodyEnd, excluded) ← net.bodyEnd rule ruleStart
    let net := net.retarget bodyEnd stop excluded
    let net := net.moveTransitions ruleStart start
    let net := net.addTransition ruleStart (.epsilon start)
    let net := net.addTransition stop (.epsilon bodyEnd)
    let choice := net.nextId
    let net := net.addState ((State.new .basic (some rule)).addTransition (.atom stop token))
    return net.addTransition start (.epsilon choice)
  | _, _ => .error (.missing .rule rule)

/-- The token types that stand for whole rules, behind the types of the vocabulary. -/
def bypassTokenTypes (net : Network) : List TokenType :=
  (List.range net.ruleCount).map fun (rule : Nat) => net.maxTokenType + (rule : Int) + 1

/-- Give every rule its second way through, in order of the rules. -/
def addBypasses (net : Network) : Except LoadError Network :=
  (List.range net.ruleCount).foldlM addBypass { net with ruleTokenTypes := net.bypassTokenTypes }

end Network

end TransitionNetwork
