import TransitionNetwork.IntervalSet.Words
import TransitionNetwork.Network.Bypass
import TransitionNetwork.Network.Links

/-!
# Networks in 32-bit words

The steps of a load that index the tables of the rules or compute new numbers, as they run on tables
of a fixed length and on 32-bit words. An index behind the end of a table, a sum that is not a word
and a state number that a word does not hold are faults, which are no load errors.
-/

namespace TransitionNetwork

/-- A computation that may fail, and that may have a fault, `none`. -/
abbrev Checked := ExceptT LoadError Option

namespace Checked

/-- A result that was found without a fault. -/
def ofResult {α : Type} (result : Except LoadError α) : Checked α := ExceptT.mk (some result)

end Checked

namespace Network

/-! ## Rule stop states -/

/-- Let a rule end in a state. Both tables are indexed by the rule as it stands. -/
def setRuleStopInWords (net : Network) (rule : RuleIndex) (stop : StateId) : Option Network :=
  if rule < net.ruleStops.length then do
    let start ← net.ruleStarts[rule]?
    let net := { net with ruleStops := net.ruleStops.set rule (some stop) }
    return net.modifyState start (State.mapKind (.withRuleStop stop))
  else none

/-- Let the rule of a rule stop state end there. -/
def linkRuleStopInWords (net : Network) (s : State) : Checked Network := do
  let rule ← Checked.ofResult (net.stoppedRule s)
  ExceptT.lift (net.setRuleStopInWords rule s.number)

/-- Let every rule end in the last of its rule stop states. -/
def linkRuleStopsInWords (net : Network) : Checked Network :=
  (net.states.filter (·.kind.isRuleStop)).foldlM linkRuleStopInWords
    { net with ruleStops := List.replicate net.ruleCount none }

/-! ## Bypass transitions -/

/-- Add a state in a new last slot, if its number is a word. -/
def addStateInWords (net : Network) (s : State) : Option Network := do
  let number ← Word.checkIndex net.slots.size
  return { net with slots := net.slots.push (some { s with number }) }

/-- Add a block of a rule without transitions, whose first state is a decision. -/
def addBlockInWords (net : Network) (rule : RuleIndex) : Option Network := do
  let start := net.nextId
  let net ← net.addStateInWords (.new (.blockStart .basic (some (start + 1))) (some rule))
  let net ← net.addStateInWords (.new (.blockEnd (some start)) (some rule))
  return net.addDecision start

/-- Give a rule its second way through. -/
def addBypassInWords (net : Network) (rule : RuleIndex) : Checked Network :=
  match net.ruleStart? rule, net.ruleTokenType? rule with
  | some ruleStart, some token => do
    let start := net.nextId
    let stop := start + 1
    let net ← ExceptT.lift (net.addBlockInWords rule)
    let (bodyEnd, excluded) ← Checked.ofResult (net.bodyEnd rule ruleStart)
    let net := net.retarget bodyEnd stop excluded
    let net := net.moveTransitions ruleStart start
    let net := net.addTransition ruleStart (.epsilon start)
    let net := net.addTransition stop (.epsilon bodyEnd)
    let choice := net.nextId
    let net ← ExceptT.lift
      (net.addStateInWords ((State.new .basic (some rule)).addTransition (.atom stop token)))
    return net.addTransition start (.epsilon choice)
  | _, _ => throw (.missing .rule rule)

/-- The token type that stands for a rule, a word after each of the two additions. -/
def bypassTokenTypeInWords (net : Network) (rule : RuleIndex) : Option TokenType := do
  let before ← Word.check (net.maxTokenType + Word.saturate rule)
  Word.check (before + 1)

/-- Give every rule its second way through, in order of the rules. -/
def addBypassesInWords (net : Network) : Checked Network := do
  let tokens ← ExceptT.lift ((List.range net.ruleCount).mapM net.bypassTokenTypeInWords)
  (List.range net.ruleCount).foldlM addBypassInWords { net with ruleTokenTypes := tokens }

end Network

end TransitionNetwork
