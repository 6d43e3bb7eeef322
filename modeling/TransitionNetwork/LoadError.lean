import TransitionNetwork.State
import TransitionNetwork.Stream.Revision

/-!
# Load errors

Every way in which loading a serialized network can fail, by cause, with the text of each.
-/

namespace TransitionNetwork

/-- What a serialized number refers to. -/
inductive Referent where
  | state
  | rule
  | set
  | count
  | predicate
  deriving DecidableEq

/-- The word for what a number refers to. -/
def Referent.text : Referent → String
  | state => "state"
  | rule => "rule"
  | set => "set"
  | count => "count"
  | predicate => "predicate"

/-- The kind of state that a reference asks for. -/
inductive StateRole where
  | decision
  | ruleStart
  | blockEnd
  deriving DecidableEq

/-- The words for the kind of state that a reference asks for. -/
def StateRole.text : StateRole → String
  | decision => "decision state"
  | ruleStart => "rule start state"
  | blockEnd => "block end state"

/-- A structural rule of networks that a state breaks. -/
inductive Violation where
  | ruleStartWithoutRule
  | ruleWithoutStop
  | blockStartWithoutEnd
  | blockEndSharedByStarts
  | ruleStartNotPaired
  | transitionsMixed
  | plusBlockStartWithoutLoopBack
  | starLoopEntryWithoutLoopBack
  | starLoopEntryTransitionCount
  | starLoopEntryGreedyMarkedNonGreedy
  | starLoopEntryNonGreedyNotMarked
  | starLoopEntryBranches
  | starLoopBackTransitionCount
  | starLoopBackTarget
  | loopEndWithoutLoopBack
  | ruleStartWithoutStop
  | blockEndWithoutStart
  | decisionWithoutNumber
  | nonDecisionWithSeveralTransitions
  deriving DecidableEq

/-- The rule that is broken, in words. -/
def Violation.text : Violation → String
  | ruleStartWithoutRule => "rule start state has no rule index"
  | ruleWithoutStop => "rule has no stop state"
  | blockStartWithoutEnd => "block start state has no end state"
  | blockEndSharedByStarts => "block end state is claimed by more than one block start"
  | ruleStartNotPaired => "rule start and stop states are not paired"
  | transitionsMixed => "state mixes epsilon and non-epsilon transitions"
  | plusBlockStartWithoutLoopBack => "plus block start has no loop back state"
  | starLoopEntryWithoutLoopBack => "star loop entry has no loop back state"
  | starLoopEntryTransitionCount => "star loop entry must have exactly two transitions"
  | starLoopEntryGreedyMarkedNonGreedy => "greedy star loop entry is marked non-greedy"
  | starLoopEntryNonGreedyNotMarked => "non-greedy star loop entry is not marked non-greedy"
  | starLoopEntryBranches => "star loop entry must branch to a star block start and a loop end"
  | starLoopBackTransitionCount => "star loop back must have exactly one transition"
  | starLoopBackTarget => "star loop back must target a star loop entry"
  | loopEndWithoutLoopBack => "loop end state has no loop back state"
  | ruleStartWithoutStop => "rule start state has no stop state"
  | blockEndWithoutStart => "block end state has no start state"
  | decisionWithoutNumber => "decision state with several transitions has no decision number"
  | nonDecisionWithSeveralTransitions => "non-decision state has several transitions"

/-- Why a serialized network was not loaded. -/
inductive LoadError where
  /-- The format version is another one. -/
  | unsupportedVersion (found : Int)
  /-- The format identifier names no known revision. -/
  | unsupportedIdentifier (found : String)
  | invalidStateType (code : Int) (index : Nat)
  | invalidTransitionType (code : Int)
  | invalidLexerActionType (code : Int)
  | invalidGrammarType (code : Int)
  /-- The units end where one more is needed. -/
  | unexpectedEnd (position : Nat)
  /-- A number refers to nothing. -/
  | missing (what : Referent) (number : Int)
  /-- A number refers to a state of the wrong kind. -/
  | wrongKind (state : StateId) (expected : StateRole)
  /-- A state breaks a structural rule. -/
  | violation (state : StateId) (broken : Violation)
  /-- The loop of a rule with precedence levels was not found. -/
  | precedenceLoopNotFound (rule : RuleIndex)
  deriving DecidableEq

/-- A state as messages name it. -/
def StateId.text (id : StateId) : String := "s" ++ toString id

/-- The text of an error. -/
def LoadError.message : LoadError → String
  | unsupportedVersion found =>
    "could not deserialize ATN with version " ++ toString found ++
      " (expected " ++ toString formatVersion ++ ")"
  | unsupportedIdentifier found =>
    "could not deserialize ATN with identifier " ++ found ++
      " (expected " ++ Revision.newest.identifier ++ " or a legacy identifier)"
  | invalidStateType code index =>
    "the specified state type " ++ toString code ++ " is not valid (state " ++
      toString index ++ ")"
  | invalidTransitionType code =>
    "the specified transition type " ++ toString code ++ " is not valid"
  | invalidLexerActionType code =>
    "the specified lexer action type " ++ toString code ++ " is not valid"
  | invalidGrammarType code => "the specified grammar type " ++ toString code ++ " is not valid"
  | unexpectedEnd position =>
    "serialized ATN ended unexpectedly at position " ++ toString position
  | missing what number =>
    "serialized ATN references missing " ++ what.text ++ " " ++ toString number
  | wrongKind state expected => "state " ++ state.text ++ " is not a " ++ expected.text
  | violation state broken =>
    "ATN structural invariant violated at state " ++ state.text ++ ": " ++ broken.text
  | precedenceLoopNotFound rule =>
    "couldn't identify final state of the precedence rule prefix section for rule " ++
      toString rule

end TransitionNetwork
