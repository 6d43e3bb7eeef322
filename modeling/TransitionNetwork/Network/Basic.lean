import TransitionNetwork.LexerAction
import TransitionNetwork.State

/-!
# Augmented transition networks

A network holds the states of all rules of a grammar in numbered slots, together with the tables
that a recognizer looks up: decisions, first and last states of rules, lexer modes, token types
and lexer actions. A slot may be a hole, left by a state that was removed; slots never shift.
-/

namespace TransitionNetwork

/-- What a network recognizes: tokens in characters or phrases in tokens. -/
inductive GrammarType where
  | lexer
  | parser
  deriving DecidableEq

namespace GrammarType

/-- The serialized code. -/
def code : GrammarType → Int
  | lexer => 0
  | parser => 1

/-- The grammar type with a given code. -/
def ofCode? (code : Int) : Option GrammarType := [lexer, parser].find? fun t => t.code = code

/-- The code of a grammar type gives the type back. -/
theorem ofCode?_code (t : GrammarType) : ofCode? t.code = some t := by
  cases t <;> rfl

end GrammarType

/-- The states of a grammar with the tables that lead to them. -/
structure Network where
  grammar : GrammarType
  /-- The greatest token type of the vocabulary. -/
  maxTokenType : TokenType
  /-- The states by number; a hole holds none. -/
  slots : Array (Option State)
  /-- The decision states by decision number. -/
  decisions : List StateId
  /-- The first state of each rule. -/
  ruleStarts : List StateId
  /-- The last state of each rule. -/
  ruleStops : List (Option StateId)
  /-- The first state of each lexer mode. -/
  modeStarts : List StateId
  /-- The token type that each lexer rule makes, or that stands for a whole parser rule. -/
  ruleTokenTypes : List TokenType
  /-- The actions to which the action transitions of a lexer refer. -/
  lexerActions : List LexerAction
  deriving DecidableEq

namespace Network

/-- The token types that the grammar defines. -/
def vocabulary (net : Network) : IntervalSet := .ofRange Token.firstUser net.maxTokenType

/-- The state of a number, if its slot exists and is no hole. -/
def state? (net : Network) (id : StateId) : Option State := net.slots[id]?.join

/-- The kind of the state of a number. -/
def kind? (net : Network) (id : StateId) : Option StateKind := (net.state? id).map State.kind

/-- The states in order of their numbers. -/
def states (net : Network) : List State := net.slots.toList.filterMap id

/-- The number of rules. -/
def ruleCount (net : Network) : Nat := net.ruleStarts.length

/-- The first state of a rule. -/
def ruleStart? (net : Network) (rule : RuleIndex) : Option StateId := net.ruleStarts[rule]?

/-- The last state of a rule. -/
def ruleStop? (net : Network) (rule : RuleIndex) : Option StateId := net.ruleStops[rule]?.join

/-- The state that has a decision number. -/
def decisionState? (net : Network) (decision : Nat) : Option State :=
  net.decisions[decision]?.bind net.state?

/-- The token type that belongs to a rule. -/
def ruleTokenType? (net : Network) (rule : RuleIndex) : Option TokenType :=
  net.ruleTokenTypes[rule]?

/-- The first state of a lexer mode. -/
def modeStart? (net : Network) (mode : Nat) : Option StateId := net.modeStarts[mode]?

/-- Whether a rule has precedence levels. -/
def hasPrecedence (net : Network) (rule : RuleIndex) : Bool :=
  ((net.ruleStart? rule).bind net.kind?).any StateKind.hasPrecedence

/-- Change the state of a number, if there is one. -/
def modifyState (net : Network) (id : StateId) (f : State → State) : Network :=
  { net with slots := net.slots.modify id (Option.map f) }

/-- Change every state. -/
def mapStates (net : Network) (f : State → State) : Network :=
  { net with slots := net.slots.map (Option.map f) }

/-- Add a state in a new last slot, whose number it is given. -/
def addState (net : Network) (s : State) : Network :=
  { net with slots := net.slots.push (some { s with number := net.slots.size }) }

/-- The number that the next added state is given. -/
def nextId (net : Network) : StateId := net.slots.size

/-- Append a transition to a state. -/
def addTransition (net : Network) (source : StateId) (t : Transition) : Network :=
  net.modifyState source (·.addTransition t)

/-- Append transitions to their source states, in order. -/
def addTransitions (net : Network) (edges : List (StateId × Transition)) : Network :=
  edges.foldl (fun net edge => net.addTransition edge.1 edge.2) net

/-- Give a state the next decision number. -/
def addDecision (net : Network) (id : StateId) : Network :=
  { net with decisions := net.decisions ++ [id] }.modifyState id fun s =>
    { s with decision := some net.decisions.length }

/-- Give states the next decision numbers, in order. -/
def addDecisions (net : Network) (ids : List StateId) : Network := ids.foldl addDecision net

end Network

end TransitionNetwork
