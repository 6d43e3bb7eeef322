import TransitionNetwork.IntervalSet.Basic

/-!
# Transitions

A transition leads from the state that owns it to a target state. Labelled transitions consume
one token; the others consume nothing. A rule transition leads to the start of the rule that it
calls and keeps the state to continue in once that rule has ended.
-/

namespace TransitionNetwork

/-- The number of a state: its slot in the network. -/
abbrev StateId := Nat

/-- The number of a grammar rule. -/
abbrev RuleIndex := Nat

/-- The serialized type of a transition. -/
inductive TransitionType where
  | epsilon
  | range
  | rule
  | predicate
  | atom
  | action
  | set
  | notSet
  | wildcard
  | precedence
  deriving DecidableEq

namespace TransitionType

/-- The serialized code. -/
def code : TransitionType → Int
  | epsilon => 1
  | range => 2
  | rule => 3
  | predicate => 4
  | atom => 5
  | action => 6
  | set => 7
  | notSet => 8
  | wildcard => 9
  | precedence => 10

/-- Every transition type, in the order of the codes. -/
def all : List TransitionType :=
  [epsilon, range, rule, predicate, atom, action, set, notSet, wildcard, precedence]

/-- The transition type with a given code. -/
def ofCode? (code : Int) : Option TransitionType := all.find? fun t => t.code = code

/-- The code of a transition type gives the type back. -/
theorem ofCode?_code (t : TransitionType) : ofCode? t.code = some t := by
  cases t <;> rfl

end TransitionType

/-- What following a transition means, apart from where it leads. -/
inductive TransitionKind where
  /-- Consume nothing. `outermostReturn` is the rule from whose outermost call the transition
  returns, if that rule has precedence levels. -/
  | epsilon (outermostReturn : Option RuleIndex)
  /-- Consume a token of the inclusive range. -/
  | range (start stop : TokenType)
  /-- Call a rule at a precedence level and continue in `follow` afterwards. -/
  | rule (rule : RuleIndex) (precedence : Int) (follow : StateId)
  /-- Consume nothing, if a semantic predicate holds. -/
  | predicate (rule : RuleIndex) (index : Nat) (contextDependent : Bool)
  /-- Consume nothing, if the current precedence level allows it. -/
  | precedence (level : Int)
  /-- Consume a token of one type. -/
  | atom (label : TokenType)
  /-- Consume nothing and run an action. -/
  | action (rule : RuleIndex) (index : Option Nat) (contextDependent : Bool)
  /-- Consume a token of the set. -/
  | set (label : IntervalSet)
  /-- Consume a token of the vocabulary that is not in the set. -/
  | notSet (excluded : IntervalSet)
  /-- Consume any token of the vocabulary. -/
  | wildcard
  deriving DecidableEq

namespace TransitionKind

/-- The serialized type. -/
def type : TransitionKind → TransitionType
  | epsilon _ => .epsilon
  | range _ _ => .range
  | rule _ _ _ => .rule
  | predicate _ _ _ => .predicate
  | precedence _ => .precedence
  | atom _ => .atom
  | action _ _ _ => .action
  | set _ => .set
  | notSet _ => .notSet
  | wildcard => .wildcard

/-- Whether following the transition consumes no token. -/
def isEpsilon : TransitionKind → Bool
  | epsilon _ | rule _ _ _ | predicate _ _ _ | precedence _ | action _ _ _ => true
  | range _ _ | atom _ | set _ | notSet _ | wildcard => false

end TransitionKind

/-- A way to `target` from the state that owns the transition. -/
structure Transition where
  target : StateId
  kind : TransitionKind
  deriving DecidableEq

namespace Transition

/-- A transition that consumes nothing and asks for nothing. -/
def epsilon (target : StateId) : Transition := ⟨target, .epsilon none⟩

/-- A transition that consumes a token of one type. -/
def atom (target : StateId) (label : TokenType) : Transition := ⟨target, .atom label⟩

/-- The serialized type. -/
def type (t : Transition) : TransitionType := t.kind.type

/-- Whether following the transition consumes no token. -/
def isEpsilon (t : Transition) : Bool := t.kind.isEpsilon

/-- The state in which a rule transition continues after the called rule. -/
def follow? (t : Transition) : Option StateId :=
  match t.kind with
  | .rule _ _ follow => some follow
  | _ => none

/-- The label of a labelled transition; for a negated set these are the excluded tokens. -/
def label? (t : Transition) : Option IntervalSet :=
  match t.kind with
  | .atom label => some (.singleton label)
  | .range start stop => some (.ofRange start stop)
  | .set label => some label
  | .notSet excluded => some excluded
  | _ => none

/-- Whether the transition can consume a token, where the vocabulary is `least..greatest`. -/
def accepts (t : Transition) (token least greatest : TokenType) : Bool :=
  match t.kind with
  | .atom label => decide (label = token)
  | .range start stop => decide (start ≤ token) && decide (token ≤ stop)
  | .set label => label.contains token
  | .notSet excluded =>
    decide (least ≤ token) && decide (token ≤ greatest) && !excluded.contains token
  | .wildcard => decide (least ≤ token) && decide (token ≤ greatest)
  | _ => false

/-- Whether the transition is an atom or a range that begins with the end of the input. -/
def acceptsEof (t : Transition) : Bool :=
  match t.kind with
  | .atom label => decide (label = Token.eof)
  | .range start _ => decide (start = Token.eof)
  | _ => false

/-- The tokens that the transition can consume, given the vocabulary as a set. -/
def consumed (t : Transition) (vocabulary : IntervalSet) : IntervalSet :=
  match t.kind with
  | .wildcard => vocabulary
  | .notSet excluded => excluded.complement vocabulary
  | _ => t.label?.getD ∅

end Transition

end TransitionNetwork
