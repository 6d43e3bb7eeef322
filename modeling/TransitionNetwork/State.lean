import TransitionNetwork.Transition

/-!
# States

A state has a kind, which says what place of a rule it marks and which other states belong to
it, and an ordered list of transitions. The cross-links of a kind are optional, because they are
found only after all states exist.
-/

namespace TransitionNetwork

/-- The serialized type of a state. -/
inductive StateType where
  | basic
  | ruleStart
  | blockStart
  | plusBlockStart
  | starBlockStart
  | tokenStart
  | ruleStop
  | blockEnd
  | starLoopBack
  | starLoopEntry
  | plusLoopBack
  | loopEnd
  deriving DecidableEq

namespace StateType

/-- The serialized code; zero is left for a slot without a state. -/
def code : StateType → Int
  | basic => 1
  | ruleStart => 2
  | blockStart => 3
  | plusBlockStart => 4
  | starBlockStart => 5
  | tokenStart => 6
  | ruleStop => 7
  | blockEnd => 8
  | starLoopBack => 9
  | starLoopEntry => 10
  | plusLoopBack => 11
  | loopEnd => 12

/-- The code of a slot without a state. -/
def holeCode : Int := 0

/-- Every state type, in the order of the codes. -/
def all : List StateType :=
  [basic, ruleStart, blockStart, plusBlockStart, starBlockStart, tokenStart, ruleStop, blockEnd,
    starLoopBack, starLoopEntry, plusLoopBack, loopEnd]

/-- The state type with a given code. -/
def ofCode? (code : Int) : Option StateType := all.find? fun t => t.code = code

/-- The code of a state type gives the type back. -/
theorem ofCode?_code (t : StateType) : ofCode? t.code = some t := by
  cases t <;> rfl

/-- Whether a serialized state of this type is followed by the number of a state linked to it. -/
def hasLink : StateType → Bool
  | blockStart | plusBlockStart | starBlockStart | loopEnd => true
  | _ => false

end StateType

/-- The construct that a block start state opens. -/
inductive BlockKind where
  /-- A choice of alternatives. -/
  | basic
  /-- The body of a loop that may run zero times. -/
  | star
  /-- The body of a loop that runs at least once, with the state that closes the loop. -/
  | plus (loopBack : Option StateId)
  deriving DecidableEq

/-- The place of a rule that a state marks, with the states that belong to it. -/
inductive StateKind where
  /-- A state of no further meaning. -/
  | basic
  /-- The first state of a rule. -/
  | ruleStart (stop : Option StateId) (hasPrecedence : Bool)
  /-- The last state of a rule. -/
  | ruleStop
  /-- The first state of a block. -/
  | blockStart (block : BlockKind) (stop : Option StateId)
  /-- The last state of a block. -/
  | blockEnd (start : Option StateId)
  /-- The state where a star loop goes on or ends. `decidesPrecedence` says that the loop
  decides whether a left-recursive rule goes on. -/
  | starLoopEntry (loopBack : Option StateId) (decidesPrecedence : Bool)
  /-- The state that closes a star loop. -/
  | starLoopBack
  /-- The state that closes a plus loop, which goes on or ends here. -/
  | plusLoopBack
  /-- The state behind a loop. -/
  | loopEnd (loopBack : Option StateId)
  /-- The state that chooses among the token rules of a lexer mode. -/
  | tokenStart
  deriving DecidableEq

namespace StateKind

/-- The kind of a fresh state, with no state linked to it. -/
def ofType : StateType → StateKind
  | .basic => basic
  | .ruleStart => ruleStart none false
  | .blockStart => blockStart .basic none
  | .plusBlockStart => blockStart (.plus none) none
  | .starBlockStart => blockStart .star none
  | .tokenStart => tokenStart
  | .ruleStop => ruleStop
  | .blockEnd => blockEnd none
  | .starLoopBack => starLoopBack
  | .starLoopEntry => starLoopEntry none false
  | .plusLoopBack => plusLoopBack
  | .loopEnd => loopEnd none

/-- The serialized type. -/
def type : StateKind → StateType
  | basic => .basic
  | ruleStart _ _ => .ruleStart
  | ruleStop => .ruleStop
  | blockStart .basic _ => .blockStart
  | blockStart .star _ => .starBlockStart
  | blockStart (.plus _) _ => .plusBlockStart
  | blockEnd _ => .blockEnd
  | starLoopEntry _ _ => .starLoopEntry
  | starLoopBack => .starLoopBack
  | plusLoopBack => .plusLoopBack
  | loopEnd _ => .loopEnd
  | tokenStart => .tokenStart

/-- The kind that is made for a state type is of that type. -/
theorem type_ofType (t : StateType) : (ofType t).type = t := by
  cases t <;> rfl

/-- Whether the state may have several transitions and is given a decision number. -/
def isDecision : StateKind → Bool
  | blockStart _ _ | starLoopEntry _ _ | plusLoopBack | tokenStart => true
  | _ => false

/-- Whether the state begins or ends a block. -/
def isBlockBoundary : StateKind → Bool
  | blockStart _ _ | blockEnd _ => true
  | _ => false

/-- Whether the state belongs to a loop. -/
def isLoop : StateKind → Bool
  | starLoopEntry _ _ | starLoopBack | plusLoopBack | loopEnd _ | blockStart (.plus _) _ => true
  | _ => false

/-- Whether the state is the first of a rule. -/
def isRuleStart : StateKind → Bool
  | ruleStart _ _ => true
  | _ => false

/-- Whether the state is the last of a rule. -/
def isRuleStop : StateKind → Bool
  | ruleStop => true
  | _ => false

/-- Whether the state begins the body of a star loop. -/
def isStarBlockStart : StateKind → Bool
  | blockStart .star _ => true
  | _ => false

/-- Whether the state begins the body of a plus loop. -/
def isPlusBlockStart : StateKind → Bool
  | blockStart (.plus _) _ => true
  | _ => false

/-- Whether a star loop goes on or ends in the state. -/
def isStarLoopEntry : StateKind → Bool
  | starLoopEntry _ _ => true
  | _ => false

/-- Whether the state lies behind a loop. -/
def isLoopEnd : StateKind → Bool
  | loopEnd _ => true
  | _ => false

/-- The last state of the block that the state begins. -/
def blockStop? : StateKind → Option StateId
  | blockStart _ stop => stop
  | _ => none

/-- The first state of the block that the state ends. -/
def blockStart? : StateKind → Option StateId
  | blockEnd start => start
  | _ => none

/-- The last state of the rule that the state begins. -/
def ruleStop? : StateKind → Option StateId
  | ruleStart stop _ => stop
  | _ => none

/-- The state that closes the loop to which the state belongs. -/
def loopBack? : StateKind → Option StateId
  | blockStart (.plus loopBack) _ | starLoopEntry loopBack _ | loopEnd loopBack => loopBack
  | _ => none

/-- Whether the state begins a rule with precedence levels. -/
def hasPrecedence : StateKind → Bool
  | ruleStart _ hasPrecedence => hasPrecedence
  | _ => false

/-- Whether the state decides if a left-recursive rule goes on. -/
def decidesPrecedence : StateKind → Bool
  | starLoopEntry _ decidesPrecedence => decidesPrecedence
  | _ => false

/-- Link the last state of a block to its first; other kinds stay as they are. -/
def withBlockStop (stop : StateId) : StateKind → StateKind
  | blockStart block _ => blockStart block (some stop)
  | kind => kind

/-- Link the first state of a block to its last; other kinds stay as they are. -/
def withBlockStart (start : StateId) : StateKind → StateKind
  | blockEnd _ => blockEnd (some start)
  | kind => kind

/-- Link the last state of a rule to its first; other kinds stay as they are. -/
def withRuleStop (stop : StateId) : StateKind → StateKind
  | ruleStart _ hasPrecedence => ruleStart (some stop) hasPrecedence
  | kind => kind

/-- Link the state that closes a loop; kinds outside loops stay as they are. -/
def withLoopBack (loopBack : StateId) : StateKind → StateKind
  | blockStart (.plus _) stop => blockStart (.plus (some loopBack)) stop
  | starLoopEntry _ decidesPrecedence => starLoopEntry (some loopBack) decidesPrecedence
  | loopEnd _ => loopEnd (some loopBack)
  | kind => kind

/-- Give a rule precedence levels; other kinds stay as they are. -/
def withPrecedence : StateKind → StateKind
  | ruleStart stop _ => ruleStart stop true
  | kind => kind

/-- Let a star loop decide on precedence; other kinds stay as they are. -/
def decidingPrecedence : StateKind → StateKind
  | starLoopEntry loopBack _ => starLoopEntry loopBack true
  | kind => kind

end StateKind

/-- A state with its transitions. -/
structure State where
  /-- The slot of the state in its network. -/
  number : StateId
  /-- The rule to which the state belongs. -/
  rule : Option RuleIndex
  kind : StateKind
  /-- The transitions that leave the state, in order of preference. -/
  transitions : List Transition
  /-- Whether there are transitions and none of them consumes a token. -/
  epsilonOnly : Bool
  /-- The decision number of a decision state. -/
  decision : Option Nat
  /-- Whether a loop prefers to end. -/
  nonGreedy : Bool
  deriving DecidableEq

namespace State

/-- A state without transitions that belongs to no network yet. -/
def new (kind : StateKind) (rule : Option RuleIndex) : State where
  number := 0
  rule := rule
  kind := kind
  transitions := []
  epsilonOnly := false
  decision := none
  nonGreedy := false

/-- Append a transition. The first one decides whether the state is epsilon-only, and a later
one of the other sort ends it. -/
def addTransition (s : State) (t : Transition) : State :=
  { s with
    transitions := s.transitions ++ [t]
    epsilonOnly :=
      if s.transitions.isEmpty then t.isEpsilon else s.epsilonOnly && t.isEpsilon }

/-- Drop every transition. -/
def clearTransitions (s : State) : State := { s with transitions := [], epsilonOnly := false }

/-- Let a function choose the kind anew. -/
def mapKind (f : StateKind → StateKind) (s : State) : State := { s with kind := f s.kind }

/-- The follow state of the first transition, if that transition calls a rule. -/
def invoked? (s : State) : Option StateId := s.transitions.head?.bind Transition.follow?

end State

end TransitionNetwork
