import TransitionNetwork.Network.Basic
import TransitionNetwork.Stream.Revision
import TransitionNetwork.Stream.Unit

/-!
# Writing networks

A network is written in the newest revision of the format, section by section. Transitions that
leave rule stop states are left out, since they follow from the rule transitions, and equal
interval sets are written once, in order of first use.
-/

namespace TransitionNetwork

namespace Stream

/-- A number or index as a value. -/
def natValue (n : Nat) : Int := n

/-- An optional number or index as a value. -/
def optionalValue (n : Option Nat) : Int := (n.map natValue).getD absent

/-- A list of values behind their number. -/
def listValues (values : List Int) : List Int := natValue values.length :: values

/-- The parts of the identifier of a revision. -/
def identifierValues (revision : Revision) : List Int :=
  (Identifier.parts revision.identifierValue).map natValue

/-! ## States -/

/-- The values of a slot. -/
def slotValues : Option State → List Int
  | none => [StateType.holeCode]
  | some s =>
    [s.kind.type.code, optionalValue s.rule] ++
      match s.kind with
      | .loopEnd loopBack => [optionalValue loopBack]
      | .blockStart _ stop => [optionalValue stop]
      | _ => []

/-- The numbers of the states with a property. -/
def numbersOf (net : Network) (property : State → Bool) : List Int :=
  (net.states.filter property).map fun s => natValue s.number

/-- The values of the states, of the loops that prefer to end and of the rules with precedence
levels. -/
def stateSection (revision : Revision) (net : Network) : List Int :=
  natValue net.slots.size :: net.slots.toList.flatMap slotValues ++
    listValues (numbersOf net fun s => s.kind.isDecision && s.nonGreedy) ++
    if revision.supports .precedence then
      listValues (numbersOf net fun s => s.kind.hasPrecedence)
    else []

/-! ## Rules and modes -/

/-- The values of a rule: its first state and, in a lexer, the token type that it makes. -/
def ruleValues (net : Network) (rule : RuleIndex) (start : StateId) : List Int :=
  match net.grammar with
  | .lexer =>
    let token := (net.ruleTokenType? rule).getD Token.eof
    [natValue start, if token = Token.eof then absent else token]
  | .parser => [natValue start]

/-- The values of the rules. -/
def ruleSection (net : Network) : List Int :=
  natValue net.ruleCount ::
    net.ruleStarts.zipIdx.flatMap fun entry => ruleValues net entry.2 entry.1

/-- The values of the lexer modes. -/
def modeSection (net : Network) : List Int := listValues (net.modeStarts.map natValue)

/-! ## Interval sets -/

/-- The set to which a transition refers. -/
def usedSet? (t : Transition) : Option IntervalSet :=
  match t.kind with
  | .set label => some label
  | .notSet excluded => some excluded
  | _ => none

/-- The sets to which transitions refer, each once, in order of first use. -/
def usedSets (net : Network) : List IntervalSet :=
  ((net.states.flatMap State.transitions).filterMap usedSet?).eraseDups

/-- The bounds of an interval. One that holds the end of the input alone is left to the flag of
the set, and one that goes on behind it begins with zero. -/
def intervalValues (i : Interval) : List Int :=
  if i.start = Token.eof then
    if i.stop = Token.eof then [] else [0, i.stop]
  else [i.start, i.stop]

/-- Whether the first interval of a set is left to the flag of the set. -/
def leavesFirst (s : IntervalSet) : Bool :=
  s.contains Token.eof && s.intervals.head?.any fun i => decide (i.stop = Token.eof)

/-- The values of a set. -/
def setValues (s : IntervalSet) : List Int :=
  natValue (s.intervals.length - (leavesFirst s).toNat) ::
    (if s.contains Token.eof then 1 else 0) :: s.intervals.flatMap intervalValues

/-- The values of the sets. -/
def setSection (net : Network) : List Int :=
  let sets := usedSets net
  natValue sets.length :: sets.flatMap setValues

/-! ## Transitions -/

/-- A truth value as a number. -/
def flagValue (flag : Bool) : Int := if flag then 1 else 0

/-- The first and the last argument for the start of a label: the end of the input is a flag. -/
def labelValues (label : TokenType) : Int × Int :=
  if label = Token.eof then (0, 1) else (label, 0)

/-- The values of a transition behind its source: target, type and three arguments. The target
of a rule transition is written as its follow state, and the first argument is the rule. -/
def transitionValues (sets : List IntervalSet) (t : Transition) : List Int :=
  let code := t.type.code
  let target := natValue t.target
  match t.kind with
  | .epsilon _ | .wildcard => [target, code, 0, 0, 0]
  | .range start stop =>
    let (first, third) := labelValues start
    [target, code, first, stop, third]
  | .rule rule precedence follow =>
    [natValue follow, code, target, natValue rule, precedence]
  | .predicate rule index contextDependent =>
    [target, code, natValue rule, natValue index, flagValue contextDependent]
  | .precedence level => [target, code, level, 0, 0]
  | .atom label =>
    let (first, third) := labelValues label
    [target, code, first, 0, third]
  | .action rule index contextDependent =>
    [target, code, natValue rule, optionalValue index, flagValue contextDependent]
  | .set label => [target, code, natValue (sets.idxOf label), 0, 0]
  | .notSet excluded => [target, code, natValue (sets.idxOf excluded), 0, 0]

/-- The transitions that are written, each with its source state. -/
def writtenEdges (net : Network) : List (State × Transition) :=
  (net.states.filter fun s => !s.kind.isRuleStop).flatMap fun s => s.transitions.map (s, ·)

/-- The values of the transitions. -/
def edgeSection (net : Network) : List Int :=
  let sets := usedSets net
  let edges := writtenEdges net
  natValue edges.length ::
    edges.flatMap fun edge => natValue edge.1.number :: transitionValues sets edge.2

/-! ## Decisions and lexer actions -/

/-- The values of the decision states. -/
def decisionSection (net : Network) : List Int := listValues (net.decisions.map natValue)

/-- The values of a lexer action, with zero for operands that it does not have. -/
def lexerActionValues (a : LexerAction) : List Int :=
  let (first, second) := a.operands 0
  [a.actionType.code, first, second]

/-- The values of the lexer actions; a parser has none. -/
def lexerActionSection (revision : Revision) (net : Network) : List Int :=
  match net.grammar with
  | .parser => []
  | .lexer =>
    if revision.supports .lexerActions then
      natValue net.lexerActions.length :: net.lexerActions.flatMap lexerActionValues
    else []

/-! ## Whole streams -/

/-- The values of a network in a revision of the format. -/
def values (revision : Revision) (net : Network) : List Int :=
  formatVersion :: identifierValues revision ++
    [net.grammar.code, net.maxTokenType] ++
    stateSection revision net ++ ruleSection net ++ modeSection net ++ setSection net ++
    edgeSection net ++ decisionSection net ++ lexerActionSection revision net

end Stream

/-- The units of a network in the newest revision of the format. -/
def Network.serialize (net : Network) : List UInt16 :=
  Stream.encode (Stream.values .newest net)

end TransitionNetwork
