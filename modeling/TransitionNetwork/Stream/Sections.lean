import TransitionNetwork.Network.LegacyActions
import TransitionNetwork.Network.Links
import TransitionNetwork.Network.ReturnEdges
import TransitionNetwork.Stream.Decoder
import TransitionNetwork.Stream.Revision

/-!
# Sections of a serialized network

A stream holds, in this order, the version and the identifier of its format, the grammar type
and the greatest token type, the states, the rules, the lexer modes, the interval sets, the
transitions, the decisions and, for a lexer, its actions. Each section is read as a list of
entries, every entry being checked as soon as it has been read, and then put into the network as
a whole.
-/

namespace TransitionNetwork

namespace Stream

namespace Decoder

/-! ## Header -/

/-- Check the format version. -/
def version : Decoder Unit := do
  let found ← int
  if found ≠ formatVersion then throw (.unsupportedVersion found)

/-- The revision that the identifier of the stream marks. -/
def revision : Decoder Revision := do
  let found ← identifier
  match Revision.ofIdentifier? found with
  | some revision => return revision
  | none => throw (.unsupportedIdentifier found)

/-- The network of a grammar type and a greatest token type, without states. -/
def header : Decoder Network := do
  let code ← int
  match GrammarType.ofCode? code with
  | none => throw (.invalidGrammarType code)
  | some grammar =>
    let maxTokenType ← int
    return { grammar, maxTokenType, slots := #[], decisions := [], ruleStarts := [],
             ruleStops := [], modeStarts := [], ruleTokenTypes := [], lexerActions := [] }

/-! ## States -/

/-- The entry of a slot: a state with the number of the state linked to it, or a hole. -/
structure SlotEntry where
  state : Option State
  link : Option Int

/-- The entry of a slot. -/
def slot (index : Nat) : Decoder SlotEntry := do
  let code ← int
  if code = StateType.holeCode then return ⟨none, none⟩
  match StateType.ofCode? code with
  | none => throw (.invalidStateType code index)
  | some type =>
    let rule := optionalIndex (← int)
    let link ← if type.hasLink then some <$> int else pure none
    return ⟨some { State.new (.ofType type) rule with number := index }, link⟩

/-- The serialized links of the states of certain kinds, in order of the states. -/
def links (kinds : StateKind → Bool) (entries : List SlotEntry) : List (StateId × Int) :=
  entries.filterMap fun entry =>
    match entry.state, entry.link with
    | some s, some number => if kinds s.kind then some (s.number, number) else none
    | _, _ => none

/-- A state of the network that can play a role. -/
def stateAs (net : Network) (role : StateRole) : Decoder StateId := do
  ofResult (net.resolveAs role (← int))

/-- The states with their links, the loops that prefer to end and the rules with precedence
levels. -/
def states (revision : Revision) (net : Network) : Decoder Network := do
  let entries ← repeated (← count) slot
  let net := { net with slots := (entries.map SlotEntry.state).toArray }
  let net ← ofResult (net.linkNumbers .withLoopBack (links StateKind.isLoopEnd entries))
  let net ← ofResult (net.linkNumbers .withBlockStop (links (!StateKind.isLoopEnd ·) entries))
  let nonGreedy ← counted (stateAs net .decision)
  let net := nonGreedy.foldl
    (fun net id => net.modifyState id fun s => { s with nonGreedy := true }) net
  if revision.supports .precedence then
    let precedence ← counted (stateAs net .ruleStart)
    return precedence.foldl
      (fun net id => net.modifyState id (State.mapKind .withPrecedence)) net
  else return net

/-! ## Rules and modes -/

/-- The first state of a rule and, in a lexer, the token type that the rule makes. -/
def ruleEntry (net : Network) : Decoder (StateId × Option TokenType) := do
  let start ← stateAs net .ruleStart
  match net.grammar with
  | .lexer => return (start, some (← int))
  | .parser => return (start, none)

/-- The rules with their first and last states. -/
def rules (net : Network) : Decoder Network := do
  let entries ← counted (ruleEntry net)
  let net := { net with
    ruleStarts := entries.map Prod.fst
    ruleTokenTypes := entries.filterMap Prod.snd }
  ofResult net.linkRuleStops

/-- The first states of the lexer modes. -/
def modes (net : Network) : Decoder Network := do
  let starts ← counted do ofResult (net.resolve (← int))
  return { net with modeStarts := starts }

/-! ## Interval sets -/

/-- An interval, each bound in a value of its own. -/
def interval : Decoder Interval := do
  let start ← int
  let stop ← int
  return ⟨start, stop⟩

/-- A set: the number of its intervals, whether the end of the input is a member, and the
intervals. -/
def intervalSet : Decoder IntervalSet := do
  let size ← count
  let eof ← int
  let intervals ← repeated size fun _ => interval
  return .ofIntervals (if eof ≠ 0 then ⟨Token.eof, Token.eof⟩ :: intervals else intervals)

/-! ## Transitions -/

/-- A serialized transition: six values, of which the last three depend on the type. -/
structure EdgeEntry where
  source : Int
  target : Int
  code : Int
  first : Int
  second : Int
  third : Int

/-- The values of a transition. -/
def edgeEntry : Decoder EdgeEntry := do
  let source ← int
  let target ← int
  let code ← int
  let first ← int
  let second ← int
  let third ← int
  return { source, target, code, first, second, third }

/-- The transition that serialized values describe. The serialized target of a rule transition
is the follow state, and the transition itself leads to the rule. -/
def transition (net : Network) (sets : List IntervalSet) (e : EdgeEntry) :
    Except LoadError Transition := do
  match TransitionType.ofCode? e.code with
  | none => throw (.invalidTransitionType e.code)
  | some type =>
    let target ← net.resolve e.target
    let label := if e.third ≠ 0 then Token.eof else e.first
    match type with
    | .epsilon => return ⟨target, .epsilon none⟩
    | .range => return ⟨target, .range label e.second⟩
    | .rule =>
      let start ← net.resolveAs .ruleStart e.first
      return ⟨start, .rule (← natural .rule e.second) e.third target⟩
    | .predicate =>
      let rule ← natural .rule e.first
      return ⟨target, .predicate rule (← natural .predicate e.second) (e.third != 0)⟩
    | .atom => return ⟨target, .atom label⟩
    | .action =>
      let rule ← natural .rule e.first
      return ⟨target, .action rule (optionalIndex e.second) (e.third != 0)⟩
    | .set => return ⟨target, .set (← set e.first)⟩
    | .notSet => return ⟨target, .notSet (← set e.first)⟩
    | .wildcard => return ⟨target, .wildcard⟩
    | .precedence => return ⟨target, .precedence e.first⟩
where
  set (number : Int) : Except LoadError IntervalSet :=
    match (optionalIndex number).bind fun i => sets[i]? with
    | some label => .ok label
    | none => .error (.missing .set number)

/-- A transition with its source state. -/
def edge (net : Network) (sets : List IntervalSet) : Decoder (StateId × Transition) := do
  let entry ← edgeEntry
  let transition ← ofResult (transition net sets entry)
  return (← ofResult (net.resolve entry.source), transition)

/-! ## Decisions and lexer actions -/

/-- The decision states. -/
def decisions (net : Network) : Decoder Network := do
  return net.addDecisions (← counted (stateAs net .decision))

/-- A lexer action: the code of its type and two operands. -/
def lexerAction : Decoder LexerAction := do
  let code ← int
  match LexerActionType.ofCode? code with
  | none => throw (.invalidLexerActionType code)
  | some command =>
    let first ← int
    let second ← int
    return .ofOperands command first second

/-- The lexer actions, from their own section or from the transitions of an older stream. -/
def lexerActions (revision : Revision) (net : Network) : Decoder Network := do
  match net.grammar with
  | .parser => return net
  | .lexer =>
    if revision.supports .lexerActions then
      return { net with lexerActions := ← counted lexerAction }
    else return net.tabulateActions

/-! ## Whole streams -/

/-- What a stream holds up to its transitions: the states, rules and modes, and the transitions
with their source states. -/
structure Written where
  revision : Revision
  network : Network
  edges : List (StateId × Transition)

/-- The network with its written transitions, and with the transitions and the cross-links that
follow from them. -/
def Written.linked (w : Written) : Except LoadError Network := do
  let net ← (w.network.addTransitions w.edges).addReturnEdges
  net.linkBlocksAndLoops

/-- The stream up to its transitions. -/
def written : Decoder Written := do
  version
  let revision ← revision
  let net ← header
  let net ← states revision net
  let net ← rules net
  let network ← modes net
  let sets ← counted intervalSet
  let edges ← counted (edge network sets)
  return { revision, network, edges }

/-- The network that a stream holds. -/
def network : Decoder Network := do
  let w ← written
  let net ← ofResult w.linked
  let net ← decisions net
  lexerActions w.revision net

end Decoder

end Stream

end TransitionNetwork
