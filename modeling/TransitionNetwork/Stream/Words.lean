import TransitionNetwork.Load
import TransitionNetwork.Network.Words
import TransitionNetwork.Stream.Writer

/-!
# Loading and writing in 32-bit words

A load, and the writing of what was loaded, as they run on 32-bit words. Every unit that is read is
decoded in words, and every step that indexes storage, computes a number or gives a state its number
is taken in words. The steps between them look values up, and find out what is missing, so that they
have no fault.
-/

namespace TransitionNetwork

namespace Stream

/-- The value of a unit that is not the first, a word after the subtraction. -/
def decodeUnitInWords (unit : UInt16) : Option Int :=
  if unit.toNat ≤ 1 then some (-1) else Word.check ((unit.toNat : Int) - 2)

/-- A computation that reads units and may fail, and that may have a fault, `none`. -/
abbrev WordDecoder := ExceptT LoadError (StateT Cursor Option)

namespace WordDecoder

/-- The result from a place in a stream, and the place where it stops. -/
def runFrom {α : Type} (d : WordDecoder α) (cursor : Cursor) :
    Option (Except LoadError α × Cursor) := d.run.run cursor

/-- What a decoder does, if every unit that it reads can be decoded in words. -/
def ofDecoder {α : Type} (d : Decoder α) : WordDecoder α := ExceptT.mk fun cursor =>
  let (result, next) := (d.run cursor).run
  let read := cursor.rest.take (next.position - cursor.position)
  if read.all fun unit => (decodeUnitInWords unit).isSome then some (result, next) else none

/-- A computation that reads nothing. -/
def ofChecked {α : Type} (c : Checked α) : WordDecoder α := ExceptT.mk fun cursor =>
  c.run.map (·, cursor)

open Decoder

/-! ## Sections -/

/-- The entry of a slot. The number of a state is a word. -/
def slotInWords (index : Nat) : WordDecoder SlotEntry := do
  let code ← ofDecoder int
  if code = StateType.holeCode then return ⟨none, none⟩
  match StateType.ofCode? code with
  | none => throw (.invalidStateType code index)
  | some type =>
    let rule := optionalIndex (← ofDecoder int)
    let number ← ofChecked (ExceptT.lift (Word.checkIndex index))
    let link ← if type.hasLink then ofDecoder (some <$> int) else pure none
    return ⟨some { State.new (.ofType type) rule with number }, link⟩

/-- What is read of the states behind the entries of the slots. -/
def statesBehind (revision : Revision) (net : Network) (entries : List SlotEntry) :
    Decoder Network := do
  let net := { net with slots := (entries.map SlotEntry.state).toArray }
  let net ← ofResult (net.linkNumbers .withLoopBack (links StateKind.isLoopEnd entries))
  let net ← ofResult (net.linkNumbers .withBlockStop (links (!StateKind.isLoopEnd ·) entries))
  let nonGreedy ← counted (stateAs net .decision)
  let net := nonGreedy.foldl
    (fun net id => net.modifyState id fun s => { s with nonGreedy := true }) net
  if revision.supports .precedence then
    let precedence ← counted (stateAs net .ruleStart)
    return precedence.foldl
      (fun net id => net.modifyState id (State.mapKind .withPrecedence)) net
  else return net

/-- The section of states begins with the number of slots and the slots. -/
theorem states_eq (revision : Revision) (net : Network) :
    states revision net = count >>= fun n => repeated n slot >>= statesBehind revision net := rfl

/-- The states. -/
def statesInWords (revision : Revision) (net : Network) : WordDecoder Network := do
  let entries ← (List.range (← ofDecoder count)).mapM slotInWords
  ofDecoder (statesBehind revision net entries)

/-- The rules, which are the indices of their tables. -/
def rulesInWords (net : Network) : WordDecoder Network := do
  let entries ← ofDecoder (counted (ruleEntry net))
  let net := { net with
    ruleStarts := entries.map Prod.fst
    ruleTokenTypes := entries.filterMap Prod.snd }
  ofChecked net.linkRuleStopsInWords

/-- A set, to which its intervals are added in order. -/
def intervalSetInWords : WordDecoder IntervalSet := do
  let size ← ofDecoder count
  let eof ← ofDecoder int
  let intervals ← ofDecoder (repeated size fun _ => interval)
  let intervals := if eof ≠ 0 then ⟨Token.eof, Token.eof⟩ :: intervals else intervals
  ofChecked (ExceptT.lift (IntervalSet.ofIntervalsInBounds intervals))

/-- The sets. -/
def setsInWords : WordDecoder (List IntervalSet) := do
  let size ← ofDecoder count
  (List.range size).mapM fun _ => intervalSetInWords

/-! ## Whole streams -/

/-- The stream behind its version, up to its transitions. -/
def writtenBehindVersionInWords : WordDecoder Written := do
  let revision ← ofDecoder revision
  let net ← ofDecoder header
  let net ← statesInWords revision net
  let net ← rulesInWords net
  let network ← ofDecoder (modes net)
  let sets ← setsInWords
  let edges ← ofDecoder (counted (edge network sets))
  return { revision, network, edges }

/-- The stream up to its transitions. -/
def writtenInWords : WordDecoder Written := do
  ofDecoder version
  writtenBehindVersionInWords

/-- The network that a stream holds. -/
def networkInWords : WordDecoder Network := do
  let w ← writtenInWords
  let net ← ofChecked (Checked.ofResult w.linked)
  let net ← ofDecoder (decisions net)
  ofDecoder (lexerActions w.revision net)

end WordDecoder

/-! ## Writing -/

/-- The values of a set. The flag of the set is found by halving, and an interval that is left to
the flag is taken off the number of the intervals. -/
def setValuesInWords (s : IntervalSet) : Option (List Int) := do
  let eof := s.search Token.eof
  let left := eof && s.intervals.head?.any fun i => decide (i.stop = Token.eof)
  let count ← Word.subtract s.intervals.length left.toNat
  return natValue count :: (if eof then 1 else 0) :: s.intervals.flatMap intervalValues

/-- The values of the sets. -/
def setSectionInWords (net : Network) : Option (List Int) := do
  let sets := usedSets net
  let values ← sets.mapM setValuesInWords
  return natValue sets.length :: values.flatten

/-- The values of a network in a revision of the format. -/
def valuesInWords (revision : Revision) (net : Network) : Option (List Int) := do
  return formatVersion :: identifierValues revision ++
    [net.grammar.code, net.maxTokenType] ++
    stateSection revision net ++ ruleSection net ++ modeSection net ++ (← setSectionInWords net) ++
    edgeSection net ++ decisionSection net ++ lexerActionSection revision net

end Stream

namespace Network

/-- The result of a load, if the number that an error refers to is a word; otherwise the number
saturates. -/
def reportInWords : Except LoadError Network → Option (Except LoadError Network)
  | .error (.missing what number) => do return .error (.missing what (← Word.check number))
  | result => some result

/-- What follows decoding. -/
def completeInWords (options : LoadOptions) (net : Network) : Checked Network := do
  let net := net.markPrecedenceDecisions
  Checked.ofResult (net.verifyIf options.verify)
  if options.bypass ∧ net.grammar = .parser then
    let net ← net.addBypassesInWords
    Checked.ofResult (net.verifyIf options.verify)
    return net
  else return net

/-- The decoder of whole networks under given options. -/
def loaderInWords (options : LoadOptions) : Stream.WordDecoder Network := do
  let net ← Stream.WordDecoder.networkInWords
  Stream.WordDecoder.ofChecked (net.completeInWords options)

/-- Load the network that a list of units holds, or find a fault. -/
def loadInWords (options : LoadOptions) (units : List UInt16) :
    Option (Except LoadError Network) := do
  let (result, _) ← (loaderInWords options).runFrom (Stream.Cursor.start units)
  reportInWords result

/-- The units of a network in the newest revision of the format, or a fault. -/
def serializeInWords (net : Network) : Option (List UInt16) :=
  (Stream.valuesInWords .newest net).map Stream.encode

end Network

end TransitionNetwork
