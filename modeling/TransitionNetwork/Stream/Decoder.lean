import TransitionNetwork.LoadError
import TransitionNetwork.Stream.Unit

/-!
# Decoders

A decoder reads units from the front of a stream and gives a value or an error. Either way it
also gives the cursor behind the last unit that it read, so that what a result depends on can be
told from the rest of the stream.
-/

namespace TransitionNetwork

namespace Stream

/-- A place in a stream: the units ahead and the number of units behind. -/
structure Cursor where
  rest : List UInt16
  position : Nat
  deriving DecidableEq

/-- The place before the first unit. -/
def Cursor.start (units : List UInt16) : Cursor := ⟨units, 0⟩

/-- A computation that reads units and may fail. -/
abbrev Decoder := ExceptT LoadError (StateM Cursor)

namespace Decoder

/-- The result of a decoder on a whole stream, and the place where it stopped. -/
def runOn {α : Type} (d : Decoder α) (units : List UInt16) : Except LoadError α × Cursor :=
  (d.run (Cursor.start units)).run

/-- The next unit as it stands. -/
def unit : Decoder UInt16 := do
  let cursor ← get
  match cursor.rest with
  | [] => throw (.unexpectedEnd cursor.position)
  | unit :: rest =>
    set ({ rest, position := cursor.position + 1 } : Cursor)
    return unit

/-- The next value; the first unit of a stream is its own value. -/
def int : Decoder Int := do
  let cursor ← get
  let unit ← unit
  return if cursor.position = 0 then (unit.toNat : Int) else decodeUnit unit

/-- A value that counts something. -/
def count : Decoder Nat := do
  let value ← int
  if value < 0 then throw (.missing .count value)
  return value.toNat

/-- A result that reads nothing. -/
def ofResult {α : Type} (result : Except LoadError α) : Decoder α := ExceptT.mk (pure result)

/-- The next unit as a part of an identifier, without the offset. -/
def identifierPart : Decoder Nat := do
  let unit ← unit
  return (unit - 2).toNat

/-- As many values as asked for, each read with its place in the list. -/
def repeated {α : Type} (count : Nat) (item : Nat → Decoder α) : Decoder (List α) :=
  (List.range count).mapM item

/-- A count followed by that many values. -/
def counted {α : Type} (item : Decoder α) : Decoder (List α) := do
  repeated (← count) fun _ => item

/-- The identifier of the stream, as text. -/
def identifier : Decoder String := do
  let parts ← repeated 8 fun _ => identifierPart
  return Identifier.text (Identifier.ofParts parts)

end Decoder

end Stream

end TransitionNetwork
