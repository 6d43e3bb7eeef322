import TransitionNetwork.Stream.Decoder

/-!
# The unit codec in machine words

Values and identifiers as they are written and read in machine words. A value is a signed word: its
offset wraps in 32 bits, and its unit is the low half of the sum. An identifier has 128 bits. It is
written part by part, read in halves of 16, 32 and 64 bits with the low half first, and shown as
five fields of its bits. The number of a text is accumulated in 128 bits.
-/

namespace TransitionNetwork

namespace Word

/-- The unit that a signed word holds; `none` is a word below zero or above every unit. -/
def toUnit? (word : Int32) : Option UInt16 :=
  if 0 ≤ word.toInt ∧ word.toInt ≤ 65535 then some (UInt16.ofInt word.toInt) else none

/-- The signed word that holds a number; `none` is a number above every word. -/
def ofNumber? (n : Nat) : Option Int32 := if n ≤ 2147483647 then some (Int32.ofNat n) else none

end Word

namespace Identifier

/-- As many bits of an identifier as `width`, from the bit `shift` on. -/
def field (shift width : Nat) (value : BitVec 128) : BitVec 128 :=
  value >>> shift &&& BitVec.ofNat 128 ((1 <<< width) - 1)

/-- The upper-case hexadecimal digits of a number, behind zeros up to a width. -/
def padded (width n : Nat) : List Char := ((Nat.toDigits 16 n).map Char.toUpper).leftpad width '0'

/-- The number of digits and the first bit of each field of the text. -/
def fields : List (Nat × Nat) := [(8, 96), (4, 80), (4, 64), (4, 48), (12, 0)]

/-- The text of an identifier, field by field. -/
def textInWords (value : BitVec 128) : String :=
  String.ofList <| List.intercalate ['-'] <|
    fields.map fun (digits, shift) => padded digits (field shift (4 * digits) value).toNat

/-- The digits of a text, accumulated in 128 bits. -/
def ofDigitsInWords? (cs : List Char) : Option (BitVec 128) :=
  cs.foldlM (fun n c => (hexValue? c).map fun digit => n * 16 + BitVec.ofNat 128 digit) 0

/-- The identifier of a text, of which the bytes are counted behind the removal of the hyphens. -/
def parseInWords? (s : String) : Option (BitVec 128) :=
  let hex := String.ofList (s.toList.filter (· ≠ '-'))
  if hex.utf8ByteSize = 32 then ofDigitsInWords? (withoutPlus hex.toList) else none

/-- The values of the parts of an identifier, the least significant first. -/
def valuesInWords (value : BitVec 128) : List Int32 :=
  (List.range' 0 8 16).map fun shift => (Word.ofNumber? (field shift 16 value).toNat).getD 0

/-- Two parts of 16 bits as one word. -/
def joinParts (low high : UInt16) : UInt32 := low.toUInt32 ||| high.toUInt32 <<< 16

/-- Two words of 32 bits as one. -/
def joinWords (low high : UInt32) : UInt64 := low.toUInt64 ||| high.toUInt64 <<< 32

/-- The identifier with the given halves. -/
def joinHalves (least most : UInt64) : BitVec 128 :=
  most.toBitVec.setWidth 128 <<< 64 ||| least.toBitVec.setWidth 128

end Identifier

namespace Stream

/-- The unit of a value at a place in the list of values. -/
def encodeUnitInWords (index : Nat) (value : Int32) : UInt16 :=
  let unit := if index = 0 then value else value + 2
  (Word.toUnit? (unit &&& 0xFFFF)).getD 65535

/-- The units of a list of values. -/
def encodeInWords (values : List Int32) : List UInt16 := values.mapIdx encodeUnitInWords

namespace Decoder

/-- The next unit as a part of an identifier; the difference wraps. -/
def identifierPartInWords : Decoder UInt16 := do
  let unit ← unit
  return unit - 2

/-- The next two parts, the low one first. -/
def identifierWord : Decoder UInt32 := do
  let low ← identifierPartInWords
  let high ← identifierPartInWords
  return Identifier.joinParts low high

/-- The next half of the identifier, its low word first. -/
def identifierHalf : Decoder UInt64 := do
  let low ← identifierWord
  let high ← identifierWord
  return Identifier.joinWords low high

/-- The identifier of the stream, as text; the least significant half comes first. -/
def identifierInWords : Decoder String := do
  let least ← identifierHalf
  let most ← identifierHalf
  return Identifier.textInWords (Identifier.joinHalves least most)

end Decoder

end Stream

end TransitionNetwork
