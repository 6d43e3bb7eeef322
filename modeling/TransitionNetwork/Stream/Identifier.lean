/-!
# Format identifiers

A format identifier is a number of 128 bits. Its text is 32 upper-case hexadecimal digits in
groups of 8, 4, 4, 4 and 12; in a stream it is eight units of 16 bits, the least significant
first.
-/

namespace TransitionNetwork

namespace Identifier

/-- The digit for a value below sixteen. -/
def hexDigit (value : Nat) : Char :=
  if value < 10 then Char.ofNat (48 + value) else Char.ofNat (55 + value)

/-- The last `width` hexadecimal digits of a number, most significant first. -/
def hexDigits : Nat → Nat → List Char
  | 0, _ => []
  | width + 1, n => hexDigits width (n / 16) ++ [hexDigit (n % 16)]

/-- The value of a hexadecimal digit of either case. -/
def hexValue? (c : Char) : Option Nat :=
  if '0' ≤ c ∧ c ≤ '9' then some (c.toNat - 48)
  else if 'A' ≤ c ∧ c ≤ 'F' then some (c.toNat - 55)
  else if 'a' ≤ c ∧ c ≤ 'f' then some (c.toNat - 87)
  else none

/-- The widths of the groups of digits. -/
def groups : List Nat := [8, 4, 4, 4, 12]

/-- Cut a list into groups of the given widths. -/
def cut : List Nat → List Char → List (List Char)
  | [], _ => []
  | width :: widths, cs => cs.take width :: cut widths (cs.drop width)

/-- The text of an identifier. -/
def text (value : Nat) : String :=
  String.ofList (List.intercalate ['-'] (cut groups (hexDigits 32 value)))

/-- The number whose hexadecimal digits are given, most significant first. -/
def ofDigits? (cs : List Char) : Option Nat :=
  cs.foldlM (fun n c => (hexValue? c).map (16 * n + ·)) 0

/-- The digits of a number behind the plus sign that may stand in front of them. -/
def withoutPlus : List Char → List Char
  | '+' :: cs => cs
  | cs => cs

/-- The identifier of a text, wherever its hyphens stand; `none` unless the rest are 32
hexadecimal digits, or a plus sign and 31 of them. -/
def parse? (s : String) : Option Nat :=
  let digits := s.toList.filter (· ≠ '-')
  if digits.length = 32 then ofDigits? (withoutPlus digits) else none

/-- The last `count` parts of 16 bits, the least significant first. -/
def lastParts : Nat → Nat → List Nat
  | 0, _ => []
  | count + 1, value => value % 65536 :: lastParts count (value / 65536)

/-- The eight parts of 16 bits, the least significant first. -/
def parts (value : Nat) : List Nat := lastParts 8 value

/-- The identifier with the given parts, the least significant first. -/
def ofParts (parts : List Nat) : Nat := parts.foldr (fun part rest => part + 65536 * rest) 0

end Identifier

end TransitionNetwork
