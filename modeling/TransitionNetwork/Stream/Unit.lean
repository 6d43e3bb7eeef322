/-!
# Stream units

A serialized network is a list of 16-bit units. The first unit holds its value as it is; every
later one holds its value plus two, modulo 2^16. Read back, the two units below two both give
`-1`, so that `-1` also stands for the absent value, which is written as `0xFFFF`.
-/

namespace TransitionNetwork

namespace Stream

/-- The value that is written where a reference is absent. -/
def absent : Int := 0xFFFF

/-- The unit of a value that is not the first. -/
def encodeUnit (value : Int) : UInt16 := UInt16.ofInt (value + 2)

/-- The value of a unit that is not the first. -/
def decodeUnit (unit : UInt16) : Int := if unit.toNat ≤ 1 then -1 else (unit.toNat : Int) - 2

/-- The units of a list of values. -/
def encode : List Int → List UInt16
  | [] => []
  | first :: rest => UInt16.ofInt first :: rest.map encodeUnit

/-- A value between `-1` and `65533` is read back as it was written. -/
theorem decodeUnit_encodeUnit (value : Int) (least : -1 ≤ value) (greatest : value ≤ 65533) :
    decodeUnit (encodeUnit value) = value := by
  have written : (encodeUnit value).toNat = (value + 2).toNat := by
    simp only [encodeUnit, UInt16.ofInt, UInt16.toNat_ofNat']
    omega
  simp only [decodeUnit, written]
  split <;> omega

end Stream

end TransitionNetwork
