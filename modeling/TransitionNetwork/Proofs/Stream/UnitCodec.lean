import TransitionNetwork.Proofs.Stream.Identifiers
import TransitionNetwork.Proofs.Stream.Reading

/-!
# The unit codec

Values are read back one by one, and then the end of the stream is found, exactly if the first of
them is a unit as it stands and the others lie between `-1` and `65533`. The parts of an identifier
need all 16 bits of a unit. They are read without that bound, since their offset wraps both ways, so
every identifier is read back, and no two of them as the same text.
-/

namespace TransitionNetwork

namespace Stream

open Decoder

/-! ## Single units -/

/-- Behind the first unit just the values between `-1` and `65533` are read back. -/
theorem decodeUnit_encodeUnit_iff {value : Int} :
    decodeUnit (encodeUnit value) = value ↔ IsValue value :=
  ⟨fun h => h ▸ isValue_decodeUnit _, fun h => decodeUnit_encodeUnit value h.1 h.2⟩

/-- The unit of a value holds it up to a multiple of 65536. -/
theorem toNat_ofInt (value : Int) : ((UInt16.ofInt value).toNat : Int) = value % 65536 := by
  simp only [UInt16.ofInt, UInt16.toNat_ofNat']
  omega

/-- Each value is encoded in one unit. -/
theorem length_encode (values : List Int) : (encode values).length = values.length := by
  cases values with
  | nil => rfl
  | cons first rest => rw [encode, List.length_cons, List.length_map, List.length_cons]

/-- Values that units can hold: the first as it stands, the others with their offset. -/
def FitUnits : List Int → Prop
  | [] => True
  | first :: rest => (0 ≤ first ∧ first ≤ 65535) ∧ ∀ value ∈ rest, IsValue value

/-- The values of the units from a place in a stream on; only the first unit has no offset. -/
def decodeFrom (position : Nat) : List UInt16 → List Int
  | [] => []
  | unit :: rest =>
    (if position = 0 then (unit.toNat : Int) else decodeUnit unit) :: decodeFrom (position + 1) rest

/-- Behind the first unit all units are decoded with their offset. -/
theorem decodeFrom_of_pos {position : Nat} (h : 0 < position) (units : List UInt16) :
    decodeFrom position units = units.map decodeUnit := by
  induction units generalizing position with
  | nil => rfl
  | cons unit rest ih =>
    rw [decodeFrom, if_neg (Nat.pos_iff_ne_zero.mp h), ih (Nat.succ_pos position), List.map_cons]

/-- Each unit is decoded to one value. -/
theorem length_decodeFrom (position : Nat) (units : List UInt16) :
    (decodeFrom position units).length = units.length := by
  induction units generalizing position with
  | nil => rfl
  | cons unit rest ih => rw [decodeFrom, List.length_cons, ih, List.length_cons]

/-- Decoding gives back exactly the values that units can hold. -/
theorem decodeFrom_encode_iff (values : List Int) :
    decodeFrom 0 (encode values) = values ↔ FitUnits values := by
  cases values with
  | nil => exact iff_of_true rfl trivial
  | cons first rest =>
    have hfirst : ((UInt16.ofInt first).toNat : Int) = first ↔ 0 ≤ first ∧ first ≤ 65535 := by
      rw [toNat_ofInt]
      omega
    have hrest : (rest.map encodeUnit).map decodeUnit = rest ↔ ∀ value ∈ rest, IsValue value :=
      calc
        _ ↔ rest.map (decodeUnit ∘ encodeUnit) = rest.map id := by rw [List.map_map, List.map_id]
        _ ↔ ∀ value ∈ rest, decodeUnit (encodeUnit value) = value := List.map_inj_left
        _ ↔ _ := forall₂_congr fun _ _ => decodeUnit_encodeUnit_iff
    rw [encode, decodeFrom, if_pos rfl, decodeFrom_of_pos Nat.one_pos, List.cons.injEq, hfirst,
      hrest, FitUnits]

/-! ## Repeated reading -/

/-- No value is read at the end. -/
theorem runFrom_int_nil (position : Nat) :
    int.runFrom ⟨[], position⟩ = (.error (.unexpectedEnd position), ⟨[], position⟩) := rfl

/-- A value is read from one unit, the first one without offset. -/
theorem runFrom_int_cons (unit : UInt16) (rest : List UInt16) (position : Nat) :
    int.runFrom ⟨unit :: rest, position⟩ =
      (.ok (if position = 0 then (unit.toNat : Int) else decodeUnit unit),
        ⟨rest, position + 1⟩) := rfl

/-- One value more is read in front of the others. -/
theorem repeated_int_succ (n : Nat) :
    (repeated (n + 1) fun _ => int) =
      int >>= fun value => (repeated n fun _ => int) >>= fun values => pure (value :: values) := by
  rw [repeated, List.range_succ_eq_map, List.mapM_cons, List.mapM_map]
  rfl

/-- Repeated reading gives the values of as many units, or finds the end behind the last of them. -/
theorem runFrom_repeated_int (n : Nat) (units : List UInt16) (position : Nat) :
    (repeated n fun _ => int).runFrom ⟨units, position⟩ =
      (if n ≤ units.length then .ok ((decodeFrom position units).take n)
        else .error (.unexpectedEnd (position + units.length)),
        ⟨units.drop n, position + min n units.length⟩) := by
  induction n generalizing units position with
  | zero => rw [Nat.zero_min]; rfl
  | succ n ih =>
    rw [repeated_int_succ, runFrom_bind]
    cases units with
    | nil => rw [runFrom_int_nil]; rfl
    | cons unit rest =>
      rw [runFrom_int_cons]
      change Decoder.runFrom (_ >>= _) _ = _
      have hend : position + 1 + rest.length = position + (rest.length + 1) := by omega
      have hnext : position + 1 + min n rest.length = position + min (n + 1) (rest.length + 1) := by
        omega
      rw [runFrom_bind, ih rest (position + 1), hend, hnext, List.length_cons, decodeFrom,
        List.take_succ_cons, List.drop_succ_cons]
      by_cases hn : n ≤ rest.length
      · rw [if_pos hn, if_pos (Nat.succ_le_succ hn)]
        rfl
      · rw [if_neg hn, if_neg fun h => hn (Nat.le_of_succ_le_succ h)]

/-! ## Identifiers -/

/-- A part of an identifier is read as it was written, also where its unit wraps. -/
theorem reads_identifierPart {part : Nat} (h : part < 65536) :
    Reads identifierPart [natValue part] part := by
  intro rest position _
  have hunit : (encodeUnit (natValue part) - 2).toNat = part := by
    have hwritten := toNat_ofInt (natValue part + 2)
    have hoffset : (2 : UInt16).toNat = 2 := rfl
    rw [UInt16.toNat_sub, hoffset, encodeUnit]
    rw [natValue] at hwritten ⊢
    omega
  change (Except.ok (encodeUnit (natValue part) - 2).toNat, _) = _
  rw [hunit]
  rfl

/-- The parts of a number are read as its text. -/
theorem reads_identifier (value : Nat) :
    Reads identifier ((Identifier.parts value).map natValue) (Identifier.text value) := by
  have hparts := Reads.repeated fun k part hk =>
    reads_identifierPart (Identifier.lt_of_mem_lastParts
      (List.mem_of_getElem? (l := Identifier.parts value) (i := k) hk))
  rw [List.map_id'' fun _ => rfl, ← List.map_eq_flatMap] at hparts
  rw [← Identifier.text_ofParts_parts]
  exact hparts.bind_end (Reads.pure (Identifier.text _))

example : (int >>= fun _ => identifier).runOn (encode (formatVersion :: identifierValues .newest)) =
    (.ok Revision.newest.identifier, ⟨[], 9⟩) := by decide

/-! ## Machine words -/

/-- Values that differ by a multiple of 65536 have the same unit. -/
theorem ofInt_eq_ofInt {value value' : Int} (h : value % 65536 = value' % 65536) :
    UInt16.ofInt value = UInt16.ofInt value' := by
  have hword := congrArg (fun word => UInt16.ofNat word.toNat) h
  exact hword

/-- What wraps in 32 bits leaves the low half as it is. -/
theorem bmod_emod (value : Int) : value.bmod (2 ^ 32) % 65536 = value % 65536 := by
  rw [Int.bmod_def]
  omega

/-- Masking leaves the low half of a word. -/
theorem toInt_and_mask (word : Int32) : (word &&& 0xFFFF).toInt = word.toInt % 65536 := by
  have hmask : (word &&& 0xFFFF).toBitVec.toNat = word.toBitVec.toNat % 65536 := by
    rw [Int32.toBitVec_and, BitVec.toNat_and]
    exact Nat.and_two_pow_sub_one_eq_mod word.toBitVec.toNat 16
  have hlow : 2 * (word &&& 0xFFFF).toBitVec.toNat < 2 ^ 32 := by omega
  rw [Int32.toInt, Int32.toInt, BitVec.toInt_eq_toNat_of_lt hlow, hmask,
    BitVec.toInt_eq_toNat_bmod, bmod_emod, Int.natCast_emod]
  rfl

/-- The unit of a word is its low half. -/
theorem toUnit?_mask (word : Int32) :
    (Word.toUnit? (word &&& 0xFFFF)).getD 65535 = UInt16.ofInt word.toInt := by
  have hmask := toInt_and_mask word
  rw [Word.toUnit?, if_pos (by omega), Option.getD_some, hmask]
  exact ofInt_eq_ofInt (Int.emod_emod_of_dvd _ (dvd_refl _))

/-- Values are encoded in words as they are in integers. -/
theorem encodeInWords_eq (values : List Int32) :
    encodeInWords values = encode (values.map Int32.toInt) := by
  cases values with
  | nil => rfl
  | cons first rest =>
    have hrest : (fun index value => encodeUnitInWords (index + 1) value) =
        fun _ value => encodeUnit value.toInt := by
      funext index value
      have htwo : (2 : Int32).toInt = 2 := rfl
      rw [encodeUnitInWords, if_neg (Nat.succ_ne_zero index), toUnit?_mask, encodeUnit,
        Int32.toInt_add, htwo]
      exact ofInt_eq_ofInt (bmod_emod _)
    have hfirst : encodeUnitInWords 0 first = UInt16.ofInt first.toInt := by
      rw [encodeUnitInWords, if_pos rfl, toUnit?_mask]
    rw [encodeInWords, List.mapIdx_cons, hfirst, hrest, List.map_cons, encode, List.map_map]
    congr 1
    apply List.ext_getElem?
    simp [Function.comp_def]

/-- Read in halves, an identifier is the one that is read part by part. -/
theorem identifierInWords_eq : identifierInWords = identifier := by
  have hplaces : List.range 8 = [0, 1, 2, 3, 4, 5, 6, 7] := rfl
  simp only [identifierInWords, identifierHalf, identifierWord, identifierPartInWords, identifier,
    repeated, hplaces, List.mapM_cons, List.mapM_nil, identifierPart, bind_assoc, pure_bind]
  iterate 8 refine bind_congr fun _ => ?_
  rw [Identifier.textInWords_eq, Identifier.toNat_joined]
  rfl

/-! ## Inversion -/

/-- The identifier of a stream, behind the version that comes first. -/
def identifierBehindVersion : Decoder String := do
  let _ ← int
  identifier

/-- The units of a version and of an identifier behind it. -/
def identifiedUnits (version : UInt16) (value : BitVec 128) : List UInt16 :=
  encode (version.toNat :: (Identifier.parts value.toNat).map natValue)

/-- Whatever the version and whatever follows, an identifier is read as its text. -/
theorem runOn_identifiedUnits (version : UInt16) (value : BitVec 128) (rest : List UInt16) :
    identifierBehindVersion.runOn (identifiedUnits version value ++ rest) =
      (.ok (Identifier.text value.toNat), ⟨rest, 9⟩) := by
  rw [identifiedUnits, encode, List.cons_append, runOn_eq_runFrom, identifierBehindVersion,
    runFrom_bind, Cursor.start, runFrom_int_cons]
  exact reads_identifier value.toNat rest 1 Nat.one_pos

/-- How an identifier goes through a stream: its units in machine words are those of its parts, they
are read as its text and those of no other identifier are, and the text is parsed as it. -/
structure GoesThrough (value : BitVec 128) : Prop where
  written : ∀ version : UInt16,
    encodeInWords (Int32.ofNat version.toNat :: Identifier.valuesInWords value) =
      identifiedUnits version value
  read : ∀ version rest, identifierBehindVersion.runOn (identifiedUnits version value ++ rest) =
    (.ok (Identifier.text value.toNat), ⟨rest, 9⟩)
  alone : ∀ version other rest,
    (identifierBehindVersion.runOn (identifiedUnits version other ++ rest)).1 =
      .ok (Identifier.text value.toNat) ↔ other = value
  shown : Identifier.textInWords value = Identifier.text value.toNat
  parsed : Identifier.parse? (Identifier.text value.toNat) = some value.toNat
  parsedInWords : Identifier.parseInWords? (Identifier.text value.toNat) = some value

/-- Every identifier goes through a stream as described. -/
theorem goesThrough (value : BitVec 128) : GoesThrough value where
  written version := by
    have hversion := version.toNat_lt
    rw [encodeInWords_eq, List.map_cons, Int32.toInt_ofNat_of_lt (by omega),
      Identifier.valuesInWords_eq, identifiedUnits]
  read version rest := runOn_identifiedUnits version value rest
  alone version other rest := by
    rw [runOn_identifiedUnits, Except.ok.injEq]
    exact Identifier.text_inj
  shown := Identifier.textInWords_eq value
  parsed := by rw [Identifier.parse?_text, Nat.mod_eq_of_lt value.isLt]
  parsedInWords := Identifier.parseInWords?_text value

/-- Exactly the values that units can hold are read back: as many of them as are asked for, or the
end of the stream behind the last one. Every identifier goes through a stream. In machine words
values are encoded, and identifiers read, in the same way. -/
theorem codec_inverse :
    (∀ values : List Int, FitUnits values ↔ ∀ n,
      (repeated n fun _ => int).runOn (encode values) =
        (if n ≤ values.length then .ok (values.take n)
          else .error (.unexpectedEnd values.length),
          ⟨(encode values).drop n, min n values.length⟩)) ∧
      (∀ value : BitVec 128, GoesThrough value) ∧
      (∀ values : List Int32, encodeInWords values = encode (values.map Int32.toInt)) ∧
      identifierInWords = identifier := by
  refine ⟨fun values => ⟨fun h n => ?_, fun h => ?_⟩, goesThrough, encodeInWords_eq,
    identifierInWords_eq⟩
  · have hread := runFrom_repeated_int n (encode values) 0
    rw [(decodeFrom_encode_iff values).mpr h, length_encode, Nat.zero_add, Nat.zero_add] at hread
    exact hread
  · -- Asked for all of the values, the reader gives what the units decode to.
    have hall := h values.length
    have hlength : (decodeFrom 0 (encode values)).length = values.length := by
      rw [length_decodeFrom, length_encode]
    rw [runOn_eq_runFrom, Cursor.start, runFrom_repeated_int, length_encode, if_pos le_rfl,
      if_pos le_rfl, List.take_of_length_le hlength.le, List.take_length] at hall
    exact (decodeFrom_encode_iff values).mp (Except.ok.inj (congrArg Prod.fst hall))

end Stream

end TransitionNetwork
