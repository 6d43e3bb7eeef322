import Mathlib.Data.List.GetD
import Mathlib.Data.List.Range
import TransitionNetwork.Stream.Decoder
import TransitionNetwork.Stream.Writer

/-!
# What decoders read and what they yield

Two properties of decoders compose along their structure. A decoder *reads* a list of values as
some result if it gives that result on the units of the values, whatever follows them, and stops
right behind them. A decoder *yields* only results with a property if the property holds of every
result that it gives inside a stream. The first property says that nothing written is missed, the
second that nothing else is made up.
-/

namespace TransitionNetwork

namespace Stream

namespace Decoder

variable {α β : Type}

/-- The result of a decoder from a place in a stream, and the place where it stops. -/
def runFrom (d : Decoder α) (cursor : Cursor) : Except LoadError α × Cursor := (d.run cursor).run

/-- A stream is decoded from its start. -/
theorem runOn_eq_runFrom (d : Decoder α) (units : List UInt16) :
    d.runOn units = d.runFrom (Cursor.start units) := rfl

/-- A result alone leaves the decoder where it is. -/
theorem runFrom_pure (a : α) (cursor : Cursor) :
    (pure a : Decoder α).runFrom cursor = (.ok a, cursor) := rfl

/-- A computed result leaves the decoder where it is. -/
theorem runFrom_ofResult (result : Except LoadError α) (cursor : Cursor) :
    (ofResult result).runFrom cursor = (result, cursor) := rfl

/-- An error alone leaves the decoder where it is. -/
theorem runFrom_throw (e : LoadError) (cursor : Cursor) :
    (throw e : Decoder α).runFrom cursor = (.error e, cursor) := rfl

/-- A sequence goes on from where its first part stopped, unless that part failed. -/
theorem runFrom_bind (d : Decoder α) (f : α → Decoder β) (cursor : Cursor) :
    (d >>= f).runFrom cursor =
      match d.runFrom cursor with
      | (.ok a, next) => (f a).runFrom next
      | (.error e, next) => (.error e, next) := by
  change ((d.run >>= ExceptT.bindCont f) cursor).run = _
  rcases hd : d.runFrom cursor with ⟨_ | a, next⟩
  · change (StateT.bind d.run (ExceptT.bindCont f) cursor).run = _
    rw [StateT.bind]
    change d.run cursor = _ at hd
    rw [hd]
    rfl
  · change (StateT.bind d.run (ExceptT.bindCont f) cursor).run = _
    rw [StateT.bind]
    change d.run cursor = _ at hd
    rw [hd]
    rfl

/-- A sequence succeeds through a success of its first part. -/
theorem runFrom_bind_eq_ok {d : Decoder α} {f : α → Decoder β} {cursor last : Cursor} {b : β}
    (h : (d >>= f).runFrom cursor = (.ok b, last)) :
    ∃ a next, d.runFrom cursor = (.ok a, next) ∧ (f a).runFrom next = (.ok b, last) := by
  rw [runFrom_bind] at h
  split at h
  next a next hd => exact ⟨a, next, hd, h⟩
  next => simp at h

end Decoder

/-! ## Reading back -/

/-- The values that a unit behind the first one can hold. -/
def IsValue (value : Int) : Prop := -1 ≤ value ∧ value ≤ 65533

instance : DecidablePred IsValue := fun _ => inferInstanceAs (Decidable (_ ∧ _))

/-- What is decoded from a unit behind the first one is a value of a unit. -/
theorem isValue_decodeUnit (unit : UInt16) : IsValue (decodeUnit unit) := by
  have hbound := unit.toNat_lt
  rw [IsValue, decodeUnit]
  split <;> omega

/-- The decoder gives the result on the units of the values, whatever follows them, and stops
right behind them. -/
def Reads {α : Type} (d : Decoder α) (values : List Int) (a : α) : Prop :=
  ∀ (rest : List UInt16) (position : Nat), 0 < position →
    d.runFrom ⟨values.map encodeUnit ++ rest, position⟩ =
      (.ok a, ⟨rest, position + values.length⟩)

namespace Reads

variable {α β : Type}

/-- A result alone is read from no values. -/
theorem pure (a : α) : Reads (pure a) [] a := fun _ _ _ => rfl

/-- A computed result is read from no values. -/
theorem ofResult {result : Except LoadError α} {a : α} (h : result = .ok a) :
    Reads (Decoder.ofResult result) [] a := fun _ _ _ => by
  rw [Decoder.runFrom_ofResult, h]
  rfl

/-- Two decoders read the values of the first and then those of the second. -/
theorem bind {d : Decoder α} {f : α → Decoder β} {values values' : List Int} {a : α} {b : β}
    (hd : Reads d values a) (hf : Reads (f a) values' b) :
    Reads (d >>= f) (values ++ values') b := by
  intro rest position hposition
  rw [Decoder.runFrom_bind, List.map_append, List.append_assoc, hd _ position hposition]
  change (f a).runFrom _ = _
  rw [hf rest _ (by omega), List.length_append, Nat.add_assoc]

/-- A first part that reads nothing adds no values. -/
theorem bind_nil {d : Decoder α} {f : α → Decoder β} {values : List Int} {a : α} {b : β}
    (hd : Reads d [] a) (hf : Reads (f a) values b) : Reads (d >>= f) values b := hd.bind hf

/-- A last part that reads nothing adds no values. -/
theorem bind_end {d : Decoder α} {f : α → Decoder β} {values : List Int} {a : α} {b : β}
    (hd : Reads d values a) (hf : Reads (f a) [] b) : Reads (d >>= f) values b := by
  rw [← List.append_nil values]
  exact hd.bind hf

/-- A changed result is read from the same values. -/
theorem map {d : Decoder α} {values : List Int} {a : α} (f : α → β) (hd : Reads d values a) :
    Reads (f <$> d) values (f a) := by
  rw [map_eq_pure_bind]
  exact hd.bind_end (pure (f a))

/-- Any unit inside a stream is read as what it decodes to. -/
theorem int_of_decode {value found : Int} (h : decodeUnit (encodeUnit value) = found) :
    Reads Decoder.int [value] found := by
  intro rest position hposition
  change (Decoder.int.run _).run = _
  have hnot : position ≠ 0 := by omega
  simp only [Decoder.int, Decoder.unit, List.map_cons, List.map_nil, List.cons_append,
    List.nil_append, List.length_cons, List.length_nil]
  change ((Except.ok (if position = 0 then _ else _), _) : Except LoadError Int × Cursor) = _
  rw [if_neg hnot, h]

/-- A value is read as it was written. -/
theorem int {value : Int} (h : IsValue value) : Reads Decoder.int [value] value :=
  int_of_decode (decodeUnit_encodeUnit value h.1 h.2)

/-- The absent value is read as `-1`. -/
theorem int_absent : Reads Decoder.int [absent] (-1) := int_of_decode (by decide)

/-- A count is read as it was written. -/
theorem count {n : Nat} (h : IsValue n) : Reads Decoder.count [natValue n] n := by
  have hint : Reads Decoder.int [natValue n] n := int h
  apply hint.bind_end
  rw [if_neg (by omega), Int.toNat_natCast]
  exact pure n

/-- As many items as a list has entries, each at its place, read the values of the entries. -/
theorem repeated {items : List α} {d : Nat → Decoder β} {values : α → List Int} {f : α → β}
    (h : ∀ k a, items[k]? = some a → Reads (d k) (values a) (f a)) :
    Reads (Decoder.repeated items.length d) (items.flatMap values) (items.map f) := by
  suffices ∀ start, (∀ k a, items[k]? = some a → Reads (d (start + k)) (values a) (f a)) →
      Reads ((List.range' start items.length).mapM d) (items.flatMap values) (items.map f) by
    rw [Decoder.repeated, List.range_eq_range']
    exact this 0 fun k a hk => by rw [Nat.zero_add]; exact h k a hk
  clear h
  induction items with
  | nil => exact fun _ _ => pure []
  | cons a rest ih =>
    intro start h
    rw [List.length_cons, List.range'_succ, List.mapM_cons, List.flatMap_cons, List.map_cons]
    refine (h 0 a rfl).bind ((ih (start + 1) fun k b hk => ?_).bind_end (pure _))
    rw [Nat.add_assoc, Nat.add_comm 1 k]
    exact h (k + 1) b (by rwa [List.getElem?_cons_succ])

/-- A count followed by that many items reads the number of the entries and their values. -/
theorem counted {items : List α} {d : Decoder β} {values : α → List Int} {f : α → β}
    (hlength : IsValue items.length) (h : ∀ a ∈ items, Reads d (values a) (f a)) :
    Reads (Decoder.counted d) (natValue items.length :: items.flatMap values) (items.map f) := by
  rw [Decoder.counted, ← List.singleton_append]
  exact (count hlength).bind (repeated fun _ a hk => h a (List.mem_of_getElem? hk))

end Reads

/-! ## Yields -/

/-- Every result that the decoder gives inside a stream has a property. -/
def Yields {α : Type} (d : Decoder α) (property : α → Prop) : Prop :=
  ∀ (cursor last : Cursor) (a : α), 0 < cursor.position → d.runFrom cursor = (.ok a, last) →
    0 < last.position ∧ property a

namespace Yields

variable {α β : Type}

/-- A result alone yields what holds of it. -/
theorem pure {P : α → Prop} {a : α} (h : P a) : Yields (pure a) P := by
  intro cursor last b hposition hb
  rw [Decoder.runFrom_pure] at hb
  cases hb
  exact ⟨hposition, h⟩

/-- An error alone yields anything. -/
theorem throw (e : LoadError) (P : α → Prop) : Yields (throw e) P := by
  intro cursor last b _ hb
  rw [Decoder.runFrom_throw] at hb
  cases hb

/-- A computed result yields what holds of every success. -/
theorem ofResult {result : Except LoadError α} {P : α → Prop}
    (h : ∀ a, result = .ok a → P a) : Yields (Decoder.ofResult result) P := by
  intro cursor last a hposition ha
  rw [Decoder.runFrom_ofResult] at ha
  cases ha
  exact ⟨hposition, h a rfl⟩

/-- Two decoders yield what the second does on every result that the first yields. -/
theorem bind {d : Decoder α} {f : α → Decoder β} {P : α → Prop} {Q : β → Prop}
    (hd : Yields d P) (hf : ∀ a, P a → Yields (f a) Q) :
    Yields (d >>= f) Q := by
  intro cursor last b hposition hb
  obtain ⟨a, next, hrun, hrest⟩ := Decoder.runFrom_bind_eq_ok hb
  obtain ⟨hnext, ha⟩ := hd cursor next a hposition hrun
  exact hf a ha next last b hnext hrest

/-- What a decoder yields can be weakened. -/
theorem mono {d : Decoder α} {P Q : α → Prop} (hd : Yields d P)
    (h : ∀ a, P a → Q a) : Yields d Q := fun cursor last a hposition ha =>
  (hd cursor last a hposition ha).imp_right (h a)

/-- A decoder that yields anything at all. -/
theorem any {d : Decoder α} {P : α → Prop} (hd : Yields d P) : Yields d fun _ => True :=
  hd.mono fun _ _ => trivial

/-- A changed result yields what holds of it after the change. -/
theorem map {d : Decoder α} {P : β → Prop} (f : α → β)
    (hd : Yields d fun a => P (f a)) : Yields (f <$> d) P := by
  rw [map_eq_pure_bind]
  exact hd.bind fun _ ha => pure ha

/-- Reading a unit stays inside the stream. -/
theorem unit : Yields Decoder.unit fun _ => True := by
  intro cursor last a _ ha
  obtain ⟨_ | ⟨head, rest⟩, position⟩ := cursor
  · cases ha
  · change ((Except.ok head, Cursor.mk rest (position + 1)) : Except LoadError UInt16 × Cursor) =
      _ at ha
    cases ha
    exact ⟨Nat.succ_pos position, trivial⟩

/-- Every value inside a stream is one that a unit can hold. -/
theorem int : Yields Decoder.int IsValue := by
  intro cursor last a hposition ha
  obtain ⟨_ | ⟨head, rest⟩, position⟩ := cursor
  · cases ha
  · change ((Except.ok (if position = 0 then _ else _), Cursor.mk rest (position + 1)) :
      Except LoadError Int × Cursor) = _ at ha
    rw [if_neg (Nat.pos_iff_ne_zero.mp hposition)] at ha
    cases ha
    exact ⟨Nat.succ_pos position, isValue_decodeUnit head⟩

/-- A count that was read is a value of a unit. -/
theorem count : Yields Decoder.count fun n => IsValue n := by
  apply int.bind
  intro value hvalue
  split
  · exact (throw _ fun _ => False).bind fun _ h => h.elim
  · apply pure
    rw [Int.toNat_of_nonneg (by omega)]
    exact hvalue

/-- Behind the results of a list of decoders the cursor is inside the stream. -/
theorem mapM (items : List β) {d : β → Decoder α} (h : ∀ b, Yields (d b) fun _ => True) :
    Yields (items.mapM d) fun _ => True := by
  induction items with
  | nil => exact pure trivial
  | cons b rest ih =>
    rw [List.mapM_cons]
    exact (h b).bind fun _ _ => ih.bind fun _ _ => pure trivial

/-- Repeated items give as many results, each with the property of its place. -/
theorem repeated {n : Nat} {d : Nat → Decoder α} {P : Nat → α → Prop}
    (h : ∀ k, Yields (d k) (P k)) :
    Yields (Decoder.repeated n d) fun items =>
      items.length = n ∧ ∀ k a, items[k]? = some a → P k a := by
  suffices ∀ start, Yields ((List.range' start n).mapM d) fun items =>
      items.length = n ∧ ∀ k a, items[k]? = some a → P (start + k) a by
    rw [Decoder.repeated, List.range_eq_range']
    simpa only [Nat.zero_add] using this 0
  induction n with
  | zero => exact fun _ => pure ⟨rfl, fun k a hk => by simp at hk⟩
  | succ n ih =>
    intro start
    rw [List.range'_succ, List.mapM_cons]
    refine (h start).bind fun a ha => (ih (start + 1)).bind fun items hitems => pure ?_
    refine ⟨by rw [List.length_cons, hitems.1], fun k b hk => ?_⟩
    cases k with
    | zero =>
      rw [List.getElem?_cons_zero, Option.some.injEq] at hk
      exact hk ▸ ha
    | succ k =>
      rw [List.getElem?_cons_succ] at hk
      have hb := hitems.2 k b hk
      rwa [Nat.add_assoc, Nat.add_comm 1 k] at hb

/-- A counted list has a length that a unit can hold, and every item has the property. -/
theorem counted {d : Decoder α} {P : α → Prop} (h : Yields d P) :
    Yields (Decoder.counted d) fun items =>
      IsValue items.length ∧ ∀ a ∈ items, P a := by
  refine count.bind fun n hn => (repeated fun _ => h).mono fun items hitems => ?_
  refine ⟨hitems.1.symm ▸ hn, fun a ha => ?_⟩
  obtain ⟨k, hk⟩ := List.getElem?_of_mem ha
  exact hitems.2 k a hk

end Yields

end Stream

end TransitionNetwork
