import Mathlib.Data.List.Pairwise
import TransitionNetwork.IntervalSet.Basic

/-!
# Canonical interval lists

The interval list of a set is canonical if its intervals are not empty, ascend and leave at least
one absent value between neighbours. Adding a range keeps a list canonical and adds exactly the
values of the range. A canonical list is rebuilt as it stands by adding its intervals in order,
so that a set can be written down as its intervals.
-/

namespace TransitionNetwork

namespace IntervalSet

/-- Non-empty intervals in ascending order with a gap between neighbours. -/
structure Canonical (intervals : List Interval) : Prop where
  nonempty : ∀ i ∈ intervals, i.start ≤ i.stop
  apart : intervals.Pairwise fun i j => i.stop + 1 < j.start

/-- No intervals are canonical. -/
theorem Canonical.nil : Canonical [] := ⟨by simp, List.Pairwise.nil⟩

/-- An interval may stand before canonical intervals that begin behind a gap. -/
theorem Canonical.cons {i : Interval} {rest : List Interval} (hi : i.start ≤ i.stop)
    (hgap : ∀ j ∈ rest, i.stop + 1 < j.start) (hrest : Canonical rest) : Canonical (i :: rest) :=
  ⟨List.forall_mem_cons.mpr ⟨hi, hrest.nonempty⟩, List.Pairwise.cons hgap hrest.apart⟩

/-- Canonical intervals are canonical behind the first one. -/
theorem Canonical.tail {i : Interval} {rest : List Interval} (h : Canonical (i :: rest)) :
    Canonical rest :=
  ⟨fun j hj => h.nonempty j (List.mem_cons_of_mem i hj), h.apart.of_cons⟩

/-- The first of canonical intervals holds a value. -/
theorem Canonical.head {i : Interval} {rest : List Interval} (h : Canonical (i :: rest)) :
    i.start ≤ i.stop := h.nonempty i List.mem_cons_self

/-- There is a gap between the first of canonical intervals and each one behind it. -/
theorem Canonical.gap {i : Interval} {rest : List Interval} (h : Canonical (i :: rest)) :
    ∀ j ∈ rest, i.stop + 1 < j.start := fun _ hj => List.rel_of_pairwise_cons h.apart hj

/-! ## Adding a range -/

/-- No interval of an insertion begins before both the range and the intervals there were. -/
theorem le_start_of_mem_insertInterval {least start stop : TokenType} {intervals : List Interval}
    (hstart : least ≤ start) (hleast : ∀ i ∈ intervals, least ≤ i.start) :
    ∀ i ∈ insertInterval start stop intervals, least ≤ i.start := by
  induction intervals generalizing start stop with
  | nil =>
    intro i hi
    rw [insertInterval, List.mem_singleton] at hi
    exact hi ▸ hstart
  | cons j rest ih =>
    have hj := hleast j List.mem_cons_self
    have hrest := fun i hi => hleast i (List.mem_cons_of_mem j hi)
    rw [insertInterval]
    split
    · exact List.forall_mem_cons.mpr ⟨hj, ih hstart hrest⟩
    · split
      · exact ih (by lia) hrest
      · exact List.forall_mem_cons.mpr ⟨hstart, hleast⟩

/-- No interval of an insertion ends behind both the range and the intervals there were. -/
theorem stop_le_of_mem_insertInterval {greatest start stop : TokenType}
    {intervals : List Interval} (hstop : stop ≤ greatest)
    (hgreatest : ∀ i ∈ intervals, i.stop ≤ greatest) :
    ∀ i ∈ insertInterval start stop intervals, i.stop ≤ greatest := by
  induction intervals generalizing start stop with
  | nil =>
    intro i hi
    rw [insertInterval, List.mem_singleton] at hi
    exact hi ▸ hstop
  | cons j rest ih =>
    have hj := hgreatest j List.mem_cons_self
    have hrest := fun i hi => hgreatest i (List.mem_cons_of_mem j hi)
    rw [insertInterval]
    split
    · exact List.forall_mem_cons.mpr ⟨hj, ih hstop hrest⟩
    · split
      · exact ih (by lia) hrest
      · exact List.forall_mem_cons.mpr ⟨hstop, hgreatest⟩

/-- Adding a range to canonical intervals gives canonical intervals. -/
theorem Canonical.insertInterval {start stop : TokenType} {intervals : List Interval}
    (h : Canonical intervals) (hrange : start ≤ stop) :
    Canonical (insertInterval start stop intervals) := by
  induction intervals generalizing start stop with
  | nil => exact Canonical.nil.cons hrange (by simp)
  | cons j rest ih =>
    have hj := h.head
    rw [IntervalSet.insertInterval]
    split
    next hbefore =>
      apply (ih h.tail hrange).cons hj
      intro i hi
      have hleast : j.stop + 2 ≤ i.start := le_start_of_mem_insertInterval (by lia)
        (fun k hk => by have := h.gap k hk; lia) i hi
      lia
    next =>
      split
      next => exact ih h.tail (by lia)
      next hbehind =>
        refine h.cons hrange (List.forall_mem_cons.mpr ⟨by simpa using hbehind, fun i hi => ?_⟩)
        have := h.gap i hi
        lia

/-- A range is added to canonical intervals with exactly its values. -/
theorem any_insertInterval {start stop : TokenType} {intervals : List Interval}
    (h : Canonical intervals) (hrange : start ≤ stop) (value : TokenType) :
    (insertInterval start stop intervals).any (·.contains value) ↔
      start ≤ value ∧ value ≤ stop ∨ intervals.any (·.contains value) := by
  induction intervals generalizing start stop with
  | nil => simp [insertInterval, Interval.contains]
  | cons j rest ih =>
    have hj := h.head
    rw [insertInterval]
    split
    · rw [List.any_cons, List.any_cons, Bool.or_eq_true, Bool.or_eq_true, ih h.tail hrange]
      exact or_left_comm
    · split
      · rw [ih h.tail (by lia), List.any_cons, Bool.or_eq_true, ← or_assoc]
        -- The ranges overlap or touch, so their hull holds no other values.
        apply or_congr_left
        rw [Interval.contains, Bool.and_eq_true, decide_eq_true_eq, decide_eq_true_eq]
        lia
      · rw [List.any_cons, Bool.or_eq_true]
        simp [Interval.contains]

/-! ## Sets -/

/-- Adding a range keeps intervals canonical. -/
theorem Canonical.insertRange {s : IntervalSet} (h : Canonical s.intervals)
    (start stop : TokenType) : Canonical (s.insertRange start stop).intervals := by
  rw [IntervalSet.insertRange]
  split
  · exact h
  next hrange => exact h.insertInterval (by lia)

/-- Adding a range to canonical intervals adds its values and no others. -/
theorem contains_insertRange {s : IntervalSet} (h : Canonical s.intervals)
    (start stop value : TokenType) :
    (s.insertRange start stop).contains value ↔
      start ≤ value ∧ value ≤ stop ∨ s.contains value := by
  rw [IntervalSet.insertRange]
  split
  · constructor
    · exact Or.inr
    · rintro (hvalue | hvalue)
      · lia
      · exact hvalue
  next hrange => exact any_insertInterval h (by lia) value

/-- Adding a value keeps intervals canonical. -/
theorem Canonical.insert {s : IntervalSet} (h : Canonical s.intervals) (value : TokenType) :
    Canonical (s.insert value).intervals := h.insertRange value value

/-- Adding a value to canonical intervals adds no other value. -/
theorem contains_insert {s : IntervalSet} (h : Canonical s.intervals) (value other : TokenType) :
    (s.insert value).contains other ↔ other = value ∨ s.contains other := by
  rw [IntervalSet.insert, contains_insertRange h]
  apply or_congr_left
  lia

/-- Adding values one after the other keeps a set canonical and adds exactly these values. -/
theorem foldl_insert {s : IntervalSet} (h : Canonical s.intervals) (values : List TokenType) :
    Canonical (values.foldl IntervalSet.insert s).intervals ∧
      ∀ value, (values.foldl IntervalSet.insert s).contains value ↔
        value ∈ values ∨ s.contains value := by
  induction values generalizing s with
  | nil => simpa using h
  | cons added rest ih =>
    obtain ⟨hcanonical, hcontains⟩ := ih (h.insert added)
    refine ⟨hcanonical, fun value => ?_⟩
    rw [List.foldl_cons, hcontains, contains_insert h, List.mem_cons, or_assoc]
    exact or_left_comm

/-- The set of listed values has canonical intervals. -/
theorem Canonical.ofList (values : List TokenType) : Canonical (ofList values).intervals :=
  (foldl_insert (s := empty) Canonical.nil values).1

/-- The set of listed values has these values as its members. -/
theorem contains_ofList (values : List TokenType) (value : TokenType) :
    (ofList values).contains value ↔ value ∈ values := by
  rw [ofList, (foldl_insert (s := empty) Canonical.nil values).2]
  simp [IntervalSet.contains, empty]

/-- Adding ranges one after the other keeps a set canonical. -/
theorem Canonical.foldl_insertRange {s : IntervalSet} (h : Canonical s.intervals)
    (intervals : List Interval) :
    Canonical (intervals.foldl (fun u i => u.insertRange i.start i.stop) s).intervals := by
  induction intervals generalizing s with
  | nil => exact h
  | cons i rest ih => exact ih (h.insertRange i.start i.stop)

/-- Adding intervals one by one makes canonical ones of them. -/
theorem Canonical.ofIntervals (intervals : List Interval) :
    Canonical (ofIntervals intervals).intervals := Canonical.nil.foldl_insertRange intervals

/-- A union has canonical intervals if the first set has. -/
theorem Canonical.union {s : IntervalSet} (h : Canonical s.intervals) (t : IntervalSet) :
    Canonical (s.union t).intervals := h.foldl_insertRange t.intervals

/-- A value belongs to a union if it belongs to one of the sets. -/
theorem contains_union {s : IntervalSet} (h : Canonical s.intervals) (t : IntervalSet)
    (value : TokenType) : (s.union t).contains value ↔ s.contains value ∨ t.contains value := by
  obtain ⟨intervals⟩ := t
  rw [IntervalSet.union]
  induction intervals generalizing s with
  | nil => simp [IntervalSet.contains]
  | cons i rest ih =>
    rw [List.foldl_cons, ih (h.insertRange i.start i.stop), contains_insertRange h, or_right_comm,
      or_comm]
    apply or_congr_right
    rw [IntervalSet.contains, IntervalSet.contains, List.any_cons, Bool.or_eq_true,
      Interval.contains, Bool.and_eq_true, decide_eq_true_eq, decide_eq_true_eq]

/-! ## Growth -/

/-- Adding a range keeps every value, whatever the intervals. -/
theorem any_insertInterval_of_any {start stop value : TokenType} {intervals : List Interval}
    (h : start ≤ value ∧ value ≤ stop ∨ intervals.any (·.contains value)) :
    (insertInterval start stop intervals).any (·.contains value) := by
  induction intervals generalizing start stop with
  | nil => simpa [insertInterval, Interval.contains] using h
  | cons j rest ih =>
    rw [List.any_cons, Bool.or_eq_true] at h
    rw [insertInterval]
    split
    · rw [List.any_cons, Bool.or_eq_true]
      rcases h with hrange | hj | hrest
      · exact Or.inr (ih (Or.inl hrange))
      · exact Or.inl hj
      · exact Or.inr (ih (Or.inr hrest))
    · split
      · rcases h with hrange | hj | hrest
        · exact ih (Or.inl (by lia))
        · rw [Interval.contains, Bool.and_eq_true, decide_eq_true_eq, decide_eq_true_eq] at hj
          exact ih (Or.inl (by lia))
        · exact ih (Or.inr hrest)
      · rw [List.any_cons, Bool.or_eq_true, List.any_cons, Bool.or_eq_true]
        refine h.imp_left fun hrange => ?_
        simpa [Interval.contains] using hrange

/-- Adding a range loses no value, canonical or not. -/
theorem contains_insertRange_of_contains {s : IntervalSet} {value : TokenType}
    (h : s.contains value) (start stop : TokenType) :
    (s.insertRange start stop).contains value := by
  rw [IntervalSet.insertRange]
  split
  · exact h
  · exact any_insertInterval_of_any (Or.inr h)

/-- A union loses no value of the first set, canonical or not. -/
theorem contains_union_of_contains {s : IntervalSet} {value : TokenType} (h : s.contains value)
    (t : IntervalSet) : (s.union t).contains value := by
  obtain ⟨intervals⟩ := t
  rw [IntervalSet.union]
  induction intervals generalizing s with
  | nil => exact h
  | cons i rest ih => exact ih (contains_insertRange_of_contains h i.start i.stop)

/-! ## Removing a range -/

/-- What is left of an interval are its values outside the range. -/
theorem any_without (i : Interval) {start stop : TokenType} (hrange : start ≤ stop)
    (value : TokenType) :
    (i.without start stop).any (·.contains value) ↔
      i.contains value ∧ ¬ (start ≤ value ∧ value ≤ stop) := by
  rw [Interval.without]
  split
  · simp only [List.any_cons, List.any_nil, Bool.or_false, Interval.contains, Bool.and_eq_true,
      decide_eq_true_eq]
    lia
  · rw [List.any_append, Bool.or_eq_true]
    split <;> split <;>
      simp only [List.any_cons, List.any_nil, Bool.or_false, Interval.contains, Bool.and_eq_true,
        decide_eq_true_eq, Bool.false_eq_true, or_false, false_or, false_iff] <;> lia

/-- Removing a range leaves the values outside of it. -/
theorem contains_eraseRange (s : IntervalSet) (start stop value : TokenType) :
    (s.eraseRange start stop).contains value ↔
      s.contains value ∧ ¬ (start ≤ value ∧ value ≤ stop) := by
  rw [IntervalSet.eraseRange]
  split
  · refine ⟨fun h => ⟨h, by lia⟩, And.left⟩
  next hrange =>
    rw [IntervalSet.contains, IntervalSet.contains, List.any_eq_true, List.any_eq_true]
    simp only [List.mem_flatMap]
    constructor
    · rintro ⟨j, ⟨i, hi, hj⟩, hvalue⟩
      have hleft := (any_without i (by lia) value).mp (List.any_eq_true.mpr ⟨j, hj, hvalue⟩)
      exact ⟨⟨i, hi, hleft.1⟩, hleft.2⟩
    · rintro ⟨⟨i, hi, hvalue⟩, houtside⟩
      obtain ⟨j, hj, hvalue⟩ :=
        List.any_eq_true.mp ((any_without i (by lia) value).mpr ⟨hvalue, houtside⟩)
      exact ⟨j, ⟨i, hi, hj⟩, hvalue⟩

/-- Removing a value leaves the others. -/
theorem contains_erase (s : IntervalSet) (value other : TokenType) :
    (s.erase value).contains other ↔ s.contains other ∧ other ≠ value := by
  rw [erase, contains_eraseRange]
  apply and_congr_right
  intro _
  lia

/-- A value belongs to a difference if it belongs to the first set only. -/
theorem contains_subtract (s t : IntervalSet) (value : TokenType) :
    (s.subtract t).contains value ↔ s.contains value ∧ ¬ t.contains value := by
  obtain ⟨intervals⟩ := t
  rw [IntervalSet.subtract]
  induction intervals generalizing s with
  | nil => simp [IntervalSet.contains]
  | cons i rest ih =>
    rw [List.foldl_cons, ih, contains_eraseRange, and_assoc]
    apply and_congr_right
    intro _
    rw [IntervalSet.contains, IntervalSet.contains, List.any_cons, Bool.or_eq_true, not_or,
      Interval.contains, Bool.and_eq_true, decide_eq_true_eq, decide_eq_true_eq]

/-- A complement has the values of the vocabulary that the set lacks. -/
theorem contains_complement (s vocabulary : IntervalSet) (value : TokenType) :
    (s.complement vocabulary).contains value ↔ vocabulary.contains value ∧ ¬ s.contains value :=
  contains_subtract vocabulary s value

/-- The set of a range has the values between its bounds. -/
theorem contains_ofRange (start stop value : TokenType) :
    (ofRange start stop).contains value ↔ start ≤ value ∧ value ≤ stop := by
  rw [ofRange, contains_insertRange (s := empty) Canonical.nil]
  simp [IntervalSet.contains, empty]

/-- The set of one value has no other. -/
theorem contains_singleton (value other : TokenType) :
    (singleton value).contains other ↔ other = value := by
  rw [singleton, contains_insert (s := empty) Canonical.nil]
  simp [IntervalSet.contains, empty]

/-- Canonical intervals may stand before others that begin behind a gap. -/
theorem Canonical.append {front behind : List Interval} (hfront : Canonical front)
    (hbehind : Canonical behind) (hgap : ∀ i ∈ front, ∀ j ∈ behind, i.stop + 1 < j.start) :
    Canonical (front ++ behind) :=
  ⟨List.forall_mem_append.mpr ⟨hfront.nonempty, hbehind.nonempty⟩,
    List.pairwise_append.mpr ⟨hfront.apart, hbehind.apart, hgap⟩⟩

/-- What is left of an interval lies within it. -/
theorem within_of_mem_without {i : Interval} {start stop : TokenType} :
    ∀ j ∈ i.without start stop, i.start ≤ j.start ∧ j.stop ≤ i.stop := by
  intro j hj
  rw [Interval.without] at hj
  split at hj
  · rw [List.mem_singleton] at hj
    exact hj ▸ ⟨Int.le_refl _, Int.le_refl _⟩
  · rcases List.mem_append.mp hj with hj | hj
    all_goals
      rw [List.mem_ite_nil_right, List.mem_singleton] at hj
      obtain ⟨hside, rfl⟩ := hj
      constructor <;> lia

/-- What is left of a non-empty interval is one side of the range or both. -/
theorem Canonical.without {i : Interval} (hi : i.start ≤ i.stop) {start stop : TokenType}
    (hrange : start ≤ stop) : Canonical (i.without start stop) := by
  rw [Interval.without]
  split
  · exact Canonical.nil.cons hi (by simp)
  · refine Canonical.append ?_ ?_ fun j hj k hk => ?_
    · split
      · exact Canonical.nil.cons (by lia) (by simp)
      · exact Canonical.nil
    · split
      · exact Canonical.nil.cons (by lia) (by simp)
      · exact Canonical.nil
    · rw [List.mem_ite_nil_right, List.mem_singleton] at hj hk
      obtain ⟨-, rfl⟩ := hj
      obtain ⟨-, rfl⟩ := hk
      lia

/-- No interval of a removal lies outside those there were. -/
theorem bounds_eraseRange {least greatest : TokenType} {s : IntervalSet}
    (h : ∀ i ∈ s.intervals, least ≤ i.start ∧ i.stop ≤ greatest) (start stop : TokenType) :
    ∀ i ∈ (s.eraseRange start stop).intervals, least ≤ i.start ∧ i.stop ≤ greatest := by
  rw [eraseRange]
  split
  · exact h
  next hrange =>
    intro j hj
    obtain ⟨i, hi, hj⟩ := List.mem_flatMap.mp hj
    have hin := within_of_mem_without j hj
    have := h i hi
    constructor <;> lia

/-- Removing a range keeps a set canonical. -/
theorem Canonical.eraseRange {s : IntervalSet} (h : Canonical s.intervals)
    (start stop : TokenType) : Canonical (s.eraseRange start stop).intervals := by
  obtain ⟨intervals⟩ := s
  rw [IntervalSet.eraseRange]
  split
  · exact h
  next hrange =>
    induction intervals with
    | nil => exact Canonical.nil
    | cons i rest ih =>
      rw [List.flatMap_cons]
      refine (Canonical.without h.head (by lia)).append (ih h.tail) fun j hj k hk => ?_
      obtain ⟨l, hl, hk⟩ := List.mem_flatMap.mp hk
      have hj := within_of_mem_without j hj
      have hk := within_of_mem_without k hk
      have := h.gap l hl
      lia

/-- Removing a value keeps intervals canonical. -/
theorem Canonical.erase {s : IntervalSet} (h : Canonical s.intervals) (value : TokenType) :
    Canonical (s.erase value).intervals := h.eraseRange value value

/-- Removing the values of any other set keeps intervals canonical. -/
theorem Canonical.subtract {s : IntervalSet} (h : Canonical s.intervals) (t : IntervalSet) :
    Canonical (s.subtract t).intervals := by
  obtain ⟨intervals⟩ := t
  rw [IntervalSet.subtract]
  induction intervals generalizing s with
  | nil => exact h
  | cons i rest ih => exact ih (h.eraseRange i.start i.stop)

/-! ## Equal sets -/

/-- No value of canonical intervals is below the first. -/
theorem Canonical.start_le {i : Interval} {rest : List Interval} (h : Canonical (i :: rest))
    {value : TokenType} (hvalue : (i :: rest).any (·.contains value)) : i.start ≤ value := by
  obtain ⟨j, hj, hmem⟩ := List.any_eq_true.mp hvalue
  rw [Interval.contains, Bool.and_eq_true, decide_eq_true_eq, decide_eq_true_eq] at hmem
  have hi := h.head
  rcases List.mem_cons.mp hj with rfl | hj
  · exact hmem.1
  · have := h.gap j hj
    lia

/-- The values behind the first of canonical intervals are those greater than its own. -/
theorem Canonical.any_tail {i : Interval} {rest : List Interval} (h : Canonical (i :: rest))
    (value : TokenType) :
    rest.any (·.contains value) ↔ (i :: rest).any (·.contains value) ∧ i.stop < value := by
  simp only [List.any_cons, Bool.or_eq_true, Interval.contains, Bool.and_eq_true,
    decide_eq_true_eq, List.any_eq_true]
  constructor
  · rintro ⟨j, hj, hvalue⟩
    have := h.gap j hj
    exact ⟨Or.inr ⟨j, hj, hvalue⟩, by lia⟩
  · rintro ⟨hvalue | hvalue, hlt⟩
    · lia
    · exact hvalue

/-- The bounds of the first interval are values. -/
theorem any_of_head {i : Interval} (rest : List Interval) {value : TokenType}
    (hstart : i.start ≤ value) (hstop : value ≤ i.stop) :
    (i :: rest).any (·.contains value) := by
  rw [List.any_cons, Bool.or_eq_true]
  exact Or.inl (by simp [Interval.contains, hstart, hstop])

/-- The first interval is cut off before the least absent value above its start. -/
theorem Canonical.stop_le {i j : Interval} {a b : List Interval} (ha : Canonical (i :: a))
    (hstart : i.start = j.start)
    (h : ∀ value, (j :: b).any (·.contains value) → (i :: a).any (·.contains value)) :
    j.stop ≤ i.stop := by
  have hi := ha.head
  by_contra hlt
  have hmem := h (i.stop + 1) (any_of_head b (by lia) (by lia))
  obtain ⟨k, hk, hmem⟩ := List.any_eq_true.mp ((ha.any_tail _).mpr ⟨hmem, by lia⟩)
  rw [Interval.contains, Bool.and_eq_true, decide_eq_true_eq, decide_eq_true_eq] at hmem
  have := ha.gap k hk
  lia

/-- Canonical intervals with the same values are the same intervals. -/
theorem Canonical.ext {a b : List Interval} (ha : Canonical a) (hb : Canonical b)
    (h : ∀ value, a.any (·.contains value) ↔ b.any (·.contains value)) : a = b := by
  induction a generalizing b with
  | nil =>
    cases b with
    | nil => rfl
    | cons j b => simpa using (h j.start).mpr (any_of_head b (Int.le_refl _) hb.head)
  | cons i a ih =>
    cases b with
    | nil => simpa using (h i.start).mp (any_of_head a (Int.le_refl _) ha.head)
    | cons j b =>
      have hstart : i.start = j.start := Int.le_antisymm
        (ha.start_le ((h _).mpr (any_of_head b (Int.le_refl _) hb.head)))
        (hb.start_le ((h _).mp (any_of_head a (Int.le_refl _) ha.head)))
      have hstop : i.stop = j.stop := Int.le_antisymm
        (hb.stop_le hstart.symm fun value => (h value).mp)
        (ha.stop_le hstart fun value => (h value).mpr)
      have hhead : i = j := by
        obtain ⟨_, _⟩ := i
        obtain ⟨_, _⟩ := j
        rw [Interval.mk.injEq]
        exact ⟨hstart, hstop⟩
      subst hhead
      rw [ih ha.tail hb.tail]
      intro value
      rw [ha.any_tail, hb.any_tail, h]

/-- Canonical sets with the same members are equal. -/
theorem Canonical.ext_contains {s t : IntervalSet} (hs : Canonical s.intervals)
    (ht : Canonical t.intervals) (h : ∀ value, s.contains value ↔ t.contains value) : s = t :=
  congrArg IntervalSet.mk (hs.ext ht h)

/-- A canonical set is empty exactly if it has no members. -/
theorem isEmpty_iff {s : IntervalSet} (h : Canonical s.intervals) :
    s.isEmpty ↔ ∀ value, ¬ s.contains value := by
  rw [isEmpty, List.isEmpty_iff]
  constructor
  · intro hnil value
    simp [contains, hnil]
  · intro hnone
    exact h.ext .nil fun value => iff_of_false (hnone value) Bool.false_ne_true

/-! ## Rebuilding -/

/-- A range behind a gap becomes the last interval. -/
theorem insertInterval_append {start stop : TokenType} {intervals : List Interval}
    (hgap : ∀ i ∈ intervals, i.stop + 1 < start) :
    insertInterval start stop intervals = intervals ++ [⟨start, stop⟩] := by
  induction intervals with
  | nil => rfl
  | cons i rest ih =>
    have hi := hgap i List.mem_cons_self
    rw [insertInterval, if_pos (by lia), ih fun j hj => hgap j (List.mem_cons_of_mem i hj)]
    rfl

/-- Adding canonical intervals in order appends them. -/
theorem foldl_insertRange_append {front intervals : List Interval}
    (h : Canonical (front ++ intervals)) :
    intervals.foldl (fun u i => u.insertRange i.start i.stop) ⟨front⟩ =
      (⟨front ++ intervals⟩ : IntervalSet) := by
  induction intervals generalizing front with
  | nil => rw [List.foldl_nil, List.append_nil]
  | cons i rest ih =>
    have hi : i.start ≤ i.stop := h.nonempty i (by simp)
    have hgap : ∀ j ∈ front, j.stop + 1 < i.start := fun j hj =>
      (List.pairwise_append.mp h.apart).2.2 j hj i List.mem_cons_self
    rw [List.foldl_cons, IntervalSet.insertRange, if_neg (by lia), insertInterval_append hgap,
      ih (by rwa [List.append_assoc, List.singleton_append]), List.append_assoc,
      List.singleton_append]

/-- Canonical intervals are the intervals of their set. -/
theorem ofIntervals_of_canonical {intervals : List Interval} (h : Canonical intervals) :
    ofIntervals intervals = ⟨intervals⟩ := foldl_insertRange_append h

/-! ## Bounds -/

/-- Bounds of the added ranges bound the intervals of their set. -/
theorem bounds_ofIntervals {least greatest : TokenType} {intervals : List Interval}
    (h : ∀ i ∈ intervals, least ≤ i.start ∧ i.stop ≤ greatest) :
    ∀ i ∈ (ofIntervals intervals).intervals, least ≤ i.start ∧ i.stop ≤ greatest := by
  suffices ∀ s : IntervalSet, (∀ i ∈ s.intervals, least ≤ i.start ∧ i.stop ≤ greatest) →
      ∀ i ∈ (intervals.foldl (fun u i => u.insertRange i.start i.stop) s).intervals,
        least ≤ i.start ∧ i.stop ≤ greatest from this empty (by simp [empty])
  intro s hs
  induction intervals generalizing s with
  | nil => exact hs
  | cons j rest ih =>
    obtain ⟨hj, hrest⟩ := List.forall_mem_cons.mp h
    apply ih hrest
    intro i hi
    change i ∈ (s.insertRange j.start j.stop).intervals at hi
    rw [IntervalSet.insertRange] at hi
    split at hi
    · exact hs i hi
    · exact ⟨le_start_of_mem_insertInterval hj.1 (fun k hk => (hs k hk).1) i hi,
        stop_le_of_mem_insertInterval hj.2 (fun k hk => (hs k hk).2) i hi⟩

/-- Gaps keep the number of intervals at half the number of values between the bounds. -/
theorem Canonical.length_le {least greatest : TokenType} {intervals : List Interval}
    (h : Canonical intervals) (hbounds : ∀ i ∈ intervals, least ≤ i.start ∧ i.stop ≤ greatest)
    (hleast : least ≤ greatest + 2) :
    2 * (intervals.length : Int) ≤ greatest - least + 2 := by
  induction intervals generalizing least with
  | nil =>
    rw [List.length_nil]
    lia
  | cons i rest ih =>
    have hi := hbounds i List.mem_cons_self
    have hhead := h.head
    have hrest : 2 * (rest.length : Int) ≤ greatest - (i.stop + 2) + 2 := ih h.tail
      (fun j hj => ⟨by have := h.gap j hj; lia, (hbounds j (List.mem_cons_of_mem i hj)).2⟩)
      (by lia)
    rw [List.length_cons]
    lia

end IntervalSet

end TransitionNetwork
