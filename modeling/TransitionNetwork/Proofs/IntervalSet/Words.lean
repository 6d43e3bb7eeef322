import TransitionNetwork.IntervalSet.Words
import TransitionNetwork.Proofs.IntervalSet.Canonical
import TransitionNetwork.Proofs.Sequences

/-!
# Interval sets in words are interval sets

Stored intervals are canonical and have words for bounds. On stored intervals halving finds the
place of a value, saturation next to an added range changes no comparison, and every bound next to
a removed range is a word. So the operations in words never overflow, give what the operations on
unbounded integers give, and store their result again.
-/

namespace TransitionNetwork

/-- An integer that 32 bits hold. -/
def Word.Holds (value : Int) : Prop := Word.least ≤ value ∧ value ≤ Word.greatest

/-- An integer that 32 bits hold does not overflow. -/
theorem Word.check_eq_some {value : Int} (h : Word.Holds value) : Word.check value = some value :=
  if_pos h

/-- A bound that is a word wherever it is wanted does not overflow. -/
theorem Word.ite_map_check {wanted : Prop} [Decidable wanted] {value : Int}
    (h : wanted → Word.Holds value) (f : Int → List Interval) :
    (if wanted then (Word.check value).map f else some []) =
      some (if wanted then f value else []) := by
  split
  next hwanted => rw [Word.check_eq_some (h hwanted), Option.map_some]
  next => rfl

namespace IntervalSet

/-- Canonical intervals between the least and the greatest word. -/
structure Stored (s : IntervalSet) : Prop where
  canonical : Canonical s.intervals
  words : ∀ i ∈ s.intervals, Word.least ≤ i.start ∧ i.stop ≤ Word.greatest

/-- The empty set can be stored. -/
theorem Stored.empty : Stored empty := ⟨Canonical.nil, by simp [IntervalSet.empty]⟩

/-- Both bounds of a stored interval are words. -/
theorem Stored.holds {s : IntervalSet} (h : s.Stored) {i : Interval} (hi : i ∈ s.intervals) :
    Word.Holds i.start ∧ Word.Holds i.stop := by
  have hwords := h.words i hi
  have := h.canonical.nonempty i hi
  rw [Word.Holds, Word.Holds]
  lia

/-! ## Halving -/

/-- Halving finds the end of the intervals that satisfy a test. -/
theorem boundaryWithin_append {test : Interval → Bool} {front behind : List Interval}
    (hfront : ∀ i ∈ front, test i) (hbehind : ∀ i ∈ behind, test i = false) {lo hi : Nat}
    (hlo : lo ≤ front.length) (hhi : front.length ≤ hi) :
    boundaryWithin test (front ++ behind) lo hi = front.length := by
  fun_induction boundaryWithin test (front ++ behind) lo hi with
  | case1 lo hi hlt mid htest ih =>
    refine ih ?_ hhi
    by_contra hle
    rw [List.getElem?_append_right (by lia), Option.any_eq_true] at htest
    obtain ⟨i, hi, htest⟩ := htest
    exact absurd htest (by simp [hbehind i (List.mem_of_getElem? hi)])
  | case2 lo hi hlt mid htest ih =>
    refine ih hlo ?_
    by_contra hle
    have hmid : mid < front.length := by lia
    rw [List.getElem?_append_left hmid, List.getElem?_eq_getElem hmid] at htest
    exact htest (hfront _ (List.getElem_mem hmid))
  | case3 lo hi hlt => lia

/-- Halving finds where the intervals that satisfy a test end. -/
theorem boundary_append {test : Interval → Bool} {front behind : List Interval}
    (hfront : ∀ i ∈ front, test i) (hbehind : ∀ i ∈ behind, test i = false) :
    boundary test (front ++ behind) = front.length := by
  apply boundaryWithin_append hfront hbehind (Nat.zero_le _)
  rw [List.length_append]
  exact Nat.le_add_right _ _

/-- A bound divides canonical intervals into those that end below it and the others. -/
theorem Canonical.exists_split {intervals : List Interval} (h : Canonical intervals)
    (bound : TokenType) :
    ∃ front behind, intervals = front ++ behind ∧ (∀ i ∈ front, i.stop < bound) ∧
      ∀ i ∈ behind, bound ≤ i.stop := by
  induction intervals with
  | nil => exact ⟨[], [], rfl, by simp, by simp⟩
  | cons i rest ih =>
    by_cases hi : i.stop < bound
    · obtain ⟨front, behind, rfl, hfront, hbehind⟩ := ih h.tail
      exact ⟨i :: front, behind, rfl, List.forall_mem_cons.mpr ⟨hi, hfront⟩, hbehind⟩
    · refine ⟨[], i :: rest, rfl, by simp, List.forall_mem_cons.mpr ⟨by lia, fun j hj => ?_⟩⟩
      have := h.gap j hj
      have := h.nonempty j (List.mem_cons_of_mem i hj)
      lia

/-- A value is found by halving if it belongs to the set. -/
theorem search_eq_contains {s : IntervalSet} (h : Canonical s.intervals) (value : TokenType) :
    s.search value = s.contains value := by
  obtain ⟨front, behind, hs, hfront, hbehind⟩ := h.exists_split value
  have hmiss : front.any (·.contains value) = false := by
    rw [List.any_eq_false]
    intro i hi
    have := hfront i hi
    rw [Interval.contains, Bool.and_eq_true, decide_eq_true_eq, decide_eq_true_eq]
    lia
  rw [search, IntervalSet.contains, hs, boundary_append (by simpa using hfront)
    (by simpa using hbehind), List.getElem?_append_right (Nat.le_refl _), Nat.sub_self,
    List.any_append, hmiss, Bool.false_or]
  rw [hs] at h
  cases behind with
  | nil => rfl
  | cons i rest =>
    -- Only the first interval that does not end below the value can hold it.
    have hrest : rest.any (·.contains value) = false := by
      rw [List.any_eq_false]
      intro j hj
      have := hbehind i List.mem_cons_self
      have := List.rel_of_pairwise_cons (List.pairwise_append.mp h.apart).2.1 hj
      rw [Interval.contains, Bool.and_eq_true, decide_eq_true_eq, decide_eq_true_eq]
      lia
    rw [List.any_cons, hrest, Bool.or_false]
    rfl

/-! ## Adding a range -/

/-- Intervals that end below a range and its neighbour stay in front of it. -/
theorem insertInterval_append_of_stop_lt {start stop : TokenType} {front : List Interval}
    (hfront : ∀ i ∈ front, i.stop < start - 1) (behind : List Interval) :
    insertInterval start stop (front ++ behind) =
      front ++ insertInterval start stop behind := by
  induction front with
  | nil => rfl
  | cons i front ih =>
    obtain ⟨hi, hfront⟩ := List.forall_mem_cons.mp hfront
    rw [List.cons_append, insertInterval, if_pos hi, ih hfront, List.cons_append]

/-- A range absorbs in words what it absorbs among integers. -/
theorem absorb_eq_insertInterval {start stop : TokenType} {intervals : List Interval}
    (hstop : Word.Holds stop) (hwords : ∀ i ∈ intervals, Word.Holds i.start ∧ Word.Holds i.stop)
    (hbehind : ∀ i ∈ intervals, start - 1 ≤ i.stop) :
    (absorb start stop intervals).1 :: (absorb start stop intervals).2 =
      insertInterval start stop intervals := by
  induction intervals generalizing start stop with
  | nil => rfl
  | cons i rest ih =>
    obtain ⟨⟨histart, histop⟩, hwords⟩ := List.forall_mem_cons.mp hwords
    obtain ⟨hi, hbehind⟩ := List.forall_mem_cons.mp hbehind
    rw [Word.Holds] at hstop histart histop
    have hreach : i.start ≤ Word.saturate (stop + 1) ↔ i.start ≤ stop + 1 := by
      rw [Word.saturate]
      lia
    have hmiss : ¬ i.stop < start - 1 := by lia
    rw [absorb, insertInterval, if_neg hmiss]
    by_cases htouch : i.start ≤ stop + 1
    · rw [if_pos (hreach.mpr htouch), if_pos htouch]
      apply ih _ hwords
      · intro j hj
        have := hbehind j hj
        lia
      · rw [Word.Holds]
        lia
    · rw [if_neg (by rwa [hreach]), if_neg htouch]

/-- A range of words is added to stored intervals as among integers. -/
theorem Stored.insertRangeInWords_eq {s : IntervalSet} (h : s.Stored) {start stop : TokenType}
    (hstart : Word.Holds start) (hstop : Word.Holds stop) :
    s.insertRangeInWords start stop = s.insertRange start stop := by
  obtain ⟨intervals⟩ := s
  obtain ⟨front, behind, rfl, hfront, hbehind⟩ := h.canonical.exists_split (start - 1)
  have hsaturate : ∀ i ∈ front ++ behind,
      i.stop < Word.saturate (start - 1) ↔ i.stop < start - 1 := by
    intro i hi
    have := (h.holds hi).2
    rw [Word.Holds] at this hstart
    rw [Word.saturate]
    lia
  have hplace : boundary (fun i => decide (i.stop < Word.saturate (start - 1))) (front ++ behind) =
      front.length := by
    apply boundary_append
    · intro i hi
      simpa [hsaturate i (List.mem_append_left behind hi)] using hfront i hi
    · intro i hi
      simpa [hsaturate i (List.mem_append_right front hi)] using hbehind i hi
  rw [insertRangeInWords, insertRange]
  split
  · rfl
  · rw [insertInterval_append_of_stop_lt hfront, ← absorb_eq_insertInterval hstop
      (fun i hi => h.holds (List.mem_append_right front hi)) hbehind]
    simp only [hplace, List.take_left, List.drop_left]

/-- Adding a range between words to a stored set gives one that can be stored. -/
theorem Stored.insertRange {s : IntervalSet} (h : s.Stored) {start stop : TokenType}
    (hstart : Word.Holds start) (hstop : Word.Holds stop) : (s.insertRange start stop).Stored := by
  refine ⟨h.canonical.insertRange start stop, ?_⟩
  rw [IntervalSet.insertRange]
  split
  · exact h.words
  · intro i hi
    exact ⟨le_start_of_mem_insertInterval hstart.1 (fun j hj => (h.words j hj).1) i hi,
      stop_le_of_mem_insertInterval hstop.2 (fun j hj => (h.words j hj).2) i hi⟩

/-- Ranges of words are added one after the other as among integers. -/
theorem Stored.foldl_insertRange {s : IntervalSet} (h : s.Stored) {intervals : List Interval}
    (hwords : ∀ i ∈ intervals, Word.Holds i.start ∧ Word.Holds i.stop) :
    intervals.foldl (fun u i => u.insertRangeInWords i.start i.stop) s =
        intervals.foldl (fun u i => u.insertRange i.start i.stop) s ∧
      (intervals.foldl (fun u i => u.insertRange i.start i.stop) s).Stored := by
  induction intervals generalizing s with
  | nil => exact ⟨rfl, h⟩
  | cons i rest ih =>
    obtain ⟨hi, hwords⟩ := List.forall_mem_cons.mp hwords
    rw [List.foldl_cons, List.foldl_cons, h.insertRangeInWords_eq hi.1 hi.2]
    exact ih (h.insertRange hi.1 hi.2) hwords

/-- Halving stays within its window. -/
theorem boundaryWithin_le (test : Interval → Bool) (intervals : List Interval) {lo hi : Nat}
    (h : lo ≤ hi) : boundaryWithin test intervals lo hi ≤ hi := by
  fun_induction boundaryWithin test intervals lo hi with
  | case1 lo hi hlt mid htest ih => exact ih (by lia)
  | case2 lo hi hlt mid htest ih => exact Nat.le_trans (ih (by lia)) (by lia)
  | case3 lo hi hlt => exact h

/-- A range is never added behind the end of the storage. -/
theorem insertRangeInBounds_eq (s : IntervalSet) (start stop : TokenType) :
    s.insertRangeInBounds start stop = some (s.insertRangeInWords start stop) :=
  if_pos (Or.inr (boundaryWithin_le _ _ (Nat.zero_le _)))

/-- Ranges of words are collected as among integers. -/
theorem ofIntervalsInBounds_eq {intervals : List Interval}
    (hwords : ∀ i ∈ intervals, Word.Holds i.start ∧ Word.Holds i.stop) :
    ofIntervalsInBounds intervals = some (ofIntervals intervals) := by
  rw [ofIntervalsInBounds, ofIntervals, ← (Stored.empty.foldl_insertRange hwords).1]
  simp only [insertRangeInBounds_eq]
  exact List.foldlM_pure

/-- The union of stored sets in words is their union. -/
theorem Stored.unionInWords_eq {s t : IntervalSet} (hs : s.Stored) (ht : t.Stored) :
    s.unionInWords t = s.union t := (hs.foldl_insertRange fun _ hi => ht.holds hi).1

/-- The union of stored sets can be stored. -/
theorem Stored.union {s t : IntervalSet} (hs : s.Stored) (ht : t.Stored) : (s.union t).Stored :=
  (hs.foldl_insertRange fun _ hi => ht.holds hi).2

/-- A list of words is collected as among integers, and stored. -/
theorem ofListInWords_eq {values : List TokenType} (h : ∀ value ∈ values, Word.Holds value) :
    ofListInWords values = ofList values ∧ (ofList values).Stored := by
  have hwords : ∀ i ∈ values.map fun value => (⟨value, value⟩ : Interval),
      Word.Holds i.start ∧ Word.Holds i.stop := by simpa using h
  have hfold := Stored.empty.foldl_insertRange hwords
  rwa [List.foldl_map, List.foldl_map] at hfold

/-! ## Removing a range -/

/-- The bounds next to a removed range lie within the interval they belong to. -/
theorem withoutInWords_eq {i : Interval} (hstart : Word.Holds i.start) (hstop : Word.Holds i.stop)
    (start stop : TokenType) :
    i.withoutInWords start stop = some (i.without start stop) := by
  rw [Word.Holds] at hstart hstop
  rw [Interval.withoutInWords, Interval.without]
  split
  · rfl
  next hmeet =>
    rw [Word.ite_map_check (fun _ => by rw [Word.Holds]; lia),
      Word.ite_map_check (fun _ => by rw [Word.Holds]; lia)]
    rfl

/-- No bound overflows when a range is removed from intervals of words. -/
theorem mapM_withoutInWords {intervals : List Interval}
    (hwords : ∀ i ∈ intervals, Word.Holds i.start ∧ Word.Holds i.stop) (start stop : TokenType) :
    (intervals.mapM fun i : Interval => i.withoutInWords start stop) =
      some (intervals.map fun i : Interval => i.without start stop) :=
  mapM_eq_pure fun i hi => withoutInWords_eq (hwords i hi).1 (hwords i hi).2 start stop

/-- Removing a range from a stored set never overflows and gives what is left. -/
theorem Stored.eraseRangeInWords_eq {s : IntervalSet} (h : s.Stored) (start stop : TokenType) :
    s.eraseRangeInWords start stop = some (s.eraseRange start stop) := by
  rw [eraseRangeInWords, eraseRange]
  split
  · rfl
  · rw [mapM_withoutInWords fun _ hi => h.holds hi, List.flatMap]
    rfl

/-- What is left of a stored set can be stored. -/
theorem Stored.eraseRange {s : IntervalSet} (h : s.Stored) (start stop : TokenType) :
    (s.eraseRange start stop).Stored :=
  ⟨h.canonical.eraseRange start stop, bounds_eraseRange h.words start stop⟩

/-- No bound overflows when the ranges of a set are removed from stored intervals. -/
theorem Stored.subtractInWords_eq {s : IntervalSet} (h : s.Stored) (t : IntervalSet) :
    s.subtractInWords t = some (s.subtract t) ∧ (s.subtract t).Stored := by
  obtain ⟨intervals⟩ := t
  rw [subtractInWords, IntervalSet.subtract]
  induction intervals generalizing s with
  | nil => exact ⟨rfl, h⟩
  | cons i rest ih =>
    rw [List.foldlM_cons, h.eraseRangeInWords_eq]
    exact ih (h.eraseRange i.start i.stop)

end IntervalSet

end TransitionNetwork
