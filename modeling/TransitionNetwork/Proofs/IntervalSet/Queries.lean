import Mathlib.Data.Int.Interval
import TransitionNetwork.Proofs.IntervalSet.Constructions

/-!
# What interval sets answer

The queries on a set read its intervals in different ways: halving finds a member, widths are summed
up, the first and the last interval give the extremes, and the list of members is that of the
intervals one behind the other. On stored intervals all of them describe the same values.
-/

namespace TransitionNetwork

/-! ## The values of an interval -/

namespace Interval

/-- The values that are listed for an interval are those that it contains. -/
theorem mem_toList {i : Interval} {value : TokenType} :
    value ∈ i.toList ↔ i.contains value := by
  rw [toList, List.mem_map, contains, Bool.and_eq_true, decide_eq_true_eq, decide_eq_true_eq]
  simp only [List.mem_range, size]
  constructor
  · rintro ⟨k, hk, rfl⟩
    lia
  · intro hvalue
    exact ⟨(value - i.start).toNat, by lia, by lia⟩

/-- An interval lists as many values as it has. -/
theorem length_toList (i : Interval) : i.toList.length = i.size := by
  rw [toList, List.length_map, List.length_range]

/-- The values of an interval ascend strictly. -/
theorem pairwise_toList (i : Interval) : i.toList.Pairwise (· < ·) := by
  rw [toList, List.pairwise_map]
  apply List.pairwise_lt_range.imp
  intro k l hlt
  lia

/-- The first value of a non-empty interval is its start. -/
theorem head?_toList {i : Interval} (hi : i.start ≤ i.stop) : i.toList.head? = some i.start := by
  have hsize : i.size ≠ 0 := by rw [size]; lia
  rw [toList, List.head?_map, List.head?_range, if_neg hsize]
  simp

/-- The last value of a non-empty interval is its stop. -/
theorem getLast?_toList {i : Interval} (hi : i.start ≤ i.stop) :
    i.toList.getLast? = some i.stop := by
  have hsize : i.size ≠ 0 := by rw [size]; lia
  rw [toList, List.getLast?_map, List.getLast?_range, if_neg hsize, Option.map_some,
    Option.some.injEq, size]
  lia

/-- The number of values between words does not overflow. -/
theorem sizeInWords_eq {i : Interval} (hstart : Word.Holds i.start) (hstop : Word.Holds i.stop) :
    i.sizeInWords = some i.size := by
  rw [Word.Holds, Word.least, Word.greatest] at hstart hstop
  rw [sizeInWords, Word.checkLong, if_pos (by lia), Option.bind_eq_bind, Option.bind_some,
    Word.checkLong, if_pos (by lia)]
  rfl

end Interval

namespace IntervalSet

/-! ## The list of members -/

/-- Exactly the members are listed. -/
theorem mem_toList {s : IntervalSet} {value : TokenType} :
    value ∈ s.toList ↔ s.contains value := by
  rw [toList, List.mem_flatMap, contains, List.any_eq_true]
  simp only [Interval.mem_toList]

/-- A set lists as many values as it has. -/
theorem length_toList (s : IntervalSet) : s.toList.length = s.size := by
  obtain ⟨intervals⟩ := s
  induction intervals with
  | nil => rfl
  | cons i rest ih =>
    rw [toList, List.flatMap_cons, List.length_append, Interval.length_toList]
    exact congrArg (i.size + ·) ih

/-- The members ascend strictly: those of an interval do, and gaps separate the intervals. -/
theorem Canonical.pairwise_toList {s : IntervalSet} (h : Canonical s.intervals) :
    s.toList.Pairwise (· < ·) := by
  rw [toList, List.pairwise_flatMap]
  refine ⟨fun i _ => i.pairwise_toList, h.apart.imp ?_⟩
  intro i j hgap a ha b hb
  rw [Interval.mem_toList, Interval.contains, Bool.and_eq_true, decide_eq_true_eq,
    decide_eq_true_eq] at ha hb
  lia

/-- A canonical set has no interval exactly if it lists no member. -/
theorem Canonical.isEmpty_iff_toList {s : IntervalSet} (h : Canonical s.intervals) :
    s.isEmpty ↔ s.toList = [] := by
  rw [isEmpty_iff h, List.eq_nil_iff_forall_not_mem]
  simp only [mem_toList]

/-- The start of the first interval is the first member. -/
theorem Canonical.min?_eq {s : IntervalSet} (h : Canonical s.intervals) :
    s.min? = s.toList.head? := by
  obtain ⟨intervals⟩ := s
  cases intervals with
  | nil => rfl
  | cons i rest =>
    rw [toList, List.flatMap_cons, List.head?_append, Interval.head?_toList h.head]
    rfl

/-- The stop of the last interval is the last member. -/
theorem Canonical.max?_eq {s : IntervalSet} (h : Canonical s.intervals) :
    s.max? = s.toList.getLast? := by
  obtain ⟨intervals⟩ := s
  cases intervals using List.reverseRecOn with
  | nil => rfl
  | append_singleton front i =>
    have hi : i.start ≤ i.stop := h.nonempty i List.mem_concat_self
    rw [toList, List.flatMap_append, List.getLast?_append, List.flatMap_singleton,
      Interval.getLast?_toList hi, max?, List.getLast?_concat]
    rfl

/-! ## The number of members -/

/-- There are no more strictly ascending words than words. -/
theorem Stored.length_toList_le {s : IntervalSet} (h : s.Stored) :
    s.toList.length ≤ 4294967296 := by
  have hnodup : s.toList.Nodup := h.canonical.pairwise_toList.imp fun hlt => Int.ne_of_lt hlt
  have hwords : s.toList.toFinset ⊆ Finset.Icc Word.least Word.greatest := by
    intro value hvalue
    rw [List.mem_toFinset, mem_toList, contains, List.any_eq_true] at hvalue
    obtain ⟨i, hi, hvalue⟩ := hvalue
    rw [Interval.contains, Bool.and_eq_true, decide_eq_true_eq, decide_eq_true_eq] at hvalue
    have hbounds := h.words i hi
    rw [Finset.mem_Icc]
    lia
  have hcard := Finset.card_le_card hwords
  rwa [List.toFinset_card_of_nodup hnodup, Int.card_Icc] at hcard

/-- Counting goes on from what was counted, as long as the sum is small enough. -/
theorem foldlM_sizeInWords {intervals : List Interval} {counted : Nat}
    (hwords : ∀ i ∈ intervals, Word.Holds i.start ∧ Word.Holds i.stop)
    (hsum : counted + size ⟨intervals⟩ ≤ 18446744073709551615) :
    intervals.foldlM (fun n i => do Word.checkCount (n + (← i.sizeInWords))) counted =
      some (counted + size ⟨intervals⟩) := by
  induction intervals generalizing counted with
  | nil => rfl
  | cons i rest ih =>
    obtain ⟨hi, hwords⟩ := List.forall_mem_cons.mp hwords
    have hsize : size ⟨i :: rest⟩ = i.size + size ⟨rest⟩ := rfl
    rw [hsize, ← Nat.add_assoc] at hsum ⊢
    have hstep : Word.checkCount (counted + i.size) = some (counted + i.size) := if_pos (by lia)
    rw [List.foldlM_cons, Interval.sizeInWords_eq hi.1 hi.2]
    exact (congrArg (Option.bind · _) hstep).trans (ih hwords hsum)

/-- The members of stored intervals are counted without overflow. -/
theorem Stored.sizeInWords_eq {s : IntervalSet} (h : s.Stored) : s.sizeInWords = some s.size := by
  have hbound := h.length_toList_le
  rw [length_toList, ← Nat.zero_add s.size] at hbound
  have hcount := foldlM_sizeInWords (fun i hi => h.holds hi) (hbound.trans (by decide))
  rwa [Nat.zero_add] at hcount

/-! ## One set -/

/-- All queries on a set describe the same values. They are listed in strictly ascending order; a
value is a member, and found by halving, exactly if it is listed; counting, which never overflows,
gives the length of the list; and the set is empty, and has its least and greatest member, as the
list says. -/
theorem Construction.queries_agree (c : Construction) :
    c.setInWords = some c.set ∧ c.set.toList.Pairwise (· < ·) ∧
      (∀ value, (value ∈ c.set.toList ↔ c.set.contains value) ∧
        c.set.search value = c.set.contains value) ∧
      (c.set.sizeInWords = some c.set.toList.length ∧ c.set.toList.length ≤ 4294967296) ∧
      (c.set.isEmpty ↔ c.set.toList = []) ∧
      c.set.min? = c.set.toList.head? ∧ c.set.max? = c.set.toList.getLast? := by
  have h := c.stored
  refine ⟨c.setInWords_eq, h.canonical.pairwise_toList,
    fun value => ⟨mem_toList, search_eq_contains h.canonical value⟩, ⟨?_, h.length_toList_le⟩,
    h.canonical.isEmpty_iff_toList, h.canonical.min?_eq, h.canonical.max?_eq⟩
  rw [h.sizeInWords_eq, length_toList]

example : (Construction.empty.insertRange Int32.minValue Int32.maxValue).set.sizeInWords =
    some 4294967296 := by decide +kernel

end IntervalSet

end TransitionNetwork
