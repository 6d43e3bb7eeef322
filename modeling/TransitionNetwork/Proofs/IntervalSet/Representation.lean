import Mathlib.Data.List.Perm.Basic
import Mathlib.Order.BooleanAlgebra.Set
import TransitionNetwork.Proofs.IntervalSet.Constructions

/-!
# One representation of each interval set

Comparing two sets compares their interval lists. For sets that operations build this compares
their members: stored intervals are canonical, and no member is out of the range of words. So every
law about the denoted sets of integers is an equation between interval lists, and the order in which
ranges are added leaves no mark on them.
-/

namespace TransitionNetwork

/-- An integer that 32 bits hold is the value of a word. -/
theorem Word.Holds.exists_toInt_eq {value : Int} (h : Word.Holds value) :
    ∃ word : Int32, word.toInt = value := by
  rw [Word.Holds, Word.least, Word.greatest] at h
  exact ⟨Int32.ofInt value, Int32.toInt_ofInt_of_le (by lia) (by lia)⟩

namespace IntervalSet

/-- The members of a stored set are words. -/
theorem Stored.holds_of_contains {s : IntervalSet} (h : s.Stored) {value : TokenType}
    (hvalue : s.contains value) : Word.Holds value := by
  obtain ⟨i, hi, hbetween⟩ := List.any_eq_true.mp hvalue
  rw [Interval.contains, Bool.and_eq_true, decide_eq_true_eq, decide_eq_true_eq] at hbetween
  have hbounds := h.words i hi
  rw [Word.Holds]
  lia

/-- Stored sets in which the same words are found are equal. -/
theorem Stored.ext_contains {s t : IntervalSet} (hs : s.Stored) (ht : t.Stored)
    (h : ∀ value : Int32, s.contains value.toInt = t.contains value.toInt) : s = t := by
  apply hs.canonical.ext_contains ht.canonical
  intro value
  constructor
  · intro hvalue
    obtain ⟨word, rfl⟩ := (hs.holds_of_contains hvalue).exists_toInt_eq
    rwa [← h]
  · intro hvalue
    obtain ⟨word, rfl⟩ := (ht.holds_of_contains hvalue).exists_toInt_eq
    rwa [h]

/-- The values of both sets: what removing the rest leaves of the first. -/
def common (s t : IntervalSet) : IntervalSet := s.subtract (s.subtract t)

/-- Add the values of several ranges, one range after the other. -/
def insertRanges (s : IntervalSet) (ranges : List (Int32 × Int32)) : IntervalSet :=
  ranges.foldl (fun u range => u.insertRange range.1.toInt range.2.toInt) s

/-- The laws of union, difference and complement in a vocabulary, as equal interval lists. -/
structure SetLaws (s t u : IntervalSet) : Prop where
  union_comm : (s.union t == t.union s) = true
  union_assoc : ((s.union t).union u == s.union (t.union u)) = true
  union_self : (s.union s == s) = true
  union_empty : (s.union ∅ == s) = true
  subtract_self : (s.subtract s == ∅) = true
  subtract_empty : (s.subtract ∅ == s) = true
  empty_subtract : (subtract ∅ s == ∅) = true
  subtract_comm : ((s.subtract t).subtract u == (s.subtract u).subtract t) = true
  subtract_union : (s.subtract (t.union u) == (s.subtract t).subtract u) = true
  subtract_subtract : (s.subtract (t.subtract u) == (s.subtract t).union (s.common u)) = true
  union_subtract : ((s.union t).subtract u == (s.subtract u).union (t.subtract u)) = true
  subtract_union_self : ((s.subtract t).union t == s.union t) = true
  common_comm : (s.common t == t.common s) = true
  common_assoc : ((s.common t).common u == s.common (t.common u)) = true
  common_union : (s.common (t.union u) == (s.common t).union (s.common u)) = true
  union_common : (s.union (t.common u) == (s.union t).common (s.union u)) = true
  common_union_self : (s.common (s.union t) == s) = true
  union_common_self : (s.union (s.common t) == s) = true
  common_complement : (s.common (s.complement u) == ∅) = true
  union_complement : (s.union (s.complement u) == s.union u) = true
  complement_complement : ((s.complement u).complement u == s.common u) = true
  complement_union : ((s.union t).complement u == (s.complement u).common (t.complement u)) = true
  complement_common : ((s.common t).complement u == (s.complement u).union (t.complement u)) = true

namespace Construction

/-! ## Equality -/

/-- Constructions that denote the same integers build the same interval list. -/
theorem set_eq_iff {c d : Construction} : c.set = d.set ↔ c.members = d.members := by
  constructor
  · intro h
    ext value
    rw [← c.contains_set_iff, ← d.contains_set_iff, h]
  · intro h
    apply c.stored.canonical.ext_contains d.stored.canonical
    intro value
    rw [c.contains_set_iff, d.contains_set_iff, h]

/-- Constructions of the same integers build sets with equal interval lists. -/
theorem beq_of_members_eq {c d : Construction} (h : c.members = d.members) :
    (c.set == d.set) = true := beq_iff_eq.mpr (set_eq_iff.mpr h)

/-- Sets are compared by the words that are found in them. -/
theorem set_beq_iff {c d : Construction} : (c.set == d.set) = true ↔
    ∀ value : Int32, c.set.contains value.toInt = d.set.contains value.toInt := by
  rw [beq_iff_eq]
  exact ⟨fun h value => by rw [h], c.stored.ext_contains d.stored⟩

/-! ## Laws -/

/-- The values of both sets as a construction. -/
def common (c d : Construction) : Construction := .subtract c (.subtract c d)

/-- Removing what removing leaves denotes the integers of both. -/
theorem members_common (c d : Construction) : (c.common d).members = c.members ∩ d.members :=
  Set.sdiff_sdiff_right_self c.members d.members

/-- What constructions build obeys the laws of sets. -/
theorem setLaws (c d e : Construction) : SetLaws c.set d.set e.set where
  union_comm := beq_of_members_eq (c := .union c d) (d := .union d c) (Set.union_comm _ _)
  union_assoc := beq_of_members_eq (c := .union (.union c d) e) (d := .union c (.union d e))
    (Set.union_assoc _ _ _)
  union_self := beq_of_members_eq (c := .union c c) (d := c) (Set.union_self _)
  union_empty := beq_of_members_eq (c := .union c .empty) (d := c) (Set.union_empty _)
  subtract_self := beq_of_members_eq (c := .subtract c c) (d := .empty) Set.sdiff_self
  subtract_empty := beq_of_members_eq (c := .subtract c .empty) (d := c) Set.sdiff_empty
  empty_subtract := beq_of_members_eq (c := .subtract .empty c) (d := .empty) (Set.empty_sdiff _)
  subtract_comm := beq_of_members_eq (c := .subtract (.subtract c d) e)
    (d := .subtract (.subtract c e) d) Set.sdiff_sdiff_comm
  subtract_union := beq_of_members_eq (c := .subtract c (.union d e))
    (d := .subtract (.subtract c d) e) Set.sdiff_sdiff.symm
  subtract_subtract := beq_of_members_eq (c := .subtract c (.subtract d e))
    (d := .union (.subtract c d) (common c e)) (by
      rw [members, members, members, members, members_common, Set.sdiff_sdiff_right])
  union_subtract := beq_of_members_eq (c := .subtract (.union c d) e)
    (d := .union (.subtract c e) (.subtract d e)) Set.union_sdiff_distrib
  subtract_union_self := beq_of_members_eq (c := .union (.subtract c d) d) (d := .union c d)
    Set.sdiff_union_self
  common_comm := beq_of_members_eq (c := common c d) (d := common d c) (by
    rw [members_common, members_common, Set.inter_comm])
  common_assoc := beq_of_members_eq (c := common (common c d) e) (d := common c (common d e)) (by
    rw [members_common, members_common, members_common, members_common, Set.inter_assoc])
  common_union := beq_of_members_eq (c := common c (.union d e))
    (d := .union (common c d) (common c e)) (by
      rw [members_common, members, members, members_common, members_common,
        Set.inter_union_distrib_left])
  union_common := beq_of_members_eq (c := .union c (common d e))
    (d := common (.union c d) (.union c e)) (by
      rw [members_common, members, members, members, members_common, Set.union_inter_distrib_left])
  common_union_self := beq_of_members_eq (c := common c (.union c d)) (d := c) (by
    rw [members_common, members]
    exact Set.inter_eq_left.mpr Set.subset_union_left)
  union_common_self := beq_of_members_eq (c := .union c (common c d)) (d := c) (by
    rw [members, members_common]
    exact Set.union_eq_left.mpr Set.inter_subset_left)
  common_complement := beq_of_members_eq (c := common c (.complement c e)) (d := .empty) (by
    rw [members_common, members, members, Set.inter_sdiff_self])
  union_complement := beq_of_members_eq (c := .union c (.complement c e)) (d := .union c e)
    Set.union_sdiff_self
  complement_complement := beq_of_members_eq (c := .complement (.complement c e) e)
    (d := common c e) (by
      rw [members_common, members, members, Set.sdiff_sdiff_right_self, Set.inter_comm])
  complement_union := beq_of_members_eq (c := .complement (.union c d) e)
    (d := common (.complement c e) (.complement d e)) (by
      rw [members_common, members, members, members, members, Set.sdiff_inter_sdiff])
  complement_common := beq_of_members_eq (c := .complement (common c d) e)
    (d := .union (.complement c e) (.complement d e)) (by
      rw [members, members, members, members, members_common, Set.sdiff_inter])

/-! ## Order of additions -/

/-- Several ranges added one after the other, as a construction. -/
def insertRanges (c : Construction) (ranges : List (Int32 × Int32)) : Construction :=
  ranges.foldl (fun d range => .insertRange d range.1 range.2) c

/-- Ranges are added to the set that is built so far. -/
theorem set_insertRanges (c : Construction) (ranges : List (Int32 × Int32)) :
    (c.insertRanges ranges).set = c.set.insertRanges ranges := by
  rw [insertRanges, IntervalSet.insertRanges]
  induction ranges generalizing c with
  | nil => rfl
  | cons range rest ih => exact ih (.insertRange c range.1 range.2)

/-- The added integers are those of some range. -/
theorem mem_members_insertRanges {c : Construction} {ranges : List (Int32 × Int32)} {value : Int} :
    value ∈ (c.insertRanges ranges).members ↔ value ∈ c.members ∨
      ∃ range ∈ ranges, range.1.toInt ≤ value ∧ value ≤ range.2.toInt := by
  rw [insertRanges]
  induction ranges generalizing c with
  | nil => simp
  | cons range rest ih =>
    rw [List.foldl_cons, ih, members, Set.mem_union, Set.mem_ofPred_eq, or_assoc]
    simp only [List.mem_cons, or_and_right, exists_or, exists_eq_left]

/-- Adding the same ranges in any order gives one interval list. -/
theorem insertRanges_perm (c : Construction) {ranges ranges' : List (Int32 × Int32)}
    (hperm : ranges.Perm ranges') :
    (c.set.insertRanges ranges == c.set.insertRanges ranges') = true := by
  rw [← set_insertRanges, ← set_insertRanges]
  apply beq_of_members_eq
  ext value
  rw [mem_members_insertRanges, mem_members_insertRanges]
  simp only [hperm.mem_iff]

/-! ## The representation -/

/-- Sets that operations build are equal exactly if the same words are found in them, and so exactly
if they denote the same integers. Hence the laws of sets hold of them as equations, and ranges can
be added in any order. -/
theorem one_representation (c d e : Construction) {ranges ranges' : List (Int32 × Int32)}
    (hperm : ranges.Perm ranges') :
    ((c.set == d.set) = true ↔
        ∀ value : Int32, c.set.contains value.toInt = d.set.contains value.toInt) ∧
      ((c.set == d.set) = true ↔ c.members = d.members) ∧
      (c.setInWords = d.setInWords ↔ c.members = d.members) ∧
      SetLaws c.set d.set e.set ∧
      (c.set.insertRanges ranges == c.set.insertRanges ranges') = true := by
  refine ⟨set_beq_iff, ?_, ?_, setLaws c d e, c.insertRanges_perm hperm⟩
  · rw [beq_iff_eq, set_eq_iff]
  · rw [c.setInWords_eq, d.setInWords_eq, Option.some.injEq, set_eq_iff]

/-- Ranges on both sides of zero, and then zero between them or in front. -/
theorem one_representation_zero :
    [(Int32.minValue, -1), (1, Int32.maxValue), (0, 0)].Perm
        [(0, 0), (Int32.minValue, -1), (1, Int32.maxValue)] ∧
      (IntervalSet.empty.insertRanges [(Int32.minValue, -1), (1, Int32.maxValue), (0, 0)] ==
        IntervalSet.empty.insertRanges [(0, 0), (Int32.minValue, -1), (1, Int32.maxValue)]) =
          true :=
  ⟨by decide, (one_representation empty empty empty (by decide)).2.2.2.2⟩

example : IntervalSet.empty.insertRanges [(Int32.minValue, -1), (1, Int32.maxValue), (0, 0)] =
    ⟨[⟨-2147483648, 2147483647⟩]⟩ := by decide +kernel

end Construction

end IntervalSet

end TransitionNetwork
