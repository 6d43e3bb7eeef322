import Mathlib.Data.Set.Insert
import TransitionNetwork.Proofs.IntervalSet.Words

/-!
# What interval sets denote

A construction is any composition of the operations on sets, from the empty set and with any words
as arguments: inverted ranges and the extremes included. Each denotes a set of integers through
the corresponding unions and differences. Along every construction the intervals stay canonical,
the operations in words do not overflow and agree with those among integers, and both ways of
asking for a member answer for the denoted set.
-/

namespace TransitionNetwork

namespace IntervalSet

/-- A composition of operations on sets; the arguments are words. -/
inductive Construction where
  | empty
  | insert (c : Construction) (value : Int32)
  | insertRange (c : Construction) (start stop : Int32)
  | union (c d : Construction)
  | erase (c : Construction) (value : Int32)
  | eraseRange (c : Construction) (start stop : Int32)
  | subtract (c d : Construction)
  | complement (c vocabulary : Construction)
  | ofList (values : List Int32)

namespace Construction

/-- The set that the operations build. -/
def set : Construction → IntervalSet
  | empty => IntervalSet.empty
  | insert c value => c.set.insert value.toInt
  | insertRange c start stop => c.set.insertRange start.toInt stop.toInt
  | union c d => c.set.union d.set
  | erase c value => c.set.erase value.toInt
  | eraseRange c start stop => c.set.eraseRange start.toInt stop.toInt
  | subtract c d => c.set.subtract d.set
  | complement c vocabulary => c.set.complement vocabulary.set
  | ofList values => IntervalSet.ofList (values.map Int32.toInt)

/-- The set that the operations in words build, or an overflow. -/
def setInWords : Construction → Option IntervalSet
  | empty => some IntervalSet.empty
  | insert c value => do return (← c.setInWords).insertRangeInWords value.toInt value.toInt
  | insertRange c start stop =>
    do return (← c.setInWords).insertRangeInWords start.toInt stop.toInt
  | union c d => do return (← c.setInWords).unionInWords (← d.setInWords)
  | erase c value => do (← c.setInWords).eraseRangeInWords value.toInt value.toInt
  | eraseRange c start stop => do (← c.setInWords).eraseRangeInWords start.toInt stop.toInt
  | subtract c d => do (← c.setInWords).subtractInWords (← d.setInWords)
  | complement c vocabulary => do
    let s ← c.setInWords
    (← vocabulary.setInWords).subtractInWords s
  | ofList values => some (ofListInWords (values.map Int32.toInt))

/-- The integers that a construction denotes. -/
def members : Construction → Set Int
  | empty => ∅
  | insert c value => c.members ∪ {value.toInt}
  | insertRange c start stop => c.members ∪ {member | start.toInt ≤ member ∧ member ≤ stop.toInt}
  | union c d => c.members ∪ d.members
  | erase c value => c.members \ {value.toInt}
  | eraseRange c start stop => c.members \ {member | start.toInt ≤ member ∧ member ≤ stop.toInt}
  | subtract c d => c.members \ d.members
  | complement c vocabulary => vocabulary.members \ c.members
  | ofList values => {member | ∃ value ∈ values, value.toInt = member}

/-- The value of a word is an integer that 32 bits hold. -/
theorem holds_toInt (value : Int32) : Word.Holds value.toInt := by
  have := value.le_toInt
  have := value.toInt_lt
  rw [Word.Holds, Word.least, Word.greatest]
  lia

/-- The values of words are integers that 32 bits hold. -/
theorem holds_of_mem_map (values : List Int32) :
    ∀ value ∈ values.map Int32.toInt, Word.Holds value := by
  intro value hvalue
  obtain ⟨word, -, rfl⟩ := List.mem_map.mp hvalue
  exact holds_toInt word

/-- Every construction stores its intervals. -/
theorem stored (c : Construction) : c.set.Stored := by
  induction c with
  | empty => exact Stored.empty
  | insert c value ih => exact ih.insertRange (holds_toInt value) (holds_toInt value)
  | insertRange c start stop ih => exact ih.insertRange (holds_toInt start) (holds_toInt stop)
  | union c d ihc ihd => exact ihc.union ihd
  | erase c value ih => exact ih.eraseRange value.toInt value.toInt
  | eraseRange c start stop ih => exact ih.eraseRange start.toInt stop.toInt
  | subtract c d ihc ihd => exact (ihc.subtractInWords_eq d.set).2
  | complement c vocabulary ihc ihv => exact (ihv.subtractInWords_eq c.set).2
  | ofList values => exact (ofListInWords_eq (holds_of_mem_map values)).2

/-- No operation of a construction overflows, and in words it gives the same set. -/
theorem setInWords_eq (c : Construction) : c.setInWords = some c.set := by
  induction c with
  | empty => rfl
  | insert c value ih =>
    rw [setInWords, ih, set, IntervalSet.insert,
      ← c.stored.insertRangeInWords_eq (holds_toInt value) (holds_toInt value)]
    rfl
  | insertRange c start stop ih =>
    rw [setInWords, ih, set,
      ← c.stored.insertRangeInWords_eq (holds_toInt start) (holds_toInt stop)]
    rfl
  | union c d ihc ihd =>
    rw [setInWords, ihc, ihd, set, ← c.stored.unionInWords_eq d.stored]
    rfl
  | erase c value ih =>
    rw [setInWords, ih, set, IntervalSet.erase, ← c.stored.eraseRangeInWords_eq]
    rfl
  | eraseRange c start stop ih =>
    rw [setInWords, ih, set, ← c.stored.eraseRangeInWords_eq]
    rfl
  | subtract c d ihc ihd =>
    rw [setInWords, ihc, ihd, set, ← (c.stored.subtractInWords_eq d.set).1]
    rfl
  | complement c vocabulary ihc ihv =>
    rw [setInWords, ihc, ihv, set, IntervalSet.complement,
      ← (vocabulary.stored.subtractInWords_eq c.set).1]
    rfl
  | ofList values =>
    rw [setInWords, set]
    exact congrArg some (ofListInWords_eq (holds_of_mem_map values)).1

/-- A construction has the members it denotes. -/
theorem contains_set_iff (c : Construction) (value : Int) :
    c.set.contains value ↔ value ∈ c.members := by
  induction c with
  | empty => simp [set, members, IntervalSet.contains, IntervalSet.empty]
  | insert c added ih =>
    rw [set, contains_insert c.stored.canonical, ih, members, Set.mem_union, or_comm,
      Set.mem_singleton_iff]
  | insertRange c start stop ih =>
    rw [set, contains_insertRange c.stored.canonical, ih, members, Set.mem_union, or_comm,
      Set.mem_ofPred_eq]
  | union c d ihc ihd =>
    rw [set, contains_union c.stored.canonical, ihc, ihd, members, Set.mem_union]
  | erase c removed ih =>
    rw [set, contains_erase, ih, members, Set.mem_sdiff, Set.mem_singleton_iff]
  | eraseRange c start stop ih =>
    rw [set, contains_eraseRange, ih, members, Set.mem_sdiff, Set.mem_ofPred_eq]
  | subtract c d ihc ihd => rw [set, contains_subtract, ihc, ihd, members, Set.mem_sdiff]
  | complement c vocabulary ihc ihv =>
    rw [set, contains_complement, ihc, ihv, members, Set.mem_sdiff]
  | ofList values => rw [set, contains_ofList, List.mem_map, members, Set.mem_ofPred_eq]

/-- Every construction keeps its intervals canonical, overflows nowhere and has exactly the
members it denotes, also when they are looked up by halving. -/
theorem canonical_and_exact (c : Construction) :
    Canonical c.set.intervals ∧
      (∀ i ∈ c.set.intervals, Word.Holds i.start ∧ Word.Holds i.stop) ∧
      c.setInWords = some c.set ∧
      ∀ value, (c.set.contains value ↔ value ∈ c.members) ∧
        c.set.search value = c.set.contains value :=
  ⟨c.stored.canonical, fun _ hi => c.stored.holds hi, c.setInWords_eq, fun value =>
    ⟨c.contains_set_iff value, search_eq_contains c.stored.canonical value⟩⟩

example : ((empty.insertRange Int32.minValue Int32.maxValue).erase 0).setInWords =
    some ⟨[⟨-2147483648, -1⟩, ⟨1, 2147483647⟩]⟩ := by decide +kernel

end Construction

end IntervalSet

end TransitionNetwork
