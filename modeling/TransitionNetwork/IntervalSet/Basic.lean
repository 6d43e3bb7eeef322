import TransitionNetwork.Token

/-!
# Sets of token types as intervals

A set of token types is a list of inclusive intervals. Every operation that starts from the
empty set keeps the list ascending, disjoint and coalesced, with at least one absent value
between neighbouring intervals, so that equal sets have equal lists. Values are unbounded
integers. A stored bound is a given one, or lies next to a given one on the inner side of the
interval, so sets of 32-bit values have 32-bit bounds.
-/

namespace TransitionNetwork

/-- The values from `start` to `stop`, both included; none if `stop < start`. -/
structure Interval where
  start : TokenType
  stop : TokenType
  deriving DecidableEq

namespace Interval

/-- Whether a value lies between the bounds. -/
def contains (i : Interval) (value : TokenType) : Bool :=
  decide (i.start ≤ value) && decide (value ≤ i.stop)

/-- The number of values, zero for an inverted interval. -/
def size (i : Interval) : Nat := (i.stop - i.start + 1).toNat

/-- Whether the bounds are inverted. -/
def isEmpty (i : Interval) : Bool := decide (i.stop < i.start)

/-- The first `count` values in ascending order, or all of them if there are fewer. -/
def first (count : Nat) (i : Interval) : List TokenType :=
  (List.range (min count i.size)).map fun (k : Nat) => i.start + (k : Int)

/-- Every value in ascending order. -/
def toList (i : Interval) : List TokenType :=
  (List.range i.size).map fun (k : Nat) => i.start + (k : Int)

/-- What is left of an interval without the values from `start` to `stop`: itself, one side,
both sides or nothing. -/
def without (i : Interval) (start stop : TokenType) : List Interval :=
  if i.stop < start ∨ stop < i.start then [i]
  else
    (if i.start < start then [⟨i.start, start - 1⟩] else []) ++
      (if stop < i.stop then [⟨stop + 1, i.stop⟩] else [])

end Interval

/-- A set of token types, kept as ascending, disjoint, coalesced intervals. -/
structure IntervalSet where
  intervals : List Interval
  deriving DecidableEq

namespace IntervalSet

/-- The set without members. -/
def empty : IntervalSet := ⟨[]⟩

instance : EmptyCollection IntervalSet := ⟨empty⟩

instance : Inhabited IntervalSet := ⟨empty⟩

/-- Put `start..stop` into ascending intervals, absorbing those that overlap it or touch it. -/
def insertInterval (start stop : TokenType) : List Interval → List Interval
  | [] => [⟨start, stop⟩]
  | i :: rest =>
    if i.stop < start - 1 then i :: insertInterval start stop rest
    else if i.start ≤ stop + 1 then insertInterval (min start i.start) (max stop i.stop) rest
    else ⟨start, stop⟩ :: i :: rest

/-- Add the values from `start` to `stop`; an inverted range adds nothing. -/
def insertRange (s : IntervalSet) (start stop : TokenType) : IntervalSet :=
  if stop < start then s else ⟨insertInterval start stop s.intervals⟩

/-- Add one value. -/
def insert (s : IntervalSet) (value : TokenType) : IntervalSet := s.insertRange value value

/-- The set of one value. -/
def singleton (value : TokenType) : IntervalSet := empty.insert value

/-- The set of the values from `start` to `stop`. -/
def ofRange (start stop : TokenType) : IntervalSet := empty.insertRange start stop

/-- The set of the listed values. -/
def ofList (values : List TokenType) : IntervalSet := values.foldl insert empty

/-- The set of the values of the listed intervals. -/
def ofIntervals (intervals : List Interval) : IntervalSet :=
  intervals.foldl (fun s i => s.insertRange i.start i.stop) empty

/-- The values of either set. -/
def union (s t : IntervalSet) : IntervalSet :=
  t.intervals.foldl (fun u i => u.insertRange i.start i.stop) s

/-- Remove the values from `start` to `stop`; an inverted range removes nothing. -/
def eraseRange (s : IntervalSet) (start stop : TokenType) : IntervalSet :=
  if stop < start then s else ⟨s.intervals.flatMap (·.without start stop)⟩

/-- Remove one value. -/
def erase (s : IntervalSet) (value : TokenType) : IntervalSet := s.eraseRange value value

/-- The values of the first set that are not in the second. -/
def subtract (s t : IntervalSet) : IntervalSet :=
  t.intervals.foldl (fun u i => u.eraseRange i.start i.stop) s

/-- The values of a vocabulary that are not in the set. -/
def complement (s vocabulary : IntervalSet) : IntervalSet := vocabulary.subtract s

/-- Whether a value is a member. -/
def contains (s : IntervalSet) (value : TokenType) : Bool :=
  s.intervals.any (·.contains value)

/-- The number of members. -/
def size (s : IntervalSet) : Nat := s.intervals.foldr (fun i n => i.size + n) 0

/-- Whether there are no members. -/
def isEmpty (s : IntervalSet) : Bool := s.intervals.isEmpty

/-- The least member. -/
def min? (s : IntervalSet) : Option TokenType := s.intervals.head?.map Interval.start

/-- The greatest member. -/
def max? (s : IntervalSet) : Option TokenType := s.intervals.getLast?.map Interval.stop

/-- Every member in ascending order. -/
def toList (s : IntervalSet) : List TokenType := s.intervals.flatMap Interval.toList

/-- The first `count` values of a list of intervals. -/
def firstOf : Nat → List Interval → List TokenType
  | _, [] => []
  | count, i :: rest => i.first count ++ firstOf (count - i.size) rest

/-- The first `count` members in ascending order, found without listing the others. -/
def first (count : Nat) (s : IntervalSet) : List TokenType := firstOf count s.intervals

/-- Listing a limited number of values is the start of listing all of them. -/
theorem firstOf_eq_take (count : Nat) (intervals : List Interval) :
    firstOf count intervals = (intervals.flatMap Interval.toList).take count := by
  induction intervals generalizing count with
  | nil => simp [firstOf]
  | cons i rest ih =>
    simp [firstOf, ih, List.take_append, Interval.toList, Interval.first, ← List.map_take,
      List.take_range]

/-- The first members are those with which the list of all members begins. -/
theorem first_eq_take (count : Nat) (s : IntervalSet) : s.first count = s.toList.take count :=
  firstOf_eq_take count s.intervals

end IntervalSet

end TransitionNetwork
