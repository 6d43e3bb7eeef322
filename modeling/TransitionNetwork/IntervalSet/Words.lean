import TransitionNetwork.IntervalSet.Basic

/-!
# Interval sets in 32-bit words

The operations on interval sets as they run on sorted storage and 32-bit bounds. The place of a
value is found by halving, so the result means something only for ascending intervals. Next to an
added range the bounds saturate; next to a removed range they are computed as they are, and a
bound that is not a word is an overflow, `none`. Members are counted in 64 bits.
-/

namespace TransitionNetwork

namespace Word

/-- The least 32-bit value. -/
def least : Int := -2147483648

/-- The greatest 32-bit value. -/
def greatest : Int := 2147483647

/-- The word nearest to an integer: what saturating arithmetic gives. -/
def saturate (value : Int) : Int := max least (min value greatest)

/-- An integer that is a word; `none` is an overflow. -/
def check (value : Int) : Option Int :=
  if least ≤ value ∧ value ≤ greatest then some value else none

/-- An integer that is a signed word of 64 bits; `none` is an overflow. -/
def checkLong (value : Int) : Option Int :=
  if -9223372036854775808 ≤ value ∧ value ≤ 9223372036854775807 then some value else none

/-- A count that is an unsigned word of 64 bits; `none` is an overflow. -/
def checkCount (count : Nat) : Option Nat :=
  if count ≤ 18446744073709551615 then some count else none

/-- An index that a signed word holds; `none` is a conversion that saturates. -/
def checkIndex (index : Nat) : Option Nat := if (index : Int) ≤ greatest then some index else none

/-- The difference of two counts; `none` is an underflow. -/
def subtract (count less : Nat) : Option Nat := if less ≤ count then some (count - less) else none

end Word

/-- The number of values, from bounds that are widened first; zero for an inverted interval. -/
def Interval.sizeInWords (i : Interval) : Option Nat := do
  let distance ← Word.checkLong (i.stop - i.start)
  let count ← Word.checkLong (distance + 1)
  return count.toNat

/-- What is left of an interval without the values from `start` to `stop`, or an overflow in the
bounds next to them. -/
def Interval.withoutInWords (i : Interval) (start stop : TokenType) : Option (List Interval) :=
  if i.stop < start ∨ stop < i.start then some [i]
  else do
    let before ←
      (if i.start < start then (Word.check (start - 1)).map ([⟨i.start, ·⟩]) else some [])
    let behind ← (if stop < i.stop then (Word.check (stop + 1)).map ([⟨·, i.stop⟩]) else some [])
    return before ++ behind

namespace IntervalSet

/-- Halve the window from `lo` to `hi` until no interval is in doubt: those in front of the window
satisfy the test, those behind it do not. -/
def boundaryWithin (test : Interval → Bool) (intervals : List Interval) (lo hi : Nat) : Nat :=
  if lo < hi then
    let mid := lo + (hi - lo) / 2
    if (intervals[mid]?).any test then boundaryWithin test intervals (mid + 1) hi
    else boundaryWithin test intervals lo mid
  else lo
termination_by hi - lo

/-- The number of intervals that satisfy a test, if they all stand in front of the others. -/
def boundary (test : Interval → Bool) (intervals : List Interval) : Nat :=
  boundaryWithin test intervals 0 intervals.length

/-- Let a range grow by the intervals it reaches, and return it with those behind it. -/
def absorb (start stop : TokenType) : List Interval → Interval × List Interval
  | [] => (⟨start, stop⟩, [])
  | i :: rest =>
    if i.start ≤ Word.saturate (stop + 1) then absorb (min start i.start) (max stop i.stop) rest
    else (⟨start, stop⟩, i :: rest)

/-- Add the values from `start` to `stop` behind the intervals that end in front of them. -/
def insertRangeInWords (s : IntervalSet) (start stop : TokenType) : IntervalSet :=
  if stop < start then s
  else
    let place := boundary (fun i => decide (i.stop < Word.saturate (start - 1))) s.intervals
    let (grown, behind) := absorb start stop (s.intervals.drop place)
    ⟨s.intervals.take place ++ grown :: behind⟩

/-- Add the values from `start` to `stop`; `none` is a place behind the end of the storage. -/
def insertRangeInBounds (s : IntervalSet) (start stop : TokenType) : Option IntervalSet :=
  let place := boundary (fun i => decide (i.stop < Word.saturate (start - 1))) s.intervals
  if stop < start ∨ place ≤ s.intervals.length then some (s.insertRangeInWords start stop) else none

/-- The set of the values of the listed intervals. -/
def ofIntervalsInBounds (intervals : List Interval) : Option IntervalSet :=
  intervals.foldlM (fun s i => s.insertRangeInBounds i.start i.stop) empty

/-- The values of either set. -/
def unionInWords (s t : IntervalSet) : IntervalSet :=
  t.intervals.foldl (fun u i => u.insertRangeInWords i.start i.stop) s

/-- The set of the listed values. -/
def ofListInWords (values : List TokenType) : IntervalSet :=
  values.foldl (fun s value => s.insertRangeInWords value value) empty

/-- Remove the values from `start` to `stop`, or report an overflow. -/
def eraseRangeInWords (s : IntervalSet) (start stop : TokenType) : Option IntervalSet :=
  if stop < start then some s
  else (s.intervals.mapM fun i : Interval => i.withoutInWords start stop).map (⟨·.flatten⟩)

/-- The values of the first set that are not in the second, or an overflow. -/
def subtractInWords (s t : IntervalSet) : Option IntervalSet :=
  t.intervals.foldlM (fun u i => u.eraseRangeInWords i.start i.stop) s

/-- The number of members, summed in order, or an overflow. -/
def sizeInWords (s : IntervalSet) : Option Nat :=
  s.intervals.foldlM (fun n i => do Word.checkCount (n + (← i.sizeInWords))) 0

/-- Whether a value is a member, found by halving. -/
def search (s : IntervalSet) (value : TokenType) : Bool :=
  (s.intervals[boundary (fun i => decide (i.stop < value)) s.intervals]?).any (·.contains value)

end IntervalSet

end TransitionNetwork
