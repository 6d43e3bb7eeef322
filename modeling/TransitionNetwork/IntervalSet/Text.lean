import TransitionNetwork.IntervalSet.Basic

/-!
# Text of interval sets

Intervals are written `start..stop`, or as one value where the bounds are equal, and separated
by commas. Braces enclose sets of more than one member and the empty set. The end of the input
and the end of a rule are written by name.
-/

namespace TransitionNetwork

/-- One token type: a reserved marker by name, any other by number. -/
def Token.text (value : TokenType) : String :=
  if value = Token.eof then "<EOF>"
  else if value = Token.epsilon then "<EPSILON>"
  else toString value

/-- One interval, a single value without its second bound. -/
def Interval.text (i : Interval) : String :=
  if i.stop = i.start then Token.text i.start
  else Token.text i.start ++ ".." ++ Token.text i.stop

/-- The intervals in order; braces enclose the empty set and sets of several members. -/
def IntervalSet.text (s : IntervalSet) : String :=
  let body := String.intercalate ", " (s.intervals.map Interval.text)
  if s.isEmpty || decide (1 < s.size) then "\x7b" ++ body ++ "\x7d" else body

end TransitionNetwork
