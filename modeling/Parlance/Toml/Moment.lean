/-!
Contract: dates and times of day.

Owns: the fields of a moment and which dates there are. A date has a year from one on and a day that
its month has in that year. Does not own: how moments are written.
-/

namespace Parlance.Toml

structure Date where
  year : Nat
  month : Nat
  day : Nat
deriving DecidableEq, Repr

structure Clock where
  hour : Nat
  minute : Nat
  second : Nat
  millionths : Nat
deriving DecidableEq, Repr

/-- A date, a time of day, or both, then perhaps with minutes ahead of universal time. -/
inductive Moment where
  | date (date : Date)
  | time (time : Clock)
  | dateTime (date : Date) (time : Clock) (ahead : Option Int)
deriving DecidableEq, Repr

namespace Date

/-- Whether a year has a day more than others: every fourth does, but of full centuries only every
fourth. -/
def isLong (year : Nat) : Bool :=
  year % 4 == 0 && (year % 100 != 0 || year % 400 == 0)

def daysIn (year : Nat) (month : Nat) : Nat :=
  if month == 2 then (if isLong year then 29 else 28)
  else if month == 4 || month == 6 || month == 9 || month == 11 then 30
  else 31

def isReal (date : Date) : Bool :=
  1 ≤ date.year && 1 ≤ date.day && date.day ≤ daysIn date.year date.month

end Date

end Parlance.Toml
