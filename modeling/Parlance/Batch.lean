import Parlance.Grammar
import Parlance.Keyed

/-!
Contract: many source units at once.

Owns: a batch of named texts, in which a name has one place, and the reading of all of them. A unit
that fails does not affect the others. Embeds `parse_many`.
-/

namespace Parlance

abbrev Batch := List (String × String)

namespace Batch

/-- The batch of a row of named texts, of which the last for each name counts. -/
def ofList (units : List (String × String)) : Batch :=
  units.foldl (fun batch unit => Keyed.put unit.1 unit.2 batch) []

/-- A number of readers at work, which has to be above zero if it is given. -/
def admits (workers : Option Int) : Bool :=
  match workers with
  | some count => decide (0 < count)
  | none => true

/-- The program of each unit or its failure, in order; nothing without anyone to read it. -/
def parse (workers : Option Int) (limit : Limit)
    (batch : Batch) : Option (List (String × Except Failure (Program Span))) :=
  if admits workers then some (batch.map fun unit => (unit.1, Program.ofText limit unit.2))
  else none

end Batch

end Parlance
