import Parlance.Decimal
import Parlance.Keyed
import Parlance.Toml.Moment

/-!
Contract: the values of a TOML document.

Owns: values, tables in the order of their keys, and the change of a table at a path of keys. A step
into an array of tables goes to its last table. Does not own: how documents are written.
-/

namespace Parlance.Toml

inductive Value where
  | string (text : String)
  | integer (value : Int)
  | decimal (value : Decimal)
  /-- More than any number, or less. -/
  | infinite (negative : Bool)
  /-- What is no number. -/
  | undefined
  | moment (value : Moment)
  | boolean (value : Bool)
  | array (items : List Value)
  | table (rows : List (String × Value))

inductive Fault where
  | malformed
  /-- A whole number has too many digits. -/
  | tooManyDigits
deriving DecidableEq, Repr

abbrev Table := List (String × Value)

namespace Table

def addNew (key : String) (value : Value) (table : Table) : Option Table :=
  match table.lookup key with
  | some _ => none
  | none => some (Keyed.put key value table)

def addToArray (key : String) (table : Table) : Option Table :=
  match table.lookup key with
  | none => some (Keyed.put key (.array [.table []]) table)
  | some (.array items) => some (Keyed.put key (.array (items ++ [.table []])) table)
  | some _ => none

/-- Changes the table at a path of keys. Tables that are missing on the way are created, and arrays
are entered at their last item if that is allowed. -/
def modify (enterArrays : Bool) (change : Table → Option Table) : List String → Table → Option Table
  | [], table => change table
  | key :: rest, table =>
    match table.lookup key with
    | none =>
      (modify enterArrays change rest []).map fun inner => Keyed.put key (.table inner) table
    | some (.table inner) =>
      (modify enterArrays change rest inner).map fun inner => Keyed.put key (.table inner) table
    | some (.array items) =>
      match enterArrays, items.getLast? with
      | true, some (.table inner) =>
        (modify enterArrays change rest inner).map fun inner =>
          Keyed.put key (.array (items.dropLast ++ [.table inner])) table
      | _, _ => none
    | some _ => none

end Table

end Parlance.Toml
