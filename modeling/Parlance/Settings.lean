import Parlance.Files
import Parlance.Grammar.Limit
import Parlance.Machine
import Parlance.Toml.Document

/-!
Contract: the settings that govern a source file.

Settings stand in a file of a fixed name; the nearest one at or above a place governs it, and
without any the standard settings do. Owns: the settings, how they are found and read, and what
a limit or a width of an unusual type means. Does not own: the file tree and the document format.
Embeds `find_config`, `load_config` and `config_for`.
-/

namespace Parlance

structure Settings where
  limit : Toml.Value
  width : Toml.Value

namespace Settings

def fileName : String := "concorde.toml"

def standard : Settings := ⟨.integer 32, .integer 2⟩

inductive Fault where
  /-- No settings file at or above the place. -/
  | missing
  /-- The settings file cannot be read. -/
  | unreadable (obstacle : Files.Obstacle)
  /-- The place cannot be looked up, because its path or a name in it is too long. -/
  | refused
  /-- The place has a name that nothing can have. -/
  | unnameable
  /-- The text is not a document. -/
  | document (fault : Toml.Fault)
  /-- A section is given as something other than a table. -/
  | noTable
deriving DecidableEq, Repr

def missingMessage : String :=
  "No " ++ fileName ++ " found in any parent directory"

def lookUp (table : Toml.Table) (sectionName : String) (key : String)
    (standard : Toml.Value) : Except Fault Toml.Value :=
  match table.lookup sectionName with
  | none => .ok standard
  | some (.table rows) => .ok ((rows.lookup key).getD standard)
  | some _ => .error .noTable

def ofTable (table : Toml.Table) : Except Fault Settings := do
  let limit ← lookUp table "parser" "max_depth" standard.limit
  let width ← lookUp table "format" "indent" standard.width
  return ⟨limit, width⟩

def ofText (text : String) : Except Fault Settings :=
  match Toml.Table.ofText text with
  | .ok table => ofTable table
  | .error fault => .error (.document fault)

/-- The path of the first settings file in a folder or above it, given the names from the innermost
folder outwards. -/
def searchUp (files : Files) : List String → Except Fault Path
  | [] =>
    match files.probe [fileName] with
    | .ok _ => .ok [fileName]
    | .error .refused => .error .refused
    | .error _ => .error .missing
  | name :: above =>
    let path := (name :: above).reverse ++ [fileName]
    match files.probe path with
    | .ok _ => .ok path
    | .error .refused => .error .refused
    | .error _ => searchUp files above

/-- The place that a written path means, seen from a folder, if it can mean one. -/
def locate (folder : Path) (text : String) : Except Fault Path :=
  if Path.isNameable text then .ok (Path.resolve folder text) else .error .unnameable

/-- The settings file that governs a place. A file is governed from its folder. -/
def find (files : Files) (place : Path) : Except Fault Path :=
  match files.probe place with
  | .ok (.file _) => searchUp files place.reverse.tail
  | .error .refused => .error .refused
  | _ => searchUp files place.reverse

def load (files : Files) (path : Path) : Except Fault Settings :=
  match files.read path with
  | .ok text => ofText text
  | .error .missing => .error .missing
  | .error obstacle => .error (.unreadable obstacle)

/-- The settings that govern a place, standard ones if there are none. -/
def governing (files : Files) (place : Path) : Except Fault Settings :=
  match find files place with
  | .error .missing => .ok standard
  | .error fault => .error fault
  | .ok path => load files path

end Settings

structure Incomparable where
  kind : String
deriving DecidableEq, Repr

def Incomparable.message (fault : Incomparable) : String :=
  "'>' not supported between instances of 'int' and '" ++ fault.kind ++ "'"

/-- A truth value as a limit of one level or none. -/
def Limit.ofBool (value : Bool) (capacity : Nat) : Limit :=
  if value then ⟨1, "True", capacity⟩ else ⟨0, "False", capacity⟩

/-- A limit that no number of levels is above, with the text it is shown by. -/
def Limit.unbounded (text : String) (capacity : Nat) : Limit :=
  ⟨capacity + 1, text, capacity⟩

/-- A decimal number as a limit, which counts whole levels only. -/
def Limit.ofDecimal (value : Decimal) (capacity : Nat) : Limit :=
  if value.negative then ⟨0, value.text, capacity⟩
  else
    match value.size.whole? with
    | some levels => ⟨levels, value.text, capacity⟩
    | none => .unbounded value.text capacity

def momentKind : Toml.Moment → String
  | .date _ => "datetime.date"
  | .time _ => "datetime.time"
  | .dateTime .. => "datetime.datetime"

/-- The limit that the settings give. Whole and decimal numbers and truth values can be compared
with a number of levels, and so can what is infinite or no number. -/
def Settings.nesting (machine : Machine) (settings : Settings) : Except Incomparable Limit :=
  match settings.limit with
  | .integer value => .ok (.ofInt value machine.levels)
  | .boolean value => .ok (.ofBool value machine.levels)
  | .decimal value => .ok (.ofDecimal value machine.levels)
  | .infinite true => .ok ⟨0, "-inf", machine.levels⟩
  | .infinite false => .ok (.unbounded "inf" machine.levels)
  | .undefined => .ok (.unbounded "nan" machine.levels)
  | .moment value => .error ⟨momentKind value⟩
  | .string _ => .error ⟨"str"⟩
  | .array _ => .error ⟨"list"⟩
  | .table _ => .error ⟨"dict"⟩

def Settings.indentation? (settings : Settings) : Option Int :=
  match settings.width with
  | .integer value => some value
  | .boolean value => some (if value then 1 else 0)
  | _ => none

end Parlance
