import Parlance.Diagnostic
import Parlance.Text.Lines

/-!
Contract: the source lines that diagnostics are shown against.

A file's text is either registered or looked up when a diagnostic first needs it. What was found
then is kept, also when nothing was found; only registering a text replaces it. Owns: the texts seen
so far and the rendering against them. Does not own: the look-up itself. Embeds `add_source` and
`_get_source_line`.
-/

namespace Parlance

/-- The lines of the files seen so far, by name. -/
structure Sources where
  known : List (String × List (List Char))

namespace Sources

def empty : Sources := ⟨[]⟩

def get? (sources : Sources) (file : String) : Option (List (List Char)) :=
  sources.known.lookup file

def put (sources : Sources) (file : String) (lines : List (List Char)) : Sources :=
  ⟨(file, lines) :: sources.known⟩

def add (sources : Sources) (file : String) (text : String) : Sources :=
  sources.put file (Text.lines text.toList)

/-- The lines of a file that has not been seen, from what a look-up finds under its name. -/
def found (text : Option String) : List (List Char) :=
  match text with
  | some text => Text.lines text.toList
  | none => []

/-- Makes sure that a file has been seen. A look-up that fails leaves it unseen. -/
def visit {ε : Type} (lookUp : String → Except ε (Option String)) (sources : Sources)
    (file : String) : Except ε Sources :=
  match sources.get? file with
  | some _ => .ok sources
  | none =>
    match lookUp file with
    | .ok text => .ok (sources.put file (found text))
    | .error fault => .error fault

def line? (sources : Sources) (file : String) (number : Int) : Option String :=
  if 1 ≤ number then
    match sources.get? file with
    | some lines => (lines[(number - 1).toNat]?).map String.ofList
    | none => none
  else none

/-- A diagnostic against its source line, and the files seen after it. -/
def render {ε : Type} (palette : Palette) (lookUp : String → Except ε (Option String))
    (sources : Sources) (diagnostic : Diagnostic) : Except ε (String × Sources) :=
  match sources.visit lookUp diagnostic.location.file with
  | .error fault => .error fault
  | .ok visited =>
    let sourceLine :=
      visited.line? diagnostic.location.file diagnostic.location.span.startLine
    .ok (diagnostic.render palette sourceLine, visited)

end Sources

end Parlance
