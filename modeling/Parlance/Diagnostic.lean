import Parlance.Fault

/-!
Contract: diagnostics and how they are shown.

Owns: a message about one place, the colours it is shown in, and its text against a source line. The
first line names code and message, the second the place; then come the source line, if it is known,
carets under the place, if it lies on one line, and the notes. Does not own: where source lines come
from. Embeds `Diagnostic` and `DiagnosticRenderer.render`.
-/

namespace Parlance

structure Diagnostic where
  code : String
  message : String
  location : Location
  notes : List String
deriving DecidableEq, Repr

/-- The control sequences that begin and end coloured text. -/
structure Palette where
  alert : String
  strong : String
  frame : String
  reset : String
deriving DecidableEq, Repr

namespace Palette

def none : Palette := ⟨"", "", "", ""⟩

def terminal : Palette := ⟨"\x1b[1;31m", "\x1b[1m", "\x1b[1;34m", "\x1b[0m"⟩

def choose (coloured : Bool) : Palette :=
  if coloured then terminal else none

def framed (palette : Palette) (text : String) : String :=
  palette.frame ++ text ++ palette.reset

end Palette

namespace Diagnostic

def ofFailure (file : String) (failure : Failure) : Diagnostic :=
  ⟨failure.fault.code, failure.fault.message, ⟨file, failure.span⟩, failure.fault.notes⟩

def headLine (palette : Palette) (diagnostic : Diagnostic) : String :=
  palette.alert ++ "error[" ++ diagnostic.code ++ "]" ++ palette.reset ++
    palette.strong ++ ": " ++ diagnostic.message ++ palette.reset

def placeLine (palette : Palette) (diagnostic : Diagnostic) : String :=
  "  " ++ palette.framed "-->" ++ " " ++ diagnostic.location.label

def bareGutter (palette : Palette) : String :=
  "  " ++ palette.framed "   |"

/-- The frame before a line with its number, which takes at least four characters. -/
def numberedGutter (palette : Palette) (line : Int) : String :=
  let digits := toString line
  let padding := String.ofList (List.replicate (4 - digits.length) ' ')
  "  " ++ palette.framed (padding ++ digits ++ " |")

/-- Carets under the columns of a span on one line, at least one. -/
def caretLine (palette : Palette) (span : Span) : String :=
  let padding := String.ofList (List.replicate (span.startColumn - 1).toNat ' ')
  let carets := String.ofList
    (List.replicate (max 1 (span.endColumn - span.startColumn + 1)).toNat '^')
  bareGutter palette ++ " " ++ padding ++ palette.alert ++ carets ++ palette.reset

/-- The source line behind its number, and the carets. A span of several lines has no carets, and
without a source line its number alone. -/
def excerpt (palette : Palette) (sourceLine : Option String) (span : Span) : List String :=
  let shown :=
    match sourceLine with
    | some text => [numberedGutter palette span.startLine ++ " " ++ text]
    | none => []
  if span.startLine = span.endLine then shown ++ [caretLine palette span]
  else
    match sourceLine with
    | some _ => shown
    | none => [numberedGutter palette span.startLine]

def noteLine (palette : Palette) (note : String) : String :=
  "  " ++ palette.framed "=" ++ " note: " ++ note

def lines (palette : Palette) (sourceLine : Option String)
    (diagnostic : Diagnostic) : List String :=
  [diagnostic.headLine palette, diagnostic.placeLine palette, bareGutter palette] ++
    excerpt palette sourceLine diagnostic.location.span ++ diagnostic.notes.map (noteLine palette)

/-- A diagnostic as it is shown against the source line it starts on. -/
def render (palette : Palette) (sourceLine : Option String) (diagnostic : Diagnostic) : String :=
  "\n".intercalate (diagnostic.lines palette sourceLine)

def summary (diagnostics : List Diagnostic) : String :=
  toString diagnostics.length ++ " error(s): " ++
    "; ".intercalate (diagnostics.map fun diagnostic => diagnostic.message)

end Diagnostic

end Parlance
