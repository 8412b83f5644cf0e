import Parlance.Grammar
import Parlance.Layout.Program
import Parlance.Region
import Parlance.Settings

/-!
Contract: an open document and what is known about it.

A document has either a program or one notice about why it has none. Owns: the analysis of a text
under given settings, and the edit that brings a document into its canonical form. Embeds
`DocumentState`, `_analyze`, `_format_edits`, and `_compile_diag` as `Notice`.
-/

namespace Parlance.Session

structure Notice where
  region : Region
  code : Option String
  message : String
deriving DecidableEq, Repr

def Notice.ofFailure (failure : Failure) : Notice :=
  let notes := failure.fault.notes.map ("\nnote: " ++ ·)
  ⟨failure.span.region, some failure.fault.code,
    "[" ++ failure.fault.code ++ "] " ++ failure.fault.message ++ String.join notes⟩

/-- The notice of a limit that bounds nothing. -/
def Notice.ofIncomparable (fault : Incomparable) : Notice :=
  ⟨.start, none, "[internal] parser error: " ++ fault.message⟩

/-- The text of a document and its program, or why it has none. -/
structure Document where
  source : String
  outcome : Except Notice (Program Span)

namespace Document

def analyse (machine : Machine) (settings : Settings) (source : String) : Document :=
  match settings.nesting machine with
  | .error fault => ⟨source, .error (.ofIncomparable fault)⟩
  | .ok limit =>
    match Program.ofText limit source with
    | .error failure => ⟨source, .error (.ofFailure failure)⟩
    | .ok program => ⟨source, .ok program⟩

def program? (document : Document) : Option (Program Span) :=
  match document.outcome with
  | .ok program => some program
  | .error _ => none

def notices (document : Document) : List Notice :=
  match document.outcome with
  | .ok _ => []
  | .error notice => [notice]

def wholeRegion (source : String) : Region :=
  let lines := Text.lines source.toList
  match lines.getLast? with
  | none => ⟨0, 0, lines.length, 0⟩
  | some last =>
    if source.toList.getLast? == some '\n' then ⟨0, 0, lines.length, 0⟩
    else ⟨0, 0, lines.length - 1, last.length⟩

/-- The edit that brings a document into its canonical form, if it has a program and another
form. There is no answer if a machine cannot print that form. -/
def formatEdit? (machine : Machine) (width : Int)
    (document : Document) : Except Draft.Fault (Option (Region × String)) :=
  match document.outcome with
  | .error _ => .ok none
  | .ok program =>
    match program.write machine (some width) with
    | .error fault => .error fault
    | .ok formatted =>
      .ok (if formatted == document.source then none
        else some (wholeRegion document.source, formatted))

end Document

end Parlance.Session
