/-!
Contract: places in a source text.

Owns: positions reached by reading characters, spans between two places, and spans in a named file.
Lines and columns count from one, offsets from zero, all in code points; both ends of a span
belong to it. Spans hold integers because tools may hand over any numbers at all. Embeds `Span`.
-/

namespace Parlance

structure Position where
  line : Nat
  column : Nat
  offset : Nat
deriving DecidableEq, Repr

namespace Position

def start : Position := ⟨1, 1, 0⟩

/-- The place after one more character. Only a line feed begins a new line. -/
def after (here : Position) (c : Char) : Position :=
  if c == '\n' then ⟨here.line + 1, 1, here.offset + 1⟩
  else ⟨here.line, here.column + 1, here.offset + 1⟩

def afterAll (here : Position) (text : List Char) : Position :=
  text.foldl after here

end Position

/-- A stretch of source text. The offset belongs to its first character. -/
structure Span where
  startLine : Int
  startColumn : Int
  endLine : Int
  endColumn : Int
  offset : Int
deriving DecidableEq, Repr

namespace Span

/-- The span of a unit of which nothing has been read. -/
def origin : Span := ⟨1, 1, 1, 1, 0⟩

def point (here : Position) : Span :=
  ⟨here.line, here.column, here.line, here.column, here.offset⟩

/-- The span from one place up to the character before another. Behind a line break the last
column is that of the break's own new line, column one. -/
def between (first : Position) (behind : Position) : Span :=
  ⟨first.line, first.column, behind.line,
    if behind.column > 1 then (behind.column : Int) - 1 else 1, first.offset⟩

def through (first : Span) (last : Span) : Span :=
  ⟨first.startLine, first.startColumn, last.endLine, last.endColumn, first.offset⟩

def sameExtent (left : Span) (right : Span) : Bool :=
  left.startLine == right.startLine && left.startColumn == right.startColumn &&
    left.endLine == right.endLine && left.endColumn == right.endColumn

/-- The place of a span's first character, behind the name of its file. -/
def label (file : String) (span : Span) : String :=
  s!"{file}:{span.startLine}:{span.startColumn}"

end Span

structure Location where
  file : String
  span : Span
deriving DecidableEq, Repr

namespace Location

/-- The location from the start of one to the end of another, in the file of the first. -/
def through (first : Location) (last : Location) : Location :=
  ⟨first.file, first.span.through last.span⟩

/-- Locations agree when file, lines and columns do; offsets are not compared. -/
def agrees (left : Location) (right : Location) : Bool :=
  left.file == right.file && left.span.sameExtent right.span

def label (location : Location) : String :=
  location.span.label location.file

end Location

end Parlance
