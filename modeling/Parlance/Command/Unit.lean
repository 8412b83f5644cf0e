import Parlance.Command.Console
import Parlance.Grammar

/-!
Contract: the source units that commands work on.

Owns: which files a path stands for, how they are named, and the reading of one as a program, with
the record of it. Embeds `_source_files` and `parse`.
-/

namespace Parlance.Command

def sourceEnding : String := ".cdr"

structure SourceUnit where
  path : Path
  name : String
deriving DecidableEq, Repr

/-- The source files that a path stands for: those in a folder, at any depth and in order, or the
file itself. Every folder below has to be looked up under its full name. -/
def unitsAt (files : Files) (place : Path)
    (text : String) : Except Files.Obstacle (List SourceUnit) :=
  let folder := Path.tidy text
  if files.isFolder place then
    if (files.foldersBelow place).any fun rest => Path.isTooFar (Path.join folder rest) then
      .error .refused
    else
      .ok ((files.withEnding place sourceEnding).map fun rest =>
        ⟨place ++ rest, Path.join folder rest⟩)
  else .ok [⟨place, folder⟩]

def SourceUnit.read (files : Files) (unit : SourceUnit) : Except Files.Obstacle String :=
  if Path.isTooFar unit.name then .error .refused
  else files.readUnified unit.path

/-- What comes of reading a text as a program. -/
inductive Reply where
  | program (program : Program Span)
  | failure (failure : Failure)
  /-- The nesting limit is no limit. -/
  | unusable

def reply (machine : Machine) (settings : Settings) (source : String) : Reply :=
  match settings.nesting machine with
  | .error _ => .unusable
  | .ok limit =>
    match Program.ofText limit source with
    | .ok program => .program program
    | .error failure => .failure failure

def failureRecord (name : String) (failure : Failure) : String :=
  let stage :=
    match failure.fault.stage with
    | .lexical => "concorde.lexer: lexical"
    | .grammatical => "concorde.parser: syntax"
  stage ++ " error " ++ failure.fault.code ++ " at " ++ failure.span.label name ++ ": " ++
    failure.fault.message

def recordReply (style : Style) (name : String) (reply : Reply) (console : Console) : Console :=
  match reply with
  | .program program =>
    console.log style
      s!"concorde.parser: parsed {program.body.length} top-level statements from {name}"
  | .failure failure => console.log style (failureRecord name failure)
  | .unusable => console

def parseUnit (machine : Machine) (style : Style) (settings : Settings) (name : String)
    (source : String) (console : Console) : Reply × Console :=
  let found := reply machine settings source
  let started := console.log style
    s!"concorde.frontend: parsing {name} ({source.length} chars)"
  (found, recordReply style name found started)

end Parlance.Command
