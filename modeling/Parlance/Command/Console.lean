import Parlance.Diagnostic.Sources
import Parlance.Layout.Draft
import Parlance.Settings
import Parlance.Text.Plain

/-!
Contract: what a command leaves behind.

Owns: the two streams a command writes to, the file tree it works on, how it ends, and the lines it
writes. Lines for the user lose their colours unless colours are wanted; the record of what is going
on is kept only on request. Embeds `_report`, and the streams of every command.
-/

namespace Parlance.Command

structure Style where
  verbose : Bool
  coloured : Bool
deriving DecidableEq, Repr

structure Console where
  output : String
  errors : String
  files : Files
deriving DecidableEq, Repr

/-- Why a command breaks off. -/
inductive Crash where
  | settings (fault : Settings.Fault)
  /-- A file cannot be read or written, or a folder not be created. -/
  | obstacle (obstacle : Files.Obstacle)
  /-- A setting has a type that cannot be used. -/
  | unusable
  /-- A program cannot be printed. -/
  | printer (fault : Draft.Fault)
  /-- The number of readers is not above zero. -/
  | workers
  /-- A path has a name that nothing can have. -/
  | unnameable
  /-- More folders in a row are missing than can be created, or a tree has more levels than can be
  listed. -/
  | exhausted
deriving DecidableEq, Repr

structure Outcome where
  console : Console
  exitCode : Nat
  crash : Option Crash
deriving DecidableEq, Repr

namespace Console

def exit (console : Console) (code : Nat) : Outcome :=
  ⟨console, code, none⟩

def abort (console : Console) (crash : Crash) : Outcome :=
  ⟨console, 1, some crash⟩

def shown (style : Style) (line : String) : String :=
  (if style.coloured then line else Text.plain line) ++ "\n"

def say (style : Style) (line : String) (console : Console) : Console :=
  { console with output := console.output ++ shown style line }

def sayAll (style : Style) (lines : List String) (console : Console) : Console :=
  lines.foldl (fun console line => console.say style line) console

def warn (style : Style) (line : String) (console : Console) : Console :=
  { console with errors := console.errors ++ shown style line }

def log (style : Style) (line : String) (console : Console) : Console :=
  if style.verbose then { console with errors := console.errors ++ line ++ "\n" } else console

def write (text : String) (console : Console) : Console :=
  { console with output := console.output ++ text }

def report (style : Style) (name : String) (source : String) (failure : Failure)
    (console : Console) : Console :=
  match (Sources.empty.add name source).render .terminal (fun _ => Except.ok (ε := Empty) none)
      (.ofFailure name failure) with
  | .ok (rendered, _) => console.warn style rendered

end Console

end Parlance.Command
