import Parlance.Command.Unit
import Parlance.Layout.Program

/-!
Contract: formatting source files.

Owns: the verdict on a source text, and the command that changes files, or lists those it would
change, or passes one text through. Every file is judged by the settings of the path that was
given. Embeds `format_cmd`.
-/

namespace Parlance.Command

/-- The canonical text of a program under the given settings, if a machine can print it. -/
def canonical (machine : Machine) (settings : Settings)
    (program : Program Span) : Except Crash String :=
  match program.write machine settings.indentation? with
  | .ok text => .ok text
  | .error fault => .error (.printer fault)

inductive FormatMode where
  | change
  | compare
deriving DecidableEq, Repr

structure FormatTally where
  broken : Bool
  listed : Bool
deriving DecidableEq, Repr

def formatUnits (machine : Machine) (style : Style) (settings : Settings)
    (mode : FormatMode) : List SourceUnit → FormatTally → Console → Outcome
  | [], tally, console => console.exit (if tally.broken || tally.listed then 1 else 0)
  | unit :: rest, tally, console =>
    match unit.read console.files with
    | .error obstacle => console.abort (.obstacle obstacle)
    | .ok source =>
      match parseUnit machine style settings unit.name source console with
      | (.unusable, console) => console.abort .unusable
      | (.failure failure, console) =>
        formatUnits machine style settings mode rest { tally with broken := true }
          (console.report style unit.name source failure)
      | (.program program, console) =>
        match canonical machine settings program with
        | .error crash => console.abort crash
        | .ok formatted =>
          if formatted == source then formatUnits machine style settings mode rest tally console
          else
            match mode with
            | .compare =>
              formatUnits machine style settings mode rest { tally with listed := true }
                (console.say style ("would reformat " ++ unit.name))
            | .change =>
              match console.files.rewrite unit.path formatted with
              | .error obstacle => console.abort (.obstacle obstacle)
              | .ok files =>
                formatUnits machine style settings mode rest tally
                  ({ console with files }.say style ("formatted " ++ unit.name))

/-- Passes one text through, or compares it with its canonical form. -/
def formatText (machine : Machine) (style : Style) (settings : Settings) (mode : FormatMode)
    (source : String) (console : Console) : Outcome :=
  match parseUnit machine style settings "<stdin>" source console with
  | (.unusable, console) => console.abort .unusable
  | (.failure failure, console) => (console.report style "<stdin>" source failure).exit 1
  | (.program program, console) =>
    match canonical machine settings program with
    | .error crash => console.abort crash
    | .ok formatted =>
      match mode with
      | .compare => console.exit (if formatted == source then 0 else 1)
      | .change => (console.write formatted).exit 0

def formatPath (machine : Machine) (style : Style) (place : Path) (text : String)
    (mode : FormatMode) (input : Option String) (console : Console) : Outcome :=
  match Settings.governing console.files place with
  | .error fault => console.abort (.settings fault)
  | .ok settings =>
    match input with
    | some source => formatText machine style settings mode source console
    | none =>
      match unitsAt console.files place text with
      | .error obstacle => console.abort (.obstacle obstacle)
      | .ok [] => (console.warn style s!"no {sourceEnding} files found").exit 0
      | .ok units => formatUnits machine style settings mode units ⟨false, false⟩ console

end Parlance.Command
