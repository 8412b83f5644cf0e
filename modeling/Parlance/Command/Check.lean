import Parlance.Batch
import Parlance.Command.Unit

/-!
Contract: checking source files.

Owns: the command that reads all files at a path and reports those that fail. Embeds `check`.
-/

namespace Parlance.Command

def readUnits (files : Files) : List SourceUnit → Except Files.Obstacle Batch
  | [] => .ok []
  | first :: rest =>
    match first.read files with
    | .error obstacle => .error obstacle
    | .ok text =>
      match readUnits files rest with
      | .error obstacle => .error obstacle
      | .ok texts => .ok ((first.name, text) :: texts)

structure Findings where
  failed : List (String × String × Failure)
  unusable : Bool

def checkTexts (machine : Machine) (style : Style)
    (settings : Settings) : Batch → Console → Findings × Console
  | [], console => (⟨[], false⟩, console)
  | (name, source) :: rest, console =>
    match parseUnit machine style settings name source console with
    | (.unusable, console) => (⟨[], true⟩, console)
    | (.program _, console) => checkTexts machine style settings rest console
    | (.failure failure, console) =>
      let stage := failure.fault.stage.describe
      let (findings, console) := checkTexts machine style settings rest
        (console.log style s!"concorde.frontend: {name} failed with {stage} error")
      (⟨(name, source, failure) :: findings.failed, findings.unusable⟩, console)

/-- Reports failures and the outcome for so many files. -/
def concludeCheck (style : Style) (count : Nat) (failed : List (String × String × Failure))
    (console : Console) : Outcome :=
  match failed with
  | [] => (console.say style s!"checked {count} file(s): no errors").exit 0
  | failed =>
    let reported := failed.foldl
      (fun console (name, source, failure) => console.report style name source failure) console
    (reported.warn style s!"{failed.length} of {count} file(s) failed to parse").exit 1

def checkUnits (machine : Machine) (style : Style) (settings : Settings) (workers : Option Int)
    (target : String) (units : List SourceUnit) (console : Console) : Outcome :=
  match readUnits console.files units with
  | .error obstacle => console.abort (.obstacle obstacle)
  | .ok texts =>
    let count := units.length
    let console := console.log style s!"concorde.cli: checking {count} file(s) under {target}"
    if Batch.admits workers then
      let (findings, console) := checkTexts machine style settings texts console
      if findings.unusable then console.abort .unusable
      else
        let failed := findings.failed.length
        concludeCheck style count findings.failed
          (console.log style s!"concorde.frontend: parsed {count} units, {failed} failed")
    else console.abort .workers

def checkPath (machine : Machine) (style : Style) (place : Path) (text : String)
    (workers : Option Int) (console : Console) : Outcome :=
  match Settings.governing console.files place with
  | .error fault => console.abort (.settings fault)
  | .ok settings =>
    match unitsAt console.files place text with
    | .error obstacle => console.abort (.obstacle obstacle)
    | .ok [] => (console.warn style s!"warning: no {sourceEnding} files found").exit 0
    | .ok units => checkUnits machine style settings workers (Path.tidy text) units console

end Parlance.Command
