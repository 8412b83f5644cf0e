import Parlance.Command

/-!
Contract: the command line on a real disk.

Owns: the snapshot of the part of the disk that a command can see, the printing of what it leaves
behind and the writing of the files it changes. Nothing is decided here.
-/

namespace Parlance.Disk

def machine : Machine where
  levels := 500
  listed := 900
  folders := 900
  holds calls := decide (calls.length ≤ 900)
  stores length := decide (length ≤ 68719476736)

def content (name : String) : IO Files.Content := do
  try
    match String.fromUTF8? (← IO.FS.readBinFile ⟨name⟩) with
    | some text => return .text text
    | none => return .garbled
  catch _ => return .closed

def isWritable (name : String) : IO Bool := do
  try
    let _ ← IO.FS.Handle.mk ⟨name⟩ .readWrite
    return true
  catch _ => return false

/-- Takes up what stands at a path, without what is below it. A file that is kept elsewhere is taken
up there, with the path as a further name of it. -/
def addNode (files : Files) (path : Path) : IO Files := do
  let place := (← IO.currentDir) / path.absolute
  if ← place.isDir then return files.addFolders [] path
  else if ← place.pathExists then
    let home := Path.resolve [] (← IO.FS.realPath place).toString
    let file : Files.File := ⟨← content path.absolute, ← isWritable path.absolute⟩
    let taken := files.addFolders [] path.dropLast
    if home == path then return taken.put path (.file file)
    else return (taken.put home (.file file)).link path home
  else return files

partial def addTree
    (files : Files)
    (path : Path) : IO Files := do
  let files ← addNode files path
  let place := (← IO.currentDir) / path.absolute
  if ← place.isDir then
    let mut grown := files
    for child in ← place.readDir do
      grown ← addTree grown (path ++ [child.fileName])
    return grown
  else return files

/-- Takes up the folders on the way to a path and the settings files in them. -/
def addWay (files : Files) (path : Path) : IO Files := do
  let mut grown := files
  for count in List.range path.length do
    let folder := path.take count
    grown ← addNode (← addNode grown folder) (folder ++ [Settings.fileName])
  return grown

/-- The part of the disk that a command can see from a folder. -/
def snapshot (folder : Path) (command : Command) : IO Files := do
  let base ← addWay (.empty) (folder ++ [Settings.fileName])
  match command with
  | .version => return base
  | .check path _ | .tokens path | .view path | .format path _ false => do
      let place := Path.resolve folder path
      addTree (← addWay base place) place
  | .format path _ true => do
      let place := Path.resolve folder path
      addNode (← addWay base place) place
  | .new name => do
      let project := Command.projectPath folder name
      let ways := (List.range (Path.parts project).length).map fun count =>
        ((Path.parts project).take (count + 1)).foldl Path.step []
      let place := Path.resolve [] project
      let within := ["src", Settings.fileName, ".gitignore", "README.md"].map fun child =>
        place ++ [child]
      (ways ++ within).foldlM addNode base

def store (old : Files) (new : Files) : IO Unit := do
  for (name, text) in old.changes new [] do
    let place := (← IO.currentDir) / ("/" ++ name)
    if let some parent := place.parent then IO.FS.createDirAll parent
    IO.FS.writeFile place text

end Parlance.Disk

open Parlance in
def main (arguments : List String) : IO UInt32 := do
  let folder := Path.resolve [] (← IO.currentDir).toString
  match Invocation.ofArguments? arguments with
  | none =>
    IO.eprintln "usage: check | tokens | view | format | new"
    return 2
  | some invocation =>
    let files ← Disk.snapshot folder invocation.command
    let input ←
      match invocation.command with
      | .format _ _ true => (← IO.getStdin).readToEnd
      | _ => pure ""
    let coloured ← (← IO.getStdout).isTty
    match runCommandLine Disk.machine coloured files folder input arguments with
    | none =>
      IO.eprintln "the path does not fit the command"
      return 2
    | some outcome =>
      IO.print outcome.console.output
      IO.eprint outcome.console.errors
      Disk.store files outcome.console.files
      if outcome.crash.isSome then IO.eprintln "the command broke off"
      return outcome.exitCode.toUInt32
