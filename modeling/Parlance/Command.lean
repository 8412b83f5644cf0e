import Parlance.Command.Arguments
import Parlance.Command.Check
import Parlance.Command.Format
import Parlance.Command.Scaffold
import Parlance.Command.Show

/-!
Contract: the command line.

Owns: the commands with their arguments, which paths they accept, and what running one leaves
behind. A command line that fits no command, or names a path that is not there, is not run at all.
Does not own: the streams and the disk. Embeds `main` and its commands.
-/

namespace Parlance

/-- What a command line asks for. -/
inductive Command where
  | version
  | check (path : String) (workers : Option Int)
  | tokens (file : String)
  | view (file : String)
  | format (path : String) (mode : Command.FormatMode) (fromInput : Bool)
  | new (name : String)
deriving DecidableEq, Repr

/-- A command and whether its course is recorded. -/
structure Invocation where
  verbose : Bool
  command : Command
deriving DecidableEq, Repr

namespace Command

def commonOptions : List Arguments.Known :=
  [⟨"--version", none, false⟩, ⟨"--verbose", some 'v', false⟩]

def operand? : List String → Option String
  | [only] => some only
  | _ => none

/-- The operand of a command that takes one path. A path that can name nothing is judged before
further operands are counted. -/
def pathOperand? : List String → Option String
  | [] => none
  | path :: rest => if rest.isEmpty || !Path.isNameable path then some path else none

def pathOperandOr? (default : String) : List String → Option String
  | [] => some default
  | operands => pathOperand? operands

def check? (arguments : List String) : Option Command := do
  let parsed ← Arguments.parse [⟨"--jobs", some 'j', true⟩] true arguments
  let path ← pathOperandOr? "." parsed.operands
  match parsed.value? "--jobs" with
  | none => return .check path none
  | some text => return .check path (some (← Arguments.whole? text))

def format? (arguments : List String) : Option Command := do
  let parsed ← Arguments.parse [⟨"--check", none, false⟩, ⟨"--stdin", none, false⟩] true arguments
  let path ← pathOperandOr? "." parsed.operands
  return .format path (if parsed.has "--check" then .compare else .change) (parsed.has "--stdin")

def onFile? (command : String → Command) (arguments : List String) : Option Command := do
  let parsed ← Arguments.parse [] true arguments
  return command (← pathOperand? parsed.operands)

def new? (arguments : List String) : Option Command := do
  let parsed ← Arguments.parse [] true arguments
  return .new (← operand? parsed.operands)

def reader? : String → Option (List String → Option Command)
  | "check" => some check?
  | "tokens" => some (onFile? .tokens)
  | "view" => some (onFile? .view)
  | "format" => some format?
  | "new" => some new?
  | _ => none

def versionLine : String := "concorde, version 0.1.0"

def onPath (folder : Path) (text : String) (console : Console)
    (run : Path → Outcome) : Option Outcome :=
  if Path.isNameable text then
    match console.files.reach folder text with
    | .error _ => none
    | .ok place => if console.files.isClosed place then none else some (run place)
  else some (console.abort .unnameable)

def onFile (folder : Path) (text : String) (console : Console)
    (run : Path → String → Outcome) : Option Outcome :=
  if Path.isNameable text then
    match console.files.reach folder text with
    | .error _ => none
    | .ok place =>
      match console.files.readUnified place with
      | .ok source => some (run place source)
      | .error .garbled => some (console.abort (.obstacle .garbled))
      | .error _ => none
  else some (console.abort .unnameable)

/-- Runs a command in a folder, with a text coming in. There is no outcome if its path leads
nowhere. -/
def run (machine : Machine) (style : Style) (folder : Path) (input : String)
    (console : Console) : Command → Option Outcome
  | .version => some ((console.say style versionLine).exit 0)
  | .check path workers =>
    onPath folder path console fun place => checkPath machine style place path workers console
  | .tokens file =>
    onFile folder file console fun _ source => showTokens style file source console
  | .view file =>
    onFile folder file console fun place source =>
      showOutline machine style place file source console
  | .format path mode fromInput =>
    onPath folder path console fun place =>
      formatPath machine style place path mode (if fromInput then some input else none) console
  | .new name => some (scaffold machine style folder name console)

end Command

/-- What a command line asks for, if it is one. Operands that name no command are read once more
from their beginning, where two dashes may have kept an option from being one. -/
def Invocation.ofArguments? (arguments : List String) : Option Invocation := do
  let parsed ← Arguments.parse Command.commonOptions false arguments
  let verbose := parsed.has "--verbose"
  if parsed.has "--version" then return ⟨verbose, .version⟩
  else
    match parsed.operands with
    | [] => none
    | name :: rest =>
      match Command.reader? name with
      | some reader => return ⟨verbose, ← reader rest⟩
      | none =>
        let again ← Arguments.parse Command.commonOptions false parsed.operands
        if again.has "--version" then return ⟨verbose, .version⟩ else none

/-- Runs a command line on a file tree, with a text coming in. Without an outcome it was not one
that can be run. -/
def runCommandLine (machine : Machine) (coloured : Bool) (files : Files) (folder : Path)
    (input : String) (arguments : List String) : Option Command.Outcome := do
  let invocation ← Invocation.ofArguments? arguments
  let style : Command.Style := ⟨invocation.verbose, coloured⟩
  invocation.command.run machine style folder (Files.unified input) ⟨"", "", files⟩

end Parlance
