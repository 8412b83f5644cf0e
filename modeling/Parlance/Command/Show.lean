import Parlance.Command.Unit
import Parlance.Outline

/-!
Contract: showing the tokens or the tree of a source file.

Owns: the command that lists tokens with their places, and the command that lists the outline of a
program. Embeds `tokens` and `view`.
-/

namespace Parlance.Command

def tokenLine (token : Token) : String :=
  s!"{token.span.startLine}:{token.span.startColumn} {token.kind.label} " ++
    Text.quoted token.text

def showTokens (style : Style) (name : String) (source : String) (console : Console) : Outcome :=
  let reading := Reading.ofText source
  match reading.ending with
  | .finished _ =>
    let tokens := reading.allTokens
    let listed := console.sayAll style (tokens.map tokenLine)
    (listed.log style s!"concorde.lexer: lexed {tokens.length} tokens from {name}").exit 0
  | .broken failure =>
    let listed := console.sayAll style (reading.tokens.map tokenLine)
    ((listed.log style (failureRecord name failure)).report style name source failure).exit 1

/-- Lists the outline of a text's program, as far down as a machine can. -/
def showOutline (machine : Machine) (style : Style) (place : Path) (name : String)
    (source : String) (console : Console) : Outcome :=
  match Settings.governing console.files place with
  | .error fault => console.abort (.settings fault)
  | .ok settings =>
    match parseUnit machine style settings name source console with
    | (.unusable, console) => console.abort .unusable
    | (.failure failure, console) => (console.report style name source failure).exit 1
    | (.program program, console) =>
      let dump := program.outline.dump 0 machine.listed
      let listed := console.sayAll style dump.lines
      if dump.whole then listed.exit 0 else listed.abort .exhausted

end Parlance.Command
