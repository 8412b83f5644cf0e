import Parlance.Proofs.Grammar.Inversion

/-!
Contract: rows of items and lines as they are read, from the left.

The grammar builds rows of items and lines from the right, and the loops of the parsers build them
from the left. Owns: what may stand behind the items or lines read so far (`ItemsTail`, `LinesTail`),
what one round of a loop reads (`OneItem`, `OneLine`), and that the two together form a row.
-/

namespace Parlance.Grammar

open Lexeme

theorem Joined.snoc {joints : List Kind} {words : List Lexeme} {names : List String}
    {joint name : Lexeme} (joined : Joined joints words names)
    (isJoint : joints.contains joint.kind = true) (isName : name.kind = .name) :
    Joined joints (words ++ [joint, name]) (names ++ [name.text]) := by
  induction joined with
  | one first => exact .more first isJoint (.one isName)
  | more first between tail ih => exact .more first between ih

/-! ## Bracketed lists -/

section Items

variable {levels : Nat} {part : Part} {bracket : Bracket}

/-- What may stand behind an item and its line breaks: the closing bracket, or a comma and the rest
of the list. -/
inductive ItemsTail (levels : Nat) (part : Part)
    (bracket : Bracket) : List Lexeme → Kind → List (part.Tree Unit) → Bool → Prop where
  | close {closing : Lexeme} {next : Kind} (closes : closing.kind = .symbol bracket.close) :
      ItemsTail levels part bracket [closing] next [] false
  | comma {comma : Lexeme} {rest : List Lexeme} {next : Kind} {values : List (part.Tree Unit)}
      {divided : Bool} (isComma : comma.kind = .symbol .comma)
      (others : Derives levels (.items part bracket) rest next (values, divided)) :
      ItemsTail levels part bracket (comma :: rest) next values true

/-- The next item of a list with the line breaks behind it, or nothing before the closing
bracket. -/
inductive OneItem (levels : Nat) (part : Part)
    (bracket : Bracket) : List Lexeme → Kind → List (part.Tree Unit) → Prop where
  | none : OneItem levels part bracket [] (.symbol bracket.close) []
  | one {words back : List Lexeme} {next : Kind} {value : part.Tree Unit}
      (item : Derives levels (.item part) words (leading next back) value) (after : Breaks back) :
      OneItem levels part bracket (words ++ back) next [value]

theorem OneItem.derives {front words tail : List Lexeme} {kind next : Kind}
    {found values : List (part.Tree Unit)} {divided : Bool} (before : Breaks front)
    (one : OneItem levels part bracket words kind found)
    (rest : ItemsTail levels part bracket tail next values divided)
    (leads : leading next tail = kind) :
    Derives levels (.items part bracket) (front ++ (words ++ tail)) next
      (found ++ values, divided) := by
  cases one with
  | none =>
    cases rest with
    | close closes => exact .noItem before closes
    | comma isComma others =>
      rw [leading_cons, isComma] at leads
      cases bracket <;> simp [Bracket.close] at leads
  | one item after =>
    subst leads
    rw [List.append_assoc]
    cases rest with
    | close closes => exact .lastItem before item after closes
    | comma isComma others => exact .moreItems before item after isComma others

end Items

/-! ## Lines -/

section Lines

variable {levels : Nat} {block : Block}

/-- What may stand behind a line: the end of the block, or a line break and more lines. -/
inductive LinesTail (levels : Nat)
    (block : Block) : List Lexeme → Kind → List (Stmt Unit) → Prop where
  | done {next : Kind} (ends : block.endsAt next = true) :
      LinesTail levels block [] next []
  | more {lineEnd : Lexeme} {rest : List Lexeme} {next : Kind} {body : List (Stmt Unit)}
      (isBreak : lineEnd.kind = .newline) (others : Derives levels (.lines block) rest next body) :
      LinesTail levels block (lineEnd :: rest) next body

/-- One line without the line break behind it. -/
inductive OneLine (levels : Nat)
    (block : Block) : List Lexeme → Kind → List (Stmt Unit) → Prop where
  | empty {next : Kind} (stops : next = .newline ∨ block.endsAt next = true) :
      OneLine levels block [] next []
  | filled {words : List Lexeme} {stmt : Stmt Unit}
      (inner : Derives levels .statement words .newline stmt) :
      OneLine levels block words .newline [stmt]

theorem endsAt_newline (block : Block) : block.endsAt .newline = false := by
  cases block <;> rfl

theorem OneLine.derives {words tail : List Lexeme} {kind next : Kind}
    {found body : List (Stmt Unit)} (one : OneLine levels block words kind found)
    (rest : LinesTail levels block tail next body) (leads : leading next tail = kind) :
    Derives levels (.lines block) (words ++ tail) next (found ++ body) := by
  cases rest with
  | done ends =>
    cases one with
    | empty stops => exact .noLine ends
    | filled inner =>
      rw [leading_nil] at leads
      rw [leads, endsAt_newline] at ends
      contradiction
  | more isBreak others =>
    cases one with
    | empty stops => exact .emptyLine isBreak others
    | filled inner => exact .line (isBreak ▸ inner) isBreak others

theorem OneLine.stops {words : List Lexeme} {next : Kind} {found : List (Stmt Unit)}
    (one : OneLine levels block words next found) :
    next = .newline ∨ block.endsAt next = true := by
  cases one with
  | empty stops => exact stops
  | filled inner => exact .inl rfl

end Lines

end Parlance.Grammar
