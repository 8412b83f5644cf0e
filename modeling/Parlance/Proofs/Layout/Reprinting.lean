import Parlance.Proofs.Layout.ExpressionPrinting
import Parlance.Proofs.Layout.StatementPrinting

/-!
Contract: every phrase that the grammar derives from legible words is printed.

Owns: the induction over derivations that joins the laws of the rules (`Derives.printable`), and
what it needs to know of operands: their layouts do not begin with a character that makes another
symbol of a minus sign before them, and whether they fill a line makes no difference to them.
-/

namespace Parlance.Grammar

open Lexeme Layout

variable {levels : Nat} {words : List Lexeme} {next : Kind}

/-! ## Operands -/

theorem Opens.append {front : Layout} (opens : Opens front) (back : Layout) :
    Opens (front ++ back) := by
  obtain ⟨first, isFirst, noSymbol⟩ := opens
  refine ⟨first, ?_, noSymbol⟩
  rw [← head?_chars 0, chars_append, List.head?_append, head?_chars, isFirst]
  rfl

theorem Opens.name {name : String} (isName : IsName name) (back : Layout) :
    Opens (.word name :: back) := by
  obtain ⟨first, more, spelling, starts⟩ := isName.starts
  refine ⟨first, ?_, ?_, ?_⟩
  · rw [head?, Item.chars, spelling]
  · exact Text.ne_of_isNameStart starts (by decide)
  · exact Text.ne_of_isNameStart starts (by decide)

theorem Opens.number {word : Lexeme} (legible : word.Legible) (isNumber : word.kind = .number) :
    Opens [.word word.text] := by
  obtain ⟨sign, text, isSign, numeral, isText⟩ := legible.exists_number isNumber
  have plain : ∀ c ∈ sign ++ text, c = '-' ∨ c = '.' ∨ c.isDigit = true := by
    intro c member
    rcases List.mem_append.mp member with member | member
    · rcases isSign with rfl | rfl <;> simp_all
    · exact .inr (numeral.plain.2 c member)
  obtain ⟨first, more, same⟩ := List.exists_cons_of_ne_nil
    (show sign ++ text ≠ [] by simp [numeral.plain.1])
  refine ⟨first, ?_, ?_⟩
  · rw [isText, head?, Item.chars, String.toList_ofList, same]
  · rcases plain first (by simp [same]) with rfl | rfl | isDigit
    · decide
    · decide
    · exact ⟨Text.ne_of_isDigit isDigit (by decide), Text.ne_of_isDigit isDigit (by decide)⟩

theorem Opens.string {word : Lexeme} (legible : word.Legible) (isString : word.kind = .string) :
    Opens [.quoted word.quote word.text] := by
  obtain ⟨quote, body, isQuote, free, isText, isMark⟩ := legible.exists_string isString
  refine ⟨quote, by simp [isMark, head?, Item.chars], ?_⟩
  rcases isQuote with rfl | rfl <;> decide

theorem Opens.word {text : String} (first : Char) (isFirst : text.toList.head? = some first)
    (noSymbol : first ≠ '=' ∧ first ≠ '>') (back : Layout) :
    Opens (.word text :: back) := by
  obtain ⟨more, spelling⟩ := List.head?_eq_some_iff.mp isFirst
  exact ⟨first, by rw [head?, Item.chars, spelling], noSymbol⟩

theorem opens_boolean (value : Bool) : Opens (Layout.boolean value) := by
  cases value with
  | true => exact .word 't' rfl (by decide) _
  | false => exact .word 'f' rfl (by decide) _

theorem opens_tuple (layouts : List Layout) : Opens (Layout.tuple layouts) := by
  unfold Layout.tuple
  split <;> exact .word '(' rfl (by decide) _

theorem opens_dictionary (layouts : List Layout) : Opens (Layout.dictionary layouts) := by
  unfold Layout.dictionary
  split <;> exact .word '[' rfl (by decide) _

theorem opens_unary (op : UnaryOp) (operand : Layout) : Opens (Layout.unary op operand) := by
  cases op with
  | not => exact .word 'n' rfl (by decide) _
  | minus =>
    unfold Layout.unary
    dsimp only
    split <;> exact .word '-' rfl (by decide) _

theorem opens_path {names : List String} (filled : names ≠ [])
    (areNames : ∀ name ∈ names, IsName name) :
    Opens (Layout.path names) := by
  match names, filled with
  | [only], _ => exact .name (areNames only (by simp)) _
  | first :: second :: rest, _ => exact .name (areNames first (by simp)) _

/-- What is known of an operand of an operator. -/
structure IsOperand (value : Expr Unit) : Prop where
  opens : ∀ level, Opens (value.layout level)
  flat : ∀ line, value.misplaced line = value.misplaced false

/-- Phrases whose trees are operands. -/
def Phrase.GivesOperand : (phrase : Phrase) → phrase.Tree Unit → Prop
  | .binary _, value => IsOperand value
  | .prefixed _, value => IsOperand value
  | .indexed, value => IsOperand value
  | .members, value => IsOperand value
  | .primary, value => IsOperand value
  | _, _ => True

theorem Derives.givesOperand {phrase : Phrase} {tree : phrase.Tree Unit}
    (derives : Derives levels phrase words next tree) (legible : ∀ word ∈ words, word.Legible) :
    phrase.GivesOperand tree := by
  induction derives with
  | number isNumber => exact ⟨fun _ => .number (legible _ (by simp)) isNumber, fun _ => rfl⟩
  | string isString => exact ⟨fun _ => .string (legible _ (by simp)) isString, fun _ => rfl⟩
  | boolean isBoolean => exact ⟨fun _ => opens_boolean _, fun _ => rfl⟩
  | nil isNil => exact ⟨fun _ => .word 'n' rfl (by decide) _, fun _ => rfl⟩
  | name isName => exact ⟨fun _ => .name ((legible _ (by simp)).isName isName) _, fun _ => rfl⟩
  | path joined several =>
    obtain ⟨filled, areNames⟩ := joined.areNames legible
    exact ⟨fun _ => opens_path filled areNames, fun _ => rfl⟩
  | grouping opens list => exact ⟨fun _ => .word '(' rfl (by decide) _, fun _ => rfl⟩
  | tuple opens list isTuple => exact ⟨fun _ => opens_tuple _, fun _ => rfl⟩
  | emptyDictionary => exact ⟨fun _ => opens_dictionary _, fun _ => rfl⟩
  | dictionary opens list filled => exact ⟨fun _ => opens_dictionary _, fun _ => rfl⟩
  | array opens list => exact ⟨fun _ => .word '[' rfl (by decide) _, fun _ => rfl⟩
  | closureLine | closureBlock =>
    exact ⟨fun _ => .word 'f' rfl (by decide) _, fun _ => rfl⟩
  | ofPrimary inner ih => exact ih legible
  | call target opens inner ih =>
    have callee := ih fun word member => legible word (by simp [member])
    exact ⟨fun level => (callee.opens level).append _, fun _ => rfl⟩
  | access target isDot isName ih =>
    have owner := ih fun word member => legible word (by simp [member])
    exact ⟨fun level => (owner.opens level).append _, fun _ => rfl⟩
  | ofMembers inner ih => exact ih legible
  | index target opens inner closes ih =>
    have owner := ih fun word member => legible word (by simp [member])
    exact ⟨fun level => (owner.opens level).append _, fun _ => rfl⟩
  | ofIndexed inner ih => exact ih legible
  | ofSigned inner ih => exact ih legible
  | unary isOp inner => exact ⟨fun _ => opens_unary _ _, fun _ => rfl⟩
  | ofOperand inner ih => exact ih legible
  | ofTighter inner ih => exact ih legible
  | binary first isOp rank second ih =>
    have left := ih fun word member => legible word (by simp [member])
    exact ⟨fun level => (left.opens level).append _, fun _ => rfl⟩
  | _ => trivial

/-! ## All phrases -/

theorem Derives.printable {phrase : Phrase} {tree : phrase.Tree Unit}
    (derives : Derives levels phrase words next tree) (legible : ∀ word ∈ words, word.Legible) :
    Printable levels phrase words next tree := by
  induction derives with
      try simp only [List.forall_mem_cons, List.forall_mem_append] at legible
  | nested inner ih =>
    exact fun level => (ih legible level).lift fun _ _ => .nested
  | nestedLines inner ih =>
    exact printable_nestedLines inner (ih legible)
  | number isNumber => exact printable_number legible.1 isNumber
  | string isString => exact printable_string legible.1 isString
  | boolean isBoolean => exact printable_boolean _
  | nil isNil => exact printable_nil
  | name isName => exact printable_name (legible.1.isName isName)
  | path joined several => exact printable_path (joined.areNames legible).2 several
  | grouping opens list ih =>
    exact printable_grouping opens (ih legible.2)
  | tuple opens list isTuple ih =>
    exact printable_tuple opens (ih legible.2)
  | emptyDictionary => exact printable_emptyDictionary
  | dictionary opens list filled ih =>
    exact printable_dictionary (ih legible.2) filled
  | array opens list ih =>
    exact printable_array (ih legible.2)
  | closureLine opens joined isArrow inner closes ih =>
    obtain ⟨-, legibleHead, -, legibleBody, -⟩ := legible
    exact printable_closureLine joined legibleHead (closes ▸ ih legibleBody)
  | closureBlock opens joined isArrow isDo isBreak inner closes ih =>
    obtain ⟨-, legibleHead, -, -, -, legibleBody, -⟩ := legible
    exact printable_closureBlock joined legibleHead (closes ▸ ih legibleBody)
  | ofPrimary inner ih =>
    exact fun level => (ih legible level).lift fun _ _ => .ofPrimary
  | call target opens inner ihTarget ihInner =>
    exact printable_call (opens ▸ ihTarget legible.1) opens (ihInner legible.2.2)
  | access target isDot isName ih =>
    exact printable_access (isDot ▸ ih legible.1) (legible.2.2.1.isName isName)
  | ofMembers inner ih =>
    exact fun level => (ih legible level).lift fun _ _ => .ofMembers
  | index target opens inner closes ihTarget ihInner =>
    exact printable_index (opens ▸ ihTarget legible.1)
      (closes ▸ ihInner legible.2.2.1)
  | ofIndexed inner ih =>
    exact fun level => (ih legible level).lift fun _ _ => .ofIndexed
  | ofSigned inner ih =>
    exact fun level => (ih legible level).lift fun _ _ => .ofSigned
  | unary isOp inner ih =>
    exact printable_unary (inner.givesOperand legible.2).opens (ih legible.2)
  | ofOperand inner ih =>
    exact fun level => (ih legible level).lift fun _ _ => .ofOperand
  | ofTighter inner ih =>
    exact fun level => (ih legible level).lift fun _ _ => .ofTighter
  | binary first isOp rank second ihFirst ihSecond =>
    exact printable_binary (ihFirst legible.1) isOp rank (ihSecond legible.2.2)
  | ofBinary inner ih =>
    rename_i line words next value
    intro level
    rw [(inner.givesOperand legible).flat line]
    exact (ih legible level).lift fun _ _ => .ofBinary
  | ifLine opens test isThen inner noElse ihTest ihInner =>
    exact printable_ifLine (isThen ▸ ihTest legible.2.1)
      (ihInner legible.2.2.2) noElse
  | ifLineElse opens test isThen inner isElse innerElse ihTest ihInner
      ihElse =>
    obtain ⟨-, legibleHead, -, legibleThen, -, legibleElse⟩ := legible
    exact printable_ifLineElse (isThen ▸ ihTest legibleHead)
      (isElse ▸ ihInner legibleThen) (ihElse legibleElse)
  | ifBlock opens test isBreak inner closes ihTest ihInner =>
    exact printable_ifBlock (isBreak ▸ ihTest legible.2.1)
      (closes ▸ ihInner legible.2.2.2.1)
  | ifBlockElse opens test isBreak inner isElse isElseBreak innerElse closes ihTest
      ihInner ihElse =>
    obtain ⟨-, legibleHead, -, legibleThen, -, -, legibleElse, -⟩ := legible
    exact printable_ifBlockElse (isBreak ▸ ihTest legibleHead)
      (isElse ▸ ihInner legibleThen) (closes ▸ ihElse legibleElse)
  | breakLoop => exact printable_breakLoop
  | continueLoop => exact printable_continueLoop
  | returnNothing isReturn stops => exact printable_returnNothing stops
  | returnValue isReturn inner ih =>
    exact printable_returnValue (ih legible.2)
  | assign first isTarget isOp second ihFirst ihSecond =>
    rcases target_cases isTarget with ⟨names, rfl⟩ | ⟨sameLayout, sameCount⟩
    · exact printable_assignTuple first isTarget legible.1 (ihSecond legible.2.2)
    · exact printable_assign (ihFirst legible.1) isTarget isOp
        (ihSecond legible.2.2) sameLayout sameCount
  | assignNames joined several isOp inner ih =>
    obtain ⟨filled, areNames⟩ := joined.areNames legible.1
    exact printable_assignNames filled areNames (by simp [Target.misplaced, several])
      (ih legible.2.2)
  | ofExpression inner ih =>
    exact fun level => (ih legible level).lift fun _ _ => .ofExpression
  | use opens joined => exact printable_use joined legible.2
  | classBare opens isName isBreak inner closes ih =>
    exact printable_classBare (legible.2.1.isName isName)
      (closes ▸ ih legible.2.2.2.1)
  | classFields opens isName isBracket params isBreak inner closes ihParams
      ihInner =>
    obtain ⟨-, legibleName, -, legibleParams, -, legibleBody, -⟩ := legible
    exact printable_classFields (legibleName.isName isName) isBracket
      (isBreak ▸ ihParams legibleParams) (closes ▸ ihInner legibleBody)
  | methodValue opens named isBracket params isEquals inner ihParams ihInner =>
    obtain ⟨-, legibleName, -, legibleParams, -, legibleValue⟩ := legible
    exact printable_methodValue (named.isName legibleName) isBracket
      (isEquals ▸ ihParams legibleParams) (ihInner legibleValue)
  | methodBlock opens named isBracket params isBreak inner closes ihParams
      ihInner =>
    obtain ⟨-, legibleName, -, legibleParams, -, legibleBody, -⟩ := legible
    exact printable_methodBlock (named.isName legibleName) isBracket
      (isBreak ▸ ihParams legibleParams) (closes ▸ ihInner legibleBody)
  | forLoop opens joined isIn elements isBreak inner closes ihElements ihInner =>
    obtain ⟨-, legibleNames, -, legibleSource, -, legibleBody, -⟩ := legible
    exact printable_forLoop joined legibleNames (isBreak ▸ ihElements legibleSource)
      (closes ▸ ihInner legibleBody)
  | whileLoop opens test isBreak inner closes ihTest ihInner =>
    exact printable_whileLoop (isBreak ▸ ihTest legible.2.1)
      (closes ▸ ihInner legible.2.2.2.1)
  | ofShort inner ih =>
    exact fun level => (ih legible level).lift fun _ _ => .ofShort
  | noLine ends => exact printable_noLine
  | emptyLine isBreak rest ih =>
    exact printable_emptyLine (ih legible.2)
  | line inner isBreak rest ihInner ihRest =>
    exact printable_line (isBreak ▸ ihInner legible.1) (ihRest legible.2.2)
  | expressionItem inner ih =>
    exact fun level => (ih legible level).lift fun _ _ => .expressionItem
  | entryItem isKey isColon inner ih =>
    exact printable_entryItem (legible.1.isName isKey) (ih legible.2.2)
  | plainItem isName => exact printable_plainItem (legible.1.isName isName)
  | defaultedItem isName isEquals inner ih =>
    exact printable_defaultedItem (legible.1.isName isName) (ih legible.2.2)
  | noItem before closes => exact printable_noItem
  | lastItem before inner after closes ih =>
    exact printable_lastItem (ih legible.2.1)
  | moreItems before inner after isComma others ihInner ihOthers =>
    obtain ⟨-, legibleItem, -, -, legibleOthers⟩ := legible
    exact printable_moreItems (ihInner legibleItem) (ihOthers legibleOthers)

end Parlance.Grammar
