import Parlance.Proofs.Grammar.Derivation

/-!
Contract: what stands at the margins of phrases.

Owns: the kinds of word that a phrase can begin with, the kinds that behind a phrase do not continue
it, and the law that every phrase has a first word of a kind it can begin with. One word of
lookahead decides between phrases because of these sets. Only a dictionary needs a second word: in
no expression does a colon follow a name at the front.
-/

namespace Parlance.Grammar

open Lexeme

variable {kind next : Kind} {phrase : Phrase} {words : List Lexeme}

def beginsPrimary : Kind → Bool
  | .name | .number | .string | .boolean | .nil => true
  | .symbol .lparen | .symbol .lbracket => true
  | .keyword .kwFn => true
  | _ => false

/-- The kinds of word that a phrase can begin with. Rows may be empty and are not
restricted. -/
def Phrase.begins : Phrase → Kind → Bool
  | .primary, kind | .members, kind | .indexed, kind => beginsPrimary kind
  | .prefixed .minus, kind => beginsPrimary kind || kind == .symbol .minus
  | .prefixed .not, kind | .binary _, kind =>
    beginsPrimary kind || kind == .symbol .minus || kind == .keyword .kwNot
  | .expression _, kind | .nested _, kind | .item .expression, kind =>
    beginsPrimary kind || kind == .symbol .minus || kind == .keyword .kwNot ||
      kind == .keyword .kwIf
  | .short _, kind =>
    beginsPrimary kind || kind == .symbol .minus || kind == .keyword .kwNot ||
      kind == .keyword .kwIf || kind == .keyword .kwBreak || kind == .keyword .kwContinue ||
      kind == .keyword .kwReturn
  | .statement, kind =>
    beginsPrimary kind || kind == .symbol .minus || kind == .keyword .kwNot ||
      kind == .keyword .kwIf || kind == .keyword .kwBreak || kind == .keyword .kwContinue ||
      kind == .keyword .kwReturn || kind == .keyword .kwUse || kind == .keyword .kwClass ||
      kind == .keyword .kwDef || kind == .keyword .kwFor || kind == .keyword .kwWhile
  | .item .entry, kind | .item .param, kind => kind == .name
  | .lines _, _ | .nestedLines _, _ | .items _ _, _ => true

def Phrase.isRow : Phrase → Bool
  | .lines _ | .nestedLines _ | .items _ _ => true
  | _ => false

def Phrase.isValue : Phrase → Bool
  | .expression _ | .nested _ | .binary _ | .prefixed _ | .indexed | .members | .primary
  | .item .expression => true
  | _ => false

/-- The kinds of word that can stand behind a full expression which does not fill a line. -/
def closesValue : Kind → Bool
  | .newline => true
  | .keyword .kwThen | .keyword .kwElse | .keyword .kwEnd => true
  | .symbol .rparen | .symbol .rbracket | .symbol .comma => true
  | _ => false

/-- The kinds of word that can stand behind a full expression or a short statement. Behind one that
fills a line there is the end of the line, or an `else`. -/
def closes : Bool → Kind → Bool
  | true, kind => kind == .newline || kind == .keyword .kwElse
  | false, kind => closesValue kind

/-- The kinds of word that continue a chain of members, calls and indexes, or a path. -/
def continuesChain : Kind → Bool
  | .symbol .lparen | .symbol .lbracket | .symbol .dot | .symbol .doubleColon => true
  | _ => false

theorem closesValue_of_closes {line : Bool} (closed : closes line kind = true) :
    closesValue kind = true := by
  cases line with
  | false => exact closed
  | true =>
    simp only [closes, Bool.or_eq_true, beq_iff_eq] at closed
    rcases closed with rfl | rfl <;> rfl

theorem not_continues_of_closesValue (closed : closesValue kind = true) :
    continuesChain kind = false ∧ BinaryOp.ofKind? kind = none ∧ AssignOp.ofKind? kind = none := by
  unfold closesValue at closed
  split at closed <;> first | contradiction | exact ⟨rfl, rfl, rfl⟩

theorem closes_else (line : Bool) : closes line (.keyword .kwElse) = true := by
  cases line <;> rfl

/-- A binary operator continues no chain of members, calls and indexes. -/
theorem not_continues_of_binary {op : BinaryOp} (isOp : BinaryOp.ofKind? kind = some op) :
    continuesChain kind = false := by
  unfold BinaryOp.ofKind? at isOp
  split at isOp <;> first | contradiction | rfl

theorem not_continues_of_assign {op : AssignOp} (isOp : AssignOp.ofKind? kind = some op) :
    continuesChain kind = false ∧ BinaryOp.ofKind? kind = none := by
  unfold AssignOp.ofKind? at isOp
  split at isOp <;> first | contradiction | exact ⟨rfl, rfl⟩

theorem begins_nested_of_indexed (begins : Phrase.indexed.begins kind = true) :
    (Phrase.nested false).begins kind = true := by
  simp only [Phrase.begins] at begins ⊢
  simp [begins]

/-- What a value begins with neither stops a `return` nor is a jump. -/
theorem begins_value {line : Bool} (begins : (Phrase.nested line).begins kind = true) :
    stopsReturn kind = false ∧ kind ≠ .keyword .kwBreak ∧ kind ≠ .keyword .kwContinue ∧
      kind ≠ .keyword .kwReturn := by
  refine ⟨?_, ?_, ?_, ?_⟩
  · unfold stopsReturn
    split
    case h_8 => rfl
    all_goals simp [Phrase.begins, beginsPrimary] at begins
  all_goals
    rintro rfl
    simp [Phrase.begins, beginsPrimary] at begins

theorem Joined.second {first : Lexeme} {others : List Lexeme} {names : List String}
    (joined : Joined [.symbol .comma] (first :: others) names) (several : 2 ≤ names.length)
    (behind : Kind) :
    leading behind others = .symbol .comma := by
  cases joined with
  | one isName => simp at several
  | more isName isJoint tail => simpa using isJoint

theorem Joined.begins {joints : List Kind} {names : List String}
    (joined : Joined joints words names) :
    ∃ first rest, words = first :: rest ∧ first.kind = .name := by
  cases joined with
  | one isName => exact ⟨_, [], rfl, isName⟩
  | more isName isJoint rest => exact ⟨_, _, rfl, isName⟩

/-- What is known of the first word of a phrase before a word of the kind `next`, and of the word
behind the first. -/
def Begun (phrase : Phrase) (words : List Lexeme) (next : Kind) : Prop :=
  phrase.isRow = false →
    ∃ first rest, words = first :: rest ∧ phrase.begins first.kind = true ∧
      (phrase.isValue = true → first.kind = .name → next ≠ .symbol .colon →
        leading next rest ≠ .symbol .colon)

theorem Begun.ofFirst {first : Lexeme} {rest : List Lexeme}
    (begins : phrase.begins first.kind = true)
    (notName : phrase.isValue = true → first.kind ≠ .name) :
    Begun phrase (first :: rest) next :=
  fun _ => ⟨first, rest, rfl, begins, fun isValue isName => absurd isName (notName isValue)⟩

theorem Begun.ofPart {part : Phrase} (begun : Begun part words next) (filled : part.isRow = false)
    (widens : ∀ kind, part.begins kind = true → phrase.begins kind = true)
    (value : phrase.isValue = true → part.isValue = true) :
    Begun phrase words next := by
  intro _
  obtain ⟨first, rest, same, begins, second⟩ := begun filled
  exact ⟨first, rest, same, widens _ begins, fun isValue => second (value isValue)⟩

theorem Begun.append {front back : List Lexeme} {middle : Lexeme}
    (begun : Begun phrase front middle.kind) (notColon : middle.kind ≠ .symbol .colon) :
    Begun phrase (front ++ middle :: back) next := by
  intro filled
  obtain ⟨first, rest, rfl, begins, second⟩ := begun filled
  refine ⟨first, rest ++ middle :: back, rfl, begins, ?_⟩
  intro isValue isName _
  simpa using second isValue isName notColon

theorem Derives.begun {levels : Nat} {tree : phrase.Tree Unit}
    (derives : Derives levels phrase words next tree) :
    Begun phrase words next := by
  induction derives with
  | number isWord | string isWord | boolean isWord | nil isWord =>
    exact .ofFirst (by simp [Phrase.begins, beginsPrimary, isWord]) (by simp [isWord])
  | name isName =>
    exact fun _ =>
      ⟨_, [], rfl, by simp [Phrase.begins, beginsPrimary, isName], fun _ _ other => other⟩
  | path joined several =>
    cases joined with
    | one isName => simp at several
    | more isName isJoint rest =>
      refine fun _ => ⟨_, _, rfl, by simp [Phrase.begins, beginsPrimary, isName], ?_⟩
      intro _ _ _
      simp only [List.contains_cons, List.contains_nil, Bool.or_false, beq_iff_eq] at isJoint
      simp [isJoint]
  | grouping opens | tuple opens | emptyDictionary opens | dictionary opens | array opens
  | closureLine opens | closureBlock opens =>
    exact .ofFirst (by simp [Phrase.begins, beginsPrimary, opens]) (by simp [opens])
  | ifLine opens | ifLineElse opens | ifBlock opens | ifBlockElse opens =>
    exact .ofFirst (by simp [Phrase.begins, opens]) (by simp [opens])
  | breakLoop isWord | continueLoop isWord | returnNothing isWord | returnValue isWord =>
    exact .ofFirst (by simp [Phrase.begins, isWord]) (by simp [isWord])
  | use opens | classBare opens | classFields opens | methodValue opens | methodBlock opens
  | forLoop opens | whileLoop opens =>
    exact .ofFirst (by simp [Phrase.begins, opens]) (by simp [opens])
  | entryItem isName | plainItem isName | defaultedItem isName =>
    exact .ofFirst (by simp [Phrase.begins, isName]) (by simp [Phrase.isValue])
  | unary isOp inner ih =>
    rename_i op _ _ _ _
    cases op <;> exact .ofFirst (by simp [Phrase.begins, isOp, UnaryOp.kind])
      (by simp [isOp, UnaryOp.kind])
  -- Phrases that are a tighter phrase.
  | nested inner ih | ofPrimary inner ih
  | ofMembers inner ih | ofIndexed inner ih
  | ofSigned inner ih | ofOperand inner ih
  | ofTighter inner ih | ofBinary inner ih
  | ofExpression inner ih | ofShort inner ih
  | expressionItem inner ih =>
    refine ih.ofPart rfl (fun kind begins => ?_) (by simp [Phrase.isValue])
    simp only [Phrase.begins, Bool.or_eq_true] at begins ⊢
    grind
  -- Chains, which begin as their first part does.
  | call target opens inner ih =>
    exact ih.append (by simp [opens])
  | access target isDot isName ih =>
    exact ih.append (by simp [isDot])
  | index target opens inner closes ih =>
    exact ih.append (by simp [opens])
  | binary first isOp rank second ih =>
    refine ih.append fun isColon => ?_
    simp [isColon, BinaryOp.ofKind?] at isOp
  | assign first isTarget isOp second ih =>
    refine (ih.append fun isColon => ?_).ofPart rfl (fun kind begins => ?_)
      (by simp [Phrase.isValue])
    · simp [isColon, AssignOp.ofKind?] at isOp
    · simp only [Phrase.begins, Bool.or_eq_true] at begins ⊢
      grind
  | assignNames joined several isOp inner ih =>
    obtain ⟨first, rest, rfl, isName⟩ := joined.begins
    exact .ofFirst (by simp [Phrase.begins, beginsPrimary, isName]) (by simp [Phrase.isValue])
  -- Rows.
  | nestedLines | noLine | emptyLine | line | noItem | lastItem | moreItems =>
    simp [Begun, Phrase.isRow]

theorem Derives.begins {levels : Nat} {tree : phrase.Tree Unit}
    (derives : Derives levels phrase words next tree) (filled : phrase.isRow = false)
    (behind : Kind) :
    phrase.begins (leading behind words) = true := by
  obtain ⟨first, rest, rfl, begins, -⟩ := derives.begun filled
  exact begins

end Parlance.Grammar
