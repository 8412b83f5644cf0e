import Parlance.Proofs.Grammar.Margins
import Parlance.Proofs.Grammar.Tails

/-!
Contract: which rows of words begin a phrase.

A row is viable if words can be written behind it so that the whole is a phrase. Owns: what may
stand behind a phrase without bearing on it (`Closed`), and that a phrase before one such word is a
phrase before any other; the smallest phrase of each kind; and how what begins a part of a phrase
begins the phrase. Also owns: that a derivation holds with more levels than it needs, also before
another word where the phrase bears it (`Derives.widen`), and that no phrase holds the end of the
input.
-/

namespace Parlance

variable {kind : Kind} {word : Lexeme} {front : List Lexeme} {more : Nat}

/-- A word of the given kind, as it is written. The name is `x`. -/
def Lexeme.sample : Kind → Lexeme
  | .name => ⟨.name, "x", ""⟩
  | .keyword word => ⟨.keyword word, word.spelling, ""⟩
  | .symbol mark => ⟨.symbol mark, mark.spelling, ""⟩
  | .newline => ⟨.newline, "\n", ""⟩
  | kind => ⟨kind, "", ""⟩

@[simp] theorem Lexeme.sample_kind (kind : Kind) : (Lexeme.sample kind).kind = kind := by
  cases kind <;> rfl

namespace Grammar

open Lexeme

/-! ## The word behind a phrase -/

/-- The kinds of word that may stand behind any phrase but lines, and that bear on none. -/
def settles : Kind → Bool
  | .newline => true
  | .keyword .kwEnd => true
  | .symbol .rparen | .symbol .rbracket | .symbol .comma => true
  | _ => false

theorem stopsReturn_of_settles (settled : settles kind = true) : stopsReturn kind = true := by
  unfold settles at settled
  split at settled <;> first | contradiction | rfl

theorem ne_else_of_settles (settled : settles kind = true) : kind ≠ .keyword .kwElse := by
  rintro rfl
  contradiction

theorem settles_close (bracket : Bracket) : settles (.symbol bracket.close) = true := by
  cases bracket <;> rfl

def Phrase.isLines : Phrase → Bool
  | .lines _ | .nestedLines _ => true
  | _ => false

/-- The phrases that end with a word of their own: the word behind them does not bear on them. -/
def Phrase.endsItself : Phrase → Bool
  | .indexed | .members | .primary | .items _ _ => true
  | _ => false

/-- A word of the second kind behind the phrase bears on it as one of the first kind does. -/
inductive Phrase.Bears (phrase : Phrase) (next : Kind) : Kind → Prop where
  | same : Bears phrase next next
  | itself {other : Kind} (ends : phrase.endsItself = true) :
      Bears phrase next other
  | settled {other : Kind} (notLines : phrase.isLines = false) (settled : settles other = true) :
      Bears phrase next other

section Bears

variable {phrase : Phrase} {next other : Kind}

theorem Phrase.Bears.part {part : Phrase} (bears : phrase.Bears next other)
    (itself : (!phrase.endsItself || part.endsItself) = true)
    (lines : (phrase.isLines || !part.isLines) = true) :
    part.Bears next other := by
  cases bears with
  | same => exact .same
  | itself ends => exact .itself (by simpa [ends] using itself)
  | settled notLines settled => exact .settled (by simpa [notLines] using lines) settled

theorem Phrase.Bears.eq_of_isLines (bears : phrase.Bears next other)
    (isLines : phrase.isLines = true) :
    next = other := by
  cases bears with
  | same => rfl
  | itself ends => cases phrase <;> contradiction
  | settled notLines => exact absurd (isLines.symm.trans notLines) Bool.noConfusion

theorem Phrase.Bears.ne_else (bears : phrase.Bears next other)
    (notItself : phrase.endsItself = false) (noElse : next ≠ .keyword .kwElse) :
    other ≠ .keyword .kwElse := by
  cases bears with
  | same => exact noElse
  | itself ends => exact absurd (ends.symm.trans notItself) Bool.noConfusion
  | settled _ settled => exact ne_else_of_settles settled

theorem Phrase.Bears.stops (bears : phrase.Bears next other) (notItself : phrase.endsItself = false)
    (stops : stopsReturn next = true) :
    stopsReturn other = true := by
  cases bears with
  | same => exact stops
  | itself ends => exact absurd (ends.symm.trans notItself) Bool.noConfusion
  | settled _ settled => exact stopsReturn_of_settles settled

end Bears

variable {levels : Nat} {phrase : Phrase} {words : List Lexeme} {next : Kind}

/-- What is derived within some levels is derived within more, and before a word that bears on it in
the same way. -/
theorem Derives.widen {other : Kind} {tree : phrase.Tree Unit}
    (derives : Derives levels phrase words next tree) (atMost : levels ≤ more)
    (bears : phrase.Bears next other) : Derives more phrase words other tree := by
  induction derives generalizing more other with
  -- A level is opened, so there is one to spare.
  | nested inner ih =>
    obtain ⟨less, rfl⟩ := Nat.exists_eq_add_of_lt atMost
    exact .nested (ih (by omega) (bears.part rfl rfl))
  | nestedLines inner ih =>
    obtain ⟨less, rfl⟩ := Nat.exists_eq_add_of_lt atMost
    obtain rfl := bears.eq_of_isLines rfl
    exact .nestedLines (ih (by omega) .same)
  | assign first isTarget isOp second ihFirst ihSecond =>
    obtain ⟨less, rfl⟩ := Nat.exists_eq_add_of_lt atMost
    exact .assign (ihFirst (by omega) .same) isTarget isOp
      (ihSecond atMost (bears.part rfl rfl))
  | number isNumber => exact .number isNumber
  | string isString => exact .string isString
  | boolean isBoolean => exact .boolean isBoolean
  | nil isNil => exact .nil isNil
  | name isName => exact .name isName
  | path joined several => exact .path joined several
  | grouping opens list ih =>
    exact .grouping opens (ih atMost (bears.part rfl rfl))
  | tuple opens list isTuple ih =>
    exact .tuple opens (ih atMost (bears.part rfl rfl)) isTuple
  | emptyDictionary opens before isColon after closes =>
    exact .emptyDictionary opens before isColon after closes
  | dictionary opens list filled ih =>
    exact .dictionary opens (ih atMost (bears.part rfl rfl)) filled
  | array opens list ih =>
    exact .array opens (ih atMost (bears.part rfl rfl))
  | closureLine opens joined isArrow inner closes ih =>
    exact .closureLine opens joined isArrow (ih atMost .same) closes
  | closureBlock opens joined isArrow isDo isBreak inner closes ih =>
    exact .closureBlock opens joined isArrow isDo isBreak (ih atMost .same)
      closes
  | ofPrimary inner ih =>
    exact .ofPrimary (ih atMost (bears.part rfl rfl))
  | call target opens inner ihTarget ihInner =>
    exact .call (ihTarget atMost .same) opens
      (ihInner atMost (bears.part rfl rfl))
  | access target isDot isName ih =>
    exact .access (ih atMost .same) isDot isName
  | ofMembers inner ih =>
    exact .ofMembers (ih atMost (bears.part rfl rfl))
  | index target opens inner closes ihTarget ihInner =>
    exact .index (ihTarget atMost .same) opens (ihInner atMost .same) closes
  | ofIndexed inner ih =>
    exact .ofIndexed (ih atMost (bears.part rfl rfl))
  | ofSigned inner ih =>
    exact .ofSigned (ih atMost (bears.part rfl rfl))
  | unary isOp inner ih =>
    exact .unary isOp (ih atMost (bears.part rfl rfl))
  | ofOperand inner ih =>
    exact .ofOperand (ih atMost (bears.part rfl rfl))
  | ofTighter inner ih =>
    exact .ofTighter (ih atMost (bears.part rfl rfl))
  | binary first isOp rank second ihFirst ihSecond =>
    exact .binary (ihFirst atMost .same) isOp rank
      (ihSecond atMost (bears.part rfl rfl))
  | ofBinary inner ih =>
    exact .ofBinary (ih atMost (bears.part rfl rfl))
  | ifLine opens test isThen inner noElse ihTest ihInner =>
    exact .ifLine opens (ihTest atMost .same) isThen
      (ihInner atMost (bears.part rfl rfl))
      (bears.ne_else rfl noElse)
  | ifLineElse opens test isThen inner isElse innerElse ihTest ihInner
      ihElse =>
    exact .ifLineElse opens (ihTest atMost .same) isThen (ihInner atMost .same)
      isElse
      (ihElse atMost (bears.part rfl rfl))
  | ifBlock opens test isBreak inner closes ihTest ihInner =>
    exact .ifBlock opens (ihTest atMost .same) isBreak (ihInner atMost .same)
      closes
  | ifBlockElse opens test isBreak inner isElse isElseBreak innerElse closes ihTest
      ihInner ihElse =>
    exact .ifBlockElse opens (ihTest atMost .same) isBreak (ihInner atMost .same)
      isElse
      isElseBreak (ihElse atMost .same) closes
  | breakLoop isBreak => exact .breakLoop isBreak
  | continueLoop isContinue => exact .continueLoop isContinue
  | returnNothing isReturn stops => exact .returnNothing isReturn (bears.stops rfl stops)
  | returnValue isReturn inner ih =>
    exact .returnValue isReturn (ih atMost (bears.part rfl rfl))
  | assignNames joined several isOp inner ih =>
    exact .assignNames joined several isOp (ih atMost (bears.part rfl rfl))
  | ofExpression inner ih =>
    exact .ofExpression (ih atMost (bears.part rfl rfl))
  | use opens joined => exact .use opens joined
  | classBare opens isName isBreak inner closes ih =>
    exact .classBare opens isName isBreak (ih atMost .same) closes
  | classFields opens isName isBracket params isBreak inner closes ihParams
      ihInner =>
    exact .classFields opens isName isBracket (ihParams atMost .same) isBreak
      (ihInner atMost .same) closes
  | methodValue opens named isBracket params isEquals inner ihParams ihInner =>
    exact .methodValue opens named isBracket (ihParams atMost .same) isEquals
      (ihInner atMost (bears.part rfl rfl))
  | methodBlock opens named isBracket params isBreak inner closes ihParams
      ihInner =>
    exact .methodBlock opens named isBracket (ihParams atMost .same) isBreak
      (ihInner atMost .same) closes
  | forLoop opens joined isIn elements isBreak inner closes ihElements ihInner =>
    exact .forLoop opens joined isIn (ihElements atMost .same) isBreak
      (ihInner atMost .same) closes
  | whileLoop opens test isBreak inner closes ihTest ihInner =>
    exact .whileLoop opens (ihTest atMost .same) isBreak (ihInner atMost .same)
      closes
  | ofShort inner ih =>
    exact .ofShort (ih atMost (bears.part rfl rfl))
  | noLine ends =>
    obtain rfl := bears.eq_of_isLines rfl
    exact .noLine ends
  | emptyLine isBreak rest ih =>
    obtain rfl := bears.eq_of_isLines rfl
    exact .emptyLine isBreak (ih atMost .same)
  | line inner isBreak rest ihInner ihRest =>
    obtain rfl := bears.eq_of_isLines rfl
    exact .line (ihInner atMost .same) isBreak (ihRest atMost .same)
  | expressionItem inner ih =>
    exact .expressionItem (ih atMost (bears.part rfl rfl))
  | entryItem isKey isColon inner ih =>
    exact .entryItem isKey isColon (ih atMost (bears.part rfl rfl))
  | plainItem isName => exact .plainItem isName
  | defaultedItem isName isEquals inner ih =>
    exact .defaultedItem isName isEquals (ih atMost (bears.part rfl rfl))
  | noItem before closes => exact .noItem before closes
  | lastItem before inner after closes ih =>
    exact .lastItem before (ih atMost .same) after closes
  | moreItems before inner after isComma others ihInner ihOthers =>
    exact .moreItems before (ihInner atMost .same) after isComma
      (ihOthers atMost (bears.part rfl rfl))

theorem Derives.mono {tree : phrase.Tree Unit} (derives : Derives levels phrase words next tree)
    (atMost : levels ≤ more) : Derives more phrase words next tree :=
  derives.widen atMost .same

theorem Derives.spare {tree : phrase.Tree Unit} (derives : Derives levels phrase words next tree) :
    Derives (levels + 1) phrase words next tree :=
  derives.mono (Nat.le_succ levels)

/-! ## Phrases that are closed -/

/-- The kinds of word that close a phrase. -/
def Phrase.closedBy : Phrase → Kind → Bool
  | .lines block, next | .nestedLines block, next => block.endsAt next
  | _, next => settles next

/-- Before any word that closes the phrase, the words form the tree. -/
def Closed (levels : Nat) (phrase : Phrase) (words : List Lexeme)
    (tree : phrase.Tree Unit) : Prop :=
  ∀ next, phrase.closedBy next = true → Derives levels phrase words next tree

theorem Derives.closed {tree : phrase.Tree Unit} (derives : Derives levels phrase words next tree)
    (notLines : phrase.isLines = false) :
    Closed levels phrase words tree := by
  intro other closed
  refine derives.widen (Nat.le_refl levels) (.settled notLines ?_)
  cases phrase <;> first | contradiction | exact closed

/-! ## Rows that begin a phrase -/

def Viable (levels : Nat) (phrase : Phrase) (words : List Lexeme) : Prop :=
  ∃ more tree, Closed levels phrase (words ++ more) tree

theorem Viable.of {row : List Lexeme} {tree : phrase.Tree Unit}
    (closed : ∀ next, phrase.closedBy next = true → Derives levels phrase row next tree)
    (more : List Lexeme) (same : row = words ++ more) :
    Viable levels phrase words := by
  subst same
  exact ⟨more, tree, closed⟩

/-- What begins a phrase begins one of another kind, if every phrase of the first kind is one of the
other. -/
theorem Viable.lift {deeper : Nat} {other : Phrase} {change : phrase.Tree Unit → other.Tree Unit}
    (viable : Viable levels phrase words)
    (closes : ∀ next, other.closedBy next = true → phrase.closedBy next = true)
    (lifts : ∀ row next tree, Derives levels phrase row next tree →
      Derives deeper other row next (change tree)) :
    Viable deeper other words := by
  obtain ⟨more, tree, closed⟩ := viable
  refine ⟨more, change tree, fun next isClosed => ?_⟩
  exact lifts _ next tree (closed next (closes next isClosed))

/-! ## The smallest phrases -/

section Smallest

variable {levels : Nat} {next : Kind}

theorem indexed_name (isName : word.kind = .name) :
    Derives levels .indexed [word] next (.variable word.text ()) :=
  .ofMembers (.ofPrimary (.name isName))

theorem binary_name (isName : word.kind = .name) (looseness : Nat) :
    Derives levels (.binary looseness) [word] next (.variable word.text ()) := by
  induction looseness with
  | zero => exact .ofOperand (.ofSigned (.ofIndexed (indexed_name isName)))
  | succ looseness ih => exact .ofTighter ih

/-- A name is a full expression wherever a level is left. -/
theorem nested_name (isName : word.kind = .name) (line : Bool) :
    Derives (levels + 1) (.nested line) [word] next (.variable word.text ()) :=
  .nested (.ofBinary (binary_name isName _))

theorem short_break (line : Bool) :
    Derives levels (.short line) [.sample (.keyword .kwBreak)] next (.breakLoop ()) :=
  .breakLoop rfl

theorem nestedLines_nil {block : Block} (ends : block.endsAt next = true) :
    Derives (levels + 1) (.nestedLines block) [] next [] :=
  .nestedLines (.noLine ends)

theorem items_nil (part : Part) (bracket : Bracket) :
    Derives levels (.items part bracket) [.sample (.symbol bracket.close)] next ([], false) :=
  .noItem .nil rfl

end Smallest

theorem Joined.viable {joints : List Kind} {words : List Lexeme} {names : List String}
    {joint : Lexeme} (joined : Joined joints words names)
    (isJoint : joints.contains joint.kind = true) :
    ∃ more found, Joined joints ((words ++ [joint]) ++ more) found ∧ 2 ≤ found.length := by
  refine ⟨[.sample .name], names ++ ["x"], ?_, ?_⟩
  · rw [List.append_assoc]
    exact joined.snoc isJoint rfl
  · cases joined <;> simp

/-! ## Lists and lines -/

section Rows

variable {levels : Nat} {part : Part} {bracket : Bracket}

/-- What stands behind an item and its line breaks closes the item. -/
theorem ItemsTail.settles {tail : List Lexeme} {next : Kind} {values : List (part.Tree Unit)}
    {divided : Bool} (rest : ItemsTail levels part bracket tail next values divided) :
    Grammar.settles (leading next tail) = true := by
  cases rest with
  | close closes =>
    rw [leading_cons, closes]
    exact settles_close bracket
  | comma isComma others =>
    rw [leading_cons, isComma]
    rfl

/-- Line breaks, one item and a tail form a list, whatever the item stood before, unless the list
closed there. -/
theorem OneItem.derives_before {words tail : List Lexeme} {next : Kind}
    {found values : List (part.Tree Unit)} {divided : Bool} (before : Breaks front)
    (one : OneItem levels part bracket words kind found)
    (rest : ItemsTail levels part bracket tail next values divided)
    (closed : kind = .symbol bracket.close → leading next tail = .symbol bracket.close) :
    Derives levels (.items part bracket) (front ++ (words ++ tail)) next
      (found ++ values, divided) := by
  cases one with
  | none => exact OneItem.none.derives before rest (closed rfl)
  | one item after =>
    rename_i words back value
    refine (OneItem.one ?_ after).derives before rest rfl
    cases back with
    | nil => exact item.closed rfl _ rest.settles
    | cons first back => exact item

theorem OneItem.mono {words : List Lexeme} {next : Kind} {found : List (part.Tree Unit)}
    (one : OneItem levels part bracket words next found) (atMost : levels ≤ more) :
    OneItem more part bracket words next found := by
  cases one with
  | none => exact .none
  | one item after => exact .one (item.mono atMost) after

/-- Line breaks and what begins an item begin a list. -/
theorem Viable.items {words : List Lexeme} (bracket : Bracket) (before : Breaks front)
    (viable : Viable levels (.item part) words) :
    Viable levels (.items part bracket) (front ++ words) := by
  obtain ⟨more, value, closed⟩ := viable
  have item := closed (.symbol bracket.close) (settles_close bracket)
  have whole : ∀ next, Derives levels (.items part bracket)
      (front ++ ((words ++ more) ++ ([] ++ [.sample (.symbol bracket.close)]))) next
        ([value], false) :=
    fun next => .lastItem before item .nil rfl
  exact .of (fun next _ => whole next) (more ++ [.sample (.symbol bracket.close)]) (by simp)

theorem OneLine.mono {block : Block} {words : List Lexeme} {next : Kind} {found : List (Stmt Unit)}
    (one : OneLine levels block words next found) (atMost : levels ≤ more) :
    OneLine more block words next found := by
  cases one with
  | empty stops => exact .empty stops
  | filled inner => exact .filled (inner.mono atMost)

theorem OneItem.filled {words : List Lexeme} {next : Kind} {found : List (part.Tree Unit)}
    (one : OneItem levels part bracket words kind found)
    (leads : leading kind (front ++ words) = next) (isName : next = .name) :
    front ++ words ≠ [] := by
  intro nothing
  rw [nothing, leading_nil] at leads
  obtain ⟨-, noWords⟩ := List.append_eq_nil_iff.mp nothing
  subst isName leads
  generalize isKind : (Kind.name : Kind) = kind at one
  cases one with
  | none => cases bracket <;> contradiction
  | one item after =>
    obtain ⟨first, rest, words, -⟩ := item.begun rfl
    rw [words] at noWords
    cases noWords

end Rows

variable {words : List Lexeme}

/-! ## The end of the input -/

/-- No word is the end of the input. -/
def Inside (words : List Lexeme) : Prop :=
  ∀ word ∈ words, word.kind ≠ .endOfInput

@[simp] theorem inside_nil : Inside [] := by
  simp [Inside]

@[simp] theorem inside_cons {words : List Lexeme} :
    Inside (word :: words) ↔ word.kind ≠ .endOfInput ∧ Inside words := by
  simp [Inside]

@[simp] theorem inside_append {back : List Lexeme} :
    Inside (front ++ back) ↔ Inside front ∧ Inside back := by
  simp [Inside, or_imp, forall_and]

theorem inside_of_breaks (breaks : Breaks words) : Inside words := by
  intro word member
  simp [breaks word member]

theorem Joined.inside {joints : List Kind} {names : List String} (inner : .endOfInput ∉ joints)
    (joined : Joined joints words names) :
    Inside words := by
  induction joined with
  | one isName => simp [isName]
  | more isName isJoint rest ih =>
    rename_i joint _ _
    refine inside_cons.mpr ⟨by simp [isName], inside_cons.mpr ⟨?_, ih⟩⟩
    intro isOver
    rw [isOver] at isJoint
    simp [inner] at isJoint

theorem MethodName.inside {shared : Bool} {name : String} (named : MethodName shared words name) :
    Inside words := by
  cases named with
  | own isName => simp [isName]
  | shared isOwner isSelf isColons isName => simp [isOwner, isColons, isName]

theorem not_over_of_assign {op : AssignOp} (isOp : AssignOp.ofKind? word.kind = some op) :
    word.kind ≠ .endOfInput := by
  intro isOver
  rw [isOver] at isOp
  cases isOp

theorem not_over_of_binary {op : BinaryOp} (isOp : BinaryOp.ofKind? word.kind = some op) :
    word.kind ≠ .endOfInput := by
  intro isOver
  rw [isOver] at isOp
  cases isOp

theorem Derives.inside {levels : Nat} {phrase : Phrase} {next : Kind} {tree : phrase.Tree Unit}
    (derives : Derives levels phrase words next tree) :
    Inside words := by
  induction derives with
  | path joined several => exact joined.inside (by decide)
  | emptyDictionary opens before isColon after closes =>
    simp [opens, inside_of_breaks before, isColon, inside_of_breaks after, closes]
  | closureLine opens joined isArrow inner closes ih =>
    simp [opens, joined.inside (by decide), isArrow, ih, closes]
  | closureBlock opens joined isArrow isDo isBreak inner closes ih =>
    simp [opens, joined.inside (by decide), isArrow, isDo, isBreak, ih, closes]
  | unary isOp inner ih =>
    rename_i op _ _ _ _
    refine inside_cons.mpr ⟨?_, ih⟩
    rw [isOp]
    cases op <;> simp [UnaryOp.kind]
  | binary first isOp rank second ihFirst ihSecond =>
    simp [ihFirst, not_over_of_binary isOp, ihSecond]
  | assign first isTarget isOp second ihFirst ihSecond =>
    simp [ihFirst, not_over_of_assign isOp, ihSecond]
  | assignNames joined several isOp inner ih =>
    simp [joined.inside (by decide), not_over_of_assign isOp, ih]
  | use opens joined => simp [opens, joined.inside (by decide)]
  | methodValue opens named isBracket params isEquals inner ihParams ihInner =>
    simp [opens, named.inside, isBracket, ihParams, isEquals, ihInner]
  | methodBlock opens named isBracket params isBreak inner closes ihParams
      ihInner =>
    simp [opens, named.inside, isBracket, ihParams, isBreak, ihInner, closes]
  | forLoop opens joined isIn elements isBreak inner closes ihElements ihInner =>
    simp [opens, joined.inside (by decide), isIn, ihElements, isBreak, ihInner,
      closes]
  | noItem before closes => simp [inside_of_breaks before, closes]
  | lastItem before inner after closes ih =>
    simp [inside_of_breaks before, ih, inside_of_breaks after, closes]
  | moreItems before inner after isComma others ihInner ihOthers =>
    simp [inside_of_breaks before, ihInner, inside_of_breaks after, isComma, ihOthers]
  -- The words of the other rules are given by their kinds.
  | _ => simp_all

end Grammar

end Parlance
