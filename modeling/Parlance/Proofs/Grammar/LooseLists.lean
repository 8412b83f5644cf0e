import Mathlib.Data.List.TakeWhile
import Parlance.Proofs.Grammar.Acceptance
import Parlance.Proofs.Grammar.Loosening

/-!
Contract: line breaks and commas at the margins of lists do not matter.

What is added to a row stands at the margins of its lists. So each phrase of the row passes to a
phrase of the other row that forms the same tree, and behind it the same is open as before it; only a
list may be divided by a comma where it was not. Owns: this law of phrases (`Loosens`), by induction
on how they are formed, and the theorem about rows of tokens.
-/

namespace Parlance

open Lexeme Bracketing

/-! ## Words that stay -/

/-- The kinds of word that close nothing and divide neither a list nor a line. -/
def Kind.isInner : Kind → Bool
  | .newline | .symbol .comma | .symbol .rparen | .symbol .rbracket => false
  | .keyword .kwThen | .keyword .kwEnd => false
  | _ => true

/-- Whether a phrase may stand here that fills a line, or one that does not. -/
def Bracketing.admits : Bool → List Frame → Bool
  | true, frames => onLine frames
  | false, frames => settled frames

section Words

variable {frames : List Frame} {ended : Bool} {after : Bracketing} {kind : Kind}
variable {word : Lexeme} {words : List Lexeme} {good : List Lexeme → Prop}

theorem Bracketing.settled_of_admits {line : Bool} (admits : admits line frames = true) :
    settled frames = true := by
  cases line with
  | true => exact settled_of_onLine admits
  | false => exact admits

theorem Bracketing.next_of_isInner (inner : kind.isInner = true) (settled : settled frames = true) :
    next ⟨frames, ended⟩ kind = enter ⟨frames, ended⟩ kind := by
  have filled := fill_of_settled settled
  have assigned := assign_of_settled settled
  unfold next
  split <;> first | contradiction | simp only [filled, assigned] <;> rfl

theorem Bracketing.tight_of_isInner (inner : kind.isInner = true)
    (settled : settled frames = true) :
    tight ⟨frames, ended⟩ kind = true := by
  apply tight_of_settled settled
  cases kind with
  | symbol mark => cases mark <;> first | contradiction | rfl
  | newline => contradiction
  | keyword | name | number | string | boolean | nil | endOfInput => rfl

/-- In the midst of an item, or where no list is open. -/
theorem Passes.inner (isKind : word.kind = kind) (inner : kind.isInner = true)
    (settled : settled frames = true)
    (rest : Passes (enter ⟨frames, ended⟩ kind) words after fun behind => good (word :: behind)) :
    Passes ⟨frames, ended⟩ (word :: words) after good := by
  refine .cons isKind (tight_of_isInner inner settled) ?_
  rw [next_of_isInner inner settled]
  exact rest

section Operators

variable (settled : settled frames = true)
  (rest : Passes ⟨frames, false⟩ words after fun behind => good (word :: behind))

include settled rest

theorem Passes.unary {op : UnaryOp} (isOp : word.kind = op.kind) :
    Passes ⟨frames, ended⟩ (word :: words) after good := by
  cases op <;> exact .inner isOp rfl settled rest

theorem Passes.binary {op : BinaryOp} (isOp : BinaryOp.ofKind? word.kind = some op) :
    Passes ⟨frames, ended⟩ (word :: words) after good := by
  unfold BinaryOp.ofKind? at isOp
  split at isOp <;> rename_i isKind <;>
    first | contradiction | exact .inner isKind rfl settled rest

theorem Passes.assign {op : AssignOp} (isOp : AssignOp.ofKind? word.kind = some op) :
    Passes ⟨frames, ended⟩ (word :: words) after good := by
  unfold AssignOp.ofKind? at isOp
  split at isOp <;> rename_i isKind <;>
    first | contradiction | exact .inner isKind rfl settled rest

end Operators

theorem Passes.lineEnd (isBreak : word.kind = .newline) (onLine : onLine frames = true)
    (rest : Passes ⟨frames, false⟩ words after fun behind => good (word :: behind)) :
    Passes ⟨frames, ended⟩ (word :: words) after good := by
  refine .cons isBreak (tight_of_onLine onLine _) ?_
  rw [next, feed_of_onLine onLine]
  exact rest

theorem Passes.closing (closes : word.kind = .keyword .kwEnd) (holds : good [word]) :
    Passes ⟨.clause :: frames, ended⟩ [word] ⟨frames, true⟩ good :=
  .cons closes rfl (.nil holds)

/-- Line breaks behind an opening bracket or a comma, and the word behind them. -/
theorem Passes.opened {loose : Bool} {front : List Lexeme} {middle : Bracketing}
    (breaks : Breaks front) (leads : next ⟨.list loose false :: frames, false⟩ word.kind = middle)
    (rest : ∀ added, Breaks added →
      Passes middle words after fun behind => good (added ++ word :: behind)) :
    Passes ⟨.list loose false :: frames, false⟩ (front ++ word :: words) after good := by
  intro more others loosened
  rw [List.append_assoc, List.cons_append] at loosened
  obtain ⟨added, tail, rfl, areBreaks, behind⟩ := loosened.behind_opening breaks
  rw [leads] at behind
  obtain ⟨inner, tail, rfl, isGood, further⟩ := rest added areBreaks more tail behind
  refine ⟨added ++ word :: inner, tail, ?_, isGood, further⟩
  rw [List.append_assoc, List.cons_append]

end Words

/-! ## Names -/

namespace Grammar

section Names

variable {frames : List Frame} {words : List Lexeme} {names : List String}

theorem Joined.passes {joints : List Kind} (joined : Joined joints words names)
    (settled : settled frames = true) (joints_pass : ∀ kind, joints.contains kind = true →
      tight ⟨frames, true⟩ kind = true ∧ next ⟨frames, true⟩ kind = ⟨frames, false⟩) :
    Passes ⟨frames, false⟩ words ⟨frames, true⟩ (· = words) := by
  induction joined with
  | one isName => exact .inner isName rfl settled (.nil rfl)
  | more isName isJoint rest ih =>
    obtain ⟨isTight, leads⟩ := joints_pass _ isJoint
    refine .inner isName rfl settled (.cons rfl isTight ?_)
    rw [show (enter ⟨frames, false⟩ .name).next _ = ⟨frames, false⟩ from leads]
    exact ih.imp fun _ same => by rw [same]

theorem Joined.passes_commas (joined : Joined [.symbol .comma] words names)
    (onLine : onLine frames = true) :
    Passes ⟨frames, false⟩ words ⟨frames, true⟩ (· = words) := by
  refine joined.passes (settled_of_onLine onLine) fun kind isJoint => ?_
  obtain rfl : kind = .symbol .comma := by simpa using isJoint
  refine ⟨tight_of_onLine onLine _, ?_⟩
  rw [next, divide_of_onLine onLine]

theorem Joined.passes_path {joints : List Kind} (joined : Joined joints words names)
    (settled : settled frames = true)
    (plain : joints.all fun kind => kind == .symbol .doubleColon || kind == .symbol .dot) :
    Passes ⟨frames, false⟩ words ⟨frames, true⟩ (· = words) := by
  refine joined.passes settled fun kind isJoint => ?_
  have isPlain := List.all_eq_true.mp plain kind (List.contains_iff_mem.mp isJoint)
  simp only [Bool.or_eq_true, beq_iff_eq] at isPlain
  rcases isPlain with rfl | rfl
  · exact ⟨tight_of_settled settled rfl, next_of_isInner rfl settled⟩
  · exact ⟨tight_of_settled settled rfl, next_of_isInner rfl settled⟩

theorem MethodName.passes {shared : Bool} {name : String} (named : MethodName shared words name) :
    Passes ⟨.method :: frames, false⟩ words ⟨.method :: frames, true⟩ (· = words) := by
  cases named with
  | own isName => exact .cons isName rfl (.nil rfl)
  | shared isOwner isSelf isColons isName =>
    exact .cons isOwner rfl (.cons isColons rfl (.cons isName rfl (.nil rfl)))

end Names

/-! ## Phrases -/

def Phrase.suits : Phrase → List Frame → Bool
  | .lines _, frames | .nestedLines _, frames | .statement, frames => onLine frames
  | .short line, frames | .expression line, frames | .nested line, frames => admits line frames
  | _, frames => settled frames

def Phrase.isOperand : Phrase → Bool
  | .primary | .members | .indexed => true
  | _ => false

theorem Phrase.settled_of_suits {phrase : Phrase} {frames : List Frame}
    (suits : phrase.suits frames = true) :
    settled frames = true := by
  unfold Phrase.suits at suits
  split at suits
  all_goals first
    | exact suits
    | exact settled_of_onLine suits
    | exact settled_of_admits suits

/-- What becomes of the words of a phrase forms the same tree, and behind it the same is open as
before it. -/
def Steady (levels : Nat) (phrase : Phrase) (words : List Lexeme) (next : Kind)
    (tree : phrase.Tree Unit) : Prop :=
  ∀ frames, phrase.suits frames = true →
    ∃ ended, (phrase.isOperand = true → ended = true) ∧
      Passes ⟨frames, false⟩ words ⟨frames, ended⟩
        fun inner => Derives levels phrase inner next tree

/-- What becomes of the words of a list forms the same items. A comma divides it if one did, or if
one may be added behind the last item. -/
def SteadyList (levels : Nat) (part : Part) (bracket : Bracket) (words : List Lexeme) (next : Kind)
    (list : List (part.Tree Unit) × Bool) : Prop :=
  ∀ loose frames, Passes ⟨.list loose false :: frames, false⟩ words ⟨frames, true⟩ fun inner =>
    ∃ divided, Derives levels (.items part bracket) inner next (list.1, divided) ∧
      (divided = list.2 ∨ loose = true ∧ divided = true)

/-- What line breaks and commas at the margins of lists leave as it is. -/
def Loosens (levels : Nat) :
    (phrase : Phrase) → List Lexeme → Kind → phrase.Tree Unit → Prop
  | .items part bracket, words, next, list => SteadyList levels part bracket words next list
  | phrase, words, next, tree => Steady levels phrase words next tree

section Rules

variable {levels : Nat} {next : Kind}

theorem Steady.lift {more : Nat} {phrase wider : Phrase} {words : List Lexeme}
    {tree : phrase.Tree Unit} {other : wider.Tree Unit}
    (steady : Steady levels phrase words next tree)
    (suits : ∀ frames, wider.suits frames = true → phrase.suits frames = true)
    (operand : (!wider.isOperand || phrase.isOperand) = true)
    (rule : ∀ inner, Derives levels phrase inner next tree → Derives more wider inner next other) :
    Steady more wider words next other := by
  intro frames isSuited
  obtain ⟨ended, isEnded, passes⟩ := steady frames (suits frames isSuited)
  refine ⟨ended, fun isOperand => isEnded ?_, passes.imp rule⟩
  simpa [isOperand] using operand

theorem Steady.word {phrase : Phrase} {ended : Bool} {kind : Kind} {word : Lexeme}
    {tree : phrase.Tree Unit} (isKind : word.kind = kind) (inner : kind.isInner = true)
    (leads : ∀ frames, enter ⟨frames, false⟩ kind = ⟨frames, ended⟩)
    (operand : (!phrase.isOperand || ended) = true)
    (rule : Derives levels phrase [word] next tree) :
    Steady levels phrase [word] next tree := by
  intro frames isSuited
  refine ⟨ended, fun isOperand => by simpa [isOperand] using operand,
    .inner isKind inner (phrase.settled_of_suits isSuited) ?_⟩
  rw [leads]
  exact .nil rule

/-! ### Lists -/

section Lists

variable {part : Part} {bracket : Bracket} {front back words rest : List Lexeme}
variable {loose ended : Bool} {frames : List Frame} {word : Lexeme} {after : Bracketing}

theorem settles_leading {kind : Kind} (isKind : word.kind = kind) (settled : settles kind = true)
    (breaks : Breaks front) :
    settles (leading word.kind front) = true := by
  cases front with
  | nil =>
    rw [leading_nil, isKind]
    exact settled
  | cons first front =>
    rw [leading_cons, breaks first (by simp)]
    rfl

theorem next_close (closes : word.kind = .symbol bracket.close) (place : Bracketing) :
    place.next word.kind = ⟨place.frames.tail, true⟩ := by
  rw [closes]
  cases bracket <;> rfl

theorem Steady.item {value : part.Tree Unit} (steady : Steady levels (.item part) words next value)
    (derives : Derives levels (.item part) words next value) (breaks : Breaks front) (loose : Bool)
    (frames : List Frame) :
    ∃ ended, Passes ⟨.list loose false :: frames, false⟩ (front ++ words)
      ⟨.list loose true :: frames, ended⟩
      fun inner => ∃ added item, inner = added ++ item ∧ Breaks added ∧
        Closed levels (.item part) item value := by
  obtain ⟨ended, -, passes⟩ := steady (.list loose true :: frames) rfl
  obtain ⟨first, others, rfl, begins, -⟩ := derives.begun rfl
  have notBreak : first.kind ≠ .newline := by
    intro isBreak
    rw [isBreak] at begins
    cases part <;> cases begins
  have notColon : first.kind ≠ .symbol .colon := by
    intro isColon
    rw [isColon] at begins
    cases part <;> cases begins
  refine ⟨ended, fun rest row loosened => ?_⟩
  rw [List.append_assoc, List.cons_append] at loosened
  obtain ⟨added, tail, rfl, areBreaks, behind⟩ := loosened.behind_opening breaks
  obtain ⟨inner, tail, same, isItem, further⟩ :=
    passes rest _ (behind.of_begun notBreak notColon)
  refine ⟨added ++ inner, tail, ?_, ⟨added, inner, rfl, areBreaks, isItem.closed rfl⟩, further⟩
  rw [same, List.append_assoc]

theorem SteadyList.noItem (before : Breaks front) (closes : word.kind = .symbol bracket.close) :
    SteadyList levels part bracket (front ++ [word]) next ([], false) := by
  intro loose frames
  refine .opened before (next_close closes _) fun added areBreaks => .nil ?_
  exact ⟨false, .noItem areBreaks closes, .inl rfl⟩

theorem SteadyList.lastItem {kind : Kind} {value : part.Tree Unit} (before : Breaks front)
    (inner : Derives levels (.item part) words kind value)
    (steady : Steady levels (.item part) words kind value) (after : Breaks back)
    (closes : word.kind = .symbol bracket.close) :
    SteadyList levels part bracket (front ++ (words ++ (back ++ [word]))) next
      ([value], false) := by
  intro loose frames rest row loosened
  have closesList : word.kind.closesList = true := by
    rw [closes]
    cases bracket <;> rfl
  obtain ⟨ended, passes⟩ := steady.item inner before loose frames
  have parts : front ++ (words ++ (back ++ [word])) ++ rest =
      front ++ words ++ (back ++ word :: rest) := by simp
  rw [parts] at loosened
  obtain ⟨_, tail, rfl, ⟨added, item, rfl, areBreaks, closed⟩, behind⟩ := passes _ row loosened
  obtain ⟨more, tail, moreBreaks, further, shape⟩ := behind.before_closing after closesList
  have settled := settles_leading closes (settles_close bracket) moreBreaks
  rcases shape with rfl | ⟨isLoose, comma, last, isComma, lastBreaks, rfl⟩
  · refine ⟨added ++ (item ++ (more ++ [word])), tail, by simp, ⟨false, ?_, .inl rfl⟩, further⟩
    exact .lastItem areBreaks (closed _ settled) moreBreaks closes
  · -- The comma behind the item divides the list, and no item follows it.
    refine ⟨added ++ (item ++ (more ++ comma :: (last ++ [word]))), tail, by simp,
      ⟨true, ?_, .inr ⟨isLoose, rfl⟩⟩, further⟩
    have divides := settles_leading isComma rfl moreBreaks
    exact .moreItems areBreaks (closed _ divides) moreBreaks isComma (.noItem lastBreaks closes)

theorem SteadyList.moreItems {kind : Kind} {value : part.Tree Unit} {values : List (part.Tree Unit)}
    {divided : Bool} (before : Breaks front) (inner : Derives levels (.item part) words kind value)
    (steady : Steady levels (.item part) words kind value) (after : Breaks back)
    (isComma : word.kind = .symbol .comma)
    (others : SteadyList levels part bracket rest next (values, divided)) :
    SteadyList levels part bracket (front ++ (words ++ (back ++ word :: rest))) next
      (value :: values, true) := by
  intro loose frames behind row loosened
  obtain ⟨ended, passes⟩ := steady.item inner before loose frames
  have parts : front ++ (words ++ (back ++ word :: rest)) ++ behind =
      front ++ words ++ (back ++ word :: (rest ++ behind)) := by simp
  rw [parts] at loosened
  obtain ⟨_, tail, rfl, ⟨added, item, rfl, areBreaks, closed⟩, further⟩ := passes _ row loosened
  obtain ⟨more, tail, rfl, moreBreaks, further⟩ := further.before_comma after isComma
  obtain ⟨list, tail, rfl, ⟨again, derives, -⟩, further⟩ := others true frames _ _ further
  refine ⟨added ++ (item ++ (more ++ word :: list)), tail, by simp, ⟨true, ?_, .inl rfl⟩, further⟩
  have divides := settles_leading isComma rfl moreBreaks
  exact .moreItems areBreaks (closed _ divides) moreBreaks isComma derives

end Lists

end Rules

/-! ### The rules -/

/-- Line breaks and commas at the margins of lists leave every phrase as it is. -/
theorem Derives.loosens {levels : Nat} {phrase : Phrase} {words : List Lexeme} {next : Kind}
    {tree : phrase.Tree Unit} (derives : Derives levels phrase words next tree) :
    Loosens levels phrase words next tree := by
  induction derives with
  | nested inner steady => exact Steady.lift steady (fun _ => id) rfl fun _ => .nested
  | nestedLines inner steady => exact Steady.lift steady (fun _ => id) rfl fun _ => .nestedLines
  | number isNumber => exact .word isNumber rfl (fun _ => rfl) rfl (.number isNumber)
  | string isString => exact .word isString rfl (fun _ => rfl) rfl (.string isString)
  | boolean isBoolean => exact .word isBoolean rfl (fun _ => rfl) rfl (.boolean isBoolean)
  | nil isNil => exact .word isNil rfl (fun _ => rfl) rfl (.nil isNil)
  | name isName => exact .word isName rfl (fun _ => rfl) rfl (.name isName)
  | path joined several =>
    intro frames settled
    refine ⟨true, fun _ => rfl, (joined.passes_path settled rfl).imp ?_⟩
    rintro _ rfl
    exact .path joined several
  | grouping opens list steady =>
    intro frames settled
    refine ⟨true, fun _ => rfl, .inner opens rfl settled ((steady false frames).imp ?_)⟩
    rintro inner ⟨divided, derives, same⟩
    obtain rfl : divided = false := by simpa using same
    exact .grouping opens derives
  | tuple opens list isTuple steady =>
    intro frames settled
    refine ⟨true, fun _ => rfl, .inner opens rfl settled ((steady false frames).imp ?_)⟩
    rintro inner ⟨divided, derives, same⟩
    obtain rfl : divided = _ := by simpa using same
    exact .tuple opens derives isTuple
  | emptyDictionary opens before isColon after closes =>
    intro frames settled
    refine ⟨true, fun _ => rfl, .inner opens rfl settled (.opened before
      (by rw [isColon]; rfl) fun _ areBefore => .opened after (by rw [closes]; rfl)
        fun _ areAfter => .nil ?_)⟩
    exact .emptyDictionary opens areBefore isColon areAfter closes
  | dictionary opens list filled steady =>
    intro frames settled
    refine ⟨true, fun _ => rfl, .inner opens rfl settled ((steady true frames).imp ?_)⟩
    rintro inner ⟨divided, derives, -⟩
    exact .dictionary opens derives filled
  | array opens list steady =>
    intro frames settled
    refine ⟨true, fun _ => rfl, .inner opens rfl settled ((steady true frames).imp ?_)⟩
    rintro inner ⟨divided, derives, -⟩
    exact .array opens derives
  | closureLine opens joined isArrow inner closes steady =>
    intro frames settled
    obtain ⟨_, -, body⟩ := steady (.clause :: frames) rfl
    refine ⟨true, fun _ => rfl, .inner opens rfl settled ((joined.passes_commas rfl).append ?_)⟩
    rintro _ rfl
    exact .inner isArrow rfl rfl (body.append fun _ isBody =>
      .closing closes (.closureLine opens joined isArrow isBody closes))
  | closureBlock opens joined isArrow isDo isBreak inner closes steady =>
    intro frames settled
    obtain ⟨_, -, body⟩ := steady (.clause :: frames) rfl
    refine ⟨true, fun _ => rfl, .inner opens rfl settled ((joined.passes_commas rfl).append ?_)⟩
    rintro _ rfl
    exact .inner isArrow rfl rfl (.inner isDo rfl rfl (.lineEnd isBreak rfl
      (body.append fun _ isBody =>
        .closing closes (.closureBlock opens joined isArrow isDo isBreak isBody closes))))
  | ofPrimary inner steady => exact Steady.lift steady (fun _ => id) rfl fun _ => .ofPrimary
  | call target opens inner steadyTarget steady =>
    intro frames settled
    obtain ⟨_, isEnded, first⟩ := steadyTarget frames settled
    obtain rfl := isEnded rfl
    refine ⟨true, fun _ => rfl, first.append fun _ isTarget =>
      .inner opens rfl settled ((steady true frames).imp ?_)⟩
    rintro inner ⟨divided, derives, -⟩
    exact .call isTarget opens derives
  | access target isDot isName steadyTarget =>
    intro frames settled
    obtain ⟨_, -, first⟩ := steadyTarget frames settled
    exact ⟨true, fun _ => rfl, first.append fun _ isTarget => .inner isDot rfl settled
      (.inner isName rfl settled (.nil (.access isTarget isDot isName)))⟩
  | ofMembers inner steady => exact Steady.lift steady (fun _ => id) rfl fun _ => .ofMembers
  | index target opens inner closes steadyTarget steady =>
    intro frames settled
    obtain ⟨_, isEnded, first⟩ := steadyTarget frames settled
    obtain rfl := isEnded rfl
    obtain ⟨_, -, place⟩ := steady (.index :: frames) rfl
    exact ⟨true, fun _ => rfl, first.append fun _ isTarget => .inner opens rfl settled
      (place.append fun _ isPlace =>
        .cons closes rfl (.nil (.index isTarget opens isPlace closes)))⟩
  | ofIndexed inner steady => exact Steady.lift steady (fun _ => id) rfl fun _ => .ofIndexed
  | ofSigned inner steady => exact Steady.lift steady (fun _ => id) rfl fun _ => .ofSigned
  | unary isOp inner steady =>
    intro frames settled
    obtain ⟨_, -, passes⟩ := steady frames settled
    exact ⟨_, nofun, .unary settled (passes.imp fun _ => .unary isOp) isOp⟩
  | ofOperand inner steady => exact Steady.lift steady (fun _ => id) rfl fun _ => .ofOperand
  | ofTighter inner steady => exact Steady.lift steady (fun _ => id) rfl fun _ => .ofTighter
  | binary first isOp rank second steadyFirst steadySecond =>
    intro frames settled
    obtain ⟨_, -, left⟩ := steadyFirst frames settled
    obtain ⟨_, -, right⟩ := steadySecond frames settled
    exact ⟨_, nofun, left.append fun _ isLeft =>
      .binary settled (right.imp fun _ => .binary isLeft isOp rank) isOp⟩
  | ofBinary inner steady =>
    exact Steady.lift steady (fun _ => settled_of_admits) rfl fun _ => .ofBinary
  | ifLine opens test isThen inner noElse steadyTest steady =>
    intro frames admits
    obtain ⟨_, -, condition⟩ := steadyTest (.clause :: frames) rfl
    obtain ⟨_, -, body⟩ := steady frames admits
    exact ⟨_, nofun, .inner opens rfl (settled_of_admits admits)
      (condition.append fun _ isTest => .cons isThen rfl
        (body.imp fun _ isBody => .ifLine opens isTest isThen isBody noElse))⟩
  | ifLineElse opens test isThen inner isElse innerElse steadyTest steady steadyElse =>
    intro frames admits
    have settled := settled_of_admits admits
    obtain ⟨_, -, condition⟩ := steadyTest (.clause :: frames) rfl
    obtain ⟨_, -, body⟩ := steady frames admits
    obtain ⟨_, -, other⟩ := steadyElse frames admits
    exact ⟨_, nofun, .inner opens rfl settled
      (condition.append fun _ isTest => .cons isThen rfl
        (body.append fun _ isBody => .inner isElse rfl settled
          (other.imp fun _ => .ifLineElse opens isTest isThen isBody isElse)))⟩
  | ifBlock opens test isBreak inner closes steadyTest steady =>
    intro frames admits
    obtain ⟨_, -, condition⟩ := steadyTest (.clause :: frames) rfl
    obtain ⟨_, -, body⟩ := steady (.clause :: frames) rfl
    exact ⟨true, fun _ => rfl, .inner opens rfl (settled_of_admits admits)
      (condition.append fun _ isTest => .lineEnd isBreak rfl
        (body.append fun _ isBody =>
          .closing closes (.ifBlock opens isTest isBreak isBody closes)))⟩
  | ifBlockElse opens test isBreak inner isElse isElseBreak innerElse closes steadyTest steady
      steadyElse =>
    intro frames admits
    obtain ⟨_, -, condition⟩ := steadyTest (.clause :: frames) rfl
    obtain ⟨_, -, body⟩ := steady (.clause :: frames) rfl
    obtain ⟨_, -, other⟩ := steadyElse (.clause :: frames) rfl
    exact ⟨true, fun _ => rfl, .inner opens rfl (settled_of_admits admits)
      (condition.append fun _ isTest => .lineEnd isBreak rfl
        (body.append fun _ isBody => .inner isElse rfl rfl (.lineEnd isElseBreak rfl
          (other.append fun _ isOther => .closing closes
            (.ifBlockElse opens isTest isBreak isBody isElse isElseBreak isOther closes)))))⟩
  | breakLoop isBreak => exact .word isBreak rfl (fun _ => rfl) rfl (.breakLoop isBreak)
  | continueLoop isContinue =>
    exact .word isContinue rfl (fun _ => rfl) rfl (.continueLoop isContinue)
  | returnNothing isReturn stops =>
    exact .word isReturn rfl (fun _ => rfl) rfl (.returnNothing isReturn stops)
  | returnValue isReturn inner steady =>
    intro frames admits
    have settled := settled_of_admits admits
    obtain ⟨_, -, value⟩ := steady frames settled
    exact ⟨_, nofun, .inner isReturn rfl settled (value.imp fun _ => .returnValue isReturn)⟩
  | assign first isTarget isOp second steadyFirst steadySecond =>
    intro frames admits
    have settled := settled_of_admits admits
    obtain ⟨_, -, target⟩ := steadyFirst frames settled
    obtain ⟨_, -, value⟩ := steadySecond frames settled
    exact ⟨_, nofun, target.append fun _ isFirst =>
      .assign settled (value.imp fun _ => .assign isFirst isTarget isOp) isOp⟩
  | assignNames joined several isOp inner steady =>
    intro frames onLine
    have settled := settled_of_onLine onLine
    obtain ⟨ended, -, value⟩ := steady frames settled
    refine ⟨ended, nofun, (joined.passes_commas onLine).append ?_⟩
    rintro _ rfl
    exact .assign settled (value.imp fun _ => .assignNames joined several isOp) isOp
  | ofExpression inner steady => exact Steady.lift steady (fun _ => id) rfl fun _ => .ofExpression
  | use opens joined =>
    intro frames onLine
    have settled := settled_of_onLine onLine
    refine ⟨true, fun _ => rfl, .inner opens rfl settled
      ((joined.passes_path settled rfl).imp ?_)⟩
    rintro _ rfl
    exact .use opens joined
  | classBare opens isName isBreak inner closes steady =>
    intro frames onLine
    obtain ⟨_, -, body⟩ := steady (.clause :: frames) rfl
    exact ⟨true, fun _ => rfl, .inner opens rfl (settled_of_onLine onLine)
      (.inner isName rfl rfl (.lineEnd isBreak rfl (body.append fun _ isBody =>
        .closing closes (.classBare opens isName isBreak isBody closes))))⟩
  | classFields opens isName isBracket params isBreak inner closes steadyParams steady =>
    intro frames onLine
    obtain ⟨_, -, body⟩ := steady (.clause :: frames) rfl
    refine ⟨true, fun _ => rfl, .inner opens rfl (settled_of_onLine onLine)
      (.inner isName rfl rfl (.inner isBracket rfl rfl ((steadyParams true _).append ?_)))⟩
    rintro _ ⟨_, isParams, -⟩
    exact .lineEnd isBreak rfl (body.append fun _ isBody => .closing closes
      (.classFields opens isName isBracket isParams isBreak isBody closes))
  | methodValue opens named isBracket params isEquals inner steadyParams steady =>
    intro frames onLine
    have settled := settled_of_onLine onLine
    obtain ⟨ended, -, value⟩ := steady frames settled
    refine ⟨ended, nofun, .inner opens rfl settled (named.passes.append ?_)⟩
    rintro _ rfl
    refine .cons isBracket rfl ((steadyParams true _).append ?_)
    rintro _ ⟨_, isParams, -⟩
    exact .cons isEquals rfl
      (value.imp fun _ => .methodValue opens named isBracket isParams isEquals)
  | methodBlock opens named isBracket params isBreak inner closes steadyParams steady =>
    intro frames onLine
    obtain ⟨_, -, body⟩ := steady (.clause :: frames) rfl
    refine ⟨true, fun _ => rfl, .inner opens rfl (settled_of_onLine onLine)
      (named.passes.append ?_)⟩
    rintro _ rfl
    refine .cons isBracket rfl ((steadyParams true _).append ?_)
    rintro _ ⟨_, isParams, -⟩
    exact .cons isBreak rfl (body.append fun _ isBody => .closing closes
      (.methodBlock opens named isBracket isParams isBreak isBody closes))
  | forLoop opens joined isIn elements isBreak inner closes steadyElements steady =>
    intro frames onLine
    obtain ⟨_, -, source⟩ := steadyElements (.clause :: frames) rfl
    obtain ⟨_, -, body⟩ := steady (.clause :: frames) rfl
    refine ⟨true, fun _ => rfl, .inner opens rfl (settled_of_onLine onLine)
      ((joined.passes_commas rfl).append ?_)⟩
    rintro _ rfl
    exact .inner isIn rfl rfl (source.append fun _ isSource => .lineEnd isBreak rfl
      (body.append fun _ isBody =>
        .closing closes (.forLoop opens joined isIn isSource isBreak isBody closes)))
  | whileLoop opens test isBreak inner closes steadyTest steady =>
    intro frames onLine
    obtain ⟨_, -, condition⟩ := steadyTest (.clause :: frames) rfl
    obtain ⟨_, -, body⟩ := steady (.clause :: frames) rfl
    exact ⟨true, fun _ => rfl, .inner opens rfl (settled_of_onLine onLine)
      (condition.append fun _ isTest => .lineEnd isBreak rfl
        (body.append fun _ isBody =>
          .closing closes (.whileLoop opens isTest isBreak isBody closes)))⟩
  | ofShort inner steady => exact Steady.lift steady (fun _ => id) rfl fun _ => .ofShort
  | noLine ends => exact fun frames _ => ⟨false, nofun, .nil (.noLine ends)⟩
  | emptyLine isBreak rest steady =>
    intro frames onLine
    obtain ⟨_, -, lines⟩ := steady frames onLine
    exact ⟨_, nofun, .lineEnd isBreak onLine (lines.imp fun _ => .emptyLine isBreak)⟩
  | line inner isBreak rest steady steadyRest =>
    intro frames onLine
    obtain ⟨_, -, first⟩ := steady frames onLine
    obtain ⟨_, -, lines⟩ := steadyRest frames onLine
    exact ⟨_, nofun, first.append fun _ isFirst =>
      .lineEnd isBreak onLine (lines.imp fun _ => .line isFirst isBreak)⟩
  | expressionItem inner steady =>
    exact Steady.lift steady (fun _ => id) rfl fun _ => .expressionItem
  | entryItem isKey isColon inner steady =>
    intro frames settled
    obtain ⟨_, -, value⟩ := steady frames settled
    exact ⟨_, nofun, .inner isKey rfl settled (.inner isColon rfl settled
      (value.imp fun _ => .entryItem isKey isColon))⟩
  | plainItem isName => exact .word isName rfl (fun _ => rfl) rfl (.plainItem isName)
  | defaultedItem isName isEquals inner steady =>
    intro frames settled
    obtain ⟨_, -, value⟩ := steady frames settled
    exact ⟨_, nofun, .inner isName rfl settled (.inner isEquals rfl settled
      (value.imp fun _ => .defaultedItem isName isEquals))⟩
  | noItem before closes => exact .noItem before closes
  | lastItem before inner after closes steady => exact .lastItem before inner steady after closes
  | moreItems before inner after isComma others steady steadyOthers =>
    exact .moreItems before inner steady after isComma steadyOthers

end Grammar

/-! ## Rows of tokens -/

open Grammar

/-- Where nothing is open, nothing is added before the end of the input or at the end of the row. -/
theorem Loosened.takeWhile_eq_nil {ended : Bool} {words others : List Lexeme}
    (loosened : Loosened ⟨[], ended⟩ words others)
    (nothing : words.takeWhile (·.kind != .endOfInput) = []) :
    others.takeWhile (·.kind != .endOfInput) = [] := by
  cases words with
  | nil =>
    cases loosened with
    | done => rfl
    | lineBreak isBreak takes => cases takes
    | comma isComma takes => cases takes
  | cons word words =>
    obtain ⟨behind, rfl, -⟩ := loosened.keep rfl
    rw [List.takeWhile_cons] at nothing ⊢
    split at nothing
    · cases nothing
    · rename_i isOver
      rw [if_neg isOver]

theorem Reading.words_ofTokens (tokens : List Token) :
    (Reading.ofTokens tokens).tokens.map Token.lexeme =
      (tokens.map Token.lexeme).takeWhile (·.kind != .endOfInput) := by
  rw [List.takeWhile_map]
  rfl

namespace Program

/-- **Line breaks and trailing commas inside brackets are immaterial.** Where a row of tokens is read
as a program, so is every row with line breaks and commas added at the margins of its lists, under
the same limit, and the programs are the same but for their places. -/
theorem ofTokens_loosened (limit : Limit) (tokens others : List Token) (program : Program Span)
    (accepted : ofTokens limit tokens = .ok program)
    (loosened : Loosened .start (tokens.map Token.lexeme) (others.map Token.lexeme)) :
    ∃ again, ofTokens limit others = .ok again ∧ program.same again = true := by
  have inside : ∀ token ∈ (Reading.ofTokens tokens).tokens, token.kind ≠ .endOfInput := by
    intro token member
    simpa using List.all_eq_true.mp List.all_takeWhile token member
  obtain ⟨-, derives⟩ := derives_of_ofReading inside accepted
  obtain ⟨ended, -, passes⟩ := derives.loosens [] rfl
  rw [Reading.words_ofTokens] at passes
  generalize tokens.map Token.lexeme = words at passes loosened
  rw [← List.takeWhile_append_dropWhile (p := (·.kind != .endOfInput)) (l := words)] at loosened
  obtain ⟨inner, tail, same, derivesInner, behind⟩ := passes _ _ loosened
  -- What becomes of the words before the end of the input stands before it.
  have isInner : (others.map Token.lexeme).takeWhile (·.kind != .endOfInput) = inner := by
    have nothing := behind.takeWhile_eq_nil
      (List.takeWhile_eq_nil_iff.mpr fun filled => List.dropWhile_get_zero_not _ words filled)
    rw [same, List.takeWhile_append_of_pos, nothing, List.append_nil]
    intro word member
    simpa using derivesInner.inside word member
  rw [← isInner, ← Reading.words_ofTokens] at derivesInner
  obtain ⟨again, acceptedAgain, sameBody⟩ := ofReading_of_derives rfl derivesInner
  exact ⟨again, acceptedAgain, (same_iff_shape_eq program again).mpr sameBody.symm⟩

/-- The call `f(x, [y])` is the same with a line break at every margin of its two lists and a comma
behind the last item of each. -/
theorem ofTokens_loosened_call :
    let word (kind : Kind) (text : String) : Token := ⟨kind, text, "", .origin⟩
    let mark (mark : Symbol) : Token := word (.symbol mark) mark.spelling
    let feed : Token := word .newline ""
    let call : List Token := [word .name "f", mark .lparen, word .name "x", mark .comma,
      mark .lbracket, word .name "y", mark .rbracket, mark .rparen, feed]
    let loose : List Token := [word .name "f", mark .lparen, feed, word .name "x", feed,
      mark .comma, feed, mark .lbracket, feed, word .name "y", mark .comma, feed, mark .rbracket,
      mark .comma, feed, mark .rparen, feed]
    ∃ program again, ofTokens .standard call = .ok program ∧ ofTokens .standard loose = .ok again ∧
      program.same again = true := by
  intro word mark feed call loose
  have passes : ((ofTokens .standard call).toOption.any fun _ => true) = true := by decide +kernel
  obtain ⟨program, accepted, -⟩ := exists_of_any passes
  obtain ⟨again, acceptedAgain, same⟩ := ofTokens_loosened .standard call loose program accepted
    (.word (.word (.lineBreak rfl rfl (.word (.lineBreak rfl rfl (.word (.lineBreak rfl rfl (.word
      (.lineBreak rfl rfl (.word (.comma rfl rfl (.lineBreak rfl rfl (.word (.comma rfl rfl
        (.lineBreak rfl rfl (.word (.word .done)))))))))))))))))
  exact ⟨program, again, accepted, acceptedAgain, same⟩

end Program

end Parlance
