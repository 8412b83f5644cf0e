import Parlance.Proofs.Grammar.Acceptance
import Parlance.Proofs.Text.Rows
import Parlance.Session

/-!
Contract: what a document is after the edit that brings it into its canonical form.

An editor ends lines at a line feed, at a carriage return and at both together, and takes a position
behind the end of a line or of the text for that end. The region of a whole text is counted in lines
that end at more characters than these. Owns: the editor's lines, the text behind an edit, and which
part of a text its region leaves over: a break at the very end, unless it is a line feed or a break
that only the region counts stands before it.
-/

namespace Parlance

open Text Session

namespace Editor

def endsLine (c : Char) : Bool :=
  c == '\n' || c == '\r'

/-- Whether the next line begins behind a character. A carriage return leaves that to a line feed
behind it. -/
def opensLine (c : Char) (rest : List Char) : Bool :=
  endsLine c && !(c == '\r' && rest.head? == some '\n')

/-- The number of characters before a position, of which line and character count from zero. -/
def offset : List Char → Nat → Nat → Nat
  | [], _, _ => 0
  | _ :: _, 0, 0 => 0
  | c :: rest, 0, character + 1 => if endsLine c then 0 else offset rest 0 character + 1
  | c :: rest, line + 1, character =>
    offset rest (if opensLine c rest then line else line + 1) character + 1

/-- The text after an edit. What stands in the region gives way to the new text. -/
def replace (region : Region) (new : String) (text : String) : String :=
  let start := offset text.toList region.startLine.toNat region.startCharacter.toNat
  let stop := offset text.toList region.endLine.toNat region.endCharacter.toNat
  String.ofList (text.toList.take start ++ new.toList ++ text.toList.drop stop)

/-- Whether a character ends no line, or one for an editor too. -/
def isShared (c : Char) : Bool :=
  !isLineBreak c || endsLine c

/-- The break at the end of a text that the region of the whole text does not reach. -/
def leftover (text : List Char) : List Char :=
  match text.getLast? with
  | none => []
  | some last =>
    if isLineBreak last && last != '\n' && text.dropLast.all isShared then [last] else []

/-! ## Positions behind and at the last line -/

section Positions

variable {c : Char} {rest : List Char}

/-- A character that is no half of a double break leads to the next line or stays on its line. -/
theorem offset_step (single : ∀ others, c = '\r' → rest = '\n' :: others → False)
    (line character : Nat) :
    offset (c :: rest) (line + 1) character =
      offset rest (if endsLine c then line else line + 1) character + 1 := by
  have opens : opensLine c rest = endsLine c := by
    cases rest with
    | nil => simp [opensLine]
    | cons next others =>
      by_cases isReturn : c = '\r'
      · have noFeed : next ≠ '\n' := fun isFeed => single others isReturn (by rw [isFeed])
        simp [opensLine, noFeed]
      · simp [opensLine, isReturn]
  rw [offset, opens]

/-- A double break leads to the next line. -/
theorem offset_double (line character : Nat) :
    offset ('\r' :: '\n' :: rest) (line + 1) character = offset rest line character + 2 := by
  rfl

theorem endsLine_eq_false (noBreak : ¬isLineBreak c = true) : endsLine c = false := by
  simp only [isLineBreak, Bool.or_eq_true, not_or] at noBreak
  simp [endsLine, noBreak]

theorem lines_nil : lines [] = [] := rfl

theorem lines_ne_nil (filled : rest ≠ []) : lines rest ≠ [] := by
  fun_cases lines rest with
  | case1 => contradiction
  | case2 | case3 | case4 | case5 => simp

theorem exists_length_lines (filled : rest ≠ []) : ∃ count, (lines rest).length = count + 1 := by
  have someLine := List.length_pos_iff.mpr (lines_ne_nil filled)
  exact ⟨(lines rest).length - 1, by omega⟩

theorem offset_of_length_le (text : List Char) (line character : Nat)
    (past : (lines text).length ≤ line) :
    offset text line character = text.length := by
  fun_induction lines text generalizing line with
  | case1 => simp [offset]
  | case2 rest ih =>
    cases line with
    | zero => simp at past
    | succ line =>
      have inRest := ih line (by simpa using past)
      rw [offset_double, inRest, List.length_cons, List.length_cons]
  | case3 c rest single isBreak ih =>
    cases line with
    | zero => simp at past
    | succ line =>
      have below : (lines rest).length ≤ line := by simpa using past
      rw [offset_step single, ih _ (by split <;> omega), List.length_cons]
  | case4 c rest single noBreak noLine ih =>
    cases line with
    | zero => simp at past
    | succ line =>
      rw [offset_step single, ih _ (by simp [noLine]), List.length_cons]
  | case5 c rest single noBreak first following more ih =>
    cases line with
    | zero => simp at past
    | succ line =>
      have within : (lines rest).length ≤ line + 1 := by simpa [more] using past
      rw [offset_step single, endsLine_eq_false noBreak,
        if_neg Bool.false_ne_true, ih _ within, List.length_cons]

theorem leftover_cons (filled : rest ≠ []) :
    leftover (c :: rest) = if isShared c then leftover rest else [] := by
  simp only [leftover, List.getLast?_cons, List.dropLast_cons_of_ne_nil filled, List.all_cons]
  rw [List.getLast?_eq_some_getLast filled]
  by_cases shared : isShared c <;> simp [shared]

/-- The end of the last line, in a text that does not end in a line feed, is the end of the text but
for what is left over. -/
theorem drop_offset_last (text last : List Char) (isLast : (lines text).getLast? = some last)
    (noFeed : text.getLast? ≠ some '\n') :
    text.drop (offset text ((lines text).length - 1) last.length) = leftover text := by
  fun_induction lines text generalizing last with
  | case1 => simp at isLast
  | case2 rest ih =>
    have filled : rest ≠ [] := by
      rintro rfl
      simp at noFeed
    obtain ⟨count, isCount⟩ := exists_length_lines filled
    rw [List.getLast?_cons_of_ne_nil (lines_ne_nil filled)] at isLast
    rw [List.getLast?_cons_of_ne_nil (by simp), List.getLast?_cons_of_ne_nil filled] at noFeed
    have inRest := ih last isLast noFeed
    rw [isCount] at inRest
    rw [leftover_cons (by simp), leftover_cons filled, if_pos (by decide), if_pos (by decide),
      List.length_cons, isCount, Nat.add_sub_cancel, offset_double]
    exact inRest
  | case3 c rest single isBreak ih =>
    by_cases filled : rest = []
    · subst filled
      obtain rfl : [] = last := Option.some.inj isLast
      have isOther : c ≠ '\n' := fun isFeed => noFeed (congrArg some isFeed)
      simp [lines_nil, offset, leftover, isBreak, isOther]
    · obtain ⟨count, isCount⟩ := exists_length_lines filled
      rw [List.getLast?_cons_of_ne_nil (lines_ne_nil filled)] at isLast
      rw [List.getLast?_cons_of_ne_nil filled] at noFeed
      have inRest := ih last isLast noFeed
      rw [isCount] at inRest
      rw [leftover_cons filled, List.length_cons, isCount, Nat.add_sub_cancel,
        offset_step single, List.drop_succ_cons]
      by_cases shared : endsLine c
      · rw [if_pos shared, if_pos (by simp [isShared, shared])]
        exact inRest
      · -- The editor is one line short, so the position lies behind the end.
        rw [if_neg shared, offset_of_length_le rest _ _ (Nat.le_of_eq isCount)]
        simp [isShared, isBreak, shared]
  | case4 c rest single noBreak noLine ih =>
    obtain rfl : rest = [] :=
      Decidable.byContradiction fun filled => lines_ne_nil filled noLine
    obtain rfl : [c] = last := Option.some.inj isLast
    simp [offset, endsLine_eq_false noBreak, leftover, noBreak]
  | case5 c rest single noBreak first following more ih =>
    have filled : rest ≠ [] := by
      rintro rfl
      simp [lines_nil] at more
    rw [List.getLast?_cons_of_ne_nil filled] at noFeed
    rw [leftover_cons filled, if_pos (by simp [isShared, noBreak])]
    cases following with
    | nil =>
      obtain rfl : c :: first = last := Option.some.inj isLast
      have inRest := ih first (by simp [more]) noFeed
      rw [more] at inRest
      show List.drop (offset (c :: rest) 0 (first.length + 1)) (c :: rest) = _
      rw [offset, endsLine_eq_false noBreak, if_neg Bool.false_ne_true, List.drop_succ_cons]
      exact inRest
    | cons second others =>
      have inRest := ih last (by rw [more]; exact isLast) noFeed
      rw [more] at inRest
      rw [List.length_cons, List.length_cons, Nat.add_sub_cancel, offset_step single,
        endsLine_eq_false noBreak, if_neg Bool.false_ne_true, List.drop_succ_cons]
      exact inRest

end Positions

/-! ## The whole text -/

theorem offset_start (text : List Char) : offset text 0 0 = 0 := by
  cases text <;> rfl

/-- Replacing the whole of a text gives the new text, with what is left over behind it. -/
theorem replace_wholeRegion (source new : String) :
    replace (Document.wholeRegion source) new source =
      new ++ String.ofList (leftover source.toList) := by
  have replaced : ∀ stop : Nat × Nat,
      source.toList.drop (offset source.toList stop.1 stop.2) = leftover source.toList →
      replace ⟨0, 0, stop.1, stop.2⟩ new source =
        new ++ String.ofList (leftover source.toList) := by
    intro stop rest
    simp [replace, offset_start, rest, String.ofList_append]
  unfold Document.wholeRegion
  dsimp only
  split
  · rename_i noLine
    have isEmpty : source.toList = [] :=
      Decidable.byContradiction fun filled =>
        lines_ne_nil filled (List.getLast?_eq_none_iff.mp noLine)
    exact replaced (_, 0) (by simp [isEmpty, leftover])
  · rename_i last isLast
    split
    · rename_i feeds
      have noMore : leftover source.toList = [] := by simp [leftover, beq_iff_eq.mp feeds]
      exact replaced (_, 0) (by simp [offset_of_length_le, noMore])
    · rename_i noFeed
      have someLine : (lines source.toList).length ≠ 0 := by
        intro none
        simp [List.length_eq_zero_iff.mp none] at isLast
      have isStop : ((lines source.toList).length : Int) - 1 =
          (((lines source.toList).length - 1 : Nat) : Int) := by omega
      rw [isStop]
      exact replaced (_, _) (drop_offset_last _ last isLast (by simpa using noFeed))

end Editor

/-- Asked for the canonical form of a document that can be read, a session gives no edit only if the
document has that form. An edit that it gives leads to that form exactly if the region of the whole
document leaves nothing over, and otherwise a break stays behind it. -/
theorem Session.formatEdit?_replaces_iff (machine : Machine) (session : Session)
    (uri text canonical : String) (settings : Settings) (limit : Limit) (program : Program Span)
    (tabSize : Int) (insertSpaces : Bool)
    (known : session.get? uri = some (Document.analyse machine settings text))
    (isLimit : settings.nesting machine = .ok limit)
    (read : Program.ofText limit text = .ok program) (admitted : Region.admits tabSize = true)
    (written : program.write machine (some (if insertSpaces then tabSize else 2)) =
      .ok canonical) :
    ∃ answer, session.formatEdit? machine uri tabSize insertSpaces = .ok answer ∧
      (answer = none → text = canonical) ∧
      ∀ region new, answer = some (region, new) →
        Editor.replace region new text =
            canonical ++ String.ofList (Editor.leftover text.toList) ∧
          (Editor.replace region new text = canonical ↔ Editor.leftover text.toList = []) := by
  have analysed : Document.analyse machine settings text = ⟨text, .ok program⟩ := by
    simp only [Document.analyse, isLimit, read]
  have answered : session.formatEdit? machine uri tabSize insertSpaces =
      .ok (if canonical == text then none
        else some (Document.wholeRegion text, canonical)) := by
    simp only [Session.formatEdit?, admitted, ↓reduceIte, known, analysed, Document.formatEdit?,
      written]
  refine ⟨_, answered, fun isNone => ?_, fun region new isEdit => ?_⟩
  · by_cases same : canonical = text
    · exact same.symm
    · simp [same] at isNone
  · have isWhole : region = Document.wholeRegion text ∧ new = canonical := by
      by_cases same : canonical = text
      · simp [same] at isEdit
      · simp only [beq_iff_eq, same, ↓reduceIte, Option.some.injEq, Prod.mk.injEq] at isEdit
        exact ⟨isEdit.1.symm, isEdit.2.symm⟩
    rw [isWhole.1, isWhole.2, Editor.replace_wholeRegion]
    refine ⟨rfl, fun unchanged => ?_, fun nothing => ?_⟩
    · have lengths := congrArg String.length unchanged
      simpa using lengths
    · simp [nothing]

/-- A carriage return at the end of a comment at the end of a document stays behind the canonical
form. -/
theorem Session.formatEdit?_leaves_return :
    ∃ session region new,
      Session.empty.openDocument .roomy .empty [] "untitled:a" "x # c\r" =
          .ok (Document.analyse .roomy .standard "x # c\r", session) ∧
        session.formatEdit? .roomy "untitled:a" 2 true = .ok (some (region, new)) ∧
        Editor.replace region new "x # c\r" = "x\n\r" ∧
        Editor.replace region new "x # c\r" ≠ "x\n" := by
  have passes : ((Program.ofText (.ofInt 32 32) "x # c\r").toOption.any fun program =>
      (program.write .roomy (some 2)).toOption == some "x\n") = true := by
    decide +kernel
  obtain ⟨program, read, isText⟩ := Program.exists_of_any passes
  have written : program.write .roomy (some 2) = .ok "x\n" := by
    cases outcome : program.write .roomy (some 2) with
    | error fault => simp [outcome, Except.toOption] at isText
    | ok text => simpa [outcome, Except.toOption] using isText
  obtain ⟨answer, answered, isNone, isEdit⟩ :=
    Session.formatEdit?_replaces_iff .roomy
      (Session.empty.put "untitled:a" (Document.analyse .roomy .standard "x # c\r")) "untitled:a"
      "x # c\r" "x\n" .standard (.ofInt 32 32) program 2 true rfl rfl read rfl written
  cases answer with
  | none => exact absurd (isNone rfl) (by decide)
  | some edit =>
    obtain ⟨replaced, whole⟩ := isEdit edit.1 edit.2 rfl
    have remains : Editor.leftover "x # c\r".toList = ['\r'] := by decide
    refine ⟨_, edit.1, edit.2, rfl, answered, ?_, fun same => ?_⟩
    · rw [replaced, remains]
      rfl
    · rw [whole.mp same] at remains
      simp at remains

end Parlance
