import Mathlib.Algebra.Group.Nat.Defs
import Mathlib.Tactic.SplitIfs
import Parlance.Text.Hex
import Parlance.Text.Quoted

/-!
Contract: quoted texts can be read back.

Owns: the reading of one written character, that a quoted text determines the text and where it ends
in a longer one, that a list of quoted texts determines the texts, and that all that is written is
printable.
-/

namespace Parlance.Text

namespace Quoted

/-! ## Numbers -/

/-- The value of hexadecimal digits. -/
def readHex (digits : List Char) : Nat :=
  digits.foldl (fun value digit => value * 16 + (hexValue? digit).getD 0) 0

theorem length_hexDigits (width n : Nat) : (hexDigits width n).length = width := by
  induction width generalizing n with
  | zero => rfl
  | succ width ih => simp [hexDigits, ih]

theorem all_hexDigits (width n : Nat) : (hexDigits width n).all isPrintable = true := by
  have digits : ∀ digit < 16, isPrintable (Nat.digitChar digit) = true := by decide
  induction width generalizing n with
  | zero => rfl
  | succ width ih => simp [hexDigits, ih, digits _ (Nat.mod_lt n (show 0 < 16 by decide))]

theorem readHex_hexDigits (width n : Nat) : readHex (hexDigits width n) = n % 16 ^ width := by
  have digits : ∀ digit < 16, (hexValue? (Nat.digitChar digit)).getD 0 = digit := by decide
  induction width generalizing n with
  | zero => simp [readHex, hexDigits, Nat.mod_one]
  | succ width ih =>
    have front := ih (n / 16)
    unfold readHex at front ⊢
    rw [hexDigits, List.foldl_append, front, List.foldl_cons, List.foldl_nil,
      digits _ (Nat.mod_lt _ (by decide)), Nat.pow_succ, Nat.mul_comm (16 ^ width), Nat.mod_mul]
    omega

/-- A character is known from the digits of its number, if there are enough of them. -/
theorem ofNat_readHex {c : Char} {width : Nat} (fits : c.toNat < 16 ^ width) (rest : List Char) :
    Char.ofNat (readHex ((hexDigits width c.toNat ++ rest).take width)) = c ∧
      (hexDigits width c.toNat ++ rest).drop width = rest := by
  have length := length_hexDigits width c.toNat
  rw [List.take_left' length, List.drop_left' length, readHex_hexDigits, Nat.mod_eq_of_lt fits,
    Char.ofNat_toNat]
  exact ⟨rfl, rfl⟩

/-! ## Characters -/

/-- The character that a written text begins with, and what is behind it. -/
def unescape : List Char → Option (Char × List Char)
  | '\\' :: 'n' :: rest => some ('\n', rest)
  | '\\' :: 'r' :: rest => some ('\r', rest)
  | '\\' :: 't' :: rest => some ('\t', rest)
  | '\\' :: 'x' :: rest => some (Char.ofNat (readHex (rest.take 2)), rest.drop 2)
  | '\\' :: 'u' :: rest => some (Char.ofNat (readHex (rest.take 4)), rest.drop 4)
  | '\\' :: 'U' :: rest => some (Char.ofNat (readHex (rest.take 8)), rest.drop 8)
  | '\\' :: c :: rest => some (c, rest)
  | c :: rest => some (c, rest)
  | [] => none

theorem quoteFor_eq (text : List Char) : quoteFor text = '\x27' ∨ quoteFor text = '\x22' := by
  unfold quoteFor
  split
  · exact .inr rfl
  · exact .inl rfl

section

variable {quote : Char} (isQuote : quote = '\x27' ∨ quote = '\x22') (c : Char)
include isQuote

theorem unescape_escape (rest : List Char) :
    unescape (escape quote c ++ rest) = some (c, rest) := by
  have bound : c.toNat < 16 ^ 8 := c.val.toNat_lt
  unfold escape
  split_ifs with special feed back tab printable
  · rw [Bool.or_eq_true, beq_iff_eq, beq_iff_eq] at special
    rcases special with rfl | rfl
    · rcases isQuote with rfl | rfl <;> rfl
    · rfl
  · rw [beq_iff_eq.mp feed]
    rfl
  · rw [beq_iff_eq.mp back]
    rfl
  · rw [beq_iff_eq.mp tab]
    rfl
  · rw [Bool.or_eq_true, not_or, beq_iff_eq, beq_iff_eq] at special
    simp [unescape, special.2]
  · unfold numbered
    dsimp only
    split_ifs with short middle
    · obtain ⟨known, behind⟩ := ofNat_readHex (show c.toNat < 16 ^ 2 by omega) rest
      simp [unescape, known, behind]
    · obtain ⟨known, behind⟩ := ofNat_readHex (show c.toNat < 16 ^ 4 by omega) rest
      simp [unescape, known, behind]
    · obtain ⟨known, behind⟩ := ofNat_readHex bound rest
      simp [unescape, known, behind]

theorem all_escape : (escape quote c).all isPrintable = true := by
  unfold escape
  split_ifs with special feed back tab printable
  · rw [Bool.or_eq_true, beq_iff_eq, beq_iff_eq] at special
    rcases isQuote with rfl | rfl <;> rcases special with rfl | rfl <;> decide
  · decide
  · decide
  · decide
  · simp [printable]
  · have marks : isPrintable '\\' = true ∧ isPrintable 'x' = true ∧ isPrintable 'u' = true ∧
        isPrintable 'U' = true := by decide
    unfold numbered
    dsimp only
    split_ifs <;> simp [all_hexDigits, marks]

end

/-! ## Texts -/

theorem encode_eq (text : List Char) :
    ∃ quote, (quote = '\x27' ∨ quote = '\x22') ∧
      encode text = quote :: (text.flatMap (escape quote) ++ [quote]) :=
  ⟨quoteFor text, quoteFor_eq text, rfl⟩

/-- A quoted text determines the text, and where it ends in a longer one. -/
theorem encode_append_inj {left right rest rest' : List Char}
    (same : encode left ++ rest = encode right ++ rest') :
    left = right ∧ rest = rest' := by
  obtain ⟨quote, isQuote, isLeft⟩ := encode_eq left
  obtain ⟨quote', -, isRight⟩ := encode_eq right
  rw [isLeft, isRight, List.cons_append, List.cons_append, List.cons.injEq] at same
  obtain ⟨rfl, same⟩ := same
  have ends : ∀ behind, unescape (quote :: behind) = some (quote, behind) := by
    rcases isQuote with rfl | rfl <;> exact fun _ => rfl
  -- The quote that ends the text is no written character.
  have apart : ∀ (d : Char) (behind behind' : List Char),
      quote :: behind ≠ escape quote d ++ behind' := by
    intro d behind behind' equal
    have read := congrArg unescape equal
    rw [ends, unescape_escape isQuote, Option.some.injEq, Prod.mk.injEq] at read
    obtain ⟨rfl, -⟩ := read
    rcases isQuote with rfl | rfl <;> simp [escape] at equal
  clear isLeft isRight
  induction left generalizing right with
  | nil =>
    cases right with
    | nil => simpa using same
    | cons d right => exact absurd (by simpa using same) (apart d rest _)
  | cons c left ih =>
    cases right with
    | nil => exact absurd (by simpa using same.symm) (apart c rest' _)
    | cons d right =>
      simp only [List.flatMap_cons, List.append_assoc] at same
      have read := congrArg unescape same
      rw [unescape_escape isQuote, unescape_escape isQuote, Option.some.injEq,
        Prod.mk.injEq] at read
      obtain ⟨rfl, more⟩ := ih (by simpa using read.2)
      exact ⟨by rw [read.1], more⟩

end Quoted

open Quoted

theorem toList_quoted (text : String) : (quoted text).toList = encode text.toList :=
  String.toList_ofList

@[simp] theorem quoted_inj {left right : String} : quoted left = quoted right ↔ left = right := by
  refine ⟨fun same => ?_, congrArg quoted⟩
  have encoded := congrArg (·.toList ++ []) same
  simp only [toList_quoted] at encoded
  exact String.toList_inj.mp (encode_append_inj encoded).1

theorem all_quoted (text : String) : (quoted text).toList.all isPrintable = true := by
  obtain ⟨quote, isQuote, isText⟩ := encode_eq text.toList
  have shown : isPrintable quote = true := by rcases isQuote with rfl | rfl <;> decide
  rw [toList_quoted, isText]
  simp [shown, List.all_flatMap, all_escape isQuote]

/-- What a list of quoted texts holds behind its opening bracket, with a mark before the first. -/
def listed (mark : List Char) : List String → List Char
  | [] => [']']
  | first :: rest => mark ++ (encode first.toList ++ listed [',', ' '] rest)

theorem toList_quotedList (texts : List String) :
    (quotedList texts).toList = '[' :: listed [] texts := by
  cases texts with
  | nil => rfl
  | cons first rest =>
    simp only [quotedList, String.toList_append, String.toList_intercalate, List.map_cons]
    induction rest generalizing first with
    | nil => simp [listed, toList_quoted]
    | cons next rest ih => simp_all [listed, toList_quoted, List.intercalate_cons_cons]

theorem eq_of_listed {mark : List Char} {left right : List String}
    (isMark : mark = [] ∨ mark = [',', ' ']) (same : listed mark left = listed mark right) :
    left = right := by
  have filled : ∀ mark first rest, mark = [] ∨ mark = [',', ' '] →
      listed mark [] ≠ listed mark (first :: rest) := by
    intro mark first rest isMark equal
    obtain ⟨quote, rfl | rfl, isText⟩ := encode_eq first.toList <;>
      rcases isMark with rfl | rfl <;> simp [listed, isText] at equal
  induction left generalizing mark right with
  | nil =>
    cases right with
    | nil => rfl
    | cons other right => exact absurd same (filled mark other right isMark)
  | cons first left ih =>
    cases right with
    | nil => exact absurd same.symm (filled mark first left isMark)
    | cons other right =>
      obtain ⟨isFirst, more⟩ := encode_append_inj (List.append_cancel_left same)
      rw [String.toList_inj.mp isFirst, ih (.inr rfl) more]

@[simp] theorem quotedList_inj {left right : List String} :
    quotedList left = quotedList right ↔ left = right := by
  refine ⟨fun same => ?_, congrArg quotedList⟩
  rw [← String.toList_inj, toList_quotedList, toList_quotedList, List.cons.injEq] at same
  exact eq_of_listed (.inl rfl) same.2

theorem all_quotedList (texts : List String) :
    (quotedList texts).toList.all isPrintable = true := by
  have all : ∀ mark : List Char, mark.all isPrintable = true →
      (listed mark texts).all isPrintable = true := by
    induction texts with
    | nil => exact fun _ _ => rfl
    | cons first rest ih =>
      intro mark shown
      simp [listed, shown, ← toList_quoted, all_quoted, ih [',', ' '] (by decide)]
  rw [toList_quotedList, List.all_cons, all [] rfl]
  decide

end Parlance.Text
