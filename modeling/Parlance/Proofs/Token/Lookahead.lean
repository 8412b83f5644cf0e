import Parlance.Proofs.Token.Reach

/-!
Contract: the two characters behind a word.

Whether a word ends where it does depends on at most two characters behind it: a point continues a
number only before a digit, and every other word looks at one character. A space, a comment, a line
break and the end of the text continue no word. Owns: what two texts must have in common for a word
before one of them to be read before the other (`Alike`). Does not own: how such texts arise.
-/

namespace Parlance

/-- The text is over, or begins with a space, a comment or a line break. -/
def Sheltered (text : List Char) : Prop :=
  ∀ c ∈ text.head?, c = ' ' ∨ c = '#' ∨ c = '\n' ∨ c = '\r'

/-- The texts have at least `count` characters in common, or as many as there are before the second
one continues no word. -/
def Alike (count : Nat) (text other : List Char) : Prop :=
  ∃ middle after after', text = middle ++ after ∧ other = middle ++ after' ∧
    (count ≤ middle.length ∨ Sheltered after')

theorem Sheltered.none {isPart : Char → Bool} {text : List Char} (sheltered : Sheltered text)
    (stops : isPart ' ' = false ∧ isPart '#' = false ∧ isPart '\n' = false ∧ isPart '\r' = false) :
    ∀ c ∈ text.head?, isPart c = false := by
  intro c isHead
  rcases sheltered c isHead with rfl | rfl | rfl | rfl
  · exact stops.1
  · exact stops.2.1
  · exact stops.2.2.1
  · exact stops.2.2.2

namespace Piece

variable {signed : Bool} {first : Char} {front middle after after' : List Char}
variable {kind : Kind} {quote text : String}

/-! ## Two texts behind a word -/

/-- A stretch that ends before a text does so before every text with the same first character, and
before one that begins with a character of another class. -/
theorem takeWhile_alike {isPart : Char → Bool}
    (whole : (front ++ (middle ++ after)).takeWhile isPart = front)
    (stops : middle = [] → ∀ c ∈ after'.head?, isPart c = false) :
    (front ++ (middle ++ after')).takeWhile isPart = front := by
  have inside : ∀ c ∈ front, isPart c = true := by
    have all := List.all_takeWhile (p := isPart) (l := front ++ (middle ++ after))
    rw [whole] at all
    exact List.all_eq_true.mp all
  refine takeWhile_stretch inside ?_
  cases middle with
  | nil => exact stops rfl
  | cons d middle =>
    intro c isHead
    obtain rfl : d = c := Option.some.inj isHead
    rw [List.takeWhile_append_of_pos inside, List.append_right_eq_self, List.cons_append,
      List.takeWhile_cons] at whole
    cases part : isPart d with
    | false => rfl
    | true => simp [part] at whole

theorem fraction_nil_alike (whole : fraction (middle ++ after) = [])
    (far : 2 ≤ middle.length ∨ Sheltered after') :
    fraction (middle ++ after') = [] := by
  match middle, whole, far with
  | [], _, far =>
    have sheltered : Sheltered after' := far.resolve_left (by decide)
    cases after' with
    | nil => rfl
    | cons c after' =>
      refine fraction_eq_nil ?_ after'
      rintro rfl
      exact absurd (sheltered '.' rfl) (by decide)
  | [c], _, far =>
    by_cases isPoint : c = '.'
    · subst isPoint
      have sheltered : Sheltered after' := far.resolve_left (by decide)
      cases after' with
      | nil => rfl
      | cons d after' =>
        have stops := @Sheltered.none Char.isDigit _ sheltered (by decide) d rfl
        simp [fraction, stops]
    · exact fraction_eq_nil isPoint after'
  | c :: d :: middle, whole, _ =>
    by_cases isPoint : c = '.'
    · subst isPoint
      simp only [List.cons_append, fraction] at whole ⊢
      by_cases isDigit : d.isDigit = true
      · rw [if_pos isDigit] at whole
        cases whole
      · rw [if_neg isDigit]
    · exact fraction_eq_nil isPoint _

theorem fraction_alike (whole : fraction (front ++ (middle ++ after)) = front)
    (far : 2 ≤ middle.length ∨ Sheltered after') :
    fraction (front ++ (middle ++ after')) = front := by
  match front, whole with
  | [], whole =>
    rw [List.nil_append] at whole ⊢
    exact fraction_nil_alike whole far
  | [c], whole =>
    unfold fraction at whole
    split at whole
    · split at whole <;> cases whole
    · cases whole
  | c :: d :: front, whole =>
    by_cases isPoint : c = '.'
    · subst isPoint
      simp only [List.cons_append, fraction] at whole ⊢
      by_cases isDigit : d.isDigit = true
      · rw [if_pos isDigit] at whole ⊢
        have digits := (List.cons.inj (List.cons.inj whole).2).2
        rw [takeWhile_alike digits]
        rintro rfl
        have sheltered : Sheltered after' := far.resolve_left (by decide)
        exact sheltered.none (by decide)
      · rw [if_neg isDigit] at whole
        cases whole
    · rw [List.cons_append, fraction_eq_nil isPoint] at whole
      cases whole

/-- A numeral that begins with a zero is the zero and a fraction, before a text that does not begin
with a digit. -/
theorem digits_zero_iff {text numeral : List Char} :
    digits '0' text = .ok ('0' :: numeral) ↔
      (∀ c ∈ text.head?, c.isDigit = false) ∧ fraction text = numeral := by
  cases text with
  | nil =>
    cases numeral with
    | nil => simp [digits, fraction]
    | cons c numeral => simp [digits, fraction]
  | cons d text =>
    by_cases another : d.isDigit = true
    · simp [digits, another]
    · simp [digits, another]

theorem digits_alike (whole : digits first (front ++ (middle ++ after)) = .ok (first :: front))
    (far : 2 ≤ middle.length ∨ Sheltered after') :
    digits first (front ++ (middle ++ after')) = .ok (first :: front) := by
  have noDigit (nothing : middle = []) : ∀ c ∈ after'.head?, c.isDigit = false := by
    have sheltered : Sheltered after' := far.resolve_left (by simp [nothing])
    exact sheltered.none (by decide)
  by_cases zero : first = '0'
  · subst zero
    obtain ⟨notDigit, isFraction⟩ := digits_zero_iff.mp whole
    refine digits_zero_iff.mpr ⟨?_, fraction_alike isFraction far⟩
    cases front with
    | cons d front => exact notDigit
    | nil =>
      cases middle with
      | cons d middle => exact notDigit
      | nil => exact noDigit rfl
  · have notZero : ¬(first == '0') = true := by simpa using zero
    unfold digits at whole ⊢
    rw [if_neg notZero] at whole ⊢
    dsimp only at whole ⊢
    rw [List.cons_append] at whole
    have parts := (List.cons.inj (Except.ok.inj whole)).2
    generalize isWhole : (front ++ (middle ++ after)).takeWhile Char.isDigit = number at parts
    -- What is read is the digits before the point and then the point with the digits behind it.
    generalize tail : fraction ((front ++ (middle ++ after)).drop number.length) = point at parts
    subst parts
    rw [List.append_assoc, List.drop_left] at tail
    have sameWhole : (number ++ point ++ (middle ++ after')).takeWhile Char.isDigit = number := by
      rw [List.append_assoc, ← List.append_assoc point] at isWhole ⊢
      refine takeWhile_alike isWhole fun nothing => ?_
      exact noDigit (List.append_eq_nil_iff.mp nothing).2
    rw [sameWhole, List.append_assoc number, List.drop_left, fraction_alike tail far,
      List.cons_append]

theorem readNumber_alike {sign : List Char} (isDigit : first.isDigit = true)
    (whole : readNumber sign first (front ++ (middle ++ after)) =
      .word (sign.length + (first :: front).length) kind text quote)
    (far : 2 ≤ middle.length ∨ Sheltered after') :
    readNumber sign first (front ++ (middle ++ after')) =
      .word (sign.length + (first :: front).length) kind text quote := by
  unfold readNumber at whole ⊢
  cases found : digits first (front ++ (middle ++ after)) with
  | error cause => simp [found] at whole
  | ok numeral =>
    rw [found] at whole
    dsimp only at whole
    have length : numeral.length = (first :: front).length := by
      have widths := (word.inj whole).1
      omega
    obtain ⟨tail, same, -⟩ := digits_cuts isDigit found
    rw [← List.cons_append] at same
    obtain rfl := eq_of_append_eq same length
    rw [digits_alike found far]
    exact whole

theorem readSymbol_alike
    (whole : readSymbol first (front ++ (middle ++ after)) =
      .word (first :: front).length kind text quote) (far : 2 ≤ middle.length ∨ Sheltered after') :
    readSymbol first (front ++ (middle ++ after')) =
      .word (first :: front).length kind text quote := by
  unfold readSymbol at whole ⊢
  match front, middle, whole with
  | second :: front, middle, whole => exact whole
  | [], second :: middle, whole => exact whole
  | [], [], whole =>
    have sheltered : Sheltered after' := far.resolve_left (by decide)
    have alone : ([] ++ ([] ++ after')).head?.bind (Symbol.ofTwo? first) = none := by
      rw [Option.bind_eq_none_iff]
      intro c isHead
      rcases sheltered c isHead with rfl | rfl | rfl | rfl <;> simp [Symbol.ofTwo?]
    rw [alone]
    cases two : ([] ++ ([] ++ after)).head?.bind (Symbol.ofTwo? first) with
    | none =>
      rw [two] at whole
      exact whole
    | some mark =>
      rw [two] at whole
      cases (word.inj whole).1

/-- A string ends with its closing quote, whatever stands behind it. -/
theorem readString_alike {more : List Char}
    (whole : readString first (front ++ more) = .word (first :: front).length kind text quote)
    (more' : List Char) :
    readString first (front ++ more') = .word (first :: front).length kind text quote := by
  unfold readString at whole ⊢
  dsimp only at whole ⊢
  have width : ((front ++ more).takeWhile (· != first)).length + 2 = (first :: front).length := by
    split at whole
    · exact (word.inj whole).1
    · cases whole
  rw [List.length_cons] at width
  have closed : first ∈ front := by
    by_contra absent
    have all : (front ++ more).takeWhile (· != first) = front ++ more.takeWhile (· != first) :=
      List.takeWhile_append_of_pos fun c member => by
        simpa using ne_of_mem_of_not_mem member absent
    rw [all, List.length_append] at width
    omega
  have same (others : List Char) :
      (front ++ others).takeWhile (· != first) = front.takeWhile (· != first) :=
    takeWhile_append_of_mem (by simp) closed others
  rw [same] at width whole ⊢
  rw [if_pos (by rw [List.length_append]; omega)] at whole ⊢
  exact whole

theorem readMark_minus_alone {text : List Char}
    (noNumber : ∀ d ∈ text.head?, (d.isDigit && signed) = false) :
    readMark signed '-' text = readSymbol '-' text := by
  cases text with
  | nil => rfl
  | cons d text => rw [readMark_minus, noNumber d rfl, if_neg Bool.false_ne_true]

theorem readMark_alike
    (whole : readMark signed first (front ++ (middle ++ after)) =
      .word (first :: front).length kind text quote) (far : 2 ≤ middle.length ∨ Sheltered after') :
    readMark signed first (front ++ (middle ++ after')) =
      .word (first :: front).length kind text quote := by
  by_cases isMinus : first = '-'
  · subst isMinus
    cases front with
    | cons d front =>
      rw [List.cons_append, readMark_minus] at whole ⊢
      by_cases isSigned : (d.isDigit && signed) = true
      · rw [if_pos isSigned] at whole ⊢
        have isDigit := (Bool.and_eq_true_iff.mp isSigned).1
        have width : ('-' :: d :: front).length = ['-'].length + (d :: front).length := by
          simp only [List.length_cons, List.length_nil]
          omega
        rw [width] at whole ⊢
        exact readNumber_alike isDigit whole far
      · rw [if_neg isSigned, ← List.cons_append] at whole ⊢
        exact readSymbol_alike whole far
    | nil =>
      -- A minus that is read alone stands before no digit, where a sign is allowed.
      have noNumber : ∀ d ∈ (middle ++ after).head?, (d.isDigit && signed) = false := by
        intro d isHead
        obtain ⟨others, same⟩ := List.head?_eq_some_iff.mp isHead
        rw [List.nil_append, same, readMark_minus] at whole
        by_contra isSigned
        rw [Bool.not_eq_false] at isSigned
        rw [if_pos isSigned] at whole
        exact readNumber_ne_word (Bool.and_eq_true_iff.mp isSigned).1 _ whole
      have noNumber' : ∀ d ∈ (middle ++ after').head?, (d.isDigit && signed) = false := by
        cases middle with
        | cons d middle => exact noNumber
        | nil =>
          intro d isHead
          have sheltered : Sheltered after' := far.resolve_left (by decide)
          have stops := @Sheltered.none Char.isDigit _ sheltered (by decide) d isHead
          rw [stops, Bool.false_and]
      rw [List.nil_append, readMark_minus_alone noNumber] at whole
      rw [List.nil_append, readMark_minus_alone noNumber']
      exact @readSymbol_alike _ [] _ _ _ _ _ _ whole far
  · rw [readMark_of_ne isMinus] at whole ⊢
    exact readSymbol_alike whole far

theorem read_word_alike {text other : List Char} {spelling : String}
    (whole : read signed first (front ++ text) = .word (first :: front).length kind spelling quote)
    (alike : Alike 2 text other) :
    read signed first (front ++ other) =
      .word (first :: front).length kind spelling quote := by
  obtain ⟨middle, after, after', rfl, rfl, far⟩ := alike
  cases opening signed first with
  | space reads =>
    rw [reads] at whole
    cases whole
  | hash _ reads =>
    rw [reads] at whole
    cases whole
  | feed _ reads =>
    rw [reads] at whole
    cases whole
  | carriageReturn _ reads =>
    rw [reads] at whole
    split at whole <;> cases whole
  | quote isQuote reads =>
    rw [reads] at whole ⊢
    exact readString_alike whole _
  | digit isDigit reads =>
    rw [reads] at whole ⊢
    have width : (first :: front).length = ([] : List Char).length + (first :: front).length :=
      (Nat.zero_add _).symm
    rw [width] at whole ⊢
    exact readNumber_alike isDigit whole far
  | word starts reads =>
    rw [reads] at whole ⊢
    unfold readWord at whole ⊢
    have width := (Piece.word.inj whole).1
    rw [List.length_cons, List.length_cons] at width
    have stretch : (front ++ (middle ++ after)).takeWhile Text.isNameContinue = front := by
      obtain ⟨tail, same⟩ :=
        List.takeWhile_prefix Text.isNameContinue (l := front ++ (middle ++ after))
      exact eq_of_append_eq same.symm (by omega)
    rw [takeWhile_alike stretch]
    · rwa [stretch] at whole
    · rintro rfl
      have sheltered : Sheltered after' := far.resolve_left (by decide)
      exact sheltered.none (by decide)
  | mark reads =>
    rw [reads] at whole ⊢
    exact readMark_alike whole far

/-- A word is read from its own characters: what stands further behind can be cut off. -/
theorem read_word_cut (whole : read signed first (front ++ (middle ++ after)) =
      .word (first :: front).length kind text quote) :
    read signed first (front ++ middle) = .word (first :: front).length kind text quote :=
  read_word_alike whole
    ⟨middle, after, [], rfl, (List.append_nil _).symm, .inr fun _ isHead => nomatch isHead⟩

end Piece

end Parlance
