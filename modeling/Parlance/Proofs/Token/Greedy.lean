import Mathlib.Computability.RegularExpressions
import Parlance.Proofs.Token.Following

/-!
Contract: the greedy reading of a text.

At each place behind spaces and comments a text is read as the longest stretch of the first class
that has one there: line breaks, strings, numbers, words, operators and punctuation. The classes are
given by what belongs to them, and the longest stretch is found by trying every one. Owns: the
classes (`Greedy.number`, `Greedy.isWord`, `Greedy.symbolOf?`), the longest stretch of a class
(`Greedy.longest`), what a text begins with (`Greedy.take`), and the lexemes of a text
(`Greedy.read`). Does not own: that texts are read so.
-/

namespace Parlance.Greedy

open RegularExpression

/-! ## Longest stretches -/

/-- The longest stretch at the front of a text that belongs to a class. -/
def longest (isIn : List Char → Bool) : List Char → Option (List Char)
  | [] => if isIn [] then some [] else none
  | c :: rest =>
    match longest (fun stretch => isIn (c :: stretch)) rest with
    | some stretch => some (c :: stretch)
    | none => if isIn [] then some [] else none

/-- No stretch of the class is longer than the longest, and if there is none, no stretch belongs to
the class. -/
theorem longest_cases (isIn : List Char → Bool) (text : List Char) :
    (∃ stretch, longest isIn text = some stretch ∧ stretch <+: text ∧ isIn stretch = true ∧
        ∀ other, other <+: text → isIn other = true → other.length ≤ stretch.length) ∨
      (longest isIn text = none ∧ ∀ other, other <+: text → isIn other = false) := by
  induction text generalizing isIn with
  | nil =>
    by_cases empty : isIn [] = true
    · left
      refine ⟨[], by simp [longest, empty], List.prefix_refl [], empty, ?_⟩
      intro other leads _
      rw [List.prefix_nil.mp leads]
    · right
      refine ⟨by simp [longest, empty], ?_⟩
      intro other leads
      rw [List.prefix_nil.mp leads]
      simpa using empty
  | cons c rest ih =>
    rcases ih (fun stretch => isIn (c :: stretch)) with found | nothing
    · left
      obtain ⟨stretch, found, leads, member, greatest⟩ := found
      refine ⟨c :: stretch, by simp [longest, found], List.cons_prefix_cons.mpr ⟨rfl, leads⟩,
        member, ?_⟩
      intro other otherLeads otherMember
      cases other with
      | nil => simp
      | cons d other =>
        obtain ⟨same, tailLeads⟩ := List.cons_prefix_cons.mp otherLeads
        subst same
        have atMost := greatest other tailLeads otherMember
        simpa using atMost
    · -- No stretch with `c` at its front belongs to the class, so only the empty one can.
      have shorter : ∀ other, other <+: c :: rest → other ≠ [] → isIn other = false := by
        intro other leads filled
        cases other with
        | nil => contradiction
        | cons d other =>
          obtain ⟨same, tailLeads⟩ := List.cons_prefix_cons.mp leads
          subst same
          exact nothing.2 other tailLeads
      by_cases empty : isIn [] = true
      · left
        refine ⟨[], by simp [longest, nothing.1, empty], List.nil_prefix, empty, ?_⟩
        intro other leads member
        by_cases filled : other = []
        · rw [filled]
        · rw [shorter other leads filled] at member
          contradiction
      · right
        refine ⟨by simp [longest, nothing.1, empty], ?_⟩
        intro other leads
        by_cases filled : other = []
        · rw [filled]
          simpa using empty
        · exact shorter other leads filled

theorem longest_eq_some {isIn : List Char → Bool} {text stretch : List Char}
    (leads : stretch <+: text) (member : isIn stretch = true)
    (greatest : ∀ other, other <+: text → isIn other = true → other.length ≤ stretch.length) :
    longest isIn text = some stretch := by
  rcases longest_cases isIn text with ⟨found, isLongest, foundLeads, foundMember, atMost⟩ | nothing
  · have length : found.length = stretch.length :=
      Nat.le_antisymm (greatest found foundLeads foundMember) (atMost stretch leads member)
    have same : found <+: stretch :=
      List.prefix_of_prefix_length_le foundLeads leads (Nat.le_of_eq length)
    rw [isLongest, same.eq_of_length length]
  · rw [nothing.2 stretch leads] at member
    contradiction

theorem longest_eq_none {isIn : List Char → Bool} {text : List Char}
    (none : ∀ other, other <+: text → isIn other = false) :
    longest isIn text = Option.none := by
  rcases longest_cases isIn text with ⟨found, -, leads, member, -⟩ | nothing
  · rw [none found leads] at member
    contradiction
  · exact nothing.1

/-- A stretch of characters of one class is no longer than all of them at the front. -/
theorem length_le_takeWhile {isPart : Char → Bool} {stretch text : List Char}
    (leads : stretch <+: text) (inside : ∀ c ∈ stretch, isPart c = true) :
    stretch.length ≤ (text.takeWhile isPart).length := by
  obtain ⟨rest, same⟩ := leads
  rw [← same, List.takeWhile_append_of_pos inside, List.length_append]
  omega

/-! ## Classes -/

def oneOf (chars : List Char) : RegularExpression Char :=
  chars.foldr (fun c others => char c + others) 0

def digit : RegularExpression Char :=
  oneOf ['0', '1', '2', '3', '4', '5', '6', '7', '8', '9']

/-- `(0|[1-9][0-9]*)(\.[0-9]+)?` -/
def numeral : RegularExpression Char :=
  (char '0' + oneOf ['1', '2', '3', '4', '5', '6', '7', '8', '9'] * star digit) *
    (1 + char '.' * (digit * star digit))

/-- `-?(0|[1-9][0-9]*)(\.[0-9]+)?` -/
def number : RegularExpression Char :=
  (1 + char '-') * numeral

/-- A number, with a sign only where one is allowed. -/
def isNumber (signed : Bool) (text : List Char) : Bool :=
  if signed then number.rmatch text else numeral.rmatch text

def integerPart (text : List Char) : List Char :=
  (text.dropWhile (· == '-')).takeWhile (· != '.')

/-- A word has the shape of a name, whether it is reserved or not. -/
def isWord : List Char → Bool
  | [] => false
  | first :: rest => Text.isNameStart first && rest.all Text.isNameContinue

/-- The operator or punctuation mark with the given spelling. -/
def symbolOf? (spelling : List Char) : Option Symbol :=
  Symbol.all.find? fun mark => mark.spelling.toList == spelling

/-- A sign is allowed before the first token and behind a token that ends no operand. -/
def allowsSign : Option Kind → Bool
  | none => true
  | some kind =>
    !([.name, .number, .string, .boolean, .nil, .symbol .rparen, .symbol .rbracket,
      .keyword .kwEnd].contains kind)

/-! ## The reading -/

/-- What a text begins with, behind spaces and comments: a lexeme and the number of its characters,
or a fault. -/
def take (signed : Bool) (first : Char) (rest : List Char) : Except Fault (Lexeme × Nat) :=
  if startsBreak (first :: rest) then
    .ok (⟨.newline, "\n", ""⟩, if first == '\n' then 1 else 2)
  else if first == '\x22' || first == '\x27' then
    match rest.findIdx? (· == first) with
    | some length =>
      .ok (⟨.string, String.ofList (rest.take length), String.ofList [first]⟩, length + 2)
    | none => .error (.openString first)
  else
    match longest (isNumber signed) (first :: rest) with
    | some text =>
      if integerPart text == ['0'] &&
          ((first :: rest).drop text.length).head?.any Char.isDigit then
        .error .leadingZero
      else .ok (⟨.number, String.ofList text, ""⟩, text.length)
    | none =>
      match longest isWord (first :: rest) with
      | some text =>
        .ok (⟨Kind.ofWord (String.ofList text), String.ofList text, ""⟩, text.length)
      | none =>
        match (longest (fun text => (symbolOf? text).isSome) (first :: rest)).bind symbolOf? with
        | some mark => .ok (⟨.symbol mark, mark.spelling, ""⟩, mark.spelling.toList.length)
        | none => .error (.strayCharacter first)

/-- The text behind a comment, of which the number sign has been taken: it begins with a line break,
or the text is over. -/
def behindComment : List Char → List Char
  | [] => []
  | c :: rest => if startsBreak (c :: rest) then c :: rest else behindComment rest

/-- The text behind spaces and comments. Behind a comment there is nothing more to skip. -/
def behindGap : List Char → List Char
  | ' ' :: rest => behindGap rest
  | '#' :: rest => behindComment rest
  | text => text

theorem length_behindComment (text : List Char) : (behindComment text).length ≤ text.length := by
  induction text with
  | nil => exact Nat.le_refl 0
  | cons c rest ih =>
    unfold behindComment
    split
    · exact Nat.le_refl _
    · rw [List.length_cons]
      omega

theorem length_behindGap (text : List Char) : (behindGap text).length ≤ text.length := by
  fun_induction behindGap text with
  | case1 rest ih =>
    rw [List.length_cons]
    omega
  | case2 rest =>
    have atMost := length_behindComment rest
    rw [List.length_cons]
    omega
  | case3 text => exact Nat.le_refl _

/-- The lexemes of a text behind a token of the kind `last`, if there is one, up to the end of the
text or to a fault. A fault is given with the text from its place on. -/
def read (last : Option Kind) (text : List Char) : List Lexeme × Option (Fault × List Char) :=
  match _behind : behindGap text with
  | [] =>
    let lineEnd : List Lexeme := if last.all (· == .newline) then [] else [⟨.newline, "", ""⟩]
    (lineEnd ++ [⟨.endOfInput, "", ""⟩], none)
  | first :: rest =>
    match take (allowsSign last) first rest with
    | .error cause => ([], some (cause, first :: rest))
    | .ok (word, width) =>
      let others := read (some word.kind) (rest.drop (width - 1))
      (word :: others.1, others.2)
termination_by text.length
decreasing_by
  have atMost := length_behindGap text
  rw [_behind, List.length_cons] at atMost
  rw [List.length_drop]
  omega

end Parlance.Greedy
