import Parlance.Proofs.Grammar.Completeness
import Parlance.Proofs.Grammar.Viability

/-!
Contract: a chain of operands and binary operators is read as its precedence tree.

The tree of a chain is told by one rule for chains of any length: its root is the rightmost of the
loosest operators, and what stands before and behind that operator forms the trees of the two sides.
The parser knows nothing of this rule; it has six loops, one inside the other. Owns: chains, the
trees they stand for (`Expr.ofChain`), and the theorem that the parser takes exactly the words of a
chain and gives its tree. Does not own: what stands in the brackets of an operand.
-/

namespace Parlance

/-! ## Precedence trees -/

/-- A row parted at the rightmost of its members with the greatest rank. -/
def partAtGreatest {α : Type} (rank : α → Nat) : List α → Option (List α × α × List α)
  | [] => none
  | first :: rest =>
    match partAtGreatest rank rest with
    | none => some ([], first, rest)
    | some (front, greatest, back) =>
      if rank greatest < rank first then some ([], first, rest)
      else some (first :: front, greatest, back)

section Parting

variable {α : Type} {rank : α → Nat}

theorem partAtGreatest_eq_none {row : List α} (parted : partAtGreatest rank row = none) :
    row = [] := by
  cases row with
  | nil => rfl
  | cons first rest =>
    unfold partAtGreatest at parted
    split at parted
    · contradiction
    · split at parted <;> contradiction

/-- The parts make up the row. No member before the chosen one has a greater rank, and every member
behind it has a smaller one. -/
theorem partAtGreatest_eq_some {row front back : List α} {greatest : α}
    (parted : partAtGreatest rank row = some (front, greatest, back)) :
    row = front ++ greatest :: back ∧
      (∀ member ∈ front, rank member ≤ rank greatest) ∧
        ∀ member ∈ back, rank member < rank greatest := by
  induction row generalizing front greatest back with
  | nil => contradiction
  | cons first rest ih =>
    unfold partAtGreatest at parted
    split at parted
    · rename_i nothing
      cases parted
      have empty := partAtGreatest_eq_none nothing
      simp [empty]
    · rename_i others root behind found
      have holds := ih found
      by_cases looser : rank root < rank first
      · rw [if_pos looser] at parted
        cases parted
        have below : ∀ member ∈ rest, rank member < rank first := by
          intro member inside
          rw [holds.1] at inside
          rcases List.mem_append.mp inside with before | after
          · have := holds.2.1 member before
            omega
          · rcases List.mem_cons.mp after with same | after
            · rw [same]
              exact looser
            · have := holds.2.2 member after
              omega
        exact ⟨rfl, by simp, below⟩
      · rw [if_neg looser] at parted
        cases parted
        have before : ∀ member ∈ first :: others, rank member ≤ rank greatest := by
          intro member inside
          rcases List.mem_cons.mp inside with same | inside
          · rw [same]
            omega
          · exact holds.2.1 member inside
        exact ⟨by rw [holds.1, List.cons_append], before, holds.2.2⟩

theorem partAtGreatest_append {front back : List α} {greatest : α}
    (before : ∀ member ∈ front, rank member ≤ rank greatest)
    (behind : ∀ member ∈ back, rank member < rank greatest) :
    partAtGreatest rank (front ++ greatest :: back) = some (front, greatest, back) := by
  induction front with
  | nil =>
    rw [List.nil_append, partAtGreatest]
    cases parted : partAtGreatest rank back with
    | none => rfl
    | some parts =>
      have holds := partAtGreatest_eq_some parted
      have member : parts.2.1 ∈ back := by
        rw [holds.1]
        simp
      simp only
      rw [if_pos (behind _ member)]
  | cons first front ih =>
    have others : ∀ member ∈ front, rank member ≤ rank greatest :=
      fun member inside => before member (List.mem_cons_of_mem first inside)
    have notLooser : ¬ rank greatest < rank first := by
      have := before first List.mem_cons_self
      omega
    rw [List.cons_append, partAtGreatest, ih others]
    simp only
    rw [if_neg notLooser]

end Parting

/-- The tree of a chain: the first operand, and each operator with the operand behind it. Its root
is the rightmost of the loosest operators. -/
def Expr.ofChain (first : Expr Unit) (links : List (BinaryOp × Expr Unit)) : Expr Unit :=
  match _parted : partAtGreatest (fun link => link.1.looseness) links with
  | none => first
  | some (front, (op, second), back) =>
    .binary (ofChain first front) op (ofChain second back) ()
termination_by links.length
decreasing_by
  all_goals
    have split := (partAtGreatest_eq_some _parted).1
    rw [split, List.length_append, List.length_cons]
    omega

theorem Expr.ofChain_nil (first : Expr Unit) : Expr.ofChain first [] = first := by
  rw [Expr.ofChain]
  rfl

/-- An operator that is looser than all behind it, and not tighter than any before it, is the
root. -/
theorem Expr.ofChain_append {front back : List (BinaryOp × Expr Unit)} {op : BinaryOp}
    (first second : Expr Unit) (before : ∀ link ∈ front, link.1.looseness ≤ op.looseness)
    (behind : ∀ link ∈ back, link.1.looseness < op.looseness) :
    Expr.ofChain first (front ++ (op, second) :: back) =
      .binary (Expr.ofChain first front) op (Expr.ofChain second back) () := by
  have parted : partAtGreatest (fun link : BinaryOp × Expr Unit => link.1.looseness)
      (front ++ (op, second) :: back) = some (front, (op, second), back) :=
    partAtGreatest_append before behind
  rw [Expr.ofChain]
  split
  · rename_i nothing
    rw [parted] at nothing
    contradiction
  · rename_i found
    rw [parted] at found
    cases found
    rfl

theorem BinaryOp.looseness_bounds (op : BinaryOp) :
    0 < op.looseness ∧ op.looseness ≤ BinaryOp.loosest := by
  cases op <;> decide

namespace Grammar

open Lexeme Parlance.Parser

/-! ## Operands -/

/-- An operand: any number of `not`, then any number of minus signs, then a chain of members, calls
and indexes on a primary, with at most the given number of levels nested in it. -/
structure Operand (levels : Nat) where
  nots : List Lexeme
  minuses : List Lexeme
  core : List Lexeme
  value : Expr Unit
  next : Kind
  areNots : ∀ word ∈ nots, word.kind = UnaryOp.not.kind
  areMinuses : ∀ word ∈ minuses, word.kind = UnaryOp.minus.kind
  forms : Derives levels .indexed core next value

structure Link (levels : Nat) where
  word : Lexeme
  op : BinaryOp
  isOp : BinaryOp.ofKind? word.kind = some op
  operand : Operand levels

section Chains

variable {levels : Nat}

def Operand.words (operand : Operand levels) : List Lexeme :=
  operand.nots ++ (operand.minuses ++ operand.core)

/-- The tree of an operand: each `not` stands outside all minus signs. -/
def Operand.tree (operand : Operand levels) : Expr Unit :=
  operand.nots.foldr (fun _ value => .unary .not value ())
    (operand.minuses.foldr (fun _ value => .unary .minus value ()) operand.value)

def chainWords (first : Operand levels) (links : List (Link levels)) : List Lexeme :=
  first.words ++ links.flatMap fun link => link.word :: link.operand.words

def chainTree (first : Operand levels) (links : List (Link levels)) : Expr Unit :=
  .ofChain first.tree (links.map fun link => (link.op, link.operand.tree))

theorem derives_prefixed {op : UnaryOp} {signs words : List Lexeme} {next : Kind}
    {value : Expr Unit} (areOps : ∀ word ∈ signs, word.kind = op.kind)
    (inner : Derives levels (.prefixed op) words next value) :
    Derives levels (.prefixed op) (signs ++ words) next
      (signs.foldr (fun _ value => .unary op value ()) value) := by
  induction signs with
  | nil => exact inner
  | cons sign signs ih =>
    have others : ∀ word ∈ signs, word.kind = op.kind :=
      fun word member => areOps word (List.mem_cons_of_mem sign member)
    exact .unary (areOps sign List.mem_cons_self) (ih others)

theorem Operand.derives (operand : Operand levels) (next : Kind) :
    Derives levels (.prefixed .not) operand.words next operand.tree := by
  have core : Derives levels .indexed operand.core next operand.value :=
    operand.forms.widen (Nat.le_refl levels) (.itself rfl)
  exact derives_prefixed operand.areNots
    (.ofSigned (derives_prefixed operand.areMinuses (.ofIndexed core)))

/-- What is derived with tighter operators only is derived where looser ones may stand. -/
theorem Derives.looser {looseness more : Nat} {words : List Lexeme} {next : Kind}
    {value : Expr Unit} (derives : Derives levels (.binary looseness) words next value)
    (atMost : looseness ≤ more) :
    Derives levels (.binary more) words next value := by
  induction more with
  | zero =>
    have none : looseness = 0 := by omega
    rw [none] at derives
    exact derives
  | succ more ih =>
    by_cases same : looseness = more + 1
    · rw [same] at derives
      exact derives
    · exact .ofTighter (ih (by omega))

/-- The grammar derives the tree of a chain from its words. The induction follows the tree: the
parts before and behind the root are shorter chains, and the one behind it has tighter operators
only. -/
theorem derives_chain (first : Operand levels) (links : List (Link levels)) (next : Kind)
    {looseness : Nat} (ranks : ∀ link ∈ links, link.op.looseness ≤ looseness) :
    Derives levels (.binary looseness) (chainWords first links) next (chainTree first links) := by
  induction size : links.length using Nat.strongRecOn generalizing first links next looseness with
  | ind length ih =>
    cases parted : partAtGreatest (fun link : Link levels => link.op.looseness) links with
    | none =>
      rw [partAtGreatest_eq_none parted, chainWords, chainTree, List.map_nil, Expr.ofChain_nil,
        List.flatMap_nil, List.append_nil]
      exact Derives.looser (.ofOperand (first.derives next)) (Nat.zero_le looseness)
    | some parts =>
      have holds := partAtGreatest_eq_some parted
      generalize parts.1 = front at holds
      generalize parts.2.1 = root at holds
      generalize parts.2.2 = back at holds
      have tighter : ∀ link ∈ back, link.op.looseness ≤ root.op.looseness - 1 := by
        intro link member
        have := holds.2.2 link member
        omega
      have split := holds.1
      subst split
      rw [List.length_append, List.length_cons] at size
      have left := ih front.length (by omega) first front root.word.kind
        holds.2.1 rfl
      have right := ih back.length (by omega) root.operand back next
        tighter rfl
      have rank : root.op.looseness = root.op.looseness - 1 + 1 := by
        have := root.op.looseness_bounds
        omega
      rw [rank] at left
      have whole := Derives.binary left root.isOp rank right
      have tree : chainTree first (front ++ root :: back) =
          .binary (chainTree first front) root.op (chainTree root.operand back) () := by
        unfold chainTree
        rw [List.map_append, List.map_cons]
        refine Expr.ofChain_append _ _ ?_ ?_
        · simpa using holds.2.1
        · simpa using holds.2.2
      have words : chainWords first (front ++ root :: back) =
          chainWords first front ++ root.word :: chainWords root.operand back := by
        simp [chainWords]
      rw [tree, words]
      refine whole.looser ?_
      rw [← rank]
      exact ranks root (by simp)

end Chains

/-- Before a token that continues no expression, the parser of binary operators takes exactly the
tokens of a chain, of any length and with any mixture of operators, and gives the tree whose root is
the rightmost of the loosest operators. -/
theorem binary_reads_chain (limit : Limit) {levels : Nat} (first : Operand levels)
    (links : List (Link levels)) (tokens rest : List Token) (last span : Span)
    (spelled : tokens.map Token.lexeme = chainWords first links)
    (ends : continuesChain (leading .endOfInput (rest.map Token.lexeme)) = false)
    (noOp : BinaryOp.ofKind? (leading .endOfInput (rest.map Token.lexeme)) = none) :
    ∃ value next,
      (binary (nested limit levels) BinaryOp.loosest).run ⟨tokens ++ rest, .finished span, last⟩ =
          .ok (value, next) ∧
        next.tokens = rest ∧ value.shape = chainTree first links := by
  have derives := derives_chain first links (leading .endOfInput (rest.map Token.lexeme))
    fun link _ => link.op.looseness_bounds.2
  have gives := (derives.complete limit ends (by simp [noOp])).gives fun found others seen =>
    delivers_binaryFrom_stop (by simp [seen, noOp])
  have run := gives (rest.map Token.lexeme) rfl ⟨tokens ++ rest, .finished span, last⟩ span rfl
    (by rw [Cursor.words, List.map_append, spelled])
  obtain ⟨value, next, run, left, shape⟩ := run
  -- The words that are left are those of `rest`. The tokens are too, since a parser takes tokens
  -- from the front only.
  have leads := (binary (nested limit levels) BinaryOp.loosest).leads _ _ _ run
  obtain ⟨taken, same⟩ := leads.tokens
  have length : next.tokens.length = rest.length := by
    simpa [Cursor.words] using congrArg List.length left
  exact ⟨value, next, run, (List.append_inj' same length).2, shape⟩

/-- Three ranks in one chain, with signs before one operand and an index behind another. -/
theorem binary_reads_mixed_chain :
    ∃ value next,
      (binary (nested .standard 1) BinaryOp.loosest).run
          ⟨(Reading.ofText "a - not -b * c[0] - d and e\n").tokens, .finished .origin, .origin⟩ =
          .ok (value, next) ∧
        next.tokens.map Token.kind = [.newline] ∧
        value.shape =
          .binary
            (.binary
              (.binary (.variable "a" ()) .subtract
                (.binary (.unary .not (.unary .minus (.variable "b" ()) ()) ()) .multiply
                  (.index (.variable "c" ()) (.number "0" ()) ()) ()) ())
              .subtract (.variable "d" ()) ())
            .and (.variable "e" ()) () := by
  have zero : Derives 1 (.nested false) [⟨.number, "0", ""⟩] (.symbol .rbracket)
      (.number "0" ()) :=
    .nested (.ofBinary (Derives.looser
      (.ofOperand (.ofSigned (.ofIndexed (.ofMembers (.ofPrimary (.number rfl))))))
      (Nat.zero_le BinaryOp.loosest)))
  have name : ∀ text : String,
      Derives 1 .indexed [⟨.name, text, ""⟩] .newline (.variable text ()) :=
    fun _ => .ofMembers (.ofPrimary (.name rfl))
  have element : Derives 1 .indexed
      ([⟨.name, "c", ""⟩] ++ ⟨.symbol .lbracket, "[", ""⟩ ::
        ([⟨.number, "0", ""⟩] ++ [⟨.symbol .rbracket, "]", ""⟩])) .newline
      (.index (.variable "c" ()) (.number "0" ()) ()) :=
    .index (.ofMembers (.ofPrimary (.name rfl))) rfl zero rfl
  have words : ((Reading.ofText "a - not -b * c[0] - d and e\n").tokens.take 14).map
      Token.lexeme =
        [⟨.name, "a", ""⟩, ⟨.symbol .minus, "-", ""⟩, ⟨.keyword .kwNot, "not", ""⟩,
          ⟨.symbol .minus, "-", ""⟩, ⟨.name, "b", ""⟩, ⟨.symbol .star, "*", ""⟩, ⟨.name, "c", ""⟩,
          ⟨.symbol .lbracket, "[", ""⟩, ⟨.number, "0", ""⟩, ⟨.symbol .rbracket, "]", ""⟩,
          ⟨.symbol .minus, "-", ""⟩, ⟨.name, "d", ""⟩, ⟨.keyword .kwAnd, "and", ""⟩,
          ⟨.name, "e", ""⟩] := by
    decide +kernel
  obtain ⟨value, next, run, left, shape⟩ := binary_reads_chain .standard
    ⟨[], [], _, _, _, by simp, by simp, name "a"⟩
    [⟨⟨.symbol .minus, "-", ""⟩, .subtract, rfl,
        [⟨.keyword .kwNot, "not", ""⟩], [⟨.symbol .minus, "-", ""⟩], _, _, _, by simp [UnaryOp.kind],
        by simp [UnaryOp.kind], name "b"⟩,
      ⟨⟨.symbol .star, "*", ""⟩, .multiply, rfl, [], [], _, _, _, by simp, by simp, element⟩,
      ⟨⟨.symbol .minus, "-", ""⟩, .subtract, rfl, [], [], _, _, _, by simp, by simp, name "d"⟩,
      ⟨⟨.keyword .kwAnd, "and", ""⟩, .and, rfl, [], [], _, _, _, by simp, by simp, name "e"⟩]
    ((Reading.ofText "a - not -b * c[0] - d and e\n").tokens.take 14)
    ((Reading.ofText "a - not -b * c[0] - d and e\n").tokens.drop 14)
    .origin .origin (words.trans rfl) (by decide +kernel) (by decide +kernel)
  rw [List.take_append_drop] at run
  refine ⟨value, next, run, ?_, ?_⟩
  · rw [left]
    decide +kernel
  · rw [shape]
    simp [chainTree, Operand.tree, Expr.ofChain, partAtGreatest, BinaryOp.looseness]

end Grammar

end Parlance
