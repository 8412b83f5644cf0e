import Parlance.Outline
import Parlance.Proofs.Syntax.Shape
import Parlance.Proofs.Text.Quoting

/-!
Contract: the lines of an outline determine the shape of its program.

Owns: listings, which are what the lines of an outline say without the spaces before them, that
lines determine the listing, and that the listings of two programs are equal exactly if the programs
have the same shape. An outline with more levels than there is room for is listed up to a cut, and
what is listed then ends in a heading that nothing stands below; so it is not the whole listing of
any program.
-/

namespace Parlance

/-- Nothing, or a line with what stands one level deeper below it and what stands behind that. -/
inductive Listing where
  | nothing
  | line (text : String) (below : Listing) (behind : Listing)

theorem Outline.Dump.andThen_nothing (dump : Dump) : dump.andThen ⟨[], true⟩ = dump := by
  obtain ⟨lines, whole⟩ := dump
  cases whole <;> simp [andThen]

namespace Listing

def lines (level : Nat) : Listing → List String
  | .nothing => []
  | .line text below behind =>
    Outline.line level text :: (below.lines (level + 1) ++ behind.lines level)

/-- Whether a text can be told from the spaces before it and from the next line. -/
def isFlush (text : String) : Bool :=
  text.toList.head?.any (· != ' ') && text.toList.all Text.isPrintable

/-- Whether a text announces what stands below it. -/
def isHeading (text : String) : Bool :=
  text.toList.getLast? == some ':'

def isNothing : Listing → Bool
  | .nothing => true
  | .line .. => false

def isClear : Listing → Bool
  | .nothing => true
  | .line text below behind => isFlush text && below.isClear && behind.isClear

/-- Whether nodes and fields alternate from level to level: nodes are no headings, and of the fields
those are that have something below them. -/
def alternates (fields : Bool) : Listing → Bool
  | .nothing => true
  | .line text below behind =>
    (isHeading text == (fields && !below.isNothing)) && below.alternates (!fields) &&
      behind.alternates fields

/-- The first line, if any, does not begin with the spaces of a level. -/
def Shallow (level : Nat) (lines : List String) : Prop :=
  ∀ line ∈ lines.head?, ¬List.replicate (2 * level) ' ' <+: line.toList

theorem toList_line (level : Nat) (text : String) :
    (Outline.line level text).toList = List.replicate (2 * level) ' ' ++ text.toList := by
  simp [Outline.line]

theorem shallow_append {level : Nat} {listing : Listing} {rest : List String}
    (flush : listing.isClear = true) (shallow : Shallow level rest) :
    Shallow (level + 1) (listing.lines level ++ rest) := by
  have deeper :
      List.replicate (2 * (level + 1)) ' ' = List.replicate (2 * level) ' ' ++ [' ', ' '] :=
    List.replicate_append_replicate.symm
  cases listing with
  | nothing =>
    intro line isHead begins
    rw [deeper] at begins
    exact shallow line isHead ((List.prefix_append _ _).trans begins)
  | line text below behind =>
    rintro line ⟨⟩ begins
    rw [deeper, toList_line, List.prefix_append_right_inj] at begins
    obtain ⟨tail, isText⟩ := begins
    simp [isClear, isFlush, ← isText] at flush

theorem lines_append_inj {level : Nat} {left right : Listing} {rest rest' : List String}
    (flush : left.isClear = true) (flush' : right.isClear = true)
    (shallow : Shallow level rest) (shallow' : Shallow level rest')
    (same : left.lines level ++ rest = right.lines level ++ rest') :
    left = right ∧ rest = rest' := by
  induction left generalizing level right rest rest' with
  | nothing =>
    cases right with
    | nothing => exact ⟨rfl, same⟩
    | line text =>
      have equal : rest = _ := same
      exact absurd ⟨text.toList, (toList_line level text).symm⟩ (shallow _ (by rw [equal]; rfl))
  | line text below behind ihBelow ihBehind =>
    cases right with
    | nothing =>
      have equal : _ = rest' := same
      exact absurd ⟨text.toList, (toList_line level text).symm⟩ (shallow' _ (by rw [← equal]; rfl))
    | line text' below' behind' =>
      simp only [isClear, Bool.and_eq_true] at flush flush'
      simp only [lines, List.cons_append, List.append_assoc, List.cons.injEq] at same
      obtain ⟨equalLines, equalRest⟩ := same
      have equalText : text = text' := (String.append_right_inj _).mp equalLines
      obtain ⟨equalBelow, equalBehind⟩ := ihBelow flush.1.2 flush'.1.2
        (shallow_append flush.2 shallow) (shallow_append flush'.2 shallow') equalRest
      obtain ⟨equalBehind, equalRest⟩ := ihBehind flush.2 flush'.2 shallow shallow' equalBehind
      exact ⟨by rw [equalText, equalBelow, equalBehind], equalRest⟩

/-! ## Cuts -/

/-- What is listed of a listing with room for so many levels, and whether it is all. -/
def cut : Nat → Listing → Listing × Bool
  | _, .nothing => (.nothing, true)
  | 0, .line .. => (.nothing, false)
  | room + 1, .line text below behind =>
    let under := below.cut room
    if under.2 then
      let rest := behind.cut (room + 1)
      (.line text under.1 rest.1, rest.2)
    else (.line text under.1 .nothing, false)

def dumped (level : Nat) (listed : Listing × Bool) : Outline.Dump :=
  ⟨listed.1.lines level, listed.2⟩

theorem dumped_cut_line (level room : Nat) (text : String) (below behind : Listing) :
    dumped level ((Listing.line text below behind).cut (room + 1)) =
      (Outline.Dump.under (Outline.line level text) (dumped (level + 1) (below.cut room))).andThen
        (dumped level (behind.cut (room + 1))) := by
  rw [cut]
  cases whole : (below.cut room).2 <;>
    simp [dumped, lines, Outline.Dump.under, Outline.Dump.andThen, whole]

theorem dumped_cut_nothing (level room : Nat) :
    dumped level (Listing.nothing.cut room) = ⟨[], true⟩ := by
  cases room <;> rfl

theorem cut_eq_self {room : Nat} {listing : Listing} (whole : (listing.cut room).2 = true) :
    (listing.cut room).1 = listing := by
  fun_induction cut room listing with
  | case1 => rfl
  | case2 => cases whole
  | case3 room text below behind under isWhole rest ihBelow ihBehind =>
    rw [ihBelow isWhole, ihBehind whole]
  | case4 => cases whole

theorem isClear_cut {room : Nat} {listing : Listing} (clear : listing.isClear = true) :
    (listing.cut room).1.isClear = true := by
  fun_induction cut room listing with
  | case1 | case2 => rfl
  | case3 room text below behind under isWhole rest ihBelow ihBehind =>
    simp only [isClear, Bool.and_eq_true] at clear ⊢
    exact ⟨⟨clear.1.1, ihBelow clear.1.2⟩, ihBehind clear.2⟩
  | case4 room text below behind under isCut ihBelow =>
    simp only [isClear, Bool.and_eq_true] at clear ⊢
    exact ⟨⟨clear.1.1, ihBelow clear.1.2⟩, trivial⟩

/-- Below the last heading of what is cut off nothing is left, or there was no room for any line. -/
theorem alternates_cut {room : Nat} {fields : Bool} {listing : Listing}
    (alternates : listing.alternates fields = true) (parity : room % 2 = fields.toNat)
    (isCut : (listing.cut room).2 = false) :
    (listing.cut room).1.alternates fields = false ∨ room = 0 := by
  induction listing generalizing room fields with
  | nothing => cases room <;> cases isCut
  | line text below behind ihBelow ihBehind =>
    cases room with
    | zero => exact .inr rfl
    | succ room =>
      simp only [Listing.alternates, Bool.and_eq_true] at alternates
      obtain ⟨⟨heads, isBelow⟩, isBehind⟩ := alternates
      have further : room % 2 = (!fields).toNat := by cases fields <;> simp at parity ⊢ <;> omega
      rw [cut] at isCut ⊢
      cases whole : (below.cut room).2 with
      | true =>
        simp only [whole, ↓reduceIte] at isCut ⊢
        rcases ihBehind isBehind parity isCut with broken | none
        · exact .inl (by rw [Listing.alternates, broken, Bool.and_false])
        · cases none
      | false =>
        left
        simp only [Bool.false_eq_true, ↓reduceIte, Listing.alternates]
        rcases ihBelow isBelow further whole with broken | none
        · rw [broken, Bool.and_false, Bool.false_and]
        · -- The line is a heading, and what it announces is cut off.
          subst none
          cases fields with
          | false => cases parity
          | true =>
            cases below with
            | nothing => cases whole
            | line => simp_all [isNothing, cut]

theorem eq_of_cut_eq {room : Nat} {left right : Listing} (isLeft : left.alternates false = true)
    (isRight : right.alternates false = true) (parity : room % 2 = 0) (filled : room ≠ 0)
    (whole : (left.cut room).2 = true) (same : (left.cut room).1 = (right.cut room).1) :
    left = right := by
  rw [cut_eq_self whole] at same
  cases isWhole : (right.cut room).2 with
  | true => rw [same, cut_eq_self isWhole]
  | false =>
    rcases alternates_cut isRight parity isWhole with broken | none
    · rw [← same, isLeft] at broken
      cases broken
    · exact absurd none filled

end Listing

/-! ## The listing of an outline -/

/-- What a field of several nodes begins with. -/
def Field.heading (name : String) (values : List Outline) : String :=
  if values.isEmpty then name ++ ": []" else name ++ ":"

mutual

def Outline.listing (behind : Listing) : Outline → Listing
  | .node kind fields _ => .line kind (Field.listings fields) behind

def Outline.listings : List Outline → Listing
  | [] => .nothing
  | first :: rest => first.listing (Outline.listings rest)

def Field.listing (behind : Listing) : Field → Listing
  | .absent _ => behind
  | .flag name value => .line (name ++ ": " ++ Field.flagText value) .nothing behind
  | .text name value => .line (name ++ ": " ++ Text.quoted value) .nothing behind
  | .texts name values => .line (name ++ ": " ++ Text.quotedList values) .nothing behind
  | .child name value => .line (name ++ ":") (value.listing .nothing) behind
  | .children name values => .line (Field.heading name values) (Outline.listings values) behind

def Field.listings : List Field → Listing
  | [] => .nothing
  | first :: rest => first.listing (Field.listings rest)

end

open Listing

mutual

/-- An outline is listed as far as its listing, in which every level of nodes is followed by one of
fields. -/
theorem Outline.dumped_listing (level room : Nat) (behind : Listing) (outline : Outline) :
    dumped level ((outline.listing behind).cut (2 * room)) =
      (outline.dump level room).andThen (dumped level (behind.cut (2 * room))) := by
  cases outline with
  | node kind fields =>
    cases room with
    | zero => rfl
    | succ room =>
      rw [Outline.listing, Nat.mul_add_one, dumped_cut_line, Field.dumped_listings, Outline.dump]

theorem Outline.dumped_listings (level room : Nat) (outlines : List Outline) :
    dumped level ((Outline.listings outlines).cut (2 * room)) =
      Outline.dumpList level room outlines := by
  cases outlines with
  | nil => exact dumped_cut_nothing _ _
  | cons first rest =>
    rw [Outline.listings, Outline.dumped_listing, Outline.dumped_listings, Outline.dumpList]

theorem Field.dumped_listing (level room : Nat) (behind : Listing) (field : Field) :
    dumped level ((field.listing behind).cut (2 * room + 1)) =
      (field.dump level room).andThen (dumped level (behind.cut (2 * room + 1))) := by
  cases field with
  | absent => rfl
  | flag | text | texts =>
    rw [Field.listing, dumped_cut_line, dumped_cut_nothing, Field.dump]
    rfl
  | child name value =>
    rw [Field.listing, dumped_cut_line, Outline.dumped_listing, dumped_cut_nothing,
      Outline.Dump.andThen_nothing, Field.dump]
  | children name values =>
    rw [Field.listing, dumped_cut_line, Outline.dumped_listings]
    cases values <;> rfl

theorem Field.dumped_listings (level room : Nat) (fields : List Field) :
    dumped level ((Field.listings fields).cut (2 * room + 1)) =
      Field.dumpList level room fields := by
  cases fields with
  | nil => rfl
  | cons first rest =>
    rw [Field.listings, Field.dumped_listing, Field.dumped_listings, Field.dumpList]

end

mutual

def Outline.height : Outline → Nat
  | .node _ fields _ => Field.heights fields + 1

def Outline.heights : List Outline → Nat
  | [] => 0
  | first :: rest => max first.height (Outline.heights rest)

def Field.height : Field → Nat
  | .absent _ | .flag .. | .text .. | .texts .. => 0
  | .child _ value => value.height
  | .children _ values => Outline.heights values

def Field.heights : List Field → Nat
  | [] => 0
  | first :: rest => max first.height (Field.heights rest)

end

theorem Outline.Dump.whole_andThen (first next : Dump) :
    (first.andThen next).whole = (first.whole && next.whole) := by
  unfold andThen
  cases whole : first.whole <;> simp [whole]

mutual

theorem Outline.whole_dump (level room : Nat) (outline : Outline) :
    (outline.dump level room).whole = decide (outline.height ≤ room) := by
  cases outline with
  | node kind fields =>
    cases room with
    | zero => simp [Outline.dump, Outline.height]
    | succ room => simp [Outline.dump, Outline.Dump.under, Field.whole_dumpList, Outline.height]

theorem Outline.whole_dumpList (level room : Nat) (outlines : List Outline) :
    (Outline.dumpList level room outlines).whole = decide (Outline.heights outlines ≤ room) := by
  cases outlines with
  | nil => simp [Outline.dumpList, Outline.heights]
  | cons first rest =>
    simp [Outline.dumpList, Outline.heights, Outline.Dump.whole_andThen, Outline.whole_dump,
      Outline.whole_dumpList, Nat.max_le, Bool.decide_and]

theorem Field.whole_dump (level room : Nat) (field : Field) :
    (field.dump level room).whole = decide (field.height ≤ room) := by
  cases field with
  | absent | flag | text | texts => simp [Field.dump, Field.height]
  | child name value =>
    rw [Field.dump, Field.height]
    exact Outline.whole_dump (level + 1) room value
  | children name values =>
    cases values with
    | nil => simp [Field.dump, Field.height, Outline.heights]
    | cons first rest =>
      rw [Field.dump, Field.height]
      exact Outline.whole_dumpList (level + 1) room (first :: rest)

theorem Field.whole_dumpList (level room : Nat) (fields : List Field) :
    (Field.dumpList level room fields).whole = decide (Field.heights fields ≤ room) := by
  cases fields with
  | nil => simp [Field.dumpList, Field.heights]
  | cons first rest =>
    simp [Field.dumpList, Field.heights, Outline.Dump.whole_andThen, Field.whole_dump,
      Field.whole_dumpList, Nat.max_le, Bool.decide_and]

end

/-! ## The listings of trees -/

@[simp] theorem Outline.listing_ne_nothing (outline : Outline) (behind : Listing) :
    outline.listing behind ≠ .nothing := by
  cases outline
  exact Listing.noConfusion

@[simp] theorem Outline.nothing_ne_listing (outline : Outline) (behind : Listing) :
    .nothing ≠ outline.listing behind :=
  (outline.listing_ne_nothing behind).symm

@[simp] theorem Field.heading_cons (name : String) (first : Outline) (rest : List Outline) :
    heading name (first :: rest) = name ++ ":" := rfl

/-- Fields of several nodes have equal listings if their nodes have. -/
@[simp 1100] theorem Field.heading_inj {name : String} {left right : List Outline}
    {behind behind' : Listing} :
    (Listing.line (heading name left) (Outline.listings left) behind =
      .line (heading name right) (Outline.listings right) behind') ↔
      Outline.listings left = Outline.listings right ∧ behind = behind' := by
  rw [Listing.line.injEq]
  refine and_iff_right_of_imp fun same => ?_
  cases left <;> cases right <;> simp_all [Outline.listings]

@[simp] theorem Field.flagText_inj {left right : Bool} :
    flagText left = flagText right ↔ left = right := by
  cases left <;> cases right <;> decide

@[simp] theorem UnaryOp.spelling_inj {left right : UnaryOp} :
    left.spelling = right.spelling ↔ left = right := by
  cases left <;> cases right <;> decide

@[simp] theorem BinaryOp.spelling_inj {left right : BinaryOp} :
    left.spelling = right.spelling ↔ left = right := by
  cases left <;> cases right <;> decide

@[simp] theorem AssignOp.spelling_inj {left right : AssignOp} :
    left.spelling = right.spelling ↔ left = right := by
  cases left <;> cases right <;> decide

/-- An expression and statements have different listings. -/
theorem Expr.listing_ne_listings (expr : Expr Span) (stmts : List (Stmt Span)) :
    expr.outline.listing .nothing ≠ Outline.listings (Stmt.outlines stmts) := by
  cases stmts with
  | nil => exact Outline.listing_ne_nothing _ _
  | cons first =>
    cases expr <;> cases first <;>
      simp [Expr.outline, Stmt.outlines, Stmt.outline, Outline.listings, Outline.listing]

mutual

/-- Expressions have equal listings exactly if they have equal shapes. -/
theorem Expr.listing_eq_iff (left right : Expr Span) (behind behind' : Listing) :
    left.outline.listing behind = right.outline.listing behind' ↔
      left.map (fun _ => ()) = right.map (fun _ => ()) ∧ behind = behind' := by
  cases left <;> cases right <;> simp [Expr.outline, Outline.listing, Outline.listings,
    Field.listings, Field.listing, Expr.map, Expr.listing_eq_iff, Expr.listings_eq_iff,
    Stmt.listing_eq_iff, Stmt.listings_eq_iff, Entry.listings_eq_iff, and_assoc]
termination_by structural left

theorem Expr.listings_eq_iff (left right : List (Expr Span)) :
    Outline.listings (Expr.outlines left) = Outline.listings (Expr.outlines right) ↔
      Expr.mapList (fun _ => ()) left = Expr.mapList (fun _ => ()) right := by
  cases left <;> cases right <;>
    simp [Expr.outlines, Outline.listings, Expr.mapList, Expr.listing_eq_iff, Expr.listings_eq_iff]
termination_by structural left

theorem Stmt.listing_eq_iff (left right : Stmt Span) (behind behind' : Listing) :
    left.outline.listing behind = right.outline.listing behind' ↔
      left.map (fun _ => ()) = right.map (fun _ => ()) ∧ behind = behind' := by
  cases left <;> cases right <;> simp [Stmt.outline, Outline.listing, Field.listings,
    Field.listing, Stmt.map, Expr.listing_eq_iff, Stmt.listings_eq_iff, Param.listings_eq_iff,
    Target.listing_eq_iff, Expr.listing_ne_listings, (Expr.listing_ne_listings _ _).symm,
    and_assoc, and_left_comm]
termination_by structural left

theorem Stmt.listings_eq_iff (left right : List (Stmt Span)) :
    Outline.listings (Stmt.outlines left) = Outline.listings (Stmt.outlines right) ↔
      Stmt.mapList (fun _ => ()) left = Stmt.mapList (fun _ => ()) right := by
  cases left <;> cases right <;>
    simp [Stmt.outlines, Outline.listings, Stmt.mapList, Stmt.listing_eq_iff, Stmt.listings_eq_iff]
termination_by structural left

theorem Param.listing_eq_iff (left right : Param Span) (behind behind' : Listing) :
    left.outline.listing behind = right.outline.listing behind' ↔
      left.map (fun _ => ()) = right.map (fun _ => ()) ∧ behind = behind' := by
  cases left <;> cases right <;> simp [Param.outline, Outline.listing, Field.listings,
    Field.listing, Param.map, Expr.listing_eq_iff, and_assoc]
termination_by structural left

theorem Param.listings_eq_iff (left right : List (Param Span)) :
    Outline.listings (Param.outlines left) = Outline.listings (Param.outlines right) ↔
      Param.mapList (fun _ => ()) left = Param.mapList (fun _ => ()) right := by
  cases left <;> cases right <;> simp [Param.outlines, Outline.listings, Param.mapList,
    Param.listing_eq_iff, Param.listings_eq_iff]
termination_by structural left

theorem Entry.listing_eq_iff (left right : Entry Span) (behind behind' : Listing) :
    left.outline.listing behind = right.outline.listing behind' ↔
      left.map (fun _ => ()) = right.map (fun _ => ()) ∧ behind = behind' := by
  cases left
  cases right
  simp [Entry.outline, Outline.listing, Field.listings, Field.listing, Entry.map,
    Expr.listing_eq_iff, and_assoc]
termination_by structural left

theorem Entry.listings_eq_iff (left right : List (Entry Span)) :
    Outline.listings (Entry.outlines left) = Outline.listings (Entry.outlines right) ↔
      Entry.mapList (fun _ => ()) left = Entry.mapList (fun _ => ()) right := by
  cases left <;> cases right <;> simp [Entry.outlines, Outline.listings, Entry.mapList,
    Entry.listing_eq_iff, Entry.listings_eq_iff]
termination_by structural left

theorem Target.listing_eq_iff (left right : Target Span) (behind behind' : Listing) :
    left.outline.listing behind = right.outline.listing behind' ↔
      left.map (fun _ => ()) = right.map (fun _ => ()) ∧ behind = behind' := by
  cases left <;> cases right <;> simp [Target.outline, Outline.listing, Field.listings,
    Field.listing, Target.map, Expr.listing_eq_iff, and_assoc]
termination_by structural left

end

/-! ## The texts of listings -/

namespace Listing

theorem isFlush_append {name : String} (flush : isFlush name = true) (text : String) :
    isFlush (name ++ text) = text.toList.all Text.isPrintable := by
  unfold isFlush at *
  rw [Bool.and_eq_true] at flush
  rw [String.toList_append, List.all_append, flush.2, Bool.true_and, List.head?_append]
  cases isHead : name.toList.head? <;> simp_all

/-- Whether a text is what a field shows of its value: printable, and no heading. -/
def isValue (text : String) : Bool :=
  text.toList.all Text.isPrintable && text.toList.getLast?.any (· != ':')

theorem isValue_flagText (value : Bool) : isValue (Field.flagText value) = true := by
  cases value <;> decide

theorem isValue_quoted (text : String) : isValue (Text.quoted text) = true := by
  obtain ⟨quote, isQuote, isText⟩ := Text.Quoted.encode_eq text.toList
  rw [isValue, Text.all_quoted, Text.toList_quoted, isText, ← List.cons_append, List.getLast?_concat]
  rcases isQuote with rfl | rfl <;> rfl

theorem isValue_quotedList (texts : List String) : isValue (Text.quotedList texts) = true := by
  rw [isValue, Text.all_quotedList, Text.quotedList, String.toList_append]
  exact congrArg (Option.any (· != ':')) List.getLast?_concat

theorem texts_of_value {name text : String} (flush : isFlush name = true)
    (isValue : isValue text = true) :
    isFlush (name ++ ": " ++ text) = true ∧ isHeading (name ++ ": " ++ text) = false := by
  unfold Listing.isValue at isValue
  rw [Bool.and_eq_true] at isValue
  have begun : isFlush (name ++ ": ") = true := (isFlush_append flush _).trans (by decide)
  refine ⟨(isFlush_append begun _).trans isValue.1, ?_⟩
  rw [isHeading, String.toList_append, List.getLast?_append]
  cases isLast : text.toList.getLast? <;> simp_all

theorem texts_of_nodes {name : String} (flush : isFlush name = true) :
    isFlush (name ++ ":") = true ∧ isHeading (name ++ ":") = true :=
  ⟨(isFlush_append flush _).trans (by decide), by simp [isHeading]⟩

end Listing

mutual

/-- Whether the names of nodes and fields are flush, and those of nodes no headings. -/
def Outline.isNamed : Outline → Bool
  | .node kind fields _ => isFlush kind && !isHeading kind && Field.areNamed fields

def Outline.areNamed : List Outline → Bool
  | [] => true
  | first :: rest => first.isNamed && Outline.areNamed rest

def Field.isNamed : Field → Bool
  | .absent name | .flag name _ | .text name _ | .texts name _ => isFlush name
  | .child name value => isFlush name && value.isNamed
  | .children name values => isFlush name && Outline.areNamed values

def Field.areNamed : List Field → Bool
  | [] => true
  | first :: rest => first.isNamed && Field.areNamed rest

end

/-- Whether a listing is clear, and nodes and fields alternate in it. -/
def Listing.isProper (fields : Bool) (listing : Listing) : Bool :=
  listing.isClear && listing.alternates fields

theorem Listing.isProper_line {fields : Bool} {text : String} {below behind : Listing}
    (flush : isFlush text = true) (heads : isHeading text = (fields && !below.isNothing))
    (isBelow : below.isProper (!fields) = true) :
    (Listing.line text below behind).isProper fields = behind.isProper fields := by
  unfold isProper at *
  rw [Bool.and_eq_true] at isBelow
  simp [isClear, alternates, flush, heads, isBelow]

theorem Outline.listing_filled (outline : Outline) (behind : Listing) :
    (outline.listing behind).isNothing = false := by
  cases outline
  rfl

mutual

theorem Outline.isProper_listing {outline : Outline} (named : outline.isNamed = true)
    (behind : Listing) :
    (outline.listing behind).isProper false = behind.isProper false := by
  cases outline with
  | node kind fields =>
    simp only [Outline.isNamed, Bool.and_eq_true, Bool.not_eq_true'] at named
    exact isProper_line named.1.1 named.1.2 (Field.isProper_listings named.2)

theorem Outline.isProper_listings {outlines : List Outline}
    (named : Outline.areNamed outlines = true) :
    (Outline.listings outlines).isProper false = true := by
  cases outlines with
  | nil => rfl
  | cons first rest =>
    simp only [Outline.areNamed, Bool.and_eq_true] at named
    rw [Outline.listings, Outline.isProper_listing named.1, Outline.isProper_listings named.2]

theorem Field.isProper_listing {field : Field} (named : field.isNamed = true) (behind : Listing) :
    (field.listing behind).isProper true = behind.isProper true := by
  cases field with
  | absent => rfl
  | flag name value =>
    obtain ⟨flush, plain⟩ := texts_of_value named (isValue_flagText value)
    exact isProper_line flush plain rfl
  | text name value =>
    obtain ⟨flush, plain⟩ := texts_of_value named (isValue_quoted value)
    exact isProper_line flush plain rfl
  | texts name values =>
    obtain ⟨flush, plain⟩ := texts_of_value named (isValue_quotedList values)
    exact isProper_line flush plain rfl
  | child name value =>
    simp only [Field.isNamed, Bool.and_eq_true] at named
    obtain ⟨flush, heads⟩ := texts_of_nodes named.1
    have filled := value.listing_filled .nothing
    exact isProper_line flush (by rw [heads, filled]; rfl)
      ((Outline.isProper_listing named.2 .nothing).trans rfl)
  | children name values =>
    simp only [Field.isNamed, Bool.and_eq_true] at named
    have isBelow := Outline.isProper_listings named.2
    cases values with
    | nil =>
      obtain ⟨flush, plain⟩ := texts_of_value named.1 (show isValue "[]" = true by decide)
      rw [String.append_assoc] at flush plain
      exact isProper_line flush plain isBelow
    | cons first rest =>
      obtain ⟨flush, heads⟩ := texts_of_nodes named.1
      have filled : (Outline.listings (first :: rest)).isNothing = false :=
        first.listing_filled _
      exact isProper_line flush (by rw [Field.heading_cons, heads, filled]; rfl) isBelow

theorem Field.isProper_listings {fields : List Field} (named : Field.areNamed fields = true) :
    (Field.listings fields).isProper true = true := by
  cases fields with
  | nil => rfl
  | cons first rest =>
    simp only [Field.areNamed, Bool.and_eq_true] at named
    rw [Field.listings, Field.isProper_listing named.1, Field.isProper_listings named.2]

end

mutual

theorem Expr.isNamed_outline (expr : Expr Span) : expr.outline.isNamed = true := by
  cases expr <;> simp +decide [Expr.outline, Outline.isNamed, Outline.areNamed, Field.areNamed,
    Field.isNamed, Expr.isNamed_outline, Expr.areNamed_outlines, Stmt.isNamed_outline,
    Stmt.areNamed_outlines, Entry.areNamed_outlines]

theorem Expr.areNamed_outlines (exprs : List (Expr Span)) :
    Outline.areNamed (Expr.outlines exprs) = true := by
  cases exprs <;>
    simp [Expr.outlines, Outline.areNamed, Expr.isNamed_outline, Expr.areNamed_outlines]

theorem Stmt.isNamed_outline (stmt : Stmt Span) : stmt.outline.isNamed = true := by
  cases stmt <;> simp +decide [Stmt.outline, Outline.isNamed, Field.areNamed, Field.isNamed,
    Expr.isNamed_outline, Stmt.areNamed_outlines, Param.areNamed_outlines, Target.isNamed_outline]

theorem Stmt.areNamed_outlines (stmts : List (Stmt Span)) :
    Outline.areNamed (Stmt.outlines stmts) = true := by
  cases stmts <;>
    simp [Stmt.outlines, Outline.areNamed, Stmt.isNamed_outline, Stmt.areNamed_outlines]

theorem Param.areNamed_outlines (params : List (Param Span)) :
    Outline.areNamed (Param.outlines params) = true := by
  cases params with
  | nil => rfl
  | cons first =>
    cases first <;> simp +decide [Param.outlines, Param.outline, Outline.areNamed,
      Outline.isNamed, Field.areNamed, Field.isNamed, Expr.isNamed_outline,
      Param.areNamed_outlines]

theorem Entry.areNamed_outlines (entries : List (Entry Span)) :
    Outline.areNamed (Entry.outlines entries) = true := by
  cases entries with
  | nil => rfl
  | cons first =>
    cases first
    simp +decide [Entry.outlines, Entry.outline, Outline.areNamed, Outline.isNamed,
      Field.areNamed, Field.isNamed, Expr.isNamed_outline, Entry.areNamed_outlines]

theorem Target.isNamed_outline (target : Target Span) : target.outline.isNamed = true := by
  cases target <;> simp +decide [Target.outline, Outline.isNamed, Field.areNamed, Field.isNamed,
    Expr.isNamed_outline]

end

/-! ## Programs -/

namespace Program

def listing (program : Program Span) : Listing :=
  program.outline.listing .nothing

theorem isProper_listing (program : Program Span) : program.listing.isProper false = true := by
  have named : program.outline.isNamed = true := by
    simp +decide [Program.outline, Outline.isNamed, Field.areNamed, Field.isNamed,
      Stmt.areNamed_outlines]
  exact (Outline.isProper_listing named .nothing).trans rfl

theorem dump_outline (program : Program Span) (level room : Nat) :
    program.outline.dump level room = dumped level (program.listing.cut (2 * room)) := by
  rw [listing, Outline.dumped_listing, dumped_cut_nothing, Outline.Dump.andThen_nothing]

theorem listing_eq_iff (left right : Program Span) :
    left.listing = right.listing ↔ left.same right = true := by
  simp [listing, outline, Outline.listing, Field.listings, Field.listing, Stmt.listings_eq_iff,
    Program.same, Stmt.sameList_iff_mapList_eq]

theorem isClear_listing (program : Program Span) : program.listing.isClear = true :=
  (Bool.and_eq_true_iff.mp program.isProper_listing).1

theorem alternates_listing (program : Program Span) : program.listing.alternates false = true :=
  (Bool.and_eq_true_iff.mp program.isProper_listing).2

theorem dump_eq_of_same {left right : Program Span} (same : left.same right = true)
    (level room : Nat) :
    left.outline.dump level room = right.outline.dump level room := by
  rw [dump_outline, dump_outline, (listing_eq_iff left right).mpr same]

/-- If one of two programs is listed whole, they are listed alike only if they have the same
shape. -/
theorem same_of_dump_eq {level room : Nat} {left right : Program Span}
    (whole : left.outline.height ≤ room ∨ right.outline.height ≤ room)
    (sameLines : (left.outline.dump level room).lines = (right.outline.dump level room).lines) :
    left.same right = true := by
  have isWhole : ∀ program : Program Span, program.outline.height ≤ room →
      (program.listing.cut (2 * room)).2 = true := by
    intro program fits
    have listed := Outline.whole_dump level room program.outline
    rw [dump_outline] at listed
    exact listed.trans (decide_eq_true fits)
  have filled : 2 * room ≠ 0 := by
    have left' : 0 < left.outline.height := Nat.succ_pos _
    have right' : 0 < right.outline.height := Nat.succ_pos _
    omega
  have bottom : Shallow level [] := by simp [Shallow]
  rw [dump_outline, dump_outline] at sameLines
  have sameCuts : (left.listing.cut (2 * room)).1 = (right.listing.cut (2 * room)).1 :=
    (lines_append_inj (isClear_cut left.isClear_listing) (isClear_cut right.isClear_listing) bottom
      bottom (congrArg (· ++ []) sameLines)).1
  rw [← listing_eq_iff]
  rcases whole with fits | fits
  · exact eq_of_cut_eq left.alternates_listing right.alternates_listing
      (Nat.mul_mod_right 2 room) filled (isWhole left fits) sameCuts
  · exact (eq_of_cut_eq right.alternates_listing left.alternates_listing
      (Nat.mul_mod_right 2 room) filled (isWhole right fits) sameCuts.symm).symm

theorem isPrintable_dump (program : Program Span) (level room : Nat) :
    ∀ line ∈ (program.outline.dump level room).lines,
      line.toList.all Text.isPrintable = true := by
  have listed : ∀ (listing : Listing) level, listing.isClear = true →
      ∀ line ∈ listing.lines level, line.toList.all Text.isPrintable = true := by
    intro listing level clear
    induction listing generalizing level with
    | nothing => exact nofun
    | line text below behind ihBelow ihBehind =>
      simp only [isClear, Bool.and_eq_true, isFlush] at clear
      simp only [Listing.lines, List.forall_mem_cons, List.forall_mem_append, toList_line]
      refine ⟨?_, ihBelow _ clear.1.2, ihBehind _ clear.2⟩
      simp [clear.1.1.2, show Text.isPrintable ' ' = true by decide]
  rw [dump_outline]
  exact listed _ level (isClear_cut program.isClear_listing)

end Program

end Parlance
