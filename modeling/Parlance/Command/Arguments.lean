import Parlance.Text.Blank
import Parlance.Text.Digit

/-!
Contract: the arguments of a command as options and operands.

Long options begin with two dashes and may carry a value behind an equals sign; short ones are
single letters behind one dash, several of which may share it. An option with a value takes it from
the rest of its own argument or from the next one. Two dashes alone end the options. Owns: the
taking apart of arguments under a list of known options, and whole numbers among them.
-/

namespace Parlance.Arguments

structure Known where
  long : String
  short : Option Char
  valued : Bool
deriving DecidableEq, Repr

/-- An option that was given, by its long name, with its value if it takes one. -/
structure Given where
  long : String
  value : String
deriving DecidableEq, Repr

/-- The options that were given, in order, and the other arguments. -/
structure Parsed where
  given : List Given
  operands : List String
deriving DecidableEq, Repr

/-- What one argument holds: options, of which the last may still need a value. -/
structure Cluster where
  given : List Given
  pending : Option String
deriving DecidableEq, Repr

def splitValue (text : List Char) : List Char × Option (List Char) :=
  match text.dropWhile (· != '=') with
  | [] => (text, none)
  | _ :: value => (text.takeWhile (· != '='), some value)

def long? (known : List Known) (text : List Char) : Option Cluster :=
  let (name, value) := splitValue text
  match known.find? (·.long.toList == name), value with
  | some ⟨long, _, true⟩, some value => some ⟨[⟨long, String.ofList value⟩], none⟩
  | some ⟨long, _, true⟩, none => some ⟨[], some long⟩
  | some ⟨long, _, false⟩, none => some ⟨[⟨long, ""⟩], none⟩
  | _, _ => none

def short? (known : List Known) : List Char → Option Cluster
  | [] => some ⟨[], none⟩
  | letter :: rest =>
    match known.find? (·.short == some letter) with
    | none => none
    | some ⟨long, _, false⟩ =>
      (short? known rest).map fun cluster => ⟨⟨long, ""⟩ :: cluster.given, cluster.pending⟩
    | some ⟨long, _, true⟩ =>
      match rest with
      | [] => some ⟨[], some long⟩
      | value => some ⟨[⟨long, String.ofList value⟩], none⟩

def cluster? (known : List Known) (argument : String) : Option Cluster :=
  match argument.toList with
  | '-' :: '-' :: _ => long? known argument.toList
  | _ :: letters => short? known letters
  | [] => none

def isOption (argument : String) : Bool :=
  match argument.toList with
  | '-' :: _ :: _ => true
  | _ => false

/-- Takes arguments apart. Where operands and options do not mix, the first operand ends the
options. -/
def parse (known : List Known) (mixed : Bool) : List String → Option Parsed
  | [] => some ⟨[], []⟩
  | argument :: rest =>
    if argument == "--" then some ⟨[], rest⟩
    else if isOption argument then
      match cluster? known argument, rest with
      | some ⟨given, none⟩, rest =>
        (parse known mixed rest).map fun parsed => ⟨given ++ parsed.given, parsed.operands⟩
      | some ⟨given, some long⟩, value :: rest =>
        (parse known mixed rest).map fun parsed =>
          ⟨given ++ ⟨long, value⟩ :: parsed.given, parsed.operands⟩
      | _, _ => none
    else if mixed then
      (parse known mixed rest).map fun parsed => ⟨parsed.given, argument :: parsed.operands⟩
    else some ⟨[], argument :: rest⟩

def Parsed.has (parsed : Parsed) (long : String) : Bool :=
  parsed.given.any (·.long == long)

def Parsed.value? (parsed : Parsed) (long : String) : Option String :=
  (parsed.given.reverse.find? (·.long == long)).map (·.value)

/-- The values of digits, of whatever script, in which single underscores may stand between two. -/
def digitValues? : List Char → Option (List Nat)
  | [] => some []
  | '_' :: rest =>
    match rest with
    | c :: _ => if (Text.digitValue? c).isSome then digitValues? rest else none
    | [] => none
  | c :: rest => do
      let value ← Text.digitValue? c
      let values ← digitValues? rest
      return value :: values

def natural? (digits : List Char) : Option Nat := do
  let first ← digits.head?
  let _ ← Text.digitValue? first
  let values ← digitValues? digits
  if values.length ≤ Text.digitLimit then
    return values.foldl (fun number value => 10 * number + value) 0
  else none

/-- The blanks that may stand around a number. The controls that divide records are none. -/
def isMargin (c : Char) : Bool :=
  Text.isBlank c && !('\x1c' ≤ c && c ≤ '\x1f')

def whole? (text : String) : Option Int :=
  let trimmed := ((text.toList.dropWhile isMargin).reverse.dropWhile isMargin).reverse
  match trimmed with
  | '-' :: digits => (natural? digits).map fun value => -(value : Int)
  | '+' :: digits => (natural? digits).map fun value => (value : Int)
  | digits => (natural? digits).map fun value => (value : Int)

end Parlance.Arguments
