import Parlance.Span

/-!
Contract: stretches of text as editors count them.

Lines and characters count from zero, and the end lies behind the last character. Owns: the region
of a span and which numbers an editor takes. Embeds `span_to_range`.
-/

namespace Parlance

structure Region where
  startLine : Int
  startCharacter : Int
  endLine : Int
  endCharacter : Int
deriving DecidableEq, Repr

namespace Region

def admits (n : Int) : Bool :=
  decide (0 ≤ n) && decide (n ≤ 2147483647)

/-- Whether an editor takes all numbers of a region. -/
def isAdmitted (region : Region) : Bool :=
  admits region.startLine && admits region.startCharacter && admits region.endLine &&
    admits region.endCharacter

def start : Region := ⟨0, 0, 0, 0⟩

end Region

def Span.region (span : Span) : Region :=
  ⟨span.startLine - 1, span.startColumn - 1, span.endLine - 1, span.endColumn⟩

end Parlance
