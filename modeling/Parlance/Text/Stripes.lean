/-!
Contract: sets of code points written as stripes.

From zero on, the code points are cut into stripes that are left out of the set and in it by turns,
the first being left out. Owns: membership. Does not own: any particular set; each character class
keeps its own table.
-/

namespace Parlance.Text

abbrev Stripes := List Nat

def Stripes.contains : Stripes → Nat → Bool
  | skipped :: taken :: rest, n =>
    if n < skipped then false
    else if n < skipped + taken then true
    else Stripes.contains rest (n - (skipped + taken))
  | _, _ => false

end Parlance.Text
