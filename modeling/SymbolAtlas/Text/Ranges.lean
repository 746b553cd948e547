/-
  SymbolAtlas.Text.Ranges: sets of characters given as closed ranges of code points.

  The tables of the neighbouring modules list only what lies beyond ASCII, so that the common case
  never walks a table.
-/

namespace SymbolAtlas.Text

/-- A set of code points as a list of closed ranges. -/
abbrev Ranges := List (Nat × Nat)

/-- Whether the code point `n` lies in one of the ranges. -/
def Ranges.contains (rs : Ranges) (n : Nat) : Bool :=
  rs.any fun r => r.1 ≤ n && n ≤ r.2

/-- The first code point of the range that holds `n`. -/
def Ranges.lowerEnd? (rs : Ranges) (n : Nat) : Option Nat :=
  (rs.find? fun r => r.1 ≤ n && n ≤ r.2).map (·.1)

end SymbolAtlas.Text
