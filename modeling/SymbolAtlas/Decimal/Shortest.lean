/-
  SymbolAtlas.Decimal.Shortest: the fewest digits that read back as the same double.

  All reals between the midpoints to the two neighbours read back as the double; the midpoints
  themselves do when the mantissa is even. On the grid of n-digit decimals only the two neighbours
  of the value can be the nearest grid point of that interval, so they are the only candidates.
-/

import SymbolAtlas.Decimal.Basic

namespace SymbolAtlas

namespace Binary

/-- The midpoint to the next smaller double, in quarters of the last place. -/
def lowerQuarters (b : Binary) : Nat := 4 * b.mantissa - (if b.narrowBelow then 1 else 2)

/-- The midpoint to the next larger double, in quarters of the last place. -/
def upperQuarters (b : Binary) : Nat := 4 * b.mantissa + 2

/-- Whether `coefficient * 10 ^ exponent` reads back as the double. -/
def readsBack (b : Binary) (d : Decimal) : Bool :=
  let (num, den) := if 0 ≤ d.exponent then (d.coefficient * Nat.pow 10 d.exponent.toNat, 1)
    else (d.coefficient, Nat.pow 10 (-d.exponent).toNat)
  let (lo, unit) := scaled b.lowerQuarters (b.exponent - 2)
  let (hi, _) := scaled b.upperQuarters (b.exponent - 2)
  let x := num * unit
  if b.mantissa % 2 = 0 then lo * den ≤ x && x ≤ hi * den else lo * den < x && x < hi * den

/-- The better of the two `n`-digit neighbours of the value that read back, if any does. -/
def candidate? (b : Binary) (n : Nat) : Option Decimal :=
  let (num, den) := b.fraction
  let k := Decimal.leadingExponent num den - (n : Int) + 1
  let (p, q) := Decimal.shifted num den k
  let d := p / q
  let below : Decimal := ⟨d, k⟩
  let above : Decimal := ⟨d + 1, k⟩
  let rest := 2 * (p % q)
  match b.readsBack below, b.readsBack above with
  | true, true =>
    if rest < q then some below
    else if q < rest then some above
    else if d % 2 = 0 then some below else some above
  | true, false => some below
  | false, true => some above
  | false, false => none

/-- The decimal with the fewest digits that reads back as the double. Seventeen digits always do. -/
def shortest (b : Binary) : Decimal :=
  if b.mantissa = 0 then ⟨0, 0⟩
  else Decimal.reduce 20 (((List.range' 1 17).findSome? b.candidate?).getD ⟨0, 0⟩)

end Binary

end SymbolAtlas
