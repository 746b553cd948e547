/-
  SymbolAtlas.Decimal.Layout: decimals and doubles as text.

  A layout says which numbers are written with an exponent and what their digits look like. Two are
  in use: `Layout.exact` for values in messages and JSON text, `Layout.column` for a number kept in
  a text column.
-/

import SymbolAtlas.Decimal.Shortest

namespace SymbolAtlas

/-- Decisions of a number format. -/
structure Decimal.Layout where
  /-- the leading digit's exponent from which on the exponent is written -/
  exponentFrom : Int
  /-- whether the digits before an exponent always have a decimal point -/
  pointBeforeExponent : Bool
  infinity : String
  notANumber : String
  deriving Repr

namespace Decimal.Layout

/-- Positional below 10 ^ 16, `1e+16` from there on. -/
def exact : Layout := ⟨16, false, "inf", "nan"⟩

/-- Positional below 10 ^ 15, `1.0e+15` from there on. -/
def column : Layout := ⟨15, true, "Inf", ""⟩

/-- An exponent with its sign and at least two digits. -/
def exponentText (e : Int) : String :=
  let digits := toString e.natAbs
  (if e < 0 then "e-" else "e+") ++ (if digits.length < 2 then "0" ++ digits else digits)

/-- `n` zeros. -/
def zeros (n : Nat) : List Char := List.replicate n '0'

/-- A non-negative decimal without trailing zeros in its coefficient, as text with a point or an
exponent. -/
def text (l : Layout) (d : Decimal) : String :=
  let digits := Nat.toDigits 10 d.coefficient
  let lead := d.exponent + (digits.length : Int) - 1
  if d.coefficient = 0 then "0.0"
  else if lead < -4 || l.exponentFrom ≤ lead then
    let mantissa := match digits with
      | [c] => if l.pointBeforeExponent then [c, '.', '0'] else [c]
      | c :: r => c :: '.' :: r
      | [] => []
    String.ofList mantissa ++ exponentText lead
  else if 0 ≤ d.exponent then String.ofList (digits ++ zeros d.exponent.toNat ++ ['.', '0'])
  else if 0 ≤ lead then
    let n := (lead + 1).toNat
    String.ofList (digits.take n ++ '.' :: digits.drop n)
  else String.ofList ('0' :: '.' :: zeros (-lead - 1).toNat ++ digits)

end Decimal.Layout

namespace Decimal

/-- A double with the digits that `round` chooses. -/
def layOut (l : Layout) (round : Binary → Decimal) (x : Float) : String :=
  match Binary.ofFloat? x with
  | some (negative, b) => (if negative then "-" else "") ++ l.text (round b)
  | none =>
    if x.toBits.toNat % Nat.pow 2 52 ≠ 0 then l.notANumber
    else (if x < 0 then "-" else "") ++ l.infinity

/-- The text of a double with the fewest digits that read back. -/
def exactText (x : Float) : String := layOut .exact Binary.shortest x

end Decimal

end SymbolAtlas
