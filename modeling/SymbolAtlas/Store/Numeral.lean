/-
  SymbolAtlas.Store.Numeral: numbers in text columns, and texts in number columns.

  Both directions go through numbers with 64 significant bits. A double is scaled to one digit
  before the point, half a unit of the fifteenth digit is added, and fifteen digits are cut off. A
  numeral keeps as many digits as fit in 63 bits, and is scaled by a power of ten. So neither is
  always the nearest choice, and a half may go either way.
-/

import SymbolAtlas.Decimal.Layout
import SymbolAtlas.Decimal.Basic
import SymbolAtlas.Decimal.Wide

namespace SymbolAtlas.Numeral

/-! ## Writing -/

/-- Multiplies a scale by `unit`, and adds `step` to its exponent, as long as `x` reaches it. -/
def raise (x unit : Wide) (step : Nat) : (fuel : Nat) → Wide × Int → Wide × Int
  | 0, s => s
  | fuel + 1, (scale, e) =>
    if (unit * scale).le x then raise x unit step fuel (unit * scale, e + step) else (scale, e)

/-- Multiplies a number by `unit`, and takes `step` from its exponent, until it reaches `bound`. -/
def lift (bound unit : Wide) (step : Nat) : (fuel : Nat) → Wide × Int → Wide × Int
  | 0, x => x
  | fuel + 1, (x, e) =>
    if bound.le x then (x, e) else lift bound unit step fuel (x * unit, e - step)

/-- A positive number with one digit before the point, and the exponent of that digit. -/
def normalize (x : Wide) : Wide × Int :=
  let s := raise x (.double 1 100) 100 4 (.ofNat 1, 0)
  let s := raise x (.double 1 10) 10 11 s
  let (scale, e) := raise x (.ofNat 10) 1 11 s
  let y := lift (.double 1 (-8)) (.double 1 8) 8 45 (x / scale, e)
  lift (.ofNat 1) (.ofNat 10) 1 10 y

/-- Half a unit of the fifteenth digit. -/
def halfUnit : Wide := Wide.product 53 (.double 5 (-5)) (.double 1 (-10))

/-- The first `n` digits of a number with one digit before the point. -/
def digits : (n : Nat) → Wide → List Nat
  | 0, _ => []
  | n + 1, x => let (d, rest) := x.split; d :: digits n (rest * .ofNat 10)

/-- A positive double with fifteen digits. -/
def fifteenDigits (b : Binary) : Decimal :=
  let (x, e) := normalize (.ofBinary b)
  let y := x + halfUnit
  let (y, e) := if (Wide.ofNat 10).le y then (y * .double 1 (-1), e + 1) else (y, e)
  Decimal.reduce 15 ⟨Decimal.ofDigits (digits 15 y), e - 14⟩

/-- The text of a double: fifteen significant digits, no sign on a zero. -/
def write (x : Float) : String :=
  if x == 0.0 then "0.0" else Decimal.layOut .column fifteenDigits x

/-! ## Reading -/

/-- As soon as the digits read so far reach this number, no further digit fits in 63 bits. -/
def full : Nat := (Nat.pow 2 63 - 10) / 10

/-- Reads digits before the point after `m`; also, how many are left out at the end. -/
def readWhole (m : Nat) : List Nat → Nat × Nat
  | [] => (m, 0)
  | d :: ds => if full ≤ 10 * m + d then (10 * m + d, ds.length) else readWhole (10 * m + d) ds

/-- Reads digits after the point after `m`; also, how many are not left out. -/
def readFraction (m : Nat) (ds : List Nat) : Nat × Nat :=
  ds.foldl (fun (m, n) d => if m < full then (10 * m + d, n + 1) else (m, n)) (m, 0)

/-- An exponent; one of more than four digits need not be exact. -/
def readExponent (ds : List Nat) : Nat :=
  ds.foldl (fun e d => if e < 10000 then 10 * e + d else 10000) 0

/-- Moves powers of ten from the exponent to the number, as long as it fits in 63 bits. -/
def absorb : (fuel m e : Nat) → Nat × Nat
  | 0, m, e => (m, e)
  | fuel + 1, m, e =>
    if e = 0 || (Nat.pow 2 63 - 1) / 10 ≤ m then (m, e) else absorb fuel (10 * m) (e - 1)

/-- Moves trailing zeros of a number to its negative exponent. -/
def cancel : (fuel m e : Nat) → Nat × Nat
  | 0, m, e => (m, e)
  | fuel + 1, m, e => if e = 0 || m % 10 ≠ 0 then (m, e) else cancel fuel (m / 10) (e - 1)

/-- `m * 10 ^ e`, where `m` fits in 63 bits. Beyond 10 ^ 308 the scaling takes two steps, the second
one on doubles. -/
def scaleUp (m e : Nat) : Float :=
  if e = 0 then nearestDouble m 1
  else if e < 308 then (Wide.ofNat m * .tenTo e).toFloat
  else if e < 342 then
    let x := (Wide.ofNat m * .tenTo (e - 308)).toDouble
    x.timesToFloat (.double 1 308)
  else 1.0 / 0.0

/-- `m / 10 ^ e`, where `m` fits in 63 bits. -/
def scaleDown (m e : Nat) : Float :=
  if e = 0 then nearestDouble m 1
  else if e < 308 then (Wide.ofNat m / .tenTo e).toFloat
  else if e < 342 then
    let x := (Wide.ofNat m / .tenTo (e - 308)).toDouble
    x.overToFloat (.double 1 308)
  else 0.0

/-- The double that a numeral without a sign stands for, given the digits before and after the point
and the exponent. -/
def read (whole fraction : List Nat) (exponent : Int) : Float :=
  let (m, left) := readWhole 0 whole
  let (m, kept) := readFraction m fraction
  let e := exponent + left - kept
  if m = 0 then 0.0
  else if 0 ≤ e then let (m, e) := absorb 20 m e.toNat; scaleUp m e
  else let (m, e) := cancel 20 m (-e).toNat; scaleDown m e

end SymbolAtlas.Numeral
