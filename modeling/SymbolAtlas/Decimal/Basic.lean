/-
  SymbolAtlas.Decimal.Basic: decimal numbers, the exact value of a double, and the double nearest
  to a number.

  A finite double is m * 2 ^ q with natural m. Everything below is exact arithmetic on `Nat`. In
  rounding, a half always goes to the even neighbour. `nearestDouble` counts the bits of a double
  from the smallest one on, so that a mantissa which overflows by rounding runs into the next
  exponent by itself.
-/

namespace SymbolAtlas

/-- The number `coefficient * 10 ^ exponent`. -/
structure Decimal where
  coefficient : Nat
  exponent : Int
  deriving DecidableEq, Repr

/-- A finite double without its sign: `mantissa * 2 ^ exponent`, and whether the next smaller double
is only half as far away as the next larger one. -/
structure Binary where
  mantissa : Nat
  exponent : Int
  narrowBelow : Bool
  deriving DecidableEq, Repr

namespace Binary

/-- The parts of a finite double; none for an infinity or a NaN. -/
def ofFloat? (x : Float) : Option (Bool × Binary) :=
  let bits := x.toBits.toNat
  let negative : Bool := bits / Nat.pow 2 63 = 1
  let field : Nat := bits / Nat.pow 2 52 % Nat.pow 2 11
  let fraction : Nat := bits % Nat.pow 2 52
  if field = 2047 then none
  else if field = 0 then some (negative, ⟨fraction, -1074, false⟩)
  else some (negative, ⟨fraction + Nat.pow 2 52, (field : Int) - 1075, fraction = 0 && 1 < field⟩)

/-- Numerator and denominator of `n * 2 ^ e`. -/
def scaled (n : Nat) (e : Int) : Nat × Nat :=
  if 0 ≤ e then (n * Nat.pow 2 e.toNat, 1) else (n, Nat.pow 2 (-e).toNat)

/-- The value as numerator and denominator. -/
def fraction (b : Binary) : Nat × Nat := scaled b.mantissa b.exponent

end Binary

namespace Decimal

/-- The number of decimal digits of `n`, at least one. -/
def digitCount (n : Nat) : Nat := (Nat.toDigits 10 n).length

/-- The least `k`, starting from `k` and with at most `fuel` steps, for which `num * 10 ^ k`
reaches `den`. -/
def leadingZeros (num den : Nat) : (fuel k : Nat) → Nat
  | 0, k => k
  | fuel + 1, k => if den ≤ num * Nat.pow 10 k then k else leadingZeros num den fuel (k + 1)

/-- The exponent of the leading decimal digit of a positive fraction. No double is below
10 ^ -324. -/
def leadingExponent (num den : Nat) : Int :=
  if den ≤ num then (digitCount (num / den) : Int) - 1
  else -(leadingZeros num den 400 1 : Int)

/-- Numerator and denominator of `num / den` divided by `10 ^ k`. -/
def shifted (num den : Nat) (k : Int) : Nat × Nat :=
  if 0 ≤ k then (num, den * Nat.pow 10 k.toNat) else (num * Nat.pow 10 (-k).toNat, den)

/-- Moves trailing zeros of the coefficient into the exponent. -/
def reduce : (fuel : Nat) → Decimal → Decimal
  | 0, d => d
  | fuel + 1, d =>
    if d.coefficient % 10 = 0 && d.coefficient != 0 then
      reduce fuel ⟨d.coefficient / 10, d.exponent + 1⟩
    else d

end Decimal

/-! ## Rounding -/

/-- `num / den` as the nearest whole number, a half as the even one. -/
def roundHalfEven (num den : Nat) : Nat :=
  let q := num / den
  let rest := 2 * (num % den)
  if rest < den || rest = den && q % 2 = 0 then q else q + 1

/-- Numerator and denominator of `num / den` divided by `2 ^ e`. -/
def shiftedDown (num den : Nat) (e : Int) : Nat × Nat :=
  if 0 ≤ e then (num, den * Nat.pow 2 e.toNat) else (num * Nat.pow 2 (-e).toNat, den)

/-- The exponent `e` for which `num / den` divided by `2 ^ e` has `bits` bits before the point. -/
def bitExponent (bits num den : Nat) : Int :=
  let e : Int := (num.log2 : Int) - den.log2 - bits
  let (p, q) := shiftedDown num den e
  if p / q < Nat.pow 2 bits then e else e + 1

/-- The double nearest to `num / den`. -/
def nearestDouble (num den : Nat) : Float :=
  if num = 0 then Float.ofBits 0
  else
    let e := max (bitExponent 53 num den) (-1074)
    let (p, q) := shiftedDown num den e
    let bits := (e + 1074).toNat * Nat.pow 2 52 + roundHalfEven p q
    Float.ofBits (min bits (2047 * Nat.pow 2 52)).toUInt64

namespace Decimal

/-- The number that digits write. -/
def ofDigits (ds : List Nat) : Nat := ds.foldl (fun n d => 10 * n + d) 0

/-- The double nearest to `m * 10 ^ e`. A number far out of range is an infinity or zero at once:
`m` lies between 10 ^ (log2 m / 4) and 10 ^ (log2 m / 3 + 1). -/
def nearest (m : Nat) (e : Int) : Float :=
  if m = 0 || e + m.log2 / 3 < -330 then 0.0
  else if e + m.log2 / 4 > 310 then 1.0 / 0.0
  else if 0 ≤ e then nearestDouble (m * Nat.pow 10 e.toNat) 1
  else nearestDouble m (Nat.pow 10 (-e).toNat)

end Decimal

end SymbolAtlas
