/-
  SymbolAtlas.Decimal.Wide: arithmetic on numbers with 64 significant bits.

  Each operation gives the exact result rounded to 64 bits, a half to the even neighbour. The
  exponent is not bounded.
-/

import SymbolAtlas.Decimal.Basic

namespace SymbolAtlas

/-- The number `significand * 2 ^ exponent`. -/
structure Wide where
  significand : Nat
  exponent : Int
  deriving DecidableEq, Repr

namespace Wide

/-- The value as numerator and denominator. -/
def fraction (x : Wide) : Nat × Nat := Binary.scaled x.significand x.exponent

/-- `num / den` rounded to `bits` significant bits. -/
def round (bits num den : Nat) : Wide :=
  if num = 0 then ⟨0, 0⟩
  else
    let e := bitExponent bits num den
    let (p, q) := shiftedDown num den e
    ⟨roundHalfEven p q, e⟩

/-- A finite double. -/
def ofBinary (b : Binary) : Wide := ⟨b.mantissa, b.exponent⟩

/-- A whole number of at most 64 bits. -/
def ofNat (n : Nat) : Wide := ⟨n, 0⟩

/-- The number `m * 10 ^ e` rounded as a double. -/
def double (m : Nat) (e : Int) : Wide :=
  if 0 ≤ e then round 53 (m * Nat.pow 10 e.toNat) 1 else round 53 m (Nat.pow 10 (-e).toNat)

/-- The product rounded to `bits` significant bits. -/
def product (bits : Nat) (x y : Wide) : Wide :=
  let (a, b) := x.fraction
  let (c, d) := y.fraction
  round bits (a * c) (b * d)

instance : Mul Wide := ⟨product 64⟩

instance : Div Wide where
  div x y :=
    let (a, b) := x.fraction
    let (c, d) := y.fraction
    round 64 (a * d) (b * c)

instance : Add Wide where
  add x y :=
    let (a, b) := x.fraction
    let (c, d) := y.fraction
    round 64 (a * d + c * b) (b * d)

/-- Whether `x` is at most `y`. -/
def le (x y : Wide) : Bool :=
  let (a, b) := x.fraction
  let (c, d) := y.fraction
  a * d ≤ c * b

/-- The whole part, and what follows the point. -/
def split (x : Wide) : Nat × Wide :=
  let (a, b) := x.fraction
  (a / b, round 64 (a % b) b)

/-- The nearest double. -/
def toFloat (x : Wide) : Float :=
  let (a, b) := x.fraction
  nearestDouble a b

/-- The nearest number with the 53 bits of a double. -/
def toDouble (x : Wide) : Wide :=
  let (a, b) := x.fraction
  round 53 a b

/-- The double nearest to the exact product. -/
def timesToFloat (x y : Wide) : Float :=
  let (a, b) := x.fraction
  let (c, d) := y.fraction
  nearestDouble (a * c) (b * d)

/-- The double nearest to the exact quotient. -/
def overToFloat (x y : Wide) : Float :=
  let (a, b) := x.fraction
  let (c, d) := y.fraction
  nearestDouble (a * d) (b * c)

/-- Squares `x` for every binary digit of `n`, and multiplies `acc` with the powers for the ones. -/
def powerFrom (fuel : Nat) (x acc : Wide) (n : Nat) : Wide :=
  match fuel with
  | 0 => acc
  | fuel + 1 =>
    let acc := if n % 2 = 1 then acc * x else acc
    if n / 2 = 0 then acc else powerFrom fuel (x * x) acc (n / 2)

/-- `10 ^ n` by repeated squaring, where every product is rounded. -/
def tenTo (n : Nat) : Wide := powerFrom (n + 1) (ofNat 10) (ofNat 1) n

end Wide

end SymbolAtlas
