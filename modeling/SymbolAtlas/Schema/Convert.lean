/-
  SymbolAtlas.Schema.Convert: reading a value as a text, a number or a truth value.

  Numbers may be written with blanks around them, a sign, digits of any script, and single
  underscores between digits.
-/

import SymbolAtlas.Decimal.Basic
import SymbolAtlas.Schema.Basic
import SymbolAtlas.Text.Blank
import SymbolAtlas.Text.Numeral

namespace SymbolAtlas.Schema

/-! ## Digits -/

/-- Digits with single underscores between them; `last` says whether a digit went before. -/
def digits? (last : Bool) : List Char → Option (List Nat)
  | [] => if last then some [] else none
  | c :: r =>
    match Text.decimalValue? c with
    | some d => (digits? true r).map (d :: ·)
    | none => if c = '_' && last then digits? false r else none

/-- A sign and the rest. -/
def takeSign : List Char → Bool × List Char
  | '-' :: r => (true, r)
  | '+' :: r => (false, r)
  | cs => (false, cs)

/-- Whether a character may stand around a number: a blank, but none of the separators U+001C to
U+001F. -/
def isMargin (c : Char) : Bool := Text.isBlank c && !(28 ≤ c.toNat && c.toNat ≤ 31)

/-- A number without what stands around it. -/
def dropMargins (cs : List Char) : List Char :=
  ((cs.dropWhile isMargin).reverse.dropWhile isMargin).reverse

/-- The longest number that is read. -/
def maxDigits : Nat := 4300

/-- A whole number. -/
def readInt? (s : String) : Option Int := do
  let (negative, cs) := takeSign (dropMargins s.toList)
  let ds ← digits? false cs
  if ds.length > maxDigits then none
  let n : Int := Decimal.ofDigits ds
  return if negative then -n else n

/-! ## Decimal numbers -/

/-- The exponent after its mark; an empty text is no exponent. -/
def exponent? : List Char → Option Int
  | [] => some 0
  | c :: r =>
    if c = 'e' || c = 'E' then do
      let (negative, cs) := takeSign r
      let n : Int := Decimal.ofDigits (← digits? false cs)
      return if negative then -n else n
    else none

/-- Digits, or nothing. -/
def optDigits? (cs : List Char) : Option (List Nat) :=
  if cs.isEmpty then some [] else digits? false cs

/-- Digits with a point and an exponent. -/
def readUnsigned? (cs : List Char) : Option Float := do
  let isMark := fun c : Char => c = 'e' || c = 'E'
  let body := cs.takeWhile fun c => !isMark c
  let e ← exponent? (cs.dropWhile fun c => !isMark c)
  let whole ← optDigits? (body.takeWhile (· != '.'))
  let fraction ← optDigits? ((body.dropWhile (· != '.')).drop 1)
  let ds := whole ++ fraction
  if ds.isEmpty then none
  return Decimal.nearest (Decimal.ofDigits ds) (e - fraction.length)

/-- A decimal number, an infinity or NaN. -/
def readFloat? (s : String) : Option Float := do
  let (negative, cs) := takeSign (dropMargins s.toList)
  let word := String.ofList (cs.map Char.toLower)
  let x ← if word = "inf" || word = "infinity" then some (1.0 / 0.0)
    else if word = "nan" then some (0.0 / 0.0)
    else readUnsigned? cs
  return if negative then -x else x

/-! ## Values -/

/-- The whole part of a finite double. -/
def wholePart (negative : Bool) (b : Binary) : Int :=
  let (num, den) := b.fraction
  let n : Int := (num / den : Nat)
  if negative then -n else n

/-- A value as a text. -/
def toText (v : Value) : Except Cause String :=
  match v with
  | .text s => .ok s
  | .int _ | .float _ | .bool _ => .ok (Display.plain v)
  | _ => .error .notText

/-- A value as a whole number: doubles lose what follows the point. -/
def toInt : Value → Except Cause Int
  | .int n => .ok n
  | .bool b => .ok (if b then 1 else 0)
  | .text s => ((readInt? s).map .ok).getD (.error .notInt)
  | .float x =>
    match Binary.ofFloat? x with
    | some (negative, b) => .ok (wholePart negative b)
    | none =>
      if x == x then .error (.overflow "cannot convert float infinity to integer")
      else .error .notInt
  | _ => .error .notInt

/-- A value as a double. -/
def toFloat : Value → Except Cause Float
  | .float x => .ok x
  | .bool b => .ok (if b then 1.0 else 0.0)
  | .text s => ((readFloat? s).map .ok).getD (.error .notFloat)
  | .int n =>
    let x := Decimal.nearest n.natAbs 0
    if x == 1.0 / 0.0 then .error (.overflow "int too large to convert to float")
    else .ok (if n < 0 then -x else x)
  | _ => .error .notFloat

/-- A value as a truth value. -/
def toBool : Value → Except Cause Bool
  | .bool b => .ok b
  | .int 0 => .ok false
  | .int 1 => .ok true
  | .float x => if x == 0.0 then .ok false else if x == 1.0 then .ok true else .error .notBool
  | .text s =>
    let word := String.ofList (s.toList.map Char.toLower)
    if ["1", "on", "t", "true", "y", "yes"].contains word then .ok true
    else if ["0", "off", "f", "false", "n", "no"].contains word then .ok false
    else .error .notBool
  | _ => .error .notBool

end SymbolAtlas.Schema
