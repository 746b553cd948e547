/-
  SymbolAtlas.Store.Cell: what a column holds.

  A column of texts turns numbers into texts; a column of numbers turns texts that write a number
  into that number, and keeps all other texts. Null is the absence of a cell.
-/

import SymbolAtlas.Store.Numeral
import SymbolAtlas.Value.Basic

namespace SymbolAtlas

/-- A cell that is not null. -/
inductive Cell where
  | int (n : Int)
  | real (x : Float)
  | text (s : String)
  deriving DecidableEq, Repr, Inhabited

namespace Cell

/-- A cell as a value. -/
def toValue : Cell → Value
  | .int n => .int n
  | .real x => .float x
  | .text s => .text s

/-- Whether a number fits in 64 bits. -/
def fits (n : Int) : Bool := -Int.pow 2 63 ≤ n && n < Int.pow 2 63

/-! ## Columns of texts -/

/-- A cell in a column of texts. -/
def asText : Cell → String
  | .int n => toString n
  | .real x => Numeral.write x
  | .text s => s

/-! ## Columns of numbers -/

/-- A double that is a whole number well inside 64 bits is that number. -/
def ofReal (x : Float) : Cell :=
  match Binary.ofFloat? x with
  | some (negative, b) =>
    let (num, den) := b.fraction
    let n : Int := if negative then -(num / den : Nat) else (num / den : Nat)
    if num % den = 0 && -Int.pow 2 63 < n && n < Int.pow 2 63 - 1 then .int n else .real x
  | none => .real x

/-- The blanks that may stand around a number. -/
def isPadding (c : Char) : Bool :=
  c = ' ' || c = '\t' || c = '\n' || c = '\x0b' || c = '\x0c' || c = '\r'

/-- The value of an ASCII digit. -/
def digit (c : Char) : Nat := c.toNat - '0'.toNat

/-- The exponent after its mark. -/
def exponent? : List Char → Option Int
  | [] => some 0
  | c :: r =>
    if c = 'e' || c = 'E' then
      let (negative, ds) := match r with
        | '-' :: ds => (true, ds)
        | '+' :: ds => (false, ds)
        | ds => (false, ds)
      if ds.isEmpty || !ds.all Char.isDigit then none
      else
        let n : Int := Numeral.readExponent (ds.map digit)
        some (if negative then -n else n)
    else none

/-- The number that a text writes: digits, with a point and an exponent if need be. A whole number
that does not fit in 64 bits is a double. -/
def numeral? (negative : Bool) (cs : List Char) : Option Cell := do
  let whole := cs.takeWhile Char.isDigit
  let rest := cs.dropWhile Char.isDigit
  let (fraction, tail) := match rest with
    | '.' :: r => (r.takeWhile Char.isDigit, r.dropWhile Char.isDigit)
    | r => ([], r)
  if whole.isEmpty && fraction.isEmpty then none
  let e ← exponent? tail
  let n : Int := Decimal.ofDigits (whole.map digit)
  let signed := if negative then -n else n
  if rest.isEmpty && fits signed then return .int signed
  let x := Numeral.read (whole.map digit) (fraction.map digit) e
  return ofReal (if negative then -x else x)

/-- The number that a text with blanks around it writes. -/
def ofNumeral? (s : String) : Option Cell :=
  let inner := s.toList.dropWhile isPadding
  match (inner.reverse.dropWhile isPadding).reverse with
  | '-' :: cs => numeral? true cs
  | '+' :: cs => numeral? false cs
  | cs => numeral? false cs

/-- A cell in a column of numbers. -/
def asNumber : Cell → Cell
  | .int n => .int n
  | .real x => ofReal x
  | .text s => (ofNumeral? s).getD (.text s)

/-! ## Order -/

/-- The exact value of a number as numerator and denominator; infinities count as very large. -/
def exactValue (x : Float) : Int × Nat :=
  match Binary.ofFloat? x with
  | some (negative, b) =>
    let (num, den) := b.fraction
    (if negative then -num else num, den)
  | none => (if x < 0 then -Int.pow 10 400 else Int.pow 10 400, 1)

/-- Numbers before texts, numbers by size, texts by their characters. -/
def le : Cell → Cell → Bool
  | .int a, .int b => a ≤ b
  | .int a, .real y => let (n, d) := exactValue y; a * d ≤ n
  | .real x, .int b => let (n, d) := exactValue x; n ≤ b * d
  | .real x, .real y => let (n, d) := exactValue x; let (m, e) := exactValue y; n * e ≤ m * d
  | .text s, .text t => s ≤ t
  | .text _, _ => false
  | _, .text _ => true

/-- Lists of cells by their first difference. -/
def lexLe : List Cell → List Cell → Bool
  | [], _ => true
  | _ :: _, [] => false
  | a :: as, b :: bs => if a = b then lexLe as bs else le a b

end Cell

/-- Sorts by keys; what has equal keys keeps its order. -/
def sortByKey {α : Type} (key : α → List Cell) (xs : List α) : List α :=
  xs.mergeSort fun a b => Cell.lexLe (key a) (key b)

end SymbolAtlas
