/-
  SymbolAtlas.Value.Json: values as JSON text.

  One line, `", "` and `": "` as separators, and nothing but printable ASCII: every other character
  is an escape, beyond the basic plane a surrogate pair.
-/

import SymbolAtlas.Value.Basic
import SymbolAtlas.Decimal.Layout

namespace SymbolAtlas.Json

/-- Four hexadecimal digits. -/
def hex4 (n : Nat) : List Char :=
  let digits := Nat.toDigits 16 n
  List.replicate (4 - digits.length) '0' ++ digits

/-- A code unit as an escape. -/
def unitEscape (n : Nat) : List Char := '\\' :: 'u' :: hex4 n

/-- A character inside quotes. -/
def escapeChar (c : Char) : List Char :=
  match c with
  | '"' => ['\\', '"']
  | '\\' => ['\\', '\\']
  | '\n' => ['\\', 'n']
  | '\r' => ['\\', 'r']
  | '\t' => ['\\', 't']
  | '\x08' => ['\\', 'b']
  | '\x0c' => ['\\', 'f']
  | c =>
    let n := c.toNat
    if 32 ≤ n && n ≤ 126 then [c]
    else if n < 0x10000 then unitEscape n
    else
      let m := n - 0x10000
      unitEscape (0xd800 + m / 1024) ++ unitEscape (0xdc00 + m % 1024)

/-- A text in quotes. -/
def quote (s : String) : String :=
  String.ofList ('"' :: (s.toList.flatMap escapeChar ++ ['"']))

/-- A double; infinities and NaN have names of their own. -/
def number (x : Float) : String :=
  match Binary.ofFloat? x with
  | some _ => Decimal.exactText x
  | none =>
    if x.toBits.toNat % Nat.pow 2 52 ≠ 0 then "NaN" else if x < 0 then "-Infinity" else "Infinity"

mutual

/-- The JSON text of a value. -/
def write : Value → String
  | .null => "null"
  | .bool b => if b then "true" else "false"
  | .int n => toString n
  | .float x => number x
  | .text s => quote s
  | .list vs => "[" ++ writeItems vs ++ "]"
  | .object fs => "\x7b" ++ writeFields fs ++ "\x7d"

/-- The items of a list. -/
def writeItems : List Value → String
  | [] => ""
  | [v] => write v
  | v :: vs => write v ++ ", " ++ writeItems vs

/-- The fields of an object. -/
def writeFields : List (String × Value) → String
  | [] => ""
  | [(k, v)] => quote k ++ ": " ++ write v
  | (k, v) :: fs => quote k ++ ": " ++ write v ++ ", " ++ writeFields fs

end

end SymbolAtlas.Json
