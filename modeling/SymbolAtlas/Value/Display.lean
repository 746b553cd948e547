/-
  SymbolAtlas.Value.Display: values as they appear in messages and printed summaries.

  Texts inside a value stand in quotes: single ones, or double ones when the text holds a single
  quote and no double one. A text on its own is shown as it is.
-/

import SymbolAtlas.Value.Basic
import SymbolAtlas.Decimal.Layout
import SymbolAtlas.Text.Printable

namespace SymbolAtlas.Display

/-- `n` in hexadecimal, filled up with zeros to `width` digits. -/
def hex (width n : Nat) : List Char :=
  let digits := Nat.toDigits 16 n
  List.replicate (width - digits.length) '0' ++ digits

/-- A character between the quotes `q`. -/
def escapeChar (q c : Char) : List Char :=
  if c = q || c = '\\' then ['\\', c]
  else if c = '\n' then ['\\', 'n']
  else if c = '\r' then ['\\', 'r']
  else if c = '\t' then ['\\', 't']
  else if Text.isPrintable c then [c]
  else
    let n := c.toNat
    if n < 0x100 then '\\' :: 'x' :: hex 2 n
    else if n < 0x10000 then '\\' :: 'u' :: hex 4 n
    else '\\' :: 'U' :: hex 8 n

/-- A text in quotes. -/
def quote (s : String) : String :=
  let cs := s.toList
  let q := if cs.contains '\x27' && !cs.contains '"' then '"' else '\x27'
  String.ofList (q :: (cs.flatMap (escapeChar q) ++ [q]))

mutual

/-- A value inside another one or a record. -/
def inner : Value → String
  | .null => "None"
  | .bool b => if b then "True" else "False"
  | .int n => toString n
  | .float x => Decimal.exactText x
  | .text s => quote s
  | .list vs => "[" ++ innerItems vs ++ "]"
  | .object fs => "\x7b" ++ innerFields fs ++ "\x7d"

/-- The items of a list. -/
def innerItems : List Value → String
  | [] => ""
  | [v] => inner v
  | v :: vs => inner v ++ ", " ++ innerItems vs

/-- The fields of an object. -/
def innerFields : List (String × Value) → String
  | [] => ""
  | [(k, v)] => quote k ++ ": " ++ inner v
  | (k, v) :: fs => quote k ++ ": " ++ inner v ++ ", " ++ innerFields fs

end

/-- A value on its own. -/
def plain : Value → String
  | .text s => s
  | v => inner v

/-- The name of the type of a value. -/
def typeName : Value → String
  | .null => "NoneType"
  | .bool _ => "bool"
  | .int _ => "int"
  | .float _ => "float"
  | .text _ => "str"
  | .list _ => "list"
  | .object _ => "dict"

end SymbolAtlas.Display
