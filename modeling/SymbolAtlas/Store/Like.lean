/-
  SymbolAtlas.Store.Like: search patterns with wildcards.

  A percent sign stands for any run of characters, an underscore for one character. ASCII letters
  match in both cases, all other characters exactly, except that U+FFFE and U+FFFF count as the
  replacement character. A null character ends a text or a pattern.
-/

import SymbolAtlas.Text.Parts

namespace SymbolAtlas.Like

/-- Whether a test holds for some end of a list. -/
def someEnd {α : Type} (test : List α → Bool) : List α → Bool
  | [] => test []
  | a :: r => test (a :: r) || someEnd test r

/-- A character as it is compared: a code point that is no character is read as the replacement
character. -/
def compared (c : Char) : Char := if c = '\uFFFE' || c = '\uFFFF' then '\uFFFD' else c

/-- Whether two characters match. -/
def sameChar (a b : Char) : Bool := compared a.toLower == compared b.toLower

/-- Whether a text fits a pattern. -/
def fits : List Char → List Char → Bool
  | [], t => t.isEmpty
  | '%' :: '%' :: p, t => fits ('%' :: p) t
  | '%' :: p, t => someEnd (fun u => fits p u) t
  | '_' :: p, t => match t with
    | [] => false
    | _ :: u => fits p u
  | c :: p, t => match t with
    | [] => false
    | d :: u => sameChar c d && fits p u

/-- The characters before the first null character. -/
def upToNull : List Char → List Char
  | [] => []
  | c :: r => if c = '\x00' then [] else c :: upToNull r

/-- The pattern for texts that contain `s`. -/
def containing (s : String) : String := "%" ++ s ++ "%"

/-- The longest pattern, in bytes. -/
def maxBytes : Nat := 50000

end SymbolAtlas.Like
