/-
  SymbolAtlas.Pattern.Class: classes of characters, as data.
-/

import SymbolAtlas.Text.Blank
import SymbolAtlas.Text.Numeral

namespace SymbolAtlas

/-- One member of a character class. -/
inductive ClassItem where
  | char (c : Char)
  | range (lo hi : Char)
  | word
  | blank
  | digit
  deriving DecidableEq, Repr

/-- Whether a character belongs to a class member. -/
def ClassItem.holds : ClassItem → Char → Bool
  | .char d, c => c == d
  | .range lo hi, c => lo.toNat ≤ c.toNat && c.toNat ≤ hi.toNat
  | .word, c => Text.isWord c
  | .blank, c => Text.isBlank c
  | .digit, c => Text.isDecimal c

/-- A class of characters: those of some member, or those of none when `negated`. -/
structure CharClass where
  items : List ClassItem
  negated : Bool := false
  deriving DecidableEq, Repr

namespace CharClass

/-- Whether a character belongs to the class. -/
def holds (s : CharClass) (c : Char) : Bool := s.items.any (·.holds c) != s.negated

/-- Letters, numerals and the underscore. -/
def word : CharClass := ⟨[.word], false⟩

/-- Blanks. -/
def blank : CharClass := ⟨[.blank], false⟩

/-- All but blanks. -/
def nonBlank : CharClass := ⟨[.blank], true⟩

/-- Decimal digits. -/
def digit : CharClass := ⟨[.digit], false⟩

/-- Everything but a line feed. -/
def notLineFeed : CharClass := ⟨[.char '\n'], true⟩

/-- The characters of a text. -/
def among (s : String) : CharClass := ⟨s.toList.map .char, false⟩

/-- All characters but those of a text. -/
def noneOf (s : String) : CharClass := ⟨s.toList.map .char, true⟩

/-- ASCII letters and the underscore. -/
def nameHead : CharClass := ⟨[.range 'a' 'z', .range 'A' 'Z', .char '_'], false⟩

/-- ASCII letters, ASCII digits and the underscore. -/
def nameTail : CharClass :=
  ⟨[.range 'a' 'z', .range 'A' 'Z', .range '0' '9', .char '_'], false⟩

/-- ASCII letters, ASCII digits, the underscore and the point. -/
def dottedTail : CharClass :=
  ⟨[.range 'a' 'z', .range 'A' 'Z', .range '0' '9', .char '_', .char '.'], false⟩

end CharClass

end SymbolAtlas
