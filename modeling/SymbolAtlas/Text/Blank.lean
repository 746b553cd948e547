/-
  SymbolAtlas.Text.Blank: blank characters, texts without blanks at their ends, and the words of a
  text.

  The set of blanks is the one of Unicode white space with the four separators U+001C to U+001F; a
  zero-width space is not blank.
-/

import SymbolAtlas.Text.Ranges

namespace SymbolAtlas.Text

/-- Blanks beyond ASCII. -/
def blankRanges : Ranges :=
  [(0x85, 0x85), (0xa0, 0xa0), (0x1680, 0x1680), (0x2000, 0x200a), (0x2028, 0x2029),
   (0x202f, 0x202f), (0x205f, 0x205f), (0x3000, 0x3000)]

/-- Whether a character is blank. -/
def isBlank (c : Char) : Bool :=
  c == ' ' || (9 ≤ c.toNat && c.toNat ≤ 13) || (28 ≤ c.toNat && c.toNat ≤ 31) ||
    (128 ≤ c.toNat && blankRanges.contains c.toNat)

/-! ## Ends -/

/-- Drops leading blanks. -/
def trimLeft (cs : List Char) : List Char := cs.dropWhile isBlank

/-- Drops trailing blanks. -/
def trimRight (cs : List Char) : List Char := (cs.reverse.dropWhile isBlank).reverse

/-- Drops the blanks at both ends. -/
def trim (cs : List Char) : List Char := trimRight (trimLeft cs)

/-- The text without the blanks at its ends. -/
def strip (s : String) : String := String.ofList (trim s.toList)

/-! ## Words -/

/-- Reads a text from the right: the word that touches its start (possibly empty) and the later
words. -/
def splitWords : List Char → List Char × List (List Char)
  | [] => ([], [])
  | c :: r =>
    let (w, ws) := splitWords r
    if isBlank c then ([], if w.isEmpty then ws else w :: ws) else (c :: w, ws)

/-- The maximal runs of non-blank characters, in order. -/
def wordLists (cs : List Char) : List (List Char) :=
  let (w, ws) := splitWords cs
  if w.isEmpty then ws else w :: ws

/-- The words of a text. -/
def words (s : String) : List String := (wordLists s.toList).map String.ofList

/-- The first word of a text. -/
def firstWord? (s : String) : Option String := (words s).head?

end SymbolAtlas.Text
