/-
  SymbolAtlas.Text.Parts: beginnings, infixes and pieces of texts, and the lines of a file.
-/

namespace SymbolAtlas.Text

/-- Whether `p` begins the text `s`. -/
def hasPrefix (p s : String) : Bool := p.toList.isPrefixOf s.toList

/-- Whether `p` ends the text `s`. -/
def hasSuffix (p s : String) : Bool := p.toList.isSuffixOf s.toList

/-- The text after the beginning `p`, when `p` begins it. -/
def dropPrefix? (p s : String) : Option String :=
  if hasPrefix p s then some (String.ofList (s.toList.drop p.toList.length)) else none

/-- Whether the list `p` stands somewhere in the list `s`. -/
def isInfixList (p : List Char) : List Char → Bool
  | [] => p.isEmpty
  | c :: r => p.isPrefixOf (c :: r) || isInfixList p r

/-- Whether `p` stands somewhere in the text `s`. -/
def contains (p s : String) : Bool := isInfixList p.toList s.toList

/-- The pieces between the occurrences of `sep`; there is always at least one. -/
def splitChar (sep : Char) : List Char → List (List Char)
  | [] => [[]]
  | c :: r =>
    if c = sep then [] :: splitChar sep r
    else match splitChar sep r with
      | l :: ls => (c :: l) :: ls
      | [] => [[c]]

/-- The pieces of a text between the occurrences of a character. -/
def splitAt (sep : Char) (s : String) : List String :=
  (splitChar sep s.toList).map String.ofList

/-- Removes the characters of `cs` from both ends of the text. -/
def stripChars (cs : List Char) (s : String) : String :=
  let inner := s.toList.dropWhile cs.contains
  String.ofList (inner.reverse.dropWhile cs.contains).reverse

/-- Joins texts with a separator between them. -/
def join (sep : String) : List String → String
  | [] => ""
  | [s] => s
  | s :: rest => s ++ sep ++ join sep rest

/-! ## Lines -/

/-- Every line end (carriage return, with or without a line feed after it) as one line feed. -/
def foldLineEnds : List Char → List Char
  | [] => []
  | '\r' :: '\n' :: r => '\n' :: foldLineEnds r
  | '\r' :: r => '\n' :: foldLineEnds r
  | c :: r => c :: foldLineEnds r

/-- Reads a file's bytes as text: strict UTF-8, line ends folded, a byte order mark kept. -/
def decode? (bytes : ByteArray) : Option String :=
  (String.fromUTF8? bytes).map fun s => String.ofList (foldLineEnds s.toList)

/-- The lines of a text: the pieces between its line feeds. -/
def lines (s : String) : List String := splitAt '\n' s

/-- The lines of a text, each with its line feed; the last one may have none. -/
def terminatedLists : List Char → List (List Char)
  | [] => []
  | c :: r =>
    if c = '\n' then [c] :: terminatedLists r
    else match terminatedLists r with
      | l :: ls => (c :: l) :: ls
      | [] => [[c]]

/-- The lines of a text, each with its line feed. -/
def terminatedLines (s : String) : List String := (terminatedLists s.toList).map String.ofList

end SymbolAtlas.Text
