/-
  SymbolAtlas.Dialect.DataFormat: keys and values in JSON, YAML and TOML text.
-/

import SymbolAtlas.Dialect.Rule

namespace SymbolAtlas

/-- A hash of texts. It may be another one each time that the program is started, but the empty text
always has zero. -/
structure TextHash where
  of : String → Int
  of_empty : of "" = 0

/-- The hash that is zero for every text. -/
def TextHash.zero : TextHash := ⟨fun _ => 0, rfl⟩

/-! ## JSON -/

namespace JsonText

open Pattern

/-- `"key"` and a colon, the key as part 1. -/
def key : Pattern := lit "\"" ++ capture 1 (plus (.noneOf "\"")) ++ lit "\"" ++ blanks ++ lit ":"

/-- A colon and blanks. -/
def colon : Pattern := lit ":" ++ blanks

/-- A text in quotes, remembered as part `n`. -/
def quotedText (n : Nat) : Pattern := lit "\"" ++ capture n (chars (.noneOf "\"")) ++ lit "\""

/-- A number, remembered as part `n`. -/
def numeral (n : Nat) : Pattern :=
  capture n (opt (lit "-") ++ plus .digit ++ opt (lit "." ++ plus .digit) ++
    opt (one (.among "eE") ++ opt (one (.among "+-")) ++ plus .digit))

/-- A truth value, remembered as part `n`. -/
def truth (n : Nat) : Pattern := capture n (anyOf ["true", "false"])

/-- A symbol named after its line when the stripped line opens a bracket. -/
def opening (kind bracket : String) (src : Source) (n : Nat) (line : String) : List Symbol :=
  let code := Text.strip line
  if Text.hasPrefix bracket code then [src.symbolOn n (kind ++ "_" ++ toString n) kind code] else []

/-- One symbol for every match; its text is the part 1 between `before` and `after`. -/
def parts (kind : String) (p : Pattern) (before after : String) (src : Source) (n : Nat)
    (line : String) : List Symbol :=
  (p.scanGroup 1 line).map fun s => src.symbolOn n s kind (before ++ s ++ after)

/-- One symbol for a line with a null value. -/
def nulls (src : Source) (n : Nat) (line : String) : List Symbol :=
  ((colon ++ lit "null").search? line).toList.map fun _ => src.symbolOn n "null" "null_value" "null"

/-- Objects, arrays, keys and the four sorts of values, in this order. -/
def findSymbols (src : Source) (lines : List String) : List Finding :=
  ([opening "object" "\x7b", opening "array" "[", parts "key" key "\"" "\":",
    parts "string_value" (colon ++ quotedText 1) "\"" "\"",
    parts "numeric_value" (colon ++ numeral 1) "" "",
    parts "boolean_value" (colon ++ truth 1) "" "", nulls].flatMap fun read =>
      scanLines (read src) lines).map .symbol

/-- The relations of a key to its value, for every match of the two. -/
def pairs (value : Pattern) (kind targetKind : String) (target : Nat → Match → String) (n : Nat)
    (line : String) : List (String × Relation) :=
  ((key ++ blanks ++ value).scan line).map fun m =>
    (m.group 1, .link kind (target n m) targetKind n)

/-- Part 2 of a match. -/
def part2 (_ : Nat) (m : Match) : String := m.group 2

/-- Keys with their texts, numbers, truth values, nulls, objects and arrays, in this order. -/
def findRelations (lines : List String) : Relations :=
  { entries :=
      [pairs (quotedText 2) "has_value" "string" part2,
       pairs (numeral 2) "has_value" "number" part2,
       pairs (truth 2) "has_value" "boolean" part2,
       pairs (lit "null") "has_value" "null" (fun _ _ => "null"),
       pairs (lit "\x7b") "contains_object" "object" (fun n _ => "nested_object_" ++ toString n),
       pairs (lit "[") "contains_array" "array"
         (fun n _ => "nested_array_" ++ toString n)].flatMap fun read =>
        scanLines read lines }

/-- A text without one pair of quotes around it. -/
def unquoted (text : String) : String :=
  if Text.hasPrefix "\"" text && Text.hasSuffix "\"" text then
    String.ofList (text.toList.drop 1).dropLast
  else text

/-- The name of a captured part: its text without quotes; objects and arrays are numbered by a
hash. -/
def definitionName (hash : TextHash) (capture text : String) : Option String :=
  let name := unquoted text
  if capture = "object" || capture = "array" then
    some (capture ++ "_" ++ toString (hash.of name % 1000))
  else if name = "" then none else some name

end JsonText

/-! ## YAML -/

namespace YamlText

open Pattern

/-- Blanks and a key up to its colon. -/
def key : Pattern :=
  capture 1 blanks ++ capture 2 (plus ⟨[.char ':', .blank], true⟩) ++ blanks ++ lit ":"

/-- Keys, anchors and aliases. -/
def rules : List SymbolRule :=
  [{ kind := "key", pattern := key, part := 2, raw := true },
   { kind := "anchor", pattern := key ++ lit "&" ++ capture 3 (plus .nonBlank), part := 3,
     raw := true },
   { kind := "alias", pattern := blanks ++ lit "*" ++ capture 1 (plus .nonBlank), raw := true }]

end YamlText

/-! ## TOML -/

namespace TomlText

open Pattern

/-- Anything but a closing bracket, as part 1. -/
def title : Pattern := capture 1 (plus (.noneOf "]"))

/-- Tables, arrays of tables and keys. -/
def rules : List SymbolRule :=
  [.of "table" (lit "[" ++ title ++ lit "]"),
   .of "array_of_tables" (lit "[[" ++ title ++ lit "]]"),
   { kind := "key"
     pattern := capture 1 (plus (.noneOf "=")) ++ blanks ++ lit "=" ++ blanks ++
       capture 2 (plus .notLineFeed) ++ textEnd
     trimName := true }]

end TomlText

end SymbolAtlas
