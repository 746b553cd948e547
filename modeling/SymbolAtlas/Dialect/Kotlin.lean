/-
  SymbolAtlas.Dialect.Kotlin: names in Kotlin text.

  A line is searched for every pattern, and each match is a mention. Relations are filed under five
  categories and not under the symbols they start from.
-/

import SymbolAtlas.Dialect.Rule

namespace SymbolAtlas.Kotlin

open Pattern

/-- An ASCII identifier. -/
def identifier : Pattern := one .nameHead ++ chars .nameTail

/-- Identifiers with points between them. -/
def dotted : Pattern := one .nameHead ++ chars .dottedTail

/-- One of the words with the blanks after it, or nothing. -/
def modifier (words : List String) : Pattern := opt (oneOf (words.map keyword))

/-- An access modifier or nothing. -/
def access : Pattern := modifier ["public", "private", "internal", "protected"]

/-- A kind of mention and the pattern that shows it. The name is part 1, or the whole match when
`whole` is set. -/
structure MentionRule where
  kind : String
  pattern : Pattern
  whole : Bool := false

/-- All kinds of mentions, in the order in which a line is searched for them. -/
def rules : List MentionRule :=
  [{ kind := "package", pattern := keyword "package" ++ capture 1 dotted },
   { kind := "import"
     pattern := keyword "import" ++ capture 1 dotted ++
       opt (gap ++ keyword "as" ++ capture 2 identifier) },
   { kind := "class"
     pattern := access ++ modifier ["abstract", "sealed", "data", "annotation"] ++
       modifier ["open", "final"] ++ keyword "class" ++ capture 1 identifier },
   { kind := "interface", pattern := access ++ keyword "interface" ++ capture 1 identifier },
   { kind := "object", pattern := access ++ keyword "object" ++ capture 1 identifier },
   { kind := "enum_class"
     pattern := access ++ keyword "enum" ++ keyword "class" ++ capture 1 identifier },
   { kind := "function"
     pattern := access ++ modifier ["abstract", "open", "final"] ++
       modifier ["suspend", "operator", "infix", "inline", "tailrec", "external"] ++
       keyword "fun" ++ capture 1 identifier },
   { kind := "property"
     pattern := access ++ modifier ["abstract", "open", "final"] ++
       modifier ["const", "lateinit"] ++ anyOf ["val", "var"] ++ gap ++ capture 1 identifier },
   { kind := "type_alias", pattern := keyword "typealias" ++ capture 1 identifier },
   { kind := "companion_object"
     pattern := keyword "companion" ++ lit "object" ++ opt (gap ++ capture 1 identifier) },
   { kind := "constructor", pattern := lit "constructor" ++ blanks ++ parens, whole := true },
   { kind := "primary_constructor"
     pattern := keyword "class" ++ identifier ++ blanks ++ parens
     whole := true }]

namespace MentionRule

/-- The names that a line shows by the rule; a match without a name counts for nothing. -/
def namesOn (rule : MentionRule) (line : String) : List String :=
  ((rule.pattern.scan line).map fun m => if rule.whole then m.whole else m.group 1).filter (· != "")

end MentionRule

/-- The mentions on a line. -/
def mentionsOn (src : Source) (n : Nat) (line : String) : List Mention :=
  rules.flatMap fun rule => (rule.namesOn line).map fun name =>
    { name, kind := rule.kind, line := n, file := src.file, language := src.language }

/-- The mentions in the lines of a file. -/
def findSymbols (src : Source) (lines : List String) : List Finding :=
  (scanLines (mentionsOn src) lines).map .mention

/-! ## Relations -/

/-- The first symbol whose name stands somewhere in the line. -/
def contextSymbol (line : String) : List Outline → Except MissingField (Option String)
  | [] => .ok none
  | o :: rest => do
    let name ← o.getName
    if Text.contains name line then return some name else contextSymbol line rest

/-- `class A : B`. -/
def parent : Pattern :=
  keyword "class" ++ capture 1 identifier ++ blanks ++ lit ":" ++ blanks ++ capture 2 dotted

/-- `class A : B, C`. -/
def secondParent : Pattern := parent ++ blanks ++ lit "," ++ blanks ++ capture 3 dotted

/-- A name and its arguments. -/
def call : Pattern := capture 1 identifier ++ blanks ++ parens

/-- A name of a name. -/
def access2 : Pattern :=
  capture 1 identifier ++ blanks ++ lit "." ++ blanks ++ capture 2 identifier

/-- An import. -/
def importHeader : Pattern := keyword "import" ++ capture 1 dotted

/-- The relations on a line under their categories. Calls start at the context symbol of the line
and are dropped when it has none. -/
def relationsOn (symbols : List Outline) (n : Nat) (line : String) :
    Except MissingField (List (String × Relation)) := do
  let inherited := (parent.scan line).map fun m =>
    ("inheritance", Relation.edge (m.group 1) (m.group 2) "inheritance" n)
  let implemented := (secondParent.scan line).map fun m =>
    ("implementation", Relation.edge (m.group 1) (m.group 3) "implementation" n)
  let callees := call.scanGroup 1 line
  let caller ← if callees.isEmpty then pure none else contextSymbol line symbols
  let calls := match caller with
    | some c => if c = "" then [] else
        callees.map fun callee => ("usage", Relation.edge c callee "function_call" n)
    | none => []
  let accesses := (access2.scan line).map fun m =>
    ("usage", Relation.edge (m.group 1) (m.group 2) "property_access" n)
  let imports := (importHeader.scan line).map fun m =>
    ("dependency", Relation.edge "current_file" (m.group 1) "import" n)
  return inherited ++ implemented ++ calls ++ accesses ++ imports

/-- The relations of all lines. -/
def relationsFrom (symbols : List Outline) :
    List (String × Nat) → Except MissingField (List (String × Relation))
  | [] => .ok []
  | (line, n) :: rest => do
    let here ← relationsOn symbols n line
    return here ++ (← relationsFrom symbols rest)

/-- The relations of a text. -/
def findRelations (symbols : List Outline) (lines : List String) :
    Except MissingField Relations := do
  return { categories := ["inheritance", "implementation", "composition", "dependency", "usage"]
           entries := ← relationsFrom symbols (lines.zipIdx 1) }

/-- The file name extensions of the language. -/
def extensions : List String := [".kt", ".kts"]

end SymbolAtlas.Kotlin
