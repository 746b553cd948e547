/-
  SymbolAtlas.Dialect.Rule: rules that read one line at a time.

  A dialect of this kind is a table: patterns of definitions, words that look like calls and are
  none, patterns of headers that name a parent, and what to cut off a definition to reach its name.
  One engine per column reads the tables.
-/

import SymbolAtlas.Pattern.Scan
import SymbolAtlas.Relation
import SymbolAtlas.Symbol
import SymbolAtlas.Text.Parts

namespace SymbolAtlas

/-- The file that is read, as its findings name it. -/
structure Source where
  file : String
  language : String
  deriving DecidableEq, Repr

/-- What `read` finds on each line, in the order of the lines; lines count from one. -/
def scanLines {α : Type} (read : Nat → String → List α) (lines : List String) : List α :=
  (lines.zipIdx 1).flatMap fun l => read l.2 l.1

namespace Source

/-- A symbol that lies on one line. -/
def symbolOn (src : Source) (line : Nat) (name kind snippet : String) : Symbol :=
  { name, kind, first := line, last := line, snippet, language := src.language, file := src.file }

end Source

/-! ## Definitions -/

/-- A definition that a line may begin with. -/
structure SymbolRule where
  kind : String
  pattern : Pattern
  /-- the part of the pattern that is the name -/
  part : Nat := 1
  /-- names that are no definitions -/
  excluded : List String := []
  /-- whether the line is read with the blanks at its ends -/
  raw : Bool := false
  /-- whether the name loses the blanks at its ends -/
  trimName : Bool := false
  deriving DecidableEq, Repr

namespace SymbolRule

/-- The rule for a kind whose name is part 1. -/
def of (kind : String) (pattern : Pattern) : SymbolRule := { kind, pattern }

/-- The name that a line defines by the rule. -/
def nameOn? (rule : SymbolRule) (line : String) : Option String :=
  match rule.pattern.matchStart? (if rule.raw then line else Text.strip line) with
  | some m =>
    let name := if rule.trimName then Text.strip (m.group rule.part) else m.group rule.part
    if rule.excluded.contains name then none else some name
  | none => none

/-- The symbol that a line defines by the rule. -/
def onLine (rule : SymbolRule) (src : Source) (n : Nat) (line : String) : List Symbol :=
  (rule.nameOn? line).toList.map fun name => src.symbolOn n name rule.kind (Text.strip line)

end SymbolRule

/-- The symbols of all rules, rule by rule. -/
def symbolsByRules (rules : List SymbolRule) (src : Source) (lines : List String) : List Symbol :=
  rules.flatMap fun rule => scanLines (rule.onLine src) lines

/-! ## Calls -/

/-- A word and an opening parenthesis. -/
def callPattern : Pattern := .name 1 ++ .blanks ++ .lit "("

/-- Which words before a parenthesis are no calls, and what the others call. -/
structure CallRule where
  excluded : List String
  targetKind : String := "function"
  deriving DecidableEq, Repr

namespace CallRule

/-- The called words of a line, with the line's number. -/
def onLine (rule : CallRule) (n : Nat) (line : String) : List (Nat × String) :=
  ((callPattern.scanGroup 1 line).filter fun w => !rule.excluded.contains w).map fun w => (n, w)

/-- All called words, line by line. -/
def sites (rule : CallRule) (lines : List String) : List (Nat × String) :=
  scanLines rule.onLine lines

/-- A call as a relation. -/
def relation (rule : CallRule) (n : Nat) (word : String) : Relation :=
  .link "calls" word rule.targetKind n

/-- Files each call under the first symbol that covers its line; a call outside all symbols is
dropped. -/
def assign (rule : CallRule) (symbols : List Outline) :
    List (Nat × String) → Except MissingField (List (String × Relation))
  | [] => .ok []
  | (n, word) :: rest => do
    match ← ownerAt n symbols with
    | some owner => return (owner, rule.relation n word) :: (← assign rule symbols rest)
    | none => assign rule symbols rest

/-- The calls of a text with their owners. -/
def relations (rule : CallRule) (symbols : List Outline) (lines : List String) :
    Except MissingField (List (String × Relation)) :=
  rule.assign symbols (rule.sites lines)

end CallRule

/-! ## Headers -/

/-- A header that relates the name it defines to another one. -/
structure HeaderRule where
  pattern : Pattern
  owner : Nat := 1
  target : Nat := 2
  /-- kind of the relation and of the target, which may depend on the target's name -/
  sort : String → String × String

namespace HeaderRule

/-- The relation that a line states by the rule. -/
def onLine (rule : HeaderRule) (n : Nat) (line : String) : Option (String × Relation) :=
  (rule.pattern.matchStart? (Text.strip line)).map fun m =>
    let target := Text.strip (m.group rule.target)
    let (kind, targetKind) := rule.sort target
    (m.group rule.owner, .link kind target targetKind n)

/-- A header that makes the target a parent of the owner. -/
def inherits (pattern : Pattern) : HeaderRule :=
  { pattern, sort := fun _ => ("inherits", "class") }

end HeaderRule

/-- The relations of all headers, line by line. -/
def headerRelations (rules : List HeaderRule) (lines : List String) : List (String × Relation) :=
  scanLines (fun n line => rules.filterMap fun rule => rule.onLine n line) lines

/-! ## Names -/

/-- How to reach the name in the text of a definition: the first of `openers` that begins it is cut
off, then each of `modifiers` in turn; the first word that is left is the name. -/
structure NameRule where
  openers : List String
  modifiers : List String := []
  deriving DecidableEq, Repr

namespace NameRule

/-- Cuts `p` off the beginning of a text, if it is there. -/
def cut (text p : String) : String := (Text.dropPrefix? p text).getD text

/-- The name in the text of a definition. -/
def read (rule : NameRule) (text : String) : Option String :=
  let body := (rule.openers.findSome? fun p => Text.dropPrefix? p text).getD text
  Text.firstWord? (rule.modifiers.foldl cut body)

end NameRule

/-! ## Tables -/

/-- The line rules of a dialect. -/
structure LineRules where
  symbols : List SymbolRule
  calls : CallRule
  headers : List HeaderRule := []

namespace LineRules

/-- The symbols in the lines of a file. -/
def findSymbols (rules : LineRules) (src : Source) (lines : List String) : List Finding :=
  (symbolsByRules rules.symbols src lines).map .symbol

/-- The relations in a text: all calls, then all headers. -/
def findRelations (rules : LineRules) (symbols : List Outline) (lines : List String) :
    Except MissingField Relations := do
  let calls ← rules.calls.relations symbols lines
  return { entries := calls ++ headerRelations rules.headers lines }

end LineRules

end SymbolAtlas
