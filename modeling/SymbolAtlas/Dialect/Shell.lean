/-
  SymbolAtlas.Dialect.Shell: functions, variables and relations in shell scripts, and the names of
  captured parts of a script.
-/

import SymbolAtlas.Dialect.Rule

namespace SymbolAtlas.Shell

open Pattern

/-! ## Mentions -/

/-- `name ()` after blanks. -/
def nameParens : Pattern := blanks ++ name 1 ++ blanks ++ lit "()"

/-- Headers of functions; the first one that fits a line counts. -/
def functionPatterns : List Pattern :=
  [blanks ++ keyword "function" ++ name 1 ++ blanks ++ lit "()" ++ blanks ++ lit "\x7b",
   blanks ++ keyword "function" ++ name 1 ++ blanks ++ lit "\x7b",
   nameParens ++ blanks ++ lit "\x7b",
   nameParens ++ blanks ++ lit "(",
   nameParens ++ blanks ++ lit "[["]

/-- Assignments; the first one that fits a line counts. -/
def variablePatterns : List Pattern :=
  (blanks ++ name 1 ++ lit "=") ::
    ["declare", "typeset", "local", "readonly", "export"].map fun w =>
      blanks ++ keyword w ++ name 1 ++ lit "="

/-- The mention on a line by the first pattern that fits. -/
def mentionOn (kind : String) (patterns : List Pattern) (src : Source) (n : Nat) (line : String) :
    List Mention :=
  (patterns.findSome? fun p => p.matchStart? line).toList.map fun m =>
    { name := m.group 1, kind, line := n, file := src.file, language := src.language,
      scope := some "global" }

/-- The functions and then the variables in the lines of a script. -/
def findSymbols (src : Source) (lines : List String) : List Finding :=
  (scanLines (mentionOn "function" functionPatterns src) lines ++
    scanLines (mentionOn "variable" variablePatterns src) lines).map .mention

/-! ## Relations -/

/-- The symbols of a kind. Every symbol's kind is read. -/
def ofKind (kind : String) : List Outline → Except MissingField (List Outline)
  | [] => .ok []
  | o :: rest => do
    let k ← o.getKind
    let others ← ofKind kind rest
    return if k = kind then o :: others else others

/-- The line on which the character at an offset stands. -/
def lineAt (content : String) (offset : Nat) : Nat :=
  ((content.toList.take offset).filter (· == '\n')).length + 1

/-- The name as a word of its own. -/
def wordPattern (name : String) : Pattern := wordEdge ++ lit name ++ wordEdge

/-- The expansion of a variable, with or without braces. -/
def expansionPattern (name : String) : Pattern :=
  lit "$" ++ opt (lit "\x7b") ++ lit name ++ opt (lit "\x7d")

/-- A line that reads in another script. -/
def importPattern (word : String) : Pattern :=
  lineStart ++ blanks ++ lit word ++ gap ++ capture 1 (plus .nonBlank)

/-- Every place of every symbol that its pattern shows. -/
def places (content : String) (pattern : String → Pattern) (relation : String → Nat → Relation) :
    List Outline → Except MissingField (List Relation)
  | [] => .ok []
  | o :: rest => do
    let name ← o.getName
    let here := ((pattern name).scan content).map fun m => relation name (lineAt content m.start)
    return here ++ (← places content pattern relation rest)

/-- The scripts that are read in. -/
def imports (content word : String) : List Relation :=
  ((importPattern word).scan content).map fun m =>
    .shellImport (Text.stripChars ['"', '\x27'] (m.group 1)) (lineAt content m.start)

/-- The relations of a script, under four categories. -/
def findRelations (content : String) (symbols : List Outline) : Except MissingField Relations := do
  let calls ← places content wordPattern .shellCall (← ofKind "function" symbols)
  let uses ← places content expansionPattern .shellUse (← ofKind "variable" symbols)
  let imported := imports content "source" ++ imports content "."
  return { categories := ["calls", "uses", "defines", "imports"]
           entries := calls.map (("calls", ·)) ++ uses.map (("uses", ·)) ++
             imported.map (("imports", ·)) }

/-! ## Names -/

/-- The name in the text of a definition; only three captures have one. -/
def definitionName (capture text : String) : Option String :=
  if ["function.name", "variable.name", "command.name"].contains capture then
    some (Text.strip text)
  else none

/-- A text, or none when it is empty. -/
def nonempty? (s : String) : Option String := if s = "" then none else some s

/-- An ASCII identifier that is a word of its own. -/
def identifierWord : Pattern := wordEdge ++ one .nameHead ++ chars .nameTail ++ wordEdge

/-- The name of a captured part of a script. -/
def capturedName (capture text : String) : Option String :=
  let words := Text.words text
  if capture = "function.name" then
    if Text.hasPrefix "function " text then words.tail.head?
    else if Text.contains "(" text then
      (Text.splitAt '(' text).head?.map Text.strip
    else some text
  else if capture = "variable.expansion" then
    some (NameRule.cut text "$")
  else if capture = "command.name" then words.head?
  else if ["if.statement", "for.statement", "while.statement", "case.statement",
      "do.group"].contains capture then
    some ((["if", "for", "while", "case", "do"].find? fun w => Text.hasPrefix w text).getD text)
  else if ["test.command", "pipeline", "list", "negated.command"].contains capture then
    match words with
    | "!" :: rest => rest.head?
    | w :: _ => some w
    | [] => some text
  else if ["binary.expression", "unary.expression", "ternary.expression",
      "parenthesized.expression"].contains capture then
    match identifierWord.search? text with
    | some m => some m.whole
    | none => some text
  else if capture = "comment" then
    match Text.dropPrefix? "#" text with
    | some rest => some ((Text.firstWord? rest).getD "comment")
    | none => some text
  else if capture = "variable.name" || capture = "string.content" then some text
  else nonempty? text

end SymbolAtlas.Shell
