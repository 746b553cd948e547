/-
  SymbolAtlas.Dialect.Markdown: headings, fenced blocks, lists and links in Markdown text.
-/

import SymbolAtlas.Dialect.Rule

namespace SymbolAtlas.Markdown

open Pattern

/-- The rest of the text up to its end, as part `n`. -/
def restOfLine (n : Nat) : Pattern := capture n (plus .notLineFeed) ++ textEnd

/-! ## Symbols on one line -/

/-- One to six hash signs and a title. -/
def headingPattern : Pattern := capture 1 (many (.among "#") 1 (some 6)) ++ gap ++ restOfLine 2

/-- A heading with hash signs. -/
def headingOn (src : Source) (n : Nat) (line : String) : List Symbol :=
  let code := Text.strip line
  (headingPattern.matchStart? code).toList.map fun m =>
    src.symbolOn n (Text.strip (m.group 2)) ("heading_h" ++ toString (m.group 1).length) code

/-- A bullet or a number, and the item. -/
def itemPattern : Pattern :=
  capture 1 blanks ++ capture 2 (alt (one (.among "-*+")) (plus .digit ++ one (.among ".)"))) ++
    gap ++ restOfLine 3

/-- A list item, ordered when its marker begins with a digit. -/
def itemOn (src : Source) (n : Nat) (line : String) : List Symbol :=
  let code := Text.strip line
  (itemPattern.matchStart? code).toList.map fun m =>
    let order := if (m.group 2).toList.head?.any Text.isDecimal then "ordered" else "unordered"
    src.symbolOn n (Text.strip (m.group 3)) ("list_item_" ++ order) code

/-- A bullet, a box and the task. -/
def taskPattern : Pattern :=
  capture 1 blanks ++ capture 2 (one (.among "-*+")) ++ gap ++ lit "[" ++
    capture 3 (one (.among " xX")) ++ lit "]" ++ gap ++ restOfLine 4

/-- A task, checked or not. -/
def taskOn (src : Source) (n : Nat) (line : String) : List Symbol :=
  let code := Text.strip line
  (taskPattern.matchStart? code).toList.map fun m =>
    let state := if m.group 3 = " " then "unchecked" else "checked"
    src.symbolOn n (Text.strip (m.group 4)) ("task_list_item_" ++ state) code

/-- A quoted line. -/
def quoteRule : SymbolRule :=
  { kind := "blockquote", pattern := lit ">" ++ gap ++ restOfLine 1, trimName := true }

/-- Three equal signs of a kind with blanks between them. -/
def breakPattern : Pattern :=
  capture 1 (one (.among "*-_")) ++ blanks ++ again 1 ++ blanks ++ again 1 ++ blanks ++ textEnd

/-- A label of a link. -/
def labelRule : SymbolRule :=
  { kind := "link_reference"
    pattern := lit "[" ++ capture 1 (plus (.noneOf "]")) ++ lit "]:" ++ blanks ++ restOfLine 2
    trimName := true }

/-- Anything between two bars. -/
def rowPattern : Pattern := lit "|" ++ capture 1 (plus .notLineFeed) ++ lit "|" ++ textEnd

/-- A symbol with a fixed name for a line that a pattern fits. -/
def markOn (p : Pattern) (name kind : String) (src : Source) (n : Nat) (line : String) :
    List Symbol :=
  let code := Text.strip line
  (p.matchStart? code).toList.map fun _ => src.symbolOn n name kind code

/-! ## Underlined headings -/

/-- A title, and equal signs or hyphens below it. -/
def underlinedPattern : Pattern :=
  capture 1 (plus .notLineFeed) ++ lit "\n" ++ capture 2 (plus (.among "=-")) ++ textEnd

/-- The heading that two neighbouring lines make; `n` is the number of the first. -/
def underlinedOn (src : Source) (n : Nat) (line next : String) : List Symbol :=
  let code := Text.strip line ++ "\n" ++ Text.strip next
  (underlinedPattern.matchStart? code).toList.map fun m =>
    let level := if Text.hasPrefix "=" (m.group 2) then "1" else "2"
    { name := Text.strip (m.group 1), kind := "heading_h" ++ level, first := n, last := n + 1,
      snippet := code, language := src.language, file := src.file }

/-- The underlined headings in numbered lines. -/
def underlined (src : Source) : List (String × Nat) → List Symbol
  | (line, n) :: (next, m) :: rest =>
    underlinedOn src n line next ++ underlined src ((next, m) :: rest)
  | _ => []

/-! ## Fenced blocks -/

/-- A fenced block: the lines of its fences, its tag, and the lines between. -/
structure Fence where
  first : Nat
  last : Nat
  tag : String
  body : List String
  deriving DecidableEq, Repr

/-- A fence and a tag. -/
def openerPattern : Pattern := lit "```" ++ name0 ++ textEnd
where
  name0 : Pattern := capture 1 (chars .word)

/-- The tag of a line that opens a block. -/
def openerTag? (line : String) : Option String :=
  (openerPattern.matchStart? (Text.strip line)).map (·.group 1)

/-- Whether a line closes a block. -/
def closes (line : String) : Bool := Text.strip line == "```"

/-- A block that is still open: where, with which tag, and its lines so far, last one first. -/
structure OpenFence where
  first : Nat
  tag : String
  body : List String
  deriving DecidableEq, Repr

/-- The fenced blocks in numbered lines. A block that is never closed is none. -/
def fences : Option OpenFence → List (String × Nat) → List Fence
  | _, [] => []
  | none, (line, n) :: rest =>
    match openerTag? line with
    | some tag => fences (some ⟨n, tag, []⟩) rest
    | none => fences none rest
  | some b, (line, n) :: rest =>
    if closes line then ⟨b.first, n, b.tag, b.body.reverse⟩ :: fences none rest
    else fences (some { b with body := line :: b.body }) rest

/-- A fenced block as a symbol. -/
def Fence.symbol (src : Source) (f : Fence) : Symbol :=
  { name := "code_block_" ++ (if f.tag = "" then "text" else f.tag)
    kind := "code_block", first := f.first, last := f.last
    snippet := "```" ++ f.tag ++ "\n" ++ Text.join "\n" f.body ++ "\n```"
    language := src.language, file := src.file }

/-- All symbols in the lines of a document, kind by kind. -/
def findSymbols (src : Source) (lines : List String) : List Finding :=
  let numbered := lines.zipIdx 1
  (scanLines (headingOn src) lines ++ underlined src numbered ++
    (fences none numbered).map (·.symbol src) ++
    scanLines (itemOn src) lines ++ scanLines (taskOn src) lines ++
    scanLines (quoteRule.onLine src) lines ++
    scanLines (markOn breakPattern "thematic_break" "thematic_break" src) lines ++
    scanLines (labelRule.onLine src) lines ++
    scanLines (markOn rowPattern "table_row" "table" src) lines).map .symbol

/-! ## Relations -/

/-- `[text](target)`. -/
def linkPattern : Pattern :=
  lit "[" ++ capture 1 (plus (.noneOf "]")) ++ lit "](" ++ capture 2 (plus (.noneOf ")")) ++ lit ")"

/-- The links of a text with their lines. -/
def links (lines : List String) : List (Nat × Match) :=
  scanLines (fun n line => (linkPattern.scan line).map fun m => (n, m)) lines

/-- Files each link under every symbol that covers its line. -/
def linkRelations (symbols : List Outline) :
    List (Nat × Match) → Except MissingField (List (String × Relation))
  | [] => .ok []
  | (n, m) :: rest => do
    let owners ← ownersAt n symbols
    let here := owners.map fun o => (o, Relation.hyperlink (m.group 2) (m.group 1) n)
    return here ++ (← linkRelations symbols rest)

/-- Whether a symbol is a heading. -/
def isHeading (o : Outline) : Except MissingField Bool := do
  return Text.hasPrefix "heading_" (← o.getKind)

/-- The last listed heading that starts on the line or before it; without one the section stays as
it was. -/
def sectionAt (line : Int) (current : Option String) :
    List Outline → Except MissingField (Option String)
  | [] => .ok current
  | o :: rest => do
    if ← isHeading o then
      if (← o.getFirst) ≤ line then sectionAt line (some (← o.getName)) rest
      else sectionAt line current rest
    else sectionAt line current rest

/-- Pairs lines that begin with a fence, and files each pair under the section of its first line.
The state is the open line, if any, and the current section. -/
def blockRelations (symbols : List Outline) :
    Option Nat → Option String → List (String × Nat) →
      Except MissingField (List (String × Relation))
  | _, _, [] => .ok []
  | opened, current, (line, n) :: rest =>
    if Text.hasPrefix "```" (Text.strip line) then
      match opened with
      | none => do blockRelations symbols (some n) (← sectionAt n current symbols) rest
      | some first => do
        let later ← blockRelations symbols none current rest
        match current with
        | some name => return if name = "" then later else (name, .codeBlock first n) :: later
        | none => return later
    else blockRelations symbols opened current rest

/-- Files an item under every heading that starts before it or on its line. -/
def itemRelations (item : Outline) :
    List Outline → Except MissingField (List (String × Relation))
  | [] => .ok []
  | o :: rest => do
    if ← isHeading o then
      let first ← o.getFirst
      let line ← item.getFirst
      if first ≤ line then
        let owner ← o.getName
        let target ← item.getName
        return (owner, .listItem target line) :: (← itemRelations item rest)
      else itemRelations item rest
    else itemRelations item rest

/-- The relations of all list items among `items` to the headings among `symbols`. -/
def listRelations (symbols : List Outline) :
    List Outline → Except MissingField (List (String × Relation))
  | [] => .ok []
  | o :: rest => do
    let kind ← o.getKind
    let here ← if Text.hasPrefix "list_item_" kind then itemRelations o symbols else pure []
    return here ++ (← listRelations symbols rest)

/-- Links, fenced blocks and list items, in this order. -/
def findRelations (symbols : List Outline) (lines : List String) :
    Except MissingField Relations := do
  let linked ← linkRelations symbols (links lines)
  let blocks ← blockRelations symbols none none (lines.zipIdx 1)
  let items ← listRelations symbols symbols
  return { entries := linked ++ blocks ++ items }

/-! ## Extra data of captured parts -/

/-- Adds what the name of a capture mentions about a part to data collected before. -/
def metadata (symbolName capture : String) (base : List (String × Value)) :
    List (String × Value) :=
  let put := fun k v fs => Value.putField k v fs
  let mentions := fun s => Text.contains s capture
  if Text.hasPrefix "definition.heading" capture then
    match (List.range' 1 6).find? fun n => mentions ("h" ++ toString n) with
    | some n => put "heading_level" (.ofNat n) base
    | none => base
  else if Text.hasPrefix "definition.code_block" capture then
    let base :=
      put "code_block_type" (.text (if mentions "fenced" then "fenced" else "indented")) base
    if mentions "language" then
      put "language" (.text ((Text.splitAt '_' symbolName).getLastD "")) base
    else base
  else if Text.hasPrefix "definition.list_item" capture then
    if mentions "ordered" then put "list_type" "ordered" base
    else if mentions "task" then
      put "task_status" (.text (if mentions "checked" then "checked" else "unchecked"))
        (put "list_type" "task" base)
    else base
  else if Text.hasPrefix "definition.table" capture then put "table_type" "pipe_table" base
  else base

end SymbolAtlas.Markdown
