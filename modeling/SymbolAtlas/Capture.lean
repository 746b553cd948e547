/-
  SymbolAtlas.Capture: nodes of a syntax tree that a query has captured, and their symbols.

  A node can lack its text or its place, and its text may be no valid UTF-8. Such a node is no
  symbol, and does not affect any other node.
-/

import SymbolAtlas.Registry

namespace SymbolAtlas

/-- A node of a syntax tree; rows count from zero. -/
structure Node where
  text : Option ByteArray
  firstRow : Option Int
  lastRow : Option Int

/-- The nodes that were captured under a name. -/
structure Capture where
  name : String
  nodes : List Node

namespace Node

/-- The text of a node; a node without one has the empty text. -/
def text? (n : Node) : Option String :=
  match n.text with
  | some bytes => String.fromUTF8? bytes
  | none => some ""

/-- The name of a capture for which there is no dialect: the first word after a keyword for a
definition, otherwise the whole text. -/
def plainName (capture text : String) : Option String :=
  if Text.hasPrefix "definition." capture then
    let body := (Declarations.genericName.openers.findSome? fun p =>
      Text.dropPrefix? p text).getD text
    Text.firstWord? body <|> if body = "" then none else some body
  else if text = "" then none else some text

/-- The name of a node as the dialect of its language reads it. -/
def nameBy (hash : TextHash) (d : Option Dialect) (language capture text : String) :
    Option String :=
  match d with
  | some d =>
    if d = .shell && language = "bash" then Shell.capturedName capture text
    else if d.reads then d.definitionName hash capture text
    else plainName capture text
  | none => plainName capture text

/-- The name of a node. -/
def name? (n : Node) (hash : TextHash) (d : Dialect) (registry : Registry)
    (capture language : String) : Option String :=
  match n.text? with
  | some text => nameBy hash (d.delegate? registry language) language capture (Text.strip text)
  | none => none

/-- The kind of a capture: as the dialect of the language says, or else as `d` says. -/
def kind? (d : Dialect) (registry : Registry) (capture language : String) : Option String :=
  ((d.delegate? registry language).bind fun l => l.kindOf? capture) <|> d.kindOf? capture

/-- The symbol of a node. -/
def symbol? (n : Node) (hash : TextHash) (d : Dialect) (registry : Registry) (capture : String)
    (src : Source) : Option Symbol := do
  let name ← n.name? hash d registry capture src.language
  if name = "" then none
  let kind ← kind? d registry capture src.language
  let first ← n.firstRow
  let last ← n.lastRow
  return { name, kind, first := first + 1, last := last + 1, snippet := ← n.text?
           language := src.language, file := src.file, digest := some "" }

end Node

/-- The symbols of all captures, in order. -/
def Capture.symbols (captures : List Capture) (hash : TextHash) (d : Dialect)
    (registry : Registry) (src : Source) : List Symbol :=
  captures.flatMap fun c => c.nodes.filterMap fun n => n.symbol? hash d registry c.name src

end SymbolAtlas
