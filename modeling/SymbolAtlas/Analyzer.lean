/-
  SymbolAtlas.Analyzer: from a file to its symbols, each with the relations that start at it.
-/

import SymbolAtlas.Capture
import SymbolAtlas.Query

namespace SymbolAtlas

/-- A finding with its relations. The shell dialect reads files without looking for relations. -/
structure Parsed where
  finding : Finding
  relations : Option (List Relation)
  deriving DecidableEq, Repr

namespace Parsed

/-- The attributes of a finding and its relations under their public names. -/
def fields (p : Parsed) : List (String × Value) :=
  p.finding.fields ++ p.relations.toList.map fun rs =>
    ("relationships", .list (rs.map fun r => .object r.fields))

end Parsed

/-- A dialect together with what it needs to read files. -/
structure Analyzer where
  dialect : Dialect
  registry : Registry := .standard
  /-- languages for which there is a grammar -/
  grammars : List String := []
  /-- the query of a language -/
  query : String → Option String := fun _ => none
  /-- what the query of a language captures in a file with some content; none when it cannot be
  run -/
  captures : Source → String → Option (List Capture) := fun _ _ => none
  /-- the hash that names are made of -/
  hash : TextHash := .zero

namespace Analyzer

/-- The findings that the dialect of a language reads off the lines; none when the dialect does not
read text. -/
def readLines (a : Analyzer) (src : Source) (lines : List String) : Option (List Finding) :=
  match a.dialect.delegate? a.registry src.language with
  | some d => if d.reads then some (d.findSymbols src lines) else none
  | none => some (Declarations.generic.findSymbols src lines)

/-- The symbols of what the query captures in a file. -/
def captured (a : Analyzer) (src : Source) (content : String) : List Symbol :=
  Capture.symbols ((a.captures src content).getD []) a.hash a.dialect a.registry src

/-- The findings of a file: what the query captured, or else what its lines show. -/
def findings (a : Analyzer) (src : Source) (content : String) : List Finding :=
  let captured := a.captured src content
  if captured.isEmpty then (a.readLines src (Text.lines content)).getD []
  else captured.map .symbol

/-- The relations of a file; none when they cannot be found. -/
def relations? (a : Analyzer) (language content : String) (found : List Finding) :
    Option Relations :=
  if a.dialect.wantsRelations a.registry language then
    let outlines := found.map (·.outline)
    match a.dialect.delegate? a.registry language with
    | some d => if d.reads then (d.findRelations content outlines).toOption else none
    | none => (Declarations.generic.findRelations outlines (Text.lines content)).toOption
  else some {}

/-- The symbols of a text in a known language. Nothing is found when the relations fail. -/
def parseText (a : Analyzer) (src : Source) (content : String) : List Parsed :=
  let found := a.findings src content
  match a.relations? src.language content found with
  | some rs => found.map fun f => ⟨f, some (rs.of f.name)⟩
  | none => []

/-- Whether a language has a grammar and a query. -/
def supports (a : Analyzer) (language : String) : Bool :=
  a.grammars.contains language && (a.query language).any (· != "")

/-- The lines of a shell script, as far as it can be read. -/
def scriptLines (file : Option ByteArray) : List String :=
  ((file.bind Text.decode?).map Text.terminatedLines).getD []

/-- The symbols of a file, found by its path and its bytes. A file that is missing, unreadable or in
an unsupported language has none. -/
def parseFile (a : Analyzer) (path : String) (file : Option ByteArray) : List Parsed :=
  if a.dialect = .shell then
    (Shell.findSymbols ⟨path, "bash"⟩ (scriptLines file)).map fun f => ⟨f, none⟩
  else match file.bind Text.decode?, a.dialect.languageOf? (.parse path) with
    | some content, some language =>
      if a.supports language then a.parseText ⟨path, language⟩ content else []
    | _, _ => []

end Analyzer

end SymbolAtlas
