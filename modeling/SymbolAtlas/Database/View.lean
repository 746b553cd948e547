/-
  SymbolAtlas.Database.View: rows and counts under their public names.
-/

import SymbolAtlas.Database.Basic

namespace SymbolAtlas

/-- The columns of a symbol that was found by meaning. -/
def SymbolRow.withDistance (r : SymbolRow) : List (String × Value) :=
  r.fields ++ [("distance", .float 0.0)]

namespace Edge

/-- Whether a symbol is the source. -/
def directionFrom (e : Edge) (symbol : Cell) : String :=
  if e.relation.source == symbol then "outgoing" else "incoming"

/-- An edge of the dependency graph. -/
def graphFields (e : Edge) : List (String × Value) :=
  [("source", .text (Store.nodeName e.source)), ("target", .text (Store.nodeName e.target)),
   ("type", .text e.relation.kind)]

end Edge

/-- A node of the dependency graph. -/
def SymbolRow.graphFields (r : SymbolRow) : List (String × Value) :=
  [("id", .int r.id), ("name", .text r.name), ("type", .text r.kind), ("file", .text r.file)]

/-- The dependency graph. -/
def graphFields (nodes : List SymbolRow) (edges : List Edge) : List (String × Value) :=
  [("nodes", .list (nodes.map fun n => .object n.graphFields)),
   ("edges", .list (edges.map fun e => .object e.graphFields)),
   ("total_nodes", .ofNat nodes.length), ("total_edges", .ofNat edges.length)]

namespace Stats

/-- Counts, with the project they were asked for. -/
def fields (s : Stats) (vectorTable : Bool) (project : Value) : List (String × Value) :=
  [("total_symbols", .ofNat s.symbols), ("symbols_with_embeddings", .ofNat s.embedded),
   ("languages", tallyValue s.languages), ("total_files", .ofNat s.files),
   ("total_relationships", .ofNat s.relations), ("relationship_types", tallyValue s.kinds),
   ("vec0_available", .bool vectorTable), ("project_id", project)]

end Stats

namespace ProjectSummary

/-- The counts of a project. -/
def fields (s : ProjectSummary) : List (String × Value) :=
  [("project_id", .text s.project), ("symbol_count", .ofNat s.symbols),
   ("file_count", .ofNat s.files), ("language_count", .ofNat s.languages),
   ("first_indexed", timeMark), ("last_indexed", timeMark)]

end ProjectSummary

end SymbolAtlas
