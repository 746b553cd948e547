/-
  SymbolAtlas.Store.Row: the rows of the four tables.

  All rows carry the times of their changes, which answers only show as being set. Of these, only
  the time at which a project was stored is kept here.
-/

import SymbolAtlas.Store.Cell

namespace SymbolAtlas

/-- What stands for a time in answers. -/
def timeMark : Value := "<timestamp>"

/-! ## Symbols -/

/-- A symbol as it is stored, without its id. -/
structure SymbolData where
  project : String
  language : String
  kind : String
  name : String
  file : String
  first : Cell
  last : Cell
  snippet : String
  digest : String
  deriving DecidableEq, Repr

/-- A stored symbol. -/
structure SymbolRow extends SymbolData where
  id : Int
  deriving DecidableEq, Repr

namespace SymbolRow

/-- The columns without the time. -/
def columns (r : SymbolRow) : List (String × Value) :=
  [("id", .int r.id), ("project_id", .text r.project), ("language", .text r.language),
   ("symbol_type", .text r.kind), ("name", .text r.name), ("file_path", .text r.file),
   ("line_start", r.first.toValue), ("line_end", r.last.toValue),
   ("code_snippet", .text r.snippet), ("file_hash", .text r.digest)]

/-- All columns. -/
def fields (r : SymbolRow) : List (String × Value) := r.columns ++ [("created_at", timeMark)]

end SymbolRow

/-! ## Relationships -/

/-- A relationship as it is stored, without its id. The ends are ids of symbols, which need not
exist. -/
structure RelationData where
  project : String
  source : Cell
  target : Cell
  kind : String
  data : Option String
  deriving DecidableEq, Repr

/-- A stored relationship. -/
structure RelationRow extends RelationData where
  id : Int
  deriving DecidableEq, Repr

namespace RelationRow

/-- The columns without the time. -/
def columns (r : RelationRow) : List (String × Value) :=
  [("id", .int r.id), ("project_id", .text r.project), ("source_symbol_id", r.source.toValue),
   ("target_symbol_id", r.target.toValue), ("relationship_type", .text r.kind),
   ("relationship_data", .ofText? r.data)]

end RelationRow

/-! ## Embeddings -/

/-- A stored embedding; its id is the id of a symbol. -/
structure EmbeddingRow where
  id : Int
  vector : Value

/-! ## Projects -/

/-- A project as it is stored, without its id. -/
structure ProjectData where
  project : String
  name : Option String
  path : String
  isRepository : Option Cell
  commit : Option String
  branch : Option String
  deriving DecidableEq, Repr

/-- A stored project. -/
structure ProjectRow extends ProjectData where
  id : Int
  /-- the time at which the row was stored -/
  created : Nat
  deriving DecidableEq, Repr

namespace ProjectRow

/-- Whether the project counts as a repository: a number other than zero, or a text. -/
def flag (r : ProjectRow) : Bool :=
  match r.isRepository with
  | some c => c.toValue.truthy
  | none => false

/-- The columns without the times. -/
def columns (r : ProjectRow) : List (String × Value) :=
  [("id", .int r.id), ("project_id", .text r.project), ("name", .ofText? r.name),
   ("path", .text r.path), ("is_git_repo", (r.isRepository.map Cell.toValue).getD .null),
   ("last_commit_hash", .ofText? r.commit), ("last_branch", .ofText? r.branch)]

/-- What is told about a project. -/
def fields (r : ProjectRow) : List (String × Value) :=
  [("id", .int r.id), ("project_id", .text r.project), ("name", .ofText? r.name),
   ("path", .text r.path), ("is_git_repo", .bool r.flag),
   ("last_commit_hash", .ofText? r.commit), ("last_branch", .ofText? r.branch),
   ("last_scan_time", timeMark), ("created_at", timeMark), ("updated_at", timeMark)]

end ProjectRow

end SymbolAtlas
