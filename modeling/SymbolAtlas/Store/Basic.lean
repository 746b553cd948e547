/-
  SymbolAtlas.Store.Basic: the four tables, how they change, and finding symbols.

  A new row has the largest id plus one. A row that takes the place of others gets a new id as well.
  Nothing else is removed with a symbol but its embedding: relationships stay, and an id that is
  used again takes them over.
-/

import SymbolAtlas.Store.Like
import SymbolAtlas.Store.Row

namespace SymbolAtlas

/-- The tables. Symbols, relationships and projects stand in the order of their ids. -/
structure Store where
  symbols : List SymbolRow := []
  relations : List RelationRow := []
  embeddings : List EmbeddingRow := []
  projects : List ProjectRow := []
  /-- whether symbols of different projects can take each other's place -/
  shared : Bool := false
  /-- the time at which changes are made -/
  clock : Nat := 0

namespace Store

/-- The largest id plus one, or one. -/
def nextId : List Int → Int
  | [] => 1
  | i :: rest => rest.foldl max i + 1

/-! ## Symbols -/

/-- Whether two symbols cannot both be stored. -/
def clash (shared : Bool) (a b : SymbolData) : Bool :=
  (shared || a.project == b.project) && a.language == b.language && a.name == b.name &&
    a.file == b.file && a.first == b.first

/-- Stores a symbol in place of those it clashes with; also gives its id. -/
def insertSymbol (st : Store) (d : SymbolData) : Store × Int :=
  let id := nextId (st.symbols.map (·.id))
  let kept := st.symbols.filter fun r => !clash st.shared r.toSymbolData d
  ({ st with symbols := kept ++ [{ d with id }] }, id)

/-- Removes the symbols that a test picks, with their embeddings. -/
def removeSymbols (st : Store) (pick : SymbolRow → Bool) : Store :=
  let ids := (st.symbols.filter pick).map (·.id)
  { st with
    symbols := st.symbols.filter fun r => !pick r
    embeddings := st.embeddings.filter fun e => !ids.contains e.id }

/-- Removes the symbols of a file. -/
def removeFile (st : Store) (file project : String) : Store :=
  st.removeSymbols fun r => r.file == file && r.project == project

/-- Removes the symbols of a project. -/
def removeProject (st : Store) (project : String) : Store :=
  st.removeSymbols fun r => r.project == project

/-- Whether a file with this digest has symbols in a project. -/
def isCurrent (st : Store) (file digest project : String) : Bool :=
  st.symbols.any fun r => r.file == file && r.digest == digest && r.project == project

/-! ## Relationships -/

/-- Whether two relationships cannot both be stored. -/
def sameRelation (a b : RelationData) : Bool :=
  a.project == b.project && a.source == b.source && a.target == b.target && a.kind == b.kind

/-- Stores a relationship in place of the one it clashes with; also gives its id. -/
def insertRelation (st : Store) (d : RelationData) : Store × Int :=
  let id := nextId (st.relations.map (·.id))
  let kept := st.relations.filter fun r => !sameRelation r.toRelationData d
  ({ st with relations := kept ++ [{ d with id }] }, id)

/-- Removes the relationships of a project that begin or end at a symbol. -/
def removeRelations (st : Store) (symbol : Cell) (project : String) : Store :=
  { st with relations := st.relations.filter fun r =>
      !((r.source == symbol || r.target == symbol) && r.project == project) }

/-! ## Embeddings -/

/-- Puts an embedding in the order of the ids. -/
def putRow (e : EmbeddingRow) : List EmbeddingRow → List EmbeddingRow
  | [] => [e]
  | f :: rest =>
    if f.id = e.id then e :: rest
    else if e.id < f.id then e :: f :: rest
    else f :: putRow e rest

/-- Stores the embedding of a symbol in place of the one before. -/
def putEmbedding (st : Store) (id : Int) (vector : Value) : Store :=
  { st with embeddings := putRow ⟨id, vector⟩ st.embeddings }

/-! ## Projects -/

/-- Stores a project in place of the one of the same name; also gives its id. -/
def putProject (st : Store) (d : ProjectData) : Store × Int :=
  let id := nextId (st.projects.map (·.id))
  let kept := st.projects.filter fun r => !(r.project == d.project)
  ({ st with projects := kept ++ [{ d with id, created := st.clock }] }, id)

/-- Notes a commit and a branch, as far as they are given. -/
def noteScan (st : Store) (project : String) (commit branch : Option String) : Store :=
  { st with projects := st.projects.map fun r =>
      if r.project = project then
        { r with commit := commit <|> r.commit, branch := branch <|> r.branch }
      else r }

/-- The project of a name. -/
def project? (st : Store) (project : String) : Option ProjectRow :=
  st.projects.find? (·.project == project)

/-! ## Finding symbols -/

/-- Whether a text passes a filter; without a filter all do. -/
def passes (filter : Option String) (s : String) : Bool :=
  match filter with
  | some f => f == s
  | none => true

/-- The filter of a text; an empty text does not filter. -/
def filterOf (s : String) : Option String := if s = "" then none else some s

/-- The symbols of a language and a project. -/
def inScope (st : Store) (language project : Option String) : List SymbolRow :=
  st.symbols.filter fun r => passes language r.language && passes project r.project

/-- The order of search results: by name, by file, by id. -/
def searchKey (r : SymbolRow) : List Cell := [.text r.name, .text r.file, .int r.id]

/-- The symbols whose names contain a text. -/
def searchByName (st : Store) (name : String) (language project : Option String) :
    List SymbolRow :=
  let pattern := Like.upToNull (Like.containing name).toList
  sortByKey searchKey ((st.inScope language project).filter fun r =>
    Like.fits pattern (Like.upToNull r.name.toList))

/-- The first symbols of a project, at most `limit` if there is one. -/
def firstSymbols (st : Store) (limit : Option Nat) (project : Option String) : List SymbolRow :=
  let rows := st.inScope none project
  match limit with
  | some n => rows.take n
  | none => rows

end Store

end SymbolAtlas
