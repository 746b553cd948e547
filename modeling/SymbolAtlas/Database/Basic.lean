/-
  SymbolAtlas.Database.Basic: a store that can fail.

  A database adds to a store what goes wrong with one: an extension that does not load, tables that
  were dropped, rows that are rejected, and statements with more values than can be bound. A failing
  operation changes nothing.

  Embeddings are kept in the plain table that serves where no table of vectors can be made. A table
  of vectors, with its own rules for what it takes and its search by distance, is left out; there is
  only a plain table that passes for one.
-/

import SymbolAtlas.Store.Stats

namespace SymbolAtlas

/-- The tables of a database. -/
inductive Table where
  | symbols | relationships | embeddings | projects
  deriving DecidableEq, Repr

namespace Table

/-- The name of a table. -/
def name : Table → String
  | .symbols => "symbols"
  | .relationships => "relationships"
  | .embeddings => "symbol_embeddings"
  | .projects => "projects"

/-- All tables. -/
def all : List Table := [.symbols, .relationships, .embeddings, .projects]

/-- The table of a name, in letters of either case. -/
def ofName? (name : String) : Option Table := all.find? fun t => t.name == name.toLower

end Table

/-- Rows that are not let in. -/
inductive Rejection where
  | symbolNamed (name : String)
  | symbolOfKind (kind : String)
  | relationOfKind (kind : String)
  deriving DecidableEq, Repr

namespace Rejection

/-- What a rejection is called; there is only one of each name. -/
def name : Rejection → String
  | .symbolNamed _ => "reject_symbol"
  | .symbolOfKind _ => "reject_symbol_type"
  | .relationOfKind _ => "reject_relationship"

/-- The table that a rejection guards. -/
def table : Rejection → Table
  | .symbolNamed _ | .symbolOfKind _ => .symbols
  | .relationOfKind _ => .relationships

end Rejection

/-- Why a database operation fails. -/
inductive DatabaseError where
  | extension
  | noTable (name : String)
  | rejectionExists (name : String)
  | unsupported (position : Nat) (type : String)
  | tooLarge
  | null (table : Table) (column : String)
  | symbolRejected
  | relationRejected
  | mismatch
  | patternTooLong
  | tooManyVariables
  | bindings (expected given : Nat)
  | missingKey (key : String)
  | noRecord (type : String)
  deriving DecidableEq, Repr

namespace DatabaseError

/-- Why a value of a type has no fields. -/
def noFields (type : String) : String :=
  if type = "list" then "list indices must be integers or slices, not str"
  else if type = "str" then "string indices must be integers, not 'str'"
  else "'" ++ type ++ "' object is not subscriptable"

/-- The wording of an error. -/
def message : DatabaseError → String
  | .extension => "extension failed to load"
  | .noTable name => "no such table: " ++ name
  | .rejectionExists name => "trigger " ++ name ++ " already exists"
  | .unsupported n type =>
    "Error binding parameter " ++ toString n ++ ": type '" ++ type ++ "' is not supported"
  | .tooLarge => "Python int too large to convert to SQLite INTEGER"
  | .null t column => "NOT NULL constraint failed: " ++ t.name ++ "." ++ column
  | .symbolRejected => "symbol rejected"
  | .relationRejected => "relationship rejected"
  | .mismatch => "datatype mismatch"
  | .patternTooLong => "LIKE or GLOB pattern too complex"
  | .tooManyVariables => "too many SQL variables"
  | .bindings expected given =>
    "Incorrect number of bindings supplied. The current statement uses " ++ toString expected ++
      ", and there are " ++ toString given ++ " supplied."
  | .missingKey key => "'" ++ key ++ "'"
  | .noRecord type => noFields type

end DatabaseError

/-- A database. -/
structure Database where
  store : Store := {}
  dropped : List Table := []
  rejections : List Rejection := []
  /-- whether the table of embeddings passes for one that is searched by distance -/
  vectorTable : Bool := false
  /-- whether the extension fails, and with it every operation -/
  broken : Bool := false

namespace Database

/-- The result of an operation that may fail. -/
abbrev Result (α : Type) := Except DatabaseError α

/-- Opens a connection. -/
def connect (db : Database) : Result Unit := if db.broken then .error .extension else .ok ()

/-- Requires a table. -/
def need (db : Database) (t : Table) : Result Unit :=
  if db.dropped.contains t then .error (.noTable t.name) else .ok ()

/-- How many values can be bound in a statement, unless the engine is built with another limit. -/
def maxVariables : Nat := 32766

/-- Requires that some number of values can be bound. -/
def fitVariables (count : Nat) : Result Unit :=
  if count > maxVariables then .error .tooManyVariables else .ok ()

/-- The database with another store. -/
def withStore (db : Database) (st : Store) : Database := { db with store := st }

/-! ## Changes -/

/-- Whether a symbol is not let in. Null is equal to nothing. -/
def rejectsSymbol (db : Database) (name kind : Option String) : Bool :=
  db.rejections.any fun
    | .symbolNamed n => name == some n
    | .symbolOfKind k => kind == some k
    | .relationOfKind _ => false

/-- Whether a relationship is not let in. -/
def rejectsRelation (db : Database) (kind : Option String) : Bool :=
  db.rejections.any fun
    | .relationOfKind k => kind == some k
    | _ => false

/-- Stores a symbol. -/
def addSymbol (db : Database) (d : SymbolData) : Result (Database × Int) := do
  db.connect
  db.need .symbols
  if db.rejectsSymbol (some d.name) (some d.kind) then .error .symbolRejected
  let (st, id) := db.store.insertSymbol d
  return (db.withStore st, id)

/-- Stores a relationship. -/
def addRelation (db : Database) (d : RelationData) : Result (Database × Int) := do
  db.connect
  db.need .relationships
  if db.rejectsRelation (some d.kind) then .error .relationRejected
  let (st, id) := db.store.insertRelation d
  return (db.withStore st, id)

/-- The database with a table of embeddings, which is made again when it was dropped. -/
def withEmbeddings (db : Database) : Database :=
  { db with dropped := db.dropped.filter (· != .embeddings) }

/-- Stores an embedding; a dropped table is made again. -/
def addEmbedding (db : Database) (id : Int) (vector : Value) : Result Database := do
  db.connect
  return db.withEmbeddings.withStore (db.store.putEmbedding id vector)

/-- Removes symbols with their embeddings. The ids of all symbols that are removed are bound in one
statement, and the table of embeddings is only needed when there is one. -/
def removeSymbols (db : Database) (pick : SymbolRow → Bool) : Result Database := do
  db.connect
  db.need .symbols
  if db.store.symbols.any pick then
    fitVariables (db.store.symbols.countP pick)
    db.need .embeddings
  return db.withStore (db.store.removeSymbols pick)

/-- Removes the symbols of a file in a project. -/
def removeFile (db : Database) (file project : String) : Result Database :=
  db.removeSymbols fun r => r.file == file && r.project == project

/-- Removes the symbols of a project. -/
def removeProject (db : Database) (project : String) : Result Database :=
  db.removeSymbols fun r => r.project == project

/-- Stores a project. -/
def putProject (db : Database) (d : ProjectData) : Result (Database × Int) := do
  db.connect
  db.need .projects
  let (st, id) := db.store.putProject d
  return (db.withStore st, id)

/-- Notes a scan of a project. -/
def noteScan (db : Database) (project : String) (commit branch : Option String) :
    Result Database := do
  db.connect
  db.need .projects
  return db.withStore (db.store.noteScan project commit branch)

/-! ## Questions -/

/-- Whether a file with this digest has no symbols in a project. -/
def needsUpdate (db : Database) (file digest project : String) : Result Bool := do
  if digest = "" then return false
  db.connect
  db.need .symbols
  return !db.store.isCurrent file digest project

/-- What is known about a project. -/
def projectInfo (db : Database) (project : String) : Result (Option ProjectRow) := do
  db.connect
  db.need .projects
  return db.store.project? project

/-- The symbols whose names contain a text. -/
def searchByName (db : Database) (name : String) (language project : Option String) :
    Result (List SymbolRow) := do
  db.connect
  db.need .symbols
  if (Like.containing name).utf8ByteSize > Like.maxBytes &&
      !(db.store.inScope language project).isEmpty then .error .patternTooLong
  return db.store.searchByName name language project

/-- The relationships of a symbol. -/
def relationsOf (db : Database) (symbol : Cell) (kind : Option String) (direction : Direction)
    (project : Option String) : Result (List Edge) := do
  db.connect
  db.need .relationships
  db.need .symbols
  return db.store.relationsOf symbol kind direction project

/-- The relationships of some kinds into the symbols of a name. Relationships are only looked at
when there is such a symbol; the ids of all of them are bound in one statement, with the project. -/
def edgesIntoNamed (db : Database) (name : String) (kinds relationKinds : List String)
    (project : Option String) : Result (List Edge) := do
  db.connect
  db.need .symbols
  let ids := db.store.idsNamed name kinds project
  if ids.isEmpty then return []
  fitVariables (ids.length + project.toList.length)
  db.need .relationships
  return db.store.edgesInto ids relationKinds project

/-- The callers of the functions of a name. -/
def callers (db : Database) (name : String) (project : Option String) : Result (List Edge) :=
  db.edgesIntoNamed name Store.callableKinds ["calls"] project

/-- The implementations of the interfaces of a name. -/
def implementations (db : Database) (name : String) (project : Option String) :
    Result (List Edge) :=
  db.edgesIntoNamed name Store.abstractKinds Store.implementingKinds project

/-- The nodes and edges of the dependency graph. -/
def graph (db : Database) (project : Option String) : Result (List SymbolRow × List Edge) := do
  db.connect
  db.need .relationships
  db.need .symbols
  return (db.store.graphNodes project, db.store.graphEdges project)

/-- Counts over the store or a project. -/
def stats (db : Database) (project : Option String) : Result Stats := do
  db.connect
  db.need .symbols
  db.need .embeddings
  db.need .relationships
  return db.store.stats project

/-- All projects that have symbols. -/
def summaries (db : Database) : Result (List ProjectSummary) := do
  db.connect
  db.need .symbols
  return db.store.summaries

/-! ## Tables -/

/-- Opens the database anew, which makes the tables that are missing. -/
def reopen (db : Database) : Result Database := do
  db.connect
  return { db with
    dropped := []
    store := { db.store with shared := db.store.shared && !db.dropped.contains .symbols } }

/-- The database without a table and everything that guards it. -/
def without (db : Database) (t : Table) : Database :=
  let st := db.store
  { db with
    store := match t with
      | .symbols => { st with symbols := [] }
      | .relationships => { st with relations := [] }
      | .embeddings => { st with embeddings := [] }
      | .projects => { st with projects := [] }
    dropped := t :: db.dropped
    rejections := db.rejections.filter fun r => r.table != t
    vectorTable := db.vectorTable && t != .embeddings }

/-- Drops the table of a name. -/
def drop (db : Database) (name : String) : Result Database := do
  match Table.ofName? name with
  | none => .error (.noTable name)
  | some t =>
    if db.dropped.contains t then .error (.noTable name)
    return db.without t

/-- Puts an empty table of embeddings in the place of the one that is there, which passes for one
that is searched by distance. -/
def pretendVectors (db : Database) : Result Database := do
  db.need .embeddings
  return { db with store := { db.store with embeddings := [] }, vectorTable := true }

/-- Sets up a rejection. -/
def reject (db : Database) (r : Rejection) : Result Database := do
  if db.dropped.contains r.table then .error (.noTable ("main." ++ r.table.name))
  if db.rejections.any fun old => old.name == r.name then .error (.rejectionExists r.name)
  return { db with rejections := r :: db.rejections }

end Database

end SymbolAtlas
