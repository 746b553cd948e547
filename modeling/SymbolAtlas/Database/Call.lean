/-
  SymbolAtlas.Database.Call: database operations on arguments of any shape.

  Arguments are bound to the places of a statement in order. A list or an object cannot be bound,
  nor a whole number of more than 64 bits. Bound values take the form of the column that they are
  stored in or compared with; null is equal to nothing.
-/

import SymbolAtlas.Database.Basic
import SymbolAtlas.Value.Display
import SymbolAtlas.Value.Json

namespace SymbolAtlas.Database

/-! ## Binding -/

/-- Binds a value to a place. -/
def bind (position : Nat) : Value → Result (Option Cell)
  | .null => .ok none
  | .bool b => .ok (some (.int (if b then 1 else 0)))
  | .int n => if Cell.fits n then .ok (some (.int n)) else .error .tooLarge
  | .float x => .ok (if x == x then some (.real x) else none)
  | .text s => .ok (some (.text s))
  | v => .error (.unsupported position (Display.typeName v))

/-- Binds a value for a column of texts. -/
def bindText (position : Nat) (v : Value) : Result (Option String) := do
  return (← bind position v).map Cell.asText

/-- Binds a value for a column of numbers. -/
def bindNumber (position : Nat) (v : Value) : Result (Option Cell) := do
  return (← bind position v).map Cell.asNumber

/-- Binds a value that filters when it is not empty. -/
def bindFilter (position : Nat) (v : Value) : Result (Option String) :=
  if v.truthy then bindText position v else .ok none

/-- A column that must not be null. -/
def notNull {α : Type} (t : Table) (column : String) : Option α → Result α
  | some a => .ok a
  | none => .error (.null t column)

/-- A field that must be there. Only an object has fields. -/
def fieldOf (data : Value) (key : String) : Result Value :=
  match data with
  | .object fields =>
    match Value.field? key fields with
    | some v => .ok v
    | none => .error (.missingKey key)
  | v => .error (.noRecord (Display.typeName v))

/-! ## Changes -/

/-- Stores a symbol given by its fields. A null project is the default one. -/
def insertSymbol (db : Database) (data project : Value) : Result (Database × Int) := do
  db.connect
  let language ← fieldOf data "language"
  let kind ← fieldOf data "symbol_type"
  let name ← fieldOf data "name"
  let file ← fieldOf data "file_path"
  let first ← fieldOf data "line_start"
  let last ← fieldOf data "line_end"
  let snippet ← fieldOf data "code_snippet"
  let digest ← fieldOf data "file_hash"
  db.need .symbols
  let project ← bindText 1 project
  let language ← bindText 2 language
  let kind ← bindText 3 kind
  let name ← bindText 4 name
  let file ← bindText 5 file
  let first ← bindNumber 6 first
  let last ← bindNumber 7 last
  let snippet ← bindText 8 snippet
  let digest ← bindText 9 digest
  if db.rejectsSymbol name kind then .error .symbolRejected
  db.addSymbol
    { project := project.getD "default"
      language := ← notNull .symbols "language" language
      kind := ← notNull .symbols "symbol_type" kind
      name := ← notNull .symbols "name" name
      file := ← notNull .symbols "file_path" file
      first := ← notNull .symbols "line_start" first
      last := ← notNull .symbols "line_end" last
      snippet := ← notNull .symbols "code_snippet" snippet
      digest := ← notNull .symbols "file_hash" digest }

/-- Stores a relationship; its data are kept as JSON text unless they are empty. -/
def insertRelation (db : Database) (source target kind project data : Value) :
    Result (Database × Int) := do
  db.connect
  db.need .relationships
  let project ← bindText 1 project
  let source ← bindNumber 2 source
  let target ← bindNumber 3 target
  let kind ← bindText 4 kind
  if db.rejectsRelation kind then .error .relationRejected
  db.addRelation
    { project := ← notNull .relationships "project_id" project
      source := ← notNull .relationships "source_symbol_id" source
      target := ← notNull .relationships "target_symbol_id" target
      kind := ← notNull .relationships "relationship_type" kind
      data := if data.truthy then some (Json.write data) else none }

/-- The id under which an embedding is stored: a whole number, or the next free one for null. -/
def embeddingId (db : Database) (id : Value) : Result Int := do
  match ← bindNumber 1 id with
  | none => return Store.nextId (db.store.embeddings.map (·.id))
  | some (.int n) => return n
  | some _ => .error .mismatch

/-- Stores an embedding. A dropped table is made again even if the embedding cannot be stored. -/
def insertEmbedding (db : Database) (id vector : Value) : Database × Result Unit :=
  match db.connect with
  | .error e => (db, .error e)
  | .ok () =>
    let db := db.withEmbeddings
    match db.embeddingId id with
    | .error e => (db, .error e)
    | .ok n => (db.withStore (db.store.putEmbedding n vector), .ok ())

/-- Removes the symbols of a file in a project. -/
def deleteFile (db : Database) (file project : Value) : Result Database := do
  db.connect
  db.need .symbols
  match ← bindText 1 file, ← bindText 2 project with
  | some f, some p => db.removeFile f p
  | _, _ => return db

/-- Removes the symbols of a project. -/
def deleteProject (db : Database) (project : Value) : Result Database := do
  db.connect
  db.need .symbols
  match ← bindText 1 project with
  | some p => db.removeProject p
  | none => return db

/-- Removes the relationships of a symbol in a project. -/
def deleteRelations (db : Database) (symbol project : Value) : Result Database := do
  db.connect
  db.need .relationships
  match ← bindNumber 1 symbol, ← bindText 3 project with
  | some s, some p => return db.withStore (db.store.removeRelations s p)
  | _, _ => return db

/-- Stores a project. -/
def createProject (db : Database) (project name path isRepository commit branch : Value) :
    Result (Database × Int) := do
  db.connect
  db.need .projects
  let project ← bindText 1 project
  let name ← bindText 2 name
  let path ← bindText 3 path
  let isRepository ← bindNumber 4 isRepository
  let commit ← bindText 5 commit
  let branch ← bindText 6 branch
  db.putProject
    { project := ← notNull .projects "project_id" project
      name
      path := ← notNull .projects "path" path
      isRepository, commit, branch }

/-- Notes a scan; a commit or a branch that is empty is not noted. -/
def updateScan (db : Database) (project commit branch : Value) : Result Database := do
  db.connect
  db.need .projects
  let given := [commit, branch].filter Value.truthy
  let commit ← bindFilter 1 commit
  let branch ← bindFilter given.length branch
  match ← bindText (given.length + 1) project with
  | some p => db.noteScan p commit branch
  | none => return db

/-! ## Questions -/

/-- Whether a file with this digest has no symbols in a project. -/
def fileNeedsUpdate (db : Database) (file : String) (digest : String) (project : Value) :
    Result Bool := do
  if digest = "" then return false
  db.connect
  db.need .symbols
  match ← bindText 3 project with
  | some p => db.needsUpdate file digest p
  | none => return true

/-- What is known about a project. -/
def getProject (db : Database) (project : Value) : Result (Option ProjectRow) := do
  db.connect
  db.need .projects
  match ← bindText 1 project with
  | some p => db.projectInfo p
  | none => return none

/-- The symbols whose names contain the text of a value. -/
def search (db : Database) (name language project : Value) : Result (List SymbolRow) := do
  db.connect
  db.need .symbols
  let language' ← bindFilter 2 language
  let project' ← bindFilter (if language.truthy then 3 else 2) project
  db.searchByName (Display.plain name) language' project'

/-- How many rows a limit lets through; a negative one lets all through. -/
def limitOf (position : Nat) (v : Value) : Result (Option Nat) := do
  match ← bindNumber position v with
  | some (.int n) => return if n < 0 then none else some n.toNat
  | _ => .error .mismatch

/-- The symbols nearest to a vector. Distances are not known, so the first symbols stand for them;
only a table that passes for one with distances and is empty gives nothing. -/
def searchByMeaning (db : Database) (limit project : Value) : Result (List SymbolRow) := do
  db.connect
  if db.vectorTable && !db.dropped.contains .symbols then
    let _ ← bind 2 limit
    let _ ← bindFilter 3 project
    let _ ← limitOf 2 limit
    if db.store.embeddings.isEmpty then return []
  db.need .symbols
  let project' ← bindFilter 1 project
  let n ← limitOf (if project.truthy then 2 else 1) limit
  return db.store.firstSymbols n project'

/-- The relationships of a symbol. A direction that is not known needs more bindings than there
are. -/
def relations (db : Database) (symbol kind direction project : Value) : Result (List Edge) := do
  db.connect
  db.need .relationships
  db.need .symbols
  let shown := fun v : Value => if v.truthy then some (Display.plain v) else none
  let filters := ([kind, project].filter Value.truthy).length
  match direction with
  | .text s =>
    match Direction.ofName? s with
    | some d =>
      match ← bindNumber 1 symbol with
      | some c => db.relationsOf c (shown kind) d (shown project)
      | none => return []
    | none => .error (.bindings (3 + filters) (2 + filters))
  | _ => .error (.bindings (3 + filters) (2 + filters))

/-- The relationships of some kinds into the symbols of a name. -/
def edgesInto (db : Database) (name : Value) (kinds relationKinds : List String)
    (project : Value) : Result (List Edge) := do
  db.connect
  db.need .symbols
  let name ← bindText 1 name
  let project ← bindFilter 2 project
  match name with
  | some n => db.edgesIntoNamed n kinds relationKinds project
  | none => return []

/-- The nodes and edges of the dependency graph. -/
def dependencies (db : Database) (project : Value) : Result (List SymbolRow × List Edge) := do
  db.connect
  db.need .relationships
  db.need .symbols
  db.graph (← bindFilter 1 project)

/-- Counts over the store or a project. -/
def count (db : Database) (project : Value) : Result Stats := do
  db.connect
  db.need .symbols
  db.stats (← bindFilter 1 project)

end SymbolAtlas.Database
