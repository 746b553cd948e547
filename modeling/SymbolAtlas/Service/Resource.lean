/-
  SymbolAtlas.Service.Resource: views of the store.

  Resources take arguments of any shape and tell them again in their answers.
-/

import SymbolAtlas.Database.Call
import SymbolAtlas.Database.View
import SymbolAtlas.Service.Record

namespace SymbolAtlas

/-- A view of the store. -/
inductive Resource where
  | stats (project : Value)
  | projects
  | symbols (project : Value)
  | languageSymbols (project language : Value)
  | search (project query : Value)
  | files (project : Value)
  | languages (project : Value)
  | callers (project name : Value)
  | implementations (project name : Value)
  | relationships (project name : Value)
  | dependencies (project : Value)
  | hierarchy (project name : Value)

namespace Resource

/-! ## Counts and lists -/

/-- Counts of a project, and the model if texts are embedded. -/
def statsView (db : Database) (embedder : Option (Option Model)) (project : Value) :
    Answer Value := do
  let counts ← Answer.ofDatabase (db.count project)
  let model ← match embedder with
    | some m => (Embedding.info m).mapError .embedding
    | none => .ok []
  return .object [("database_stats", .object (counts.fields db.vectorTable project)),
    ("embedding_model", .object model)]

/-- All projects. -/
def projectsView (db : Database) : Answer Value := do
  return .list ((← Answer.ofDatabase db.summaries).map fun s => .object s.fields)

/-- The stored symbols of a project. -/
def rowsOf (db : Database) (project : Value) : Database.Result (List SymbolRow) := do
  db.connect
  db.need .symbols
  match ← Database.bindText 1 project with
  | some p => return db.store.inScope none (some p)
  | none => return []

/-- The symbols of a project. Rows cannot be shown, so there is an answer only without them. -/
def symbolsView (db : Database) (project : Value) : Answer Value := do
  if !(← Answer.ofDatabase (rowsOf db project)).isEmpty then .error .rowShape
  return .object [("project_id", project), ("total_symbols", .ofNat 0), ("symbols", .list [])]

/-- The symbols of a language in a project. Rows cannot be shown, so there is an answer only
without them. -/
def languageSymbolsView (db : Database) (project language : Value) : Answer Value := do
  let rows ← Answer.ofDatabase (rowsOf db project)
  let language' ← Answer.ofDatabase (Database.bindText 2 language)
  if rows.any fun r => language' == some r.language then .error .rowShape
  return .object [("project_id", project), ("language", language), ("total_symbols", .ofNat 0),
    ("symbols", .list [])]

/-- The symbols of a project whose names contain a text. -/
def searchView (db : Database) (project query : Value) : Answer Value := do
  let rows ← Answer.ofDatabase (db.search query .null project)
  return .object [("query", query), ("project_id", project), ("total_results", .ofNat rows.length),
    ("results", .list (rows.map fun r => .object r.fields))]

/-- The files of a project, each with its language. -/
def filesView (db : Database) (project : Value) : Answer Value := do
  let rows ← Answer.ofDatabase (rowsOf db project)
  let files := sortByKey (fun f : String × String => [.text f.1, .text f.2])
    (rows.map fun r => (r.file, r.language)).eraseDups
  return .object [("project_id", project), ("total_files", .ofNat files.length),
    ("files", .list (files.map fun f =>
      .object [("file_path", .text f.1), ("language", .text f.2)]))]

/-- The languages of a project, the most frequent one first. -/
def languagesView (db : Database) (project : Value) : Answer Value := do
  let rows ← Answer.ofDatabase (rowsOf db project)
  let counts := sortByKey (fun c : String × Nat => [.int (-c.2), .text c.1])
    (tally (rows.map (·.language)))
  return .object [("project_id", project), ("total_languages", .ofNat counts.length),
    ("languages", .list (counts.map fun c =>
      .object [("language", .text c.1), ("symbol_count", .ofNat c.2)]))]

/-! ## Relationships -/

/-- The name, kind and place of a symbol. -/
def placeFields (r : SymbolRow) : List (String × Value) :=
  [("name", .text r.name), ("type", .text r.kind), ("file", .text r.file),
   ("line", r.first.toValue)]

/-- A relationship into a symbol. -/
def edgeInto (source target : String) (e : Edge) : Value :=
  .object
    [(source, .object (placeFields e.source ++ [("code", .text e.source.snippet)])),
     (target, .object [("name", .text e.target.name), ("file", .text e.target.file),
       ("line", e.target.first.toValue)])]

/-- The callers of the functions of a name. -/
def callersView (db : Database) (project name : Value) : Answer Value := do
  let edges ← Answer.ofDatabase (db.edgesInto name Store.callableKinds ["calls"] project)
  return .object [("function_name", name), ("project_id", project),
    ("total_callers", .ofNat edges.length),
    ("callers", .list (edges.map (edgeInto "caller" "function")))]

/-- The implementations of the interfaces of a name. -/
def implementationsView (db : Database) (project name : Value) : Answer Value := do
  let edges ← Answer.ofDatabase
    (db.edgesInto name Store.abstractKinds Store.implementingKinds project)
  return .object [("interface_name", name), ("project_id", project),
    ("total_implementations", .ofNat edges.length),
    ("implementations", .list (edges.map (edgeInto "implementation" "interface")))]

/-- A relationship of a symbol. -/
def edgeOf (symbol : SymbolRow) (e : Edge) : Value :=
  let id := Cell.int symbol.id
  .object
    [("symbol", .object (placeFields symbol)),
     ("relationship", .object
        [("type", .text e.relation.kind), ("direction", .text (e.directionFrom id)),
         ("data", .ofText? e.relation.data)]),
     ("related_symbol", .object (placeFields (e.related id)))]

/-- The relationships of the symbols whose names contain a text. -/
def relationshipsView (db : Database) (project name : Value) : Answer Value := do
  match ← Answer.ofDatabase (db.search name .null project) with
  | [] => return .object [("symbol_name", name), ("project_id", project),
      ("error", "Symbol not found")]
  | hits =>
    let found ← hits.mapM fun symbol => do
      let edges ← Answer.ofDatabase (db.relations (.int symbol.id) .null "both" project)
      return edges.map (edgeOf symbol)
    return .object [("symbol_name", name), ("project_id", project),
      ("total_relationships", .ofNat found.flatten.length),
      ("relationships", .list found.flatten)]

/-- The dependency graph of a project. -/
def dependenciesView (db : Database) (project : Value) : Answer Value := do
  let (nodes, edges) ← Answer.ofDatabase (db.dependencies project)
  return .object (("project_id", project) :: graphFields nodes edges)

/-- Callers and callees of a function. -/
def hierarchyView (db : Database) (project name : Value) : Answer Value := do
  match ← Answer.ofDatabase (db.search name .null project) with
  | [] => return .object [("function_name", name), ("project_id", project),
      ("error", "Function not found")]
  | hits =>
    let callers ← Answer.ofDatabase (db.edgesInto name Store.callableKinds ["calls"] project)
    let callees ← hits.mapM fun f =>
      Answer.ofDatabase (db.relations (.int f.id) "calls" "outgoing" project)
    return .object
      [("function", .object [("name", name), ("project_id", project)]),
       ("callers", .list (callers.map fun e => .object (placeFields e.source))),
       ("callees", .list (callees.flatten.map fun e => .object (placeFields e.target)))]

end Resource

namespace Server

/-- Shows a view of the store. -/
def view (s : Server) (r : Resource) : Answer Value :=
  match s.database with
  | none => .error .notReady
  | some db =>
    match r with
    | .stats project => Resource.statsView db s.embedder project
    | .projects => Resource.projectsView db
    | .symbols project => Resource.symbolsView db project
    | .languageSymbols project language => Resource.languageSymbolsView db project language
    | .search project query => Resource.searchView db project query
    | .files project => Resource.filesView db project
    | .languages project => Resource.languagesView db project
    | .callers project name => Resource.callersView db project name
    | .implementations project name => Resource.implementationsView db project name
    | .relationships project name => Resource.relationshipsView db project name
    | .dependencies project => Resource.dependenciesView db project
    | .hierarchy project name => Resource.hierarchyView db project name

end Server

end SymbolAtlas
