/-
  SymbolAtlas.Service.Tool: the requests that a server answers with records.

  Most requests answer with an error inside the record. Those about callers, implementations,
  relationships, the dependency graph and the call hierarchy fail as a whole.
-/

import SymbolAtlas.Database.Call
import SymbolAtlas.Service.Record

namespace SymbolAtlas

/-- A request to a server. -/
inductive Request where
  | index (path project : String)
  | searchByName (name : String) (language project : Option String)
  | searchByMeaning (query : String) (limit : Int) (project : Option String)
  | listProjects
  | forceFullScan (project : String)
  | deleteProject (project : String)
  | projectInfo (project : String)
  | stats (project : Option String)
  | health
  | callers (name : String) (project : Option String)
  | implementations (name : String) (project : Option String)
  | relationships (name : String) (kind : Option String) (direction : Direction)
      (project : Option String)
  | graph (project : Option String) (depth : Int)
  | hierarchy (name : String) (project : Option String) (depth : Int)
  deriving DecidableEq, Repr

namespace Tool

/-- A filter that is given and not empty. -/
def filter (given : Option String) : Option String := given.bind Store.filterOf

/-- The error of a record: none on success. -/
def errorOf {α : Type} : Answer α → Value
  | .ok _ => .null
  | .error e => .text e.message

/-- Whether there is no error. -/
def success {α : Type} : Answer α → Value
  | .ok _ => .bool true
  | .error _ => .bool false

/-- The items of a list answer; none after an error. -/
def items : Answer (List Value) → List Value
  | .ok vs => vs
  | .error _ => []

/-! ## Indexing and searching -/

/-- Indexes a directory. -/
def index (x : Indexer) (w : Workspace) (path project : String) (db : Database) : Reply :=
  let (s, report) := x.run w path project db
  { answer := .ok report.fields, database := some s.db, seen := s.seen, events := s.events }

/-- Searches for symbols by name. -/
def searchByName (db : Database) (name : String) (language project : Option String) : Reply :=
  let results : Answer (List Value) := do
    (← Answer.ofDatabase (db.searchByName name (filter language) (filter project))).mapM
      (SymbolRow.found [])
  { answer := .ok
      [("success", success results), ("query", .text name), ("language_filter", .ofText? language),
       ("project_filter", .ofText? project), ("total_results", .ofNat (items results).length),
       ("results", .list (items results)), ("error", errorOf results)] }

/-- Searches for symbols by meaning. All of them have the same score. -/
def searchByMeaning (db : Database) (model : Option Model) (query : String) (limit : Int)
    (project : Option String) : Reply :=
  let results : Answer (List Value) := do
    if model.isNone then .error (.embedding .notLoaded)
    (← Answer.ofDatabase (db.searchByMeaning (.int limit) (.ofText? project))).mapM
      (SymbolRow.found [("score", .float 0.0)])
  { answer := .ok
      [("success", success results), ("query", .text query), ("top_k", .int limit),
       ("project_filter", .ofText? project), ("total_results", .ofNat (items results).length),
       ("results", .list (items results)), ("error", errorOf results)]
    seen := if model.isSome then [query] else [] }

/-! ## Projects -/

/-- Lists the projects. A project that has symbols is asked for a name, which it does not have. -/
def listProjects (db : Database) : Reply :=
  let projects : Answer (List Value) := do
    match ← Answer.ofDatabase db.summaries with
    | [] => return []
    | s :: _ =>
      let _ ← Answer.ofDatabase (db.projectInfo s.project)
      .error (.missingKey "name")
  { answer := .ok
      [("success", success projects), ("total_projects", .ofNat (items projects).length),
       ("projects", .list (items projects)), ("error", errorOf projects)] }

/-- Asks for a full scan next time. A scan is noted without a commit, which keeps the commit that
is stored. -/
def forceFullScan (db : Database) (project : String) : Reply :=
  let noted := Answer.ofDatabase (db.noteScan project none none)
  let done := "Project " ++ project ++ " marked for full rescan"
  { answer := .ok
      [("success", success noted), ("project_id", .text project),
       ("message", .text (match noted with | .ok _ => done | .error _ => "")),
       ("error", errorOf noted)]
    database := noted.toOption
    events := .info ("Clearing git tracking for project: " ++ project) ::
      match noted with
      | .ok _ => [.info "Git tracking cleared. Next scan will be full."]
      | .error _ => [] }

/-- Deletes the symbols of a project. -/
def deleteProject (db : Database) (project : String) : Reply :=
  let before := Answer.ofDatabase (db.stats (Store.filterOf project))
  let after := before.bind fun _ => Answer.ofDatabase (db.removeProject project)
  let counts := match before, after with
    | .ok s, .ok _ => s
    | _, _ => .none
  { answer := .ok
      [("success", success after), ("project_id", .text project),
       ("deleted_symbols", .ofNat counts.symbols), ("deleted_files", .ofNat counts.files),
       ("message", .text (match after with
          | .ok _ => "Project " ++ project ++ " deleted successfully"
          | .error _ => "")),
       ("error", errorOf after)]
    database := after.toOption
    events :=
      [.info ("Starting deletion of project: " ++ project), .progress 0] ++
      (match before with
        | .ok s => [.info ("Found " ++ toString s.symbols ++ " symbols to delete"), .progress 25]
        | .error _ => []) ++
      (match after with
        | .ok _ => [.info "Project deletion completed", .progress 100]
        | .error _ => []) }

/-- The state of a repository as a record. A repository without a branch is told as an error. -/
def repositoryRecord (w : Workspace) (path : String) : Answer Value :=
  let root := Path.parse path
  let branch : Value := (Value.field? "current_branch"
    (Repository.info root (w.repository? root))).getD (.text "")
  let build := fun (branch status : Value) => Answer.record Schema.gitInfo
    [("current_branch", branch), ("current_commit_hash", ""), ("remote_url", .null),
     ("status", status)]
  match build branch .null with
  | .ok v => .ok v
  | .error e => build "" (.text ("Error: " ++ e.message))

/-- Tells what is known about a project. -/
def projectInfo (w : Workspace) (db : Database) (project : String) : Reply :=
  let known : Answer (Option ProjectRow) := Answer.ofDatabase (db.projectInfo project)
  let parts : Answer (Value × Value × Value) := do
    match ← known with
    | none => return (.null, .null, .null)
    | some p =>
      let repository ← if p.flag && p.path != "" then repositoryRecord w p.path else .ok .null
      let stats ← Answer.ofDatabase (db.stats (Store.filterOf project))
      let record ← Answer.record Schema.projectInfo
        [("project_id", .text p.project), ("name", .ofText? p.name), ("path", .text p.path),
         ("is_git_repo", .bool p.flag), ("last_commit_hash", .ofText? p.commit),
         ("last_branch", .ofText? p.branch), ("last_scan_time", timeMark)]
      return (record, repository, stats.record)
  let answer := fun (ok : Bool) (record repository stats error : Value) =>
    [("success", Value.bool ok), ("project_info", record), ("git_info", repository),
     ("database_stats", stats), ("error", error)]
  { answer := .ok (match known, parts with
      | .ok none, _ =>
        answer false .null .null .null (.text ("Project " ++ project ++ " not found"))
      | _, .ok (record, repository, stats) => answer true record repository stats .null
      | _, .error e => answer false .null .null .null (.text e.message)) }

/-! ## The server itself -/

/-- What is told about the model. -/
def modelRecord (model : Option Model) : Answer Value := do
  let info ← (Embedding.info model).mapError .embedding
  Answer.record Schema.modelInfo
    [("model_name", (Value.field? "model_name" info).getD (.text "")),
     ("model_dimensions", .ofNat 0), ("model_provider", "")]

/-- Counts what is stored. -/
def stats (db : Database) (embedder : Option (Option Model)) (project : Option String) : Reply :=
  let parts : Answer (Value × Value) := do
    let counts ← Answer.ofDatabase (db.stats (filter project))
    let model ← match embedder with
      | some m => modelRecord m
      | none => .ok .null
    return (counts.record, model)
  let (counts, model) := match parts with
    | .ok p => p
    | .error _ => (Stats.none.record, .null)
  { answer := .ok
      [("success", success parts), ("database_stats", counts), ("embedding_model", model),
       ("error", errorOf parts)] }

/-- The state of a part of the server, by a test of it. -/
def stateOf {α : Type} : Option (Answer α) → Value
  | none => "unknown"
  | some (.ok _) => "healthy"
  | some (.error e) => .text ("error: " ++ e.message)

/-- Tests all parts of the server. -/
def health (s : Server) : Reply :=
  let database := s.database.map fun db => Answer.ofDatabase (db.stats none)
  let embedder := s.embedder.map fun m =>
    ((Embedding.info m).mapError .embedding : Answer (List (String × Value)))
  let analyzer := s.analyzer.map fun _ => (.ok () : Answer Unit)
  { answer := .ok
      [("success", .bool true),
       ("health", .object
          [("server", "running"), ("database", stateOf database),
           ("embeddings", stateOf embedder), ("parser", stateOf analyzer)]),
       ("error", .null)] }

/-! ## Relationships -/

/-- The callers of the functions of a name. -/
def callers (db : Database) (name : String) (project : Option String) : Reply where
  answer := do
    let edges ← Answer.ofDatabase (db.callers name (filter project))
    let records ← edges.mapM fun e => e.callerRecord project
    return [("function_name", .text name), ("project_id", .ofText? project),
      ("total_callers", .ofNat records.length), ("callers", .list records)]
  events := [.info ("Searching for callers of function '" ++ name ++ "'")]

/-- The implementations of the interfaces of a name. -/
def implementations (db : Database) (name : String) (project : Option String) : Reply where
  answer := do
    let edges ← Answer.ofDatabase (db.implementations name (filter project))
    let records ← edges.mapM fun e => e.implementationRecord project
    return [("interface_name", .text name), ("project_id", .ofText? project),
      ("total_implementations", .ofNat records.length), ("implementations", .list records)]
  events := [.info ("Searching for implementations of '" ++ name ++ "'")]

/-- The relationships of the symbols whose names contain a text. -/
def relationships (db : Database) (name : String) (kind : Option String) (direction : Direction)
    (project : Option String) : Reply where
  answer := do
    let symbols ← Answer.ofDatabase (db.searchByName name none (filter project))
    let records ← symbols.mapM fun symbol => do
      let edges ← Answer.ofDatabase
        (db.relationsOf (.int symbol.id) kind direction (filter project))
      edges.mapM fun e => e.relationshipRecord symbol
    return [("symbol_name", .text name), ("project_id", .ofText? project),
      ("relationship_type", .ofText? kind), ("direction", .text direction.name),
      ("total_relationships", .ofNat records.flatten.length),
      ("relationships", .list records.flatten),
      ("error", if symbols.isEmpty then "Symbol not found" else .null)]
  events := [.info ("Getting relationships for symbol '" ++ name ++ "'")]

/-- The dependency graph. -/
def graph (db : Database) (project : Option String) (depth : Int) : Reply where
  answer := do
    let (nodes, edges) ← Answer.ofDatabase (db.graph (filter project))
    let records ← nodes.mapM SymbolRow.nodeRecord
    return [("project_id", .ofText? project), ("max_depth", .int depth),
      ("total_nodes", .ofNat nodes.length), ("total_edges", .ofNat edges.length),
      ("nodes", .list records), ("edges", .list [])]
  events := [.info ("Generating dependency graph for project '" ++
    (filter project).getD "all" ++ "'")]

/-- Callers and callees of a function, which is the first one that a search for its name finds. -/
def hierarchy (db : Database) (name : String) (project : Option String) (depth : Int) : Reply where
  answer := do
    let answer := fun (function : Value) (callers callees : List Value) (error : Value) =>
      [("function", function), ("project_id", .ofText? project), ("callers", .list callers),
       ("callees", .list callees), ("max_depth", .int depth), ("error", error)]
    match ← Answer.ofDatabase (db.searchByName name none (filter project)) with
    | [] =>
      let function := Value.object [("name", .text name), ("file", ""), ("line", .ofNat 0)]
      return answer function [] [] "Function not found"
    | first :: rest =>
      let function ← Answer.record Schema.function
        [("name", .text name), ("file", .text first.file), ("line", first.first.toValue)]
      let callers ← (← Answer.ofDatabase (db.callers name (filter project))).mapM fun e =>
        e.source.placed Schema.caller []
      let callees ← (first :: rest).mapM fun f => do
        let edges ← Answer.ofDatabase
          (db.relationsOf (.int f.id) (some "calls") .outgoing (filter project))
        edges.mapM fun e => e.target.placed Schema.caller []
      return answer function callers callees.flatten .null
  events := [.info ("Analyzing call hierarchy for '" ++ name ++ "'")]

end Tool

namespace Server

/-- A server with a part that is needed. -/
def need {α : Type} (part : Option α) (reply : α → Reply) : Reply :=
  match part with
  | some a => reply a
  | none => { answer := .error .notReady }

/-- Answers a request. -/
def answer (s : Server) (w : Workspace) (r : Request) : Reply :=
  match r with
  | .health => Tool.health s
  | .index path project =>
    need s.database fun db => need s.embedder fun m => need s.analyzer fun a =>
      Tool.index (.ofAnalyzer a m) w path project db
  | .searchByMeaning query limit project =>
    need s.database fun db => need s.embedder fun m => Tool.searchByMeaning db m query limit project
  | .searchByName name language project =>
    need s.database fun db => Tool.searchByName db name language project
  | .listProjects => need s.database Tool.listProjects
  | .forceFullScan project => need s.database fun db => Tool.forceFullScan db project
  | .deleteProject project => need s.database fun db => Tool.deleteProject db project
  | .projectInfo project => need s.database fun db => Tool.projectInfo w db project
  | .stats project => need s.database fun db => Tool.stats db s.embedder project
  | .callers name project => need s.database fun db => Tool.callers db name project
  | .implementations name project => need s.database fun db => Tool.implementations db name project
  | .relationships name kind direction project =>
    need s.database fun db => Tool.relationships db name kind direction project
  | .graph project depth => need s.database fun db => Tool.graph db project depth
  | .hierarchy name project depth => need s.database fun db => Tool.hierarchy db name project depth

end Server

end SymbolAtlas
