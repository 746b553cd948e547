/-
  SymbolAtlas.Session: a server at work on files, repositories and a database.

  A session begins with parts that are given to it. Starting the server replaces them: the database
  by one of the server's own, which later starts find again, the model by the one that is installed
  and the analyzer by one without grammars. Opening the given database anew goes back to it.
-/

import SymbolAtlas.Schema.Basic
import SymbolAtlas.Service.Resource
import SymbolAtlas.Service.Tool

namespace SymbolAtlas

/-- Which parts of the server are there. -/
structure Parts where
  database : Bool := true
  embedder : Bool := true
  analyzer : Bool := true
  deriving DecidableEq, Repr

/-- A session. -/
structure Session where
  workspace : Workspace := {}
  /-- the database that was given -/
  given : Database := {}
  /-- the server's own database, once the server was started -/
  own : Option Database := none
  /-- whether the server works on its own database -/
  onOwn : Bool := false
  /-- the model that can be installed -/
  installable : Model
  embedder : Option Model
  analyzer : Analyzer
  parts : Parts := {}
  /-- texts that the model was given -/
  seen : List String := []

namespace Session

/-- The database that the server works on. -/
def served (s : Session) : Database := if s.onOwn then s.own.getD {} else s.given

/-- The session after a change of the database that the server works on. -/
def withServed (s : Session) (db : Database) : Session :=
  if s.onOwn then { s with own := some db } else { s with given := db }

/-- Opens the given database anew and works on it. -/
def reopen (s : Session) : Database.Result Session := do
  return { s with given := ← s.given.reopen, onOwn := false }

/-- Makes the extension fail, or work again, on all databases. -/
def setBroken (s : Session) (broken : Bool) : Session :=
  { s with given := { s.given with broken }, own := s.own.map fun db => { db with broken } }

/-- The server with the parts that are there. -/
def server (s : Session) : Server where
  database := if s.parts.database then some s.served else none
  embedder := if s.parts.embedder then some s.embedder else none
  analyzer := if s.parts.analyzer then some s.analyzer else none

/-- Answers a request and keeps what it leaves behind. -/
def request (s : Session) (r : Request) : Session × Reply :=
  let reply := s.server.answer s.workspace r
  let s := { s with seen := s.seen ++ reply.seen }
  (match reply.database with
    | some db => s.withServed db
    | none => s, reply)

/-- The file of the server's own database. -/
def ownFile : String := "codebase_analyzer.db"

/-- Opens the server's own database. -/
def openOwn (s : Session) : Answer Session := do
  let db ← Answer.ofDatabase (s.own.getD { broken := s.given.broken }).reopen
  return { s with
    own := some db
    onOwn := true
    workspace := s.workspace.write ownFile ByteArray.empty
    parts := { s.parts with database := true } }

/-- Starts the server with the models that are installed. When the model is not there, the database
is open all the same. -/
def start (s : Session) (installed : List String) : Session × Answer Unit :=
  match s.openOwn with
  | .error e => (s, .error e)
  | .ok s =>
    match Embedding.load installed Embedding.defaultModel with
    | .error f => (s, .error (.embedding f))
    | .ok name =>
      ({ s with
          embedder := some { s.installable with name }
          analyzer := { dialect := .code, captures := s.analyzer.captures
                        hash := s.analyzer.hash }
          parts := {} }, .ok ())

/-- The name of the server. -/
def serverName : String := "codebase-analyzer"

/-- Starts the server and lets it run; the answer is the transport that it runs on. -/
def serve (s : Session) (installed : List String) : Session × Answer String :=
  let (s, started) := s.start installed
  (s, started.map fun () => "stdio")

/-- What is indexed by the script. -/
def scriptPath : String := "./test_codebase"

/-- The project of the script. -/
def scriptProject : String := "test-project"

/-- Starts the server, indexes a fixed directory and prints the report. -/
def script (s : Session) (installed grammars : List String) (query : String → Option String) :
    Session × Answer String :=
  match s.start installed with
  | (s, .error e) => (s, .error e)
  | (s, .ok ()) =>
    let s := { s with analyzer := { s.analyzer with grammars, query } }
    let (s, reply) := s.request (.index scriptPath scriptProject)
    (s, reply.answer.map fun fields =>
      "Indexing result: " ++ Schema.indexAnswer.show fields ++ "\n")

end Session

end SymbolAtlas
