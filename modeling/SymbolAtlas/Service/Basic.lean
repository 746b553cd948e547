/-
  SymbolAtlas.Service.Basic: the parts of a server, and why a request fails.
-/

import SymbolAtlas.Indexer.Run
import SymbolAtlas.Schema.Records

namespace SymbolAtlas

/-- Why a request has no answer. -/
inductive ServiceError where
  /-- a part of the server that the request needs is missing -/
  | notReady
  | database (e : DatabaseError)
  | invalid (r : Schema.Refusal)
  | notMember (e : Enumeration) (value : String)
  | missingKey (key : String)
  | embedding (f : Embedding.Failure)
  /-- rows cannot be turned into records -/
  | rowShape
  deriving DecidableEq, Repr

namespace ServiceError

/-- The wording of an error. -/
def message : ServiceError → String
  | .notReady => "Server not properly initialized"
  | .database e => e.message
  | .invalid r => r.message
  | .notMember e value => e.refusal (.text value)
  | .missingKey key => "'" ++ key ++ "'"
  | .embedding f => f.message
  | .rowShape => "cannot convert dictionary update sequence element #0 to a sequence"

end ServiceError

/-- The result of a request. -/
abbrev Answer (α : Type) := Except ServiceError α

namespace Answer

/-- The result of a database operation. -/
def ofDatabase {α : Type} (r : Database.Result α) : Answer α := r.mapError .database

/-- Builds a record. -/
def record (r : Record) (given : List (String × Value)) : Answer Value :=
  ((r.build given).mapError .invalid).map .object

/-- A value that must be a member. -/
def member (e : Enumeration) (s : String) : Answer Value :=
  if e.members.contains s then .ok (.text s) else .error (.notMember e s)

end Answer

/-- The parts of a server, each of which may be missing. -/
structure Server where
  database : Option Database := none
  /-- the part that embeds texts; its model may be missing -/
  embedder : Option (Option Model) := none
  analyzer : Option Analyzer := none

/-- What a request gives and leaves behind. -/
structure Reply where
  answer : Answer (List (String × Value))
  /-- the database, when it was changed -/
  database : Option Database := none
  /-- texts that the model was given -/
  seen : List String := []
  events : List Event := []

/-! ## Counts -/

namespace Stats

/-- Counts of nothing. -/
def none : Stats := ⟨0, 0, [], 0, 0, []⟩

/-- Counts as a record. Languages are in the order of their names. -/
def record (s : Stats) : Value :=
  .object
    [("total_symbols", .ofNat s.symbols), ("total_files", .ofNat s.files),
     ("total_projects", .ofNat 0), ("total_relationships", .ofNat s.relations),
     ("total_embeddings", .ofNat 0),
     ("languages", tallyValue (sortByKey (fun c => [.text c.1]) s.languages)),
     ("symbol_types", .object [])]

end Stats

end SymbolAtlas
