/-
  SymbolAtlas.Indexer.File: storing what is found in one file.

  What was stored of the file goes first. The symbols are stored in batches, each symbol with the
  embedding of its text; one that cannot be stored is passed over. Then come the relations that
  start at the symbols. A relation ends at the first symbol that a search for the name of its
  target finds. A finding without the attributes of a symbol stops the work on the file when its
  batch is reached.
-/

import SymbolAtlas.Database.Basic
import SymbolAtlas.Digest
import SymbolAtlas.Indexer.Basic
import SymbolAtlas.Value.Json

namespace SymbolAtlas

namespace Indexer

/-- What has been stored of a file so far. -/
structure Storing where
  db : Database
  /-- the ids of stored symbols by name, the last one first -/
  ids : List (String × Int) := []
  /-- number of symbols stored with an embedding -/
  added : Nat := 0
  /-- texts that the model was given -/
  seen : List String := []

/-! ## Symbols -/

/-- A symbol in the form in which it is stored. -/
def symbolData (project digest : String) (s : Symbol) : SymbolData where
  project := project
  language := s.language
  kind := s.kind
  name := s.name
  file := s.file
  first := .int s.first
  last := .int s.last
  snippet := s.snippet
  digest := digest

/-- Stores a symbol and its embedding, if there is one. -/
def storeSymbol (project digest : String) (st : Storing) (s : Symbol)
    (vector : Option (List Value)) : Storing :=
  match st.db.addSymbol (symbolData project digest s) with
  | .error _ => st
  | .ok (db, id) =>
    let st := { st with db, ids := (s.name, id) :: st.ids }
    match vector with
    | none => st
    | some v =>
      match db.addEmbedding id (.list v) with
      | .ok db => { st with db, added := st.added + 1 }
      | .error _ => st

/-- The symbols of a batch; none when a finding is no symbol. -/
def symbolsOf? (batch : List Parsed) : Option (List Symbol) :=
  batch.mapM fun p => match p.finding with
    | .symbol s => some s
    | .mention _ => none

/-- The text of a symbol that is embedded. -/
def textOf (s : Symbol) : String := Embedding.symbolText s.kind s.name s.snippet

/-- The embeddings of symbols; none without a model. -/
def vectors (model : Option Model) (symbols : List Symbol) : List (Option (List Value)) :=
  match model with
  | some m => (Embedding.batch m (symbols.map textOf)).map some
  | none => symbols.map fun _ => none

/-- The texts that the model is given for symbols. -/
def textsSeen (model : Option Model) (symbols : List Symbol) : List String :=
  match model with
  | some m => Embedding.batchSeen m (symbols.map textOf)
  | none => []

/-- Stores symbols with their embeddings. -/
def storeSymbols (x : Indexer) (project digest : String) (st : Storing)
    (symbols : List Symbol) : Storing :=
  let st := { st with seen := st.seen ++ textsSeen x.model symbols }
  (symbols.zip (vectors x.model symbols)).foldl
    (fun st p => storeSymbol project digest st p.1 p.2) st

/-- Stores batch after batch, up to the first one that holds a finding that is no symbol. -/
def storeBatches (x : Indexer) (project digest : String) (st : Storing) :
    List (List Parsed) → Storing × Option MissingField
  | [] => (st, none)
  | batch :: rest =>
    match symbolsOf? batch with
    | some symbols => storeBatches x project digest (x.storeSymbols project digest st symbols) rest
    | none => (st, some ⟨"symbol_type"⟩)

/-- The size of a batch: small ones for files with many symbols. -/
def batchSize (symbols : Nat) : Nat := if symbols > 1000 then 25 else 100

/-! ## Relations -/

/-- Stores a relation from a symbol; without a target or with a fault it is passed over. -/
def storeRelation (project : String) (source : Int) (db : Database) (r : Relation) : Database :=
  match r.target? with
  | none => db
  | some target =>
    match db.searchByName target none (Store.filterOf project) with
    | .ok (hit :: _) =>
      match db.addRelation
        { project, source := .int source, target := .int hit.id, kind := r.kind
          data := some (Json.write (.object r.fields)) } with
      | .ok (db, _) => db
      | .error _ => db
    | _ => db

/-- Stores the relations of a finding, from the last symbol of its name. -/
def storeRelationsOf (project : String) (ids : List (String × Int)) (db : Database) (p : Parsed) :
    Database :=
  match ids.find? (·.1 == p.finding.name) with
  | some (_, id) => (p.relations.getD []).foldl (storeRelation project id) db
  | none => db

/-! ## A file -/

/-- The result of the work on a file. -/
structure FileOutcome where
  db : Database
  added : Nat := 0
  seen : List String := []
  /-- whether symbols were found and all work was done -/
  processed : Bool := false
  /-- why the work was stopped -/
  error : Option String := none

/-- The digest of a file; empty when it cannot be read. -/
def digestOf (file : Option ByteArray) : String := (file.map Digest.sha256).getD ""

/-- Stores findings of a file. -/
def storeParsed (x : Indexer) (project : String) (language : Option String) (digest : String)
    (parsed : List Parsed) (db : Database) : FileOutcome :=
  let batches := Embedding.chunksOf (batchSize parsed.length - 1) parsed
  match x.storeBatches project digest { db } batches with
  | (st, some e) =>
    { db := st.db, added := st.added, seen := st.seen, error := some ("'" ++ e.key ++ "'") }
  | (st, none) =>
    { db := if x.wantsRelations language then
        parsed.foldl (storeRelationsOf project st.ids) st.db else st.db
      added := st.added, seen := st.seen, processed := true }

/-- Stores what is found in a file in place of what was stored of it. -/
def indexFile (x : Indexer) (project : String) (language : Option String) (path : String)
    (file : Option ByteArray) (db : Database) : FileOutcome :=
  match db.removeFile path project with
  | .error e => { db, error := some e.message }
  | .ok db =>
    match x.parse path file with
    | [] => { db }
    | parsed => x.storeParsed project language (digestOf file) parsed db

end Indexer

end SymbolAtlas
