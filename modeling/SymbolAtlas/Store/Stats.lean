/-
  SymbolAtlas.Store.Stats: counting what is stored.
-/

import SymbolAtlas.Store.Graph

namespace SymbolAtlas

/-- How often each text occurs, in the order of first occurrences. -/
def tally (texts : List String) : List (String × Nat) :=
  texts.eraseDups.map fun t => (t, (texts.filter (· == t)).length)

/-- Counts as an object. -/
def tallyValue (counts : List (String × Nat)) : Value :=
  .object (counts.map fun c => (c.1, .ofNat c.2))

/-- Counts over the store or over one project. -/
structure Stats where
  symbols : Nat
  embedded : Nat
  languages : List (String × Nat)
  files : Nat
  relations : Nat
  kinds : List (String × Nat)
  deriving DecidableEq, Repr

/-- Counts over the symbols of a project. -/
structure ProjectSummary where
  project : String
  symbols : Nat
  files : Nat
  languages : Nat
  deriving DecidableEq, Repr

namespace Store

/-- The relationships of a project. -/
def relationsIn (st : Store) (project : Option String) : List RelationRow :=
  st.relations.filter fun r => passes project r.project

/-- The number of embeddings: all of them, or those of a project's symbols. -/
def embeddedIn (st : Store) (project : Option String) : Nat :=
  match project with
  | none => st.embeddings.length
  | some p => (st.embeddings.filter fun e =>
      st.symbols.any fun r => r.id == e.id && r.project == p).length

/-- The files of symbols, each once. -/
def filesOf (rows : List SymbolRow) : List String := (rows.map (·.file)).eraseDups

/-- Counts over the store or over one project. -/
def stats (st : Store) (project : Option String) : Stats :=
  let rows := st.inScope none project
  let relations := st.relationsIn project
  { symbols := rows.length
    embedded := st.embeddedIn project
    languages := tally (rows.map (·.language))
    files := (filesOf rows).length
    relations := relations.length
    kinds := tally (relations.map (·.kind)) }

/-- The symbols of a project, counted. -/
def summary (st : Store) (project : String) : ProjectSummary :=
  let rows := st.inScope none (some project)
  { project, symbols := rows.length, files := (filesOf rows).length
    languages := (rows.map (·.language)).eraseDups.length }

/-- The order of projects: the largest first, then by name. -/
def summaryKey (s : ProjectSummary) : List Cell := [.int (-s.symbols), .text s.project]

/-- All projects that have symbols. -/
def summaries (st : Store) : List ProjectSummary :=
  sortByKey summaryKey ((st.symbols.map (·.project)).eraseDups.map st.summary)

end Store

end SymbolAtlas
