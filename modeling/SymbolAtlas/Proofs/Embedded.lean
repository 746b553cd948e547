/-
  SymbolAtlas.Proofs.Embedded: symbols that are stored with their embeddings.

  The work on a file cuts its symbols into batches and stores each symbol with the vector that the
  model gives for it. Where the batches begin and end plays no part in how symbols are stored, so
  that the work on a file is the removal of its symbols and one list of symbols with their vectors
  that are stored one after another (`indexFile_intact`). Relationships aside, this is all that
  happens to the tables.
-/

import SymbolAtlas.Proofs.Links
import SymbolAtlas.Proofs.Write

namespace SymbolAtlas

namespace Store

/-- Stores a symbol, and its embedding if there is one. -/
def insertEmbedded (st : Store) (d : SymbolData) (vector : Option Value) : Store :=
  match vector with
  | none => (st.insertSymbol d).1
  | some v => (st.insertSymbol d).1.putEmbedding (st.insertSymbol d).2 v

/-- Stores symbols with their embeddings, one after another. -/
def insertAllEmbedded (st : Store) (items : List (SymbolData × Option Value)) : Store :=
  items.foldl (fun st item => st.insertEmbedded item.1 item.2) st

theorem insertAllEmbedded_cons (st : Store) (item : SymbolData × Option Value)
    (rest : List (SymbolData × Option Value)) :
    st.insertAllEmbedded (item :: rest)
      = (st.insertEmbedded item.1 item.2).insertAllEmbedded rest := rfl

@[simp] theorem symbols_insertEmbedded (st : Store) (d : SymbolData) (vector : Option Value) :
    (st.insertEmbedded d vector).symbols = (st.insertSymbol d).1.symbols := by
  cases vector <;> rfl

@[simp] theorem shared_insertEmbedded (st : Store) (d : SymbolData) (vector : Option Value) :
    (st.insertEmbedded d vector).shared = st.shared := by
  cases vector <;> rfl

/-- A symbol gets a larger id than all that are there. -/
theorem lt_insertSymbol_id {st : Store} {r : SymbolRow} (h : r ∈ st.symbols) (d : SymbolData) :
    r.id < (st.insertSymbol d).2 :=
  lt_nextId (List.mem_map_of_mem h)

/-- With one more symbol, those that it takes the place of are gone. -/
theorem mem_symbols_insertEmbedded {st : Store} {d : SymbolData} {vector : Option Value}
    {r : SymbolRow} :
    r ∈ (st.insertEmbedded d vector).symbols ↔
      r ∈ st.symbols ∧ clash st.shared r.toSymbolData d = false ∨
        r = ⟨d, (st.insertSymbol d).2⟩ := by
  rw [symbols_insertEmbedded, insertSymbol, List.mem_append, List.mem_filter, List.mem_singleton,
    Bool.not_eq_true']

theorem mem_rowsOf_insertEmbedded {st : Store} {project file : String} {d : SymbolData}
    {vector : Option Value} {r : SymbolRow}
    (h : r ∈ (st.insertEmbedded d vector).rowsOf project file) :
    r ∈ st.rowsOf project file ∨ r = ⟨d, (st.insertSymbol d).2⟩ := by
  obtain ⟨hmem, hproject, hfile⟩ := mem_rowsOf.mp h
  rcases mem_symbols_insertEmbedded.mp hmem with ⟨hold, -⟩ | hnew
  · exact .inl (mem_rowsOf.mpr ⟨hold, hproject, hfile⟩)
  · exact .inr hnew

theorem dataOf_insertEmbedded (st : Store) {d : SymbolData} (vector : Option Value)
    {project file : String} (hproject : d.project = project) (hfile : d.file = file) :
    (st.insertEmbedded d vector).dataOf project file
      = SymbolData.upsert (st.dataOf project file) d := by
  rw [← dataOf_insertSymbol_same st hproject hfile, dataOf, dataOf, rowsOf, rowsOf,
    symbols_insertEmbedded]

end Store

theorem Database.clearable_intact (st : Store) : (intact st).Clearable :=
  ⟨rfl, List.not_mem_nil, List.not_mem_nil⟩

namespace Indexer

variable {x : Indexer} {project : String}

/-- A symbol is stored with its vector. -/
theorem storeSymbol_intact {st : Store} {storing : Storing} (h : storing.db = .intact st)
    (digest : String) (s : Symbol) (vector : Option (List Value)) :
    (storeSymbol project digest storing s vector).db
      = .intact (st.insertEmbedded (symbolData project digest s) (vector.map .list)) := by
  rw [storeSymbol, h, Database.addSymbol_intact]
  cases vector <;> rfl

/-- Symbols are stored with their vectors, one after another. -/
theorem storeEach_intact {st : Store} {storing : Storing} (h : storing.db = .intact st)
    (digest : String) (items : List (Symbol × Option (List Value))) :
    (storeEach project digest storing items).db
      = .intact (st.insertAllEmbedded
          (items.map fun item => (symbolData project digest item.1, item.2.map .list))) := by
  induction items generalizing st storing with
  | nil => exact h
  | cons item rest ih => exact ih (storeSymbol_intact h digest item.1 item.2)

/-! ## A file -/

/-- The symbols of a file in the form in which they are to be stored, with their vectors; none when
a finding is no symbol. -/
def embedded (x : Indexer) (project path : String) (file : Option ByteArray) :
    List (SymbolData × Option Value) :=
  match symbolsOf? (x.parse path file) with
  | some symbols =>
    (itemsOf x.model (Embedding.chunksOf (batchSize symbols.length - 1) symbols)).map
      fun item => (symbolData project (digestOf file) item.1, item.2.map .list)
  | none => []

theorem embedded_fst (x : Indexer) (project path : String) (file : Option ByteArray) :
    (x.embedded project path file).map (·.1) = x.storable project path file := by
  rw [embedded, storable]
  cases symbolsOf? (x.parse path file) with
  | none => rfl
  | some symbols =>
      have hitems := itemsOf_fst x.model
        (Embedding.chunksOf (batchSize symbols.length - 1) symbols)
      rw [Embedding.flatten_chunksOf] at hitems
      dsimp only
      conv_rhs => rw [← hitems]
      rw [List.map_map, List.map_map]
      rfl

/-- The work on a file in a database without faults, up to its relationships: unless it has too many
symbols, the file is cleared, and what is found in it is stored with its vectors. -/
theorem indexFile_intact (hx : x.Lawful) {st : Store} {project path : String}
    (hfits : (Database.intact st).Fits project path) (language : Option String)
    (file : Option ByteArray) :
    ∃ relations, (x.indexFile project language path file (.intact st)).db
      = .intact { (st.removeFile path project).insertAllEmbedded
          (x.embedded project path file) with relations } := by
  have hclear : (Database.intact st).removeFile path project
      = .ok (.intact (st.removeFile path project)) :=
    (Database.clearable_intact st).removeFile hfits
  cases hx.found path file with
  | nothing hparse =>
      have hnone : x.embedded project path file = [] := by
        have hfst := x.embedded_fst project path file
        rw [storable, hparse] at hfst
        exact List.map_eq_nil_iff.mp hfst
      rw [indexFile_nothing hclear hparse, hnone]
      exact ⟨_, rfl⟩
  | mention p rest m hparse hm =>
      have hnone : x.embedded project path file = [] := by
        rw [embedded, hparse, symbolsOf?, List.mapM_cons, hm]
        rfl
      rw [indexFile_mention hclear hparse hm, hnone]
      exact ⟨_, rfl⟩
  | symbols symbols hne hsort hfile =>
      obtain ⟨items, stored, hitems, -, hstored, hafter, -⟩ :=
        indexFile_stored language hclear hne hsort
      have hstore : stored.db = .intact ((st.removeFile path project).insertAllEmbedded
          (x.embedded project path file)) := by
        rw [hstored, storeEach_intact rfl, embedded, symbolsOf?_eq_some hsort, hitems]
      -- relations are stored or not, and change nothing but relationships
      rw [hafter, hstore]
      split
      · obtain ⟨relations, hrelations⟩ := foldl_storeRelationsOf_cases project stored.ids
          (.intact ((st.removeFile path project).insertAllEmbedded
            (x.embedded project path file))) (x.parse path file)
        rw [hrelations]
        exact ⟨relations, rfl⟩
      · exact ⟨_, rfl⟩

end Indexer

end SymbolAtlas
