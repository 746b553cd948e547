/-
  SymbolAtlas.Proofs.FileStage: what the work on one file does to a database.

  The symbols of the file are replaced by those that are found in it, the last one of each key
  (`indexFile_data`); the symbols of other files stay as they are (`indexFile_rows_other`); and a
  file of which nothing can be stored is worked on without any change (`indexFile_idle`). All of
  this holds of databases with faults as well: a symbol that is not admitted is passed over.
-/

import SymbolAtlas.Indexer.File
import SymbolAtlas.Proofs.Batches
import SymbolAtlas.Proofs.Findings
import SymbolAtlas.Proofs.Rows

namespace SymbolAtlas

namespace Database

/-! ## Faults -/

/-- Whether a symbol can be stored. -/
def admits (db : Database) (d : SymbolData) : Bool :=
  !db.broken && !db.dropped.contains .symbols && !db.rejectsSymbol (some d.name) (some d.kind)

/-- A database with the same faults, except that embeddings may have got their table again. -/
structure SameFaults (db db' : Database) : Prop where
  broken : db'.broken = db.broken
  rejections : db'.rejections = db.rejections
  shared : db'.store.shared = db.store.shared
  dropped : ∀ t, t ≠ .embeddings → (t ∈ db'.dropped ↔ t ∈ db.dropped)
  embeddings : .embeddings ∈ db'.dropped → .embeddings ∈ db.dropped

namespace SameFaults

theorem refl (db : Database) : SameFaults db db :=
  ⟨rfl, rfl, rfl, fun _ _ => Iff.rfl, id⟩

theorem trans {a b c : Database} (h : SameFaults a b) (h' : SameFaults b c) : SameFaults a c :=
  ⟨h'.broken.trans h.broken, h'.rejections.trans h.rejections, h'.shared.trans h.shared,
    fun t ht => (h'.dropped t ht).trans (h.dropped t ht), fun hd => h.embeddings (h'.embeddings hd)⟩

/-- Another store, shared or not as before. -/
theorem withStore {db : Database} {st : Store} (h : st.shared = db.store.shared) :
    SameFaults db (db.withStore st) :=
  ⟨rfl, rfl, h, fun _ _ => Iff.rfl, id⟩

theorem withEmbeddings (db : Database) : SameFaults db db.withEmbeddings := by
  refine ⟨rfl, rfl, rfl, ?_, ?_⟩
  · intro t ht
    simp [Database.withEmbeddings, ht]
  · intro hd
    simp [Database.withEmbeddings] at hd

/-- What is admitted depends on faults only. -/
theorem admits {db db' : Database} (h : SameFaults db db') : db'.admits = db.admits := by
  funext d
  have hdropped : db'.dropped.contains .symbols = db.dropped.contains .symbols := by
    have hiff := h.dropped .symbols (by decide)
    rw [Bool.eq_iff_iff, List.contains_iff_mem, List.contains_iff_mem]
    exact hiff
  rw [Database.admits, Database.admits, rejectsSymbol, rejectsSymbol, h.broken, h.rejections,
    hdropped]

end SameFaults

theorem addSymbol_of_admits {db : Database} {d : SymbolData} (h : db.admits d = true) :
    db.addSymbol d
      = .ok (db.withStore (db.store.insertSymbol d).1, (db.store.insertSymbol d).2) := by
  simp only [admits, Bool.and_eq_true, Bool.not_eq_true'] at h
  obtain ⟨⟨hbroken, hdropped⟩, hrejects⟩ := h
  rw [addSymbol, connect, need, hbroken, hdropped, hrejects]
  rfl

theorem addSymbol_of_not_admits {db : Database} {d : SymbolData} (h : db.admits d = false) :
    ∃ e, db.addSymbol d = .error e := by
  rw [addSymbol, connect, need]
  cases hbroken : db.broken with
  | true => exact ⟨_, rfl⟩
  | false =>
      cases hdropped : db.dropped.contains .symbols with
      | true => exact ⟨_, rfl⟩
      | false =>
          have hrejects : db.rejectsSymbol (some d.name) (some d.kind) = true := by
            rw [admits, hbroken, hdropped] at h
            simpa using h
          rw [hrejects]
          exact ⟨_, rfl⟩

/-- An embedding is stored whenever a connection can be had. -/
theorem addEmbedding_ok {db : Database} (hbroken : db.broken = false) (id : Int) (v : Value) :
    db.addEmbedding id v = .ok (db.withEmbeddings.withStore (db.store.putEmbedding id v)) := by
  rw [addEmbedding, connect, hbroken]
  rfl

/-- A relationship is stored, or it is refused and nothing changes. -/
theorem addRelation_cases (db : Database) (d : RelationData) :
    (∃ e, db.addRelation d = .error e) ∨
      db.addRelation d
        = .ok (db.withStore (db.store.insertRelation d).1, (db.store.insertRelation d).2) := by
  rw [addRelation, connect, need]
  cases db.broken with
  | true => exact Or.inl ⟨_, rfl⟩
  | false =>
      cases db.dropped.contains .relationships with
      | true => exact Or.inl ⟨_, rfl⟩
      | false =>
          cases db.rejectsRelation (some d.kind) with
          | true => exact Or.inl ⟨_, rfl⟩
          | false => exact Or.inr rfl

/-! ## Removing the symbols of a file -/

/-- The database without the symbols of a file. -/
def cleared (db : Database) (file project : String) : Database :=
  db.withStore (db.store.removeFile file project)

/-- Whether the symbols of a file can be removed: there are none, or their ids can be bound in one
statement and the table of embeddings is there. -/
def clears (db : Database) (project file : String) : Bool :=
  !db.broken && !db.dropped.contains .symbols && ((db.store.rowsOf project file).isEmpty ||
    decide ((db.store.rowsOf project file).length ≤ maxVariables) &&
      !db.dropped.contains .embeddings)

theorem removeFile_of_clears {db : Database} {project file : String}
    (h : db.clears project file = true) :
    db.removeFile file project = .ok (db.cleared file project) := by
  simp only [clears, Bool.and_eq_true, Bool.not_eq_true', Bool.or_eq_true, decide_eq_true_eq] at h
  obtain ⟨⟨hbroken, hsymbols⟩, hrest⟩ := h
  rw [removeFile, removeSymbols, connect, need, hbroken, hsymbols,
    Store.any_eq_not_isEmpty_rowsOf, Store.countP_eq_length_rowsOf]
  cases hempty : (db.store.rowsOf project file).isEmpty with
  | true => rfl
  | false =>
      obtain ⟨hfit, hembeddings⟩ := hrest.resolve_left (by rw [hempty]; decide)
      rw [fitVariables, if_neg (Nat.not_lt.mpr hfit), need, hembeddings]
      rfl

theorem removeFile_of_not_clears {db : Database} {project file : String}
    (h : db.clears project file = false) : ∃ e, db.removeFile file project = .error e := by
  rw [removeFile, removeSymbols, connect, need, Store.any_eq_not_isEmpty_rowsOf,
    Store.countP_eq_length_rowsOf]
  cases hbroken : db.broken with
  | true => exact ⟨_, rfl⟩
  | false =>
      cases hsymbols : db.dropped.contains .symbols with
      | true => exact ⟨_, rfl⟩
      | false =>
          -- only a file with symbols is refused, for their number or for want of their embeddings
          simp only [clears, hbroken, hsymbols, Bool.not_false, Bool.true_and, Bool.or_eq_false_iff,
            Bool.and_eq_false_iff, Bool.not_eq_false', decide_eq_false_iff_not] at h
          obtain ⟨hempty, hrest⟩ := h
          rw [hempty, fitVariables, need]
          by_cases hfit : (db.store.rowsOf project file).length > maxVariables
          · rw [if_pos hfit]
            exact ⟨_, rfl⟩
          · rw [if_neg hfit, hrest.resolve_left fun hmany => hfit (Nat.not_le.mp hmany)]
            exact ⟨_, rfl⟩

/-- Removing the symbols of a file succeeds, or it fails and nothing changes. -/
theorem removeFile_cases (db : Database) (file project : String) :
    (∃ e, db.removeFile file project = .error e) ∨
      db.removeFile file project = .ok (db.cleared file project) := by
  cases h : db.clears project file with
  | false => exact .inl (removeFile_of_not_clears h)
  | true => exact .inr (removeFile_of_clears h)

/-- A database that opens and has the tables of symbols and of embeddings, so that the symbols of a
file can be removed as long as there are not too many. -/
structure Clearable (db : Database) : Prop where
  opens : db.broken = false
  symbols : Table.symbols ∉ db.dropped
  embeddings : Table.embeddings ∉ db.dropped

theorem Clearable.mono {db db' : Database} (h : db.Clearable) (hs : db.SameFaults db') :
    db'.Clearable :=
  ⟨hs.broken.trans h.opens, fun hd => h.symbols ((hs.dropped _ (by decide)).mp hd),
    fun hd => h.embeddings (hs.embeddings hd)⟩

/-- Whether the ids of all symbols of a file can be bound in one statement. -/
def Fits (db : Database) (project file : String) : Prop :=
  (db.store.rowsOf project file).length ≤ maxVariables

instance instDecidableFits (db : Database) (project file : String) :
    Decidable (db.Fits project file) :=
  inferInstanceAs (Decidable ((db.store.rowsOf project file).length ≤ maxVariables))

theorem fits_of_rowsOf_eq_nil {db : Database} {project file : String}
    (h : db.store.rowsOf project file = []) : db.Fits project file := by
  rw [Fits, h]
  exact Nat.zero_le _

theorem fits_of_length_le {db : Database} (h : db.store.symbols.length ≤ maxVariables)
    (project file : String) : db.Fits project file :=
  Nat.le_trans (List.length_filter_le _ _) h

theorem Clearable.clears_iff {db : Database} (h : db.Clearable) {project file : String} :
    db.clears project file = true ↔ db.Fits project file := by
  have hsymbols : db.dropped.contains .symbols = false := by simpa using h.symbols
  have hembeddings : db.dropped.contains .embeddings = false := by simpa using h.embeddings
  simp only [clears, h.opens, hsymbols, hembeddings, Bool.not_false, Bool.true_and, Bool.and_true,
    Bool.or_eq_true, List.isEmpty_iff, decide_eq_true_eq]
  exact or_iff_right_of_imp fits_of_rowsOf_eq_nil

theorem Clearable.removeFile {db : Database} (h : db.Clearable) {file project : String}
    (hfits : db.Fits project file) :
    db.removeFile file project = .ok (db.cleared file project) :=
  removeFile_of_clears (h.clears_iff.mpr hfits)

/-- A file with more symbols is not cleared. -/
theorem Clearable.removeFile_refused {db : Database} (h : db.Clearable) {file project : String}
    (hfits : ¬ db.Fits project file) :
    db.removeFile file project = .error .tooManyVariables := by
  have hsymbols : db.dropped.contains .symbols = false := by simpa using h.symbols
  have hempty : (db.store.rowsOf project file).isEmpty = false := by
    rw [List.isEmpty_eq_false_iff]
    exact fun hnil => hfits (fits_of_rowsOf_eq_nil hnil)
  rw [Database.removeFile, removeSymbols, connect, need, h.opens, hsymbols,
    Store.any_eq_not_isEmpty_rowsOf, Store.countP_eq_length_rowsOf, hempty, fitVariables,
    if_pos (Nat.not_le.mp hfits)]
  rfl

end Database

namespace Indexer

open SymbolData

/-! ## Symbols -/

/-- What storing a symbol can do: it is passed over, or it is put among the symbols of its file and
perhaps an embedding is stored as well. -/
theorem storeSymbol_cases (project digest : String) (st : Storing) (s : Symbol)
    (vector : Option (List Value)) :
    (st.db.admits (symbolData project digest s) = false ∧
        storeSymbol project digest st s vector = st) ∨
      (st.db.admits (symbolData project digest s) = true ∧
        st.db.SameFaults (storeSymbol project digest st s vector).db ∧
        ∃ embeddings, (storeSymbol project digest st s vector).db.store
          = { (st.db.store.insertSymbol (symbolData project digest s)).1 with embeddings }) := by
  cases h : st.db.admits (symbolData project digest s) with
  | false =>
      obtain ⟨e, he⟩ := Database.addSymbol_of_not_admits h
      refine Or.inl ⟨rfl, ?_⟩
      rw [storeSymbol, he]
  | true =>
      refine Or.inr ⟨rfl, ?_⟩
      have hshared : (st.db.store.insertSymbol (symbolData project digest s)).1.shared
          = st.db.store.shared := rfl
      rw [storeSymbol, Database.addSymbol_of_admits h]
      cases vector with
      | none => exact ⟨.withStore hshared, _, rfl⟩
      | some v =>
          -- that the symbol was admitted shows that a connection can be had for its embedding
          have hbroken : (st.db.withStore
              (st.db.store.insertSymbol (symbolData project digest s)).1).broken = false := by
            simp only [Database.admits, Bool.and_eq_true, Bool.not_eq_true'] at h
            exact h.1.1
          simp only [Database.addEmbedding_ok hbroken]
          exact ⟨(Database.SameFaults.withStore hshared).trans
            ((Database.SameFaults.withEmbeddings _).trans (.withStore rfl)), _, rfl⟩

theorem storeSymbol_sameFaults (project digest : String) (st : Storing) (s : Symbol)
    (vector : Option (List Value)) :
    st.db.SameFaults (storeSymbol project digest st s vector).db := by
  rcases storeSymbol_cases project digest st s vector with ⟨-, h⟩ | ⟨-, h, -⟩
  · rw [h]
    exact .refl st.db
  · exact h

/-- Storing a symbol puts it among the symbols of its file if it is admitted. -/
theorem storeSymbol_data {project digest path : String} {st : Storing} {s : Symbol}
    {vector : Option (List Value)} (hfile : s.file = path) :
    (storeSymbol project digest st s vector).db.store.dataOf project path
      = ([symbolData project digest s].filter st.db.admits).foldl upsert
          (st.db.store.dataOf project path) := by
  rcases storeSymbol_cases project digest st s vector with ⟨ha, h⟩ | ⟨ha, -, embeddings, h⟩
  · rw [h, List.filter_cons_of_neg (by rw [ha]; exact Bool.false_ne_true)]
    rfl
  · rw [h, List.filter_cons_of_pos ha]
    exact Store.dataOf_insertSymbol_same st.db.store rfl hfile

/-- Storing a symbol leaves other files alone. -/
theorem storeSymbol_rows_other {project digest project' file : String} {st : Storing} {s : Symbol}
    {vector : Option (List Value)}
    (hne : s.file ≠ file ∨ st.db.store.shared = false ∧ project ≠ project') :
    (storeSymbol project digest st s vector).db.store.rowsOf project' file
      = st.db.store.rowsOf project' file := by
  rcases storeSymbol_cases project digest st s vector with ⟨-, h⟩ | ⟨-, -, embeddings, h⟩
  · rw [h]
  · rw [h]
    exact Store.rowsOf_insertSymbol_other st.db.store hne

/-! ## Symbols one after another -/

/-- Symbols are stored one after another, each with the embedding that goes with it. -/
def storeEach (project digest : String) (st : Storing)
    (items : List (Symbol × Option (List Value))) : Storing :=
  items.foldl (fun st p => storeSymbol project digest st p.1 p.2) st

theorem storeEach_cons (project digest : String) (st : Storing)
    (item : Symbol × Option (List Value)) (rest : List (Symbol × Option (List Value))) :
    storeEach project digest st (item :: rest)
      = storeEach project digest (storeSymbol project digest st item.1 item.2) rest := rfl

theorem storeEach_sameFaults (project digest : String) (st : Storing)
    (items : List (Symbol × Option (List Value))) :
    st.db.SameFaults (storeEach project digest st items).db := by
  induction items generalizing st with
  | nil => exact .refl st.db
  | cons item rest ih =>
      rw [storeEach_cons]
      exact (storeSymbol_sameFaults project digest st item.1 item.2).trans (ih _)

theorem storeEach_data {project digest path : String} (st : Storing)
    {items : List (Symbol × Option (List Value))} (hfile : ∀ item ∈ items, item.1.file = path) :
    (storeEach project digest st items).db.store.dataOf project path
      = ((items.map fun item => symbolData project digest item.1).filter st.db.admits).foldl upsert
          (st.db.store.dataOf project path) := by
  induction items generalizing st with
  | nil => rfl
  | cons item rest ih =>
      have hfaults := storeSymbol_sameFaults project digest st item.1 item.2
      rw [storeEach_cons, ih _ fun i hi => hfile i (List.mem_cons_of_mem item hi),
        storeSymbol_data (hfile item List.mem_cons_self), hfaults.admits, ← List.foldl_append,
        ← List.filter_append]
      rfl

theorem storeEach_rows_other {project digest project' file : String} (st : Storing)
    {items : List (Symbol × Option (List Value))}
    (hne : ∀ item ∈ items,
      item.1.file ≠ file ∨ st.db.store.shared = false ∧ project ≠ project') :
    (storeEach project digest st items).db.store.rowsOf project' file
      = st.db.store.rowsOf project' file := by
  induction items generalizing st with
  | nil => rfl
  | cons item rest ih =>
      have hfaults := storeSymbol_sameFaults project digest st item.1 item.2
      rw [storeEach_cons, ih, storeSymbol_rows_other (hne item List.mem_cons_self)]
      intro i hi
      rw [hfaults.shared]
      exact hne i (List.mem_cons_of_mem item hi)

/-- Symbols that are not admitted leave everything as it was. -/
theorem storeEach_idle {project digest : String} (st : Storing)
    {items : List (Symbol × Option (List Value))}
    (h : ∀ item ∈ items, st.db.admits (symbolData project digest item.1) = false) :
    storeEach project digest st items = st := by
  induction items with
  | nil => rfl
  | cons item rest ih =>
      have hsame : storeSymbol project digest st item.1 item.2 = st := by
        rcases storeSymbol_cases project digest st item.1 item.2 with ⟨-, h'⟩ | ⟨ha, -⟩
        · exact h'
        · rw [h item List.mem_cons_self] at ha
          exact absurd ha Bool.false_ne_true
      rw [storeEach_cons, hsame]
      exact ih fun i hi => h i (List.mem_cons_of_mem item hi)

theorem storeEach_store (project digest : String) (st : Storing)
    (items : List (Symbol × Option (List Value))) :
    (storeEach project digest st items).db.store.relations = st.db.store.relations ∧
      (storeEach project digest st items).db.store.projects = st.db.store.projects := by
  induction items generalizing st with
  | nil => exact ⟨rfl, rfl⟩
  | cons item rest ih =>
      obtain ⟨hrelations, hprojects⟩ := ih (storeSymbol project digest st item.1 item.2)
      rw [storeEach_cons, hrelations, hprojects]
      rcases storeSymbol_cases project digest st item.1 item.2 with ⟨-, h⟩ | ⟨-, -, embeddings, h⟩
      · rw [h]
        exact ⟨rfl, rfl⟩
      · rw [h]
        exact ⟨rfl, rfl⟩

/-! ## Batches -/

theorem length_vectors (model : Option Model) (symbols : List Symbol) :
    (vectors model symbols).length = symbols.length := by
  cases model with
  | none => rw [vectors, List.length_map]
  | some m => rw [vectors, List.length_map, Embedding.length_batch, List.length_map]

/-- The symbols of a file with their vectors, batch by batch. -/
def itemsOf (model : Option Model) (batches : List (List Symbol)) :
    List (Symbol × Option (List Value)) :=
  batches.flatMap fun symbols => symbols.zip (vectors model symbols)

/-- Batching leaves out no symbol and keeps their order. -/
theorem itemsOf_fst (model : Option Model) (batches : List (List Symbol)) :
    (itemsOf model batches).map (·.1) = batches.flatten := by
  induction batches with
  | nil => rfl
  | cons symbols rest ih =>
      rw [itemsOf, List.flatMap_cons, List.map_append, List.flatten_cons]
      have hzip : (symbols.zip (vectors model symbols)).map (·.1) = symbols :=
        List.map_fst_zip (Nat.le_of_eq (length_vectors model symbols).symm)
      rw [hzip]
      exact congrArg (symbols ++ ·) ih

/-- The symbols of findings that all are symbols. -/
theorem symbolsOf?_eq_some {batch : List Parsed} {symbols : List Symbol}
    (h : batch.map (·.finding) = symbols.map .symbol) : symbolsOf? batch = some symbols := by
  induction batch generalizing symbols with
  | nil =>
      cases symbols with
      | nil => rfl
      | cons s rest => exact absurd h (by simp)
  | cons p rest ih =>
      cases symbols with
      | nil => exact absurd h (by simp)
      | cons s more =>
          simp only [List.map_cons, List.cons.injEq] at h
          have hrest : symbolsOf? rest = some more := ih h.2
          rw [symbolsOf?] at hrest
          rw [symbolsOf?, List.mapM_cons, h.1, hrest]
          rfl

/-- Two states that differ at most in the texts that the model was given. -/
def Storing.Agree (a b : Storing) : Prop := a.db = b.db ∧ a.ids = b.ids ∧ a.added = b.added

theorem storeSymbol_agree {project digest : String} {a b : Storing} (h : a.Agree b) (s : Symbol)
    (vector : Option (List Value)) :
    (storeSymbol project digest a s vector).Agree (storeSymbol project digest b s vector) := by
  obtain ⟨hdb, hids, hadded⟩ := h
  rw [storeSymbol, storeSymbol, hdb]
  split
  · exact ⟨hdb, hids, hadded⟩
  · dsimp only
    split
    · exact ⟨rfl, by rw [hids], hadded⟩
    · split
      · exact ⟨rfl, by rw [hids], by rw [hadded]⟩
      · exact ⟨rfl, by rw [hids], hadded⟩

theorem storeEach_agree {project digest : String} {a b : Storing} (h : a.Agree b)
    (items : List (Symbol × Option (List Value))) :
    (storeEach project digest a items).Agree (storeEach project digest b items) := by
  induction items generalizing a b with
  | nil => exact h
  | cons item rest ih => exact ih (storeSymbol_agree h item.1 item.2)

/-- Batches of symbols are stored like their symbols one after another. -/
theorem storeBatches_symbols (x : Indexer) (project digest : String) {a b : Storing}
    (h : a.Agree b) {parsed : List (List Parsed)} {batches : List (List Symbol)}
    (hsort : parsed.map (List.map (·.finding)) = batches.map (List.map .symbol)) :
    (x.storeBatches project digest a parsed).1.Agree
        (storeEach project digest b (itemsOf x.model batches)) ∧
      (x.storeBatches project digest a parsed).2 = none := by
  induction parsed generalizing a b batches with
  | nil =>
      cases batches with
      | nil => exact ⟨h, rfl⟩
      | cons symbols rest => exact absurd hsort (by simp)
  | cons batch rest ih =>
      cases batches with
      | nil => exact absurd hsort (by simp)
      | cons symbols more =>
          simp only [List.map_cons, List.cons.injEq] at hsort
          have hsymbols : symbolsOf? batch = some symbols := symbolsOf?_eq_some hsort.1
          rw [storeBatches, hsymbols]
          have hitems : itemsOf x.model (symbols :: more)
              = symbols.zip (vectors x.model symbols) ++ itemsOf x.model more := by
            rw [itemsOf, List.flatMap_cons]
            rfl
          -- what the model has seen plays no part in what is stored
          have hseen : Storing.Agree
              { a with seen := a.seen ++ textsSeen x.model symbols } b := h
          have hnext : (x.storeSymbols project digest a symbols).Agree
              (storeEach project digest b (symbols.zip (vectors x.model symbols))) :=
            storeEach_agree hseen _
          rw [hitems, storeEach, List.foldl_append]
          exact ih hnext hsort.2

/-- Findings that all are symbols are stored like these, each with the vector that its batch gives
it. -/
theorem storeBatches_found (x : Indexer) (project digest : String) (db : Database)
    {parsed : List Parsed} {symbols : List Symbol}
    (hsort : parsed.map (·.finding) = symbols.map .symbol) :
    ∃ items : List (Symbol × Option (List Value)),
      items = itemsOf x.model (Embedding.chunksOf (batchSize symbols.length - 1) symbols) ∧
      items.map (·.1) = symbols ∧
      (x.storeBatches project digest { db }
          (Embedding.chunksOf (batchSize parsed.length - 1) parsed)).1.Agree
        (storeEach project digest { db } items) ∧
      (x.storeBatches project digest { db }
          (Embedding.chunksOf (batchSize parsed.length - 1) parsed)).2 = none := by
  have hlength : parsed.length = symbols.length := by
    simpa using congrArg List.length hsort
  -- the batches of findings are the batches of their symbols
  have hbatches : (Embedding.chunksOf (batchSize symbols.length - 1)
        parsed).map (List.map (·.finding))
      = (Embedding.chunksOf (batchSize symbols.length - 1) symbols).map (List.map .symbol) := by
    rw [Embedding.map_chunksOf, Embedding.map_chunksOf, hsort]
  have hitems := itemsOf_fst x.model
    (Embedding.chunksOf (batchSize symbols.length - 1) symbols)
  rw [Embedding.flatten_chunksOf] at hitems
  rw [hlength]
  exact ⟨_, rfl, hitems, storeBatches_symbols x project digest ⟨rfl, rfl, rfl⟩ hbatches⟩

/-- A batch that begins with a mention is not stored. -/
theorem storeBatches_mention (x : Indexer) (project digest : String) (st : Storing)
    {p : Parsed} {batch : List Parsed} {rest : List (List Parsed)} {m : Mention}
    (h : p.finding = .mention m) :
    x.storeBatches project digest st ((p :: batch) :: rest) = (st, some ⟨"symbol_type"⟩) := by
  have hnone : symbolsOf? (p :: batch) = none := by
    rw [symbolsOf?, List.mapM_cons, h]
    rfl
  rw [storeBatches, hnone]

/-! ## Relations -/

/-- Storing a relation changes relationships at most. -/
theorem storeRelation_cases (project : String) (source : Int) (db : Database) (r : Relation) :
    ∃ relations, storeRelation project source db r
      = db.withStore { db.store with relations } := by
  rw [storeRelation]
  split
  · exact ⟨db.store.relations, rfl⟩
  · split
    next hit _ _ =>
      rcases Database.addRelation_cases db
        { project, source := .int source, target := .int hit.id, kind := r.kind
          data := some (Json.write (.object r.fields)) } with ⟨e, h⟩ | h
      · rw [h]
        exact ⟨db.store.relations, rfl⟩
      · rw [h]
        exact ⟨_, rfl⟩
    next => exact ⟨db.store.relations, rfl⟩

theorem foldl_storeRelation_cases (project : String) (source : Int) (db : Database)
    (rs : List Relation) :
    ∃ relations, rs.foldl (storeRelation project source) db
      = db.withStore { db.store with relations } := by
  induction rs generalizing db with
  | nil => exact ⟨db.store.relations, rfl⟩
  | cons r rest ih =>
      obtain ⟨here, hhere⟩ := storeRelation_cases project source db r
      obtain ⟨later, hlater⟩ := ih (storeRelation project source db r)
      refine ⟨later, ?_⟩
      rw [List.foldl_cons, hlater, hhere]
      rfl

/-- Storing the relations of findings changes relationships at most. -/
theorem foldl_storeRelationsOf_cases (project : String) (ids : List (String × Int)) (db : Database)
    (parsed : List Parsed) :
    ∃ relations, parsed.foldl (storeRelationsOf project ids) db
      = db.withStore { db.store with relations } := by
  induction parsed generalizing db with
  | nil => exact ⟨db.store.relations, rfl⟩
  | cons p rest ih =>
      have hhere : ∃ relations, storeRelationsOf project ids db p
          = db.withStore { db.store with relations } := by
        rw [storeRelationsOf]
        split
        · exact foldl_storeRelation_cases project _ db _
        · exact ⟨db.store.relations, rfl⟩
      obtain ⟨here, hhere⟩ := hhere
      obtain ⟨later, hlater⟩ := ih (storeRelationsOf project ids db p)
      refine ⟨later, ?_⟩
      rw [List.foldl_cons, hlater, hhere]
      rfl

/-- Without a stored symbol no relation is stored. -/
theorem foldl_storeRelationsOf_nil (project : String) (db : Database) (parsed : List Parsed) :
    parsed.foldl (storeRelationsOf project []) db = db := by
  induction parsed with
  | nil => rfl
  | cons p rest ih => exact ih

/-! ## A file -/

/-- The symbols of a file in the form in which they are to be stored: none when a finding is no
symbol. -/
def storable (x : Indexer) (project path : String) (file : Option ByteArray) : List SymbolData :=
  match symbolsOf? (x.parse path file) with
  | some symbols => symbols.map (symbolData project (digestOf file))
  | none => []

/-- Whether the work on a file stops with an error: a finding is no symbol. -/
def raises (x : Indexer) (path : String) (file : Option ByteArray) : Bool :=
  (symbolsOf? (x.parse path file)).isNone

/-- Symbols are stored with the digest of the content in which they were found. -/
theorem storable_digest {x : Indexer} {project path : String} {file : Option ByteArray}
    {d : SymbolData} (h : d ∈ x.storable project path file) : d.digest = digestOf file := by
  rw [storable] at h
  split at h
  · obtain ⟨s, -, rfl⟩ := List.mem_map.mp h
    rfl
  · exact absurd h List.not_mem_nil

theorem storable_of_raises {x : Indexer} {path : String} {file : Option ByteArray}
    (h : x.raises path file = true) (project : String) : x.storable project path file = [] := by
  rw [storable, Option.isNone_iff_eq_none.mp h]

/-- What may be found in a file. -/
inductive Found (x : Indexer) (path : String) (file : Option ByteArray) : Prop where
  /-- nothing is found -/
  | nothing (h : x.parse path file = [])
  /-- all findings are symbols of the file -/
  | symbols (symbols : List Symbol) (hne : x.parse path file ≠ [])
      (hsort : (x.parse path file).map (·.finding) = symbols.map .symbol)
      (hfile : ∀ s ∈ symbols, s.file = path)
  /-- the first finding is a mention -/
  | mention (p : Parsed) (rest : List Parsed) (m : Mention) (h : x.parse path file = p :: rest)
      (hm : p.finding = .mention m)

theorem Lawful.found {x : Indexer} (hx : x.Lawful) (path : String) (file : Option ByteArray) :
    x.Found path file := by
  rcases hparse : x.parse path file with _ | ⟨p, rest⟩
  · exact .nothing hparse
  · rcases hx path file with ⟨symbols, hsort, hfile⟩ | ⟨mentions, hsort⟩
    · exact .symbols symbols (by rw [hparse]; exact List.cons_ne_nil p rest) hsort hfile
    · rw [hparse] at hsort
      cases mentions with
      | nil => exact absurd hsort (by simp)
      | cons m more =>
          rw [List.map_cons, List.map_cons, List.cons.injEq] at hsort
          exact .mention p rest m hparse hsort.1

section IndexFile

variable {x : Indexer} {project path : String} {language : Option String}
  {file : Option ByteArray} {db db' : Database}

theorem indexFile_refused {e : DatabaseError} (h : db.removeFile path project = .error e) :
    x.indexFile project language path file db = { db, error := some e.message } := by
  rw [indexFile, h]

/-- A file that has too many symbols is left as it is. -/
theorem indexFile_crowded (hdb : db.Clearable) (hfits : ¬ db.Fits project path) :
    x.indexFile project language path file db
      = { db, error := some DatabaseError.tooManyVariables.message } :=
  indexFile_refused (hdb.removeFile_refused hfits)

theorem indexFile_nothing (h : db.removeFile path project = .ok db')
    (hparse : x.parse path file = []) :
    x.indexFile project language path file db = { db := db' } := by
  simp only [indexFile, h, hparse]

theorem indexFile_mention (h : db.removeFile path project = .ok db') {p : Parsed}
    {rest : List Parsed} {m : Mention} (hparse : x.parse path file = p :: rest)
    (hm : p.finding = .mention m) :
    x.indexFile project language path file db
      = { db := db', error := some "'symbol_type'" } := by
  simp only [indexFile, h, hparse, storeParsed, Embedding.chunksOf]
  rw [storeBatches_mention x project _ _ hm]
  rfl

/-- The work on a file with symbols: they are stored one after another with the vectors of their
batches, then their relations. -/
theorem indexFile_stored (language : Option String)
    (h : db.removeFile path project = .ok db') {symbols : List Symbol}
    (hne : x.parse path file ≠ [])
    (hsort : (x.parse path file).map (·.finding) = symbols.map .symbol) :
    ∃ items : List (Symbol × Option (List Value)), ∃ st : Storing,
      items = itemsOf x.model (Embedding.chunksOf (batchSize symbols.length - 1) symbols) ∧
      items.map (·.1) = symbols ∧
      st = storeEach project (digestOf file) { db := db' } items ∧
      (x.indexFile project language path file db).db
        = (if x.wantsRelations language then
            (x.parse path file).foldl (storeRelationsOf project st.ids) st.db else st.db) ∧
      (x.indexFile project language path file db).added = st.added ∧
      (x.indexFile project language path file db).error = none := by
  obtain ⟨p, rest, hparse⟩ := List.exists_cons_of_ne_nil hne
  have hindex : x.indexFile project language path file db
      = x.storeParsed project language (digestOf file) (x.parse path file) db' := by
    simp only [indexFile, h, hparse]
  obtain ⟨items, hvectors, hitems, ⟨hdb, hids, hadded⟩, herror⟩ :=
    storeBatches_found x project (digestOf file) db' hsort
  rw [hindex, storeParsed]
  generalize x.storeBatches project (digestOf file) { db := db' }
    (Embedding.chunksOf (batchSize (x.parse path file).length - 1) (x.parse path file)) = stored
    at hdb hids hadded herror
  obtain ⟨st, e⟩ := stored
  obtain rfl : e = none := herror
  dsimp only at hdb hids hadded ⊢
  refine ⟨items, _, hvectors, hitems, rfl, ?_, hadded, rfl⟩
  rw [← hdb, ← hids]

/-- The same without the relationships, which are only said to stay when no symbol was stored. -/
theorem indexFile_symbols (h : db.removeFile path project = .ok db') {symbols : List Symbol}
    (hne : x.parse path file ≠ [])
    (hsort : (x.parse path file).map (·.finding) = symbols.map .symbol) :
    ∃ items : List (Symbol × Option (List Value)), ∃ relations,
      items.map (·.1) = symbols ∧
      (x.indexFile project language path file db).db
        = (storeEach project (digestOf file) { db := db' } items).db.withStore
            { (storeEach project (digestOf file) { db := db' } items).db.store with relations } ∧
      (x.indexFile project language path file db).added
        = (storeEach project (digestOf file) { db := db' } items).added ∧
      (x.indexFile project language path file db).error = none ∧
      ((storeEach project (digestOf file) { db := db' } items).ids = [] → relations
        = (storeEach project (digestOf file) { db := db' } items).db.store.relations) := by
  obtain ⟨items, st, -, hitems, rfl, hdb, hadded, herror⟩ :=
    indexFile_stored language h hne hsort
  cases hwants : x.wantsRelations language with
  | false =>
      rw [hwants, if_neg Bool.false_ne_true] at hdb
      exact ⟨items, _, hitems, hdb, hadded, herror, fun _ => rfl⟩
  | true =>
      rw [hwants, if_pos rfl] at hdb
      -- relations change their own table only, and none are stored where no symbol has an id
      obtain ⟨relations, hrelations⟩ := foldl_storeRelationsOf_cases project
        (storeEach project (digestOf file) { db := db' } items).ids
        (storeEach project (digestOf file) { db := db' } items).db (x.parse path file)
      refine ⟨items, relations, hitems, hdb.trans hrelations, hadded, herror, ?_⟩
      intro hnil
      rw [hnil, foldl_storeRelationsOf_nil] at hrelations
      exact (congrArg (·.store.relations) hrelations).symm

/-- What the work on a file can do. It is refused as a whole, or the file is cleared, its symbols
are stored one after another, and relations are stored if there is a symbol to start them. -/
theorem indexFile_cases (hx : x.Lawful) (project path : String) (language : Option String)
    (file : Option ByteArray) (db : Database) :
    (∃ e : DatabaseError, db.removeFile path project = .error e ∧
        x.indexFile project language path file db = { db, error := some e.message }) ∨
      db.removeFile path project = .ok (db.cleared path project) ∧
        ∃ items : List (Symbol × Option (List Value)), ∃ st : Storing, ∃ relations,
          (items.map fun item => symbolData project (digestOf file) item.1)
            = x.storable project path file ∧
          (∀ item ∈ items, item.1.file = path) ∧
          st = storeEach project (digestOf file) { db := db.cleared path project } items ∧
          (x.indexFile project language path file db).db
            = st.db.withStore { st.db.store with relations } ∧
          (x.indexFile project language path file db).added = st.added ∧
          (x.indexFile project language path file db).error
            = (if x.raises path file then some "'symbol_type'" else none) ∧
          (st.ids = [] → relations = st.db.store.relations) := by
  rcases db.removeFile_cases path project with ⟨e, h⟩ | h
  · exact Or.inl ⟨e, h, indexFile_refused h⟩
  · refine Or.inr ⟨h, ?_⟩
    -- findings are of one sort, so that the first of them tells whether any are stored
    cases hx.found path file with
    | nothing hparse =>
        refine ⟨[], _, db.store.relations, ?_, fun item hitem => absurd hitem List.not_mem_nil,
          rfl, ?_⟩
        · rw [storable, hparse]
          rfl
        · rw [indexFile_nothing h hparse, raises, hparse]
          exact ⟨rfl, rfl, rfl, fun _ => rfl⟩
    | mention p rest m hparse hm =>
        have hnone : symbolsOf? (x.parse path file) = none := by
          rw [hparse, symbolsOf?, List.mapM_cons, hm]
          rfl
        refine ⟨[], _, db.store.relations, ?_, fun item hitem => absurd hitem List.not_mem_nil,
          rfl, ?_⟩
        · rw [storable, hnone]
          rfl
        · rw [indexFile_mention h hparse hm, raises, hnone]
          exact ⟨rfl, rfl, rfl, fun _ => rfl⟩
    | symbols symbols hne hsort hfile =>
        have hsome : symbolsOf? (x.parse path file) = some symbols := symbolsOf?_eq_some hsort
        obtain ⟨items, relations, hitems, hdb, hadded, herror, hrelations⟩ :=
          indexFile_symbols h hne hsort
        refine ⟨items, _, relations, ?_, ?_, rfl, hdb, hadded, ?_, hrelations⟩
        · simp only [storable, hsome, ← hitems, List.map_map, Function.comp_def]
        · intro item hitem
          apply hfile
          rw [← hitems]
          exact List.mem_map_of_mem hitem
        · rw [herror, raises, hsome]
          rfl

/-- The work on a file changes nothing in the faults of a database, nor in its projects. -/
theorem indexFile_sameFaults (hx : x.Lawful) (project path : String) (language : Option String)
    (file : Option ByteArray) (db : Database) :
    db.SameFaults (x.indexFile project language path file db).db ∧
      (x.indexFile project language path file db).db.store.projects = db.store.projects := by
  rcases indexFile_cases hx project path language file db with
    ⟨e, -, h⟩ | ⟨-, items, st, relations, -, -, hst, hdb, -⟩
  · rw [h]
    exact ⟨.refl db, rfl⟩
  · have hcleared : db.SameFaults (db.cleared path project) := .withStore rfl
    have heach := storeEach_sameFaults project (digestOf file)
      { db := db.cleared path project } items
    have hstore := storeEach_store project (digestOf file)
      { db := db.cleared path project } items
    rw [← hst] at heach hstore
    rw [hdb]
    exact ⟨hcleared.trans (heach.trans (.withStore rfl)), hstore.2⟩

/-- The work on a file leaves the symbols of other files as they are, and those of other projects
unless symbols are shared. -/
theorem indexFile_rows_other (hx : x.Lawful) {project' file' : String}
    (hne : path ≠ file' ∨ db.store.shared = false ∧ project ≠ project') :
    (x.indexFile project language path file db).db.store.rowsOf project' file'
      = db.store.rowsOf project' file' := by
  rcases indexFile_cases hx project path language file db with
    ⟨e, -, h⟩ | ⟨-, items, st, relations, -, hfile, hst, hdb, -⟩
  · rw [h]
  · have heach : st.db.store.rowsOf project' file'
        = (db.cleared path project).store.rowsOf project' file' := by
      rw [hst]
      apply storeEach_rows_other
      intro item hitem
      rw [hfile item hitem]
      exact hne
    have hcleared : (db.cleared path project).store.rowsOf project' file'
        = db.store.rowsOf project' file' :=
      Store.rowsOf_removeFile_other db.store (hne.imp_right And.right)
    rw [hdb]
    exact heach.trans hcleared

/-- The work on a file that can be cleared leaves the last symbol of each key among those that are
found in it and admitted. -/
theorem indexFile_data (hx : x.Lawful)
    (hclear : db.removeFile path project = .ok (db.cleared path project)) :
    (x.indexFile project language path file db).db.store.dataOf project path
      = lastPerKey ((x.storable project path file).filter db.admits) := by
  rcases indexFile_cases hx project path language file db with
    ⟨e, h, -⟩ | ⟨-, items, st, relations, hitems, hfile, hst, hdb, -⟩
  · rw [h] at hclear
    exact absurd hclear (by simp)
  · have hempty : (db.cleared path project).store.dataOf project path = [] :=
      Store.dataOf_eq_nil.mpr (Store.rowsOf_removeFile_same db.store project path)
    have hfaults : db.SameFaults (db.cleared path project) := .withStore rfl
    have heach : st.db.store.dataOf project path
        = lastPerKey ((x.storable project path file).filter db.admits) := by
      rw [hst, storeEach_data _ hfile, hitems, hempty, foldl_upsert_nil, hfaults.admits]
    rw [hdb]
    exact heach

/-- The work on a file changes nothing when nothing is stored of it and nothing that is found in it
is admitted. -/
theorem indexFile_idle (hx : x.Lawful) (hrows : db.store.rowsOf project path = [])
    (hnone : (x.storable project path file).filter db.admits = []) :
    (x.indexFile project language path file db).db = db ∧
      (x.indexFile project language path file db).added = 0 := by
  rcases indexFile_cases hx project path language file db with
    ⟨e, -, h⟩ | ⟨-, items, st, relations, hitems, -, hst, hdb, hadded, -, hrelations⟩
  · rw [h]
    exact ⟨rfl, rfl⟩
  · -- there is nothing to remove
    have hcleared : db.cleared path project = db := by
      have hany : (db.store.symbols.any fun r => r.file == path && r.project == project)
          = false := by
        rw [Store.any_eq_not_isEmpty_rowsOf, hrows]
        rfl
      rw [Database.cleared, Store.removeFile, Store.removeSymbols_of_none db.store _ hany]
      rfl
    -- no symbol is admitted, so that none is there to start a relation either
    have hidle : st = { db } := by
      rw [hst, hcleared]
      apply storeEach_idle
      intro item hitem
      have hmem : symbolData project (digestOf file) item.1 ∈ x.storable project path file := by
        rw [← hitems]
        exact List.mem_map_of_mem hitem
      rw [List.filter_eq_nil_iff] at hnone
      simpa using hnone _ hmem
    subst hidle
    rw [hdb, hadded, hrelations rfl]
    exact ⟨rfl, rfl⟩

end IndexFile

end Indexer

end SymbolAtlas
