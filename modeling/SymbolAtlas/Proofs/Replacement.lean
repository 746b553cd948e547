/-
  SymbolAtlas.Proofs.Replacement: the symbols of a file are replaced by calls.

  One call removes the symbols of a file, and then each symbol of a list is stored by a call of its
  own. What is stored of the file afterwards is the list without the symbols that a later one
  replaced, and the id that is given last for a name is the id of a symbol of that name
  (`find?_idsGiven`). Everything comes from what one symbol changes, by induction over the list.
-/

import SymbolAtlas.Proofs.Actions

namespace SymbolAtlas

namespace Store

open SymbolData

variable {st : Store} {project file : String} {ds : List SymbolData}

/-! ## Rows in the order of their ids -/

/-- A symbol that is stored has a larger id than all others, so that it may stand last. -/
theorem pairwise_rowsOf_insertSymbol (h : (st.rowsOf project file).Pairwise (·.id < ·.id))
    (d : SymbolData) :
    ((st.insertSymbol d).1.rowsOf project file).Pairwise (·.id < ·.id) := by
  rw [rowsOf, insertSymbol, List.filter_append]
  refine List.pairwise_append.mpr ⟨?_, ?_, ?_⟩
  · exact h.sublist (List.filter_sublist.filter _)
  · exact (List.pairwise_singleton _ _).sublist List.filter_sublist
  · -- what is kept was there before, so that its id is below the next one
    intro r hr s hs
    have hmem : r ∈ st.symbols := (List.mem_filter.mp (List.mem_filter.mp hr).1).1
    obtain rfl := List.mem_singleton.mp (List.mem_filter.mp hs).1
    exact lt_nextId (List.mem_map_of_mem hmem)

theorem pairwise_rowsOf_insertSymbols (h : (st.rowsOf project file).Pairwise (·.id < ·.id))
    (ds : List SymbolData) :
    ((st.insertSymbols ds).rowsOf project file).Pairwise (·.id < ·.id) := by
  induction ds generalizing st with
  | nil => exact h
  | cons d rest ih => exact ih (pairwise_rowsOf_insertSymbol h d)

theorem dataOf_insertSymbols (hds : ∀ d ∈ ds, d.project = project ∧ d.file = file) :
    (st.insertSymbols ds).dataOf project file = ds.foldl upsert (st.dataOf project file) := by
  induction ds generalizing st with
  | nil => rfl
  | cons d rest ih =>
      obtain ⟨hproject, hfile⟩ := hds d List.mem_cons_self
      rw [insertSymbols_cons, ih fun e he => hds e (List.mem_cons_of_mem d he),
        dataOf_insertSymbol_same st hproject hfile, List.foldl_cons]

/-- The symbols of a file that are stored anew are the last ones of their keys. -/
theorem dataOf_replaceFile (hds : ∀ d ∈ ds, d.project = project ∧ d.file = file) :
    (st.replaceFile project file ds).dataOf project file = lastPerKey ds := by
  rw [replaceFile, dataOf_insertSymbols hds, dataOf_eq_nil.mpr (rowsOf_removeFile_same _ _ _),
    foldl_upsert_nil]

theorem pairwise_rowsOf_replaceFile (st : Store) (project file : String) (ds : List SymbolData) :
    ((st.replaceFile project file ds).rowsOf project file).Pairwise (·.id < ·.id) := by
  apply pairwise_rowsOf_insertSymbols
  rw [rowsOf_removeFile_same]
  exact List.Pairwise.nil

/-! ## Embeddings -/

@[simp] theorem embeddings_insertSymbols (st : Store) (ds : List SymbolData) :
    (st.insertSymbols ds).embeddings = st.embeddings := by
  induction ds generalizing st with
  | nil => rfl
  | cons d rest ih => exact ih _

/-- The embeddings of the symbols that a file had are gone, also where a new symbol has the id of
an old one. -/
theorem embedding_ne_of_replaceFile {e : EmbeddingRow} {r : SymbolRow}
    (he : e ∈ (st.replaceFile project file ds).embeddings) (hr : r ∈ st.rowsOf project file) :
    e.id ≠ r.id := by
  rw [replaceFile, embeddings_insertSymbols] at he
  have hkept := (List.mem_filter.mp he).2
  obtain ⟨hmem, hproject, hfile⟩ := mem_rowsOf.mp hr
  intro hid
  have hremoved : r.id ∈ (st.symbols.filter
      fun r => r.file == file && r.project == project).map (·.id) := by
    refine List.mem_map_of_mem (List.mem_filter.mpr ⟨hmem, ?_⟩)
    simp [hproject, hfile]
  rw [hid, List.contains_iff_mem.mpr hremoved] at hkept
  exact absurd hkept (by decide)

/-! ## The ids that are given -/

/-- The ids that symbols get when they are stored one after another. -/
def idsGiven (st : Store) : List SymbolData → List Int
  | [] => []
  | d :: rest => (st.insertSymbol d).2 :: idsGiven (st.insertSymbol d).1 rest

@[simp] theorem length_idsGiven (st : Store) (ds : List SymbolData) :
    (st.idsGiven ds).length = ds.length := by
  induction ds generalizing st with
  | nil => rfl
  | cons d rest ih => rw [idsGiven, List.length_cons, List.length_cons, ih]

/-- The last symbol of a name is the one whose id was given last for the name, and without one it
is what was there before. -/
theorem lastNamed?_insertSymbols (st : Store)
    (hds : ∀ d ∈ ds, d.project = project ∧ d.file = file) (name : String) :
    (st.insertSymbols ds).lastNamed? project file name
      = ((((ds.map (·.name)).zip (st.idsGiven ds)).reverse.find? (·.1 == name)).map (·.2)).or
          (st.lastNamed? project file name) := by
  induction ds generalizing st with
  | nil => rfl
  | cons d rest ih =>
      obtain ⟨hproject, hfile⟩ := hds d List.mem_cons_self
      rw [insertSymbols_cons, ih _ fun e he => hds e (List.mem_cons_of_mem d he),
        lastNamed?_insertSymbol st hproject hfile, idsGiven, List.map_cons, List.zip_cons_cons,
        List.reverse_cons, List.find?_append, Option.map_or, Option.or_assoc]
      -- the first id counts when the rest has none for the name
      congr 1
      by_cases hname : d.name = name <;> simp [hname]

/-- The id that is given last for a name is the id of a symbol of that name. -/
theorem find?_idsGiven (hds : ∀ d ∈ ds, d.project = project ∧ d.file = file) {name : String}
    (hname : name ∈ ds.map (·.name)) :
    ∃ r ∈ (st.insertSymbols ds).rowsOf project file, r.name = name ∧
      ((ds.map (·.name)).zip (st.idsGiven ds)).reverse.find? (·.1 == name)
        = some (name, r.id) := by
  have hlast := lastNamed?_insertSymbols st hds name
  cases hfound : ((ds.map (·.name)).zip (st.idsGiven ds)).reverse.find? (·.1 == name) with
  | none =>
      -- each name stands in the list with the id that it got
      have hfirst : ((ds.map (·.name)).zip (st.idsGiven ds)).map (·.1) = ds.map (·.name) :=
        List.map_fst_zip (by simp)
      rw [← hfirst] at hname
      obtain ⟨pair, hpair, rfl⟩ := List.mem_map.mp hname
      have hno := List.find?_eq_none.mp hfound pair (List.mem_reverse.mpr hpair)
      exact absurd (beq_self_eq_true _) hno
  | some pair =>
      rw [hfound, Option.map_some, Option.some_or] at hlast
      obtain ⟨r, hr, hrname, hid⟩ := exists_of_lastNamed? hlast
      have hpair : pair.1 = name := by
        simpa using List.find?_some hfound
      exact ⟨r, hr, hrname, by rw [hid, ← hpair]⟩

end Store

namespace Database

/-- A symbol of a file as a call gives it, by texts and whole numbers. -/
structure GivenSymbol (project file : String) where
  fields : List (String × Value)
  data : SymbolData
  first : Int
  last : Int
  given : data.GivenBy first last fields
  project_eq : data.project = project
  file_eq : data.file = file

/-- Whether the line numbers have at most 64 bits. -/
def GivenSymbol.fits {project file : String} (s : GivenSymbol project file) : Bool :=
  Cell.fits s.first && Cell.fits s.last

/-- Symbols are stored by one call after another, up to the first one that fails. The ids that the
calls give are returned. -/
def insertEach (db : Database) (project : Value) : List Value → Result (Database × List Int)
  | [] => .ok (db, [])
  | fields :: rest => do
      let (db, id) ← db.insertSymbol fields project
      let (db, ids) ← db.insertEach project rest
      return (db, id :: ids)

variable {project file : String}

theorem mem_data_givenSymbols (symbols : List (GivenSymbol project file)) :
    ∀ d ∈ symbols.map (·.data), d.project = project ∧ d.file = file := by
  intro d hd
  obtain ⟨s, -, rfl⟩ := List.mem_map.mp hd
  exact ⟨s.project_eq, s.file_eq⟩

theorem insertSymbol_given (st : Store) (s : GivenSymbol project file) :
    (intact st).insertSymbol (.object s.fields) project
      = if s.fits then .ok (intact (st.insertSymbol s.data).1, (st.insertSymbol s.data).2)
        else .error .tooLarge := by
  have hdata := symbolOf_given s.given
  rw [s.project_eq] at hdata
  rw [insertSymbol_intact, hdata, GivenSymbol.fits]
  split <;> rfl

/-- All calls succeed when all line numbers fit. -/
theorem insertEach_given (st : Store) (symbols : List (GivenSymbol project file)) :
    (intact st).insertEach project (symbols.map fun s => .object s.fields)
      = if symbols.all (·.fits) then
          .ok (intact (st.insertSymbols (symbols.map (·.data))),
            st.idsGiven (symbols.map (·.data)))
        else .error .tooLarge := by
  induction symbols generalizing st with
  | nil => rfl
  | cons s rest ih =>
      rw [List.map_cons, insertEach, insertSymbol_given, List.all_cons]
      cases s.fits with
      | false => rfl
      | true =>
          -- the other calls go on with the tables that the first one leaves
          have hrest := ih (st.insertSymbol s.data).1
          rw [Bool.true_and, if_pos rfl]
          show Bind.bind ((intact (st.insertSymbol s.data).1).insertEach project
            (rest.map fun s => .object s.fields)) _ = _
          rw [hrest]
          split <;> rfl

theorem deleteFile_intact {st : Store} {project file : String}
    (h : (intact st).Fits project file) :
    (intact st).deleteFile file project = .ok (intact (st.removeFile file project)) := by
  simp only [deleteFile, connect_intact, need_intact, bindText_text, pure_bind]
  exact (clearable_intact st).removeFile h

theorem deleteFile_intact_refused {st : Store} {project file : String}
    (h : ¬ (intact st).Fits project file) :
    (intact st).deleteFile file project = .error .tooManyVariables := by
  simp only [deleteFile, connect_intact, need_intact, bindText_text, pure_bind]
  exact (clearable_intact st).removeFile_refused h

/-- In whatever state a database is reached, the symbols of a file can be removed, unless there are
more of them than can be bound in one statement, and others be stored for it one after another,
unless a line number has more than 64 bits. The file then has the symbols that were given, in this
order, without those that have a later one of their key. No embedding of an id that the file had is
left, symbols of other files and projects are as before, and the id that was given last for a name
is the id of a symbol of the file with that name. Too many symbols all stay. -/
theorem last_symbol_of_key_stays (actions : List Action) (project file : String)
    (symbols : List (GivenSymbol project file)) :
    ((reached actions).Fits project file →
      ∃ cleared, (reached actions).deleteFile file project = .ok cleared ∧
        if symbols.all (·.fits) then
          ∃ db ids, cleared.insertEach project (symbols.map fun s => .object s.fields)
              = .ok (db, ids) ∧
            ids.length = symbols.length ∧
            (db.store.rowsOf project file).Pairwise (·.id < ·.id) ∧
            db.store.dataOf project file = SymbolData.lastPerKey (symbols.map (·.data)) ∧
            (∀ r ∈ (reached actions).store.rowsOf project file, ∀ e ∈ db.store.embeddings,
              e.id ≠ r.id) ∧
            db.store.symbols.filter (·.isElsewhere project file)
              = (reached actions).store.symbols.filter (·.isElsewhere project file) ∧
            ∀ name ∈ symbols.map (·.data.name), ∃ r ∈ db.store.rowsOf project file,
              r.name = name ∧
                ((symbols.map (·.data.name)).zip ids).reverse.find? (·.1 == name)
                  = some (name, r.id)
        else cleared.insertEach project (symbols.map fun s => .object s.fields)
          = .error .tooLarge) ∧
    (¬ (reached actions).Fits project file →
      (reached actions).deleteFile file project = .error .tooManyVariables ∧
        (reached actions).perform (.deleteFile file project) = reached actions) := by
  have hregular := regular_reached actions
  have hshared := hregular.tidy.keyed.shared_eq
  have hds := mem_data_givenSymbols symbols
  have hnames : symbols.map (·.data.name) = (symbols.map (·.data)).map (·.name) := by
    rw [List.map_map]
    rfl
  rw [hregular.eq_intact]
  refine ⟨fun hfits => ⟨_, deleteFile_intact hfits, ?_⟩, fun hcrowded => ?_⟩
  · rw [insertEach_given]
    split
    · refine ⟨_, _, rfl, ?_, Store.pairwise_rowsOf_replaceFile _ project file _,
        Store.dataOf_replaceFile hds, ?_, Store.filter_isElsewhere_replaceFile hshared hds, ?_⟩
      · rw [Store.length_idsGiven, List.length_map]
      · intro r hr e he
        exact Store.embedding_ne_of_replaceFile he hr
      · rw [hnames]
        intro name hname
        exact Store.find?_idsGiven hds hname
    · rfl
  · have hrefused := deleteFile_intact_refused hcrowded
    refine ⟨hrefused, ?_⟩
    rw [perform, hrefused]
    rfl

/-- The function on one line as a call gives it. -/
def givenOnLine (n : Int) : GivenSymbol "p" "a.py" where
  fields := fieldsOnLine n
  data := functionOnLine n
  first := n
  last := n
  given := functionOnLine_givenBy n
  project_eq := rfl
  file_eq := rfl

/-- A function that is stored with an embedding. -/
def embeddedOnLine : List Action :=
  [.operation (.insertSymbol (.object (fieldsOnLine 1)) "p"),
   .operation (.insertEmbedding (.int 1) (.list [.int 1]))]

/-- The function is replaced by one on line 3, one on line 5 and again one on line 3. The last two
stay, the second of them is the last one of its name, and the embedding is gone although the first
new symbol got the id of the old one. -/
theorem last_symbol_of_key_stays_line :
    ∃ cleared db ids, (reached embeddedOnLine).deleteFile "a.py" "p" = .ok cleared ∧
      cleared.insertEach "p" ([3, 5, 3].map fun n => .object (fieldsOnLine n)) = .ok (db, ids) ∧
      db.store.dataOf "p" "a.py" = [functionOnLine 5, functionOnLine 3] ∧
      (∀ e ∈ db.store.embeddings, e.id ≠ 1) ∧
      ∃ r ∈ db.store.rowsOf "p" "a.py", (["f", "f", "f"].zip ids).getLast? = some ("f", r.id) := by
  obtain ⟨cleared, hcleared, hstored⟩ := (last_symbol_of_key_stays embeddedOnLine "p" "a.py"
    [givenOnLine 3, givenOnLine 5, givenOnLine 3]).1 (by decide +kernel)
  rw [if_pos (by decide)] at hstored
  obtain ⟨db, ids, hdb, hlength, -, hdata, hembeddings, -, hnames⟩ := hstored
  have hold : ⟨functionOnLine 1, 1⟩ ∈ (reached embeddedOnLine).store.rowsOf "p" "a.py" := by
    decide +kernel
  refine ⟨cleared, db, ids, hcleared, hdb, ?_, fun e he => hembeddings _ hold e he, ?_⟩
  · rw [hdata]
    decide
  · obtain ⟨r, hr, -, hlast⟩ := hnames "f" (by decide)
    obtain ⟨a, b, c, rfl⟩ := List.length_eq_three.mp hlength
    exact ⟨r, hr, hlast⟩

/-- A function on a line whose number has more than 64 bits is a symbol of its file, and still it is
not stored. And a file with a function on each of 32767 lines is not cleared. -/
theorem symbols_not_replaced :
    (reached []).deleteFile "a.py" "p" = .ok {} ∧
      insertEach {} "p" [.object (givenOnLine 9223372036854775808).fields] = .error .tooLarge ∧
      ({} : Database).store.dataOf "p" "a.py"
        ≠ SymbolData.lastPerKey [(givenOnLine 9223372036854775808).data] ∧
      (reached ((functionsOnLines 32767).map .operation)).deleteFile "a.py" "p"
        = .error .tooManyVariables := by
  refine ⟨rfl, insertEach_given {} [givenOnLine 9223372036854775808], by decide, ?_⟩
  have hcrowded : ¬ (reached ((functionsOnLines 32767).map .operation)).Fits "p" "a.py" := by
    rw [reached_operations, Fits, length_rowsOf_functionsOnLines (by decide)]
    decide
  rw [(regular_reached _).eq_intact] at hcrowded ⊢
  exact deleteFile_intact_refused hcrowded

end Database

end SymbolAtlas
