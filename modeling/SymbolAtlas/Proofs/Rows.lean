/-
  SymbolAtlas.Proofs.Rows: the symbols that are stored of a file.

  Storing a symbol replaces the one of the same language, name and first line, so symbols that are
  stored one after another into a file without symbols leave the last one of each key
  (`foldl_upsert_nil`). Whatever is done to the symbols of a file leaves the symbols of other files
  and, unless projects share their symbols, of other projects as they are.
-/

import SymbolAtlas.Store.Basic

namespace SymbolAtlas

namespace SymbolData

/-- Whether two symbols of a file take each other's place. -/
def sameKey (a b : SymbolData) : Bool :=
  a.language == b.language && a.name == b.name && a.first == b.first

/-- The last symbol of each language, name and first line, in order. -/
def lastPerKey : List SymbolData → List SymbolData
  | [] => []
  | d :: rest => if rest.any (sameKey d) then lastPerKey rest else d :: lastPerKey rest

/-- Symbols with one more at the end, in place of those of its key. -/
def upsert (ds : List SymbolData) (d : SymbolData) : List SymbolData :=
  (ds.filter fun r => !sameKey r d) ++ [d]

theorem lastPerKey_subset {d : SymbolData} {ds : List SymbolData} (h : d ∈ lastPerKey ds) :
    d ∈ ds := by
  induction ds with
  | nil => exact h
  | cons e rest ih =>
      rw [lastPerKey] at h
      split at h
      · exact List.mem_cons_of_mem e (ih h)
      · rcases List.mem_cons.mp h with rfl | h
        · exact List.mem_cons_self
        · exact List.mem_cons_of_mem e (ih h)

/-- Symbols of different keys all stay. -/
theorem lastPerKey_eq_self {ds : List SymbolData}
    (h : ds.Pairwise fun a b => sameKey a b = false) : lastPerKey ds = ds := by
  induction ds with
  | nil => rfl
  | cons d rest ih =>
      obtain ⟨hfirst, hrest⟩ := List.pairwise_cons.mp h
      have hany : rest.any (sameKey d) = false := by
        rw [List.any_eq_false]
        intro e he
        simp [hfirst e he]
      rw [lastPerKey, hany, ih hrest]
      rfl

/-- Something is left of any symbols at all: the last one. -/
theorem lastPerKey_eq_nil {ds : List SymbolData} : lastPerKey ds = [] ↔ ds = [] := by
  constructor
  · intro h
    induction ds with
    | nil => rfl
    | cons d rest ih =>
        rw [lastPerKey] at h
        split at h
        next hany =>
          rw [ih h] at hany
          exact absurd hany (by simp)
        next => exact absurd h (by simp)
  · intro h
    rw [h, lastPerKey]

/-- Symbols put one after another: what was there before stays unless its key comes again. -/
theorem foldl_upsert (ds acc : List SymbolData) :
    ds.foldl upsert acc = (acc.filter fun r => !ds.any (sameKey r)) ++ lastPerKey ds := by
  induction ds generalizing acc with
  | nil =>
      rw [List.foldl_nil, lastPerKey, List.append_nil, eq_comm, List.filter_eq_self]
      intro r _
      rfl
  | cons d rest ih =>
      rw [List.foldl_cons, ih, upsert, List.filter_append, List.filter_filter, List.append_assoc]
      have hacc : (acc.filter fun r => (!rest.any (sameKey r)) && !sameKey r d)
          = acc.filter fun r => !(d :: rest).any (sameKey r) := by
        apply List.filter_congr
        intro r _
        rw [List.any_cons, Bool.not_or, Bool.and_comm]
      rw [hacc, lastPerKey]
      by_cases h : rest.any (sameKey d) <;> simp [h]

theorem foldl_upsert_nil (ds : List SymbolData) : ds.foldl upsert [] = lastPerKey ds := by
  rw [foldl_upsert, List.filter_nil, List.nil_append]

end SymbolData

namespace Store

open SymbolData

/-- The symbols that are stored of a file in a project, in the order of their ids. -/
def rowsOf (st : Store) (project file : String) : List SymbolRow :=
  st.symbols.filter fun r => r.project == project && r.file == file

/-- The symbols that are stored of a file in a project, without their ids. -/
def dataOf (st : Store) (project file : String) : List SymbolData :=
  (st.rowsOf project file).map (·.toSymbolData)

theorem mem_rowsOf {st : Store} {project file : String} {r : SymbolRow} :
    r ∈ st.rowsOf project file ↔ r ∈ st.symbols ∧ r.project = project ∧ r.file = file := by
  rw [rowsOf, List.mem_filter, Bool.and_eq_true, beq_iff_eq, beq_iff_eq]

/-- The symbols that are removed with a file are those that are stored of it. -/
theorem countP_eq_length_rowsOf (st : Store) (project file : String) :
    (st.symbols.countP fun r => r.file == file && r.project == project)
      = (st.rowsOf project file).length := by
  rw [List.countP_eq_length_filter, rowsOf]
  simp only [Bool.and_comm]

theorem any_eq_not_isEmpty_rowsOf (st : Store) (project file : String) :
    (st.symbols.any fun r => r.file == file && r.project == project)
      = !(st.rowsOf project file).isEmpty := by
  rw [Bool.eq_iff_iff, List.any_eq_true, Bool.not_eq_true', List.isEmpty_eq_false_iff_exists_mem]
  simp only [mem_rowsOf, Bool.and_eq_true, beq_iff_eq, and_comm]

theorem dataOf_eq_nil {st : Store} {project file : String} :
    st.dataOf project file = [] ↔ st.rowsOf project file = [] := by
  rw [dataOf, List.map_eq_nil_iff]

/-- A file is current when one of its symbols carries the digest. -/
theorem isCurrent_iff {st : Store} {file digest project : String} :
    st.isCurrent file digest project = true ↔
      ∃ d ∈ st.dataOf project file, d.digest = digest := by
  simp only [isCurrent, List.any_eq_true, Bool.and_eq_true, beq_iff_eq, dataOf, List.mem_map,
    mem_rowsOf]
  constructor
  · rintro ⟨r, hr, ⟨hfile, hdigest⟩, hproject⟩
    exact ⟨r.toSymbolData, ⟨r, ⟨hr, hproject, hfile⟩, rfl⟩, hdigest⟩
  · rintro ⟨d, ⟨r, ⟨hr, hproject, hfile⟩, rfl⟩, hdigest⟩
    exact ⟨r, hr, ⟨hfile, hdigest⟩, hproject⟩

/-! ## Removing -/

theorem rowsOf_removeSymbols (st : Store) (pick : SymbolRow → Bool) (project file : String) :
    (st.removeSymbols pick).rowsOf project file
      = (st.rowsOf project file).filter fun r => !pick r := by
  rw [rowsOf, rowsOf, removeSymbols, List.filter_filter, List.filter_filter]
  apply List.filter_congr
  intro r _
  rw [Bool.and_comm]

/-- Nothing is stored of a file after its symbols are removed. -/
theorem rowsOf_removeFile_same (st : Store) (project file : String) :
    (st.removeFile file project).rowsOf project file = [] := by
  rw [removeFile, rowsOf_removeSymbols, List.filter_eq_nil_iff]
  intro r hr
  obtain ⟨-, hproject, hfile⟩ := mem_rowsOf.mp hr
  simp [hproject, hfile]

/-- Removing the symbols of a file touches no other file and no other project. -/
theorem rowsOf_removeFile_other (st : Store) {project file project' file' : String}
    (h : file ≠ file' ∨ project ≠ project') :
    (st.removeFile file project).rowsOf project' file' = st.rowsOf project' file' := by
  rw [removeFile, rowsOf_removeSymbols, List.filter_eq_self]
  intro r hr
  obtain ⟨-, rfl, rfl⟩ := mem_rowsOf.mp hr
  rcases h with h | h <;> simp [Ne.symm h]

/-- Removing what is not there changes nothing. -/
theorem removeSymbols_of_none (st : Store) (pick : SymbolRow → Bool)
    (h : st.symbols.any pick = false) : st.removeSymbols pick = st := by
  have hpick : ∀ r ∈ st.symbols, pick r = false := by
    intro r hr
    rw [List.any_eq_false] at h
    simpa using h r hr
  have hgone : st.symbols.filter pick = [] := by
    rw [List.filter_eq_nil_iff]
    intro r hr
    simp [hpick r hr]
  have hkept : (st.symbols.filter fun r => !pick r) = st.symbols := by
    rw [List.filter_eq_self]
    intro r hr
    simp [hpick r hr]
  have hembeddings :
      (st.embeddings.filter fun e => !(([] : List SymbolRow).map (·.id)).contains e.id)
        = st.embeddings := by
    rw [List.filter_eq_self]
    intro e _
    rfl
  rw [removeSymbols, hgone, hkept, hembeddings]

/-! ## Storing -/

/-- Within a file of a project, clashing is having the same key. -/
theorem clash_eq_sameKey {shared : Bool} {a b : SymbolData} (hproject : a.project = b.project)
    (hfile : a.file = b.file) : clash shared a b = sameKey a b := by
  simp [clash, sameKey, hproject, hfile]

/-- A symbol is stored at the end of its file, in place of the one of its key. -/
theorem rowsOf_insertSymbol_same (st : Store) {d : SymbolData} {project file : String}
    (hproject : d.project = project) (hfile : d.file = file) :
    (st.insertSymbol d).1.rowsOf project file
      = ((st.rowsOf project file).filter fun r => !sameKey r.toSymbolData d)
        ++ [{ d with id := (st.insertSymbol d).2 }] := by
  simp only [rowsOf, insertSymbol, List.filter_append]
  congr 1
  · rw [List.filter_filter, List.filter_filter]
    apply List.filter_congr
    intro r _
    by_cases h : r.project = project ∧ r.file = file
    · rw [clash_eq_sameKey (h.1.trans hproject.symm) (h.2.trans hfile.symm), Bool.and_comm]
    · have hno : (r.project == project && r.file == file) = false := by
        simpa using h
      rw [hno, Bool.false_and, Bool.and_false]
  · simp [hproject, hfile]

theorem dataOf_insertSymbol_same (st : Store) {d : SymbolData} {project file : String}
    (hproject : d.project = project) (hfile : d.file = file) :
    (st.insertSymbol d).1.dataOf project file = upsert (st.dataOf project file) d := by
  rw [dataOf, rowsOf_insertSymbol_same st hproject hfile, List.map_append, upsert, dataOf,
    List.filter_map]
  rfl

/-- Storing a symbol touches no other file, and no other project unless symbols are shared. -/
theorem rowsOf_insertSymbol_other (st : Store) {d : SymbolData} {project file : String}
    (h : d.file ≠ file ∨ st.shared = false ∧ d.project ≠ project) :
    (st.insertSymbol d).1.rowsOf project file = st.rowsOf project file := by
  have hkept : ((st.symbols.filter fun r => !clash st.shared r.toSymbolData d).filter
        fun r => r.project == project && r.file == file) = st.rowsOf project file := by
    rw [List.filter_filter, rowsOf]
    apply List.filter_congr
    intro r _
    by_cases hr : r.project = project ∧ r.file = file
    · have hno : clash st.shared r.toSymbolData d = false := by
        rcases h with h | ⟨hs, h⟩
        · simp [clash, hr.2, Ne.symm h]
        · simp [clash, hr.1, hs, Ne.symm h]
      rw [hno, Bool.not_false, Bool.and_true]
    · have hno : (r.project == project && r.file == file) = false := by
        simpa using hr
      rw [hno, Bool.false_and]
  have hnew : (d.project == project && d.file == file) = false := by
    rcases h with h | ⟨-, h⟩ <;> simp [h]
  rw [rowsOf, insertSymbol, List.filter_append, hkept]
  simp [hnew]

end Store

end SymbolAtlas
