/-
  SymbolAtlas.Proofs.Operation: sequences of operations on a database.

  Operations come with arguments of any shape. One that fails leaves the rows as they are, so that a
  sequence of operations always leads to a database. What an operation can do to the symbols is said
  once (`perform_symbols`): it keeps some of them, and at most one is new, whose id is larger than
  all that were there.
-/

import SymbolAtlas.Database.Call
import SymbolAtlas.Proofs.FileStage

namespace SymbolAtlas

namespace Store

theorem le_foldl_max (is : List Int) (i : Int) : i ≤ is.foldl max i := by
  induction is generalizing i with
  | nil => exact Int.le_refl i
  | cons j rest ih => exact Int.le_trans (Int.le_max_left i j) (ih (max i j))

theorem le_foldl_max_of_mem {is : List Int} {i j : Int} (h : j ∈ is) : j ≤ is.foldl max i := by
  induction is generalizing i with
  | nil => exact absurd h List.not_mem_nil
  | cons k rest ih =>
      rw [List.foldl_cons]
      rcases List.mem_cons.mp h with rfl | h
      · exact Int.le_trans (Int.le_max_right i j) (le_foldl_max rest (max i j))
      · exact ih h

/-- The next id is larger than every id that is used. -/
theorem lt_nextId {is : List Int} {i : Int} (h : i ∈ is) : i < nextId is := by
  cases is with
  | nil => exact absurd h List.not_mem_nil
  | cons j rest =>
      have hle : i ≤ rest.foldl max j := by
        rcases List.mem_cons.mp h with rfl | h
        · exact le_foldl_max rest i
        · exact le_foldl_max_of_mem h
      rw [nextId]
      omega

/-- A new row among rows that were there: values that were distinct stay so if the new one differs
from those that are kept. -/
theorem nodup_map_concat {α β : Type} {f : α → β} {rows kept : List α} {new : α}
    (h : (rows.map f).Nodup) (hsub : kept.Sublist rows) (hnew : ∀ r ∈ kept, f r ≠ f new) :
    ((kept ++ [new]).map f).Nodup := by
  rw [List.map_append, List.nodup_append]
  refine ⟨List.Nodup.sublist (hsub.map f) h, by simp, ?_⟩
  intro a ha b hb
  obtain ⟨r, hr, rfl⟩ := List.mem_map.mp ha
  obtain rfl := List.mem_singleton.mp hb
  exact hnew r hr

end Store

namespace Database

/-- An operation that may change a database. -/
inductive Operation where
  | insertSymbol (data project : Value)
  | insertRelation (source target kind project data : Value)
  | insertEmbedding (id vector : Value)
  | deleteFile (file project : Value)
  | deleteProject (project : Value)
  | deleteRelations (symbol project : Value)
  | createProject (project name path isRepository commit branch : Value)
  | updateScan (project commit branch : Value)
  | reopen

/-- What a change leads to; nothing changes when it fails. -/
def orElse (db : Database) : Result Database → Database
  | .ok db' => db'
  | .error _ => db

/-- The database after an operation. -/
def perform (db : Database) : Operation → Database
  | .insertSymbol data project => db.orElse ((db.insertSymbol data project).map (·.1))
  | .insertRelation source target kind project data =>
    db.orElse ((db.insertRelation source target kind project data).map (·.1))
  | .insertEmbedding id vector => (db.insertEmbedding id vector).1
  | .deleteFile file project => db.orElse (db.deleteFile file project)
  | .deleteProject project => db.orElse (db.deleteProject project)
  | .deleteRelations symbol project => db.orElse (db.deleteRelations symbol project)
  | .createProject project name path isRepository commit branch =>
    db.orElse ((db.createProject project name path isRepository commit branch).map (·.1))
  | .updateScan project commit branch => db.orElse (db.updateScan project commit branch)
  | .reopen => db.orElse db.reopen

/-- The database after operations, one after another. -/
def performAll (db : Database) (ops : List Operation) : Database := ops.foldl perform db

/-! ## Results -/

/-- A result that is made from another one is there when both are. -/
theorem Result.bind_eq_ok {ε α β : Type} {r : Except ε α} {f : α → Except ε β} {b : β} :
    (r >>= f) = .ok b ↔ ∃ a, r = .ok a ∧ f a = .ok b := by
  cases r with
  | error e => simp [Bind.bind, Except.bind]
  | ok a => simp [Bind.bind, Except.bind]

/-- A result without its second part. -/
theorem Result.map_fst_eq_ok {α β : Type} {r : Result (α × β)} {a : α} :
    r.map (·.1) = .ok a ↔ ∃ b, r = .ok (a, b) := by
  cases r with
  | error e => simp [Except.map]
  | ok p =>
      obtain ⟨a', b⟩ := p
      simp [Except.map]

/-! ## Arguments -/

theorem addSymbol_eq_ok {db db' : Database} {d : SymbolData} {id : Int}
    (h : db.addSymbol d = .ok (db', id)) :
    db' = db.withStore (db.store.insertSymbol d).1 ∧ id = (db.store.insertSymbol d).2 := by
  cases hadmits : db.admits d with
  | true =>
      rw [addSymbol_of_admits hadmits] at h
      obtain ⟨rfl, rfl⟩ := Prod.mk.inj (Except.ok.inj h)
      exact ⟨rfl, rfl⟩
  | false =>
      obtain ⟨e, he⟩ := addSymbol_of_not_admits hadmits
      rw [he] at h
      exact absurd h (by simp)

/-- A symbol that is given by its fields is stored as a row is. -/
theorem insertSymbol_eq_ok {db db' : Database} {data project : Value} {id : Int}
    (h : db.insertSymbol data project = .ok (db', id)) :
    ∃ d, db' = db.withStore (db.store.insertSymbol d).1 ∧ id = (db.store.insertSymbol d).2 := by
  simp only [insertSymbol, Result.bind_eq_ok] at h
  obtain ⟨-, -, language, -, kind, -, name, -, file, -, first, -, last, -, snippet, -, digest, -,
    -, -, project', -, language', -, kind', -, name', -, file', -, first', -, last', -,
    snippet', -, digest', -, h⟩ := h
  split at h
  · exact absurd h (by simp [Bind.bind, Except.bind])
  · simp only [Result.bind_eq_ok] at h
    obtain ⟨l, -, k, -, n, -, p, -, i, -, j, -, c, -, b, -, h⟩ := h
    exact ⟨_, addSymbol_eq_ok h⟩

theorem addRelation_eq_ok {db db' : Database} {d : RelationData} {id : Int}
    (h : db.addRelation d = .ok (db', id)) :
    db' = db.withStore (db.store.insertRelation d).1 ∧ id = (db.store.insertRelation d).2 := by
  rcases db.addRelation_cases d with ⟨e, he⟩ | hok
  · rw [he] at h
    exact absurd h (by simp)
  · rw [hok] at h
    obtain ⟨rfl, rfl⟩ := Prod.mk.inj (Except.ok.inj h)
    exact ⟨rfl, rfl⟩

/-- A relationship that is given by its ends is stored as a row is, with these ends. -/
theorem insertRelation_eq_ok {db db' : Database} {source target kind project data : Value}
    {id : Int} (h : db.insertRelation source target kind project data = .ok (db', id)) :
    ∃ d, db' = db.withStore (db.store.insertRelation d).1 ∧
      id = (db.store.insertRelation d).2 ∧
      bindNumber 2 source = .ok (some d.source) ∧ bindNumber 3 target = .ok (some d.target) := by
  simp only [insertRelation, Result.bind_eq_ok] at h
  obtain ⟨-, -, -, -, project', -, source', hsource, target', htarget, kind', -, h⟩ := h
  split at h
  · exact absurd h (by simp [Bind.bind, Except.bind])
  · simp only [Result.bind_eq_ok] at h
    obtain ⟨p, -, s, hs, t, ht, k, -, h⟩ := h
    obtain ⟨hdb, hid⟩ := addRelation_eq_ok h
    refine ⟨_, hdb, hid, ?_, ?_⟩
    · cases source' with
      | none => exact absurd hs (by simp [notNull])
      | some c =>
          obtain rfl := Except.ok.inj hs
          exact hsource
    · cases target' with
      | none => exact absurd ht (by simp [notNull])
      | some c =>
          obtain rfl := Except.ok.inj ht
          exact htarget

theorem removeSymbols_eq_ok {db db' : Database} {pick : SymbolRow → Bool}
    (h : db.removeSymbols pick = .ok db') : db' = db.withStore (db.store.removeSymbols pick) := by
  simp only [removeSymbols, Result.bind_eq_ok] at h
  obtain ⟨-, -, -, -, h⟩ := h
  split at h
  · simp only [Result.bind_eq_ok] at h
    obtain ⟨-, -, -, -, h⟩ := h
    exact (Except.ok.inj h).symm
  · exact (Except.ok.inj h).symm

/-- Deleting a file removes some symbols or nothing. -/
theorem deleteFile_eq_ok {db db' : Database} {file project : Value}
    (h : db.deleteFile file project = .ok db') :
    db' = db ∨ ∃ pick, db' = db.withStore (db.store.removeSymbols pick) := by
  simp only [deleteFile, Result.bind_eq_ok] at h
  obtain ⟨-, -, -, -, f, -, p, -, h⟩ := h
  split at h
  · exact .inr ⟨_, removeSymbols_eq_ok h⟩
  · exact .inl (Except.ok.inj h).symm

theorem deleteProject_eq_ok {db db' : Database} {project : Value}
    (h : db.deleteProject project = .ok db') :
    db' = db ∨ ∃ pick, db' = db.withStore (db.store.removeSymbols pick) := by
  simp only [deleteProject, Result.bind_eq_ok] at h
  obtain ⟨-, -, -, -, p, -, h⟩ := h
  split at h
  · exact .inr ⟨_, removeSymbols_eq_ok h⟩
  · exact .inl (Except.ok.inj h).symm

theorem deleteRelations_eq_ok {db db' : Database} {symbol project : Value}
    (h : db.deleteRelations symbol project = .ok db') :
    db' = db ∨ ∃ s p, db' = db.withStore (db.store.removeRelations s p) := by
  simp only [deleteRelations, Result.bind_eq_ok] at h
  obtain ⟨-, -, -, -, s, -, p, -, h⟩ := h
  split at h
  · exact .inr ⟨_, _, (Except.ok.inj h).symm⟩
  · exact .inl (Except.ok.inj h).symm

theorem createProject_eq_ok {db db' : Database} {id : Int}
    {project name path isRepository commit branch : Value}
    (h : db.createProject project name path isRepository commit branch = .ok (db', id)) :
    ∃ d, db' = db.withStore (db.store.putProject d).1 := by
  simp only [createProject, putProject, Result.bind_eq_ok] at h
  obtain ⟨-, -, -, -, project', -, name', -, path', -, isRepository', -, commit', -, branch', -,
    p, -, q, -, -, -, -, -, h⟩ := h
  exact ⟨_, (Prod.mk.inj (Except.ok.inj h)).1.symm⟩

theorem updateScan_eq_ok {db db' : Database} {project commit branch : Value}
    (h : db.updateScan project commit branch = .ok db') :
    db' = db ∨ ∃ p c b, db' = db.withStore (db.store.noteScan p c b) := by
  simp only [updateScan, Result.bind_eq_ok] at h
  obtain ⟨-, -, -, -, c, -, b, -, p, -, h⟩ := h
  split at h
  · simp only [noteScan, Result.bind_eq_ok] at h
    obtain ⟨-, -, -, -, h⟩ := h
    exact .inr ⟨_, _, _, (Except.ok.inj h).symm⟩
  · exact .inl (Except.ok.inj h).symm

theorem reopen_eq_ok {db db' : Database} (h : db.reopen = .ok db') :
    db'.store.symbols = db.store.symbols := by
  simp only [reopen, Result.bind_eq_ok] at h
  obtain ⟨-, -, h⟩ := h
  rw [← Except.ok.inj h]

theorem insertEmbedding_symbols (db : Database) (id vector : Value) :
    (db.insertEmbedding id vector).1.store.symbols = db.store.symbols := by
  rw [insertEmbedding]
  split
  · rfl
  · dsimp only
    split <;> rfl

/-! ## Symbols -/

/-- The symbol that an operation stores. -/
def newSymbol? (db : Database) : Operation → Option SymbolRow
  | .insertSymbol data project =>
    match db.insertSymbol data project with
    | .ok (db', _) => db'.store.symbols.getLast?
    | .error _ => none
  | _ => none

theorem sublist_orElse {db : Database} {r : Result Database}
    (hok : ∀ db', r = .ok db' → db'.store.symbols.Sublist db.store.symbols) :
    (db.orElse r).store.symbols.Sublist db.store.symbols := by
  cases r with
  | error e => exact List.Sublist.refl _
  | ok db' => exact hok db' rfl

/-- An operation keeps some of the symbols, and at most one is new. The id of a new one is larger
than those of all that were there. -/
theorem perform_symbols (db : Database) (op : Operation) :
    (db.newSymbol? op = none ∧ (db.perform op).store.symbols.Sublist db.store.symbols) ∨
      ∃ row kept, db.newSymbol? op = some row ∧ kept.Sublist db.store.symbols ∧
        (db.perform op).store.symbols = kept ++ [row] ∧
        row.id = Store.nextId (db.store.symbols.map (·.id)) := by
  cases op with
  | insertSymbol data project =>
      -- the one operation that stores a symbol: at the end, after those that clash are removed
      cases h : db.insertSymbol data project with
      | error e =>
          refine .inl ⟨by rw [newSymbol?, h], ?_⟩
          rw [perform, h]
          exact List.Sublist.refl _
      | ok result =>
          obtain ⟨db', id⟩ := result
          obtain ⟨d, rfl, -⟩ := insertSymbol_eq_ok h
          refine .inr ⟨{ d with id := Store.nextId (db.store.symbols.map (·.id)) },
            db.store.symbols.filter fun r => !Store.clash db.store.shared r.toSymbolData d,
            ?_, List.filter_sublist, ?_, rfl⟩
          · rw [newSymbol?, h]
            exact List.getLast?_concat
          · rw [perform, h]
            rfl
  | insertRelation source target kind project data =>
      refine .inl ⟨rfl, sublist_orElse fun db' h => ?_⟩
      obtain ⟨id, h⟩ := Result.map_fst_eq_ok.mp h
      obtain ⟨d, rfl, -⟩ := insertRelation_eq_ok h
      exact List.Sublist.refl _
  | insertEmbedding id vector =>
      -- a call that fails may yet have made the missing table, so there is no inversion to use
      rw [perform, insertEmbedding_symbols]
      exact .inl ⟨rfl, List.Sublist.refl _⟩
  | deleteFile file project =>
      refine .inl ⟨rfl, sublist_orElse fun db' h => ?_⟩
      rcases deleteFile_eq_ok h with rfl | ⟨pick, rfl⟩
      · exact List.Sublist.refl _
      · exact List.filter_sublist
  | deleteProject project =>
      refine .inl ⟨rfl, sublist_orElse fun db' h => ?_⟩
      rcases deleteProject_eq_ok h with rfl | ⟨pick, rfl⟩
      · exact List.Sublist.refl _
      · exact List.filter_sublist
  | deleteRelations symbol project =>
      refine .inl ⟨rfl, sublist_orElse fun db' h => ?_⟩
      rcases deleteRelations_eq_ok h with rfl | ⟨s, p, rfl⟩
      all_goals exact List.Sublist.refl _
  | createProject project name path isRepository commit branch =>
      refine .inl ⟨rfl, sublist_orElse fun db' h => ?_⟩
      obtain ⟨id, h⟩ := Result.map_fst_eq_ok.mp h
      obtain ⟨d, rfl⟩ := createProject_eq_ok h
      exact List.Sublist.refl _
  | updateScan project commit branch =>
      refine .inl ⟨rfl, sublist_orElse fun db' h => ?_⟩
      rcases updateScan_eq_ok h with rfl | ⟨p, c, b, rfl⟩
      all_goals exact List.Sublist.refl _
  | reopen =>
      refine .inl ⟨rfl, sublist_orElse fun db' h => ?_⟩
      exact reopen_eq_ok h ▸ List.Sublist.refl _

/-! ## Ids -/

/-- The ids of symbols are distinct. -/
def DistinctIds (db : Database) : Prop := (db.store.symbols.map (·.id)).Nodup

/-- One operation: a new symbol has an id that no other symbol has. -/
theorem DistinctIds.perform {db : Database} (h : db.DistinctIds) (op : Operation) :
    (db.perform op).DistinctIds := by
  rcases db.perform_symbols op with ⟨-, hsub⟩ | ⟨row, kept, -, hsub, hrows, hid⟩
  · exact List.Nodup.sublist (hsub.map _) h
  · rw [DistinctIds, hrows]
    refine Store.nodup_map_concat h hsub ?_
    intro r hr heq
    have hlt := Store.lt_nextId (List.mem_map_of_mem (f := (·.id)) (hsub.mem hr))
    omega

/-- All operations, by one after another. -/
theorem DistinctIds.performAll {db : Database} (h : db.DistinctIds) (ops : List Operation) :
    (db.performAll ops).DistinctIds := by
  induction ops generalizing db with
  | nil => exact h
  | cons op rest ih => exact ih (h.perform op)

end Database

end SymbolAtlas
