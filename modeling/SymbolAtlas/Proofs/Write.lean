/-
  SymbolAtlas.Proofs.Write: what operations write.

  A database that was empty at first never gets a fault, so that an operation on it can only fail by
  its arguments. They alone decide which of a few writes it is (`Operation.write`), and a sequence
  of operations is a sequence of writes to the tables (`performAll_intact`). What holds of all
  operations is proved of the writes, which have no results to look into.
-/

import SymbolAtlas.Proofs.Operation

namespace SymbolAtlas

/-- A change of the tables. -/
inductive Write where
  | nothing
  | putSymbol (d : SymbolData)
  | putRelation (d : RelationData)
  /-- an embedding under an id, or else under the next free one -/
  | putEmbedding (id : Option Int) (vector : Value)
  | removeFile (file project : String)
  | removeProject (project : String)
  | removeRelations (symbol : Cell) (project : String)
  | putProject (d : ProjectData)
  | noteScan (project : String) (commit branch : Option String)

namespace Store

/-- Removes symbols, unless there are more of them than can be removed at once. -/
def removeAtOnce (st : Store) (pick : SymbolRow → Bool) : Store :=
  if st.symbols.countP pick ≤ Database.maxVariables then st.removeSymbols pick else st

theorem removeAtOnce_cases (st : Store) (pick : SymbolRow → Bool) :
    st.removeAtOnce pick = st.removeSymbols pick ∨ st.removeAtOnce pick = st := by
  rw [removeAtOnce]
  split
  · exact .inl rfl
  · exact .inr rfl

theorem relations_removeAtOnce (st : Store) (pick : SymbolRow → Bool) :
    (st.removeAtOnce pick).relations = st.relations := by
  rcases st.removeAtOnce_cases pick with h | h
  all_goals rw [h]
  rfl

theorem symbols_removeAtOnce_subset (st : Store) (pick : SymbolRow → Bool) :
    (st.removeAtOnce pick).symbols ⊆ st.symbols := by
  rcases st.removeAtOnce_cases pick with h | h
  · rw [h]
    exact fun r hr => (List.mem_filter.mp hr).1
  · rw [h]
    exact List.Subset.refl _

/-- The tables after a change. -/
def write (st : Store) : Write → Store
  | .nothing => st
  | .putSymbol d => (st.insertSymbol d).1
  | .putRelation d => (st.insertRelation d).1
  | .putEmbedding id vector => st.putEmbedding (id.getD (nextId (st.embeddings.map (·.id)))) vector
  | .removeFile file project => st.removeAtOnce fun r => r.file == file && r.project == project
  | .removeProject project => st.removeAtOnce fun r => r.project == project
  | .removeRelations symbol project => st.removeRelations symbol project
  | .putProject d => (st.putProject d).1
  | .noteScan project commit branch => st.noteScan project commit branch

/-- The tables after changes, one after another. -/
def writeAll (st : Store) (ws : List Write) : Store := ws.foldl write st

end Store

namespace Database

/-! ## Arguments -/

/-- The symbol that arguments give. -/
def symbolOf (data project : Value) : Result SymbolData := do
  let language ← fieldOf data "language"
  let kind ← fieldOf data "symbol_type"
  let name ← fieldOf data "name"
  let file ← fieldOf data "file_path"
  let first ← fieldOf data "line_start"
  let last ← fieldOf data "line_end"
  let snippet ← fieldOf data "code_snippet"
  let digest ← fieldOf data "file_hash"
  let project ← bindText 1 project
  let language ← bindText 2 language
  let kind ← bindText 3 kind
  let name ← bindText 4 name
  let file ← bindText 5 file
  let first ← bindNumber 6 first
  let last ← bindNumber 7 last
  let snippet ← bindText 8 snippet
  let digest ← bindText 9 digest
  return {
    project := project.getD "default"
    language := ← notNull .symbols "language" language
    kind := ← notNull .symbols "symbol_type" kind
    name := ← notNull .symbols "name" name
    file := ← notNull .symbols "file_path" file
    first := ← notNull .symbols "line_start" first
    last := ← notNull .symbols "line_end" last
    snippet := ← notNull .symbols "code_snippet" snippet
    digest := ← notNull .symbols "file_hash" digest }

/-- The data of a relationship as they are stored. -/
def storedData (data : Value) : Option String :=
  if data.truthy then some (Json.write data) else none

/-- The relationship that arguments give. -/
def relationOf (source target kind project data : Value) : Result RelationData := do
  let project ← bindText 1 project
  let source ← bindNumber 2 source
  let target ← bindNumber 3 target
  let kind ← bindText 4 kind
  return {
    project := ← notNull .relationships "project_id" project
    source := ← notNull .relationships "source_symbol_id" source
    target := ← notNull .relationships "target_symbol_id" target
    kind := ← notNull .relationships "relationship_type" kind
    data := storedData data }

/-- The project that arguments give. -/
def projectOf (project name path isRepository commit branch : Value) : Result ProjectData := do
  let project ← bindText 1 project
  let name ← bindText 2 name
  let path ← bindText 3 path
  let isRepository ← bindNumber 4 isRepository
  let commit ← bindText 5 commit
  let branch ← bindText 6 branch
  return {
    project := ← notNull .projects "project_id" project
    name
    path := ← notNull .projects "path" path
    isRepository, commit, branch }

theorem Result.map_eq_ok {α β : Type} {f : α → β} {r : Result α} {b : β} :
    f <$> r = .ok b ↔ ∃ a, r = .ok a ∧ f a = b := by
  cases r with
  | error e => simp [Functor.map, Except.map]
  | ok a => simp [Functor.map, Except.map]

/-- The write that arguments give; nothing is written when they cannot be used. -/
def writeOf : Result Write → Write
  | .ok w => w
  | .error _ => .nothing

/-- What an operation writes to a database without faults. -/
def Operation.write : Operation → Write
  | .insertSymbol data project => writeOf (.putSymbol <$> symbolOf data project)
  | .insertRelation source target kind project data =>
    writeOf (.putRelation <$> relationOf source target kind project data)
  | .insertEmbedding id vector => writeOf do
    match ← bindNumber 1 id with
    | none => return .putEmbedding none vector
    | some (.int n) => return .putEmbedding (some n) vector
    | some _ => .error .mismatch
  | .deleteFile file project => writeOf do
    match ← bindText 1 file, ← bindText 2 project with
    | some f, some p => return .removeFile f p
    | _, _ => return .nothing
  | .deleteProject project => writeOf do
    match ← bindText 1 project with
    | some p => return .removeProject p
    | none => return .nothing
  | .deleteRelations symbol project => writeOf do
    match ← bindNumber 1 symbol, ← bindText 3 project with
    | some s, some p => return .removeRelations s p
    | _, _ => return .nothing
  | .createProject project name path isRepository commit branch =>
    writeOf (.putProject <$> projectOf project name path isRepository commit branch)
  | .updateScan project commit branch => writeOf do
    let given := [commit, branch].filter Value.truthy
    let commit ← bindFilter 1 commit
    let branch ← bindFilter given.length branch
    match ← bindText (given.length + 1) project with
    | some p => return .noteScan p commit branch
    | none => return .nothing
  | .reopen => .nothing

/-! ## Databases without faults -/

/-- A database without faults. -/
def intact (st : Store) : Database := { store := st }

variable (st : Store)

theorem store_intact : (intact st).store = st := rfl

theorem connect_intact : (intact st).connect = pure () := rfl

theorem need_intact (t : Table) : (intact st).need t = pure () := rfl

theorem rejectsSymbol_intact (name kind : Option String) :
    (intact st).rejectsSymbol name kind = false := rfl

theorem rejectsRelation_intact (kind : Option String) :
    (intact st).rejectsRelation kind = false := rfl

theorem withEmbeddings_intact : (intact st).withEmbeddings = intact st := rfl

theorem addSymbol_intact (d : SymbolData) :
    (intact st).addSymbol d = pure (intact (st.insertSymbol d).1, (st.insertSymbol d).2) := rfl

theorem addRelation_intact (d : RelationData) :
    (intact st).addRelation d = pure (intact (st.insertRelation d).1, (st.insertRelation d).2) :=
  rfl

theorem putProject_intact (d : ProjectData) :
    (intact st).putProject d = pure (intact (st.putProject d).1, (st.putProject d).2) := rfl

/-- Symbols are removed if their ids can be bound in one statement. -/
theorem removeSymbols_intact (pick : SymbolRow → Bool) :
    (intact st).removeSymbols pick =
      fitVariables (st.symbols.countP pick) >>= fun _ => pure (intact (st.removeSymbols pick)) := by
  simp only [removeSymbols, connect_intact, need_intact, pure_bind, store_intact]
  split
  next => rfl
  next hnone =>
    have hcount : st.symbols.countP pick = 0 := by
      rw [List.countP_eq_zero]
      exact fun r hr hpick => hnone (List.any_eq_true.mpr ⟨r, hr, hpick⟩)
    rw [hcount]
    rfl

theorem orElse_removeSymbols_intact (pick : SymbolRow → Bool) :
    (intact st).orElse ((intact st).removeSymbols pick) = intact (st.removeAtOnce pick) := by
  rw [removeSymbols_intact, fitVariables, Store.removeAtOnce]
  by_cases h : st.symbols.countP pick ≤ maxVariables
  · rw [if_pos h, if_neg (Nat.not_lt.mpr h)]
    rfl
  · rw [if_neg h, if_pos (Nat.not_le.mp h)]
    rfl

theorem reopen_intact : (intact st).reopen = pure (intact st) := by
  simp only [reopen, connect_intact, pure_bind]
  simp [intact]

/-- A symbol is stored whenever its arguments give one. -/
theorem insertSymbol_intact (data project : Value) :
    (intact st).insertSymbol data project =
      symbolOf data project >>= fun d =>
        pure (intact (st.insertSymbol d).1, (st.insertSymbol d).2) := by
  simp only [insertSymbol, symbolOf, connect_intact, need_intact, rejectsSymbol_intact,
    addSymbol_intact, pure_bind, bind_assoc, Bool.false_eq_true, if_false]

theorem insertRelation_intact (source target kind project data : Value) :
    (intact st).insertRelation source target kind project data =
      relationOf source target kind project data >>= fun d =>
        pure (intact (st.insertRelation d).1, (st.insertRelation d).2) := by
  simp only [insertRelation, relationOf, storedData, connect_intact, need_intact,
    rejectsRelation_intact, addRelation_intact, pure_bind, bind_assoc, Bool.false_eq_true, if_false]

theorem createProject_intact (project name path isRepository commit branch : Value) :
    (intact st).createProject project name path isRepository commit branch =
      projectOf project name path isRepository commit branch >>= fun d =>
        pure (intact (st.putProject d).1, (st.putProject d).2) := by
  simp only [createProject, projectOf, connect_intact, need_intact, putProject_intact, pure_bind,
    bind_assoc]

/-- One operation: its arguments decide what is written, whatever is stored. -/
theorem perform_intact (op : Operation) :
    (intact st).perform op = intact (st.write op.write) := by
  cases op with
  | insertSymbol data project =>
      rw [perform, insertSymbol_intact, Operation.write]
      cases symbolOf data project <;> rfl
  | insertRelation source target kind project data =>
      rw [perform, insertRelation_intact, Operation.write]
      cases relationOf source target kind project data <;> rfl
  | insertEmbedding id vector =>
      simp only [perform, insertEmbedding, connect_intact, withEmbeddings_intact, Operation.write,
        embeddingId]
      rcases bindNumber 1 id with _ | _ | _ | _ | _ <;> rfl
  | deleteFile file project =>
      simp only [perform, deleteFile, removeFile, connect_intact, need_intact, pure_bind,
        Operation.write]
      -- either argument may be refused, or be null and match nothing
      rcases bindText 1 file with _ | _ | f <;> rcases bindText 2 project with _ | _ | p
      case ok.some.ok.some => exact orElse_removeSymbols_intact st _
      all_goals rfl
  | deleteProject project =>
      simp only [perform, deleteProject, removeProject, connect_intact, need_intact, pure_bind,
        Operation.write]
      rcases bindText 1 project with _ | _ | p
      · rfl
      · rfl
      · exact orElse_removeSymbols_intact st _
  | deleteRelations symbol project =>
      simp only [perform, deleteRelations, connect_intact, need_intact, pure_bind, Operation.write]
      rcases bindNumber 1 symbol with _ | _ | _ <;> rcases bindText 3 project with _ | _ | _ <;> rfl
  | createProject project name path isRepository commit branch =>
      rw [perform, createProject_intact, Operation.write]
      cases projectOf project name path isRepository commit branch <;> rfl
  | updateScan project commit branch =>
      simp only [perform, updateScan, connect_intact, need_intact, pure_bind, Operation.write]
      generalize ([commit, branch].filter Value.truthy).length = n
      cases bindFilter 1 commit with
      | error e => rfl
      | ok c =>
          cases bindFilter n branch with
          | error e => rfl
          | ok b => rcases bindText (n + 1) project with _ | _ | _ <;> rfl
  | reopen =>
      rw [perform, reopen_intact]
      rfl

/-- All operations, by one after another. -/
theorem performAll_intact (ops : List Operation) :
    (intact st).performAll ops = intact (st.writeAll (ops.map Operation.write)) := by
  induction ops generalizing st with
  | nil => rfl
  | cons op rest ih =>
      have hrest := ih (st.write op.write)
      rw [← perform_intact] at hrest
      exact hrest

/-! ## Sequences of operations -/

/-- Whether operations lead to a database from an empty one. -/
def Reachable (db : Database) : Prop := ∃ ops, performAll {} ops = db

/-- Something that holds of each operation and the database that it meets. -/
def Throughout (P : Database → Operation → Prop) : Database → List Operation → Prop
  | _, [] => True
  | db, op :: rest => P db op ∧ Throughout P (db.perform op) rest

end Database

end SymbolAtlas
