/-
  SymbolAtlas.Proofs.Tables: what always holds of the tables.

  The tables of a database that was empty at first are consistent: ids are distinct, and so are the
  keys by which rows take each other's place (`Consistent.writeAll`). Storing gives the id of a row
  with what was passed, and a relationship holds the data that were given last for its key
  (`LastGiven.writeAll`). Whole numbers of more than 64 bits are refused.
-/

import SymbolAtlas.Proofs.Ends
import SymbolAtlas.Proofs.Write

namespace SymbolAtlas

/-- What a symbol is unique by. -/
def SymbolData.key (d : SymbolData) : String × String × String × String × Cell :=
  (d.project, d.language, d.name, d.file, d.first)

/-- What a relationship is unique by. -/
def RelationData.key (d : RelationData) : String × Cell × Cell × String :=
  (d.project, d.source, d.target, d.kind)

/-- The relationship that a write stores. -/
def Write.relation? : Write → Option RelationData
  | .putRelation d => some d
  | _ => none

namespace Store

variable {st : Store}

/-! ## Consistent tables -/

/-- Tables without two rows that exclude each other. Embeddings stand in the order of their ids. -/
structure Consistent (st : Store) : Prop where
  separate : st.shared = false
  symbolIds : (st.symbols.map (·.id)).Nodup
  one_le_id : ∀ r ∈ st.symbols, 1 ≤ r.id
  symbolKeys : (st.symbols.map (·.key)).Nodup
  relationIds : (st.relations.map (·.id)).Nodup
  relationKeys : (st.relations.map (·.key)).Nodup
  embeddingIds : st.embeddings.Pairwise (·.id < ·.id)
  projectIds : (st.projects.map (·.id)).Nodup
  projectNames : (st.projects.map (·.project)).Nodup

theorem consistent_empty : Consistent {} where
  separate := rfl
  symbolIds := List.nodup_nil
  one_le_id := fun _ hr => absurd hr List.not_mem_nil
  symbolKeys := List.nodup_nil
  relationIds := List.nodup_nil
  relationKeys := List.nodup_nil
  embeddingIds := List.Pairwise.nil
  projectIds := List.nodup_nil
  projectNames := List.nodup_nil

/-- When projects do not share symbols, symbols clash by their keys. -/
theorem clash_iff {a b : SymbolData} : clash false a b = true ↔ a.key = b.key := by
  simp [clash, SymbolData.key, and_assoc]

theorem sameRelation_iff {a b : RelationData} : sameRelation a b = true ↔ a.key = b.key := by
  simp [sameRelation, RelationData.key, and_assoc]

/-- The rows that are kept have other ids than the next one. -/
theorem id_ne_nextId {α : Type} {id : α → Int} {rows kept : List α} (hsub : kept.Sublist rows) :
    ∀ r ∈ kept, id r ≠ nextId (rows.map id) := by
  intro r hr heq
  have hlt := lt_nextId (List.mem_map_of_mem (f := id) (hsub.mem hr))
  omega

theorem one_le_nextId {is : List Int} (h : ∀ i ∈ is, 1 ≤ i) : 1 ≤ nextId is := by
  cases is with
  | nil => exact Int.le_refl 1
  | cons i rest =>
      have hi := h i List.mem_cons_self
      have hlt := lt_nextId (List.mem_cons_self : i ∈ i :: rest)
      omega

/-- A symbol with the next id, after some of those that are there. -/
theorem one_le_id_concat {rows kept : List SymbolRow} (h : ∀ r ∈ rows, 1 ≤ r.id)
    (hsub : kept.Sublist rows) {row : SymbolRow} (hrow : row.id = nextId (rows.map (·.id))) :
    ∀ r ∈ kept ++ [row], 1 ≤ r.id := by
  intro r hr
  rcases List.mem_append.mp hr with hold | hnew
  · exact h r (hsub.mem hold)
  · obtain rfl := List.mem_singleton.mp hnew
    rw [hrow]
    refine one_le_nextId ?_
    intro i hi
    obtain ⟨s, hs, rfl⟩ := List.mem_map.mp hi
    exact h s hs

/-! ## Writes to consistent tables -/

theorem Consistent.insertSymbol (h : st.Consistent) (d : SymbolData) :
    (st.insertSymbol d).1.Consistent := by
  have hsub : (st.symbols.filter fun r => !clash st.shared r.toSymbolData d).Sublist st.symbols :=
    List.filter_sublist
  refine { h with symbolIds := ?_, one_le_id := ?_, symbolKeys := ?_ }
  · exact nodup_map_concat h.symbolIds hsub (id_ne_nextId hsub)
  · exact one_le_id_concat h.one_le_id hsub rfl
  · refine nodup_map_concat h.symbolKeys hsub ?_
    intro r hr hkey
    -- a row of the same key would not have been kept
    have hclash := (List.mem_filter.mp hr).2
    rw [h.separate, clash_iff.mpr hkey] at hclash
    exact absurd hclash (by simp)

theorem Consistent.insertRelation (h : st.Consistent) (d : RelationData) :
    (st.insertRelation d).1.Consistent := by
  have hsub :
      (st.relations.filter fun r => !sameRelation r.toRelationData d).Sublist st.relations :=
    List.filter_sublist
  refine { h with relationIds := ?_, relationKeys := ?_ }
  · exact nodup_map_concat h.relationIds hsub (id_ne_nextId hsub)
  · refine nodup_map_concat h.relationKeys hsub ?_
    intro r hr hkey
    have hsame := (List.mem_filter.mp hr).2
    rw [sameRelation_iff.mpr hkey] at hsame
    exact absurd hsame (by simp)

theorem Consistent.putProject (h : st.Consistent) (d : ProjectData) :
    (st.putProject d).1.Consistent := by
  have hsub : (st.projects.filter fun r => !(r.project == d.project)).Sublist st.projects :=
    List.filter_sublist
  refine { h with projectIds := ?_, projectNames := ?_ }
  · exact nodup_map_concat h.projectIds hsub (id_ne_nextId hsub)
  · refine nodup_map_concat h.projectNames hsub ?_
    intro r hr hname
    have hother := (List.mem_filter.mp hr).2
    rw [hname, beq_self_eq_true] at hother
    exact absurd hother (by simp)

/-- Noting a scan keeps every column but the commit and the branch. -/
theorem map_noteScan {α : Type} (column : ProjectRow → α)
    (hcolumn : ∀ (r : ProjectRow) c b, column { r with commit := c, branch := b } = column r)
    (st : Store) (project : String) (commit branch : Option String) :
    (st.noteScan project commit branch).projects.map column = st.projects.map column := by
  rw [Store.noteScan, List.map_map]
  apply List.map_congr_left
  intro r _
  rw [Function.comp_apply]
  split
  · exact hcolumn r _ _
  · rfl

theorem Consistent.noteScan (h : st.Consistent) (project : String)
    (commit branch : Option String) : (st.noteScan project commit branch).Consistent := by
  refine { h with projectIds := ?_, projectNames := ?_ }
  · rw [map_noteScan (·.id) (fun _ _ _ => rfl)]
    exact h.projectIds
  · rw [map_noteScan (·.project) (fun _ _ _ => rfl)]
    exact h.projectNames

theorem mem_putRow {e f : EmbeddingRow} {rows : List EmbeddingRow} (h : f ∈ putRow e rows) :
    f = e ∨ f ∈ rows := by
  induction rows with
  | nil => exact .inl (List.mem_singleton.mp h)
  | cons g rest ih =>
      rw [putRow] at h
      split at h
      · rcases List.mem_cons.mp h with h | h
        · exact .inl h
        · exact .inr (List.mem_cons_of_mem g h)
      · split at h
        · exact List.mem_cons.mp h
        · rcases List.mem_cons.mp h with h | h
          · exact .inr (h ▸ List.mem_cons_self)
          · exact (ih h).imp id (List.mem_cons_of_mem g)

/-- An embedding is put where the ids stay in order. -/
theorem pairwise_putRow {rows : List EmbeddingRow} (h : rows.Pairwise (·.id < ·.id))
    (e : EmbeddingRow) : (putRow e rows).Pairwise (·.id < ·.id) := by
  induction rows with
  | nil => exact List.pairwise_singleton _ e
  | cons f rest ih =>
      obtain ⟨hfirst, hrest⟩ := List.pairwise_cons.mp h
      rw [putRow]
      split
      next hid => exact List.pairwise_cons.mpr ⟨fun g hg => hid ▸ hfirst g hg, hrest⟩
      next hne =>
        split
        next hlt =>
          refine List.pairwise_cons.mpr ⟨?_, h⟩
          intro g hg
          rcases List.mem_cons.mp hg with rfl | hg
          · exact hlt
          · exact Int.lt_trans hlt (hfirst g hg)
        next hge =>
          -- the row goes further down, among ids that are larger than the first one
          refine List.pairwise_cons.mpr ⟨?_, ih hrest⟩
          intro g hg
          rcases mem_putRow hg with rfl | hg
          · omega
          · exact hfirst g hg

theorem Consistent.putEmbedding (h : st.Consistent) (id : Int) (vector : Value) :
    (st.putEmbedding id vector).Consistent :=
  { h with embeddingIds := pairwise_putRow h.embeddingIds _ }

theorem Consistent.removeSymbols (h : st.Consistent) (pick : SymbolRow → Bool) :
    (st.removeSymbols pick).Consistent :=
  { h with
    symbolIds := List.Nodup.sublist (List.filter_sublist.map _) h.symbolIds
    one_le_id := fun r hr => h.one_le_id r (List.mem_filter.mp hr).1
    symbolKeys := List.Nodup.sublist (List.filter_sublist.map _) h.symbolKeys
    embeddingIds := h.embeddingIds.sublist List.filter_sublist }

theorem Consistent.removeAtOnce (h : st.Consistent) (pick : SymbolRow → Bool) :
    (st.removeAtOnce pick).Consistent := by
  rcases st.removeAtOnce_cases pick with heq | heq
  · rw [heq]
    exact h.removeSymbols pick
  · rw [heq]
    exact h

theorem Consistent.removeRelations (h : st.Consistent) (symbol : Cell) (project : String) :
    (st.removeRelations symbol project).Consistent :=
  { h with
    relationIds := List.Nodup.sublist (List.filter_sublist.map _) h.relationIds
    relationKeys := List.Nodup.sublist (List.filter_sublist.map _) h.relationKeys }

/-- One write. -/
theorem Consistent.write (h : st.Consistent) (w : Write) : (st.write w).Consistent := by
  cases w with
  | nothing => exact h
  | putSymbol d => exact h.insertSymbol d
  | putRelation d => exact h.insertRelation d
  | putEmbedding id vector => exact h.putEmbedding _ vector
  | removeFile file project => exact h.removeAtOnce _
  | removeProject project => exact h.removeAtOnce _
  | removeRelations symbol project => exact h.removeRelations symbol project
  | putProject d => exact h.putProject d
  | noteScan project commit branch => exact h.noteScan project commit branch

/-- All writes, by one after another. -/
theorem Consistent.writeAll (h : st.Consistent) (ws : List Write) :
    (st.writeAll ws).Consistent := by
  induction ws generalizing st with
  | nil => exact h
  | cons w rest ih => exact ih (h.write w)

theorem Consistent.eq_of_id (h : st.Consistent) {a b : SymbolRow} (ha : a ∈ st.symbols)
    (hb : b ∈ st.symbols) (hid : a.id = b.id) : a = b :=
  List.inj_on_of_nodup_map h.symbolIds ha hb hid

/-- A symbol is found by its id. -/
theorem Consistent.symbol?_id (h : st.Consistent) {a : SymbolRow} (ha : a ∈ st.symbols) :
    st.symbol? (.int a.id) = some a :=
  Store.symbol?_id h.symbolIds ha

/-! ## The last of each key -/

/-- Each stored relationship is the last one with its key among those that were given. -/
def LastGiven (st : Store) (given : List RelationData) : Prop :=
  ∀ r ∈ st.relations,
    given.reverse.find? (sameRelation r.toRelationData) = some r.toRelationData

theorem LastGiven.insertRelation {given : List RelationData} (h : st.LastGiven given)
    (d : RelationData) : (st.insertRelation d).1.LastGiven (given ++ [d]) := by
  intro r hr
  rw [List.reverse_concat, List.find?_cons]
  rcases List.mem_append.mp hr with hold | hnew
  · -- what stays has another key, so that the search goes on to what was given before
    obtain ⟨hmem, hother⟩ := List.mem_filter.mp hold
    rw [Bool.not_eq_true'] at hother
    rw [hother]
    exact h r hmem
  · obtain rfl := List.mem_singleton.mp hnew
    rw [sameRelation_iff.mpr rfl]

theorem LastGiven.write {given : List RelationData} (h : st.LastGiven given) (w : Write) :
    (st.write w).LastGiven (given ++ w.relation?.toList) := by
  cases w with
  | putRelation d => exact h.insertRelation d
  | removeRelations symbol project =>
      -- what is removed says nothing about the last of its key, so only the rows that stay count
      simp only [Write.relation?, Option.toList_none, List.append_nil]
      exact fun r hr => h r (List.mem_filter.mp hr).1
  | removeFile | removeProject =>
      simp only [Write.relation?, Option.toList_none, List.append_nil]
      intro r hr
      rw [Store.write, relations_removeAtOnce] at hr
      exact h r hr
  | _ =>
      simp only [Write.relation?, Option.toList_none, List.append_nil]
      exact h

theorem LastGiven.writeAll {given : List RelationData} (h : st.LastGiven given)
    (ws : List Write) : (st.writeAll ws).LastGiven (given ++ ws.filterMap Write.relation?) := by
  induction ws generalizing st given with
  | nil => exact (List.append_nil given).symm ▸ h
  | cons w rest ih =>
      have hgiven : given ++ (w :: rest).filterMap Write.relation?
          = given ++ w.relation?.toList ++ rest.filterMap Write.relation? := by
        cases hw : w.relation? <;> simp [hw]
      rw [hgiven]
      exact ih (h.write w)

end Store

/-! ## Arguments of the columns' types -/

/-- Fields that give a symbol by texts and whole numbers, the numbers of its lines. -/
structure SymbolData.GivenBy (d : SymbolData) (m n : Int) (fields : List (String × Value)) :
    Prop where
  language : Value.field? "language" fields = some (.text d.language)
  kind : Value.field? "symbol_type" fields = some (.text d.kind)
  name : Value.field? "name" fields = some (.text d.name)
  file : Value.field? "file_path" fields = some (.text d.file)
  first : Value.field? "line_start" fields = some (.int m)
  last : Value.field? "line_end" fields = some (.int n)
  snippet : Value.field? "code_snippet" fields = some (.text d.snippet)
  digest : Value.field? "file_hash" fields = some (.text d.digest)
  first_eq : d.first = .int m
  last_eq : d.last = .int n

namespace Database

theorem bindText_text (position : Nat) (s : String) :
    bindText position (.text s) = pure (some s) := rfl

theorem bindText_ofText? (position : Nat) (s : Option String) :
    bindText position (.ofText? s) = pure s := by
  cases s <;> rfl

theorem bindNumber_whole (position : Nat) (n : Int) :
    bindNumber position (.int n)
      = if Cell.fits n then pure (some (.int n)) else .error .tooLarge := by
  rw [bindNumber, bind]
  split <;> rfl

theorem fieldOf_object {fields : List (String × Value)} {key : String} {v : Value}
    (h : Value.field? key fields = some v) : fieldOf (.object fields) key = pure v := by
  rw [fieldOf, h]
  rfl

/-- Texts and whole numbers are stored as they are; a number that does not fit is refused. -/
theorem symbolOf_given {d : SymbolData} {m n : Int} {fields : List (String × Value)}
    (h : d.GivenBy m n fields) :
    symbolOf (.object fields) (.text d.project)
      = if Cell.fits m && Cell.fits n then .ok d else .error .tooLarge := by
  simp only [symbolOf, fieldOf_object h.language, fieldOf_object h.kind, fieldOf_object h.name,
    fieldOf_object h.file, fieldOf_object h.first, fieldOf_object h.last, fieldOf_object h.snippet,
    fieldOf_object h.digest, bindText_text, bindNumber_whole, pure_bind]
  -- the first line is bound before the last one, and each may be refused
  cases Cell.fits m with
  | false => rfl
  | true =>
      cases Cell.fits n with
      | false => rfl
      | true =>
          have hd : d = { d with first := .int m, last := .int n } := by
            rw [← h.first_eq, ← h.last_eq]
          rw [hd]
          rfl

theorem relationOf_given (source target : Int) (kind project : String) (data : Value) :
    relationOf (.int source) (.int target) (.text kind) (.text project) data
      = if Cell.fits source && Cell.fits target then
          .ok ⟨project, .int source, .int target, kind, storedData data⟩
        else .error .tooLarge := by
  simp only [relationOf, bindText_text, bindNumber_whole, pure_bind]
  cases Cell.fits source with
  | false => rfl
  | true => cases Cell.fits target <;> rfl

theorem projectOf_given (project path : String) (name commit branch : Option String)
    (isRepository : Bool) :
    projectOf (.text project) (.ofText? name) (.text path) (.bool isRepository) (.ofText? commit)
        (.ofText? branch)
      = .ok ⟨project, name, path, some (.int (if isRepository then 1 else 0)), commit,
          branch⟩ := by
  simp only [projectOf, bindText_text, bindText_ofText?, pure_bind]
  rfl

/-! ## Any operations -/

theorem performAll_empty (ops : List Operation) :
    performAll {} ops = intact (Store.writeAll {} (ops.map Operation.write)) :=
  performAll_intact {} ops

/-- Operations from an empty database on lead to consistent tables without faults. -/
theorem Reachable.exists_intact {db : Database} (h : db.Reachable) :
    ∃ st, db = intact st ∧ st.Consistent := by
  obtain ⟨ops, rfl⟩ := h
  exact ⟨_, performAll_empty ops, Store.consistent_empty.writeAll _⟩

/-- After any operations on an empty database the tables are consistent. A call that stores texts
and whole numbers gives the id of a row with exactly these, unless a number has more than 64 bits.
Every relationship is the last one that was given with its key. -/
theorem tables_after_operations (ops : List Operation) :
    (performAll {} ops).store.Consistent ∧
      (∀ {d : SymbolData} {m n : Int} {fields : List (String × Value)}, d.GivenBy m n fields →
        if Cell.fits m && Cell.fits n then
          ∃ db' row, (performAll {} ops).insertSymbol (.object fields) d.project
              = .ok (db', row.id) ∧ row ∈ db'.store.symbols ∧ row.toSymbolData = d
        else (performAll {} ops).insertSymbol (.object fields) d.project = .error .tooLarge) ∧
      (∀ (source target : Int) (kind project : String) (data : Value),
        if Cell.fits source && Cell.fits target then
          ∃ db' row,
            (performAll {} ops).insertRelation (.int source) (.int target) kind project data
              = .ok (db', row.id) ∧ row ∈ db'.store.relations ∧
            row.toRelationData = ⟨project, .int source, .int target, kind, storedData data⟩
        else (performAll {} ops).insertRelation (.int source) (.int target) kind project data
          = .error .tooLarge) ∧
      (∀ (project path : String) (name commit branch : Option String) (isRepository : Bool),
        ∃ db' row, (performAll {} ops).createProject project (.ofText? name) path
              (.bool isRepository) (.ofText? commit) (.ofText? branch) = .ok (db', row.id) ∧
            row ∈ db'.store.projects ∧ row.toProjectData
              = ⟨project, name, path, some (.int (if isRepository then 1 else 0)), commit,
                  branch⟩) ∧
      ∀ r ∈ (performAll {} ops).store.relations,
        (ops.filterMap (·.write.relation?)).reverse.find? (Store.sameRelation r.toRelationData)
          = some r.toRelationData := by
  rw [performAll_empty]
  refine ⟨Store.consistent_empty.writeAll _, ?_, ?_, ?_, ?_⟩
  · intro d m n fields h
    rw [insertSymbol_intact, symbolOf_given h]
    split
    · exact ⟨_, { d with id := _ }, rfl, List.mem_concat_self, rfl⟩
    · rfl
  · intro source target kind project data
    rw [insertRelation_intact, relationOf_given]
    split
    · exact ⟨_, { toRelationData := _, id := _ }, rfl, List.mem_concat_self, rfl⟩
    · rfl
  · intro project path name commit branch isRepository
    rw [createProject_intact, projectOf_given]
    exact ⟨_, { toProjectData := _, id := _, created := _ }, rfl, List.mem_concat_self, rfl⟩
  · have hnone : Store.LastGiven {} [] := fun r hr => absurd hr List.not_mem_nil
    have hlast := hnone.writeAll (ops.map Operation.write)
    rw [List.nil_append, List.filterMap_map] at hlast
    exact hlast

/-- The fields of a function on one line. -/
def fieldsOnLine (n : Int) : List (String × Value) :=
  [("language", "python"), ("symbol_type", "function"), ("name", "f"), ("file_path", "a.py"),
   ("line_start", .int n), ("line_end", .int n), ("code_snippet", "f()"), ("file_hash", "00")]

/-- The function as it is stored. -/
def functionOnLine (n : Int) : SymbolData where
  project := "p"
  language := "python"
  kind := "function"
  name := "f"
  file := "a.py"
  first := .int n
  last := .int n
  snippet := "f()"
  digest := "00"

theorem functionOnLine_givenBy (n : Int) : (functionOnLine n).GivenBy n n (fieldsOnLine n) where
  language := rfl
  kind := rfl
  name := rfl
  file := rfl
  first := rfl
  last := rfl
  snippet := rfl
  digest := rfl
  first_eq := rfl
  last_eq := rfl

/-- The function on each of the first lines. -/
def functionsOnLines (n : Nat) : List Operation :=
  (List.range n).map fun i : Nat => .insertSymbol (.object (fieldsOnLine i)) "p"

theorem fits_of_le {n : Nat} (h : n ≤ 2147483648) : Cell.fits (n : Int) = true := by
  have hpow : Int.pow 2 63 = 9223372036854775808 := by decide
  rw [Cell.fits, hpow, Bool.and_eq_true, decide_eq_true_eq, decide_eq_true_eq]
  omega

theorem write_insertSymbol_fieldsOnLine {n : Nat} (h : n < 2147483648) :
    (Operation.insertSymbol (.object (fieldsOnLine n)) "p").write
      = .putSymbol (functionOnLine n) := by
  have hgiven : symbolOf (.object (fieldsOnLine n)) "p" = .ok (functionOnLine n) :=
    (symbolOf_given (functionOnLine_givenBy n)).trans (by rw [fits_of_le (Nat.le_of_lt h)]; rfl)
  rw [Operation.write, hgiven]
  rfl

/-- Functions on different lines are all stored. -/
theorem dataOf_functionsOnLines {n : Nat} (h : n ≤ 2147483648) :
    (performAll {} (functionsOnLines n)).store.dataOf "p" "a.py"
      = (List.range n).map fun i : Nat => functionOnLine i := by
  rw [performAll_empty, store_intact, functionsOnLines]
  induction n with
  | zero => rfl
  | succ n ih =>
      have hlast : ∀ ws,
          (Store.writeAll {} (ws ++ [.putSymbol (functionOnLine n)])).dataOf "p" "a.py"
            = SymbolData.upsert ((Store.writeAll {} ws).dataOf "p" "a.py") (functionOnLine n) := by
        intro ws
        rw [Store.writeAll, List.foldl_append]
        exact Store.dataOf_insertSymbol_same _ rfl rfl
      rw [List.range_succ, List.map_append, List.map_append, List.map_append, List.map_singleton,
        List.map_singleton, write_insertSymbol_fieldsOnLine (by omega), hlast, ih (by omega),
        SymbolData.upsert, List.map_singleton]
      -- a function on another line has another key
      congr 1
      rw [List.filter_eq_self]
      intro d hd
      obtain ⟨i, hi, rfl⟩ := List.mem_map.mp hd
      have hne : (i : Int) ≠ n := Int.ofNat_inj.not.mpr (Nat.ne_of_lt (List.mem_range.mp hi))
      simpa [SymbolData.sameKey, functionOnLine] using hne

theorem length_rowsOf_functionsOnLines {n : Nat} (h : n ≤ 2147483648) :
    ((performAll {} (functionsOnLines n)).store.rowsOf "p" "a.py").length = n := by
  have hlength := congrArg List.length (dataOf_functionsOnLines h)
  rwa [Store.dataOf, List.length_map, List.length_map, List.length_range] at hlength

/-- A call that is stored twice, at first with data. -/
def callStoredTwice : List Operation :=
  [.insertRelation (.int 1) (.int 2) "calls" "p" (.object [("line", .int 3)]),
   .insertRelation (.int 1) (.int 2) "calls" "p" .null]

/-- After this the function on line 3 can be stored, and the call has the data of the second
time. -/
theorem tables_after_operations_call :
    (∃ db' row, (performAll {} callStoredTwice).insertSymbol (.object (fieldsOnLine 3)) "p"
        = .ok (db', row.id) ∧ row ∈ db'.store.symbols ∧ row.toSymbolData = functionOnLine 3) ∧
      ∀ r ∈ (performAll {} callStoredTwice).store.relations, r.data = none := by
  obtain ⟨-, hsymbol, -, -, hlast⟩ := tables_after_operations callStoredTwice
  have hstored := hsymbol (functionOnLine_givenBy 3)
  rw [if_pos (by decide)] at hstored
  refine ⟨hstored, ?_⟩
  intro r hr
  have hsecond : (callStoredTwice.filterMap (·.write.relation?)).reverse.find?
      (Store.sameRelation r.toRelationData) = some ⟨"p", .int 1, .int 2, "calls", none⟩ := by
    have hkeys : ∀ r ∈ (performAll {} callStoredTwice).store.relations,
        Store.sameRelation r.toRelationData ⟨"p", .int 1, .int 2, "calls", none⟩ = true := by
      decide +kernel
    exact List.find?_cons_of_pos (hkeys r hr)
  rw [Option.some.inj ((hlast r hr).symm.trans hsecond)]

/-- A line number of more than 64 bits is an integer, and still no id is given. Data without any
field are passed, and the row that is stored has no data. -/
theorem wide_line_refused :
    (functionOnLine 9223372036854775808).GivenBy 9223372036854775808 9223372036854775808
        (fieldsOnLine 9223372036854775808) ∧
      (∀ result, insertSymbol {} (.object (fieldsOnLine 9223372036854775808)) "p" ≠ .ok result) ∧
      insertRelation {} (.int 1) (.int 2) "calls" "p" (.object [])
        = .ok (intact { relations := [⟨⟨"p", .int 1, .int 2, "calls", none⟩, 1⟩] }, 1) := by
  refine ⟨functionOnLine_givenBy _, ?_, rfl⟩
  intro result
  rw [show ({} : Database) = intact {} from rfl, insertSymbol_intact,
    show ("p" : String) = (functionOnLine 9223372036854775808).project from rfl,
    symbolOf_given (functionOnLine_givenBy _), if_neg (by decide)]
  exact fun h => by cases h

end Database

end SymbolAtlas
