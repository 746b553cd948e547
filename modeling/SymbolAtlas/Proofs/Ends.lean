/-
  SymbolAtlas.Proofs.Ends: which symbols the ends of a relationship are.

  A relationship names its ends by their ids, and stays when they are removed. An id that was freed
  can be given again, so the ends that an answer shows are the symbols that were given the ids last
  (`symbol_of_mem`), and a relationship keeps its meaning exactly when these are the symbols it was
  stored for.
-/

import Mathlib.Data.List.Nodup
import SymbolAtlas.Proofs.Operation

namespace SymbolAtlas

/-- What a symbol is, whatever lines it is on. -/
def SymbolData.identity (d : SymbolData) : String × String × String × String :=
  (d.project, d.language, d.name, d.file)

namespace Store

variable {st : Store}

/-- The symbol of an id is a symbol with this id. -/
theorem symbol?_eq_some {id : Int} {r : SymbolRow} (h : st.symbol? (.int id) = some r) :
    r ∈ st.symbols ∧ r.id = id := by
  refine ⟨List.mem_of_find?_eq_some h, ?_⟩
  have heq := List.find?_some h
  rw [beq_iff_eq] at heq
  exact Cell.int.inj heq

/-- A symbol that has its id alone is the symbol of the id. -/
theorem symbol?_id (h : (st.symbols.map (·.id)).Nodup) {r : SymbolRow} (hr : r ∈ st.symbols) :
    st.symbol? (.int r.id) = some r := by
  cases hfound : st.symbol? (.int r.id) with
  | none => exact absurd (beq_self_eq_true _) (List.find?_eq_none.mp hfound r hr)
  | some s =>
      obtain ⟨hs, hid⟩ := symbol?_eq_some hfound
      rw [List.inj_on_of_nodup_map h hs hr hid]

/-- The ends of an edge are the symbols that its relationship names. -/
theorem mem_edges {e : Edge} (h : e ∈ st.edges) :
    e.relation ∈ st.relations ∧ st.symbol? e.relation.source = some e.source ∧
      st.symbol? e.relation.target = some e.target := by
  obtain ⟨r, hr, hedge⟩ := List.mem_filterMap.mp h
  rw [edge?] at hedge
  obtain ⟨source, hsource, hedge⟩ := Option.bind_eq_some_iff.mp hedge
  obtain ⟨target, htarget, hedge⟩ := Option.bind_eq_some_iff.mp hedge
  obtain rfl := Option.some.inj hedge
  exact ⟨hr, hsource, htarget⟩

theorem mem_relationsOf {e : Edge} {symbol : Cell} {kind project : Option String} {d : Direction}
    (h : e ∈ st.relationsOf symbol kind d project) : e ∈ st.edges := by
  rw [relationsOf, sortByKey, List.mem_mergeSort] at h
  exact (List.mem_filter.mp h).1

theorem mem_graphEdges {e : Edge} {project : Option String} (h : e ∈ st.graphEdges project) :
    e ∈ st.edges := by
  rw [graphEdges, sortByKey, List.mem_mergeSort] at h
  exact (List.mem_filter.mp h).1

end Store

namespace Database

variable {db : Database}

/-! ## Answers -/

/-- Whether a relationship shows with these ends in an answer: among the relationships of a symbol,
or in the dependency graph. -/
inductive Reports (db : Database) (e : Edge) : Prop where
  | relations {symbol kind direction project : Value} {es : List Edge}
      (h : db.relations symbol kind direction project = .ok es) (he : e ∈ es)
  | graph {project : Value} {nodes : List SymbolRow} {es : List Edge}
      (h : db.dependencies project = .ok (nodes, es)) (he : e ∈ es)

theorem Reports.mem_edges {e : Edge} (h : db.Reports e) : e ∈ db.store.edges := by
  cases h with
  | @relations symbol kind direction project es h he =>
      simp only [Database.relations, Result.bind_eq_ok] at h
      obtain ⟨-, -, -, -, -, -, h⟩ := h
      split at h
      next name =>
        split at h
        next d _ =>
          obtain ⟨c, -, h⟩ := Result.bind_eq_ok.mp h
          split at h
          next c' =>
            simp only [relationsOf, Result.bind_eq_ok] at h
            obtain ⟨-, -, -, -, -, -, h⟩ := h
            obtain rfl := Except.ok.inj h
            exact Store.mem_relationsOf he
          next =>
            obtain rfl := Except.ok.inj h
            exact absurd he List.not_mem_nil
        next => exact absurd h (by simp)
      next => exact absurd h (by simp)
  | @graph project nodes es h he =>
      simp only [dependencies, Database.graph, Result.bind_eq_ok] at h
      obtain ⟨-, -, -, -, -, -, p, -, -, -, -, -, -, -, h⟩ := h
      obtain ⟨-, rfl⟩ := Prod.mk.inj (Except.ok.inj h)
      exact Store.mem_graphEdges he

/-- In a database that opens and has its tables every edge shows: the whole graph has it. -/
theorem reports_of_mem_edges (hopens : db.broken = false) (hdropped : db.dropped = []) {e : Edge}
    (he : e ∈ db.store.edges) : db.Reports e := by
  have hgraph : db.dependencies .null
      = .ok (db.store.graphNodes none, db.store.graphEdges none) := by
    simp only [dependencies, Database.graph, connect, need, hopens, hdropped]
    rfl
  refine .graph hgraph ?_
  rw [Store.graphEdges, sortByKey, List.mem_mergeSort, List.mem_filter]
  exact ⟨he, rfl⟩

/-! ## Ids that are given again -/

/-- The last symbol that operations store under an id. -/
def lastGiven? (id : Int) : Database → List Operation → Option SymbolRow
  | _, [] => none
  | db, op :: rest =>
    lastGiven? id (db.perform op) rest <|> (db.newSymbol? op).filter (·.id == id)

/-- A symbol that is there after operations is the last one that they stored under its id. If they
stored none, it was there before. -/
theorem symbol_of_mem (db : Database) (ops : List Operation) {r : SymbolRow}
    (h : r ∈ (db.performAll ops).store.symbols) :
    lastGiven? r.id db ops = some r ∨ lastGiven? r.id db ops = none ∧ r ∈ db.store.symbols := by
  induction ops generalizing db with
  | nil => exact .inr ⟨rfl, h⟩
  | cons op rest ih =>
      rcases ih (db.perform op) h with hlast | ⟨hnone, hmem⟩
      · rw [lastGiven?, hlast]
        exact .inl rfl
      · rw [lastGiven?, hnone]
        rcases db.perform_symbols op with ⟨hnew, hsub⟩ | ⟨row, kept, hnew, hsub, hrows, hid⟩
        · rw [hnew]
          exact .inr ⟨rfl, hsub.mem hmem⟩
        · rw [hrows] at hmem
          rcases List.mem_append.mp hmem with hmem | hmem
          · -- a new id is larger than the ids of symbols that are kept
            have hold := hsub.mem hmem
            have hlt := Store.lt_nextId (List.mem_map_of_mem (f := (·.id)) hold)
            rw [← hid] at hlt
            have hother : (row.id == r.id) = false := by
              rw [beq_eq_false_iff_ne]
              omega
            refine .inr ⟨?_, hold⟩
            rw [hnew, Option.filter_some, hother]
            rfl
          · obtain rfl := List.mem_singleton.mp hmem
            rw [hnew, Option.filter_some, beq_self_eq_true]
            exact .inl rfl

/-- The symbol that an id leads to after operations, when it was the id of a symbol before. -/
theorem symbol_after {a r : SymbolRow} (hids : db.DistinctIds) (ha : a ∈ db.store.symbols)
    {ops : List Operation} (h : (db.performAll ops).store.symbol? (.int a.id) = some r) :
    r = (lastGiven? a.id db ops).getD a := by
  obtain ⟨hmem, hid⟩ := Store.symbol?_eq_some h
  rcases symbol_of_mem db ops hmem with hlast | ⟨hnone, hold⟩
  · rw [hid] at hlast
    rw [hlast, Option.getD_some]
  · rw [hid] at hnone
    rw [hnone, Option.getD_none]
    exact List.inj_on_of_nodup_map hids hold ha hid

theorem bindNumber_int {position : Nat} {n : Int} {c : Cell}
    (h : bindNumber position (.int n) = .ok (some c)) : c = .int n := by
  rw [bindNumber, bind] at h
  split at h
  · exact (Option.some.inj (Except.ok.inj h)).symm
  · exact absurd h (by simp [Bind.bind, Except.bind])

/-- The row that an insertion gives its id to has the ends that it was given. -/
theorem insertRelation_row {db' : Database} {source target id : Int} {kind project data : Value}
    (h : db.insertRelation (.int source) (.int target) kind project data = .ok (db', id))
    {row : RelationRow} (hrow : row ∈ db'.store.relations) (hid : row.id = id) :
    db'.store.symbols = db.store.symbols ∧ row.source = .int source ∧ row.target = .int target := by
  obtain ⟨d, rfl, rfl, hsource, htarget⟩ := insertRelation_eq_ok h
  rcases List.mem_append.mp hrow with hold | hnew
  · have hmem : row.id ∈ db.store.relations.map (·.id) :=
      List.mem_map_of_mem (List.mem_filter.mp hold).1
    have hlt := Store.lt_nextId hmem
    rw [hid] at hlt
    exact absurd hlt (Int.lt_irrefl _)
  · obtain rfl := List.mem_singleton.mp hnew
    exact ⟨rfl, bindNumber_int hsource, bindNumber_int htarget⟩

/-- A relationship is stored for two symbols, and any operations follow. Where it shows later, its
ends are the symbols that were given the two ids last. So it means what it meant exactly when no
other symbol was stored under one of the ids since. -/
theorem reported_ends (before after : List Operation) {a b : SymbolRow}
    (ha : a ∈ (performAll {} before).store.symbols)
    (hb : b ∈ (performAll {} before).store.symbols) {kind project data : Value}
    {db' : Database} {id : Int}
    (hinsert : (performAll {} before).insertRelation (.int a.id) (.int b.id) kind project data
      = .ok (db', id))
    {e : Edge} (hreported : (db'.performAll after).Reports e)
    (hrow : e.relation ∈ db'.store.relations) (hid : e.relation.id = id) :
    e.source = (lastGiven? a.id db' after).getD a ∧
      e.target = (lastGiven? b.id db' after).getD b ∧
      (e.source.identity = a.identity ∧ e.target.identity = b.identity ↔
        (∀ r, lastGiven? a.id db' after = some r → r.identity = a.identity) ∧
          ∀ r, lastGiven? b.id db' after = some r → r.identity = b.identity) := by
  -- the row has the two ids, and storing it leaves the symbols as they were
  obtain ⟨hsymbols, hsource, htarget⟩ := insertRelation_row hinsert hrow hid
  have hids : db'.DistinctIds := by
    have hempty : DistinctIds {} := List.nodup_nil
    rw [DistinctIds, hsymbols]
    exact hempty.performAll before
  -- each end is looked up by its id when the row is reported
  obtain ⟨-, hfrom, hto⟩ := Store.mem_edges hreported.mem_edges
  rw [hsource] at hfrom
  rw [htarget] at hto
  have hfirst := symbol_after hids (hsymbols ▸ ha) hfrom
  have hsecond := symbol_after hids (hsymbols ▸ hb) hto
  refine ⟨hfirst, hsecond, ?_⟩
  rw [hfirst, hsecond]
  refine and_congr ?_ ?_
  · cases lastGiven? a.id db' after <;> simp
  · cases lastGiven? b.id db' after <;> simp

/-! ## A call that comes to mean another one -/

/-- The fields of a function on the first line of a file. -/
def functionFields (name file : String) : Value :=
  .object [("language", .text "python"), ("symbol_type", .text "function"), ("name", .text name),
    ("file_path", .text file), ("line_start", .int 1), ("line_end", .int 1),
    ("code_snippet", .text ""), ("file_hash", .text "")]

/-- Such a function as it is stored. -/
def functionRow (name file : String) (id : Int) : SymbolRow where
  project := "p"
  language := "python"
  kind := "function"
  name := name
  file := file
  first := .int 1
  last := .int 1
  snippet := ""
  digest := ""
  id := id

/-- Two functions in files of their own. -/
def twoFunctions : List Operation :=
  [.insertSymbol (functionFields "caller" "a.py") "p",
   .insertSymbol (functionFields "callee" "b.py") "p"]

/-- The database in which the first function calls the second. -/
def callStored : Database :=
  (performAll {} twoFunctions).perform (.insertRelation (.int 1) (.int 2) "calls" "p" .null)

/-- The file of the second function goes, and a function in another file comes. -/
def calleeReplaced : List Operation :=
  [.deleteFile "b.py" "p", .insertSymbol (functionFields "other" "c.py") "p"]

/-- The call as it shows afterwards. -/
def callShown : Edge where
  relation := { project := "p", source := .int 1, target := .int 2, kind := "calls", data := none
                id := 1 }
  source := functionRow "caller" "a.py" 1
  target := functionRow "other" "c.py" 2

theorem callShown_reported : (callStored.performAll calleeReplaced).Reports callShown := by
  have hedges : (callStored.performAll calleeReplaced).store.edges = [callShown] := by
    decide +kernel
  refine reports_of_mem_edges rfl rfl ?_
  rw [hedges]
  exact List.mem_singleton_self callShown

/-- A call of one function is told to be a call of another one, in another file. -/
theorem call_shows_other_function :
    (performAll {} twoFunctions).store.symbols
        = [functionRow "caller" "a.py" 1, functionRow "callee" "b.py" 2] ∧
      (performAll {} twoFunctions).insertRelation (.int 1) (.int 2) "calls" "p" .null
        = .ok (callStored, callShown.relation.id) ∧
      callShown.relation ∈ callStored.store.relations ∧
      (callStored.performAll calleeReplaced).Reports callShown ∧
      callShown.target.identity ≠ (functionRow "callee" "b.py" 2).identity :=
  ⟨by decide +kernel, rfl, by decide +kernel, callShown_reported, by decide⟩

/-- The ends of the call are the caller, whose id was not given again, and the function that was
given the id of the callee. -/
theorem reported_ends_callee_replaced :
    callShown.source
        = (lastGiven? 1 callStored calleeReplaced).getD (functionRow "caller" "a.py" 1) ∧
      callShown.target
        = (lastGiven? 2 callStored calleeReplaced).getD (functionRow "callee" "b.py" 2) := by
  have hcaller : functionRow "caller" "a.py" 1 ∈ (performAll {} twoFunctions).store.symbols := by
    decide +kernel
  have hcallee : functionRow "callee" "b.py" 2 ∈ (performAll {} twoFunctions).store.symbols := by
    decide +kernel
  have hends := reported_ends twoFunctions calleeReplaced hcaller hcallee
    (rfl : (performAll {} twoFunctions).insertRelation (.int 1) (.int 2) "calls" "p" .null
      = .ok (callStored, 1)) callShown_reported (by decide +kernel) rfl
  exact ⟨hends.1, hends.2.1⟩

end Database

end SymbolAtlas
