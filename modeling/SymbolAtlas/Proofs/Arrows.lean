/-
  SymbolAtlas.Proofs.Arrows: what the dependency graph shows of relationships.

  An edge of the graph shows the names and files of its two ends and its kind, its arrow. Which
  arrow a relationship shows is told by its key and by the table of symbols. So storing
  relationships adds arrows for new keys and changes nothing for keys that are there already, and
  an edge between symbols that stay is not touched by whatever happens to other symbols.
-/

import Mathlib.Data.List.Perm.Basic
import SymbolAtlas.Proofs.Links
import SymbolAtlas.Proofs.Works

namespace SymbolAtlas

/-- An edge as the graph shows it, without ids. -/
structure Arrow where
  sourceName : String
  sourceFile : String
  kind : String
  targetName : String
  targetFile : String
  deriving DecidableEq, Repr

/-- The arrow between two symbols. -/
def Arrow.between (kind : String) (source target : SymbolRow) : Arrow :=
  ⟨source.name, source.file, kind, target.name, target.file⟩

/-- The arrow of an edge. -/
def Edge.arrow (e : Edge) : Arrow := .between e.relation.kind e.source e.target

/-- Whether a symbol is one of another file or another project. -/
def SymbolRow.isElsewhere (project file : String) (r : SymbolRow) : Bool :=
  !(r.project == project && r.file == file)

theorem SymbolRow.isElsewhere_eq_false {project file : String} {r : SymbolRow} :
    r.isElsewhere project file = false ↔ r.project = project ∧ r.file = file := by
  simp [isElsewhere]

/-- Whether an edge begins or ends at a symbol of a file. -/
def Edge.touches (project file : String) (e : Edge) : Bool :=
  !(e.source.isElsewhere project file && e.target.isElsewhere project file)

/-- What a relationship is unique by: project, source, target and kind. -/
abbrev RelationKey := String × Cell × Cell × String

namespace Store

variable {st st' : Store} {project : Option String}

/-- The arrows of the graph. -/
def arrows (st : Store) (project : Option String) : List Arrow :=
  (st.graphEdges project).map Edge.arrow

/-- The arrows of the graph whose edges a test picks. -/
def arrowsOf (st : Store) (project : Option String) (pick : Edge → Bool) : List Arrow :=
  ((st.graphEdges project).filter pick).map Edge.arrow

/-! ## Arrows by keys -/

/-- The keys of the relationships that are stored. -/
def relationKeys (st : Store) : List RelationKey := st.relations.map fun r => r.toRelationData.key

/-- The arrow that a relationship of a key shows, if its project passes, both ends are stored and a
test picks them. -/
def arrow? (st : Store) (project : Option String) (pick : SymbolRow → SymbolRow → Bool)
    (k : RelationKey) : Option Arrow :=
  if passes project k.1 then
    (st.symbol? k.2.1).bind fun s => (st.symbol? k.2.2.1).bind fun t =>
      if pick s t then some (.between k.2.2.2 s t) else none
  else none

theorem arrow?_eq_some {pick : SymbolRow → SymbolRow → Bool} {k : RelationKey} {a : Arrow} :
    st.arrow? project pick k = some a ↔
      passes project k.1 = true ∧ ∃ s t, st.symbol? k.2.1 = some s ∧ st.symbol? k.2.2.1 = some t ∧
        pick s t = true ∧ a = .between k.2.2.2 s t := by
  rw [arrow?]
  split
  next hpass =>
    simp only [Option.bind_eq_some_iff, hpass, true_and]
    constructor
    · rintro ⟨s, hs, t, ht, h⟩
      split at h
      next hpick => exact ⟨s, t, hs, ht, hpick, (Option.some.inj h).symm⟩
      next => exact absurd h (by simp)
    · rintro ⟨s, t, hs, ht, hpick, rfl⟩
      exact ⟨s, hs, t, ht, if_pos hpick⟩
  next hpass => simp [hpass]

/-- The arrows of the graph, key by key. -/
theorem arrowsOf_perm (st : Store) (project : Option String)
    (pick : SymbolRow → SymbolRow → Bool) :
    (st.arrowsOf project fun e => pick e.source e.target).Perm
      (st.relationKeys.filterMap (st.arrow? project pick)) := by
  have hsorted : (st.graphEdges project).Perm
      (st.edges.filter fun e => passes project e.relation.project) := List.mergeSort_perm _ _
  refine ((hsorted.filter _).map _).trans (.of_eq ?_)
  rw [List.filter_filter, edges, List.filter_filterMap, List.map_filterMap, relationKeys,
    List.filterMap_map]
  apply List.filterMap_congr
  intro r _
  simp only [edge?, arrow?, bind, pure, Function.comp_apply, RelationData.key]
  cases st.symbol? r.source with
  | none => simp
  | some s =>
      cases st.symbol? r.target with
      | none => simp
      | some t =>
          by_cases hpass : passes project r.project = true
          · by_cases hpick : pick s t = true
            · simp [hpass, hpick, Edge.arrow, Option.filter]
            · simp [hpass, hpick, Option.filter]
          · simp [hpass, Option.filter]

theorem mem_relationKeys_insertRelation (st : Store) (d : RelationData) {k : RelationKey} :
    k ∈ (st.insertRelation d).1.relationKeys ↔ k ∈ st.relationKeys ∨ k = d.key := by
  simp only [relationKeys, insertRelation, List.map_append, List.mem_append, List.mem_map,
    List.mem_filter, Bool.not_eq_true', List.mem_singleton]
  constructor
  · rintro (⟨r, ⟨hr, -⟩, rfl⟩ | ⟨r, rfl, rfl⟩)
    · exact .inl ⟨r, hr, rfl⟩
    · exact .inr rfl
  · intro h
    by_cases hk : k = d.key
    · exact .inr ⟨_, rfl, hk.symm⟩
    · obtain ⟨r, hr, rfl⟩ := h.resolve_right hk
      refine .inl ⟨r, ⟨hr, ?_⟩, rfl⟩
      rw [Bool.eq_false_iff]
      exact fun hsame => hk (sameRelation_iff.mp hsame)

theorem mem_relationKeys_insertRelations (st : Store) (ds : List RelationData) {k : RelationKey} :
    k ∈ (st.insertRelations ds).relationKeys ↔
      k ∈ st.relationKeys ∨ ∃ d ∈ ds, d.key = k := by
  induction ds generalizing st with
  | nil => simp [insertRelations]
  | cons d rest ih =>
      rw [insertRelations_cons, ih, mem_relationKeys_insertRelation, or_assoc]
      simp [eq_comm]

end Store

/-! ## Lists without repetition -/

/-- What distinct members tell is the same in two lists that agree on the members that tell
something. -/
theorem filterMap_perm_of_mem {α β : Type} {f : α → Option β} {xs ys : List α} (hxs : xs.Nodup)
    (hys : ys.Nodup) (h : ∀ a, (f a).isSome = true → (a ∈ xs ↔ a ∈ ys)) :
    (xs.filterMap f).Perm (ys.filterMap f) := by
  have hself : ∀ zs : List α,
      zs.filterMap f = (zs.filter fun a => (f a).isSome).filterMap f := by
    intro zs
    rw [List.filterMap_filter]
    apply List.filterMap_congr
    intro a _
    cases f a <;> rfl
  rw [hself xs, hself ys]
  refine List.Perm.filterMap f ?_
  rw [List.perm_ext_iff_of_nodup (hxs.filter _) (hys.filter _)]
  intro a
  simp only [List.mem_filter]
  constructor
  · exact fun ⟨ha, hsome⟩ => ⟨(h a hsome).mp ha, hsome⟩
  · exact fun ⟨ha, hsome⟩ => ⟨(h a hsome).mpr ha, hsome⟩

/-- A member more that tells something makes what is told longer. -/
theorem length_filterMap_lt {α β : Type} {f : α → Option β} {xs ys : List α} (hxs : xs.Nodup)
    (hsub : ∀ a ∈ xs, a ∈ ys) {a : α} (hnew : a ∉ xs) (ha : a ∈ ys)
    (hsome : (f a).isSome = true) : (xs.filterMap f).length < (ys.filterMap f).length := by
  have hmore : (a :: xs).Nodup := List.nodup_cons.mpr ⟨hnew, hxs⟩
  obtain ⟨zs, hperm, hzs⟩ := List.subperm_of_subset hmore (List.cons_subset.mpr ⟨ha, hsub⟩)
  obtain ⟨b, hb⟩ := Option.isSome_iff_exists.mp hsome
  have hle := (hzs.filterMap f).length_le
  rw [(hperm.filterMap f).length_eq, List.filterMap_cons_some hb, List.length_cons] at hle
  omega

namespace Store

variable {st : Store} {project file : String} {ds : List SymbolData}

/-! ## Distinct ids and keys -/

/-- The store without the tables that have nothing to do with the graph. -/
def core (st : Store) : Store := { st with embeddings := [], projects := [], clock := 0 }

/-- A store whose symbols and relationships are consistent. -/
def Keyed (st : Store) : Prop := st.core.Consistent

theorem keyed_empty : Keyed {} := consistent_empty

namespace Keyed

theorem symbol?_eq_some_iff (h : st.Keyed) {c : Cell} {r : SymbolRow} :
    st.symbol? c = some r ↔ r ∈ st.symbols ∧ c = .int r.id := by
  constructor
  · intro hfound
    have heq := List.find?_some hfound
    rw [beq_iff_eq] at heq
    exact ⟨List.mem_of_find?_eq_some hfound, heq.symm⟩
  · rintro ⟨hr, rfl⟩
    exact Consistent.symbol?_id h hr

theorem nodup_relationKeys (h : st.Keyed) : st.relationKeys.Nodup :=
  (show st.core.Consistent from h).relationKeys

theorem shared_eq (h : st.Keyed) : st.shared = false := (show st.core.Consistent from h).separate

theorem insertSymbols (h : st.Keyed) (ds : List SymbolData) : (st.insertSymbols ds).Keyed := by
  induction ds generalizing st with
  | nil => exact h
  | cons d rest ih => exact ih (Consistent.insertSymbol h d)

theorem insertRelations (h : st.Keyed) (ds : List RelationData) :
    (st.insertRelations ds).Keyed := by
  induction ds generalizing st with
  | nil => exact h
  | cons d rest ih => exact ih (Consistent.insertRelation h d)

theorem removeFile (h : st.Keyed) (file project : String) : (st.removeFile file project).Keyed :=
  Consistent.removeSymbols h fun r => r.file == file && r.project == project

theorem replaceFile (h : st.Keyed) (project file : String) (ds : List SymbolData) :
    (st.replaceFile project file ds).Keyed :=
  (h.removeFile file project).insertSymbols ds

/-- Only the tables of symbols and relationships count. -/
theorem congr {st' : Store} (h : st.Keyed) (hsymbols : st'.symbols = st.symbols)
    (hrelations : st'.relations = st.relations) (hshared : st'.shared = st.shared) :
    st'.Keyed := by
  have hcore : st'.core = st.core := by
    simp only [core, hsymbols, hrelations, hshared]
  rw [Keyed, hcore]
  exact h

end Keyed

/-! ## Replacing the symbols of a file -/

/-- A symbol of a file does not take the place of one of another file or another project. -/
theorem clash_eq_false_of_isElsewhere {r : SymbolRow} {d : SymbolData}
    (hproject : d.project = project) (hfile : d.file = file)
    (h : r.isElsewhere project file = true) :
    clash false r.toSymbolData d = false := by
  rw [Bool.eq_false_iff]
  intro hclash
  rw [clash_iff, SymbolData.key, SymbolData.key] at hclash
  simp only [Prod.mk.injEq] at hclash
  have hsame := SymbolRow.isElsewhere_eq_false.mpr
    ⟨hclash.1.trans hproject, hclash.2.2.2.1.trans hfile⟩
  exact absurd (h.symm.trans hsame) (by decide)

theorem filter_isElsewhere_insertSymbols (hshared : st.shared = false)
    (hds : ∀ d ∈ ds, d.project = project ∧ d.file = file) :
    (st.insertSymbols ds).symbols.filter (·.isElsewhere project file)
      = st.symbols.filter (·.isElsewhere project file) := by
  induction ds generalizing st with
  | nil => rfl
  | cons d rest ih =>
      obtain ⟨hproject, hfile⟩ := hds d List.mem_cons_self
      have hrest : ∀ e ∈ rest, e.project = project ∧ e.file = file :=
        fun e he => hds e (List.mem_cons_of_mem d he)
      have hnew : ([⟨d, (st.insertSymbol d).2⟩] : List SymbolRow).filter
          (·.isElsewhere project file) = [] := by
        simp [SymbolRow.isElsewhere, hproject, hfile]
      have hnext := ih (show (st.insertSymbol d).1.shared = false from hshared) hrest
      rw [insertSymbols_cons, hnext]
      have hsymbols : (st.insertSymbol d).1.symbols
          = (st.symbols.filter fun r => !clash st.shared r.toSymbolData d)
            ++ [⟨d, (st.insertSymbol d).2⟩] := rfl
      rw [hsymbols, List.filter_append, hnew, List.append_nil, List.filter_filter]
      apply List.filter_congr
      intro r _
      cases helse : r.isElsewhere project file with
      | false => rfl
      | true =>
          rw [hshared, clash_eq_false_of_isElsewhere hproject hfile helse]
          rfl

/-- Symbols of other files stay as they are when those of a file are replaced. -/
theorem filter_isElsewhere_replaceFile (hshared : st.shared = false)
    (hds : ∀ d ∈ ds, d.project = project ∧ d.file = file) :
    (st.replaceFile project file ds).symbols.filter (·.isElsewhere project file)
      = st.symbols.filter (·.isElsewhere project file) := by
  have hcleared : (st.removeFile file project).shared = false := hshared
  rw [replaceFile, filter_isElsewhere_insertSymbols hcleared hds, removeFile, removeSymbols,
    List.filter_filter]
  apply List.filter_congr
  intro r _
  simp [SymbolRow.isElsewhere, Bool.and_comm]

theorem mem_replaceFile_elsewhere (hshared : st.shared = false)
    (hds : ∀ d ∈ ds, d.project = project ∧ d.file = file) {r : SymbolRow}
    (hr : r.isElsewhere project file = true) :
    r ∈ (st.replaceFile project file ds).symbols ↔ r ∈ st.symbols := by
  have hmem : ∀ rows : List SymbolRow,
      r ∈ rows ↔ r ∈ rows.filter (·.isElsewhere project file) := by
    intro rows
    rw [List.mem_filter]
    exact ⟨fun h => ⟨h, hr⟩, And.left⟩
  rw [hmem, filter_isElsewhere_replaceFile hshared hds, ← hmem]

/-- The first id that is given when the symbols of a file are replaced. -/
def firstNewId (st : Store) (project file : String) : Int :=
  nextId ((st.removeFile file project).symbols.map (·.id))

theorem le_id_insertSymbols {n : Int} (hn : n ≤ nextId (st.symbols.map (·.id)))
    (hst : ∀ r ∈ st.rowsOf project file, n ≤ r.id) :
    ∀ r ∈ (st.insertSymbols ds).rowsOf project file, n ≤ r.id := by
  induction ds generalizing st with
  | nil => exact hst
  | cons d rest ih =>
      apply ih
      · have hnew : (st.insertSymbol d).2 ∈ (st.insertSymbol d).1.symbols.map (·.id) := by
          rw [insertSymbol, List.map_append]
          exact List.mem_append_right _ List.mem_cons_self
        have hlt := lt_nextId hnew
        exact Int.le_trans hn (Int.le_of_lt hlt)
      · intro r hr
        obtain ⟨hr, hproject, hfile⟩ := mem_rowsOf.mp hr
        rcases List.mem_append.mp hr with hold | hnew
        · exact hst r (mem_rowsOf.mpr ⟨(List.mem_filter.mp hold).1, hproject, hfile⟩)
        · obtain rfl := List.mem_singleton.mp hnew
          exact hn

/-- The symbols of a file that are stored anew have ids from the first new one on. -/
theorem firstNewId_le {r : SymbolRow}
    (hr : r ∈ (st.replaceFile project file ds).rowsOf project file) :
    st.firstNewId project file ≤ r.id := by
  refine le_id_insertSymbols (Int.le_refl _) ?_ r hr
  intro s hs
  rw [rowsOf_removeFile_same] at hs
  exact absurd hs List.not_mem_nil

theorem passes_filterOf (project : String) : passes (filterOf project) project = true := by
  rw [filterOf]
  split
  · rfl
  · exact beq_self_eq_true project

end Store

namespace Database

/-- The arrows of the dependency graph of a project. -/
def arrows (db : Database) (project : String) : Result (List Arrow) := do
  let (_, edges) ← db.dependencies (.text project)
  return edges.map Edge.arrow

theorem Sound.arrows_eq {db : Database} (h : db.Sound) (project : String) :
    db.arrows project = .ok (db.store.arrows (Store.filterOf project)) := by
  have hfilter : bindFilter 1 (.text project) = .ok (Store.filterOf project) := by
    rw [bindFilter, Store.filterOf]
    by_cases hp : project = ""
    · simp [hp, Value.truthy]
    · simp [hp, Value.truthy]
      rfl
  simp only [Database.arrows, dependencies, graph, connect_ok h.opens,
    need_ok (h.has .relationships), need_ok (h.has .symbols), hfilter]
  rfl

end Database

namespace Indexer

variable {x : Indexer}

/-- The symbols that are found in a file are symbols of that file in the project. -/
theorem Lawful.mem_storable (hx : x.Lawful) {project path : String} {file : Option ByteArray}
    {d : SymbolData} (hd : d ∈ x.storable project path file) :
    d.project = project ∧ d.file = path := by
  cases hx.found path file with
  | nothing hparse =>
      rw [storable, hparse] at hd
      exact absurd hd List.not_mem_nil
  | symbols symbols _ hsort hfile =>
      rw [storable, symbolsOf?_eq_some hsort] at hd
      obtain ⟨s, hs, rfl⟩ := List.mem_map.mp hd
      exact ⟨rfl, hfile s hs⟩
  | mention p rest m hparse hm =>
      rw [storable, hparse, symbolsOf?, List.mapM_cons, hm] at hd
      exact absurd hd List.not_mem_nil

/-- The keys of relationships after the work on a file that can be cleared. -/
theorem mem_relationKeys_indexFile (hx : x.Lawful) {db : Database} {project path : String}
    (language : Option String) (file : Option ByteArray)
    (hclear : db.removeFile path project = .ok (db.cleared path project)) {k : RelationKey} :
    k ∈ (x.indexFile project language path file db).db.store.relationKeys ↔
      k ∈ db.store.relationKeys ∨
        ∃ d ∈ x.linksOf project language path file
          (x.indexFile project language path file db).db, d.key = k := by
  rw [Store.relationKeys, indexFile_relations hx language file hclear]
  exact Store.mem_relationKeys_insertRelations db.store _

/-! ## Runs keep ids and keys distinct -/

theorem keyed_indexFile (hx : x.Lawful) {db : Database} (h : db.store.Keyed) (project : String)
    (language : Option String) (path : String) (file : Option ByteArray) :
    (x.indexFile project language path file db).db.store.Keyed := by
  rcases db.removeFile_cases path project with ⟨e, he⟩ | hclear
  · rw [indexFile_refused he]
    exact h
  · obtain ⟨hsymbols, hrelations⟩ := indexFile_tables hx language file hclear
    have hfaults := (indexFile_sameFaults hx project path language file db).1
    have hreplaced := h.replaceFile project path ((x.storable project path file).filter db.admits)
    refine (hreplaced.insertRelations (x.linksOf project language path file (db.withStore
      (db.store.replaceFile project path
        ((x.storable project path file).filter db.admits))))).congr ?_ hrelations ?_
    · rw [hsymbols, Store.symbols_insertRelations]
    · rw [hfaults.shared]
      exact h.shared_eq.trans (Store.Keyed.shared_eq (hreplaced.insertRelations _)).symm

/-- One run: projects have nothing to do with keys, and each work keeps them distinct. -/
theorem keyed_visit (hx : x.Lawful) {db : Database} (h : db.store.Keyed) (v : Visit) :
    (x.visit db v).store.Keyed := by
  have hprojects : ∀ (db : Database) projects, db.store.Keyed →
      (db.withProjects projects).store.Keyed := fun _ _ h => h
  exact (visit_induction hprojects h fun w _ hw => keyed_indexFile hx hw _ _ _ _).2

/-- All runs, by one after another. -/
theorem keyed_history (hx : x.Lawful) (visits : List Visit) :
    (x.history visits).store.Keyed := by
  have hfold : ∀ (rest : List Visit) (db : Database), db.store.Keyed →
      (rest.foldl x.visit db).store.Keyed := by
    intro rest
    induction rest with
    | nil => exact fun _ h => h
    | cons v more ih => exact fun db h => ih _ (keyed_visit hx h v)
  exact hfold visits {} Store.keyed_empty

end Indexer

end SymbolAtlas
