/-
  SymbolAtlas.Proofs.Rework: what becomes of the graph when a file is worked on once more.

  The symbols of the file get new ids, and relationships go on naming the old ones. Edges between
  symbols of other files stay. Edges of the file stay when its symbols happen to get their old ids
  again. When they do not, only what is found in the file is shown of it, and every edge from
  another file into it is gone.
-/

import SymbolAtlas.Proofs.Arrows

namespace SymbolAtlas

/-- Whether a cell is no number from a given one on. -/
def Cell.isBelow (n : Int) : Cell → Bool
  | .int i => i < n
  | _ => true

namespace Store

variable {st st' : Store} {filter : Option String} {project file : String}

/-! ## Edges of a file -/

/-- The arrows that begin or end at a symbol of a file. -/
def arrowsAt (st : Store) (filter : Option String) (project file : String) : List Arrow :=
  st.arrowsOf filter fun e => e.touches project file

/-- The arrows between symbols of other files. -/
def arrowsApart (st : Store) (filter : Option String) (project file : String) : List Arrow :=
  st.arrowsOf filter fun e => !e.touches project file

theorem arrows_perm (st : Store) (filter : Option String) (project file : String) :
    (st.arrows filter).Perm (st.arrowsAt filter project file ++ st.arrowsApart filter project file)
    := by
  rw [arrowsAt, arrowsApart, arrowsOf, arrowsOf, ← List.map_append]
  exact (List.filter_append_perm _ _).symm.map _

theorem arrows_perm_keys (st : Store) (filter : Option String) :
    (st.arrows filter).Perm (st.relationKeys.filterMap (st.arrow? filter fun _ _ => true)) := by
  have hall : st.arrows filter = st.arrowsOf filter fun _ => true := by
    rw [arrows, arrowsOf, List.filter_true]
  rw [hall]
  exact st.arrowsOf_perm filter fun _ _ => true

/-- Whether one of two symbols is a symbol of the file. -/
def meets (project file : String) (s t : SymbolRow) : Bool :=
  !(s.isElsewhere project file && t.isElsewhere project file)

theorem arrowsAt_perm (st : Store) (filter : Option String) (project file : String) :
    (st.arrowsAt filter project file).Perm
      (st.relationKeys.filterMap (st.arrow? filter (meets project file))) :=
  st.arrowsOf_perm filter (meets project file)

theorem arrowsApart_perm (st : Store) (filter : Option String) (project file : String) :
    (st.arrowsApart filter project file).Perm
      (st.relationKeys.filterMap (st.arrow? filter fun s t => !meets project file s t)) :=
  st.arrowsOf_perm filter fun s t => !meets project file s t

theorem arrow?_of_symbols (h : st'.symbols = st.symbols) (filter : Option String)
    (pick : SymbolRow → SymbolRow → Bool) : st'.arrow? filter pick = st.arrow? filter pick := by
  funext k
  simp only [arrow?, symbol?, h]

/-- What a key shows depends on the symbols that a test can pick. -/
theorem arrow?_congr (hst : st.Keyed) (hst' : st'.Keyed) {pick : SymbolRow → SymbolRow → Bool}
    (keep : SymbolRow → Bool) (hpick : ∀ s t, pick s t = true → keep s = true ∧ keep t = true)
    (hsymbols : ∀ r, keep r = true → (r ∈ st'.symbols ↔ r ∈ st.symbols)) (k : RelationKey) :
    st'.arrow? filter pick k = st.arrow? filter pick k := by
  apply Option.ext
  intro a
  simp only [arrow?_eq_some, hst.symbol?_eq_some_iff, hst'.symbol?_eq_some_iff]
  constructor
  · rintro ⟨hpass, s, t, ⟨hs, hsource⟩, ⟨ht, htarget⟩, hst, rfl⟩
    obtain ⟨hks, hkt⟩ := hpick s t hst
    exact ⟨hpass, s, t, ⟨(hsymbols s hks).mp hs, hsource⟩, ⟨(hsymbols t hkt).mp ht, htarget⟩, hst,
      rfl⟩
  · rintro ⟨hpass, s, t, ⟨hs, hsource⟩, ⟨ht, htarget⟩, hst, rfl⟩
    obtain ⟨hks, hkt⟩ := hpick s t hst
    exact ⟨hpass, s, t, ⟨(hsymbols s hks).mpr hs, hsource⟩, ⟨(hsymbols t hkt).mpr ht, htarget⟩, hst,
      rfl⟩

/-- A key whose source is a symbol of the file shows no arrow between other files. -/
theorem arrow?_apart_eq_none (hst : st.Keyed) {k : RelationKey} {s : SymbolRow}
    (hs : s ∈ st.rowsOf project file) (hk : k.2.1 = .int s.id) :
    st.arrow? filter (fun s t => !meets project file s t) k = none := by
  rw [Option.eq_none_iff_forall_ne_some]
  intro a ha
  obtain ⟨-, s', t, hs', -, hpick, -⟩ := arrow?_eq_some.mp ha
  obtain ⟨hmem, hproject, hfile⟩ := mem_rowsOf.mp hs
  have hfound : st.symbol? k.2.1 = some s := hst.symbol?_eq_some_iff.mpr ⟨hmem, hk⟩
  obtain rfl := Option.some.inj (hs'.symm.trans hfound)
  have hhere : s'.isElsewhere project file = false :=
    SymbolRow.isElsewhere_eq_false.mpr ⟨hproject, hfile⟩
  simp [meets, hhere] at hpick

/-- A key whose source is a symbol of the file shows an arrow of the file, if any. -/
theorem arrow?_meets_of_source (hst : st.Keyed) {k : RelationKey} {s : SymbolRow}
    (hs : s ∈ st.rowsOf project file) (hk : k.2.1 = .int s.id) :
    st.arrow? filter (fun _ _ => true) k = st.arrow? filter (meets project file) k := by
  obtain ⟨hmem, hproject, hfile⟩ := mem_rowsOf.mp hs
  have hfound : st.symbol? k.2.1 = some s := hst.symbol?_eq_some_iff.mpr ⟨hmem, hk⟩
  have hhere : s.isElsewhere project file = false :=
    SymbolRow.isElsewhere_eq_false.mpr ⟨hproject, hfile⟩
  simp [arrow?, hfound, meets, hhere]

theorem meets_eq_true {s t : SymbolRow} :
    meets project file s t = true ↔
      (s.project = project ∧ s.file = file) ∨ (t.project = project ∧ t.file = file) := by
  simp only [meets, Bool.not_eq_true', Bool.and_eq_false_iff, SymbolRow.isElsewhere_eq_false]

/-! ## Relationships after the symbols of a file are replaced -/

/-- Whether no relationship that passes a filter names an id from a number on. -/
def namesBelow (st : Store) (filter : Option String) (n : Int) : Bool :=
  st.relationKeys.all fun k => !passes filter k.1 || k.2.1.isBelow n && k.2.2.1.isBelow n

/-- The store with the same symbols and only some relationships. -/
def withOnly (st : Store) (links : List RelationData) : Store :=
  { st with relations := [] }.insertRelations links

theorem Keyed.withOnly (h : st.Keyed) (links : List RelationData) : (st.withOnly links).Keyed := by
  have hnone : ({ st with relations := [] } : Store).Keyed :=
    { (show st.core.Consistent from h) with
      relationIds := List.nodup_nil, relationKeys := List.nodup_nil }
  exact hnone.insertRelations links

theorem mem_relationKeys_withOnly {links : List RelationData} {k : RelationKey} :
    k ∈ (st.withOnly links).relationKeys ↔ ∃ d ∈ links, d.key = k := by
  rw [withOnly, mem_relationKeys_insertRelations]
  simp [relationKeys]

section Relinked

variable {again : Store} {ds : List SymbolData} {links : List RelationData}
  (hst : st.Keyed) (hds : ∀ d ∈ ds, d.project = project ∧ d.file = file)
  (hagain : again = st.replaceFile project file ds)
  (hlinks : ∀ d ∈ links, d.project = project ∧
    (∃ s ∈ again.rowsOf project file, d.source = .int s.id) ∧
      ∃ t ∈ again.symbols, d.target = .int t.id)

include hagain

theorem mem_relationKeys_relinked {k : RelationKey} :
    k ∈ (again.insertRelations links).relationKeys ↔
      k ∈ st.relationKeys ∨ ∃ d ∈ links, d.key = k := by
  have hrelations : again.relationKeys = st.relationKeys := by
    rw [hagain, relationKeys, replaceFile, relations_insertSymbols]
    rfl
  rw [mem_relationKeys_insertRelations, hrelations]

include hst

theorem keyed_relinked (links : List RelationData) : (again.insertRelations links).Keyed := by
  rw [hagain]
  exact (hst.replaceFile project file ds).insertRelations links

include hds hlinks in
/-- Edges between symbols of other files stay as they are. -/
theorem arrowsApart_relinked (filter : Option String) :
    ((again.insertRelations links).arrowsApart filter project file).Perm
      (st.arrowsApart filter project file) := by
  have hkeyed := keyed_relinked hst hagain links
  refine (arrowsApart_perm _ _ _ _).trans (.trans ?_ (arrowsApart_perm _ _ _ _).symm)
  have hsame : (again.insertRelations links).arrow? filter (fun s t => !meets project file s t)
      = st.arrow? filter fun s t => !meets project file s t := by
    funext k
    apply arrow?_congr hst hkeyed fun r => r.isElsewhere project file
    · intro s t hpick
      simpa [meets] using hpick
    · intro r hr
      rw [symbols_insertRelations, hagain]
      exact mem_replaceFile_elsewhere hst.shared_eq hds hr
  rw [← hsame]
  apply filterMap_perm_of_mem hkeyed.nodup_relationKeys hst.nodup_relationKeys
  intro k hsome
  rw [mem_relationKeys_relinked hagain]
  refine ⟨fun h => h.resolve_right ?_, .inl⟩
  -- a relationship that was found in the file begins there
  rintro ⟨d, hd, rfl⟩
  obtain ⟨-, ⟨s, hs, hsource⟩, -⟩ := hlinks d hd
  have hrow : s ∈ (again.insertRelations links).rowsOf project file := by
    rw [rowsOf, symbols_insertRelations]
    exact hs
  rw [arrow?_apart_eq_none hkeyed hrow hsource] at hsome
  exact absurd hsome (by decide)

/-- The arrow of a relationship that was found is shown. -/
theorem arrow?_link {filter : Option String} (hfilter : passes filter project = true)
    {d : RelationData} (hd : d.project = project)
    (hsource : ∃ s ∈ again.rowsOf project file, d.source = .int s.id)
    (htarget : ∃ t ∈ again.symbols, d.target = .int t.id)
    (pick : SymbolRow → SymbolRow → Bool)
    (hpick : ∀ s t, s ∈ again.rowsOf project file → pick s t = true) :
    ∃ s t, s ∈ again.rowsOf project file ∧
      again.arrow? filter pick d.key = some (.between d.kind s t) := by
  have hkeyed : again.Keyed := hagain ▸ hst.replaceFile project file ds
  obtain ⟨s, hs, hsource⟩ := hsource
  obtain ⟨t, ht, htarget⟩ := htarget
  refine ⟨s, t, hs, arrow?_eq_some.mpr ⟨?_, s, t, ?_, ?_, hpick s t hs, rfl⟩⟩
  · show passes filter d.project = true
    rw [hd]
    exact hfilter
  · exact hkeyed.symbol?_eq_some_iff.mpr ⟨(mem_rowsOf.mp hs).1, hsource⟩
  · exact hkeyed.symbol?_eq_some_iff.mpr ⟨ht, htarget⟩

include hds hlinks

/-- When the symbols of the file get their old ids again, the graph stays as it was exactly if every
relationship that is found is stored already. -/
theorem arrows_relinked_same (hrows : again.rowsOf project file = st.rowsOf project file)
    {filter : Option String} (hfilter : passes filter project = true) :
    ((again.insertRelations links).arrows filter).Perm (st.arrows filter) ↔
      ∀ d ∈ links, d.key ∈ st.relationKeys := by
  have hkeyed := keyed_relinked hst hagain links
  -- elsewhere nothing is replaced, and the rows of the file are the same by assumption
  have hsymbols : ∀ r, r ∈ again.symbols ↔ r ∈ st.symbols := by
    intro r
    cases hr : r.isElsewhere project file with
    | true =>
        rw [hagain]
        exact mem_replaceFile_elsewhere hst.shared_eq hds hr
    | false =>
        have hrow : ∀ st : Store, r ∈ st.symbols ↔ r ∈ st.rowsOf project file := by
          intro st
          rw [mem_rowsOf]
          exact ⟨fun h => ⟨h, SymbolRow.isElsewhere_eq_false.mp hr⟩, And.left⟩
        rw [hrow again, hrow st, hrows]
  have hsame : again.arrow? filter (fun _ _ => true) = st.arrow? filter fun _ _ => true := by
    funext k
    exact arrow?_congr hst (hagain ▸ hst.replaceFile project file ds) (fun _ => true)
      (fun _ _ _ => ⟨rfl, rfl⟩) (fun r _ => hsymbols r) k
  have hafter : (again.insertRelations links).arrow? filter (fun _ _ => true)
      = st.arrow? filter fun _ _ => true :=
    (arrow?_of_symbols (symbols_insertRelations again links) _ _).trans hsame
  rw [(arrows_perm_keys _ _).congr_left, (arrows_perm_keys st _).congr_right, hafter]
  constructor
  · intro hperm d hd
    -- a new key adds an arrow that was not there, so the numbers of arrows differ
    by_contra hnew
    obtain ⟨hproject, hsource, htarget⟩ := hlinks d hd
    obtain ⟨s, t, -, harrow⟩ :=
      arrow?_link hst hagain hfilter hproject hsource htarget (fun _ _ => true) fun _ _ _ => rfl
    have hlt := length_filterMap_lt hst.nodup_relationKeys
      (fun k hk => (mem_relationKeys_relinked hagain).mpr (.inl hk)) hnew
      ((mem_relationKeys_relinked hagain).mpr (.inr ⟨d, hd, rfl⟩))
      (f := st.arrow? filter fun _ _ => true) (by rw [← hsame, harrow]; rfl)
    rw [hperm.length_eq] at hlt
    exact Nat.lt_irrefl _ hlt
  · intro hall
    apply filterMap_perm_of_mem hkeyed.nodup_relationKeys hst.nodup_relationKeys
    intro k _
    rw [mem_relationKeys_relinked hagain]
    refine ⟨fun h => h.elim id ?_, .inl⟩
    rintro ⟨d, hd, rfl⟩
    exact hall d hd

omit hds in
/-- When no relationship names one of the ids that are given now, what is shown of the file is what
is found in it. -/
theorem arrowsAt_relinked_fresh {filter : Option String}
    (hbelow : st.namesBelow filter (st.firstNewId project file) = true) :
    ((again.insertRelations links).arrowsAt filter project file).Perm
      ((again.withOnly links).arrows filter) := by
  have hkeyed := keyed_relinked hst hagain links
  have hreplaced : again.Keyed := hagain ▸ hst.replaceFile project file ds
  have honly : (again.withOnly links).Keyed := hreplaced.withOnly links
  refine (arrowsAt_perm _ _ _ _).trans (.trans ?_ (arrows_perm_keys _ _).symm)
  have hsymbols : (again.withOnly links).symbols = again.symbols := symbols_insertRelations _ links
  rw [arrow?_of_symbols (symbols_insertRelations again links), arrow?_of_symbols hsymbols]
  have hmeets : (again.withOnly links).relationKeys.filterMap (again.arrow? filter fun _ _ => true)
      = (again.withOnly links).relationKeys.filterMap
          (again.arrow? filter (meets project file)) := by
    apply List.filterMap_congr
    intro k hk
    obtain ⟨d, hd, rfl⟩ := mem_relationKeys_withOnly.mp hk
    obtain ⟨-, ⟨s, hs, hsource⟩, -⟩ := hlinks d hd
    exact arrow?_meets_of_source hreplaced hs hsource
  rw [hmeets]
  apply filterMap_perm_of_mem hkeyed.nodup_relationKeys honly.nodup_relationKeys
  intro k hsome
  rw [mem_relationKeys_relinked hagain, mem_relationKeys_withOnly]
  refine ⟨fun h => h.resolve_left ?_, .inr⟩
  -- a relationship from before would have to name one of the new ids
  intro hold
  obtain ⟨a, ha⟩ := Option.isSome_iff_exists.mp hsome
  obtain ⟨hpass, s, t, hs, ht, hst, -⟩ := arrow?_eq_some.mp ha
  obtain ⟨hs, hsource⟩ := hreplaced.symbol?_eq_some_iff.mp hs
  obtain ⟨ht, htarget⟩ := hreplaced.symbol?_eq_some_iff.mp ht
  have hnames := List.all_eq_true.mp hbelow k hold
  rw [hpass, hsource, htarget] at hnames
  simp only [Bool.not_true, Bool.false_or, Bool.and_eq_true, Cell.isBelow, decide_eq_true_eq]
    at hnames
  rw [hagain] at hs ht
  rcases meets_eq_true.mp hst with ⟨hproject, hfile⟩ | ⟨hproject, hfile⟩
  · have hle := firstNewId_le (mem_rowsOf.mpr ⟨hs, hproject, hfile⟩)
    omega
  · have hle := firstNewId_le (mem_rowsOf.mpr ⟨ht, hproject, hfile⟩)
    omega

/-- Then the graph stays as it was exactly if the edges of the file are those that are found. -/
theorem arrows_relinked_fresh {filter : Option String}
    (hbelow : st.namesBelow filter (st.firstNewId project file) = true) :
    ((again.insertRelations links).arrows filter).Perm (st.arrows filter) ↔
      (st.arrowsAt filter project file).Perm ((again.withOnly links).arrows filter) := by
  have hat := arrowsAt_relinked_fresh hst hagain hlinks hbelow
  have hapart := arrowsApart_relinked hst hds hagain hlinks filter
  have hafter : ((again.insertRelations links).arrows filter).Perm
      ((again.withOnly links).arrows filter ++ st.arrowsApart filter project file) :=
    (arrows_perm _ filter project file).trans (hat.append hapart)
  rw [hafter.congr_left, (arrows_perm st filter project file).congr_right,
    List.perm_append_right_iff]
  exact ⟨List.Perm.symm, List.Perm.symm⟩

omit hds in
/-- Every arrow of relationships that are found in the file begins there. -/
theorem sourceFile_of_mem_withOnly {filter : Option String} {a : Arrow}
    (ha : a ∈ (again.withOnly links).arrows filter) : a.sourceFile = file := by
  have hkeyed : (again.withOnly links).Keyed :=
    (hagain ▸ hst.replaceFile project file ds : again.Keyed).withOnly links
  obtain ⟨k, hk, harrow⟩ := List.mem_filterMap.mp ((arrows_perm_keys _ _).mem_iff.mp ha)
  obtain ⟨-, s, t, hs, -, -, rfl⟩ := arrow?_eq_some.mp harrow
  obtain ⟨d, hd, rfl⟩ := mem_relationKeys_withOnly.mp hk
  obtain ⟨-, ⟨s', hs', hsource⟩, -⟩ := hlinks d hd
  obtain ⟨hmem, -, hfile⟩ := mem_rowsOf.mp hs'
  have hfound : (again.withOnly links).symbol? d.key.2.1 = some s' := by
    rw [hkeyed.symbol?_eq_some_iff, withOnly, symbols_insertRelations]
    exact ⟨hmem, hsource⟩
  obtain rfl := Option.some.inj (hs.symm.trans hfound)
  exact hfile

/-- Then an edge from another file into this one is lost: what is found begins in this file. -/
theorem not_perm_relinked_fresh {filter : Option String}
    (hbelow : st.namesBelow filter (st.firstNewId project file) = true) {e : Edge}
    (he : e ∈ st.graphEdges filter) (htarget : e.target ∈ st.rowsOf project file)
    (hsource : e.source.file ≠ file) :
    ¬ ((again.insertRelations links).arrows filter).Perm (st.arrows filter) := by
  intro hperm
  obtain ⟨-, hproject, hfile⟩ := mem_rowsOf.mp htarget
  have htouches : e.touches project file = true := meets_eq_true.mpr (.inr ⟨hproject, hfile⟩)
  have hat : e.arrow ∈ st.arrowsAt filter project file :=
    List.mem_map_of_mem (List.mem_filter.mpr ⟨he, htouches⟩)
  have hfound := ((arrows_relinked_fresh hst hds hagain hlinks hbelow).mp hperm).mem_iff.mp hat
  exact hsource (sourceFile_of_mem_withOnly hst hagain hlinks hfound)

end Relinked

/-- The graph is told by the tables of symbols and relationships. -/
theorem graphEdges_congr (hsymbols : st'.symbols = st.symbols)
    (hrelations : st'.relations = st.relations) (filter : Option String) :
    st'.graphEdges filter = st.graphEdges filter := by
  have hedge : st'.edge? = st.edge? := by
    funext r
    simp only [edge?, symbol?, hsymbols]
  simp only [graphEdges, edges, hedge, hrelations]

end Store

namespace Indexer

/-- The edges after the work on a file are those of the store in which its symbols are replaced and
what is found is stored. -/
theorem graphEdges_indexFile {x : Indexer} (hx : x.Lawful) {db : Database} (h : db.Sound)
    {project path : String} (hfits : db.Fits project path) (language : Option String)
    (file : Option ByteArray) (filter : Option String) :
    let again := db.store.replaceFile project path (x.storable project path file)
    let links := x.linksOf project language path file (db.withStore again)
    (x.indexFile project language path file db).db.store.graphEdges filter
      = (again.insertRelations links).graphEdges filter := by
  intro again links
  obtain ⟨hsymbols, hrelations⟩ :=
    indexFile_tables hx language file (h.clearable.removeFile hfits)
  rw [h.filter_admits] at hsymbols hrelations
  exact Store.graphEdges_congr (hsymbols.trans (Store.symbols_insertRelations again links).symm)
    hrelations filter

/-- The work on a file in any database that runs have led to. The graph keeps its edges between
other files, and nothing changes at all if the file has more symbols than can be removed. Otherwise,
if the symbols of the file get their old ids again, the graph stays as it was exactly when every
relationship that is found in the file is stored already. If no relationship names one of the ids
that are given now, it stays as it was exactly when the edges of the file are those that are found
in it, and then an edge from another file into this one is lost. -/
theorem indexFile_keeps_graph_iff (a : Analyzer) (model : Option Model) (visits : List Visit)
    (project path : String) (language : Option String) (file : Option ByteArray) :
    let x := ofAnalyzer a model
    let db := x.history visits
    let after := (x.indexFile project language path file db).db
    let filter := Store.filterOf project
    let again := db.store.replaceFile project path (x.storable project path file)
    let links := x.linksOf project language path file (db.withStore again)
    ∃ shown shown', db.arrows project = .ok shown ∧ after.arrows project = .ok shown' ∧
      (after.store.arrowsApart filter project path).Perm
        (db.store.arrowsApart filter project path) ∧
      (¬ db.Fits project path → after = db) ∧
      (db.Fits project path →
        (again.rowsOf project path = db.store.rowsOf project path →
          (shown'.Perm shown ↔ ∀ d ∈ links, d.key ∈ db.store.relationKeys)) ∧
        (db.store.namesBelow filter (db.store.firstNewId project path) = true →
          (shown'.Perm shown ↔ (db.store.arrowsAt filter project path).Perm
            ((again.withOnly links).arrows filter)) ∧
          ((∃ e ∈ db.store.graphEdges filter,
              e.target ∈ db.store.rowsOf project path ∧ e.source.file ≠ path) →
            ¬ shown'.Perm shown))) := by
  intro x db after filter again links
  have hx : x.Lawful := ofAnalyzer_lawful a model
  have hsound : db.Sound := (stored_history hx visits).sound
  have hkeyed : db.store.Keyed := keyed_history hx visits
  have hds : ∀ d ∈ x.storable project path file, d.project = project ∧ d.file = path :=
    fun d hd => hx.mem_storable hd
  have hlinks : ∀ d ∈ links, d.project = project ∧
      (∃ s ∈ again.rowsOf project path, d.source = .int s.id) ∧
        ∃ t ∈ again.symbols, d.target = .int t.id := fun d hd => ends_of_mem_linksOf hd
  have hcrowded : ¬ db.Fits project path → after = db := fun hcrowded =>
    congrArg FileOutcome.db (indexFile_crowded hsound.clearable hcrowded)
  have hedges : db.Fits project path →
      after.store.graphEdges filter = (again.insertRelations links).graphEdges filter :=
    fun hfits => graphEdges_indexFile hx hsound hfits language file filter
  have harrows : db.Fits project path →
      after.store.arrows filter = (again.insertRelations links).arrows filter :=
    fun hfits => congrArg (List.map Edge.arrow) (hedges hfits)
  have hafter : after.Sound :=
    hsound.mono (indexFile_sameFaults hx project path language file db).1
  refine ⟨_, _, hsound.arrows_eq project, hafter.arrows_eq project, ?_, hcrowded,
    fun hfits => ⟨?_, ?_⟩⟩
  · by_cases hfits : db.Fits project path
    · rw [Store.arrowsApart, Store.arrowsOf, hedges hfits]
      exact Store.arrowsApart_relinked hkeyed hds rfl hlinks filter
    · rw [hcrowded hfits]
  · intro hrows
    rw [harrows hfits]
    exact Store.arrows_relinked_same hkeyed hds rfl hlinks hrows (Store.passes_filterOf project)
  · intro hbelow
    rw [harrows hfits]
    refine ⟨Store.arrows_relinked_fresh hkeyed hds rfl hlinks hbelow, ?_⟩
    rintro ⟨e, he, htarget, hsource⟩
    exact Store.not_perm_relinked_fresh hkeyed hds rfl hlinks hbelow he htarget hsource

/-- An analyzer that knows functions. -/
def functions : Analyzer :=
  { dialect := .code, grammars := ["python"]
    query := fun _ => some "(function_definition) @definition.function" }

/-- A file with a function, and a file with a function that calls it. -/
def calleeFirst : Visit where
  workspace :=
    { tree := .dir [("a.py", .file "def callee(): pass\n".toUTF8),
        ("b.py", .file "def caller(): callee()\n".toUTF8)] }
  path := "."
  project := "p"

/-- The call across the two files. -/
def callAcross : Arrow := ⟨"caller", "b.py", "calls", "callee", "a.py"⟩

/-- The file with the call is worked on once more, with the content that it had. Its symbols get the
ids that they had, and the graph stays. -/
theorem indexFile_keeps_graph_iff_caller :
    let x := ofAnalyzer functions none
    let db := x.history [calleeFirst]
    let after := (x.indexFile "p" (some "python") "b.py" (calleeFirst.read? "b.py") db).db
    ∃ shown shown', db.arrows "p" = .ok shown ∧ after.arrows "p" = .ok shown' ∧
      shown'.Perm shown := by
  obtain ⟨shown, shown', hshown, hshown', -, -, hsame⟩ := indexFile_keeps_graph_iff functions none
    [calleeFirst] "p" "b.py" (some "python") (calleeFirst.read? "b.py")
  have hperm : _ ∧ _ ∧ _ → shown'.Perm shown := fun h => ((hsame h.1).1 h.2.1).mpr h.2.2
  exact ⟨shown, shown', hshown, hshown', hperm (by decide +kernel)⟩

/-- The file of the function that is called is worked on once more, with the content that it had.
Its symbols are those from before, and the call is no longer shown. -/
theorem indexFile_loses_call :
    let x := ofAnalyzer functions none
    let db := x.history [calleeFirst]
    let after := (x.indexFile "p" (some "python") "a.py" (calleeFirst.read? "a.py") db).db
    after.store.dataOf "p" "a.py" = db.store.dataOf "p" "a.py" ∧
      ∃ shown shown', db.arrows "p" = .ok shown ∧ after.arrows "p" = .ok shown' ∧
        callAcross ∈ shown ∧ callAcross ∉ shown' := by
  intro x db after
  have hx : x.Lawful := ofAnalyzer_lawful functions none
  have hdb : db.Sound := (stored_history hx [calleeFirst]).sound
  have hafter : after.Sound := hdb.mono (indexFile_sameFaults hx "p" "a.py" _ _ db).1
  -- one evaluation for all three, since each of them takes both databases
  have hkeys : after.store.dataOf "p" "a.py" = db.store.dataOf "p" "a.py" ∧
      callAcross ∈ db.store.relationKeys.filterMap
        (db.store.arrow? (Store.filterOf "p") fun _ _ => true) ∧
      callAcross ∉ after.store.relationKeys.filterMap
        (after.store.arrow? (Store.filterOf "p") fun _ _ => true) := by
    decide +kernel
  obtain ⟨hdata, hbefore, hgone⟩ := hkeys
  refine ⟨hdata, _, _, hdb.arrows_eq "p", hafter.arrows_eq "p", ?_, ?_⟩
  · exact (db.store.arrows_perm_keys _).mem_iff.mpr hbefore
  · exact fun h => hgone ((after.store.arrows_perm_keys _).mem_iff.mp h)

end Indexer

end SymbolAtlas
