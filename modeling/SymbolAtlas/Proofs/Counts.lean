/-
  SymbolAtlas.Proofs.Counts: the number of symbols that a run tells.

  A run with a model counts each symbol that it stores. Two symbols of the same language, name and
  first line in a file have one row in the end, so the table holds the last symbol of each key. Both
  numbers are sums over the files that are worked on, and they agree for a database that was empty
  exactly if no file has two symbols of the same key (`report_counts_iff`).
-/

import Mathlib
import SymbolAtlas.Proofs.Attachment
import SymbolAtlas.Proofs.Chosen
import SymbolAtlas.Proofs.Links
import SymbolAtlas.Proofs.Resolution

namespace SymbolAtlas

/-! ## Symbols by their keys -/

namespace SymbolData

theorem length_lastPerKey_le (ds : List SymbolData) : (lastPerKey ds).length ≤ ds.length := by
  induction ds with
  | nil => exact Nat.le_refl 0
  | cons d rest ih =>
      rw [lastPerKey]
      split
      · exact Nat.le_succ_of_le ih
      · exact Nat.succ_le_succ ih

/-- All symbols are left exactly if their keys differ. -/
theorem length_lastPerKey_eq_iff {ds : List SymbolData} :
    (lastPerKey ds).length = ds.length ↔ ds.Pairwise fun a b => sameKey a b = false := by
  constructor
  · intro h
    induction ds with
    | nil => exact List.Pairwise.nil
    | cons d rest ih =>
        have hle := length_lastPerKey_le rest
        rw [lastPerKey] at h
        split at h
        next =>
          rw [List.length_cons] at h
          omega
        next hany =>
          refine List.pairwise_cons.mpr ⟨?_, ih (Nat.succ.inj h)⟩
          intro e he
          rw [Bool.not_eq_true, List.any_eq_false] at hany
          simpa using hany e he
  · intro h
    rw [lastPerKey_eq_self h]

/-- Over several lists, all symbols are left exactly if the keys differ in each list. -/
theorem sum_length_lastPerKey {α : Type} (items : List α) (f : α → List SymbolData) :
    (items.map fun i => (lastPerKey (f i)).length).sum ≤ (items.map fun i => (f i).length).sum ∧
      ((items.map fun i => (f i).length).sum
          = (items.map fun i => (lastPerKey (f i)).length).sum ↔
        ∀ i ∈ items, (f i).Pairwise fun a b => sameKey a b = false) := by
  have hle : ∀ i ∈ items, (lastPerKey (f i)).length ≤ (f i).length :=
    fun i _ => length_lastPerKey_le (f i)
  refine ⟨List.sum_le_sum hle, ?_, ?_⟩
  · intro heq i hi
    rw [← length_lastPerKey_eq_iff]
    -- one list that loses a symbol, and the sums differ
    by_contra hne
    have hlt := List.sum_lt_sum _ _ hle ⟨i, hi, Nat.lt_of_le_of_ne (hle i hi) hne⟩
    omega
  · intro hkeys
    refine congrArg List.sum (List.map_congr_left fun i hi => ?_)
    exact (length_lastPerKey_eq_iff.mpr (hkeys i hi)).symm

end SymbolData

namespace Store

theorem length_symbols_eq (st : Store) (project file : String) :
    st.symbols.length = (st.rowsOf project file).length
      + (st.symbols.filter (·.isElsewhere project file)).length :=
  List.length_eq_length_filter_add _

end Store

namespace Indexer

open SymbolData

variable {x : Indexer} {w : Work}

/-! ## One file -/

/-- Each symbol that has a vector is counted. -/
theorem added_storeEach {st : Store} {storing : Storing} (h : storing.db = .intact st)
    (project digest : String) {items : List (Symbol × Option (List Value))}
    (hvectors : ∀ item ∈ items, item.2.isSome = true) :
    (storeEach project digest storing items).added = storing.added + items.length := by
  induction items generalizing st storing with
  | nil => rfl
  | cons item rest ih =>
      obtain ⟨s, vector⟩ := item
      obtain ⟨v, rfl⟩ := Option.isSome_iff_exists.mp (hvectors _ List.mem_cons_self)
      have hone : (storeSymbol project digest storing s (some v)).added = storing.added + 1 := by
        rw [storeSymbol, h, Database.addSymbol_intact]
        rfl
      rw [storeEach_cons, ih (storeSymbol_intact h digest s (some v))
        fun item hitem => hvectors item (List.mem_cons_of_mem _ hitem), hone, List.length_cons]
      omega

/-- With a model, the work on a file counts all symbols that are found in it. -/
theorem added_outcome (hx : x.Lawful) (hmodel : x.model.isSome = true) (h : w.before.Regular)
    (hfits : w.before.Fits w.project w.path) :
    (x.outcome w).added = (x.storable w.project w.path w.file).length := by
  have hclear := h.sound.clearable.removeFile hfits
  rw [outcome]
  cases hx.found w.path w.file with
  | nothing hparse =>
      rw [indexFile_nothing hclear hparse, storable, hparse]
      rfl
  | mention p rest m hparse hm =>
      have hnone : symbolsOf? (x.parse w.path w.file) = none := by
        rw [hparse, symbolsOf?, List.mapM_cons, hm]
        rfl
      rw [indexFile_mention hclear hparse hm, storable, hnone]
      rfl
  | symbols symbols hne hsort hfile =>
      obtain ⟨items, stored, hitems, hfst, rfl, -, hadded, -⟩ :=
        indexFile_stored w.language hclear hne hsort
      have hcleared : w.before.cleared w.path w.project
          = .intact (w.before.store.removeFile w.path w.project) := by
        rw [Database.cleared, h.eq_intact]
        rfl
      -- the model gives every item a vector, and only items with a vector are counted
      have hvectors : ∀ item ∈ items, item.2.isSome = true := by
        intro item hitem
        have hmem : (symbolData w.project (digestOf w.file) item.1, item.2.map .list)
            ∈ x.embedded w.project w.path w.file := by
          rw [embedded, symbolsOf?_eq_some hsort]
          exact List.mem_map_of_mem (hitems ▸ hitem)
        have hsome := isSome_of_mem_embedded hmem
        rwa [Option.isSome_map, hmodel] at hsome
      rw [hadded, added_storeEach hcleared _ _ hvectors, storable, symbolsOf?_eq_some hsort, ← hfst,
        List.length_map, List.length_map]
      exact Nat.zero_add _

/-- The work on a file of which nothing is stored adds the last symbol of each key. -/
theorem length_symbols_outcome (hx : x.Lawful) (h : w.before.Regular)
    (hnone : w.before.store.rowsOf w.project w.path = []) :
    (x.outcome w).db.store.symbols.length = w.before.store.symbols.length
      + (lastPerKey (x.storable w.project w.path w.file)).length := by
  have hclear := h.sound.clearable.removeFile (Database.fits_of_rowsOf_eq_nil hnone)
  have hhere : ((x.outcome w).db.store.rowsOf w.project w.path).length
      = (lastPerKey (x.storable w.project w.path w.file)).length := by
    have hdata : (x.outcome w).db.store.dataOf w.project w.path
        = lastPerKey ((x.storable w.project w.path w.file).filter w.before.admits) :=
      indexFile_data hx hclear
    rw [h.sound.filter_admits] at hdata
    rw [← hdata, Store.dataOf, List.length_map]
  have helsewhere : (x.outcome w).db.store.symbols.filter (·.isElsewhere w.project w.path)
      = w.before.store.symbols.filter (·.isElsewhere w.project w.path) := by
    rw [outcome, (indexFile_tables hx w.language w.file hclear).1]
    refine Store.filter_isElsewhere_replaceFile h.sound.shared_eq ?_
    intro d hd
    exact hx.mem_storable (List.mem_filter.mp hd).1
  have hbefore := w.before.store.length_symbols_eq w.project w.path
  rw [hnone] at hbefore
  rw [Store.length_symbols_eq _ w.project w.path, hhere, helsewhere, hbefore, List.length_nil,
    Nat.zero_add, Nat.add_comm]

/-! ## A run -/

/-- What the works of a run count is told by the run. -/
theorem processFiles_added (x : Indexer) (tree : FileTree) (project : String) (c : Choice)
    (s : Progress) :
    (x.processFiles tree project c s).added
      = s.added + ((x.worksOn tree project c.language c.files s.db).map
          fun w => (x.outcome w).added).sum := by
  have hitems : ∀ (items : List (String × Nat)) (s : Progress),
      (items.foldl (x.processFile tree project c.language c.files.length) s).added
        = s.added + ((x.worksOn tree project c.language (items.map Prod.fst) s.db).map
            fun w => (x.outcome w).added).sum := by
    intro items
    induction items with
    | nil => exact fun s => rfl
    | cons item rest ih =>
        intro s
        obtain ⟨path, i⟩ := item
        rw [List.foldl_cons, ih, processFile_added, processFile_db, Nat.add_assoc]
        rfl
  rw [processFiles, hitems, List.zipIdx_map_fst]

/-- Files of which nothing is stored, each worked on once, add the last symbol of each key. -/
theorem length_symbols_indexFiles (hx : x.Lawful) {tree : FileTree} {project : String}
    {language : Option String} {files : List String} {db : Database} (h : db.Regular)
    (hnone : ∀ path ∈ files, db.store.rowsOf project path = []) (hnodup : files.Nodup) :
    (x.indexFiles tree project language files db).store.symbols.length
      = db.store.symbols.length + ((x.worksOn tree project language files db).map
          fun w => (lastPerKey (x.storable w.project w.path w.file)).length).sum := by
  induction files generalizing db with
  | nil => rfl
  | cons path rest ih =>
      obtain ⟨hpath, hrest⟩ := List.nodup_cons.mp hnodup
      let w : Work := ⟨project, language, path, tree.read? (.parse path), db⟩
      have hothers : ∀ other ∈ rest, (x.outcome w).db.store.rowsOf project other = [] := by
        intro other hother
        have hne : path ≠ other := fun heq => hpath (heq ▸ hother)
        exact (indexFile_rows_other hx (.inl hne)).trans
          (hnone other (List.mem_cons_of_mem path hother))
      have hregular : (x.outcome w).db.Regular := regular_outcome (w := w) hx h
      refine (ih hregular hothers hrest).trans ?_
      rw [length_symbols_outcome (w := w) hx h (hnone path List.mem_cons_self), Nat.add_assoc]
      rfl

theorem finish_stats {db : Database} (h : db.Sound) (project : String) (origin : Option Origin) :
    (finish project origin db).2 = .ok (db.store.stats (Store.filterOf project)) := by
  cases origin with
  | none => exact h.stats_ok _
  | some o =>
      rw [finish_some h]
      rfl

/-- The counts that a run tells, when everything can be counted in the end. -/
theorem runIn_stats {tree : FileTree} {path project : String} {origin : Option Origin}
    {db : Database} (hdb : db.Sound) {c : Choice}
    (hchoice : (x.choice tree path project origin db).2 = .ok c) {stats : Stats}
    (hstats : (finish project origin (x.worked tree path project origin c db).db).2 = .ok stats) :
    (x.runIn tree path project origin db).2.stats = some stats := by
  rw [choice] at hchoice
  simp only [runIn, register_ok hdb.opens (hdb.has .projects), hchoice]
  split
  next e he => exact absurd (hstats.symm.trans he) (by simp)
  next stats' hstats' => exact congrArg some (Except.ok.inj (hstats'.symm.trans hstats))

/-- A run over a directory, without faults: the files that it works on, what it leaves, and the
numbers that it tells. -/
theorem run_report (hx : x.Lawful) {v : Visit} (hdir : v.IsDirectory) {db : Database}
    (hdb : db.Sound) :
    ∃ (language : Option String) (files : List String) (projects : List ProjectRow),
      x.works v db = x.worksOn v.workspace.tree v.project language files
        (db.withProjects projects) ∧
      let after := x.indexFiles v.workspace.tree v.project language files
        (db.withProjects projects)
      let outcome := x.run v.workspace v.path v.project db
      outcome.1.db.store.symbols = after.store.symbols ∧ outcome.2.success = true ∧
        outcome.2.stats = some (after.store.stats (Store.filterOf v.project)) ∧
        outcome.2.added = ((x.works v db).map fun w => (x.outcome w).added).sum := by
  obtain ⟨t, hfind, htree⟩ := hdir
  obtain ⟨c, hchoice⟩ := choice_sound hdb x v.workspace.tree v.path v.project
    (v.workspace.origin? (.parse v.path))
  -- the works and the report go back to the same choice of files
  have hworks := works_of_choice hdb.opens (hdb.has .projects) hfind htree hchoice
  have hworked : (x.worked v.workspace.tree v.path v.project
      (v.workspace.origin? (.parse v.path)) c db).db.Sound := hdb.mono (worked_sameFaults hx c)
  have hstats := finish_stats hworked v.project (v.workspace.origin? (.parse v.path))
  obtain ⟨after, hrun⟩ := runIn_indexed hdb.opens (hdb.has .projects) hchoice
  refine ⟨c.language, c.files, _, hworks, ?_⟩
  rw [run_of_isDir hfind htree]
  refine ⟨?_, ?_, ?_, ?_⟩
  · rw [hrun]
    rfl
  · exact (runIn_counted hdb.opens (hdb.has .projects) hchoice hstats).1
  · rw [runIn_stats hdb hchoice hstats, worked_db]
    rfl
  · rw [(runIn_counted hdb.opens (hdb.has .projects) hchoice hstats).2.1, worked,
      processFiles_added, start_added, hworks, start_db, Nat.zero_add]

/-- Files that are worked on in an empty database store symbols of their project only. -/
theorem project_of_mem_indexFiles (hx : x.Lawful) (tree : FileTree) (project : String)
    (language : Option String) (files : List String) (projects : List ProjectRow) :
    ∀ r ∈ (x.indexFiles tree project language files
      (Database.withProjects {} projects)).store.symbols, r.project = project := by
  intro r hr
  by_contra hne
  have hrow := Store.mem_rowsOf.mpr ⟨hr, rfl, rfl⟩
  rw [indexFiles_rows hx (.inr ⟨rfl, fun h => hne h.symm⟩)] at hrow
  exact absurd hrow List.not_mem_nil

/-- A run into an empty database with a model: the report counts the rows of the project, which are
the last symbols of their keys, and all symbols that were found. -/
theorem run_report_empty (hx : x.Lawful) (hmodel : x.model.isSome = true) {v : Visit}
    (hwell : v.workspace.tree.wellFormed = true) (hdir : v.IsDirectory) :
    let outcome := x.run v.workspace v.path v.project {}
    outcome.2.success = true ∧ ∃ stats, outcome.2.stats = some stats ∧
      stats.symbols
        = (outcome.1.db.store.symbols.filter fun r => r.project == v.project).length ∧
      stats.symbols = ((x.works v {}).map fun w =>
        (lastPerKey (x.storable w.project w.path w.file)).length).sum ∧
      outcome.2.added = ((x.works v {}).map fun w =>
        (x.storable w.project w.path w.file).length).sum := by
  intro outcome
  obtain ⟨language, files, projects, hworks, hsymbols, hsuccess, hstats, hadded⟩ :=
    run_report hx hdir Database.sound_empty
  have hempty : (Database.withProjects {} projects).Regular :=
    Database.regular_empty.withProjects projects
  -- no file comes twice, so that the symbols of the files can be added up
  have hnodup : files.Nodup := by
    have hpaths := nodup_workPaths x hwell {}
    rwa [workPaths, hworks, map_path_worksOn] at hpaths
  have hown := project_of_mem_indexFiles hx v.workspace.tree v.project language files projects
  -- nothing was stored before, so that all symbols are those of the project
  have hall : (outcome.1.db.store.symbols.filter fun r => r.project == v.project)
      = outcome.1.db.store.symbols := by
    rw [List.filter_eq_self, hsymbols]
    exact fun r hr => beq_iff_eq.mpr (hown r hr)
  refine ⟨hsuccess, _, hstats, ?_, ?_, ?_⟩
  · rw [Store.stats, Database.inScope_of_own hown, hall, hsymbols]
  · rw [Store.stats, Database.inScope_of_own hown, hworks]
    exact (length_symbols_indexFiles hx hempty (fun _ _ => rfl) hnodup).trans (Nat.zero_add _)
  · rw [hadded]
    refine congrArg List.sum (List.map_congr_left fun w hw => ?_)
    -- nothing is to be removed before a file is worked on
    have hnone : w.before.store.rowsOf w.project w.path = [] :=
      rowsOf_works hx (nodup_workPaths x hwell {}) hw w.project
    exact added_outcome hx hmodel ((regular_visit hx Database.regular_empty v).1 w hw)
      (Database.fits_of_rowsOf_eq_nil hnone)

/-- A directory is indexed with a model into a database that was empty. The report has counts, and
their number of symbols is that of the rows of the project. The number of symbols that were added is
not smaller, and it is the same exactly if no file has two symbols of the same language, name and
first line. -/
theorem report_counts_iff (a : Analyzer) (m : Model) {v : Visit}
    (hwell : v.workspace.tree.wellFormed = true) (hdir : v.IsDirectory) :
    let x := ofAnalyzer a (some m)
    let outcome := x.run v.workspace v.path v.project {}
    outcome.2.success = true ∧ ∃ stats, outcome.2.stats = some stats ∧
      stats.symbols
        = (outcome.1.db.store.symbols.filter fun r => r.project == v.project).length ∧
      stats.symbols ≤ outcome.2.added ∧
      (outcome.2.added = stats.symbols ↔ ∀ w ∈ x.works v {},
        (x.storable w.project w.path w.file).Pairwise fun d e => sameKey d e = false) := by
  obtain ⟨hsuccess, stats, hstats, hrows, hkept, hadded⟩ :=
    run_report_empty (ofAnalyzer_lawful a (some m)) rfl hwell hdir
  have hsums := sum_length_lastPerKey ((ofAnalyzer a (some m)).works v {})
    fun w => (ofAnalyzer a (some m)).storable w.project w.path w.file
  rw [← hkept, ← hadded] at hsums
  exact ⟨hsuccess, stats, hstats, hrows, hsums⟩

/-- Two functions in two files are two symbols that were added and two that are stored. -/
theorem report_counts_iff_functions :
    let x := ofAnalyzer functions (some echo)
    let outcome := x.run calleeFirst.workspace calleeFirst.path calleeFirst.project {}
    calleeFirst.workspace.tree.wellFormed = true ∧ calleeFirst.IsDirectory ∧
      outcome.2.added = 2 ∧ ∃ stats, outcome.2.stats = some stats ∧ stats.symbols = 2 := by
  have hfacts :
      let x := ofAnalyzer functions (some echo)
      let outcome := x.run calleeFirst.workspace calleeFirst.path calleeFirst.project {}
      calleeFirst.workspace.tree.wellFormed = true ∧ outcome.2.added = 2 ∧
        ∀ w ∈ x.works calleeFirst {},
          (x.storable w.project w.path w.file).Pairwise fun d e => sameKey d e = false := by
    decide +kernel
  obtain ⟨hwell, hadded, hkeys⟩ := hfacts
  have hroot : Path.parse calleeFirst.path = ⟨"", []⟩ := by decide
  have hdir : calleeFirst.IsDirectory := ⟨calleeFirst.workspace.tree, by rw [hroot]; rfl, rfl⟩
  obtain ⟨-, stats, hstats, -, -, hsame⟩ := report_counts_iff functions echo hwell hdir
  exact ⟨hwell, hdir, hadded, stats, hstats, (hsame.mpr hkeys).symm.trans hadded⟩

/-- The key and the value of a pair are counted apart, and the value takes the place of the key. -/
theorem report_counts_equal_pair_twice :
    let v := Visit.ofFiles [("a.json", "\x7b\"a\": \"a\"\x7d\n")]
    let outcome := (ofAnalyzer Database.pairs (some echo)).run v.workspace v.path v.project {}
    outcome.2.success = true ∧ outcome.2.errors = [] ∧ outcome.2.added = 3 ∧
      ∃ stats, outcome.2.stats = some stats ∧ stats.symbols = 2 := by
  have hfacts :
      let v := Visit.ofFiles [("a.json", "\x7b\"a\": \"a\"\x7d\n")]
      let outcome := (ofAnalyzer Database.pairs (some echo)).run v.workspace v.path v.project {}
      outcome.2.success = true ∧ outcome.2.errors = [] ∧ outcome.2.added = 3 ∧
        outcome.2.stats.map (·.symbols) = some 2 := by
    decide +kernel
  obtain ⟨hsuccess, herrors, hadded, hsymbols⟩ := hfacts
  exact ⟨hsuccess, herrors, hadded, Option.map_eq_some_iff.mp hsymbols⟩

end Indexer

end SymbolAtlas
