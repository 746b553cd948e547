/-
  SymbolAtlas.Proofs.Removal: what is left of a project that was deleted.

  A deletion takes the symbols of the project and their embeddings, and nothing else: relationships
  and the row of the project stay. The row keeps the commit of the last scan, by which the next run
  chooses its files, so that it may pass over files that have no symbols any more
  (`deleteProject_noResidue_iff`). The symbols are named one by one, so that a project with more of
  them than values can be bound is not deleted at all.
-/

import SymbolAtlas.Proofs.Reordering
import SymbolAtlas.Proofs.Rework
import SymbolAtlas.Proofs.ScanMode

namespace SymbolAtlas

/-- Nothing is counted. -/
def Stats.zero : Stats := ⟨0, 0, [], 0, 0, []⟩

namespace Store

variable {st : Store} {p : String}

/-! ## Tables after a deletion -/

theorem mem_symbols_removeProject {r : SymbolRow} :
    r ∈ (st.removeProject p).symbols ↔ r ∈ st.symbols ∧ r.project ≠ p := by
  simp [removeProject, removeSymbols, List.mem_filter]

theorem mem_embeddings_removeProject {e : EmbeddingRow} :
    e ∈ (st.removeProject p).embeddings ↔
      e ∈ st.embeddings ∧ ∀ r ∈ st.symbols, r.project = p → r.id ≠ e.id := by
  simp [removeProject, removeSymbols, List.mem_filter]

/-! ## Counts -/

theorem stats_eq_zero_iff {filter : Option String} :
    st.stats filter = .zero ↔
      st.inScope none filter = [] ∧ st.embeddedIn filter = 0 ∧ st.relationsIn filter = [] := by
  constructor
  · intro h
    refine ⟨List.length_eq_zero_iff.mp (congrArg Stats.symbols h), congrArg Stats.embedded h,
      List.length_eq_zero_iff.mp (congrArg Stats.relations h)⟩
  · rintro ⟨hsymbols, hembedded, hrelations⟩
    rw [stats, hsymbols, hembedded, hrelations]
    rfl

theorem inScope_removeProject (st : Store) (p : String) :
    (st.removeProject p).inScope none (some p) = [] := by
  rw [inScope, List.filter_eq_nil_iff]
  intro r hr
  have hne := (mem_symbols_removeProject.mp hr).2
  simpa [passes] using Ne.symm hne

theorem embeddedIn_removeProject (st : Store) (p : String) :
    (st.removeProject p).embeddedIn (some p) = 0 := by
  rw [embeddedIn, List.length_eq_zero_iff, List.filter_eq_nil_iff]
  intro e _
  rw [List.any_eq_true]
  rintro ⟨r, hr, hmatch⟩
  rw [Bool.and_eq_true, beq_iff_eq, beq_iff_eq] at hmatch
  exact (mem_symbols_removeProject.mp hr).2 hmatch.2

/-- What is counted of a project after its deletion: its relationships. -/
theorem stats_removeProject_iff (st : Store) (hp : p ≠ "") :
    (st.removeProject p).stats (filterOf p) = .zero ↔ ∀ r ∈ st.relations, r.project ≠ p := by
  have hrelations : (st.removeProject p).relationsIn (some p) = [] ↔
      ∀ r ∈ st.relations, r.project ≠ p := by
    rw [relationsIn, List.filter_eq_nil_iff]
    simp only [passes, beq_iff_eq]
    exact forall₂_congr fun r _ => not_congr eq_comm
  rw [filterOf, if_neg hp, stats_eq_zero_iff, hrelations]
  constructor
  · exact fun h => h.2.2
  · exact fun h => ⟨inScope_removeProject st p, embeddedIn_removeProject st p, h⟩

/-- The empty name is no filter, so that all that is left is counted. -/
theorem stats_removeProject_empty_iff (st : Store) :
    (st.removeProject "").stats (filterOf "") = .zero ↔
      st.relations = [] ∧ (∀ r ∈ st.symbols, r.project = "") ∧
        ∀ e ∈ st.embeddings, ∃ r ∈ st.symbols, r.project = "" ∧ r.id = e.id := by
  have hrelations : (st.removeProject "").relationsIn none = st.relations := by
    exact List.filter_eq_self.mpr fun _ _ => rfl
  have hsymbols : (st.removeProject "").inScope none none = [] ↔
      ∀ r ∈ st.symbols, r.project = "" := by
    rw [inScope, List.filter_eq_nil_iff]
    simp only [passes, mem_symbols_removeProject]
    simp
  have hembeddings : (st.removeProject "").embeddedIn none = 0 ↔
      ∀ e ∈ st.embeddings, ∃ r ∈ st.symbols, r.project = "" ∧ r.id = e.id := by
    rw [embeddedIn, List.length_eq_zero_iff, List.eq_nil_iff_forall_not_mem]
    simp only [mem_embeddings_removeProject]
    simp
  have hfilter : filterOf "" = none := if_pos rfl
  rw [hfilter, stats_eq_zero_iff, hrelations, hsymbols, hembeddings]
  constructor
  · rintro ⟨hs, he, hr⟩
    exact ⟨hr, hs, he⟩
  · rintro ⟨hr, hs, he⟩
    exact ⟨hs, he, hr⟩

theorem mem_dataIn_iff {d : SymbolData} :
    d ∈ st.dataIn p ↔ d ∈ st.dataOf p d.file := by
  rw [← List.count_pos_iff, count_dataIn, List.count_pos_iff]

theorem file_of_mem_dataOf {file : String} {d : SymbolData} (h : d ∈ st.dataOf p file) :
    d.file = file := by
  obtain ⟨r, hr, rfl⟩ := List.mem_map.mp h
  exact (mem_rowsOf.mp hr).2.2

theorem project?_eq_none_iff : st.project? p = none ↔ ∀ r ∈ st.projects, r.project ≠ p := by
  rw [project?, List.find?_eq_none]
  simp only [beq_iff_eq]

end Store

namespace Database

/-- A database with no row of a project. -/
structure Without (db : Database) (p : String) : Prop where
  symbols : ∀ r ∈ db.store.symbols, r.project ≠ p
  relations : ∀ r ∈ db.store.relations, r.project ≠ p
  projects : ∀ r ∈ db.store.projects, r.project ≠ p

theorem without_empty (p : String) : Without {} p :=
  ⟨fun _ hr => absurd hr List.not_mem_nil, fun _ hr => absurd hr List.not_mem_nil,
    fun _ hr => absurd hr List.not_mem_nil⟩

theorem rowsOf_eq_nil {db : Database} {p : String} (h : ∀ r ∈ db.store.symbols, r.project ≠ p)
    (file : String) : db.store.rowsOf p file = [] := by
  rw [List.eq_nil_iff_forall_not_mem]
  intro r hr
  obtain ⟨hmem, hproject, -⟩ := Store.mem_rowsOf.mp hr
  exact h r hmem hproject

end Database

namespace Indexer

variable {x : Indexer} {w : Workspace} {path : String} {db : Database}

/-! ## Runs for a project without symbols -/

theorem run_of_not_isDir (h : (w.tree.find? (.parse path)).any (·.isDir) = false) (project : String)
    (db : Database) : (x.run w path project db).1.db = db := by
  rw [run]
  cases hfind : w.tree.find? (.parse path) with
  | none => rfl
  | some t =>
      rw [hfind, Option.any_some] at h
      simp [h]

/-- What a full scan stores of a file when nothing is stored of its project: its symbols, if the
scan looks at it and it has a language. -/
def scanned (x : Indexer) (v : Visit) (file : String) : List SymbolData :=
  if (v.workspace.tree.find? (.parse v.path)).any (·.isDir) &&
      (lookedAt v.workspace.tree (.parse v.path)).any (fun f => f.1.toString == file) &&
      (x.languageOf? file).isSome then
    SymbolData.lastPerKey (x.storable v.project file (v.read? file))
  else []

theorem fullScan_scanned (hx : x.Lawful) (hdb : db.Sound) {v : Visit}
    (hsymbols : ∀ r ∈ db.store.symbols, r.project ≠ v.project) (hfull : v.IsFull db)
    (file : String) : (x.visit db v).store.dataOf v.project file = x.scanned v file := by
  have hnone : db.store.dataOf v.project file = [] :=
    Store.dataOf_eq_nil.mpr (Database.rowsOf_eq_nil hsymbols file)
  have hkept : (x.visit db v).store.rowsOf v.project file = db.store.rowsOf v.project file →
      (x.visit db v).store.dataOf v.project file = [] := by
    intro h
    rw [Store.dataOf, h]
    exact hnone
  rw [scanned]
  split
  next h =>
    rw [Bool.and_eq_true, Bool.and_eq_true, Option.any_eq_true, List.any_eq_true] at h
    obtain ⟨⟨⟨t, hfind, hdir⟩, ⟨q, b⟩, hlooked, hq⟩, hlanguage⟩ := h
    obtain rfl := beq_iff_eq.mp hq
    rcases fullScan_file hx hdb.clearable (hdb.has .projects) hfind hdir hfull hlooked hlanguage
      with ⟨-, hdata⟩ | ⟨hcurrent | hcrowded, -⟩
    · rw [visit, hdata, hdb.filter_admits]
      rfl
    · -- its digest is not there, as there are no symbols
      obtain ⟨d, hd, -⟩ := Store.isCurrent_iff.mp hcurrent
      rw [hnone] at hd
      exact absurd hd List.not_mem_nil
    · exact absurd (Database.fits_of_rowsOf_eq_nil (Database.rowsOf_eq_nil hsymbols _)) hcrowded
  next h =>
    apply hkept
    rw [Bool.and_eq_true, Bool.and_eq_true, not_and_or, not_and_or] at h
    rcases h with (hdir | hlooked) | hlanguage
    · rw [visit, run_of_not_isDir (Bool.eq_false_iff.mpr hdir)]
    · refine fullScan_rows hx hfull fun q b hmem heq => hlooked ?_
      exact List.any_eq_true.mpr ⟨(q, b), hmem, beq_iff_eq.mpr heq⟩
    · refine run_rows_of_languageOf? hx ?_ v.workspace v.path v.project v.project db
      exact Option.not_isSome_iff_eq_none.mp hlanguage

theorem origin_of_baseline? {origin : Option Origin} {known : Option String} {o : Origin}
    {last : String} (h : baseline? origin known = some (o, last)) : origin = some o := by
  obtain ⟨o', rfl, hrest⟩ := Option.bind_eq_some_iff.mp h
  obtain ⟨last', -, hrest⟩ := Option.bind_eq_some_iff.mp hrest
  split at hrest
  · rw [(Prod.mk.inj (Option.some.inj hrest)).1]
  · exact absurd hrest (by simp)

/-- A scan for changes leaves a file without symbols that it is not told of. -/
theorem changedScan_misses (hx : x.Lawful) {v : Visit}
    (hsymbols : ∀ r ∈ db.store.symbols, r.project ≠ v.project) {o : Origin} {last : String}
    (hbase : baseline? (v.workspace.origin? (.parse v.path)) (lastCommit? v.project db)
      = some (o, last)) {file : String} (hnot : file ∉ o.changedSince last) :
    (x.visit db v).store.rowsOf v.project file = [] := by
  rw [visit, changedScan_rows hx hbase (.inl hnot)]
  exact Database.rowsOf_eq_nil hsymbols file

end Indexer

/-! ## A repository without commits -/

/-- Without a commit nothing is compared with an earlier one, whichever it is. -/
theorem Repository.sources_of_headCommit? {r : Repository} (h : r.headCommit? = none)
    (tree : FileTree) (since : String) : r.sources tree (some since) = r.sources tree none := by
  rw [sources, sources, h]
  rfl

/-- Whatever commit is known, nothing is told to have changed. -/
theorem Workspace.not_mem_unborn {o : Origin}
    (h : Workspace.unborn.origin? (.parse "app") = some o) (since file : String) :
    file ∉ o.changedSince since := by
  intro hfile
  obtain ⟨r, hr, hhead, huntracked, hmodified⟩ := Workspace.unborn_repository
  rw [Workspace.origin?, hr, Option.map_some] at h
  obtain rfl := Option.some.inj h
  dsimp only at hfile
  rw [Repository.sources_of_headCommit? hhead] at hfile
  obtain ⟨path, -, hpath⟩ := ChangeSources.exists_place_of_mem hfile
  have hcommitted :
      (r.sources (Workspace.unborn.subtree (.parse "app")) none).committed = none := by
    rw [Repository.sources, hhead]
    rfl
  rw [hcommitted, huntracked, hmodified] at hpath
  simp at hpath

namespace Database

/-! ## The deletion of a project -/

/-- Whether a run stores the same symbols for a project as it does where the project never was. -/
def IndexedAnew (db : Database) (p : String) : Prop :=
  ∀ (a : Analyzer) (model : Option Model) (others : List Action) (v : Visit), v.project = p →
    (reached others).Without p →
      let x := Indexer.ofAnalyzer a model
      ((x.visit db v).store.dataIn p).Perm ((x.visit (reached others) v).store.dataIn p)

theorem indexedAnew_of_full {db : Database} {p : String} (hdb : db.Sound)
    (hsymbols : ∀ r ∈ db.store.symbols, r.project ≠ p)
    (h : Indexer.lastCommit? p db = none ∨ Indexer.lastCommit? p db = some "") :
    db.IndexedAnew p := by
  rintro a model others v rfl hothers
  have hx := Indexer.ofAnalyzer_lawful a model
  have hfull : v.IsFull db := Visit.isFull_iff.mpr (.inr (h.imp_right .inl))
  have hknown : Indexer.lastCommit? v.project (reached others) = none := by
    rw [Indexer.lastCommit?, Store.project?_eq_none_iff.mpr hothers.projects]
    rfl
  have hfull' : v.IsFull (reached others) := Visit.isFull_iff.mpr (.inr (.inl hknown))
  refine Store.dataIn_perm fun file => ?_
  exact (Indexer.fullScan_scanned hx hdb hsymbols hfull file).trans
    (Indexer.fullScan_scanned hx (regular_reached others).sound hothers.symbols hfull' file).symm

/-- The staged file has symbols, in whichever project. -/
theorem scanned_unborn (p : String) :
    (Indexer.ofAnalyzer Indexer.settings none).scanned ⟨.unborn, "app", p⟩ "app/a.toml" ≠ [] := by
  have hsymbols : (Indexer.symbolsOf? ((Indexer.ofAnalyzer Indexer.settings none).parse "app/a.toml"
      (Workspace.unborn.tree.read? (.parse "app/a.toml")))).any (!·.isEmpty) = true := by
    decide +kernel
  obtain ⟨symbols, hsome, hne⟩ := (Option.any_eq_true _ _).mp hsymbols
  have hlooked : ((Workspace.unborn.tree.find? (.parse "app")).any (·.isDir) &&
      (Indexer.lookedAt Workspace.unborn.tree (.parse "app")).any
        (fun f => f.1.toString == "app/a.toml") &&
      ((Indexer.ofAnalyzer Indexer.settings none).languageOf? "app/a.toml").isSome) = true := by
    decide +kernel
  rw [Indexer.scanned, if_pos hlooked, Ne, SymbolData.lastPerKey_eq_nil, Indexer.storable,
    Visit.read?, hsome, List.map_eq_nil_iff, ← List.isEmpty_iff]
  simpa using hne

theorem full_of_indexedAnew {db : Database} {p : String}
    (hsymbols : ∀ r ∈ db.store.symbols, r.project ≠ p) (h : db.IndexedAnew p) :
    Indexer.lastCommit? p db = none ∨ Indexer.lastCommit? p db = some "" := by
  have hx := Indexer.ofAnalyzer_lawful Indexer.settings none
  rw [← Visit.isFull_unborn, Visit.IsFull]
  cases hbase : Indexer.baseline? (Workspace.unborn.origin? (.parse "app"))
      (Indexer.lastCommit? p db) with
  | none => rfl
  | some found =>
      -- a scan for changes finds none, whereas a full scan finds the staged file
      obtain ⟨o, last⟩ := found
      have horigin := Indexer.origin_of_baseline? hbase
      have hfresh := Indexer.fullScan_scanned hx (v := ⟨.unborn, "app", p⟩) sound_empty
        (without_empty p).symbols ((Visit.isFull_unborn p {}).mpr (.inl rfl)) "app/a.toml"
      obtain ⟨d, hd⟩ := List.exists_mem_of_ne_nil _ (scanned_unborn p)
      rw [← hfresh] at hd
      have hperm := h Indexer.settings none [] ⟨.unborn, "app", p⟩ rfl (without_empty p)
      have hstored := hperm.mem_iff.mpr (Store.mem_dataIn_iff.mpr (by
        rwa [Store.file_of_mem_dataOf hd]))
      have hnone : ((Indexer.ofAnalyzer Indexer.settings none).visit db
          ⟨.unborn, "app", p⟩).store.dataOf p d.file = [] := by
        rw [Store.dataOf_eq_nil]
        exact Indexer.changedScan_misses hx (v := ⟨.unborn, "app", p⟩) hsymbols hbase
          (Workspace.not_mem_unborn horigin last d.file)
      rw [Store.mem_dataIn_iff, hnone] at hstored
      exact absurd hstored List.not_mem_nil

/-- Nothing of a project is left: no row of it and no embedding of a symbol that it had, nothing
that is counted or known of it, and nothing that a run would find. -/
structure NoResidue (before after : Database) (p : String) : Prop where
  rows : after.Without p
  embeddings : ∀ e ∈ after.store.embeddings, ∀ r ∈ before.store.symbols, r.project = p → r.id ≠ e.id
  stats : after.stats (Store.filterOf p) = .ok .zero
  info : after.projectInfo p = .ok none
  anew : after.IndexedAnew p

/-- Whether the symbols of a project can be removed in one statement. -/
def FitsProject (db : Database) (p : String) : Prop :=
  db.store.symbols.countP (·.project == p) ≤ maxVariables

instance (db : Database) (p : String) : Decidable (db.FitsProject p) :=
  inferInstanceAs (Decidable (db.store.symbols.countP (·.project == p) ≤ maxVariables))

variable {db : Database} {p : String}

theorem removeProject_regular (h : db.Regular) (hfits : db.FitsProject p) :
    db.removeProject p = .ok (intact (db.store.removeProject p)) := by
  rw [h.eq_intact, Database.removeProject, removeSymbols_intact, fitVariables,
    if_neg (Nat.not_lt.mpr hfits)]
  rfl

theorem removeProject_refused (h : db.Regular) (hfits : ¬ db.FitsProject p) :
    db.removeProject p = .error .tooManyVariables := by
  rw [h.eq_intact, Database.removeProject, removeSymbols_intact, fitVariables,
    if_pos (Nat.not_le.mp hfits)]
  rfl

theorem perform_deleteProject (h : db.Regular) (p : String) :
    db.perform (.deleteProject (.text p)) = db.orElse (db.removeProject p) := by
  rw [perform, deleteProject, connect_ok h.sound.opens, need_ok (h.sound.has .symbols)]
  rfl

theorem deleteProject_database (h : db.Regular) (p : String) :
    (Tool.deleteProject db p).database = (db.removeProject p).toOption := by
  rw [Tool.deleteProject, h.sound.stats_ok]
  cases db.removeProject p <;> rfl

theorem sound_removeProject (h : db.Regular) (hfits : db.FitsProject p) :
    (intact (db.store.removeProject p)).Sound := by
  have hafter := (h.perform (.deleteProject (.text p))).sound
  rw [perform_deleteProject h, removeProject_regular h hfits] at hafter
  exact hafter

/-- A project whose symbols are too many has symbols. -/
theorem not_without_of_not_fitsProject (h : ¬ db.FitsProject p) : ¬ db.Without p := by
  intro hwithout
  have hnone : db.store.symbols.countP (·.project == p) = 0 := by
    rw [List.countP_eq_zero]
    exact fun r hr hp => hwithout.symbols r hr (beq_iff_eq.mp hp)
  rw [FitsProject, hnone] at h
  exact h (Nat.zero_le maxVariables)

/-- The row of the project stays, and with it the commit. -/
theorem lastCommit?_removeProject (db : Database) (p : String) :
    Indexer.lastCommit? p (intact (db.store.removeProject p)) = Indexer.lastCommit? p db := rfl

theorem symbols_removeProject (db : Database) (p : String) :
    ∀ r ∈ (intact (db.store.removeProject p)).store.symbols, r.project ≠ p :=
  fun _ hr => (Store.mem_symbols_removeProject.mp hr).2

/-- Runs store the same as where the project never was exactly if no commit was known of it. -/
theorem indexedAnew_removeProject_iff (h : db.Regular) (hfits : db.FitsProject p) :
    (intact (db.store.removeProject p)).IndexedAnew p ↔
      Indexer.lastCommit? p db = none ∨ Indexer.lastCommit? p db = some "" := by
  have hsymbols := symbols_removeProject db p
  rw [← lastCommit?_removeProject]
  exact ⟨full_of_indexedAnew hsymbols, indexedAnew_of_full (sound_removeProject h hfits) hsymbols⟩

theorem noResidue_removeProject_iff (h : db.Regular) (hfits : db.FitsProject p) :
    NoResidue db (intact (db.store.removeProject p)) p ↔
      (∀ r ∈ db.store.relations, r.project ≠ p) ∧ (∀ r ∈ db.store.projects, r.project ≠ p) ∧
      (p = "" → db.store.relations = [] ∧ (∀ r ∈ db.store.symbols, r.project = "") ∧
        ∀ e ∈ db.store.embeddings, ∃ r ∈ db.store.symbols, r.project = "" ∧ r.id = e.id) := by
  have hsound := sound_removeProject h hfits
  have hstats : (intact (db.store.removeProject p)).stats (Store.filterOf p) = .ok .zero ↔
      (db.store.removeProject p).stats (Store.filterOf p) = .zero := by
    rw [hsound.stats_ok]
    exact ⟨Except.ok.inj, congrArg Except.ok⟩
  constructor
  · intro hgone
    -- without a name the counts are those of all projects
    refine ⟨hgone.rows.relations, hgone.rows.projects, ?_⟩
    rintro rfl
    exact (Store.stats_removeProject_empty_iff db.store).mp (hstats.mp hgone.stats)
  · rintro ⟨hrelations, hprojects, hempty⟩
    have hrow : db.store.project? p = none := Store.project?_eq_none_iff.mpr hprojects
    refine ⟨⟨symbols_removeProject db p, hrelations, hprojects⟩,
      fun e he => (Store.mem_embeddings_removeProject.mp he).2, ?_, ?_, ?_⟩
    · rw [hstats]
      by_cases hp : p = ""
      · subst hp
        exact (Store.stats_removeProject_empty_iff db.store).mpr (hempty rfl)
      · exact (Store.stats_removeProject_iff db.store hp).mpr hrelations
    · rw [projectInfo, connect_ok hsound.opens, need_ok (hsound.has .projects)]
      exact congrArg Except.ok hrow
    · rw [indexedAnew_removeProject_iff h hfits, Indexer.lastCommit?, hrow]
      exact .inl rfl

/-- A project whose symbols can be named in one statement is deleted, which takes its symbols with
their embeddings. Nothing is left of it exactly if it had no relationships and no row of its own;
for the empty name, which stands for all projects in counts, there must be nothing else either. Runs
store the same as where the project never was exactly if no commit was known of it. A project with
more symbols is not deleted, and all of it is left. -/
theorem deleteProject_noResidue_iff (actions : List Action) (p : String) :
    let db := reached actions
    let after := db.perform (.deleteProject (.text p))
    after.store.relations = db.store.relations ∧ after.store.projects = db.store.projects ∧
    (db.FitsProject p →
      (Tool.deleteProject db p).database = some after ∧
      (NoResidue db after p ↔
        (∀ r ∈ db.store.relations, r.project ≠ p) ∧ (∀ r ∈ db.store.projects, r.project ≠ p) ∧
        (p = "" → db.store.relations = [] ∧ (∀ r ∈ db.store.symbols, r.project = "") ∧
          ∀ e ∈ db.store.embeddings, ∃ r ∈ db.store.symbols, r.project = "" ∧ r.id = e.id)) ∧
      (after.IndexedAnew p ↔
        Indexer.lastCommit? p db = none ∨ Indexer.lastCommit? p db = some "")) ∧
    (¬ db.FitsProject p →
      db.removeProject p = .error .tooManyVariables ∧
      (Tool.deleteProject db p).database = none ∧ after = db ∧ ¬ NoResidue db after p) := by
  intro db after
  have hdb : db.Regular := regular_reached actions
  have hafter : after = db.orElse (db.removeProject p) := perform_deleteProject hdb p
  rw [hafter, deleteProject_database hdb]
  by_cases hfits : db.FitsProject p
  · rw [removeProject_regular hdb hfits]
    exact ⟨rfl, rfl, fun _ => ⟨rfl, noResidue_removeProject_iff hdb hfits,
      indexedAnew_removeProject_iff hdb hfits⟩, fun hcrowded => absurd hfits hcrowded⟩
  · rw [removeProject_refused hdb hfits]
    exact ⟨rfl, rfl, fun h => absurd h hfits, fun _ => ⟨rfl, rfl, rfl,
      fun hgone => not_without_of_not_fitsProject hfits hgone.rows⟩⟩

/-- What the repository of settings tells at its later commit, compared with the first. -/
def editedSources : ChangeSources :=
  (Indexer.repositoryOf [Indexer.fourFiles, Indexer.edited] Indexer.edited).sources
    (Indexer.treeOf Indexer.edited "n.toml" "[after]\n") (some Indexer.fourFiles.id)

/-- The file that is as it was is not told to have changed. -/
theorem kept_not_changed : "app/b.toml" ∉ editedSources.allChangedFiles (.parse "app") := by
  intro hmem
  obtain ⟨path, heq, hpath⟩ := ChangeSources.exists_place_of_mem hmem
  have hnone : ∀ path ∈ (editedSources.committed.getD []).flatMap Change.paths ++
      (editedSources.untracked.getD [] ++ editedSources.modifiedPaths),
      "app/b.toml" ≠ ChangeSources.place (.parse "app") path := by
    decide +kernel
  refine hnone path ?_ heq
  rw [List.mem_append, List.mem_append]
  exact hpath

/-- A file with a function is indexed, and its project is deleted. -/
def functionDeleted : List Action :=
  [.index Indexer.functions none (.ofFiles [("a.py", "def run(): pass\n")]),
    .operation (.deleteProject (.text "p"))]

/-- A deletion leaves the relationship of a function to itself and the row of its project. And when
settings were indexed at their first commit and deleted, a run at the later commit misses those that
are as they were. -/
theorem deleteProject_leaves_rows :
    let x := Indexer.ofAnalyzer Indexer.settings none
    let later : Visit := ⟨Indexer.atEdited, "app", "p"⟩
    let deleted := (reached settingsIndexed).perform (.deleteProject (.text "p"))
    (reached functionDeleted).store.symbols = [] ∧
      (reached functionDeleted).store.relations.map (·.project) = ["p"] ∧
      (reached functionDeleted).store.projects.map (·.project) = ["p"] ∧
      (x.visit deleted later).store.rowsOf "p" "app/b.toml" = [] ∧
      ((x.visit {} later).store.dataOf "p" "app/b.toml").map (·.name) = ["kept"] := by
  have hfunction : (reached functionDeleted).store.symbols = [] ∧
      (reached functionDeleted).store.relations.map (·.project) = ["p"] ∧
      (reached functionDeleted).store.projects.map (·.project) = ["p"] := by
    decide +kernel
  have hbase := settingsIndexed_baseline
  rw [← lastCommit?_removeProject] at hbase
  have hfits : (reached settingsIndexed).FitsProject "p" :=
    Nat.le_trans List.countP_le_length Indexer.stored_fresh.1
  have hdb := regular_reached settingsIndexed
  refine ⟨hfunction.1, hfunction.2.1, hfunction.2.2, ?_, ?_⟩
  · rw [perform_deleteProject hdb, removeProject_regular hdb hfits]
    exact Indexer.changedScan_misses (Indexer.ofAnalyzer_lawful Indexer.settings none)
      (v := ⟨Indexer.atEdited, "app", "p"⟩) (symbols_removeProject _ "p") hbase kept_not_changed
  · have hfresh := Indexer.stored_fresh.2.2
    rw [List.map_cons, List.map_cons, List.cons.injEq, List.cons.injEq] at hfresh
    rw [Indexer.visit]
    exact hfresh.2.1

end Database

end SymbolAtlas
