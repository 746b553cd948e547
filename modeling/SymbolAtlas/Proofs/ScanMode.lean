/-
  SymbolAtlas.Proofs.ScanMode: whether the next run scans everything.

  A run tells how it chooses its files right after it has stored the project, and it chooses by the
  commit that the last scan left (`scanMode?_eq`). To ask for a full scan notes a scan without a
  commit, and that leaves the commit as it was. So the request has no effect: the next run does what
  it would have done anyway (`forceFullScan_effect_iff`).
-/

import SymbolAtlas.Proofs.Actions
import SymbolAtlas.Proofs.Incremental
import SymbolAtlas.Service.Tool

namespace SymbolAtlas

/-- What is told before a full scan. -/
def Event.fullScan : Event := .info "Performing full scan of codebase"

/-- What is told before a scan for changes. -/
def Event.changedScan : Event := .info "Git repository detected - performing incremental scan"

namespace Visit

variable {v : Visit} {db : Database}

/-- Whether a directory is visited. -/
def IsDirectory (v : Visit) : Prop :=
  ∃ t, v.workspace.tree.find? (.parse v.path) = some t ∧ t.isDir = true

/-- The commit that is checked out in the repository of a visit. -/
def head? (v : Visit) : Option String :=
  (v.workspace.repository? (.parse v.path)).bind fun r => r.headCommit?.map (·.id)

/-- When everything is scanned, by what the last scan has left. -/
theorem isFull_iff : v.IsFull db ↔
    v.workspace.repository? (.parse v.path) = none ∨
      Indexer.lastCommit? v.project db = none ∨ Indexer.lastCommit? v.project db = some "" ∨
      Indexer.lastCommit? v.project db = v.head? := by
  rw [IsFull, head?, Workspace.origin?]
  cases v.workspace.repository? (.parse v.path) with
  | none => simp [Indexer.baseline?]
  | some r =>
      cases Indexer.lastCommit? v.project db with
      | none => simp [Indexer.baseline?]
      | some last =>
          simp only [Indexer.baseline?, Option.map_some, Option.bind_eq_bind, Option.bind_some,
            reduceCtorEq, Option.some.injEq, false_or]
          rw [ite_eq_right_iff]
          simp only [reduceCtorEq, imp_false, not_and, Decidable.not_not]
          rw [Decidable.or_iff_not_imp_left, eq_comm]

end Visit

namespace Indexer

variable {x : Indexer} {db : Database} {v : Visit}

/-! ## What is told -/

/-- The work on files adds to what was told before. -/
theorem processFiles_events (x : Indexer) (tree : FileTree) (project : String) (c : Choice)
    (s : Progress) : s.events <+: (x.processFiles tree project c s).events := by
  rw [processFiles]
  generalize c.files.zipIdx = items
  induction items generalizing s with
  | nil => exact List.prefix_rfl
  | cons item rest ih =>
      have hitem : s.events
          <+: (x.processFile tree project c.language c.files.length s item).events :=
        List.prefix_append _ _
      exact hitem.trans (ih _)

/-- What a run of a directory tells first. -/
theorem runIn_events (h : db.Sound) (x : Indexer) (tree : FileTree) (path project : String)
    (origin : Option Origin) :
    [.info ("Discovering files in " ++ path), .progress 0,
        (x.choice tree path project origin db).1]
      <+: (x.runIn tree path project origin db).1.events := by
  obtain ⟨c, hchoice⟩ := choice_sound h x tree path project origin
  have hworked := processFiles_events x tree project c (x.start tree path project origin c db)
  have hstart : [.info ("Discovering files in " ++ path), .progress 0,
      (x.choice tree path project origin db).1]
        <+: (x.start tree path project origin c db).events := List.prefix_append _ _
  rw [choice] at hchoice
  simp only [runIn, register_ok h.opens (h.has .projects), hchoice]
  split
  · exact (hstart.trans hworked).trans (List.prefix_append _ _)
  · exact ((hstart.trans hworked).trans (List.prefix_append _ _)).trans (List.prefix_append _ _)

theorem choice_fst (x : Indexer) (tree : FileTree) (path project : String)
    (origin : Option Origin) (db : Database) :
    (x.choice tree path project origin db).1
      = if (baseline? origin (lastCommit? project db)).isNone then .fullScan else .changedScan := by
  rw [choice, choose]
  split
  next hbase => rw [hbase]; rfl
  next hbase => rw [hbase]; rfl

/-- How a run tells to choose its files: the third thing it tells. -/
def scanMode? (x : Indexer) (v : Visit) (db : Database) : Option Event :=
  (x.run v.workspace v.path v.project db).1.events[2]?

theorem scanMode?_eq (hdb : db.Sound) (hdir : v.IsDirectory) :
    x.scanMode? v db = some (if (baseline? (v.workspace.origin? (.parse v.path))
      (lastCommit? v.project db)).isNone then .fullScan else .changedScan) := by
  obtain ⟨t, hfind, ht⟩ := hdir
  obtain ⟨later, hlater⟩ := runIn_events hdb x v.workspace.tree v.path v.project
    (v.workspace.origin? (.parse v.path))
  rw [scanMode?, run_of_isDir hfind ht, ← hlater, choice_fst]
  rfl

/-- A run of a directory tells whether it scans everything. -/
theorem scanMode?_eq_fullScan_iff (hdb : db.Sound) (hdir : v.IsDirectory) :
    x.scanMode? v db = some .fullScan ↔ v.IsFull db := by
  rw [scanMode?_eq hdb hdir, Visit.IsFull, ← Option.isNone_iff_eq_none]
  split
  next h => exact iff_of_true rfl h
  next h => exact iff_of_false (by decide) h

theorem scanMode?_eq_changedScan_iff (hdb : db.Sound) (hdir : v.IsDirectory) :
    x.scanMode? v db = some .changedScan ↔ ¬v.IsFull db := by
  rw [scanMode?_eq hdb hdir, Visit.IsFull, ← Option.isNone_iff_eq_none]
  split
  next h => exact iff_of_false (by decide) (not_not_intro h)
  next h => exact iff_of_true rfl h

end Indexer

namespace Tool

variable {db : Database}

/-- To ask for a full scan notes a scan without a commit or a branch. -/
theorem forceFullScan_database (h : db.Sound) (project : String) :
    (forceFullScan db project).database
      = some (db.withStore (db.store.noteScan project none none)) := by
  rw [forceFullScan, Database.noteScan, Database.connect_ok h.opens,
    Database.need_ok (h.has .projects)]
  rfl

theorem sound_forced (h : db.Sound) (project : String) :
    (db.withStore (db.store.noteScan project none none)).Sound := h.mono (.withStore rfl)

/-- The commit that is known stays. -/
theorem lastCommit?_forced (db : Database) (project : String) :
    Indexer.lastCommit? project (db.withStore (db.store.noteScan project none none))
      = Indexer.lastCommit? project db := by
  rw [Indexer.lastCommit?, Indexer.lastCommit?, Database.withStore, Store.project?_noteScan]
  cases db.store.project? project with
  | none => rfl
  | some r => rfl

end Tool

/-! ## A repository without commits -/

/-- A directory that was made a repository, in which a file is staged and nothing was committed. -/
def Workspace.unborn : Workspace :=
  ((({} : Workspace).startRepository "app" "main" false).write "app/a.toml"
    "[first]\n".toUTF8).stage "app" ["."]

theorem Visit.isDirectory_unborn (project : String) :
    (Visit.mk .unborn "app" project).IsDirectory := by
  have hdir : (Workspace.unborn.tree.find? (.parse "app")).any (·.isDir) = true := by
    decide +kernel
  exact (Option.any_eq_true _ _).mp hdir

/-- The repository has no commit, and no file that is not staged as it is. -/
theorem Workspace.unborn_repository :
    ∃ r, Workspace.unborn.repository? (.parse "app") = some r ∧ r.headCommit? = none ∧
      (r.sources (Workspace.unborn.subtree (.parse "app")) none).untracked = some [] ∧
      (r.sources (Workspace.unborn.subtree (.parse "app")) none).modifiedPaths = [] := by
  have hrepository : (Workspace.unborn.repository? (.parse "app")).any (fun r =>
      decide (r.headCommit?.isNone ∧
        (r.sources (Workspace.unborn.subtree (.parse "app")) none).untracked = some [] ∧
        (r.sources (Workspace.unborn.subtree (.parse "app")) none).modifiedPaths = [])) = true := by
    decide +kernel
  obtain ⟨r, hr, h⟩ := (Option.any_eq_true _ _).mp hrepository
  rw [decide_eq_true_iff, Option.isNone_iff_eq_none] at h
  exact ⟨r, hr, h⟩

/-- Where nothing was committed, every commit that is known is another one. -/
theorem Visit.isFull_unborn (project : String) (db : Database) :
    (Visit.mk .unborn "app" project).IsFull db ↔
      Indexer.lastCommit? project db = none ∨ Indexer.lastCommit? project db = some "" := by
  obtain ⟨r, hr, hnone, -⟩ := Workspace.unborn_repository
  have hhead : (Visit.mk .unborn "app" project).head? = none := by
    rw [Visit.head?, hr, Option.bind_some, hnone]
    rfl
  rw [Visit.isFull_iff, hhead, hr]
  constructor
  · rintro (h | h | h | h)
    · exact absurd h (by simp)
    · exact .inl h
    · exact .inr h
    · exact .inl h
  · rintro (h | h)
    · exact .inr (.inl h)
    · exact .inr (.inr (.inl h))

/-! ## The request for a full scan -/

namespace Tool

/-- The request for a full scan has no effect. It succeeds whatever was done before, but each run
after it tells what it would have told without it. All of them scan everything only if no commit was
known in the first place: otherwise those that find another commit checked out scan for changes. -/
theorem forceFullScan_effect_iff (actions : List Action) (project : String) (a : Analyzer)
    (model : Option Model) :
    let x := Indexer.ofAnalyzer a model
    let db := Database.reached actions
    let known := Indexer.lastCommit? project db
    ∃ forced, (forceFullScan db project).database = some forced ∧
      (∀ v : Visit, v.project = project → v.IsDirectory →
        x.scanMode? v forced = x.scanMode? v db ∧
        (x.scanMode? v forced = some .fullScan ↔
          v.workspace.repository? (.parse v.path) = none ∨ known = none ∨ known = some "" ∨
            known = v.head?) ∧
        (x.scanMode? v forced ≠ some .fullScan → x.scanMode? v forced = some .changedScan)) ∧
      ((∀ v : Visit, v.project = project → v.IsDirectory →
          x.scanMode? v forced = some .fullScan) ↔ known = none ∨ known = some "") := by
  intro x db known
  have hdb : db.Sound := (Database.regular_reached actions).sound
  have hforced := sound_forced hdb project
  have hknown := lastCommit?_forced db project
  refine ⟨_, forceFullScan_database hdb project, ?_, ?_⟩
  · rintro v rfl hdir
    have hfull := Indexer.scanMode?_eq_fullScan_iff (x := x) hforced hdir
    refine ⟨?_, ?_, ?_⟩
    · rw [Indexer.scanMode?_eq hforced hdir, Indexer.scanMode?_eq hdb hdir, hknown]
    · rw [hfull, Visit.isFull_iff, hknown]
    · intro hne
      exact (Indexer.scanMode?_eq_changedScan_iff hforced hdir).mpr (fun h => hne (hfull.mpr h))
  · constructor
    · -- one place decides: where nothing is committed, a known commit is never the current one
      intro hall
      have hmode := hall ⟨.unborn, "app", project⟩ rfl (Visit.isDirectory_unborn project)
      rw [Indexer.scanMode?_eq_fullScan_iff hforced (Visit.isDirectory_unborn project),
        Visit.isFull_unborn, hknown] at hmode
      exact hmode
    · rintro hnone v rfl hdir
      rw [Indexer.scanMode?_eq_fullScan_iff hforced hdir, Visit.isFull_iff, hknown]
      exact .inr (hnone.imp_right .inl)

end Tool

namespace Database

theorem reached_index (a : Analyzer) (model : Option Model) (w : Workspace)
    (path project : String) :
    reached [.index a model ⟨w, path, project⟩]
      = ((Indexer.ofAnalyzer a model).run w path project {}).1.db := rfl

/-- Settings are indexed at their first commit. -/
def settingsIndexed : List Action := [.index Indexer.settings none ⟨Indexer.atFour, "app", "p"⟩]

/-- At the later commit, what changed since the first one is scanned. -/
theorem settingsIndexed_baseline :
    Indexer.baseline? (Indexer.atEdited.origin? (.parse "app"))
        (Indexer.lastCommit? "p" (reached settingsIndexed))
      = some ({ commit := some Indexer.edited.id
                branch := (Indexer.repositoryOf [Indexer.fourFiles, Indexer.edited]
                  Indexer.edited).currentBranch?
                changedSince := fun since =>
                  ((Indexer.repositoryOf [Indexer.fourFiles, Indexer.edited]
                    Indexer.edited).sources (Indexer.treeOf Indexer.edited "n.toml" "[after]\n")
                      (some since)).allChangedFiles (.parse "app") }, Indexer.fourFiles.id) := by
  rw [settingsIndexed, reached_index]
  exact Indexer.atFour_checkedOut.baseline (Indexer.ofAnalyzer_lawful Indexer.settings none) "p"
    sound_empty Indexer.atEdited_checkedOut (by decide) (by decide)

/-- A full scan is asked for between the two commits, and the next run still scans for changes. -/
theorem forceFullScan_without_effect :
    let x := Indexer.ofAnalyzer Indexer.settings none
    (Tool.forceFullScan (reached settingsIndexed) "p").database.bind
        (x.scanMode? ⟨Indexer.atEdited, "app", "p"⟩) = some .changedScan := by
  have hdb := (regular_reached settingsIndexed).sound
  have hdir : (Visit.mk Indexer.atEdited "app" "p").IsDirectory :=
    ⟨_, Indexer.atEdited_checkedOut.found, Indexer.atEdited_checkedOut.isDir⟩
  dsimp only
  rw [Tool.forceFullScan_database hdb, Option.bind_some,
    Indexer.scanMode?_eq (Tool.sound_forced hdb "p") hdir, Tool.lastCommit?_forced,
    settingsIndexed_baseline]
  rfl

end Database

end SymbolAtlas
