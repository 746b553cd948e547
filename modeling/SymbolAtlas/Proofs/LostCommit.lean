/-
  SymbolAtlas.Proofs.LostCommit: a scan for changes since a commit that is gone.

  When the commit of the last scan is not in the repository any more, commits cannot be compared,
  and the run goes on with what the other sources tell (`changedSince_of_lost`): files that are not
  staged, and files whose staged content is not the one on disk or in the current commit. A file
  that was committed as it stands is in none of them, so that it is not worked on even when its
  content was never stored (`lostCommit_reaches_pending_iff`).
-/

import SymbolAtlas.Proofs.Chosen

namespace SymbolAtlas

/-- Since a commit that is gone, the paths have changed that are not settled. -/
theorem Repository.changedSince_of_lost {r : Repository} {tree : FileTree} {since path : String}
    (hlost : r.resolve? since = none) :
    r.ChangedSince tree since path ↔ isDamaged tree = false ∧ r.Unsettled tree path := by
  simp [ChangedSince, hlost]

/-- The situation of a run for a directory with a repository, which finds another commit than the
last one and does not have the last one any more. -/
structure Visit.LostCommit (v : Visit) (db : Database) (t : FileTree) (r : Repository)
    (last : String) : Prop where
  found : v.workspace.tree.find? (.parse v.path) = some t
  isDir : t.isDir = true
  repository : v.workspace.repository? (.parse v.path) = some r
  recorded : Indexer.lastCommit? v.project db = some last
  ne_empty : last ≠ ""
  lost : r.resolve? last = none
  moved : v.head? ≠ some last

namespace Indexer

/-- When the last commit is gone, a run scans for changes all the same. It works on the files that
are not settled in the current commit, and the rows of all others stay. So it works on everything
that a full scan would have worked on, if and only if all of that is not settled. -/
theorem lostCommit_reaches_pending_iff (a : Analyzer) (model : Option Model) {v : Visit}
    {db : Database} (hdb : db.Sound) (hwell : v.workspace.tree.wellFormed = true) {t : FileTree}
    {r : Repository} {last : String} (h : v.LostCommit db t r last) :
    let x := ofAnalyzer a model
    let told := fun file => Repository.isDamaged t = false ∧
      ∃ path, r.Unsettled t path ∧ file = ChangeSources.place (.parse v.path) path
    x.scanMode? v db = some .changedScan ∧
      (∀ file, file ∈ x.workPaths v db ↔
        told file ∧ (v.read? file).isSome = true ∧ (x.languageOf? file).isSome = true) ∧
      (∀ file, ¬told file →
        (x.visit db v).store.rowsOf v.project file = db.store.rowsOf v.project file) ∧
      ((∀ file, x.Pending v db file → file ∈ x.workPaths v db) ↔
        ∀ file, x.Pending v db file → told file) := by
  intro x told
  have hmode : ¬v.IsFull db := by
    rw [Visit.isFull_iff, h.repository, h.recorded]
    simp [h.ne_empty, h.moved.symm]
  have hstarts : v.Starts db := ⟨⟨t, h.found, h.isDir⟩, hdb.opens, hdb.has .projects⟩
  -- the commits tell nothing, as the recorded one is not in the repository
  have hchanged : ∀ file, v.Changed db file ↔ told file := by
    intro file
    have hsubtree : v.workspace.subtree (.parse v.path) = t := by
      rw [Workspace.subtree, h.found, Option.getD_some]
    rw [Visit.Changed, h.repository, h.recorded, hsubtree]
    constructor
    · rintro ⟨r', last', path, hr, hl, hpath, hfile⟩
      obtain ⟨rfl, rfl⟩ := And.intro (Option.some.inj hr) (Option.some.inj hl)
      obtain ⟨hintact, hpath⟩ := (Repository.changedSince_of_lost h.lost).mp hpath
      exact ⟨hintact, path, hpath, hfile⟩
    · rintro ⟨hintact, path, hpath, hfile⟩
      exact ⟨r, last, path, rfl, rfl,
        (Repository.changedSince_of_lost h.lost).mpr ⟨hintact, hpath⟩, hfile⟩
  have hworks : ∀ file, file ∈ x.workPaths v db ↔
      told file ∧ (v.read? file).isSome = true ∧ (x.languageOf? file).isSome = true := by
    intro file
    rw [mem_workPaths_changed hmode, hchanged]
    exact and_iff_right hstarts
  refine ⟨(scanMode?_eq_changedScan_iff hdb hstarts.isDirectory).mpr hmode, hworks, ?_, ?_⟩
  · intro file hnot
    rw [visit]
    refine run_rows (ofAnalyzer_lawful a model) v.project fun c hchoice hmem => hnot ?_
    exact ((hworks file).mp (mem_workPaths.mpr ⟨hstarts, c, hchoice, hmem⟩)).1
  · constructor
    · intro hall file hpending
      exact ((hworks file).mp (hall file hpending)).1
    · intro hall file hpending
      have htold := hall file hpending
      obtain ⟨q, b, hlooked, rfl, hlanguage, -⟩ := hpending
      have hread : v.read? q.toString = some b := (lookedAt_spec hwell hlooked).2
      exact (hworks _).mpr ⟨htold, by rw [hread]; rfl, hlanguage⟩

/-- A file with a table, and a list of what is ignored. -/
def oneTable : Commit := commitOf "1" none [(".gitignore", "n.toml\n"), ("a.toml", "[old]\n")]

/-- The same files in a commit of another history. -/
def rewritten : Commit := { oneTable with id := "2" }

/-- The other history with the file edited. -/
def rewrittenEdited : Commit :=
  commitOf "2" none [(".gitignore", "n.toml\n"), ("a.toml", "[new]\n")]

/-- The first commit is checked out, with a file that is ignored. -/
def atOneTable : Workspace := workspaceOf [oneTable] oneTable "n.toml" "[kept]\n"

/-- The other history is checked out, with a file that was never staged. -/
def atRewritten : Workspace := workspaceOf [rewritten] rewritten "e.toml" "[more]\n"

/-- The other history is checked out with the file edited. -/
def atRewrittenEdited : Workspace :=
  workspaceOf [rewrittenEdited] rewrittenEdited "n.toml" "[kept]\n"

theorem atOneTable_checkedOut :
    CheckedOut atOneTable "app" (treeOf oneTable "n.toml" "[kept]\n")
      (repositoryOf [oneTable] oneTable) oneTable :=
  workspaceOf_checkedOut (by decide) rfl (by decide)

theorem atRewritten_checkedOut :
    CheckedOut atRewritten "app" (treeOf rewritten "e.toml" "[more]\n")
      (repositoryOf [rewritten] rewritten) rewritten :=
  workspaceOf_checkedOut (by decide) rfl (by decide)

theorem atRewrittenEdited_checkedOut :
    CheckedOut atRewrittenEdited "app" (treeOf rewrittenEdited "n.toml" "[kept]\n")
      (repositoryOf [rewrittenEdited] rewrittenEdited) rewrittenEdited :=
  workspaceOf_checkedOut (by decide) rfl (by decide)

/-- What is left for a scan in the other history. -/
theorem rewritten_comparisons :
    let first := ((ofAnalyzer settings none).run atOneTable "app" "p" {}).1.db
    comparisons ⟨atRewritten, "app", "p"⟩ first = [("app/e.toml", false), ("app/a.toml", true)] ∧
      comparisons ⟨atRewrittenEdited, "app", "p"⟩ first
        = [("app/n.toml", true), ("app/a.toml", false)] := by
  decide +kernel

/-- The table is stored as it is, and the only file that is left was never staged. -/
theorem lostCommit_reaches_pending_iff_new :
    let x := ofAnalyzer settings none
    let v : Visit := ⟨atRewritten, "app", "p"⟩
    let first := (x.run atOneTable "app" "p" {}).1.db
    x.Pending v first "app/e.toml" ∧
      ∀ file, x.Pending v first file → file ∈ x.workPaths v first := by
  have hx := ofAnalyzer_lawful settings none
  have hdb := Database.sound_empty.mono (run_sameFaults hx atOneTable "app" "p" {})
  obtain ⟨-, hlast, -, -⟩ := atOneTable_checkedOut.scans_changes hx "p" Database.sound_empty
    atRewritten_checkedOut (by decide) (by decide)
  have hgone : (⟨atRewritten, "app", "p"⟩ : Visit).LostCommit _ _ _ oneTable.id :=
    ⟨atRewritten_checkedOut.found, atRewritten_checkedOut.isDir,
      atRewritten_checkedOut.repository, hlast, by decide, by decide, by decide⟩
  obtain ⟨-, -, -, hall⟩ := lostCommit_reaches_pending_iff settings none hdb (by decide) hgone
  have hfiles := rewritten_comparisons.1
  refine ⟨pending_iff.mpr ⟨?_, by decide⟩, hall.mpr fun file hpending => ?_⟩
  · rw [hfiles]
    exact List.mem_cons_self
  · have hmem := (pending_iff.mp hpending).1
    rw [hfiles] at hmem
    obtain rfl : file = "app/e.toml" := by simpa using hmem
    exact ⟨by decide, "e.toml", .untracked (by decide +kernel) (by decide), by decide⟩

/-- The commit of the last scan is gone and the file has changed: it is left for a scan, and the run
does not work on it. -/
theorem lostCommit_misses_pending :
    let x := ofAnalyzer settings none
    let v : Visit := ⟨atRewrittenEdited, "app", "p"⟩
    let first := (x.run atOneTable "app" "p" {}).1.db
    lastCommit? "p" first = some oneTable.id ∧
      (repositoryOf [rewrittenEdited] rewrittenEdited).resolve? oneTable.id = none ∧
      v.head? = some rewrittenEdited.id ∧ x.Pending v first "app/a.toml" ∧
      "app/a.toml" ∉ x.workPaths v first := by
  obtain ⟨-, hlast, hmode, hchanged⟩ := atOneTable_checkedOut.scans_changes
    (ofAnalyzer_lawful settings none) "p" Database.sound_empty atRewrittenEdited_checkedOut
    (by decide) (by decide)
  refine ⟨hlast, by decide, by decide, ?_, ?_⟩
  · refine pending_iff.mpr ⟨?_, by decide⟩
    rw [rewritten_comparisons.2]
    exact List.mem_cons_of_mem _ List.mem_cons_self
  · intro hmem
    obtain ⟨-, hfile, -⟩ := (mem_workPaths_changed hmode).mp hmem
    obtain ⟨path, hpath, -⟩ := (hchanged _).mp hfile
    -- everything is committed as it stands on disk
    have hnone : ((repositoryOf [rewrittenEdited] rewrittenEdited).sources
        (treeOf rewrittenEdited "n.toml" "[kept]\n") (some oneTable.id)).paths = [] := by
      decide +kernel
    rw [hnone] at hpath
    exact absurd hpath List.not_mem_nil

end Indexer

end SymbolAtlas
