/-
  SymbolAtlas.Proofs.Rescan: indexing a directory a second time.

  Of the files that a first full scan has worked on, some are chosen again: those of which nothing
  could be stored, so that there is no digest to compare with, and those whose symbols could not be
  removed. The work on them changes nothing (`idles_after_run`), and every other file is passed
  over. So a second run changes no table but the one of projects, whatever was stored before the
  first, unless the first has made the table of embeddings again on its way.
-/

import SymbolAtlas.Proofs.Reordering

namespace SymbolAtlas

open SymbolData

namespace Indexer

variable {x : Indexer} {w : Workspace} {path project : String} {db : Database}

/-! ## Other projects -/

/-- The rows of all projects but one. -/
def otherProjects (project : String) (db : Database) : List ProjectRow :=
  db.store.projects.filter fun r => r.project != project

theorem otherProjects_registered (root : Path) (project : String) (origin : Option Origin)
    (db : Database) :
    otherProjects project (registered root project origin db) = otherProjects project db := by
  have hrows : (registered root project origin db).store.projects
      = (db.store.projects.filter fun r => !(r.project == project)) ++
          [{ projectData root project origin with
            id := Store.nextId (db.store.projects.map (·.id)), created := db.store.clock }] := rfl
  rw [otherProjects, hrows, List.filter_append, List.filter_filter]
  have hnew : (projectData root project origin).project = project := rfl
  simp [otherProjects, hnew, bne]

/-- A run that is of no repository leaves the rows of other projects as they are. -/
theorem otherProjects_run (hx : x.Lawful) (hrepository : w.repository? (.parse path) = none)
    (db : Database) :
    otherProjects project (x.run w path project db).1.db = otherProjects project db := by
  have horigin : w.origin? (.parse path) = none := by
    rw [Workspace.origin?, hrepository]
    rfl
  rcases run_cases x w path project db with ⟨hdb, -⟩ | hrun
  · rw [hdb]
  · rw [hrun, horigin]
    by_cases hfault : db.broken = true ∨ Table.projects ∈ db.dropped
    · obtain ⟨e, he⟩ := register_error hfault (.parse path) project none
      rw [runIn_refused he]
      rfl
    · obtain ⟨hbroken, hprojects⟩ := not_or.mp hfault
      have hopens : db.broken = false := by simpa using hbroken
      cases hchoice : (x.choice w.tree path project none db).2 with
      | error e =>
          rw [(runIn_unscanned hopens hprojects hchoice).1, otherProjects_registered]
      | ok c =>
          have hkept := (indexFiles_sameFaults hx w.tree project c.language c.files
            (registered (.parse path) project none db)).2
          rw [runIn_worked hopens hprojects hchoice, ← otherProjects_registered (.parse path)
            project none db, worked_db]
          exact congrArg (List.filter fun r : ProjectRow => r.project != project) hkept

/-! ## The files that are chosen again -/

/-- A file whose content is not stored after a run has no symbols, and none of those that are found
in it are admitted, or else the symbols that it has cannot be removed. -/
theorem idles_after_run (h : x.Steady db) (hwell : w.tree.wellFormed = true)
    (hrepository : w.repository? (.parse path) = none) (hopens : db.broken = false)
    (hsymbols : Table.symbols ∉ db.dropped) (hprojects : Table.projects ∉ db.dropped)
    {first : Database} (hfirst : (x.run w path project db).1.db = first) {q : Path} {b : ByteArray}
    (hlooked : (q, b) ∈ lookedAt w.tree (.parse path))
    (hlanguage : (x.languageOf? q.toString).isSome = true)
    (hold : first.store.isCurrent q.toString (Digest.sha256 b) project = false) :
    x.Idles project first q.toString (some b) := by
  have hfull : baseline? (w.origin? (.parse path)) (lastCommit? project db) = none := by
    rw [Workspace.origin?, hrepository]
    rfl
  have hadmits : first.admits = db.admits :=
    Database.SameFaults.admits (hfirst ▸ run_sameFaults h.lawful w path project db)
  obtain ⟨⟨t, hfind, hdir⟩, hread⟩ := lookedAt_spec hwell hlooked
  obtain ⟨c, projects, hscan, hrun⟩ :=
    fullScan_worked hopens hsymbols hprojects hfind hdir hfull
  have hsteady : x.Steady (registered (.parse path) project (w.origin? (.parse path)) db) :=
    ⟨h.lawful, h.embeddings⟩
  have hdata : first.store.dataOf project q.toString = _ :=
    (congrArg (·.store.dataOf project q.toString) (hfirst.symm.trans hrun)).trans
      (hsteady.indexFiles_dataOf c.files q.toString)
  -- a symbol that carries the digest would make the file current
  have hnone : ∀ d ∈ first.store.dataOf project q.toString, d.digest ≠ Digest.sha256 b := by
    intro d hd hdigest
    have hcurrent := Store.isCurrent_iff.mpr ⟨d, hd, hdigest⟩
    exact absurd (hcurrent.symm.trans hold) (by decide)
  by_cases hchosen : q.toString ∈ c.files
  · cases hclears : (registered (.parse path) project (w.origin? (.parse path)) db).clears project
        q.toString with
    | false =>
        refine .inl ?_
        rw [← hfirst, hrun]
        exact (hsteady.indexFiles_not_clears hclears c.files).2
    | true =>
        rw [if_pos ⟨hchosen, hclears⟩, hread] at hdata
        have hempty : (x.storable project q.toString (some b)).filter db.admits = [] := by
          refine Classical.byContradiction fun hsome => ?_
          obtain ⟨d, hd⟩ := List.exists_mem_of_ne_nil _ (mt lastPerKey_eq_nil.mp hsome)
          exact hnone d (hdata ▸ hd) (storable_digest (List.mem_filter.mp (lastPerKey_subset hd)).1)
        refine .inr ⟨Store.dataOf_eq_nil.mp ?_, hadmits ▸ hempty⟩
        rw [hdata]
        exact lastPerKey_eq_nil.mpr hempty
  · -- a file that was passed over has its digest stored still
    obtain ⟨d, hd, hdigest⟩ := Store.isCurrent_iff.mp
      (isCurrent_of_not_mem_scanAll hopens hsymbols hscan hlooked hlanguage hchosen)
    rw [if_neg fun hboth => hchosen hboth.1] at hdata
    exact absurd hdigest (hnone d (hdata ▸ hd))

/-! ## The second run -/

/-- After a run, the work on the files that a second run chooses changes nothing. -/
theorem worked_after_run (h : x.Steady db) (hwell : w.tree.wellFormed = true)
    (hrepository : w.repository? (.parse path) = none) (hopens : db.broken = false)
    (hprojects : Table.projects ∉ db.dropped) {first : Database}
    (hfirst : (x.run w path project db).1.db = first) {c : Choice}
    (hchoice : (x.choice w.tree path project none first).2 = .ok c) :
    (x.worked w.tree path project none c first).db
        = registered (.parse path) project none first ∧
      (x.worked w.tree path project none c first).added = 0 := by
  have hfaults : db.SameFaults first := hfirst ▸ run_sameFaults h.lawful w path project db
  have hidles : ∀ file ∈ c.files, x.Idles project
      (x.start w.tree path project none c first).db file (w.tree.read? (.parse file)) := by
    intro file hchosen
    obtain ⟨q, b, hlooked, rfl, hlanguage, hneeds⟩ := (mem_scanAll hchoice).mp hchosen
    obtain ⟨-, hsymbols, hold⟩ := Database.needsUpdate_eq_true.mp hneeds
    rw [(lookedAt_spec hwell hlooked).2]
    exact idles_after_run h hwell hrepository hopens
      (fun hd => hsymbols ((hfaults.dropped .symbols (by decide)).mpr hd)) hprojects hfirst hlooked
      hlanguage hold
  obtain ⟨hsame, hadded⟩ := processFiles_idle h.lawful hidles
  exact ⟨hsame.trans (start_db c), hadded.trans (start_added c)⟩

/-- A second run changes at most the projects and adds no symbols. -/
theorem run_again (h : x.Steady db) (hwell : w.tree.wellFormed = true)
    (hrepository : w.repository? (.parse path) = none) {first : Database}
    (hfirst : (x.run w path project db).1.db = first) :
    (∃ projects, (x.run w path project first).1.db = first.withProjects projects) ∧
      (x.run w path project first).2.added = 0 := by
  have hfaults : db.SameFaults first := hfirst ▸ run_sameFaults h.lawful w path project db
  rcases run_cases x w path project first with ⟨hnone, hadded⟩ | hrun
  · exact ⟨⟨first.store.projects, hnone.trans first.withProjects_self.symm⟩, hadded⟩
  · rw [Workspace.origin?, hrepository, Option.map_none] at hrun
    rw [hrun]
    rcases runIn_cases x w.tree path project none first with
      ⟨projects, hnone, hadded⟩ | ⟨hopens, hprojects, c, projects, hchoice, hworked, hadded⟩
    · exact ⟨⟨projects, hnone⟩, hadded⟩
    · obtain ⟨hidle, hzero⟩ := worked_after_run h hwell hrepository
        (hfaults.broken.symm.trans hopens)
        (fun hd => hprojects ((hfaults.dropped .projects (by decide)).mpr hd)) hfirst hchoice
      rw [hidle, registered, Database.withProjects_withProjects] at hworked
      rw [hzero, or_self] at hadded
      exact ⟨⟨projects, hworked⟩, hadded⟩

/-- Indexing a directory that is no repository a second time changes nothing but the row of the
project, whatever was stored before and whatever fails, and no symbols are added. Only the table of
embeddings has to be there, or no model: a table that was dropped is made again in the middle of a
run, by the first embedding. -/
theorem run_again_changes_nothing (a : Analyzer) (model : Option Model) (w : Workspace)
    (path project : String) (db : Database) (hwell : w.tree.wellFormed = true)
    (hrepository : w.repository? (.parse path) = none)
    (hdb : Table.embeddings ∉ db.dropped ∨ model = none) :
    let x := ofAnalyzer a model
    let first := (x.run w path project db).1.db
    let second := x.run w path project first
    second.1.db.store.symbols = first.store.symbols ∧
      second.1.db.store.relations = first.store.relations ∧
      second.1.db.store.embeddings = first.store.embeddings ∧
      otherProjects project second.1.db = otherProjects project first ∧
      second.2.added = 0 := by
  have hsteady : (ofAnalyzer a model).Steady db := ⟨ofAnalyzer_lawful a model, hdb⟩
  dsimp only
  generalize hfirst : ((ofAnalyzer a model).run w path project db).1.db = first
  obtain ⟨⟨projects, hsecond⟩, hadded⟩ := run_again hsteady hwell hrepository hfirst
  have hothers : otherProjects project ((ofAnalyzer a model).run w path project first).1.db
      = otherProjects project first := otherProjects_run hsteady.lawful hrepository first
  refine ⟨?_, ?_, ?_, hothers, hadded⟩
  all_goals
    rw [hsecond]
    rfl

/-- A file whose only symbol is rejected is worked on again by the second run, and one whose symbol
is stored is passed over. -/
theorem run_again_changes_nothing_rejected :
    let x := ofAnalyzer settings none
    let v := twoFiles "[stored]\n" "[rejected]\n"
    let first := (x.run v.workspace "." "p" { rejections := [.symbolNamed "rejected"] }).1.db
    let second := x.run v.workspace "." "p" first
    first.store.symbols.map (·.name) = ["stored"] ∧
      second.1.db.store.symbols = first.store.symbols ∧ second.2.added = 0 := by
  intro x v first second
  have hagain := run_again_changes_nothing settings none v.workspace "." "p"
    { rejections := [.symbolNamed "rejected"] } (by decide) (by rfl) (.inl (by decide))
  exact ⟨by decide +kernel, hagain.1, hagain.2.2.2.2⟩

/-- Without the table of embeddings the first run cannot remove the old symbol of an edited file.
It makes the table again for the symbol of a new file, and so the second run replaces the old
symbol. -/
theorem run_again_replaces_symbol :
    let x := ofAnalyzer settings (some constantModel)
    let v := twoFiles "[new]\n" "[other]\n"
    let db := (x.history [twoFiles "[old]\n" ""]).without .embeddings
    let first := (x.run v.workspace "." "p" db).1.db
    let second := x.run v.workspace "." "p" first
    v.workspace.repository? (.parse ".") = none ∧
      first.store.symbols.map (·.name) = ["old", "other"] ∧
      second.1.db.store.symbols.map (·.name) = ["other", "new"] ∧ second.2.added = 1 := by
  decide +kernel

end Indexer

end SymbolAtlas
