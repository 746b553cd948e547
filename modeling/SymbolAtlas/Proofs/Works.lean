/-
  SymbolAtlas.Proofs.Works: a run as works on single files.

  A run that comes to its files works on one after another, each time with what is stored by then
  (`works`). All else that a run does concerns projects at most (`visit_eq`), so that what each work
  keeps holds at every work and after the run (`visit_induction`). All works of a run decide on
  relations by one language, that of the last file which the run looked at before the first of them.
-/

import SymbolAtlas.Proofs.History

namespace SymbolAtlas

/-- The work on a file: what is known of the file, and the database that the work begins with. -/
structure Work where
  project : String
  /-- the language that decides whether relations are stored -/
  language : Option String
  path : String
  file : Option ByteArray
  before : Database

namespace Visit

/-- The files that are looked at, in order: those that changed and are there, or else all that are
shown. -/
def looksAt (v : Visit) (db : Database) : List String :=
  match Indexer.baseline? (v.workspace.origin? (.parse v.path))
      (Indexer.lastCommit? v.project db) with
  | some (o, last) =>
    (o.changedSince last).filter fun file => (v.workspace.tree.read? (.parse file)).isSome
  | none => (Indexer.lookedAt v.workspace.tree (.parse v.path)).map fun f => f.1.toString

/-- A working directory of text files, indexed as a project. -/
def ofFiles (files : List (String × String)) : Visit where
  workspace := { tree := .dir (files.map fun file => (file.1, .file file.2.toUTF8)) }
  path := "."
  project := "p"

end Visit

namespace Indexer

variable {x : Indexer} {tree : FileTree} {project : String} {language : Option String}
  {files : List String} {db : Database} {v : Visit}

/-- The outcome of a work. -/
def outcome (x : Indexer) (w : Work) : FileOutcome :=
  x.indexFile w.project w.language w.path w.file w.before

/-- The works on files, one after another. -/
def worksOn (x : Indexer) (tree : FileTree) (project : String) (language : Option String) :
    List String → Database → List Work
  | [], _ => []
  | path :: rest, db =>
    let w : Work := ⟨project, language, path, tree.read? (.parse path), db⟩
    w :: x.worksOn tree project language rest (x.outcome w).db

/-- The works of a run, none if it ends before. -/
def works (x : Indexer) (v : Visit) (db : Database) : List Work :=
  let root := Path.parse v.path
  let origin := v.workspace.origin? root
  if (v.workspace.tree.find? root).any FileTree.isDir then
    match register root v.project origin db with
    | .error _ => []
    | .ok (db, lastCommit, _) =>
      match (x.choose v.workspace.tree root v.project origin lastCommit db).2 with
      | .error _ => []
      | .ok c => x.worksOn v.workspace.tree v.project c.language c.files db
  else []

/-- The language that the works of a run have to decide on relations. -/
def lastLanguage (x : Indexer) (v : Visit) (db : Database) : Option String :=
  (v.looksAt db).getLast?.bind x.languageOf?

/-- The language that goes with the chosen files is that of the last file that is looked at. -/
theorem choice_lastLanguage {c : Choice}
    (h : (x.choice v.workspace.tree v.path v.project (v.workspace.origin? (.parse v.path)) db).2
      = .ok c) :
    c.language = x.lastLanguage v db := by
  rw [choice, choose] at h
  rw [lastLanguage, Visit.looksAt]
  cases hbase : baseline? (v.workspace.origin? (.parse v.path)) (lastCommit? v.project db) with
  | some found =>
      obtain ⟨o, last⟩ := found
      rw [hbase] at h
      obtain rfl := Except.ok.inj h
      rfl
  | none =>
      rw [hbase, scanAll_eq] at h
      -- the files are gathered with or without an error, and the language does not depend on them
      cases hfiles : (lookedAt v.workspace.tree (.parse v.path)).filterMapM (x.consider v.project
          (registered (.parse v.path) v.project (v.workspace.origin? (.parse v.path)) db)) with
      | error e =>
          rw [hfiles] at h
          exact absurd h (by simp [Except.map])
      | ok files =>
          rw [hfiles] at h
          obtain rfl := Except.ok.inj h
          dsimp only
          rw [List.getLast?_map, Option.bind_map]
          rfl

/-- A run works on the files that were chosen, after the entry of its project. -/
theorem works_of_choice (hopens : db.broken = false) (hprojects : Table.projects ∉ db.dropped)
    {t : FileTree} (hfind : v.workspace.tree.find? (.parse v.path) = some t)
    (hdir : t.isDir = true) {c : Choice}
    (hchoice : (x.choice v.workspace.tree v.path v.project
      (v.workspace.origin? (.parse v.path)) db).2 = .ok c) :
    x.works v db = x.worksOn v.workspace.tree v.project c.language c.files
      (registered (.parse v.path) v.project (v.workspace.origin? (.parse v.path)) db) := by
  have hregister := register_ok hopens hprojects (.parse v.path) v.project
    (v.workspace.origin? (.parse v.path))
  rw [choice] at hchoice
  simp only [works, hfind, Option.any_some, hdir, if_true, hregister, hchoice]

/-- A run ends before it works on files, or it works on the chosen ones between the entry of its
project and the note of the scan. -/
theorem works_cases (x : Indexer) (v : Visit) (db : Database) :
    (x.works v db = [] ∧ ∃ projects, x.visit db v = db.withProjects projects) ∨
      ∃ (c : Choice) (before after : List ProjectRow),
        x.works v db = x.worksOn v.workspace.tree v.project c.language c.files
          (db.withProjects before) ∧
        x.visit db v = (x.indexFiles v.workspace.tree v.project c.language c.files
          (db.withProjects before)).withProjects after ∧
        c.language = x.lastLanguage v db := by
  cases hfind : v.workspace.tree.find? (.parse v.path) with
  | none =>
      refine .inl ⟨by simp only [works, hfind]; rfl, db.store.projects, ?_⟩
      simp only [visit, run, hfind]
      rfl
  | some t =>
      cases hdir : t.isDir with
      | false =>
          refine .inl ⟨by simp [works, hfind, hdir], db.store.projects, ?_⟩
          simp [visit, run, hfind, hdir, Database.withProjects_self]
      | true =>
          have hrun : x.visit db v = (x.runIn v.workspace.tree v.path v.project
              (v.workspace.origin? (.parse v.path)) db).1.db := by
            rw [visit, run_of_isDir hfind hdir]
          by_cases hfault : db.broken = true ∨ Table.projects ∈ db.dropped
          · -- the project cannot be entered
            obtain ⟨e, he⟩ := register_error hfault (.parse v.path) v.project
              (v.workspace.origin? (.parse v.path))
            refine .inl ⟨by simp [works, hfind, hdir, he], db.store.projects, ?_⟩
            rw [hrun, runIn_refused he]
            rfl
          · obtain ⟨hbroken, hprojects⟩ := not_or.mp hfault
            have hopens : db.broken = false := by simpa using hbroken
            have hregister := register_ok hopens hprojects (.parse v.path) v.project
              (v.workspace.origin? (.parse v.path))
            cases hchoice : (x.choice v.workspace.tree v.path v.project
                (v.workspace.origin? (.parse v.path)) db).2 with
            | error e =>
                refine .inl ⟨?_, _, hrun.trans (runIn_unscanned hopens hprojects hchoice).1⟩
                rw [choice] at hchoice
                simp [works, hfind, hdir, hregister, hchoice]
            | ok c =>
                obtain ⟨after, hindexed⟩ := runIn_indexed hopens hprojects hchoice
                refine .inr ⟨c, (registered (.parse v.path) v.project
                  (v.workspace.origin? (.parse v.path)) db).store.projects, after, ?_, ?_,
                  choice_lastLanguage hchoice⟩
                · exact works_of_choice hopens hprojects hfind hdir hchoice
                · rw [hrun, hindexed]
                  rfl

/-- A run is its works, with other projects before and after them. -/
theorem visit_eq (x : Indexer) (v : Visit) (db : Database) :
    ∃ language files before after,
      x.works v db = x.worksOn v.workspace.tree v.project language files
        (db.withProjects before) ∧
      x.visit db v = (x.indexFiles v.workspace.tree v.project language files
        (db.withProjects before)).withProjects after ∧
      (files ≠ [] → language = x.lastLanguage v db) := by
  rcases works_cases x v db with
    ⟨hworks, projects, hvisit⟩ | ⟨c, before, after, hworks, hvisit, hlanguage⟩
  · -- a run that ends before is a run without files
    exact ⟨none, [], db.store.projects, projects, hworks, hvisit, fun h => absurd rfl h⟩
  · exact ⟨c.language, c.files, before, after, hworks, hvisit, fun _ => hlanguage⟩

/-! ## Induction over works -/

theorem worksOn_induction {P : Database → Prop} (h : P db)
    (hstep : ∀ w ∈ x.worksOn tree project language files db, P w.before → P (x.outcome w).db) :
    (∀ w ∈ x.worksOn tree project language files db, P w.before) ∧
      P (x.indexFiles tree project language files db) := by
  induction files generalizing db with
  | nil => exact ⟨fun w hw => absurd hw List.not_mem_nil, h⟩
  | cons path rest ih =>
      -- the other works begin with what the first one leaves
      have hfirst := hstep _ List.mem_cons_self h
      obtain ⟨hrest, hend⟩ := ih hfirst fun w hw => hstep w (List.mem_cons_of_mem _ hw)
      refine ⟨?_, hend⟩
      intro w hw
      rcases List.mem_cons.mp hw with rfl | hw
      · exact h
      · exact hrest w hw

/-- What the projects have nothing to do with, and what each work of a run keeps, holds at all its
works and after it. -/
theorem visit_induction {P : Database → Prop}
    (hprojects : ∀ db projects, P db → P (Database.withProjects db projects)) (h : P db)
    (hstep : ∀ w ∈ x.works v db, P w.before → P (x.outcome w).db) :
    (∀ w ∈ x.works v db, P w.before) ∧ P (x.visit db v) := by
  obtain ⟨language, files, before, after, hworks, hvisit, -⟩ := visit_eq x v db
  rw [hworks] at hstep ⊢
  obtain ⟨hbefore, hend⟩ := worksOn_induction (hprojects db before h) hstep
  exact ⟨hbefore, hvisit ▸ hprojects _ after hend⟩

theorem worksOn_from {P : Database → Prop} {w : Work}
    (hw : w ∈ x.worksOn tree project language files db) (h : P (x.outcome w).db)
    (hstep : ∀ w' ∈ x.worksOn tree project language files db,
      P w'.before → P (x.outcome w').db) :
    P (x.indexFiles tree project language files db) := by
  induction files generalizing db with
  | nil => exact absurd hw List.not_mem_nil
  | cons path rest ih =>
      have hrest := fun w' hw' => hstep w' (List.mem_cons_of_mem _ hw')
      -- from the work itself on the property is kept, and before it nothing is to be shown
      rcases List.mem_cons.mp hw with rfl | hw
      · exact (worksOn_induction h hrest).2
      · exact ih hw hrest

/-- What a work of a run leads to, and each work keeps, holds after the run. -/
theorem visit_from {P : Database → Prop}
    (hprojects : ∀ db projects, P db → P (Database.withProjects db projects)) {w : Work}
    (hw : w ∈ x.works v db) (h : P (x.outcome w).db)
    (hstep : ∀ w' ∈ x.works v db, P w'.before → P (x.outcome w').db) : P (x.visit db v) := by
  obtain ⟨language, files, before, after, hworks, hvisit, -⟩ := visit_eq x v db
  rw [hworks] at hw hstep
  exact hvisit ▸ hprojects _ after (worksOn_from hw h hstep)

theorem of_mem_worksOn {w : Work} (hw : w ∈ x.worksOn tree project language files db) :
    w.project = project ∧ w.language = language ∧ w.path ∈ files ∧
      w.file = tree.read? (.parse w.path) := by
  induction files generalizing db with
  | nil => exact absurd hw List.not_mem_nil
  | cons path rest ih =>
      rcases List.mem_cons.mp hw with rfl | hw
      · exact ⟨rfl, rfl, List.mem_cons_self, rfl⟩
      · obtain ⟨hproject, hlanguage, hpath, hfile⟩ := ih hw
        exact ⟨hproject, hlanguage, List.mem_cons_of_mem path hpath, hfile⟩

/-- What the work on any other file keeps is, for a file that comes once, before its work what it
was in the beginning and in the end what its work has left. -/
theorem worksOn_at {β : Type} {f : Database → β} (hnodup : files.Nodup) {w : Work}
    (hw : w ∈ x.worksOn tree project language files db)
    (hother : ∀ w' ∈ x.worksOn tree project language files db, w'.path ≠ w.path →
      f (x.outcome w').db = f w'.before) :
    f w.before = f db ∧
      f (x.indexFiles tree project language files db) = f (x.outcome w).db := by
  induction files generalizing db with
  | nil => exact absurd hw List.not_mem_nil
  | cons path rest ih =>
      obtain ⟨hfresh, hrest⟩ := List.nodup_cons.mp hnodup
      have hothers := fun w' hw' => hother w' (List.mem_cons_of_mem _ hw')
      rcases List.mem_cons.mp hw with rfl | hw
      · let first : Work := ⟨project, language, path, tree.read? (.parse path), db⟩
        refine ⟨rfl, (worksOn_induction (P := fun db => f db = f (x.outcome first).db) rfl
          fun w' hw' h => ?_).2⟩
        have hne : w'.path ≠ path := fun heq => hfresh (heq ▸ (of_mem_worksOn hw').2.2.1)
        exact (hothers w' hw' hne).trans h
      · obtain ⟨hbefore, hafter⟩ := ih hrest hw hothers
        have hne : path ≠ w.path := fun heq => hfresh (heq ▸ (of_mem_worksOn hw).2.2.1)
        exact ⟨hbefore.trans (hother _ List.mem_cons_self hne), hafter⟩

/-- The works of a run are for its project, read the files as they are, and decide by one
language. -/
theorem of_mem_works {w : Work} (hw : w ∈ x.works v db) :
    w.project = v.project ∧ w.language = x.lastLanguage v db ∧ w.file = v.read? w.path := by
  obtain ⟨language, files, before, after, hworks, -, hlanguage⟩ := visit_eq x v db
  rw [hworks] at hw
  obtain ⟨hproject, hsame, hpath, hfile⟩ := of_mem_worksOn hw
  exact ⟨hproject, hsame.trans (hlanguage (List.ne_nil_of_mem hpath)), hfile⟩

end Indexer

end SymbolAtlas
