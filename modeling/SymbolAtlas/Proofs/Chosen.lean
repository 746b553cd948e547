/-
  SymbolAtlas.Proofs.Chosen: the files that a run works on.

  A run that can store its project chooses files and works on each of them in turn. In a full scan
  they are the files that are shown, that have a language and whose content is not stored yet
  (`mem_workPaths_full`); in a scan for changes they are what has changed since the commit of the
  last scan, as far as it exists and has a language (`mem_workPaths_changed`).
-/

import SymbolAtlas.Proofs.Differences
import SymbolAtlas.Proofs.ScanMode
import SymbolAtlas.Proofs.Works

namespace SymbolAtlas

namespace Visit

/-- Whether a run gets as far as choosing files: it is for a directory, and its project can be
stored. -/
structure Starts (v : Visit) (db : Database) : Prop where
  isDirectory : v.IsDirectory
  opens : db.broken = false
  projects : Table.projects ∉ db.dropped

/-- The files that the repository of a visit tells to have changed since the last scan. -/
def changedFiles (v : Visit) (db : Database) : List String :=
  match v.workspace.repository? (.parse v.path), Indexer.lastCommit? v.project db with
  | some r, some last =>
    (r.sources (v.workspace.subtree (.parse v.path)) (some last)).allChangedFiles (.parse v.path)
  | _, _ => []

/-- Whether a file is the place of a path that has changed since the last scan. -/
def Changed (v : Visit) (db : Database) (file : String) : Prop :=
  ∃ r last path, v.workspace.repository? (.parse v.path) = some r ∧
    Indexer.lastCommit? v.project db = some last ∧
    r.ChangedSince (v.workspace.subtree (.parse v.path)) last path ∧
    file = ChangeSources.place (.parse v.path) path

/-- The repository tells the files that have changed. -/
theorem mem_changedFiles {v : Visit} {db : Database} {file : String} :
    file ∈ v.changedFiles db ↔ v.Changed db file := by
  rw [changedFiles, Changed]
  cases v.workspace.repository? (.parse v.path) with
  | none => simp
  | some r =>
      cases Indexer.lastCommit? v.project db with
      | none => simp
      | some last =>
          simp only [ChangeSources.mem_allChangedFiles_iff, Repository.mem_paths_iff]
          simp

/-- What a scan for changes compares with decides what it takes to have changed. -/
theorem changedFiles_of_baseline {v : Visit} {db : Database} {o : Origin} {last : String}
    (h : Indexer.baseline? (v.workspace.origin? (.parse v.path)) (Indexer.lastCommit? v.project db)
      = some (o, last)) :
    v.changedFiles db = o.changedSince last := by
  rw [Indexer.baseline?, Option.bind_eq_bind, Option.bind_eq_some_iff] at h
  obtain ⟨o', horigin, h⟩ := h
  rw [Option.bind_eq_bind, Option.bind_eq_some_iff] at h
  obtain ⟨last', hlast, h⟩ := h
  obtain ⟨rfl, rfl⟩ : o' = o ∧ last' = last := by
    split at h
    · exact Prod.mk.inj (Option.some.inj h)
    · exact absurd h (by simp)
  obtain ⟨r, hr, rfl⟩ := Option.map_eq_some_iff.mp horigin
  rw [changedFiles, hr, hlast]

end Visit

/-- What is picked from a list stands in the order of the list. -/
theorem Database.Result.filterMapM_sublist {α β : Type} {f : α → Database.Result (Option β)}
    {g : α → β} (hf : ∀ a b, f a = .ok (some b) → g a = b) {l : List α} {r : List β}
    (h : l.filterMapM f = .ok r) : r.Sublist (l.map g) := by
  induction l generalizing r with
  | nil =>
      rw [List.filterMapM_nil] at h
      obtain rfl : [] = r := Except.ok.inj h
      exact .slnil
  | cons a rest ih =>
      rw [List.filterMapM_cons] at h
      obtain ⟨found, ha, h⟩ := Database.Result.bind_eq_ok.mp h
      cases found with
      | none => exact (ih h).cons _
      | some b =>
          obtain ⟨more, hmore, h⟩ := Database.Result.bind_eq_ok.mp h
          obtain rfl : b :: more = r := Except.ok.inj h
          rw [List.map_cons, hf a b ha]
          exact (ih hmore).cons_cons b

namespace Indexer

variable {x : Indexer} {tree : FileTree} {project : String} {language : Option String}
  {db : Database} {v : Visit} {file : String}

/-- What a run chooses. -/
def chosen (x : Indexer) (v : Visit) (db : Database) : Database.Result Choice :=
  (x.choice v.workspace.tree v.path v.project (v.workspace.origin? (.parse v.path)) db).2

/-- The files that a run works on. -/
def workPaths (x : Indexer) (v : Visit) (db : Database) : List String :=
  (x.works v db).map (·.path)

/-- The works on some files go through them in their order. -/
theorem map_path_worksOn (x : Indexer) (tree : FileTree) (project : String)
    (language : Option String) (files : List String) (db : Database) :
    (x.worksOn tree project language files db).map (·.path) = files := by
  induction files generalizing db with
  | nil => rfl
  | cons path rest ih =>
      rw [worksOn, List.map_cons, ih]

/-- A run works on the files that it chooses. -/
theorem workPaths_of_chosen (h : v.Starts db) {c : Choice} (hchosen : x.chosen v db = .ok c) :
    x.workPaths v db = c.files := by
  obtain ⟨t, hfind, hdir⟩ := h.isDirectory
  rw [workPaths, works_of_choice h.opens h.projects hfind hdir hchosen]
  exact map_path_worksOn x _ _ _ _ _

/-- A run that works on anything has got as far as choosing it. -/
theorem workPaths_cases (x : Indexer) (v : Visit) (db : Database) :
    x.workPaths v db = [] ∨
      v.Starts db ∧ ∃ c, x.chosen v db = .ok c ∧ x.workPaths v db = c.files := by
  by_cases hdir : (v.workspace.tree.find? (.parse v.path)).any FileTree.isDir = true
  swap
  · refine .inl ?_
    rw [workPaths, works, if_neg hdir]
    rfl
  by_cases hfault : db.broken = true ∨ Table.projects ∈ db.dropped
  · obtain ⟨e, he⟩ := register_error hfault (.parse v.path) v.project
      (v.workspace.origin? (.parse v.path))
    refine .inl ?_
    rw [workPaths]
    simp only [works, hdir, if_true, he, List.map_nil]
  obtain ⟨hbroken, hprojects⟩ := not_or.mp hfault
  have hstarts : v.Starts db :=
    ⟨(Option.any_eq_true _ _).mp hdir, by simpa using hbroken, hprojects⟩
  cases hchosen : x.chosen v db with
  | error e =>
      rw [chosen, choice] at hchosen
      refine .inl ?_
      rw [workPaths]
      simp only [works, hdir, if_true, register_ok hstarts.opens hstarts.projects, hchosen,
        List.map_nil]
  | ok c => exact .inr ⟨hstarts, c, rfl, workPaths_of_chosen hstarts hchosen⟩

/-- A file is worked on when the run gets as far as choosing it. -/
theorem mem_workPaths :
    file ∈ x.workPaths v db ↔ v.Starts db ∧ ∃ c, x.chosen v db = .ok c ∧ file ∈ c.files := by
  constructor
  · intro hmem
    rcases workPaths_cases x v db with hnil | ⟨hstarts, c, hchosen, hfiles⟩
    · rw [hnil] at hmem
      exact absurd hmem List.not_mem_nil
    · exact ⟨hstarts, c, hchosen, hfiles ▸ hmem⟩
  · rintro ⟨hstarts, c, hchosen, hmem⟩
    exact workPaths_of_chosen hstarts hchosen ▸ hmem

theorem chosen_full (hfull : v.IsFull db) :
    x.chosen v db = x.scanAll v.workspace.tree (.parse v.path) v.project
      (registered (.parse v.path) v.project (v.workspace.origin? (.parse v.path)) db) := by
  rw [chosen, choice, choose, hfull]

theorem chosen_changed (h : ¬v.IsFull db) :
    x.chosen v db = .ok (x.scanChanged v.workspace.tree (v.changedFiles db)) := by
  obtain ⟨⟨o, last⟩, hbase⟩ := Option.ne_none_iff_exists'.mp h
  rw [chosen, choice, choose, hbase, Visit.changedFiles_of_baseline hbase]

/-! ## What the two scans choose -/

/-- Whether a full scan has to work on a file: it is shown, it has a language, and its content is
not stored. -/
def Pending (x : Indexer) (v : Visit) (db : Database) (file : String) : Prop :=
  ∃ q b, (q, b) ∈ lookedAt v.workspace.tree (.parse v.path) ∧ q.toString = file ∧
    (x.languageOf? file).isSome = true ∧
    db.store.isCurrent file (Digest.sha256 b) v.project = false

/-- The files that a full scan comes upon, each with whether its content is stored. -/
def comparisons (v : Visit) (db : Database) : List (String × Bool) :=
  (lookedAt v.workspace.tree (.parse v.path)).map fun f =>
    (f.1.toString, db.store.isCurrent f.1.toString (Digest.sha256 f.2) v.project)

/-- A file is left for a full scan when the comparison tells so and it has a language. -/
theorem pending_iff : x.Pending v db file ↔
    (file, false) ∈ comparisons v db ∧ (x.languageOf? file).isSome = true := by
  rw [comparisons, List.mem_map]
  constructor
  · rintro ⟨q, b, hlooked, rfl, hlanguage, hstale⟩
    exact ⟨⟨(q, b), hlooked, Prod.ext rfl hstale⟩, hlanguage⟩
  · rintro ⟨⟨⟨q, b⟩, hlooked, hf⟩, hlanguage⟩
    obtain ⟨rfl, hstale⟩ := Prod.mk.inj hf
    exact ⟨q, b, hlooked, rfl, hlanguage, hstale⟩

/-- What a full scan works on. -/
theorem mem_workPaths_full (hfull : v.IsFull db) :
    file ∈ x.workPaths v db ↔
      v.Starts db ∧ Table.symbols ∉ db.dropped ∧ x.Pending v db file := by
  have hcurrent : ∀ digest, (registered (.parse v.path) v.project
      (v.workspace.origin? (.parse v.path)) db).store.isCurrent file digest v.project
        = db.store.isCurrent file digest v.project :=
    fun digest => Database.isCurrent_withProjects db _ file digest v.project
  rw [mem_workPaths, chosen_full hfull]
  constructor
  · rintro ⟨hstarts, c, hc, hmem⟩
    obtain ⟨q, b, hlooked, hpath, hlanguage, hneeds⟩ := (mem_scanAll hc).mp hmem
    obtain ⟨-, hsymbols, hstale⟩ := Database.needsUpdate_eq_true.mp hneeds
    exact ⟨hstarts, hsymbols, q, b, hlooked, hpath, hlanguage, hcurrent _ ▸ hstale⟩
  · rintro ⟨hstarts, hsymbols, q, b, hlooked, hpath, hlanguage, hstale⟩
    obtain ⟨c, hc⟩ : ∃ c, x.scanAll v.workspace.tree (.parse v.path) v.project
        (registered (.parse v.path) v.project (v.workspace.origin? (.parse v.path)) db) = .ok c :=
      scanAll_ok hstarts.opens hsymbols (.parse v.path)
    refine ⟨hstarts, c, hc, (mem_scanAll hc).mpr ⟨q, b, hlooked, hpath, hlanguage, ?_⟩⟩
    exact Database.needsUpdate_eq_true.mpr ⟨hstarts.opens, hsymbols, (hcurrent _).trans hstale⟩

/-- What a scan for changes works on. -/
theorem mem_workPaths_changed (h : ¬v.IsFull db) :
    file ∈ x.workPaths v db ↔
      v.Starts db ∧ v.Changed db file ∧ (v.read? file).isSome = true ∧
        (x.languageOf? file).isSome = true := by
  rw [mem_workPaths, chosen_changed h, ← Visit.mem_changedFiles]
  constructor
  · rintro ⟨hstarts, c, hc, hmem⟩
    obtain rfl := Except.ok.inj hc
    obtain ⟨⟨hfile, hread⟩, hlanguage⟩ := mem_scanChanged.mp hmem
    exact ⟨hstarts, hfile, hread, hlanguage⟩
  · rintro ⟨hstarts, hfile, hread, hlanguage⟩
    exact ⟨hstarts, _, rfl, mem_scanChanged.mpr ⟨⟨hfile, hread⟩, hlanguage⟩⟩

/-! ## Each file once -/

/-- A full scan takes files in the order in which it comes upon them. -/
theorem scanAll_sublist {root : Path} {c : Choice} (h : x.scanAll tree root project db = .ok c) :
    c.files.Sublist ((lookedAt tree root).map fun f => f.1.toString) := by
  rw [scanAll_eq] at h
  cases hfiles : (lookedAt tree root).filterMapM (x.consider project db) with
  | error e =>
      rw [hfiles] at h
      exact absurd h (by simp [Except.map])
  | ok files =>
      rw [hfiles] at h
      obtain rfl := Except.ok.inj h
      refine Database.Result.filterMapM_sublist (fun f path hf => ?_) hfiles
      exact (consider_eq_some.mp hf).1

/-- No file is worked on twice in a full scan. -/
theorem nodup_workPaths_full (x : Indexer) {t : FileTree}
    (hfind : v.workspace.tree.find? (.parse v.path) = some t) (hwell : t.wellFormed = true)
    (hfull : v.IsFull db) : (x.workPaths v db).Nodup := by
  rcases workPaths_cases x v db with hnil | ⟨-, c, hchosen, hfiles⟩
  · rw [hnil]
    exact List.nodup_nil
  · have hbelow := FileTree.nodup_filesBelow (FileTree.root_of_find? hfind) hwell
    rw [chosen_full hfull] at hchosen
    rw [hfiles]
    refine List.Nodup.sublist ((scanAll_sublist hchosen).trans ?_) hbelow
    rw [lookedAt, hfind, Option.getD_some]
    exact List.filter_sublist.map _

/-- No file is worked on twice. -/
theorem nodup_workPaths (x : Indexer) (hwell : v.workspace.tree.wellFormed = true)
    (db : Database) : (x.workPaths v db).Nodup := by
  rcases workPaths_cases x v db with hnil | ⟨hstarts, c, hchosen, hfiles⟩
  · rw [hnil]
    exact List.nodup_nil
  by_cases hmode : v.IsFull db
  · obtain ⟨t, hfind, -⟩ := hstarts.isDirectory
    exact nodup_workPaths_full x hfind (FileTree.wellFormed_of_find? hwell hfind) hmode
  · rw [hfiles]
    have hchanged : (v.changedFiles db).Nodup := by
      rw [Visit.changedFiles]
      split
      · exact ChangeSources.nodup_allChangedFiles _ _
      · exact List.nodup_nil
    rw [chosen_changed hmode] at hchosen
    obtain rfl := Except.ok.inj hchosen
    exact (hchanged.filter _).filter _

/-- The same for a run that works on no file twice, of what the projects have nothing to do with. -/
theorem works_at {β : Type} {f : Database → β}
    (hprojects : ∀ db projects, f (Database.withProjects db projects) = f db)
    (hnodup : (x.workPaths v db).Nodup) {w : Work} (hw : w ∈ x.works v db)
    (hother : ∀ w' ∈ x.works v db, w'.path ≠ w.path → f (x.outcome w').db = f w'.before) :
    f w.before = f db ∧ f (x.visit db v) = f (x.outcome w).db := by
  obtain ⟨language, files, before, after, hworks, hvisit, -⟩ := visit_eq x v db
  rw [workPaths, hworks, map_path_worksOn] at hnodup
  rw [hworks] at hw hother
  rw [hvisit, hprojects, ← hprojects db before]
  exact worksOn_at hnodup hw hother

theorem rowsOf_works (hx : x.Lawful) (hnodup : (x.workPaths v db).Nodup) {w : Work}
    (hw : w ∈ x.works v db) (project' : String) :
    w.before.store.rowsOf project' w.path = db.store.rowsOf project' w.path :=
  (works_at (f := fun db => db.store.rowsOf project' w.path) (fun _ _ => rfl) hnodup hw
    fun _ _ hne => indexFile_rows_other hx (.inl hne)).1

end Indexer

/-- After a run at one commit, a run at another one scans for changes, and a file has changed if the
repository tells so of the first commit. -/
theorem CheckedOut.scans_changes {x : Indexer} (hx : x.Lawful) (project : String) {db : Database}
    (hdb : db.Sound) {w w' : Workspace} {path : String} {t t' : FileTree} {r r' : Repository}
    {c c' : Commit} (h : CheckedOut w path t r c) (h' : CheckedOut w' path t' r' c')
    (hid : c.id ≠ "") (hnew : c'.id ≠ c.id) :
    let v : Visit := ⟨w', path, project⟩
    let after := (x.run w path project db).1.db
    v.Starts after ∧ Indexer.lastCommit? project after = some c.id ∧ ¬v.IsFull after ∧
      ∀ file, v.Changed after file ↔
        ∃ p ∈ (r'.sources t' (some c.id)).paths, file = ChangeSources.place (.parse path) p := by
  have hafter := hdb.mono (Indexer.run_sameFaults hx w path project db)
  have hbase := h.baseline hx project hdb h' hid hnew
  refine ⟨⟨⟨t', h'.found, h'.isDir⟩, hafter.opens, hafter.has .projects⟩, ?_, ?_, ?_⟩
  · exact Indexer.lastCommit?_run hx hdb h.found h.isDir h.origin rfl
  · rw [Visit.IsFull, hbase]
    simp
  · intro file
    rw [← Visit.mem_changedFiles, Visit.changedFiles_of_baseline (v := ⟨w', path, project⟩) hbase]
    exact ChangeSources.mem_allChangedFiles_iff

end SymbolAtlas
