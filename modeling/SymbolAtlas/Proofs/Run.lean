/-
  SymbolAtlas.Proofs.Run: what a run can do.

  A run stores the project, chooses files, works on them and notes the scan. Either it ends before
  any file is worked on, and at most the projects have changed, or it works on the chosen files
  (`runIn_cases`). A database without faults always comes to the second (`runIn_sound`).
-/

import SymbolAtlas.Proofs.Scan

namespace SymbolAtlas

namespace Database

variable {db db' : Database}

/-! ## Databases without faults -/

/-- A database that opens, has all its tables, lets all rows in and keeps projects apart. -/
def Sound (db : Database) : Prop := SameFaults {} db

theorem sound_empty : Sound {} := .refl _

theorem Sound.mono (h : db.Sound) (hs : db.SameFaults db') : db'.Sound := h.trans hs

theorem Sound.opens (h : db.Sound) : db.broken = false := h.broken

theorem Sound.shared_eq (h : db.Sound) : db.store.shared = false := h.shared

theorem Sound.has (h : db.Sound) (t : Table) : t ∉ db.dropped := by
  intro hd
  by_cases ht : t = .embeddings
  · subst ht
    exact absurd (h.embeddings hd) List.not_mem_nil
  · exact absurd ((h.dropped t ht).mp hd) List.not_mem_nil

theorem Sound.clearable (h : db.Sound) : db.Clearable :=
  ⟨h.opens, h.has .symbols, h.has .embeddings⟩

/-- A database without faults lets every symbol in. -/
theorem Sound.filter_admits (h : db.Sound) (ds : List SymbolData) : ds.filter db.admits = ds := by
  rw [SameFaults.admits h, List.filter_eq_self]
  intro d _
  rfl

theorem Sound.stats_ok (h : db.Sound) (project : Option String) :
    db.stats project = .ok (db.store.stats project) := by
  rw [stats, connect_ok h.opens, need_ok (h.has .symbols), need_ok (h.has .embeddings),
    need_ok (h.has .relationships)]
  rfl

end Database

namespace Indexer

variable {x : Indexer} {tree : FileTree} {path project : String} {origin : Option Origin}
  {db : Database}

/-! ## The project -/

/-- A project as it is stored at the start of a run. -/
def projectData (root : Path) (project : String) (origin : Option Origin) : ProjectData where
  project := project
  name := some root.name
  path := root.toString
  isRepository := some (.int (if origin.isSome then 1 else 0))
  commit := origin.bind (·.commit)
  branch := origin.bind (·.branch)

/-- The database at the start of the work on files. -/
def registered (root : Path) (project : String) (origin : Option Origin) (db : Database) :
    Database :=
  db.withProjects (db.store.putProject (projectData root project origin)).1.projects

/-- The commit of the last scan. -/
def lastCommit? (project : String) (db : Database) : Option String :=
  (db.store.project? project).bind (·.commit)

/-- A project is stored when the database opens and has a table of projects. -/
theorem register_ok (hopens : db.broken = false) (hprojects : Table.projects ∉ db.dropped)
    (root : Path) (project : String) (origin : Option Origin) :
    register root project origin db
      = .ok (registered root project origin db, lastCommit? project db,
          (db.store.project? project).bind (·.branch)) := by
  rw [register, Database.projectInfo, Database.putProject, Database.connect_ok hopens,
    Database.need_ok hprojects]
  rfl

theorem register_error (h : db.broken = true ∨ Table.projects ∈ db.dropped) (root : Path)
    (project : String) (origin : Option Origin) :
    ∃ e, register root project origin db = .error e := by
  rw [register, Database.projectInfo, Database.connect, Database.need]
  cases hbroken : db.broken with
  | true => exact ⟨_, rfl⟩
  | false =>
      have hdropped : Table.projects ∈ db.dropped := h.resolve_left (by simp [hbroken])
      rw [if_pos (List.contains_iff_mem.mpr hdropped)]
      exact ⟨_, rfl⟩

/-- Noting a scan changes projects only. -/
theorem finish_db (project : String) (origin : Option Origin) (db : Database) :
    ∃ projects, (finish project origin db).1 = db.withProjects projects := by
  rw [finish.eq_def]
  cases origin with
  | none => exact ⟨db.store.projects, rfl⟩
  | some o =>
      dsimp only
      cases hnote : db.noteScan project o.commit o.branch with
      | error e => exact ⟨db.store.projects, rfl⟩
      | ok db' =>
          rw [Database.noteScan] at hnote
          cases hconnect : db.connect with
          | error e =>
              rw [hconnect] at hnote
              exact absurd hnote (by simp [Bind.bind, Except.bind])
          | ok =>
              rw [hconnect] at hnote
              cases hneed : db.need .projects with
              | error e =>
                  rw [hneed] at hnote
                  exact absurd hnote (by simp [Bind.bind, Except.bind])
              | ok =>
                  rw [hneed] at hnote
                  obtain rfl := Except.ok.inj hnote
                  exact ⟨_, rfl⟩

/-! ## Runs -/

/-- How the files of a run are chosen. -/
def choice (x : Indexer) (tree : FileTree) (path project : String) (origin : Option Origin)
    (db : Database) : Event × Database.Result Choice :=
  x.choose tree (.parse path) project origin (lastCommit? project db)
    (registered (.parse path) project origin db)

/-- The state before the work on chosen files. -/
def start (x : Indexer) (tree : FileTree) (path project : String) (origin : Option Origin)
    (c : Choice) (db : Database) : Progress :=
  (Progress.tell { db := registered (.parse path) project origin db }
    [.info ("Discovering files in " ++ path), .progress 0,
      (x.choice tree path project origin db).1]).tell
    [.info ("Found " ++ toString c.files.length ++ " files to process"), .progress 10]

theorem start_db (c : Choice) :
    (x.start tree path project origin c db).db = registered (.parse path) project origin db := rfl

theorem start_added (c : Choice) : (x.start tree path project origin c db).added = 0 := rfl

/-- The state after the work on chosen files. -/
def worked (x : Indexer) (tree : FileTree) (path project : String) (origin : Option Origin)
    (c : Choice) (db : Database) : Progress :=
  x.processFiles tree project c (x.start tree path project origin c db)

theorem worked_db (c : Choice) :
    (x.worked tree path project origin c db).db
      = x.indexFiles tree project c.language c.files
          (registered (.parse path) project origin db) :=
  processFiles_db x tree project c (x.start tree path project origin c db)

theorem runIn_refused {e : DatabaseError}
    (h : register (.parse path) project origin db = .error e) :
    x.runIn tree path project origin db = failWith { db } project e := by
  simp only [runIn, h]

section Registered

variable (hopens : db.broken = false) (hprojects : Table.projects ∉ db.dropped)

include hopens hprojects

/-- A run that cannot choose files has only stored the project. -/
theorem runIn_unscanned {e : DatabaseError}
    (h : (x.choice tree path project origin db).2 = .error e) :
    (x.runIn tree path project origin db).1.db = registered (.parse path) project origin db ∧
      (x.runIn tree path project origin db).2 = .failure project e.message := by
  rw [choice] at h
  simp only [runIn, register_ok hopens hprojects, h]
  exact ⟨rfl, rfl⟩

/-- A run that has chosen files works on them and notes the scan. -/
theorem runIn_worked {c : Choice} (h : (x.choice tree path project origin db).2 = .ok c) :
    (x.runIn tree path project origin db).1.db
      = (finish project origin (x.worked tree path project origin c db).db).1 := by
  rw [choice] at h
  simp only [runIn, register_ok hopens hprojects, h]
  split
  all_goals rfl

/-- A run that has chosen files changes what the work on them changes, and nothing else but
projects. -/
theorem runIn_indexed {c : Choice} (h : (x.choice tree path project origin db).2 = .ok c) :
    ∃ projects, (x.runIn tree path project origin db).1.db
      = (x.indexFiles tree project c.language c.files
          (registered (.parse path) project origin db)).withProjects projects := by
  obtain ⟨projects, hfinish⟩ :=
    finish_db project origin (x.worked tree path project origin c db).db
  refine ⟨projects, ?_⟩
  rw [runIn_worked hopens hprojects h, hfinish, worked_db]

/-- The report of a run that has chosen files, when everything can be counted in the end. -/
theorem runIn_counted {c : Choice} (h : (x.choice tree path project origin db).2 = .ok c)
    {stats : Stats}
    (hstats : (finish project origin (x.worked tree path project origin c db).db).2 = .ok stats) :
    (x.runIn tree path project origin db).2.success = true ∧
      (x.runIn tree path project origin db).2.added
        = (x.worked tree path project origin c db).added ∧
      (x.runIn tree path project origin db).2.errors
        = (x.worked tree path project origin c db).errors := by
  rw [choice] at h
  simp only [runIn, register_ok hopens hprojects, h]
  split
  next e he => exact absurd (hstats.symm.trans he) (by simp)
  next => exact ⟨rfl, rfl, rfl⟩

/-- The report of a run that has chosen files and fails in the end. -/
theorem runIn_uncounted {c : Choice} (h : (x.choice tree path project origin db).2 = .ok c)
    {e : DatabaseError}
    (he : (finish project origin (x.worked tree path project origin c db).db).2 = .error e) :
    (x.runIn tree path project origin db).2 = .failure project e.message := by
  rw [choice] at h
  simp only [runIn, register_ok hopens hprojects, h]
  split
  next e' he' =>
    obtain rfl := Except.error.inj (he.symm.trans he')
    rfl
  next stats hstats => exact absurd (he.symm.trans hstats) (by simp)

end Registered

/-- What a run of a directory can do: it ends before any file is worked on, with at most other
projects than before, or it works on the files that it has chosen. -/
theorem runIn_cases (x : Indexer) (tree : FileTree) (path project : String)
    (origin : Option Origin) (db : Database) :
    (∃ projects, (x.runIn tree path project origin db).1.db = db.withProjects projects ∧
        (x.runIn tree path project origin db).2.added = 0) ∨
      db.broken = false ∧ Table.projects ∉ db.dropped ∧
        ∃ c projects, (x.choice tree path project origin db).2 = .ok c ∧
          (x.runIn tree path project origin db).1.db
            = (x.worked tree path project origin c db).db.withProjects projects ∧
          ((x.runIn tree path project origin db).2.added = 0 ∨
            (x.runIn tree path project origin db).2.added
              = (x.worked tree path project origin c db).added) := by
  by_cases hfault : db.broken = true ∨ Table.projects ∈ db.dropped
  · -- the project cannot be stored, and nothing is done
    obtain ⟨e, he⟩ := register_error hfault (.parse path) project origin
    refine .inl ⟨db.store.projects, ?_⟩
    rw [runIn_refused he]
    exact ⟨rfl, rfl⟩
  · obtain ⟨hbroken, hprojects⟩ := not_or.mp hfault
    have hopens : db.broken = false := by simpa using hbroken
    cases hchoice : (x.choice tree path project origin db).2 with
    | error e =>
        obtain ⟨hdb, hreport⟩ := runIn_unscanned hopens hprojects hchoice
        exact .inl ⟨_, hdb, by rw [hreport]; rfl⟩
    | ok c =>
        obtain ⟨projects, hrun⟩ := runIn_indexed hopens hprojects hchoice
        refine .inr ⟨hopens, hprojects, c, projects, rfl, ?_, ?_⟩
        · rw [hrun, worked_db]
        · cases hstats : (finish project origin (x.worked tree path project origin c db).db).2 with
          | error e =>
              rw [runIn_uncounted hopens hprojects hchoice hstats]
              exact .inl rfl
          | ok stats => exact .inr (runIn_counted hopens hprojects hchoice hstats).2.1

/-! ## Runs without faults -/

theorem registered_sameFaults (root : Path) (project : String) (origin : Option Origin)
    (db : Database) : db.SameFaults (registered root project origin db) :=
  .withProjects db _

theorem worked_sameFaults (hx : x.Lawful) (c : Choice) :
    db.SameFaults (x.worked tree path project origin c db).db := by
  rw [worked_db]
  exact (registered_sameFaults (.parse path) project origin db).trans
    (indexFiles_sameFaults hx tree project c.language c.files _).1

/-- Without faults, the scan of a repository is noted and everything is counted. -/
theorem finish_some (h : db.Sound) (project : String) (o : Origin) :
    finish project (some o) db
      = (db.withStore (db.store.noteScan project o.commit o.branch),
          .ok ((db.store.noteScan project o.commit o.branch).stats (Store.filterOf project))) := by
  have hnote : db.noteScan project o.commit o.branch
      = .ok (db.withStore (db.store.noteScan project o.commit o.branch)) := by
    rw [Database.noteScan, Database.connect_ok h.opens, Database.need_ok (h.has .projects)]
    rfl
  have hsound : (db.withStore (db.store.noteScan project o.commit o.branch)).Sound :=
    h.mono (.withStore rfl)
  simp only [finish, hnote, hsound.stats_ok]
  rfl

theorem finish_sound (h : db.Sound) (project : String) (origin : Option Origin) :
    ∃ stats, (finish project origin db).2 = .ok stats := by
  cases origin with
  | none => exact ⟨_, h.stats_ok _⟩
  | some o => exact ⟨_, by rw [finish_some h]⟩

/-- Without faults, files can be chosen. -/
theorem choice_sound (h : db.Sound) (x : Indexer) (tree : FileTree) (path project : String)
    (origin : Option Origin) : ∃ c, (x.choice tree path project origin db).2 = .ok c := by
  have hregistered : (registered (.parse path) project origin db).Sound :=
    h.mono (registered_sameFaults _ project origin db)
  rw [choice, choose]
  split
  · exact ⟨_, rfl⟩
  · exact scanAll_ok hregistered.opens (hregistered.has .symbols) (.parse path)

/-- Without faults, a run that has chosen files succeeds. -/
theorem runIn_sound (hx : x.Lawful) (h : db.Sound) {c : Choice}
    (hchoice : (x.choice tree path project origin db).2 = .ok c) :
    (x.runIn tree path project origin db).2.success = true ∧
      (x.runIn tree path project origin db).2.errors
        = (x.worked tree path project origin c db).errors := by
  have hworked : (x.worked tree path project origin c db).db.Sound :=
    h.mono (worked_sameFaults hx c)
  obtain ⟨stats, hstats⟩ := finish_sound hworked project origin
  obtain ⟨hsuccess, -, herrors⟩ := runIn_counted h.opens (h.has .projects) hchoice hstats
  exact ⟨hsuccess, herrors⟩

/-! ## Runs of what a path names -/

/-- A run of what is no directory does nothing; any other is a run of a directory. -/
theorem run_cases (x : Indexer) (w : Workspace) (path project : String) (db : Database) :
    ((x.run w path project db).1.db = db ∧ (x.run w path project db).2.added = 0) ∨
      x.run w path project db = x.runIn w.tree path project (w.origin? (.parse path)) db := by
  rw [run]
  split
  · exact .inl ⟨rfl, rfl⟩
  · split
    · exact .inr rfl
    · exact .inl ⟨rfl, rfl⟩

/-- A run of a directory. -/
theorem run_of_isDir {w : Workspace} {t : FileTree} (hfind : w.tree.find? (.parse path) = some t)
    (hdir : t.isDir = true) (db : Database) :
    x.run w path project db = x.runIn w.tree path project (w.origin? (.parse path)) db := by
  simp only [run, hfind, hdir, if_true]

/-- A run changes nothing in the faults of a database. -/
theorem run_sameFaults (hx : x.Lawful) (w : Workspace) (path project : String) (db : Database) :
    db.SameFaults (x.run w path project db).1.db := by
  rcases run_cases x w path project db with ⟨hdb, -⟩ | hrun
  · rw [hdb]
    exact .refl db
  · rw [hrun]
    rcases runIn_cases x w.tree path project (w.origin? (.parse path)) db with
      ⟨projects, hdb, -⟩ | ⟨-, -, c, projects, -, hdb, -⟩
    · rw [hdb]
      exact .withProjects db projects
    · rw [hdb]
      exact (worked_sameFaults hx c).trans (.withProjects _ projects)

/-- Without faults, a file that has too many symbols keeps them through a run of its project. -/
theorem run_rows_crowded (hx : x.Lawful) (h : db.Sound) {file : String}
    (hfits : ¬ db.Fits project file) (w : Workspace) (path : String) :
    (x.run w path project db).1.db.store.rowsOf project file = db.store.rowsOf project file := by
  rcases run_cases x w path project db with ⟨hdb, -⟩ | hrun
  · rw [hdb]
  · rw [hrun]
    rcases runIn_cases x w.tree path project (w.origin? (.parse path)) db with
      ⟨projects, hdb, -⟩ | ⟨-, -, c, projects, -, hdb, -⟩
    · rw [hdb, Database.rowsOf_withProjects]
    · have hregistered := h.mono
        (registered_sameFaults (.parse path) project (w.origin? (.parse path)) db)
      rw [hdb, Database.rowsOf_withProjects, worked_db]
      exact indexFiles_rows_refused hx hregistered.clearable hfits

/-- Without faults, the symbols of a file in a project are after a run what they were before, or
what is found in the file when the run is of this project. -/
theorem run_data (hx : x.Lawful) (h : db.Sound) (w : Workspace) (path project : String)
    (project' file : String) :
    (x.run w path project db).1.db.store.dataOf project' file = db.store.dataOf project' file ∨
      (x.run w path project db).1.db.store.dataOf project' file
        = SymbolData.lastPerKey
            (x.storable project' file (w.tree.read? (.parse file))) := by
  rcases run_cases x w path project db with ⟨hdb, -⟩ | hrun
  · exact .inl (by rw [hdb])
  · rw [hrun]
    rcases runIn_cases x w.tree path project (w.origin? (.parse path)) db with
      ⟨projects, hdb, -⟩ | ⟨-, -, c, projects, -, hdb, -⟩
    · rw [hdb]
      exact .inl rfl
    · have hregistered := h.mono
        (registered_sameFaults (.parse path) project (w.origin? (.parse path)) db)
      rw [hdb, worked_db]
      by_cases hchosen : file ∈ c.files ∧ project' = project
      · obtain ⟨hmem, rfl⟩ := hchosen
        by_cases hfits : (registered (.parse path) project' (w.origin? (.parse path)) db).Fits
            project' file
        · refine .inr ((indexFiles_data hx hregistered.clearable hmem hfits).trans ?_)
          rw [hregistered.filter_admits]
        · exact .inl (congrArg (List.map fun r : SymbolRow => r.toSymbolData)
            (indexFiles_rows_refused hx hregistered.clearable hfits))
      · -- the file was not chosen, or the run is of another project
        have hother : file ∉ c.files ∨
            (registered (.parse path) project (w.origin? (.parse path)) db).store.shared = false
              ∧ project ≠ project' := by
          rw [hregistered.shared_eq]
          by_cases hmem : file ∈ c.files
          · exact .inr ⟨rfl, fun he => hchosen ⟨hmem, he.symm⟩⟩
          · exact .inl hmem
        have hrows : (x.indexFiles w.tree project c.language c.files
            (registered (.parse path) project (w.origin? (.parse path)) db)).store.rowsOf
              project' file = db.store.rowsOf project' file := indexFiles_rows hx hother
        exact .inl (congrArg (List.map fun r : SymbolRow => r.toSymbolData) hrows)

/-- A full scan works on the files that it chooses, and changes nothing else but projects. -/
theorem fullScan_worked (hopens : db.broken = false) (hsymbols : Table.symbols ∉ db.dropped)
    (hprojects : Table.projects ∉ db.dropped) {w : Workspace} {t : FileTree}
    (hfind : w.tree.find? (.parse path) = some t) (hdir : t.isDir = true)
    (hfull : baseline? (w.origin? (.parse path)) (lastCommit? project db) = none) :
    ∃ c projects, x.scanAll w.tree (.parse path) project
          (registered (.parse path) project (w.origin? (.parse path)) db) = .ok c ∧
      (x.run w path project db).1.db = (x.indexFiles w.tree project c.language c.files
          (registered (.parse path) project (w.origin? (.parse path)) db)).withProjects
            projects := by
  obtain ⟨c, hscan⟩ : ∃ c, x.scanAll w.tree (.parse path) project
      (registered (.parse path) project (w.origin? (.parse path)) db) = .ok c :=
    scanAll_ok hopens hsymbols (.parse path)
  have hchoice : (x.choice w.tree path project (w.origin? (.parse path)) db).2 = .ok c := by
    rw [choice, choose, hfull]
    exact hscan
  obtain ⟨projects, hrun⟩ := runIn_indexed hopens hprojects hchoice
  exact ⟨c, projects, hscan, by rw [run_of_isDir hfind hdir, hrun]⟩

/-- A full scan replaces the symbols of a file that it looks at, or the symbols stay, because the
content of the file is stored already or because they are too many. -/
theorem fullScan_file (hx : x.Lawful) (hdb : db.Clearable) (hprojects : Table.projects ∉ db.dropped)
    {w : Workspace} {t : FileTree} (hfind : w.tree.find? (.parse path) = some t)
    (hdir : t.isDir = true)
    (hfull : baseline? (w.origin? (.parse path)) (lastCommit? project db) = none)
    {q : Path} {b : ByteArray} (hlooked : (q, b) ∈ lookedAt w.tree (.parse path))
    (hlanguage : (x.languageOf? q.toString).isSome = true) :
    db.Fits project q.toString ∧ (x.run w path project db).1.db.store.dataOf project q.toString
        = SymbolData.lastPerKey ((x.storable project q.toString
            (w.tree.read? (.parse q.toString))).filter db.admits) ∨
      (db.store.isCurrent q.toString (Digest.sha256 b) project = true ∨
          ¬ db.Fits project q.toString) ∧
        (x.run w path project db).1.db.store.rowsOf project q.toString
          = db.store.rowsOf project q.toString := by
  have hfaults := registered_sameFaults (.parse path) project (w.origin? (.parse path)) db
  have hready := hdb.mono hfaults
  obtain ⟨c, projects, hscan, hrun⟩ := fullScan_worked hdb.opens hdb.symbols hprojects hfind hdir
    hfull
  rw [hrun]
  by_cases hchosen : q.toString ∈ c.files
  · by_cases hfits : db.Fits project q.toString
    · rw [← hfaults.admits]
      exact .inl ⟨hfits, indexFiles_data hx hready hchosen hfits⟩
    · exact .inr ⟨.inr hfits, indexFiles_rows_refused hx hready hfits⟩
  · exact .inr ⟨.inl (isCurrent_of_not_mem_scanAll hready.opens hready.symbols hscan hlooked
      hlanguage hchosen), indexFiles_rows hx (.inl hchosen)⟩

/-- Only files with a language are chosen. -/
theorem choice_language {c : Choice} (h : (x.choice tree path project origin db).2 = .ok c)
    {file : String} (hmem : file ∈ c.files) : (x.languageOf? file).isSome = true := by
  rw [choice, choose] at h
  split at h
  · obtain rfl := Except.ok.inj h
    exact (mem_scanChanged.mp hmem).2
  · obtain ⟨-, -, -, -, hlanguage, -⟩ := (mem_scanAll h).mp hmem
    exact hlanguage

/-- A file that is not chosen keeps the symbols that it has. -/
theorem run_rows (hx : x.Lawful) {w : Workspace} {file : String} (project' : String)
    (h : ∀ c, (x.choice w.tree path project (w.origin? (.parse path)) db).2 = .ok c →
      file ∉ c.files) :
    (x.run w path project db).1.db.store.rowsOf project' file
      = db.store.rowsOf project' file := by
  rcases run_cases x w path project db with ⟨hdb, -⟩ | hrun
  · rw [hdb]
  · rw [hrun]
    rcases runIn_cases x w.tree path project (w.origin? (.parse path)) db with
      ⟨projects, hdb, -⟩ | ⟨-, -, c, projects, hchoice, hdb, -⟩
    · rw [hdb, Database.rowsOf_withProjects]
    · rw [hdb, Database.rowsOf_withProjects, worked_db, indexFiles_rows hx (.inl (h c hchoice)),
        registered, Database.rowsOf_withProjects]

theorem run_rows_of_languageOf? (hx : x.Lawful) {file : String} (h : x.languageOf? file = none)
    (w : Workspace) (path project project' : String) (db : Database) :
    (x.run w path project db).1.db.store.rowsOf project' file
      = db.store.rowsOf project' file := by
  refine run_rows hx project' fun c hchoice hmem => ?_
  have hlanguage := choice_language hchoice hmem
  rw [h] at hlanguage
  exact absurd hlanguage (by decide)

/-- A full scan leaves alone what it does not look at. -/
theorem fullScan_rows (hx : x.Lawful) {w : Workspace}
    (hfull : baseline? (w.origin? (.parse path)) (lastCommit? project db) = none) {file : String}
    (hnot : ∀ q b, (q, b) ∈ lookedAt w.tree (.parse path) → q.toString ≠ file) :
    (x.run w path project db).1.db.store.rowsOf project file = db.store.rowsOf project file := by
  refine run_rows hx project fun c hchoice hmem => ?_
  rw [choice, choose, hfull] at hchoice
  obtain ⟨q, b, hlooked, hq, -⟩ := (mem_scanAll hchoice).mp hmem
  exact hnot q b hlooked hq

end Indexer

end SymbolAtlas
