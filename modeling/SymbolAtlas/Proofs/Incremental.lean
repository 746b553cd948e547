/-
  SymbolAtlas.Proofs.Incremental: a scan for changes compared with a full scan.

  A working tree is indexed at one commit and again at a later one, when only what the repository
  tells to have changed is worked on. Of a file that it tells nothing of, the symbols of the first
  run are those of the content it still has, so that for every file that the repository knows the
  symbols are those of a full scan. What is no longer there keeps the symbols of the first run.
-/

import SymbolAtlas.Proofs.Changes
import SymbolAtlas.Proofs.History

namespace SymbolAtlas

open SymbolData

/-! ## The last commit -/

namespace Store

theorem project?_putProject (st : Store) (d : ProjectData) :
    (st.putProject d).1.project? d.project
      = some { d with id := nextId (st.projects.map (·.id)), created := st.clock } := by
  have hnone : (st.projects.filter fun r => !(r.project == d.project)).find?
      (fun r => r.project == d.project) = none := by
    rw [List.find?_eq_none]
    intro r hr
    simpa using (List.mem_filter.mp hr).2
  rw [project?, putProject, List.find?_append, hnone, Option.none_or, List.find?_cons,
    beq_self_eq_true]

theorem project?_noteScan (st : Store) (project : String) (commit branch : Option String) :
    (st.noteScan project commit branch).project? project
      = (st.project? project).map fun r =>
          { r with commit := commit <|> r.commit, branch := branch <|> r.branch } := by
  have hsame : ((fun r : ProjectRow => r.project == project) ∘ fun r =>
      if r.project = project then
        { r with commit := commit <|> r.commit, branch := branch <|> r.branch }
      else r) = fun r => r.project == project := by
    funext r
    by_cases h : r.project = project <;> simp [h]
  rw [project?, noteScan, List.find?_map, hsame, project?]
  cases hfind : st.projects.find? fun r => r.project == project with
  | none => rfl
  | some r =>
      have hr := List.find?_some hfind
      rw [beq_iff_eq] at hr
      rw [Option.map_some, Option.map_some, if_pos hr]

end Store

namespace Indexer

variable {x : Indexer} {w : Workspace} {path project : String} {db : Database} {t : FileTree}

/-- After a run without faults the commit that was scanned is known. -/
theorem lastCommit?_run (hx : x.Lawful) (hdb : db.Sound)
    (hfind : w.tree.find? (.parse path) = some t) (hdir : t.isDir = true) {o : Origin}
    (horigin : w.origin? (.parse path) = some o) {id : String} (hcommit : o.commit = some id) :
    lastCommit? project (x.run w path project db).1.db = some id := by
  obtain ⟨c, hchoice⟩ := choice_sound hdb x w.tree path project (some o)
  have hworked : (x.worked w.tree path project (some o) c db).db.Sound :=
    hdb.mono (worked_sameFaults hx c)
  have hprojects : (x.worked w.tree path project (some o) c db).db.store.projects
      = (db.store.putProject (projectData (.parse path) project (some o))).1.projects := by
    rw [worked_db]
    exact (indexFiles_sameFaults hx w.tree project c.language c.files _).2
  have hproject : (x.worked w.tree path project (some o) c db).db.store.project? project
      = some { projectData (.parse path) project (some o) with
          id := Store.nextId (db.store.projects.map (·.id)), created := db.store.clock } := by
    rw [Store.project?, hprojects]
    exact db.store.project?_putProject (projectData (.parse path) project (some o))
  rw [run_of_isDir hfind hdir, horigin,
    runIn_worked hdb.opens (hdb.has .projects) hchoice, finish_some hworked, lastCommit?,
    Database.withStore, Store.project?_noteScan, hproject, hcommit]
  rfl

/-! ## Scans for changes -/

variable {o : Origin} {last : String}

/-- A file that is told to have changed and has not too many symbols gets those of its content
now. -/
theorem changedScan_data (hx : x.Lawful) (hdb : db.Sound)
    (hfind : w.tree.find? (.parse path) = some t) (hdir : t.isDir = true)
    (hbase : baseline? (w.origin? (.parse path)) (lastCommit? project db) = some (o, last))
    {file : String} {b : ByteArray} (hchanged : file ∈ o.changedSince last)
    (hread : w.tree.read? (.parse file) = some b)
    (hlanguage : (x.languageOf? file).isSome = true) (hfits : db.Fits project file) :
    (x.run w path project db).1.db.store.dataOf project file
      = lastPerKey (x.storable project file (some b)) := by
  have hchoice : (x.choice w.tree path project (w.origin? (.parse path)) db).2
      = .ok (x.scanChanged w.tree (o.changedSince last)) := by
    rw [choice, choose, hbase]
  have hchosen : file ∈ (x.scanChanged w.tree (o.changedSince last)).files :=
    mem_scanChanged.mpr ⟨⟨hchanged, by rw [hread]; rfl⟩, hlanguage⟩
  have hregistered := hdb.mono
    (registered_sameFaults (.parse path) project (w.origin? (.parse path)) db)
  obtain ⟨projects, hrun⟩ := runIn_indexed hdb.opens (hdb.has .projects) hchoice
  rw [run_of_isDir hfind hdir, hrun]
  refine (indexFiles_data hx hregistered.clearable hchosen hfits).trans ?_
  rw [hread, hregistered.filter_admits]

/-- A file that is not told to have changed, or that is not there, keeps its symbols. -/
theorem changedScan_rows (hx : x.Lawful)
    (hbase : baseline? (w.origin? (.parse path)) (lastCommit? project db) = some (o, last))
    {file : String} (h : file ∉ o.changedSince last ∨ w.tree.read? (.parse file) = none) :
    (x.run w path project db).1.db.store.rowsOf project file
      = db.store.rowsOf project file := by
  refine run_rows hx project fun c hchoice hmem => ?_
  rw [choice, choose, hbase] at hchoice
  obtain rfl := Except.ok.inj hchoice
  obtain ⟨⟨hchanged, hread⟩, -⟩ := mem_scanChanged.mp hmem
  rcases h with h | h
  · exact h hchanged
  · rw [h] at hread
    exact absurd hread (by decide)

end Indexer

/-! ## Working trees -/

/-- At a path there is a repository with a working tree and a current commit. What is committed or
staged are paths in the working tree. -/
structure CheckedOut (w : Workspace) (path : String) (t : FileTree) (r : Repository) (c : Commit) :
    Prop where
  found : w.tree.find? (.parse path) = some t
  isDir : t.isDir = true
  wellFormed : t.wellFormed = true
  repository : w.repository? (.parse path) = some r
  head : r.headCommit? = some c
  files : c.files.staysBelow = true
  staged : r.staged.staysBelow = true

namespace CheckedOut

variable {w : Workspace} {path : String} {t : FileTree} {r : Repository} {c : Commit}

theorem origin (h : CheckedOut w path t r c) :
    w.origin? (.parse path) = some
      { commit := some c.id, branch := r.currentBranch?
        changedSince := fun since =>
          (r.sources t (some since)).allChangedFiles (.parse path) } := by
  rw [Workspace.origin?, h.repository, Option.map_some, h.head, Workspace.subtree, h.found]
  rfl

variable {names : List String} {b : ByteArray}

theorem names_ne_nil (h : CheckedOut w path t r c) (hget : t.get? names = some (.file b)) :
    names ≠ [] := by
  rintro rfl
  obtain rfl : t = .file b := Option.some.inj hget
  exact absurd h.isDir (by simp [FileTree.isDir])

theorem names_isName (h : CheckedOut w path t r c) (hget : t.get? names = some (.file b)) :
    ∀ n ∈ names, FileTree.isName n = true :=
  (FileTree.wellFormed_get? h.wellFormed hget).2

/-- A file of the working tree is met by a walk. -/
theorem mem_filesBelow (h : CheckedOut w path t r c) (hget : t.get? names = some (.file b)) :
    ((Path.parse path).below names, b) ∈ t.filesBelow (.parse path) :=
  (FileTree.mem_filesBelow h.wellFormed).mpr ⟨names, h.names_ne_nil hget, rfl, hget⟩

/-- What the repository calls a file, and what the indexer calls it. -/
theorem place_join (h : CheckedOut w path t r c) (hget : t.get? names = some (.file b)) :
    ChangeSources.place (.parse path) (Text.join "/" names)
      = ((Path.parse path).below names).toString := by
  have hplain : ∀ n ∈ names, Path.isPlain n = true := fun n hn =>
    (FileTree.isName_iff.mp (h.names_isName hget n hn)).1
  rw [ChangeSources.place, Path.parse_join (h.names_ne_nil hget) hplain]
  rfl

/-- A file on disk, by what the repository calls it. -/
theorem onDisk?_join (h : CheckedOut w path t r c) (hget : t.get? names = some (.file b))
    (tree : FileTree) :
    Repository.onDisk? tree (Text.join "/" names) = (tree.get? names).bind FileTree.bytes? := by
  rw [Repository.onDisk?, Text.splitAt_join (h.names_ne_nil hget)]
  intro n hn
  exact (Path.isPlain_iff.mp (FileTree.isName_iff.mp (h.names_isName hget n hn)).1).2.2

/-- A file that the repository knows and that is not told to have changed is as in a working tree
that has all files of the earlier commit. -/
theorem get?_of_not_mem (h : CheckedOut w path t r c) (hintact : Repository.isDamaged t = false)
    {earlier : Commit} {before : FileTree} {since : String}
    (hearlier : r.resolve? since = some earlier)
    (hclean : ∀ f b, earlier.files.get? f = some b → Repository.onDisk? before f = some b)
    (hget : t.get? names = some (.file b))
    (hknown : r.staged.has (Text.join "/" names) = true ∨
      (Repository.visible t).has (Text.join "/" names) = true)
    (hnot : ((Path.parse path).below names).toString
      ∉ (r.sources t (some since)).allChangedFiles (.parse path)) :
    before.get? names = some (.file b) := by
  have hdisk : Repository.onDisk? t (Text.join "/" names) = some b := by
    rw [h.onDisk?_join hget, hget]
    rfl
  rw [← h.place_join hget] at hnot
  have hfiles := Repository.unchanged_of_not_mem hintact h.head hearlier hdisk hknown hnot
  have hbefore := hclean _ _ hfiles
  rw [h.onDisk?_join hget] at hbefore
  obtain ⟨u, hu, hbytes⟩ := Option.bind_eq_some_iff.mp hbefore
  cases u with
  | file b' =>
      obtain rfl : b' = b := Option.some.inj hbytes
      exact hu
  | dir _ => exact absurd hbytes (by simp [FileTree.bytes?])

/-- What a repository tells of and what is there is a file of the working tree. -/
theorem exists_file_of_mem (h : CheckedOut w path t r c) {earlier : Commit} {since file : String}
    (hearlier : r.resolve? since = some earlier) (hfiles : earlier.files.staysBelow = true)
    (hmem : file ∈ (r.sources t (some since)).allChangedFiles (.parse path))
    (hread : w.tree.read? (.parse file) = some b) :
    ∃ names b', t.get? names = some (.file b') ∧
      file = ((Path.parse path).below names).toString := by
  obtain ⟨p, rfl, hp⟩ := Repository.exists_path_of_mem h.head hearlier hmem
  have hstays : ∀ s : Snapshot, s.staysBelow = true → p ∈ s.map (·.1) →
      ∃ names b', t.get? names = some (.file b') ∧ ChangeSources.place (.parse path) p
        = ((Path.parse path).below names).toString := by
    -- the path is the path of the tree and names below it, and what is there is read by these
    intro s hs hps
    obtain ⟨hroot, hnames⟩ := Snapshot.staysBelow_path hs hps
    have hplace : ChangeSources.place (.parse path) p
        = ((Path.parse path).below (Path.parse p).names).toString := by
      rw [ChangeSources.place, Path.append, hroot]
      rfl
    rw [hplace, FileTree.read?, FileTree.find?_parse_below h.found hnames] at hread
    obtain ⟨u, hu, hbytes⟩ := Option.bind_eq_some_iff.mp hread
    cases u with
    | file b' => exact ⟨(Path.parse p).names, b', hu, hplace⟩
    | dir _ => exact absurd hbytes (by simp [FileTree.bytes?])
  rcases hp with hp | hp | hp | hp
  · exact hstays c.files h.files hp
  · exact hstays earlier.files hfiles hp
  · exact hstays r.staged h.staged hp
  · obtain ⟨names, b', rfl, hget⟩ := Repository.mem_visible h.wellFormed hp
    exact ⟨names, b', hget, h.place_join hget⟩

variable {x : Indexer}

/-- Into an empty database a working tree is indexed by a full scan. -/
theorem isFull (h : CheckedOut w path t r c) (project : String) :
    Visit.IsFull ⟨w, path, project⟩ {} := by
  rw [Visit.IsFull, h.origin]
  rfl

theorem fresh_data (hx : x.Lawful) (project : String) (h : CheckedOut w path t r c)
    (hget : t.get? names = some (.file b))
    (hshown : ((Path.parse path).below names).isHidden = false)
    (hlanguage : (x.languageOf? ((Path.parse path).below names).toString).isSome = true) :
    (x.run w path project {}).1.db.store.dataOf project ((Path.parse path).below names).toString
      = lastPerKey (x.storable project ((Path.parse path).below names).toString (some b)) := by
  have hdata := Indexer.fullScan_data hx (Indexer.stored_empty x) (v := ⟨w, path, project⟩) h.found
    h.wellFormed (h.mem_filesBelow hget) (h.isFull project) hshown hlanguage
    (fun u hu => absurd hu List.not_mem_nil) (.inl (Database.fits_of_rowsOf_eq_nil rfl))
  rw [Indexer.visit] at hdata
  exact hdata

/-- Nothing is stored of what is no file of the working tree. -/
theorem fresh_rows (hx : x.Lawful) (project : String) (h : CheckedOut w path t r c) {file : String}
    (hnot : ∀ names b, t.get? names = some (.file b) →
      file ≠ ((Path.parse path).below names).toString) :
    (x.run w path project {}).1.db.store.rowsOf project file = [] := by
  refine Indexer.fullScan_rows hx (h.isFull project) fun q b hlooked heq => ?_
  obtain ⟨hmem, -⟩ := List.mem_filter.mp hlooked
  rw [h.found, Option.getD_some] at hmem
  obtain ⟨names, -, rfl, hget⟩ := (FileTree.mem_filesBelow h.wellFormed).mp hmem
  exact hnot names b hget heq.symm

/-- After a run the next one scans for changes, unless the commit is still the same. -/
theorem baseline (hx : x.Lawful) (project : String) {db : Database} (hdb : db.Sound)
    {w' : Workspace} {t' : FileTree} {r' : Repository} {c' : Commit}
    (h : CheckedOut w path t r c) (h' : CheckedOut w' path t' r' c') (hid : c.id ≠ "")
    (hnew : c'.id ≠ c.id) :
    Indexer.baseline? (w'.origin? (.parse path))
        (Indexer.lastCommit? project (x.run w path project db).1.db)
      = some ({ commit := some c'.id, branch := r'.currentBranch?, changedSince := fun since =>
          (r'.sources t' (some since)).allChangedFiles (.parse path) }, c.id) := by
  rw [h'.origin, Indexer.lastCommit?_run hx hdb h.found h.isDir h.origin rfl]
  exact if_pos ⟨hid, fun heq => hnew (Option.some.inj heq)⟩

end CheckedOut

/-! ## Agreement -/

namespace Indexer

section Rescan

variable {x : Indexer} {w₁ w₂ : Workspace} {path : String} {t₁ t₂ : FileTree}
  {r₁ r₂ : Repository} {c₁ c₂ : Commit} (hx : x.Lawful) (project : String)
  (h₁ : CheckedOut w₁ path t₁ r₁ c₁) (h₂ : CheckedOut w₂ path t₂ r₂ c₂)
  (hid : c₁.id ≠ "") (hnew : c₂.id ≠ c₁.id)

include hx h₁ h₂ hid hnew

/-- Of a file that is told to have changed, or that is as the first run has read it, the symbols
are those of its content, unless it has changed and had too many. -/
theorem rescan_data {names : List String} {b : ByteArray} (hget : t₂.get? names = some (.file b))
    (hshown : ((Path.parse path).below names).isHidden = false)
    (hsame : ((Path.parse path).below names).toString
        ∉ (r₂.sources t₂ (some c₁.id)).allChangedFiles (.parse path) →
      t₁.get? names = some (.file b))
    (hroom : (x.run w₁ path project {}).1.db.Fits project
        ((Path.parse path).below names).toString ∨ t₁.get? names = some (.file b)) :
    (x.run w₂ path project (x.run w₁ path project {}).1.db).1.db.store.dataOf project
        ((Path.parse path).below names).toString
      = (x.run w₂ path project {}).1.db.store.dataOf project
          ((Path.parse path).below names).toString := by
  have hbase := h₁.baseline hx project Database.sound_empty h₂ hid hnew
  have hsound := Database.sound_empty.mono (run_sameFaults hx w₁ path project {})
  have hread := FileTree.read?_of_mem_filesBelow h₂.found h₂.wellFormed (h₂.mem_filesBelow hget)
  cases hlanguage : x.languageOf? ((Path.parse path).below names).toString with
  | none =>
      -- neither scan works on the file, so that nothing is ever stored of it
      have hrows := run_rows_of_languageOf? hx hlanguage
      rw [Store.dataOf, Store.dataOf, hrows, hrows, hrows]
  | some language =>
      have hsome : (x.languageOf? ((Path.parse path).below names).toString).isSome = true := by
        rw [hlanguage]
        rfl
      rw [h₂.fresh_data hx project hget hshown hsome]
      by_cases hfits : (x.run w₁ path project {}).1.db.Fits project
          ((Path.parse path).below names).toString
      · by_cases htold : ((Path.parse path).below names).toString
            ∈ (r₂.sources t₂ (some c₁.id)).allChangedFiles (.parse path)
        · exact changedScan_data hx hsound h₂.found h₂.isDir hbase htold hread hsome hfits
        · -- the second run passes the file over, and the first one has stored its content
          rw [← h₁.fresh_data hx project (hsame htold) hshown hsome, Store.dataOf, Store.dataOf,
            changedScan_rows hx hbase (.inl htold)]
      · -- the second run changes nothing in the file, whether it passes the file over or not
        rw [← h₁.fresh_data hx project (hroom.resolve_left hfits) hshown hsome, Store.dataOf,
          Store.dataOf, run_rows_crowded hx hsound hfits]

/-- What is no file of the tree keeps its symbols: what is told to have changed is a file of the
tree, or it is not there. -/
theorem rescan_rows (hearlier : r₂.resolve? c₁.id = some c₁) {file : String}
    (hnot : ∀ names b, t₂.get? names = some (.file b) →
      file ≠ ((Path.parse path).below names).toString) :
    (x.run w₂ path project (x.run w₁ path project {}).1.db).1.db.store.rowsOf project file
      = (x.run w₁ path project {}).1.db.store.rowsOf project file := by
  have hbase := h₁.baseline hx project Database.sound_empty h₂ hid hnew
  by_cases htold : file ∈ (r₂.sources t₂ (some c₁.id)).allChangedFiles (.parse path)
  · cases hread : w₂.tree.read? (.parse file) with
    | none => exact changedScan_rows hx hbase (.inr hread)
    | some b =>
        obtain ⟨names, b', hget, heq⟩ := h₂.exists_file_of_mem hearlier h₁.files htold hread
        exact absurd heq (hnot names b' hget)
  · exact changedScan_rows hx hbase (.inl htold)

end Rescan

/-- A working tree is indexed into an empty database at one commit and again at a later one. The
second run scans for changes only, and yet of every file that the repository knows, and of every
file that stayed as it was, the symbols are those of indexing the tree into an empty database,
except that the first run may have stored more symbols of a file than can be removed, which stay
when the file changes. Of what is no file of the tree there is nothing in a database that was empty,
but the symbols of the first run stay. -/
theorem changedScan_agrees_with_fullScan (a : Analyzer) (model : Option Model)
    {w₁ w₂ : Workspace} {path : String} {t₁ t₂ : FileTree} {r₁ r₂ : Repository} {c₁ c₂ : Commit}
    (project : String) (h₁ : CheckedOut w₁ path t₁ r₁ c₁)
    (hclean : ∀ f b, c₁.files.get? f = some b → Repository.onDisk? t₁ f = some b)
    (h₂ : CheckedOut w₂ path t₂ r₂ c₂) (hintact : Repository.isDamaged t₂ = false)
    (hearlier : r₂.resolve? c₁.id = some c₁) (hid : c₁.id ≠ "") (hnew : c₂.id ≠ c₁.id) :
    let x := ofAnalyzer a model
    let first := (x.run w₁ path project {}).1.db
    let second := (x.run w₂ path project first).1.db
    let fresh := (x.run w₂ path project {}).1.db
    (baseline? (w₂.origin? (.parse path)) (lastCommit? project first)).isSome = true ∧
      (∀ names b, t₂.get? names = some (.file b) →
        r₂.staged.has (Text.join "/" names) = true ∨
            (Repository.visible t₂).has (Text.join "/" names) = true ∨
            t₁.get? names = some (.file b) →
          ((Path.parse path).below names).isHidden = false →
          (first.Fits project ((Path.parse path).below names).toString ∨
              t₁.get? names = some (.file b) →
            second.store.dataOf project ((Path.parse path).below names).toString
              = fresh.store.dataOf project ((Path.parse path).below names).toString) ∧
          (¬ first.Fits project ((Path.parse path).below names).toString →
            second.store.rowsOf project ((Path.parse path).below names).toString
              = first.store.rowsOf project ((Path.parse path).below names).toString)) ∧
      ∀ file, (∀ names b, t₂.get? names = some (.file b) →
          file ≠ ((Path.parse path).below names).toString) →
        second.store.rowsOf project file = first.store.rowsOf project file ∧
          fresh.store.rowsOf project file = [] := by
  have hx := ofAnalyzer_lawful a model
  generalize ofAnalyzer a model = x at hx
  have hbase := h₁.baseline hx project Database.sound_empty h₂ hid hnew
  refine ⟨by rw [hbase]; rfl, ?_, fun file hnot =>
    ⟨rescan_rows hx project h₁ h₂ hid hnew hearlier hnot, h₂.fresh_rows hx project hnot⟩⟩
  intro names b hget hknown hshown
  refine ⟨fun hroom => rescan_data hx project h₁ h₂ hid hnew hget hshown (fun hnot => ?_) hroom,
    fun hfits => run_rows_crowded hx
      (Database.sound_empty.mono (run_sameFaults hx w₁ path project {})) hfits w₂ path⟩
  -- files that are staged or visible are not told only if they are as committed before
  rcases hknown with hstaged | hvisible | hkept
  · exact h₂.get?_of_not_mem hintact hearlier hclean hget (.inl hstaged) hnot
  · exact h₂.get?_of_not_mem hintact hearlier hclean hget (.inr hvisible) hnot
  · exact hkept

/-- A commit of some files. -/
def commitOf (id : String) (parent : Option String) (files : List (String × String)) : Commit where
  id
  parent
  files := files.map fun f => (f.1, f.2.toUTF8)
  message := ""
  author := ""
  time := ""

/-- A working tree with the files of a commit and one more. -/
def treeOf (c : Commit) (name text : String) : FileTree :=
  .dir ((".git", .empty) :: (name, .file text.toUTF8) :: c.files.map fun f => (f.1, .file f.2))

/-- A repository with some commits, of which one is checked out. -/
def repositoryOf (commits : List Commit) (c : Commit) : Repository :=
  { commits, branches := [("main", c.id)], head := .branch "main", staged := c.files }

/-- A working directory with such a repository in it. -/
def workspaceOf (commits : List Commit) (c : Commit) (name text : String) : Workspace :=
  { tree := .dir [("app", treeOf c name text)]
    repositories := [(["app"], repositoryOf commits c)] }

theorem workspaceOf_checkedOut {commits : List Commit} {c : Commit} {name text : String}
    (hwell : (treeOf c name text).wellFormed = true)
    (hhead : (repositoryOf commits c).headCommit? = some c) (hstays : c.files.staysBelow = true) :
    CheckedOut (workspaceOf commits c name text) "app" (treeOf c name text)
      (repositoryOf commits c) c := by
  have hpath : Path.parse "app" = ⟨"", ["app"]⟩ := by decide
  refine ⟨?_, rfl, hwell, ?_, hhead, hstays, hstays⟩
  · rw [hpath]
    rfl
  · rw [hpath]
    rfl

/-- Four files, of which one is hidden, and a list of what is ignored. -/
def fourFiles : Commit :=
  commitOf "1" none [(".gitignore", "n.toml\n"), (".h.toml", "[first]\n"), ("a.toml", "[old]\n"),
    ("b.toml", "[kept]\n"), ("c.toml", "[gone]\n")]

/-- Two of the files are edited and one is removed, and there is a new one. -/
def edited : Commit :=
  commitOf "2" (some "1") [(".gitignore", "n.toml\n"), (".h.toml", "[hidden]\n"),
    ("a.toml", "[new]\n"), ("b.toml", "[kept]\n"), ("d.toml", "[added]\n")]

/-- The first commit is checked out, with a file that is ignored. -/
def atFour : Workspace := workspaceOf [fourFiles] fourFiles "n.toml" "[before]\n"

/-- The second commit is checked out, and the ignored file has changed as well. -/
def atEdited : Workspace := workspaceOf [fourFiles, edited] edited "n.toml" "[after]\n"

theorem atFour_checkedOut :
    CheckedOut atFour "app" (treeOf fourFiles "n.toml" "[before]\n")
      (repositoryOf [fourFiles] fourFiles) fourFiles :=
  workspaceOf_checkedOut (by decide +kernel) rfl (by decide +kernel)

theorem atEdited_checkedOut :
    CheckedOut atEdited "app" (treeOf edited "n.toml" "[after]\n")
      (repositoryOf [fourFiles, edited] edited) edited :=
  workspaceOf_checkedOut (by decide +kernel) rfl (by decide +kernel)

theorem atFour_clean (f : String) (b : ByteArray) (h : fourFiles.files.get? f = some b) :
    Repository.onDisk? (treeOf fourFiles "n.toml" "[before]\n") f = some b := by
  have hall : ∀ g ∈ fourFiles.files,
      Repository.onDisk? (treeOf fourFiles "n.toml" "[before]\n") g.1 = some g.2 := by
    decide +kernel
  exact hall (f, b) (Snapshot.mem_of_get? h)

theorem atEdited_no_file (names : List String) (b : ByteArray)
    (hget : (treeOf edited "n.toml" "[after]\n").get? names = some (.file b)) :
    "app/c.toml" ≠ ((Path.parse "app").below names).toString := by
  intro heq
  have hthere := FileTree.find?_parse_below atEdited_checkedOut.found
    (atEdited_checkedOut.names_isName hget)
  have hnone : (atEdited.tree.find? (.parse "app/c.toml")).isNone = true := by
    decide +kernel
  rw [heq, hthere, hget] at hnone
  exact absurd hnone (by simp)

/-- What a run stores of the first commit, and of the second one. -/
theorem stored_fresh :
    let x := ofAnalyzer settings none
    let first := (x.run atFour "app" "p" {}).1.db
    let fresh := (x.run atEdited "app" "p" {}).1.db
    first.store.symbols.length ≤ Database.maxVariables ∧
      ["app/c.toml", "app/n.toml"].map (fun file => (first.store.dataOf "p" file).map (·.name))
        = [["gone"], ["before"]] ∧
      ["app/a.toml", "app/b.toml", "app/d.toml", "app/c.toml", "app/n.toml", "app/.h.toml"].map
          (fun file => (fresh.store.dataOf "p" file).map (·.name))
        = [["new"], ["kept"], ["added"], [], ["after"], []] := by
  decide +kernel

/-- Of an edited, a kept and a new file the symbols are those of now, and the symbols of the file
that was removed stay. -/
theorem changedScan_agrees_with_fullScan_edited :
    let x := ofAnalyzer settings none
    let first := (x.run atFour "app" "p" {}).1.db
    let second := (x.run atEdited "app" "p" first).1.db
    ["app/a.toml", "app/b.toml", "app/d.toml"].map (fun file =>
        (second.store.dataOf "p" file).map (·.name)) = [["new"], ["kept"], ["added"]] ∧
      second.store.rowsOf "p" "app/c.toml" = first.store.rowsOf "p" "app/c.toml" := by
  obtain ⟨-, hfiles, hgone⟩ := changedScan_agrees_with_fullScan settings none "p"
    atFour_checkedOut atFour_clean atEdited_checkedOut (by decide +kernel) rfl (by decide)
    (by decide)
  refine ⟨?_, (hgone "app/c.toml" atEdited_no_file).1⟩
  have hfresh := congrArg (List.take 3) stored_fresh.2.2
  rw [← List.map_take] at hfresh
  refine (List.map_congr_left fun file hfile => ?_).trans hfresh
  obtain ⟨n, hn, rfl⟩ : ∃ n ∈ ["a.toml", "b.toml", "d.toml"],
      ((Path.parse "app").below [n]).toString = file := by
    revert file
    decide +kernel
  have hshown : ((Path.parse "app").below [n]).isHidden = false := by
    revert n
    decide +kernel
  have hstaged : (repositoryOf [fourFiles, edited] edited).staged.has (Text.join "/" [n])
      = true := by
    revert n
    decide +kernel
  obtain ⟨b, hget⟩ : ∃ b, (treeOf edited "n.toml" "[after]\n").get? [n] = some (.file b) := by
    simp only [List.mem_cons, List.not_mem_nil, or_false] at hn
    rcases hn with rfl | rfl | rfl <;> exact ⟨_, rfl⟩
  have hnow := (hfiles [n] b hget (.inl hstaged) hshown).1
    (.inl (Database.fits_of_length_le stored_fresh.1 "p" _))
  exact congrArg (List.map fun d : SymbolData => d.name) hnow

/-- The two ways differ on a file that was removed, on a file that is ignored and has changed, and
on a hidden file that has changed. -/
theorem changedScan_differs_from_fullScan :
    let x := ofAnalyzer settings none
    let first := (x.run atFour "app" "p" {}).1.db
    let second := (x.run atEdited "app" "p" first).1.db
    let fresh := (x.run atEdited "app" "p" {}).1.db
    CheckedOut atFour "app" (treeOf fourFiles "n.toml" "[before]\n")
        (repositoryOf [fourFiles] fourFiles) fourFiles ∧
      (∀ f b, fourFiles.files.get? f = some b →
        Repository.onDisk? (treeOf fourFiles "n.toml" "[before]\n") f = some b) ∧
      CheckedOut atEdited "app" (treeOf edited "n.toml" "[after]\n")
        (repositoryOf [fourFiles, edited] edited) edited ∧
      edited.parent = some fourFiles.id ∧
      ["app/c.toml", "app/n.toml", "app/.h.toml"].map (fun file =>
        (second.store.dataOf "p" file).map (·.name)) = [["gone"], ["before"], ["hidden"]] ∧
      ["app/c.toml", "app/n.toml", "app/.h.toml"].map (fun file =>
        (fresh.store.dataOf "p" file).map (·.name)) = [[], ["after"], []] := by
  refine ⟨atFour_checkedOut, atFour_clean, atEdited_checkedOut, rfl, ?_,
    congrArg (List.drop 3) stored_fresh.2.2⟩
  have hx := ofAnalyzer_lawful settings none
  have hbase := atFour_checkedOut.baseline hx "p" Database.sound_empty atEdited_checkedOut
    (by decide) (by decide)
  have hgone : atEdited.tree.read? (.parse "app/c.toml") = none := by decide +kernel
  -- an ignored file is neither committed nor staged nor visible, so it is not told
  have hignored : "app/n.toml" ∉ ((repositoryOf [fourFiles, edited] edited).sources
      (treeOf edited "n.toml" "[after]\n") (some fourFiles.id)).allChangedFiles (.parse "app") := by
    intro hmem
    obtain ⟨path, heq, hpath⟩ :=
      Repository.exists_path_of_mem atEdited_checkedOut.head rfl hmem
    have hnone : ∀ path ∈ edited.files.map (·.1) ++ fourFiles.files.map (·.1) ++
        (Repository.visible (treeOf edited "n.toml" "[after]\n")).map (·.1),
        "app/n.toml" ≠ ChangeSources.place (.parse "app") path := by
      decide +kernel
    refine hnone path ?_ heq
    rw [List.mem_append, List.mem_append, or_assoc]
    rcases hpath with hpath | hpath | hpath | hpath
    · exact .inl hpath
    · exact .inr (.inl hpath)
    · exact .inl hpath
    · exact .inr (.inr hpath)
  -- a hidden file is told by the commits, and a changed scan does not look at names
  have hhidden : "app/.h.toml" ∈ ((repositoryOf [fourFiles, edited] edited).sources
      (treeOf edited "n.toml" "[after]\n") (some fourFiles.id)).allChangedFiles (.parse "app") := by
    have hchange : Change.of ".h.toml" ∈ edited.files.changes fourFiles.files := by decide +kernel
    have hplace : "app/.h.toml" = ChangeSources.place (.parse "app") ".h.toml" := by decide +kernel
    rw [hplace]
    exact ChangeSources.mem_of_committed
      (Repository.committed_sources atEdited_checkedOut.head rfl) hchange List.mem_cons_self
  have hread : atEdited.tree.read? (.parse "app/.h.toml") = some "[hidden]\n".toUTF8 := by
    decide +kernel
  have hfirst := run_sameFaults hx atFour "app" "p" {}
  have hstored := changedScan_data hx (Database.sound_empty.mono hfirst) atEdited_checkedOut.found
    atEdited_checkedOut.isDir hbase hhidden hread (by decide +kernel)
    (Database.fits_of_length_le stored_fresh.1 "p" _)
  have hremoved := changedScan_rows hx hbase (.inr hgone)
  have hkept := changedScan_rows hx hbase (.inl hignored)
  have hnamed : (lastPerKey ((ofAnalyzer settings none).storable "p" "app/.h.toml"
      (some "[hidden]\n".toUTF8))).map (·.name) = ["hidden"] := by decide +kernel
  obtain ⟨-, hold, -⟩ := stored_fresh
  rw [List.map_cons, List.map_cons, List.map_nil, List.cons.injEq, List.cons.injEq] at hold
  rw [List.map_cons, List.map_cons, List.map_cons, List.map_nil, hstored, Store.dataOf, hremoved,
    Store.dataOf, hkept, hnamed, ← Store.dataOf, ← Store.dataOf, hold.1, hold.2.1]

end Indexer

end SymbolAtlas
