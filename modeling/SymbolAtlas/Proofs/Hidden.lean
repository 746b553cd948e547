/-
  SymbolAtlas.Proofs.Hidden: hidden files, and where the test for them looks.

  The test looks at all parts of a path, so that a path is hidden when the directory it starts in is
  (`isHidden_append`). A full scan of a directory whose own path is hidden works on nothing; of any
  other it works on the files whose names below it are shown (`mem_relativePaths_fresh`). A scan for
  changes makes no such test: a hidden file is worked on when it has changed, exists and has a
  language (`workPaths_hidden_iff`).
-/

import SymbolAtlas.Proofs.Chosen

namespace SymbolAtlas

namespace Path

/-- A path is hidden when the path it starts from is, or what comes after that. -/
theorem isHidden_append (r : Path) {f : Path} (hf : f.root = "") :
    (r.append f).isHidden = (r.isHidden || f.isHidden) := by
  simp only [append, isHidden, parts, hf, beq_self_eq_true, if_true]
  split <;> simp [Bool.or_assoc]

theorem isHidden_below (p : Path) (names : List String) :
    (p.below names).isHidden = (p.isHidden || (⟨"", names⟩ : Path).isHidden) :=
  isHidden_append p (f := ⟨"", names⟩) rfl

/-- What a path starts from makes no difference to the test if and only if it is shown itself. -/
theorem isHidden_append_eq_iff (r : Path) :
    (∀ f : Path, f.root = "" → (r.append f).isHidden = f.isHidden) ↔ r.isHidden = false := by
  constructor
  · intro h
    have hself := h ⟨"", []⟩ rfl
    rw [isHidden_append r rfl] at hself
    simpa [isHidden, parts] using hself
  · intro h f hf
    rw [isHidden_append r hf, h, Bool.false_or]

end Path

/-- The language of a file depends on its last name. -/
theorem Dialect.languageOf?_below (d : Dialect) (p : Path) {names : List String} (h : names ≠ []) :
    d.languageOf? (p.below names) = d.languageOf? ⟨"", names⟩ := by
  have hname : (p.below names).name = (⟨"", names⟩ : Path).name := by
    simp only [Path.name, Path.below, List.getLastD_eq_getLast?, List.getLast?_append_of_ne_nil _ h]
  simp only [languageOf?, Extension.languageOf?, Path.suffix, hname]

/-! ## Full scans -/

/-- Whether a file of a tree is to be chosen by its names in the tree alone. -/
def Analyzer.Selects (a : Analyzer) (t : FileTree) (names : List String) : Prop :=
  (∃ b, t.get? names = some (.file b)) ∧ (⟨"", names⟩ : Path).isHidden = false ∧
    (a.dialect.languageOf? ⟨"", names⟩).isSome = true

/-- When nothing is stored, everything is scanned. -/
theorem Visit.isFull_empty (v : Visit) : v.IsFull {} := isFull_iff.mpr (.inr (.inl rfl))

/-- The names of a file below the directory that is visited. -/
def Visit.relative (v : Visit) (file : String) : List String :=
  (Path.parse file).names.drop (Path.parse v.path).names.length

namespace Indexer

variable {v : Visit} {t : FileTree}

/-- The files that a run works on, by their names below the directory. -/
def relativePaths (x : Indexer) (v : Visit) (db : Database) : List (List String) :=
  (x.workPaths v db).map v.relative

section Fresh

variable (a : Analyzer) (model : Option Model)
  (hfind : v.workspace.tree.find? (.parse v.path) = some t) (hdir : t.isDir = true)
  (hwell : t.wellFormed = true)

include hfind hwell

/-- What a full scan comes upon, by its names below the directory. -/
theorem mem_lookedAt {q : Path} {b : ByteArray} :
    (q, b) ∈ lookedAt v.workspace.tree (.parse v.path) ↔
      ∃ names, names ≠ [] ∧ q = (Path.parse v.path).below names ∧
        t.get? names = some (.file b) ∧ (Path.parse v.path).isHidden = false ∧
        (⟨"", names⟩ : Path).isHidden = false := by
  rw [lookedAt, hfind, Option.getD_some, List.mem_filter, FileTree.mem_filesBelow hwell,
    Bool.not_eq_true']
  constructor
  · rintro ⟨⟨names, hne, rfl, hget⟩, hshown⟩
    rw [Path.isHidden_below, Bool.or_eq_false_iff] at hshown
    exact ⟨names, hne, rfl, hget, hshown⟩
  · rintro ⟨names, hne, rfl, hget, hshown⟩
    refine ⟨⟨names, hne, rfl, hget⟩, ?_⟩
    rw [Path.isHidden_below, Bool.or_eq_false_iff]
    exact hshown

/-- The path of a file in a directory reads as its names below the path of the directory. -/
theorem parse_below_of_get? {names : List String} {u : FileTree} (hget : t.get? names = some u) :
    Path.parse ((Path.parse v.path).below names).toString = (Path.parse v.path).below names :=
  FileTree.parse_below (FileTree.root_of_find? hfind) (FileTree.wellFormed_get? hwell hget).2

include hdir

/-- When nothing is stored, the files of a directory are worked on that are to be chosen by their
names in it, and none at all if the path of the directory is hidden. -/
theorem mem_relativePaths_fresh {names : List String} :
    names ∈ (ofAnalyzer a model).relativePaths v {} ↔
      (Path.parse v.path).isHidden = false ∧ a.Selects t names := by
  have hfull : v.IsFull {} := v.isFull_empty
  -- a path below the root gives the names back and has the language that the names have
  have hrelative : ∀ {names : List String} {u : FileTree}, t.get? names = some u →
      v.relative ((Path.parse v.path).below names).toString = names := by
    intro names u hget
    rw [Visit.relative, parse_below_of_get? hfind hwell hget, Path.below, List.drop_left]
  have hlanguage : ∀ {names : List String} {u : FileTree}, names ≠ [] → t.get? names = some u →
      (ofAnalyzer a model).languageOf? ((Path.parse v.path).below names).toString
        = a.dialect.languageOf? ⟨"", names⟩ := by
    intro names u hne hget
    show a.dialect.languageOf? _ = _
    rw [parse_below_of_get? hfind hwell hget, Dialect.languageOf?_below _ _ hne]
  rw [relativePaths, List.mem_map]
  constructor
  · rintro ⟨file, hmem, rfl⟩
    obtain ⟨-, -, q, b, hlooked, rfl, hlang, -⟩ := (mem_workPaths_full hfull).mp hmem
    obtain ⟨names, hne, rfl, hget, hroot, hshown⟩ := (mem_lookedAt hfind hwell).mp hlooked
    rw [hrelative hget]
    rw [hlanguage hne hget] at hlang
    exact ⟨hroot, ⟨b, hget⟩, hshown, hlang⟩
  · rintro ⟨hroot, ⟨b, hget⟩, hshown, hlang⟩
    have hne : names ≠ [] := by
      rintro rfl
      obtain rfl : t = .file b := Option.some.inj hget
      exact absurd hdir (by simp [FileTree.isDir])
    refine ⟨_, (mem_workPaths_full hfull).mpr ⟨⟨⟨t, hfind, hdir⟩, rfl, List.not_mem_nil⟩,
      List.not_mem_nil, _, b, ?_, rfl, ?_, rfl⟩, hrelative hget⟩
    · exact (mem_lookedAt hfind hwell).mpr ⟨names, hne, rfl, hget, hroot, hshown⟩
    · rw [hlanguage hne hget]
      exact hlang

end Fresh

/-- The same tree in two places, each scanned in full into an empty database: what is worked on
depends on the place only by whether its path is hidden. The two sets of files are the same if and
only if both places are hidden or none of them is, or if there is nothing to choose in the tree. -/
theorem relativePaths_moved_iff (a : Analyzer) (model : Option Model) {v v' : Visit} {t : FileTree}
    (hfind : v.workspace.tree.find? (.parse v.path) = some t)
    (hfind' : v'.workspace.tree.find? (.parse v'.path) = some t)
    (hdir : t.isDir = true) (hwell : t.wellFormed = true) :
    let x := ofAnalyzer a model
    v.IsFull {} ∧ v'.IsFull {} ∧
      (∀ names, names ∈ x.relativePaths v {} ↔
        (Path.parse v.path).isHidden = false ∧ a.Selects t names) ∧
      ((∀ names, names ∈ x.relativePaths v {} ↔ names ∈ x.relativePaths v' {}) ↔
        (Path.parse v.path).isHidden = (Path.parse v'.path).isHidden ∨
          ∀ names, ¬a.Selects t names) ∧
      ∀ r : Path, (∀ f : Path, f.root = "" → (r.append f).isHidden = f.isHidden) ↔
        r.isHidden = false := by
  intro x
  have hmem : ∀ names, names ∈ x.relativePaths v {} ↔ _ :=
    fun names => mem_relativePaths_fresh a model hfind hdir hwell
  have hmem' : ∀ names, names ∈ x.relativePaths v' {} ↔ _ :=
    fun names => mem_relativePaths_fresh a model hfind' hdir hwell
  refine ⟨v.isFull_empty, v'.isFull_empty, hmem, ?_, Path.isHidden_append_eq_iff⟩
  simp only [hmem, hmem']
  constructor
  · intro h
    by_cases hsome : ∃ names, a.Selects t names
    · -- a file that is to be chosen tells whether the places are hidden
      obtain ⟨names, hselects⟩ := hsome
      have hboth := h names
      simp only [hselects, and_true] at hboth
      exact .inl (Bool.eq_iff_iff.mpr (by simpa using not_congr hboth))
    · exact .inr fun names hselects => hsome ⟨names, hselects⟩
  · rintro (hsame | hnone) names
    · rw [hsame]
    · simp only [hnone names, and_false]

/-- A file with one table, in a directory of some name. -/
def tableIn (name : String) : Visit where
  workspace := { tree := .dir [(name, .dir [("a.toml", .file "[first]\n".toUTF8)])] }
  path := name
  project := "p"

/-- Between two directories that are shown the place makes no difference. -/
theorem relativePaths_moved_iff_shown :
    let x := ofAnalyzer settings none
    (∀ names, names ∈ x.relativePaths (tableIn "app") {} ↔
        names ∈ x.relativePaths (tableIn "lib") {}) ∧
      ["a.toml"] ∈ x.relativePaths (tableIn "lib") {} := by
  have happ : Path.parse "app" = ⟨"", ["app"]⟩ := by decide
  have hlib : Path.parse "lib" = ⟨"", ["lib"]⟩ := by decide
  have hfind : (tableIn "app").workspace.tree.find? (.parse (tableIn "app").path)
      = some (.dir [("a.toml", .file "[first]\n".toUTF8)]) := by
    rw [tableIn, happ]
    rfl
  have hfind' : (tableIn "lib").workspace.tree.find? (.parse (tableIn "lib").path)
      = some (.dir [("a.toml", .file "[first]\n".toUTF8)]) := by
    rw [tableIn, hlib]
    rfl
  obtain ⟨-, -, hmem, -⟩ := relativePaths_moved_iff settings none hfind' hfind rfl (by decide)
  obtain ⟨-, -, -, hsame, -⟩ := relativePaths_moved_iff settings none hfind hfind' rfl (by decide)
  refine ⟨hsame.mpr (.inl ?_), (hmem ["a.toml"]).mpr ⟨?_, ⟨_, rfl⟩, ?_, ?_⟩⟩ <;> decide

/-- The same directory is indexed in one place and passed over in another: a place for temporary
files is hidden. -/
theorem relativePaths_differ :
    let x := ofAnalyzer settings none
    (tableIn "app").workspace.tree.find? (.parse "app")
        = (tableIn "tmp").workspace.tree.find? (.parse "tmp") ∧
      x.relativePaths (tableIn "app") {} = [["a.toml"]] ∧
      x.relativePaths (tableIn "tmp") {} = [] ∧
      ((Path.parse "tmp").append (.parse "a.toml")).isHidden ≠ (Path.parse "a.toml").isHidden := by
  have happ : Path.parse "app" = ⟨"", ["app"]⟩ := by decide
  have htmp : Path.parse "tmp" = ⟨"", ["tmp"]⟩ := by decide
  refine ⟨?_, ?_⟩
  · rw [happ, htmp]
    rfl
  · decide +kernel

/-! ## Scans for changes -/

/-- What a full scan works on is shown. A hidden file is worked on if and only if the run is a scan
for changes, and the file has changed since the last scan, exists and has a language. So a run works
on shown files only, if and only if no hidden file is among those. -/
theorem workPaths_hidden_iff (x : Indexer) (v : Visit) (db : Database)
    (hwell : v.workspace.tree.wellFormed = true) :
    let changed := fun file => v.Changed db file ∧ (v.read? file).isSome = true ∧
      (x.languageOf? file).isSome = true
    (∀ file, (Path.parse file).isHidden = true →
        (file ∈ x.workPaths v db ↔ v.Starts db ∧ ¬v.IsFull db ∧ changed file)) ∧
      ((∀ file ∈ x.workPaths v db, (Path.parse file).isHidden = false) ↔
        (v.Starts db → v.IsFull db ∨
          ∀ file, changed file → (Path.parse file).isHidden = false)) := by
  intro changed
  -- a full scan looks at shown files only
  have hfull : v.IsFull db → ∀ file ∈ x.workPaths v db, (Path.parse file).isHidden = false := by
    intro hfull file hmem
    obtain ⟨hstarts, -, q, b, hlooked, rfl, -⟩ := (mem_workPaths_full hfull).mp hmem
    obtain ⟨t, hfind, -⟩ := hstarts.isDirectory
    have ht := FileTree.wellFormed_of_find? hwell hfind
    obtain ⟨names, -, rfl, hget, hroot, hshown⟩ := (mem_lookedAt hfind ht).mp hlooked
    rw [parse_below_of_get? hfind ht hget, Path.isHidden_below, hroot, hshown]
    rfl
  refine ⟨?_, ?_⟩
  · intro file hhidden
    by_cases hmode : v.IsFull db
    · refine iff_of_false (fun hmem => ?_) (fun h => h.2.1 hmode)
      rw [hfull hmode file hmem] at hhidden
      exact absurd hhidden (by simp)
    · rw [mem_workPaths_changed hmode]
      exact ⟨fun h => ⟨h.1, hmode, h.2⟩, fun h => ⟨h.1, h.2.2⟩⟩
  · constructor
    · intro hshown hstarts
      refine or_iff_not_imp_left.mpr fun hmode file hchanged => ?_
      exact hshown file ((mem_workPaths_changed hmode).mpr ⟨hstarts, hchanged⟩)
    · intro h file hmem
      rcases h (mem_workPaths.mp hmem).1 with hmode | hshown
      · exact hfull hmode file hmem
      · by_cases hmode : v.IsFull db
        · exact hfull hmode file hmem
        · exact hshown file ((mem_workPaths_changed hmode).mp hmem).2

/-- Of the first files one that is shown is edited, and the hidden one is as it was. -/
def shownEdited : Commit :=
  commitOf "3" (some "1") [(".gitignore", "n.toml\n"), (".h.toml", "[first]\n"),
    ("a.toml", "[new]\n"), ("b.toml", "[kept]\n"), ("c.toml", "[gone]\n")]

/-- The commit with the edited file is checked out. -/
def atShownEdited : Workspace :=
  workspaceOf [fourFiles, shownEdited] shownEdited "n.toml" "[after]\n"

theorem atShownEdited_checkedOut :
    CheckedOut atShownEdited "app" (treeOf shownEdited "n.toml" "[after]\n")
      (repositoryOf [fourFiles, shownEdited] shownEdited) shownEdited :=
  workspaceOf_checkedOut (by decide) rfl (by decide)

/-- The hidden file has not changed, so that the scan for changes works on shown files only. -/
theorem workPaths_hidden_iff_shown :
    let x := ofAnalyzer settings none
    let v : Visit := ⟨atShownEdited, "app", "p"⟩
    let first := (x.run atFour "app" "p" {}).1.db
    ¬v.IsFull first ∧ "app/a.toml" ∈ x.workPaths v first ∧
      ∀ file ∈ x.workPaths v first, (Path.parse file).isHidden = false := by
  intro x v first
  obtain ⟨hstarts, -, hmode, hchanged⟩ := atFour_checkedOut.scans_changes
    (ofAnalyzer_lawful settings none) "p" Database.sound_empty atShownEdited_checkedOut
    (by decide) (by decide)
  obtain ⟨-, hshown⟩ := workPaths_hidden_iff x v first (by decide)
  have htold : "a.toml" ∈ ((repositoryOf [fourFiles, shownEdited] shownEdited).sources
        (treeOf shownEdited "n.toml" "[after]\n") (some fourFiles.id)).paths ∧
      ∀ path ∈ ((repositoryOf [fourFiles, shownEdited] shownEdited).sources
        (treeOf shownEdited "n.toml" "[after]\n") (some fourFiles.id)).paths,
          (Path.parse (ChangeSources.place (.parse "app") path)).isHidden = false := by
    decide +kernel
  have hedited : v.Changed first "app/a.toml" :=
    (hchanged _).mpr ⟨"a.toml", htold.1, by decide⟩
  refine ⟨hmode, (mem_workPaths_changed hmode).mpr ⟨hstarts, hedited, ?_, ?_⟩,
    hshown.mpr fun _ => .inr fun file hfile => ?_⟩
  · decide
  · decide
  · obtain ⟨path, hpath, rfl⟩ := (hchanged file).mp hfile.1
    exact htold.2 path hpath

/-- A hidden file that was edited is worked on at the later commit. -/
theorem hidden_file_worked_on :
    let x := ofAnalyzer settings none
    let v : Visit := ⟨atEdited, "app", "p"⟩
    let first := (x.run atFour "app" "p" {}).1.db
    "app/.h.toml" ∈ x.workPaths v first ∧ (Path.parse "app/.h.toml").isHidden = true := by
  intro x v first
  obtain ⟨hstarts, -, hmode, hchanged⟩ := atFour_checkedOut.scans_changes
    (ofAnalyzer_lawful settings none) "p" Database.sound_empty atEdited_checkedOut
    (by decide) (by decide)
  have hedited : v.Changed first "app/.h.toml" :=
    (hchanged _).mpr ⟨".h.toml", by decide +kernel, by decide⟩
  refine ⟨(mem_workPaths_changed hmode).mpr ⟨hstarts, hedited, ?_, ?_⟩, ?_⟩ <;> decide

end Indexer

end SymbolAtlas
