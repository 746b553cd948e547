/-
  SymbolAtlas.Proofs.ChangeSources: which files are told to have changed, whichever source fails.

  Each of the four sources gives its changes or fails. A path is told by a source that has not
  failed (`Tells`), where staged and unstaged changes need each other. The list of all changed files
  holds the places of exactly these paths, each once.
-/

import SymbolAtlas.Proofs.Selections
import SymbolAtlas.Repository.Changes

namespace SymbolAtlas

theorem Change.mem_paths {c : Change} {path : String} :
    path ∈ c.paths ↔ c.first = some path ∨ c.second = some path := by
  rw [paths, List.mem_append, Option.mem_toList, Option.mem_toList]

/-! ## Sets -/

theorem SetOrder.mem_list {o : SetOrder} {files : List String} {file : String} :
    file ∈ o.list files ↔ file ∈ files := by
  rw [(o.list_perm files).mem_iff, List.mem_eraseDups]

theorem SetOrder.nodup_list (o : SetOrder) (files : List String) : (o.list files).Nodup :=
  (o.list_perm files).nodup_iff.mpr (nodup_eraseDups files)

namespace ChangeSources

variable {s : ChangeSources} {root : Path} {path file : String}

/-! ## Lists -/

theorem mem_collect {paths : List String} :
    file ∈ s.collect root paths ↔ ∃ path ∈ paths, file = place root path := by
  rw [collect, SetOrder.mem_list, List.mem_map]
  simp only [eq_comm]

theorem mem_untrackedFiles :
    file ∈ s.untrackedFiles root ↔ ∃ path ∈ s.untracked.getD [], file = place root path := by
  rw [untrackedFiles, List.mem_map]
  simp only [eq_comm]

theorem mem_allChangedFiles :
    file ∈ s.allChangedFiles root ↔
      file ∈ s.changedFiles root ∨ file ∈ s.untrackedFiles root ∨ file ∈ s.modifiedFiles root := by
  rw [allChangedFiles, SetOrder.mem_list, List.mem_append, List.mem_append, or_assoc]

/-- No file is told twice. -/
theorem nodup_allChangedFiles (s : ChangeSources) (root : Path) : (s.allChangedFiles root).Nodup :=
  s.order.nodup_list _

/-- The paths that all sources tell, as the repository has them. -/
def paths (s : ChangeSources) : List String :=
  (s.committed.getD []).flatMap Change.paths ++ (s.untracked.getD [] ++ s.modifiedPaths)

/-- What is told are the places of the paths of all sources. -/
theorem mem_allChangedFiles_iff :
    file ∈ s.allChangedFiles root ↔ ∃ path ∈ s.paths, file = place root path := by
  rw [mem_allChangedFiles, changedFiles, modifiedFiles, mem_collect, mem_untrackedFiles,
    mem_collect]
  simp only [paths, List.mem_append, or_and_right, exists_or]

/-- What is told comes from one of the sources. -/
theorem exists_place_of_mem (h : file ∈ s.allChangedFiles root) :
    ∃ path, file = place root path ∧
      (path ∈ (s.committed.getD []).flatMap Change.paths ∨ path ∈ s.untracked.getD [] ∨
        path ∈ s.modifiedPaths) := by
  obtain ⟨path, hpath, rfl⟩ := mem_allChangedFiles_iff.mp h
  rw [paths, List.mem_append, List.mem_append] at hpath
  exact ⟨path, rfl, hpath⟩

/-! ## Sources -/

/-- Whether a path is told: it is on one side of a change between commits, it is not staged, or it
is the first side of a staged or unstaged change. Each source has to give its list for that, and for
the last two both of them have to. -/
inductive Tells (s : ChangeSources) (path : String) : Prop where
  | committed {changes : List Change} {c : Change} (hs : s.committed = some changes)
      (hc : c ∈ changes) (hpath : c.first = some path ∨ c.second = some path)
  | untracked {paths : List String} (hs : s.untracked = some paths) (hpath : path ∈ paths)
  | staged {staged unstaged : List Change} {c : Change} (hs : s.staged = some staged)
      (hu : s.unstaged = some unstaged) (hc : c ∈ staged) (hfirst : c.first = some path)
  | unstaged {staged unstaged : List Change} {c : Change} (hs : s.staged = some staged)
      (hu : s.unstaged = some unstaged) (hc : c ∈ unstaged) (hfirst : c.first = some path)

theorem mem_modifiedPaths_iff :
    path ∈ s.modifiedPaths ↔
      ∃ staged unstaged, s.staged = some staged ∧ s.unstaged = some unstaged ∧
        ∃ c, (c ∈ staged ∨ c ∈ unstaged) ∧ c.first = some path := by
  rw [modifiedPaths]
  cases s.staged with
  | none => simp
  | some staged =>
      cases s.unstaged with
      | none => simp
      | some unstaged => simp [or_and_right, exists_or]

theorem mem_paths_iff_tells : path ∈ s.paths ↔ s.Tells path := by
  rw [paths, List.mem_append, List.mem_append, mem_modifiedPaths_iff]
  constructor
  · rintro (hpath | hpath | ⟨staged, unstaged, hs, hu, c, hc | hc, hfirst⟩)
    · obtain ⟨c, hc, hpath⟩ := List.mem_flatMap.mp hpath
      cases hs : s.committed with
      | none => simp [hs] at hc
      | some changes =>
          rw [hs, Option.getD_some] at hc
          exact .committed hs hc (Change.mem_paths.mp hpath)
    · cases hs : s.untracked with
      | none => simp [hs] at hpath
      | some paths =>
          rw [hs, Option.getD_some] at hpath
          exact .untracked hs hpath
    · exact .staged hs hu hc hfirst
    · exact .unstaged hs hu hc hfirst
  · rintro (⟨hs, hc, hpath⟩ | ⟨hs, hpath⟩ | ⟨hs, hu, hc, hfirst⟩ | ⟨hs, hu, hc, hfirst⟩)
    · rw [hs, Option.getD_some]
      exact .inl (List.mem_flatMap.mpr ⟨_, hc, Change.mem_paths.mpr hpath⟩)
    · rw [hs, Option.getD_some]
      exact .inr (.inl hpath)
    · exact .inr (.inr ⟨_, _, hs, hu, _, .inl hc, hfirst⟩)
    · exact .inr (.inr ⟨_, _, hs, hu, _, .inr hc, hfirst⟩)

theorem Tells.mem (h : s.Tells path) : place root path ∈ s.allChangedFiles root :=
  mem_allChangedFiles_iff.mpr ⟨path, mem_paths_iff_tells.mpr h, rfl⟩

/-- A path of a change between commits is told. -/
theorem mem_of_committed {cs : List Change} (hs : s.committed = some cs) {c : Change} (hc : c ∈ cs)
    (hpath : path ∈ c.paths) : place root path ∈ s.allChangedFiles root :=
  Tells.mem (.committed hs hc (Change.mem_paths.mp hpath))

theorem mem_of_untracked {paths : List String} (hs : s.untracked = some paths)
    (hpath : path ∈ paths) : place root path ∈ s.allChangedFiles root :=
  Tells.mem (.untracked hs hpath)

/-- The first path of a staged or unstaged change is told, unless one of the two sources fails. -/
theorem mem_of_modified {staged unstaged : List Change} (hs : s.staged = some staged)
    (hu : s.unstaged = some unstaged) {c : Change} (hc : c ∈ staged ++ unstaged)
    (hfirst : c.first = some path) : place root path ∈ s.allChangedFiles root := by
  rcases List.mem_append.mp hc with hc | hc
  · exact Tells.mem (.staged hs hu hc hfirst)
  · exact Tells.mem (.unstaged hs hu hc hfirst)

/-! ## Failures -/

theorem not_mem_changedFiles (h : s.committed = none) : file ∉ s.changedFiles root := by
  rw [changedFiles, h, mem_collect]
  simp

theorem not_mem_untrackedFiles (h : s.untracked = none) : file ∉ s.untrackedFiles root := by
  rw [mem_untrackedFiles, h]
  simp

/-- Staged and unstaged changes fail together. -/
theorem not_mem_modifiedFiles (h : s.staged = none ∨ s.unstaged = none) :
    file ∉ s.modifiedFiles root := by
  rw [modifiedFiles, mem_collect]
  rintro ⟨path, hpath, -⟩
  obtain ⟨staged, unstaged, hs, hu, -⟩ := mem_modifiedPaths_iff.mp hpath
  rcases h with h | h
  · exact absurd (h.symm.trans hs) (Option.some_ne_none staged).symm
  · exact absurd (h.symm.trans hu) (Option.some_ne_none unstaged).symm

/-- Whatever the sources give and whichever of them fail: no file is told twice, and a file is told
if and only if it is the place of a path that a source tells. When the changes between commits fail,
or the files that are not staged, the other sources tell what they tell anyway. When the staged or
the unstaged changes fail, both tell nothing, and the other sources tell what they tell anyway. -/
theorem changed_files_exact (s : ChangeSources) (root : Path) :
    (s.allChangedFiles root).Nodup ∧
    (∀ file, file ∈ s.allChangedFiles root ↔ ∃ path, s.Tells path ∧ file = place root path) ∧
    (∀ file, file ∈ ({ s with committed := none }).allChangedFiles root ↔
      file ∈ s.untrackedFiles root ∨ file ∈ s.modifiedFiles root) ∧
    (∀ file, file ∈ ({ s with untracked := none }).allChangedFiles root ↔
      file ∈ s.changedFiles root ∨ file ∈ s.modifiedFiles root) ∧
    (∀ file, file ∈ ({ s with staged := none }).allChangedFiles root ↔
      file ∈ s.changedFiles root ∨ file ∈ s.untrackedFiles root) ∧
    ∀ file, file ∈ ({ s with unstaged := none }).allChangedFiles root ↔
      file ∈ s.changedFiles root ∨ file ∈ s.untrackedFiles root := by
  refine ⟨nodup_allChangedFiles s root, fun file => ?_, fun file => ?_, fun file => ?_,
    fun file => ?_, fun file => ?_⟩
  · rw [mem_allChangedFiles_iff]
    simp only [mem_paths_iff_tells]
  · rw [mem_allChangedFiles]
    exact or_iff_right (not_mem_changedFiles rfl)
  · rw [mem_allChangedFiles]
    exact or_congr_right (or_iff_right (not_mem_untrackedFiles rfl))
  · rw [mem_allChangedFiles]
    exact or_congr_right (or_iff_left (not_mem_modifiedFiles (.inl rfl)))
  · rw [mem_allChangedFiles]
    exact or_congr_right (or_iff_left (not_mem_modifiedFiles (.inr rfl)))

end ChangeSources

end SymbolAtlas
