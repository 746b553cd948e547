/-
  SymbolAtlas.Proofs.Differences: what a repository tells to have changed, path by path.

  The four sources of changes together tell a path if and only if it is not the same in the two
  commits that are compared, or it is not settled in the current one (`mem_paths_iff`). The first
  needs both commits, and the second needs the data on what is staged.
-/

import SymbolAtlas.Proofs.Changes

namespace SymbolAtlas

namespace Snapshot

variable {a b : Snapshot} {path : String}

/-- The first path of a change that pairs files is that of a file that is gone, unless a new file
stands for itself. -/
theorem first_of_mem_moves {gone new : Snapshot} {c : Change} (hc : c ∈ moves gone new)
    (hfirst : c.first = some path) :
    path ∈ gone.map (·.1) ∨ path ∈ new.map (·.1) ∧ c = .of path := by
  induction new generalizing gone with
  | nil =>
      obtain ⟨f, hf, rfl⟩ := List.mem_map.mp hc
      obtain rfl : f.1 = path := Option.some.inj hfirst
      exact .inl (List.mem_map_of_mem hf)
  | cons f rest ih =>
      obtain ⟨newPath, content⟩ := f
      rw [moves] at hc
      split at hc
      next old hold =>
        rcases List.mem_cons.mp hc with rfl | hc
        · obtain rfl : old = path := Option.some.inj hfirst
          exact .inl (origin?_mem hold)
        · rcases ih hc with hgone | ⟨hnew, hof⟩
          · obtain ⟨g, hg, rfl⟩ := List.mem_map.mp hgone
            exact .inl (List.mem_map_of_mem (List.mem_filter.mp hg).1)
          · exact .inr ⟨List.mem_cons_of_mem newPath hnew, hof⟩
      next =>
        rcases List.mem_cons.mp hc with rfl | hc
        · obtain rfl : newPath = path := Option.some.inj hfirst
          exact .inr ⟨List.mem_cons_self, rfl⟩
        · exact (ih hc).imp_right (And.imp_left (List.mem_cons_of_mem newPath))

/-- The paths of the files of one snapshot that another one does not have. -/
theorem mem_paths_without_iff :
    path ∈ (a.filter fun f => !b.has f.1).map (·.1) ↔ a.has path = true ∧ b.has path = false := by
  rw [List.mem_map]
  constructor
  · rintro ⟨f, hf, rfl⟩
    obtain ⟨hmem, hnot⟩ := List.mem_filter.mp hf
    exact ⟨List.any_eq_true.mpr ⟨f, hmem, beq_self_eq_true f.1⟩, by simpa using hnot⟩
  · rintro ⟨hhas, hnot⟩
    obtain ⟨x, hx⟩ := has_iff.mp hhas
    exact ⟨(path, x), List.mem_filter.mpr ⟨mem_of_get? hx, by simpa using hnot⟩, rfl⟩

/-- A file that only the first snapshot has does not have its content in the second one. -/
theorem exists_mem_of_without (h : a.has path = true ∧ b.has path = false) :
    ∃ x, (path, x) ∈ a ∧ b.get? path ≠ some x := by
  obtain ⟨x, hx⟩ := has_iff.mp h.1
  refine ⟨x, mem_of_get? hx, fun hget => ?_⟩
  have hhas := has_iff.mpr ⟨x, hget⟩
  rw [h.2] at hhas
  exact absurd hhas (by simp)

/-- The first paths of the changes between two snapshots: the files of the first one whose content
is not the same in the second one, and files of the second one alone that stand for themselves. -/
theorem exists_change_first_iff :
    (∃ c ∈ a.changes b, c.first = some path) ↔
      (∃ x, (path, x) ∈ a ∧ b.get? path ≠ some x) ∨
        a.has path = false ∧ Change.of path ∈ a.changes b := by
  constructor
  · rintro ⟨c, hc, hfirst⟩
    rcases List.mem_append.mp hc with hedited | hmoved
    · obtain ⟨f, hf, rfl⟩ := List.mem_map.mp hedited
      obtain rfl : f.1 = path := Option.some.inj hfirst
      obtain ⟨hmem, hdiffers⟩ := List.mem_filter.mp hf
      rw [Bool.and_eq_true, bne_iff_ne] at hdiffers
      exact .inl ⟨f.2, hmem, hdiffers.2⟩
    · rcases first_of_mem_moves hmoved hfirst with hgone | ⟨hnew, rfl⟩
      · exact .inl (exists_mem_of_without (mem_paths_without_iff.mp hgone))
      · exact .inr ⟨(mem_paths_without_iff.mp hnew).2, hc⟩
  · rintro (⟨x, hmem, hdiffers⟩ | ⟨-, hof⟩)
    · exact changes_first_of_mem hmem hdiffers
    · exact ⟨_, hof, rfl⟩

/-- Whether a path is not the same in two snapshots: its content is another one, or one of them does
not have it. -/
def Differs (a b : Snapshot) (path : String) : Prop :=
  (∃ x, (path, x) ∈ a ∧ b.get? path ≠ some x) ∨ a.has path = false ∧ b.has path = true

/-- A new file is in a change: in one that pairs it with a file that is gone, or in its own one. -/
theorem mem_paths_of_new {gone new : Snapshot} (h : path ∈ new.map (·.1)) :
    ∃ c ∈ moves gone new, path ∈ c.paths := by
  induction new generalizing gone with
  | nil => exact absurd h List.not_mem_nil
  | cons f rest ih =>
      obtain ⟨newPath, content⟩ := f
      rw [moves]
      rcases List.mem_cons.mp h with rfl | hrest
      · split
        · exact ⟨_, List.mem_cons_self, List.mem_append_right _ (List.mem_singleton_self _)⟩
        · exact ⟨_, List.mem_cons_self, List.mem_append_left _ (List.mem_singleton_self _)⟩
      · split
        all_goals
          obtain ⟨c, hc, hpath⟩ := ih hrest
          exact ⟨c, List.mem_cons_of_mem _ hc, hpath⟩

/-- The changes between two snapshots are about the paths that are not the same in both. -/
theorem mem_changes_paths_iff :
    path ∈ (a.changes b).flatMap Change.paths ↔ a.Differs b path := by
  rw [List.mem_flatMap]
  constructor
  · rintro ⟨c, hc, hpath⟩
    rcases List.mem_append.mp hc with hedited | hmoved
    · obtain ⟨f, hf, rfl⟩ := List.mem_map.mp hedited
      obtain rfl : path = f.1 := by simpa [Change.of, Change.paths] using hpath
      obtain ⟨hmem, hdiffers⟩ := List.mem_filter.mp hf
      rw [Bool.and_eq_true, bne_iff_ne] at hdiffers
      exact .inl ⟨f.2, hmem, hdiffers.2⟩
    · rcases moves_paths hmoved hpath with hgone | hnew
      · exact .inl (exists_mem_of_without (mem_paths_without_iff.mp hgone))
      · exact .inr (mem_paths_without_iff.mp hnew).symm
  · rintro (⟨x, hmem, hdiffers⟩ | ⟨hnot, hhas⟩)
    · obtain ⟨c, hc, hfirst⟩ := changes_first_of_mem hmem hdiffers
      refine ⟨c, hc, List.mem_append_left _ ?_⟩
      rw [hfirst]
      exact List.mem_singleton_self path
    · obtain ⟨c, hc, hpath⟩ := mem_paths_of_new (mem_paths_without_iff.mpr ⟨hhas, hnot⟩)
      exact ⟨c, List.mem_append_right _ hc, hpath⟩

end Snapshot

namespace Repository

/-- Whether a path is not settled in the current commit: it is on disk and not staged, it is staged
with a content that is not the one on disk or not the one in the commit, or it is in the commit and
not staged any more, and no staged file passes for it. -/
inductive Unsettled (r : Repository) (tree : FileTree) (path : String) : Prop where
  | untracked (hseen : (visible tree).has path = true) (hstaged : r.staged.has path = false)
  | unstaged {c : Commit} {b : ByteArray} (hhead : r.headCommit? = some c)
      (hstaged : (path, b) ∈ r.staged) (hdisk : onDisk? tree path ≠ some b)
  | staged {c : Commit} {b : ByteArray} (hhead : r.headCommit? = some c)
      (hstaged : (path, b) ∈ r.staged) (hcommit : c.files.get? path ≠ some b)
  | withdrawn {c : Commit} (hhead : r.headCommit? = some c) (hstaged : r.staged.has path = false)
      (hcommit : Change.of path ∈ r.staged.changes c.files)

variable {r : Repository} {tree : FileTree} {since path : String}

theorem exists_unstaged_iff :
    (∃ c ∈ r.unstagedChanges tree, c.first = some path) ↔
      ∃ b, (path, b) ∈ r.staged ∧ onDisk? tree path ≠ some b := by
  constructor
  · rintro ⟨c, hc, hfirst⟩
    obtain ⟨f, hf, rfl⟩ := List.mem_map.mp hc
    obtain rfl : f.1 = path := Option.some.inj hfirst
    obtain ⟨hmem, hdisk⟩ := List.mem_filter.mp hf
    exact ⟨f.2, hmem, by simpa using hdisk⟩
  · rintro ⟨b, hmem, hdisk⟩
    exact ⟨_, List.mem_map.mpr ⟨(path, b), List.mem_filter.mpr ⟨hmem, by simpa using hdisk⟩, rfl⟩,
      rfl⟩

/-- What staged and unstaged changes tell. Without a current commit they tell nothing. -/
theorem mem_modifiedPaths_iff (hintact : isDamaged tree = false) :
    path ∈ (r.sources tree (some since)).modifiedPaths ↔
      ∃ c, r.headCommit? = some c ∧
        ((∃ change ∈ r.staged.changes c.files, change.first = some path) ∨
          ∃ change ∈ r.unstagedChanges tree, change.first = some path) := by
  cases hhead : r.headCommit? with
  | none =>
      have hstaged : (r.sources tree (some since)).staged = none := by
        rw [sources, hintact, hhead]
        rfl
      rw [ChangeSources.modifiedPaths, hstaged]
      simp
  | some c =>
      rw [ChangeSources.modifiedPaths, staged_sources hintact hhead, unstaged_sources hintact]
      simp only [List.mem_filterMap, List.mem_append, Option.some.injEq, exists_eq_left',
        or_and_right, exists_or]

/-- What the sources other than the comparison of commits tell. -/
theorem mem_local_paths_iff :
    path ∈ (r.sources tree (some since)).untracked.getD [] ++
        (r.sources tree (some since)).modifiedPaths ↔
      isDamaged tree = false ∧ r.Unsettled tree path := by
  cases hintact : isDamaged tree with
  | true =>
      -- no source is left
      rw [sources, hintact]
      simp [ChangeSources.modifiedPaths]
  | false =>
      rw [List.mem_append, untracked_sources hintact, Option.getD_some,
        Snapshot.mem_paths_without_iff, mem_modifiedPaths_iff hintact]
      simp only [Snapshot.exists_change_first_iff, exists_unstaged_iff, true_and]
      constructor
      · rintro (⟨hseen, hnot⟩ | ⟨c, hhead, (⟨b, hmem, hcommit⟩ | ⟨hnot, hof⟩) | ⟨b, hmem, hdisk⟩⟩)
        · exact .untracked hseen hnot
        · exact .staged hhead hmem hcommit
        · exact .withdrawn hhead hnot hof
        · exact .unstaged hhead hmem hdisk
      · rintro (⟨hseen, hnot⟩ | ⟨hhead, hmem, hdisk⟩ | ⟨hhead, hmem, hcommit⟩ | ⟨hhead, hnot, hof⟩)
        · exact .inl ⟨hseen, hnot⟩
        · exact .inr ⟨_, hhead, .inr ⟨_, hmem, hdisk⟩⟩
        · exact .inr ⟨_, hhead, .inl (.inl ⟨_, hmem, hcommit⟩)⟩
        · exact .inr ⟨_, hhead, .inl (.inr ⟨hnot, hof⟩)⟩

/-- Whether a path has changed since a commit: it is not the same in the current commit, or it is
not settled there. -/
def ChangedSince (r : Repository) (tree : FileTree) (since path : String) : Prop :=
  (∃ current earlier, r.headCommit? = some current ∧ r.resolve? since = some earlier ∧
      current.files.Differs earlier.files path) ∨
    isDamaged tree = false ∧ r.Unsettled tree path

/-- The sources tell the paths that have changed. -/
theorem mem_paths_iff :
    path ∈ (r.sources tree (some since)).paths ↔ r.ChangedSince tree since path := by
  have hcommitted : path ∈ ((r.sources tree (some since)).committed.getD []).flatMap Change.paths ↔
      ∃ current earlier, r.headCommit? = some current ∧ r.resolve? since = some earlier ∧
        current.files.Differs earlier.files path := by
    cases hhead : r.headCommit? with
    | none => simp [sources, hhead]
    | some current =>
        cases hsince : r.resolve? since with
        | none => simp [sources, hhead, hsince]
        | some earlier =>
            rw [committed_sources hhead hsince, Option.getD_some, Snapshot.mem_changes_paths_iff]
            simp
  rw [ChangeSources.paths, List.mem_append, hcommitted, mem_local_paths_iff, ChangedSince]

end Repository

end SymbolAtlas
