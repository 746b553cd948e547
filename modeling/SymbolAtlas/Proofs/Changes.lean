/-
  SymbolAtlas.Proofs.Changes: a file that is not told to have changed has not changed.

  Coverage of the four sources of changes: a file that is staged, or that the repository takes in,
  and that is in none of the lists has on disk the content that it had in the earlier commit
  (`unchanged_of_not_mem`). Renamed files are covered as well, since a difference that pairs a file
  that is gone with a new one names both. In the other direction, the lists name only what is
  committed, staged or taken in (`exists_path_of_mem`).
-/

import SymbolAtlas.Proofs.ChangeSources
import SymbolAtlas.Proofs.FileTree

namespace SymbolAtlas

/-- Contents are compared byte by byte. -/
instance lawfulBEqBytes : LawfulBEq ByteArray where
  rfl := fun {x} => beq_self_eq_true x.data
  eq_of_beq h := ByteArray.ext (eq_of_beq (α := Array UInt8) h)

namespace Snapshot

variable {a b : Snapshot} {path : String} {x : ByteArray}

theorem mem_of_get? (h : a.get? path = some x) : (path, x) ∈ a := by
  obtain ⟨⟨p, y⟩, hfind, rfl⟩ := Option.map_eq_some_iff.mp h
  have hp := List.find?_some hfind
  rw [beq_iff_eq] at hp
  obtain rfl : p = path := hp
  exact List.mem_of_find?_eq_some hfind

theorem has_iff : a.has path = true ↔ ∃ x, a.get? path = some x := by
  rw [has, get?, List.any_eq_true]
  constructor
  · rintro ⟨f, hf, hp⟩
    cases hfind : a.find? (·.1 == path) with
    | none => exact absurd hp (by simpa using List.find?_eq_none.mp hfind f hf)
    | some g => exact ⟨g.2, rfl⟩
  · rintro ⟨x, hx⟩
    exact ⟨(path, x), mem_of_get? hx, beq_self_eq_true path⟩

/-- Whether all paths stay in the directory that they start in. -/
def staysBelow (s : Snapshot) : Bool :=
  s.all fun f => (Path.parse f.1).root == "" && !(Path.parse f.1).names.contains ".."

theorem staysBelow_path (h : a.staysBelow = true) (hpath : path ∈ a.map (·.1)) :
    (Path.parse path).root = "" ∧ ∀ n ∈ (Path.parse path).names, FileTree.isName n = true := by
  obtain ⟨f, hf, rfl⟩ := List.mem_map.mp hpath
  have hkeep := List.all_eq_true.mp h f hf
  rw [Bool.and_eq_true, beq_iff_eq, Bool.not_eq_true', List.contains_eq_mem,
    decide_eq_false_iff_not] at hkeep
  refine ⟨hkeep.1, fun n hn => FileTree.isName_iff.mpr ⟨Path.parse_names_plain f.1 n hn, ?_⟩⟩
  rintro rfl
  exact hkeep.2 hn

/-! ## Differences -/

/-- A file that is gone is the first path of some change: of the one that pairs it with a new file,
or of one of its own. -/
theorem moves_first {gone new : Snapshot} (h : (path, x) ∈ gone) :
    ∃ c ∈ moves gone new, c.first = some path := by
  induction new generalizing gone with
  | nil => exact ⟨.of path, List.mem_map.mpr ⟨(path, x), h, rfl⟩, rfl⟩
  | cons f rest ih =>
      obtain ⟨newPath, content⟩ := f
      rw [moves]
      split
      next old _ =>
        by_cases hold : path = old
        · exact ⟨_, List.mem_cons_self, congrArg some hold.symm⟩
        · have hleft : (path, x) ∈ gone.filter (·.1 != old) :=
            List.mem_filter.mpr ⟨h, by simpa using hold⟩
          obtain ⟨c, hc, hfirst⟩ := ih hleft
          exact ⟨c, List.mem_cons_of_mem _ hc, hfirst⟩
      next =>
        obtain ⟨c, hc, hfirst⟩ := ih h
        exact ⟨c, List.mem_cons_of_mem _ hc, hfirst⟩

/-- A file whose content is not the same in a second snapshot is the first path of some change. -/
theorem changes_first_of_mem (hmem : (path, x) ∈ a) (hb : b.get? path ≠ some x) :
    ∃ c ∈ a.changes b, c.first = some path := by
  by_cases hhas : b.has path = true
  · have hedited : (path, x) ∈ a.filter fun f => b.has f.1 && b.get? f.1 != some f.2 :=
      List.mem_filter.mpr ⟨hmem, by simp [hhas, hb]⟩
    exact ⟨.of path, List.mem_append_left _ (List.mem_map.mpr ⟨(path, x), hedited, rfl⟩), rfl⟩
  · have hgone : (path, x) ∈ a.filter fun f => !b.has f.1 :=
      List.mem_filter.mpr ⟨hmem, by simpa using hhas⟩
    obtain ⟨c, hc, hfirst⟩ := moves_first hgone
    exact ⟨c, List.mem_append_right _ hc, hfirst⟩

theorem changes_first (ha : a.get? path = some x) (hb : b.get? path ≠ some x) :
    ∃ c ∈ a.changes b, c.first = some path := changes_first_of_mem (mem_of_get? ha) hb

theorem origin?_mem {gone : Snapshot} {content : ByteArray} {old : String}
    (h : origin? gone path content = some old) : old ∈ gone.map (·.1) := by
  obtain ⟨f, hf, rfl⟩ := Option.map_eq_some_iff.mp h
  have hmem : f ∈ gone.filter fun f => f.2 == content := by
    rw [Option.orElse_eq_orElse, Option.orElse_eq_or] at hf
    rcases Option.or_eq_some_iff.mp hf with hfind | ⟨-, hhead⟩
    · exact List.mem_of_find?_eq_some hfind
    · exact List.mem_of_mem_head? hhead
  exact List.mem_map_of_mem (List.mem_filter.mp hmem).1

/-- The paths of a change that pairs files that are gone with new ones are theirs. -/
theorem moves_paths {gone new : Snapshot} {c : Change} (hc : c ∈ moves gone new)
    (hp : path ∈ c.paths) : path ∈ gone.map (·.1) ∨ path ∈ new.map (·.1) := by
  induction new generalizing gone with
  | nil =>
      obtain ⟨f, hf, rfl⟩ := List.mem_map.mp hc
      obtain rfl : path = f.1 := by simpa [Change.of, Change.paths] using hp
      exact .inl (List.mem_map_of_mem hf)
  | cons f rest ih =>
      obtain ⟨newPath, content⟩ := f
      have hnew : newPath ∈ ((newPath, content) :: rest).map (·.1) := List.mem_cons_self
      rw [moves] at hc
      split at hc
      next old hold =>
        rcases List.mem_cons.mp hc with rfl | hc
        · -- a pair names the file that is gone and the new one
          rcases List.mem_append.mp hp with hp | hp
          · obtain rfl : path = old := by simpa using hp
            exact .inl (origin?_mem hold)
          · obtain rfl : path = newPath := by simpa using hp
            exact .inr hnew
        · refine (ih hc).imp (fun h => ?_) (List.mem_cons_of_mem newPath)
          obtain ⟨g, hg, rfl⟩ := List.mem_map.mp h
          exact List.mem_map_of_mem (List.mem_filter.mp hg).1
      next =>
        rcases List.mem_cons.mp hc with rfl | hc
        · obtain rfl : path = newPath := by simpa [Change.of, Change.paths] using hp
          exact .inr hnew
        · exact (ih hc).imp_right (List.mem_cons_of_mem newPath)

/-- The paths of a change between two snapshots are paths of these. -/
theorem changes_paths {c : Change} (hc : c ∈ a.changes b) (hp : path ∈ c.paths) :
    path ∈ a.map (·.1) ∨ path ∈ b.map (·.1) := by
  have hkept : ∀ {s : Snapshot} {keep : String × ByteArray → Bool},
      path ∈ (s.filter keep).map (·.1) → path ∈ s.map (·.1) := by
    intro s keep h
    obtain ⟨f, hf, rfl⟩ := List.mem_map.mp h
    exact List.mem_map_of_mem (List.mem_filter.mp hf).1
  rcases List.mem_append.mp hc with hc | hc
  · obtain ⟨f, hf, rfl⟩ := List.mem_map.mp hc
    obtain rfl : path = f.1 := by simpa [Change.of, Change.paths] using hp
    exact .inl (List.mem_map_of_mem (List.mem_filter.mp hf).1)
  · exact (moves_paths hc hp).imp hkept hkept

end Snapshot

namespace FileTree

/-! ## Files that are not ignored -/

mutual

/-- A file that is not ignored stands at its place. -/
theorem mem_unignored {t : FileTree} (h : t.wellFormed = true) {lists : List IgnoreList}
    {names place : List String} {b : ByteArray} (hmem : (place, b) ∈ t.unignored lists names) :
    ∃ below, place = names ++ below ∧ t.get? below = some (.file b) := by
  cases t with
  | file c =>
      rw [unignored, List.mem_singleton] at hmem
      obtain ⟨rfl, rfl⟩ := Prod.mk.inj hmem
      exact ⟨[], (List.append_nil _).symm, rfl⟩
  | dir es =>
      have hes : wellFormedEntries es = true := h
      rw [unignored] at hmem
      obtain ⟨n, t, below, hentry, hplace, hget⟩ := mem_unignoredEntries hes hmem
      refine ⟨n :: below, hplace, ?_⟩
      rw [get?, entries, (named?_eq_some hes).mpr hentry, Option.bind_some, hget]

theorem mem_unignoredEntries {es : List (String × FileTree)} (h : wellFormedEntries es = true)
    {lists : List IgnoreList} {names place : List String} {b : ByteArray}
    (hmem : (place, b) ∈ unignoredEntries lists names es) :
    ∃ n t below, (n, t) ∈ es ∧ place = names ++ n :: below ∧ t.get? below = some (.file b) := by
  match es with
  | [] =>
      rw [unignoredEntries] at hmem
      exact absurd hmem List.not_mem_nil
  | (m, t) :: rest =>
      obtain ⟨-, -, ht, hrest⟩ := wellFormedEntries_cons.mp h
      rw [unignoredEntries] at hmem
      rcases List.mem_append.mp hmem with hmem | hmem
      · split at hmem
        · exact absurd hmem List.not_mem_nil
        · obtain ⟨below, hplace, hget⟩ := mem_unignored ht hmem
          rw [List.append_assoc, List.singleton_append] at hplace
          exact ⟨m, t, below, List.mem_cons_self, hplace, hget⟩
      · obtain ⟨n, u, below, hentry, hplace, hget⟩ := mem_unignoredEntries hrest hmem
        exact ⟨n, u, below, List.mem_cons_of_mem _ hentry, hplace, hget⟩

end

end FileTree

namespace Repository

variable {r : Repository} {tree : FileTree}

section Sources

variable {current earlier : Commit} {since : String}

theorem committed_sources (hhead : r.headCommit? = some current)
    (hsince : r.resolve? since = some earlier) :
    (r.sources tree (some since)).committed = some (current.files.changes earlier.files) := by
  simp only [sources, hhead, hsince]
  rfl

theorem untracked_sources (h : isDamaged tree = false) :
    (r.sources tree (some since)).untracked
      = some (((visible tree).filter fun f => !r.staged.has f.1).map (·.1)) := by
  rw [sources, h]
  rfl

theorem staged_sources (h : isDamaged tree = false) (hhead : r.headCommit? = some current) :
    (r.sources tree (some since)).staged = some (r.staged.changes current.files) := by
  rw [sources, h, hhead]
  rfl

theorem unstaged_sources (h : isDamaged tree = false) :
    (r.sources tree (some since)).unstaged = some (r.unstagedChanges tree) := by
  rw [sources, h]
  rfl

end Sources

/-- A file of the working tree that a repository tells nothing of is as it was in the earlier
commit. -/
theorem unchanged_of_not_mem {current earlier : Commit} {since path : String} {root : Path}
    {x : ByteArray} (hdamaged : isDamaged tree = false) (hhead : r.headCommit? = some current)
    (hsince : r.resolve? since = some earlier) (hdisk : onDisk? tree path = some x)
    (hknown : r.staged.has path = true ∨ (visible tree).has path = true)
    (hnot : ChangeSources.place root path
      ∉ (r.sources tree (some since)).allChangedFiles root) :
    earlier.files.get? path = some x := by
  have hstaged : (r.sources tree (some since)).staged = _ := staged_sources hdamaged hhead
  have hunstaged : (r.sources tree (some since)).unstaged = _ := unstaged_sources hdamaged
  -- the file is staged, or it would be told as untracked
  have hhas : r.staged.has path = true := by
    refine Classical.byContradiction fun hno => hnot ?_
    obtain ⟨y, hy⟩ := Snapshot.has_iff.mp (hknown.resolve_left hno)
    refine ChangeSources.mem_of_untracked (untracked_sources hdamaged)
      (List.mem_map.mpr ⟨(path, y), ?_, rfl⟩)
    exact List.mem_filter.mpr ⟨Snapshot.mem_of_get? hy, by simpa using hno⟩
  obtain ⟨y, hy⟩ := Snapshot.has_iff.mp hhas
  -- it is on disk as it is staged
  have hsame : y = x := by
    refine Classical.byContradiction fun hne => hnot ?_
    have hdiffers : (path, y) ∈ r.staged.filter fun f => onDisk? tree f.1 != some f.2 :=
      List.mem_filter.mpr ⟨Snapshot.mem_of_get? hy, by simp [hdisk, Ne.symm hne]⟩
    exact ChangeSources.mem_of_modified hstaged hunstaged
      (List.mem_append_right _ (List.mem_map.mpr ⟨(path, y), hdiffers, rfl⟩)) rfl
  rw [hsame] at hy
  -- it is staged as in the current commit
  have hcurrent : current.files.get? path = some x := by
    refine Classical.byContradiction fun hne => hnot ?_
    obtain ⟨c, hc, hfirst⟩ := Snapshot.changes_first hy hne
    exact ChangeSources.mem_of_modified hstaged hunstaged (List.mem_append_left _ hc) hfirst
  -- it is in the current commit as in the earlier one
  refine Classical.byContradiction fun hne => hnot ?_
  obtain ⟨c, hc, hfirst⟩ := Snapshot.changes_first hcurrent hne
  refine ChangeSources.mem_of_committed (committed_sources hhead hsince) hc
    (List.mem_append_left _ ?_)
  rw [hfirst]
  exact List.mem_singleton_self path

/-- A repository tells only of paths that it keeps or takes in. -/
theorem exists_path_of_mem {current earlier : Commit} {since file : String} {root : Path}
    (hhead : r.headCommit? = some current) (hsince : r.resolve? since = some earlier)
    (h : file ∈ (r.sources tree (some since)).allChangedFiles root) :
    ∃ path, file = ChangeSources.place root path ∧
      (path ∈ current.files.map (·.1) ∨ path ∈ earlier.files.map (·.1) ∨
        path ∈ r.staged.map (·.1) ∨ path ∈ (visible tree).map (·.1)) := by
  obtain ⟨path, hfile, hpath⟩ := ChangeSources.exists_place_of_mem h
  refine ⟨path, hfile, ?_⟩
  rcases hpath with hpath | hpath | hpath
  · rw [committed_sources hhead hsince, Option.getD_some] at hpath
    obtain ⟨c, hc, hpath⟩ := List.mem_flatMap.mp hpath
    exact (Snapshot.changes_paths hc hpath).imp_right .inl
  · -- without its data on what is staged a repository compares commits only
    cases hdamaged : isDamaged tree with
    | true =>
        rw [sources, hdamaged] at hpath
        exact absurd hpath List.not_mem_nil
    | false =>
        rw [untracked_sources hdamaged, Option.getD_some] at hpath
        obtain ⟨f, hf, rfl⟩ := List.mem_map.mp hpath
        exact .inr (.inr (.inr (List.mem_map_of_mem (List.mem_filter.mp hf).1)))
  · cases hdamaged : isDamaged tree with
    | true =>
        rw [sources, hdamaged] at hpath
        exact absurd hpath List.not_mem_nil
    | false =>
        rw [ChangeSources.modifiedPaths, staged_sources hdamaged hhead,
          unstaged_sources hdamaged] at hpath
        obtain ⟨c, hc, hfirst⟩ := List.mem_filterMap.mp hpath
        rcases List.mem_append.mp hc with hc | hc
        · have hpaths : path ∈ c.paths :=
            List.mem_append_left _ (by rw [hfirst]; exact List.mem_singleton_self path)
          rcases Snapshot.changes_paths hc hpaths with hstaged | hcurrent
          · exact .inr (.inr (.inl hstaged))
          · exact .inl hcurrent
        · obtain ⟨f, hf, rfl⟩ := List.mem_map.mp hc
          obtain rfl : f.1 = path := Option.some.inj hfirst
          exact .inr (.inr (.inl (List.mem_map_of_mem (List.mem_filter.mp hf).1)))

/-- What a repository takes in are files of the working tree. -/
theorem mem_visible (hwell : tree.wellFormed = true) {path : String}
    (h : path ∈ (visible tree).map (·.1)) :
    ∃ names b, path = Text.join "/" names ∧ tree.get? names = some (.file b) := by
  obtain ⟨f, hf, rfl⟩ := List.mem_map.mp h
  obtain ⟨⟨names, b⟩, hmem, rfl⟩ := List.mem_map.mp hf
  obtain ⟨below, heq, hget⟩ := FileTree.mem_unignored hwell hmem
  rw [List.nil_append] at heq
  exact ⟨names, b, rfl, heq ▸ hget⟩

end Repository

end SymbolAtlas
