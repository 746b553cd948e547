/-
  SymbolAtlas.Repository.Changes: which files differ from an earlier state.

  Changes come from four sources, and each of them may fail: the difference between two commits, the
  files that are not staged, and what is staged or not yet staged. A source that fails gives
  nothing and leaves the others alone; only the last two fail together.
-/

import SymbolAtlas.Repository.Basic

namespace SymbolAtlas

/-- A difference between two states: the path in the first one and the path in the second one. -/
structure Change where
  first : Option String
  second : Option String
  deriving DecidableEq, Repr

namespace Change

/-- A change that keeps its path. -/
def of (path : String) : Change := ⟨some path, some path⟩

/-- The paths of a change. -/
def paths (c : Change) : List String := c.first.toList ++ c.second.toList

end Change

namespace Snapshot

/-- The last name of a path. -/
def lastName (path : String) : String := (Text.splitAt '/' path).getLastD ""

/-- The file that a new file was before: one of the same content, of the same name if possible. -/
def origin? (gone : Snapshot) (path : String) (content : ByteArray) : Option String :=
  let same := gone.filter fun f => f.2 == content
  ((same.find? fun f => lastName f.1 == lastName path) <|> same.head?).map (·.1)

/-- New files, each with the file that it was before; a file is used up by the first one. Files that
are left over are gone. -/
def moves : Snapshot → Snapshot → List Change
  | gone, [] => gone.map fun f => .of f.1
  | gone, (path, content) :: rest =>
    match origin? gone path content with
    | some old => ⟨some old, some path⟩ :: moves (gone.filter (·.1 != old)) rest
    | none => .of path :: moves gone rest

/-- The difference between two snapshots. -/
def changes (a b : Snapshot) : List Change :=
  let edited := a.filter fun f => b.has f.1 && b.get? f.1 != some f.2
  edited.map (fun f => .of f.1) ++
    moves (a.filter fun f => !b.has f.1) (b.filter fun f => !a.has f.1)

end Snapshot

/-- Where changes come from; none stands for a source that fails. -/
structure ChangeSources where
  /-- between the current commit and an earlier one -/
  committed : Option (List Change)
  untracked : Option (List String)
  /-- between the staged state and the current commit -/
  staged : Option (List Change)
  /-- between the staged state and the working tree -/
  unstaged : Option (List Change)
  /-- the order in which sets of files are told -/
  order : SetOrder := .sorted

namespace ChangeSources

/-- A path of the repository seen from outside. -/
def place (root : Path) (path : String) : String := (root.append (.parse path)).toString

/-- The places of paths, each once. -/
def collect (s : ChangeSources) (root : Path) (paths : List String) : List String :=
  s.order.list (paths.map (place root))

/-- The files that differ between two commits. -/
def changedFiles (s : ChangeSources) (root : Path) : List String :=
  s.collect root ((s.committed.getD []).flatMap Change.paths)

/-- The files that are not staged. -/
def untrackedFiles (s : ChangeSources) (root : Path) : List String :=
  (s.untracked.getD []).map (place root)

/-- The paths of staged and of unstaged changes; none when one of the two fails. -/
def modifiedPaths (s : ChangeSources) : List String :=
  match s.staged, s.unstaged with
  | some a, some b => (a ++ b).filterMap (·.first)
  | _, _ => []

/-- The files with staged or unstaged changes. -/
def modifiedFiles (s : ChangeSources) (root : Path) : List String :=
  s.collect root s.modifiedPaths

/-- The files that differ in any way, each once. -/
def allChangedFiles (s : ChangeSources) (root : Path) : List String :=
  s.order.list (s.changedFiles root ++ s.untrackedFiles root ++ s.modifiedFiles root)

end ChangeSources

namespace Repository

/-- The staged files that differ from the working tree. -/
def unstagedChanges (r : Repository) (tree : FileTree) : List Change :=
  (r.staged.filter fun f => onDisk? tree f.1 != some f.2).map fun f => .of f.1

/-- The place of the data on what is staged, in the working tree. -/
def stagedData : List String := [IgnoreList.repositoryName, "index"]

/-- Whether the data on what is staged are overwritten, so that they cannot be read. -/
def isDamaged (tree : FileTree) : Bool := (tree.get? stagedData).isSome

/-- The changes since a commit, which is the current one unless another one is named. Without a
current commit, or with an unknown one, commits cannot be compared. -/
def sources (r : Repository) (tree : FileTree) (since : Option String) : ChangeSources :=
  let head := r.headCommit?
  let damaged := isDamaged tree
  { committed := do
      let current ← head
      let earlier ← match since with
        | some name => r.resolve? name
        | none => some current
      return current.files.changes earlier.files
    untracked :=
      if damaged then none
      else some (((visible tree).filter fun f => !r.staged.has f.1).map (·.1))
    staged := if damaged then none else head.map fun c => r.staged.changes c.files
    unstaged := if damaged then none else some (r.unstagedChanges tree)
    order := r.order }

end Repository

end SymbolAtlas
