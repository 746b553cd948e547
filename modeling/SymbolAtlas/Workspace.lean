/-
  SymbolAtlas.Workspace: a tree of files and the repositories in it.

  A repository belongs to the directory that holds its data. It goes and moves with that directory.
-/

import SymbolAtlas.Calendar
import SymbolAtlas.Repository.Changes

namespace SymbolAtlas

/-- Files and repositories. -/
structure Workspace where
  tree : FileTree := .empty
  /-- repositories by their places -/
  repositories : List (List String × Repository) := []
  /-- number of commits made so far, in all repositories -/
  commits : Nat := 0

namespace Workspace

/-- The place that a path names; a path that leaves the tree stays at its root. -/
def place (w : Workspace) (path : String) : List String :=
  (w.tree.resolve? (.parse path)).getD []

/-! ## Files -/

/-- Writes a file and makes the directories above it. -/
def write (w : Workspace) (path : String) (bytes : ByteArray) : Workspace :=
  { w with tree := (w.tree.put? (w.place path) (.file bytes)).getD w.tree }

/-- Makes a directory. -/
def makeDirectory (w : Workspace) (path : String) : Workspace :=
  let place := w.place path
  match w.tree.get? place with
  | some _ => w
  | none => { w with tree := (w.tree.put? place .empty).getD w.tree }

/-- Where a repository keeps its data. -/
def dataPlace (place : List String) (r : Repository) : List String :=
  if r.bare then place else place ++ [IgnoreList.repositoryName]

/-- Removes a file or a directory. Without its data on what is staged, nothing is staged in a
repository. -/
def remove (w : Workspace) (path : String) : Workspace :=
  let gone := w.place path
  { w with
    tree := w.tree.erase gone
    repositories := w.repositories.filterMap fun (place, r) =>
      if gone.isPrefixOf (dataPlace place r) then none
      else if gone = place ++ Repository.stagedData then some (place, { r with staged := [] })
      else some (place, r) }

/-- Moves a file or a directory. -/
def rename (w : Workspace) (source target : String) : Workspace :=
  let old := w.place source
  let new := w.place target
  match w.tree.get? old with
  | none => w
  | some t =>
    { w with
      tree := ((w.tree.erase old).put? new t).getD w.tree
      repositories := w.repositories.map fun (place, r) =>
        if old.isPrefixOf place then (new ++ place.drop old.length, r) else (place, r) }

/-! ## Repositories -/

/-- The repository of a place, bare or not. -/
def repositoryAt? (w : Workspace) (place : List String) : Option Repository :=
  (w.repositories.find? (·.1 == place)).map (·.2)

/-- The repository with a working tree that a path names. -/
def repository? (w : Workspace) (p : Path) : Option Repository :=
  (((w.tree.resolve? p).bind w.repositoryAt?)).filter fun r => !r.bare

/-- The working tree that a path names. -/
def subtree (w : Workspace) (p : Path) : FileTree := (w.tree.find? p).getD .empty

/-- Makes a repository; one that is there already stays as it is. -/
def startRepository (w : Workspace) (path branch : String) (bare : Bool) : Workspace :=
  let w := w.makeDirectory path
  let place := w.place path
  if (w.repositoryAt? place).isSome then w
  else
    let r : Repository := { bare, head := .branch branch }
    let data := dataPlace place r
    { w with
      tree := if (w.tree.get? data).isSome then w.tree
        else (w.tree.put? data .empty).getD w.tree
      repositories := w.repositories ++ [(place, r)] }

/-- Changes a repository and its working tree. -/
def updateRepository (w : Workspace) (path : String)
    (f : Repository → FileTree → Repository × FileTree) : Workspace :=
  let place := w.place path
  match w.repositoryAt? place, w.tree.get? place with
  | some r, some t =>
    let (r, t) := f r t
    { w with
      tree := (w.tree.put? place t).getD w.tree
      repositories := w.repositories.map fun e => if e.1 = place then (place, r) else e }
  | _, _ => w

/-- Stages what lies below some paths. -/
def stage (w : Workspace) (path : String) (paths : List String) : Workspace :=
  w.updateRepository path fun r t => (r.stage t paths, t)

/-- The name of a commit: its number. -/
def commitName (n : Nat) : String := "<commit:" ++ toString n ++ ">"

/-- Commits what is staged, or everything when `all` is set. Commits are a minute apart. -/
def commit (w : Workspace) (path message author : String) (all : Bool) : Workspace :=
  let w := { w with commits := w.commits + 1 }
  let id := commitName w.commits
  w.updateRepository path fun r t =>
    let r := if all then r.stage t ["."] else r
    (r.commit id message author (Calendar.stamp (w.commits - 1)), t)

/-- Makes a branch and switches to it. -/
def switchTo (w : Workspace) (path branch : String) : Workspace :=
  w.updateRepository path fun r t => (r.switchTo branch, t)

/-- Checks a reference out. -/
def checkout (w : Workspace) (path reference : String) : Workspace :=
  w.updateRepository path fun r t => r.checkout t reference

/-- Adds a remote. -/
def addRemote (w : Workspace) (path name address : String) : Workspace :=
  w.updateRepository path fun r t => ({ r with remotes := r.remotes ++ [(name, address)] }, t)

end Workspace

end SymbolAtlas
