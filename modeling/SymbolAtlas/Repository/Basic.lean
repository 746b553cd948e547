/-
  SymbolAtlas.Repository.Basic: commits, branches, the staged state, and what is told about them.

  The files of a commit, of the staged state and of a working tree are snapshots: contents by path.
-/

import SymbolAtlas.Repository.Ignore
import SymbolAtlas.Text.Blank
import SymbolAtlas.Value.Basic

namespace SymbolAtlas

/-- Contents by path, each path once. -/
abbrev Snapshot := List (String × ByteArray)

namespace Snapshot

/-- The content of a path. -/
def get? (s : Snapshot) (path : String) : Option ByteArray :=
  (s.find? (·.1 == path)).map (·.2)

/-- Whether a path is there. -/
def has (s : Snapshot) (path : String) : Bool := s.any (·.1 == path)

end Snapshot

/-- A commit. -/
structure Commit where
  id : String
  parent : Option String
  files : Snapshot
  message : String
  author : String
  time : String

/-- An order in which sets of files are told. A set has no order of its own, so this may be any one
that tells each member once. -/
structure SetOrder where
  list : List String → List String
  list_perm : ∀ files, (list files).Perm files.eraseDups

/-- The order of the paths. -/
def SetOrder.sorted : SetOrder where
  list files := files.eraseDups.mergeSort fun a b => !decide (b < a)
  list_perm _ := List.mergeSort_perm _ _

/-- What is checked out: a branch, which may have no commit yet, or a commit. -/
inductive Head where
  | branch (name : String)
  | detached (commit : String)
  deriving DecidableEq, Repr

/-- A repository. -/
structure Repository where
  bare : Bool := false
  commits : List Commit := []
  /-- the commits of branches -/
  branches : List (String × String) := []
  head : Head
  staged : Snapshot := []
  /-- names and addresses of remotes -/
  remotes : List (String × String) := []
  /-- the order in which sets of its files are told -/
  order : SetOrder := .sorted

namespace Repository

/-! ## References -/

/-- The commit of an id. -/
def commit? (r : Repository) (id : String) : Option Commit := r.commits.find? (·.id == id)

/-- The commit of a branch. -/
def branch? (r : Repository) (name : String) : Option Commit :=
  ((r.branches.find? (·.1 == name)).map (·.2)).bind r.commit?

/-- The commit that is checked out. -/
def headCommit? (r : Repository) : Option Commit :=
  match r.head with
  | .branch name => r.branch? name
  | .detached id => r.commit? id

/-- The branch that is checked out. -/
def currentBranch? (r : Repository) : Option String :=
  match r.head with
  | .branch name => some name
  | .detached _ => none

/-- The commit that lies some steps before another one. -/
def ancestor? (r : Repository) (c : Commit) : Nat → Option Commit
  | 0 => some c
  | n + 1 => ((c.parent.bind r.commit?)).bind fun p => r.ancestor? p n

/-- The commit of a name: what is checked out, a branch or an id. -/
def named? (r : Repository) (name : String) : Option Commit :=
  if name = "HEAD" then r.headCommit?
  else
    let branch := (Text.dropPrefix? "refs/heads/" name <|> Text.dropPrefix? "heads/" name).getD name
    r.branch? name <|> r.branch? branch <|> r.commit? name

/-- A number of steps; one when no digits are given. -/
def stepCount? (digits : List Char) : Option Nat :=
  if digits.isEmpty then some 1 else (String.ofList digits).toNat?

/-- Follows marks: a tilde goes some steps back, a circumflex goes to a parent. A commit has one
parent, and its parent zero is itself. -/
def follow? (r : Repository) (c : Commit) : List (Bool × List Char) → Option Commit
  | [] => some c
  | (tilde, digits) :: rest => do
    let n ← stepCount? digits
    if !tilde && n > 1 then none
    (r.ancestor? c n).bind fun p => r.follow? p rest

/-- A name, and the marks after it with their digits; a tilde is true. -/
def splitMarks : List Char → List Char × List (Bool × List Char)
  | [] => ([], [])
  | c :: cs =>
    let (text, marks) := splitMarks cs
    if c = '~' then ([], (true, text) :: marks)
    else if c = '^' then ([], (false, text) :: marks)
    else (c :: text, marks)

/-- The commit of a reference: a name, and how many steps before it. -/
def resolve? (r : Repository) (reference : String) : Option Commit :=
  let (name, marks) := splitMarks reference.toList
  (r.named? (String.ofList name)).bind fun c => r.follow? c marks

/-! ## The working tree -/

/-- The files that a repository takes in. -/
def visible (tree : FileTree) : Snapshot :=
  (tree.unignored [] []).map fun (names, b) => (Text.join "/" names, b)

/-- The content of a file of the working tree. -/
def onDisk? (tree : FileTree) (path : String) : Option ByteArray :=
  (tree.get? (Text.splitAt '/' path)).bind FileTree.bytes?

/-- Whether a path lies at or below another one; a point stands for everything. -/
def isBelow (above path : String) : Bool :=
  let q := Path.parse above
  q.names.isPrefixOf (Path.parse path).names

/-- Stages what lies below some paths as it stands in the working tree. -/
def stage (r : Repository) (tree : FileTree) (paths : List String) : Repository :=
  let within := fun path => paths.any fun above => isBelow above path
  let kept := r.staged.filterMap fun (path, b) =>
    if within path then (onDisk? tree path).map fun b' => (path, b') else some (path, b)
  let new := (visible tree).filter fun f => within f.1 && !r.staged.has f.1
  { r with staged := kept ++ new }

/-- A branch with its commit put in place of the one before. -/
def putBranch (name commit : String) (branches : List (String × String)) :
    List (String × String) :=
  (name, commit) :: branches.filter (·.1 != name)

/-- Lines without blanks at their ends, and never two blank lines in a row. -/
def tidyLines : List String → List String
  | [] => []
  | line :: rest =>
    let line := String.ofList (Text.trimRight line.toList)
    match tidyLines rest with
    | next :: more => if line = "" && next = "" then next :: more else line :: next :: more
    | [] => [line]

/-- A message as it is kept. -/
def tidy (message : String) : String := Text.join "\n" (tidyLines (Text.splitAt '\n' message))

/-- Adds a commit of the staged state. -/
def commit (r : Repository) (id message author time : String) : Repository :=
  let c : Commit :=
    { id, parent := r.headCommit?.map (·.id), files := r.staged
      message := tidy message, author, time }
  let r := { r with commits := r.commits ++ [c] }
  match r.head with
  | .branch name => { r with branches := putBranch name id r.branches }
  | .detached _ => { r with head := .detached id }

/-- Makes a branch at the current commit and switches to it. -/
def switchTo (r : Repository) (name : String) : Repository :=
  { r with
    head := .branch name
    branches := match r.headCommit? with
      | some c => putBranch name c.id r.branches
      | none => r.branches }

/-- Removes a file and the directories that are empty without it. -/
def prune (tree : FileTree) : List String → FileTree
  | [] => tree
  | n :: rest =>
    match tree with
    | .file _ => tree
    | .dir es =>
      match FileTree.named? n es, rest with
      | none, _ => tree
      | some _, [] => .dir (es.filter (·.1 != n))
      | some t, _ :: _ =>
        match prune t rest with
        | .dir [] => .dir (es.filter (·.1 != n))
        | t' => .dir (FileTree.putEntry n t' es)

/-- The working tree after the change from the staged state to the files of a commit; files that
are the same in both stay as they are. -/
def update (staged files : Snapshot) (tree : FileTree) : FileTree :=
  let gone := staged.filter fun f => !files.has f.1
  let new := files.filter fun f => staged.get? f.1 != some f.2
  let tree := gone.foldl (fun t f => prune t (Text.splitAt '/' f.1)) tree
  new.foldl (fun t f => (t.put? (Text.splitAt '/' f.1) (.file f.2)).getD t) tree

/-- Checks a reference out; an unknown one changes nothing. -/
def checkout (r : Repository) (tree : FileTree) (reference : String) : Repository × FileTree :=
  match r.resolve? reference with
  | none => (r, tree)
  | some c =>
    let head :=
      if reference = "HEAD" then r.head
      else if (r.branch? reference).isSome then .branch reference
      else .detached c.id
    ({ r with head, staged := c.files }, update r.staged c.files tree)

/-! ## What is told -/

/-- What is said of a branch that has no commit. -/
def unbornMessage (branch : String) : String :=
  "Reference at 'refs/heads/" ++ branch ++ "' does not exist"

/-- The repository at a path. -/
def info (root : Path) : Option Repository → List (String × Value)
  | none => [("is_git_repo", .bool false), ("path", .text root.toString)]
  | some r =>
    [("is_git_repo", .bool true), ("path", .text root.toString)] ++
      match r.headCommit? with
      | none => [("error", .text (unbornMessage (r.currentBranch?.getD "")))]
      | some c =>
        [("current_commit", .text c.id), ("current_branch", .ofText? r.currentBranch?),
         ("remote_urls", .texts (r.remotes.map (·.2))),
         ("last_commit_message", .text (Text.strip c.message)),
         ("last_commit_author", .text c.author), ("last_commit_date", .text c.time)]

end Repository

end SymbolAtlas
