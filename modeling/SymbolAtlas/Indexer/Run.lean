/-
  SymbolAtlas.Indexer.Run: indexing a directory.

  A directory is scanned in full, or only the files of a repository that changed since the commit
  of the last scan. A full scan passes over hidden files and over files whose content is stored
  already. Errors of single files are gathered; any other error ends the run.
-/

import SymbolAtlas.Indexer.File
import SymbolAtlas.Workspace

namespace SymbolAtlas

/-- What the indexer knows of a repository. -/
structure Origin where
  commit : Option String
  branch : Option String
  /-- the files that differ from an earlier commit -/
  changedSince : String → List String

/-- What is known of the repository that a path names. -/
def Workspace.origin? (w : Workspace) (p : Path) : Option Origin :=
  (w.repository? p).map fun r =>
    { commit := r.headCommit?.map (·.id)
      branch := r.currentBranch?
      changedSince := fun since => (r.sources (w.subtree p) (some since)).allChangedFiles p }

namespace Indexer

/-! ## Choosing files -/

/-- The files to work on, and the language of the last file that was looked at. -/
structure Choice where
  files : List String
  language : Option String

/-- The files of a full scan. -/
def scanAll (x : Indexer) (tree : FileTree) (root : Path) (project : String) (db : Database) :
    Database.Result Choice := do
  let found := (((tree.find? root).getD .empty).filesBelow root).filter fun f => !f.1.isHidden
  let files ← found.filterMapM fun (path, bytes) => do
    let path := path.toString
    if (x.languageOf? path).isSome then
      return if ← db.needsUpdate path (Digest.sha256 bytes) project then some path else none
    else return none
  return ⟨files, found.getLast?.bind fun f => x.languageOf? f.1.toString⟩

/-- The files of a scan for changes. -/
def scanChanged (x : Indexer) (tree : FileTree) (changed : List String) : Choice :=
  let found := changed.filter fun path => (tree.read? (.parse path)).isSome
  ⟨found.filter fun path => (x.languageOf? path).isSome, found.getLast?.bind x.languageOf?⟩

/-! ## Reports -/

/-- The result of a run. -/
structure Report where
  project : String
  success : Bool := false
  isRepository : Bool := false
  commit : Option String := none
  branch : Option String := none
  /-- commit and branch of the last scan before -/
  lastCommit : Option String := none
  lastBranch : Option String := none
  processed : Nat := 0
  added : Nat := 0
  errors : List String := []
  stats : Option Stats := none
  error : Option String := none

/-- The report of a run that failed. -/
def Report.failure (project message : String) : Report :=
  { project, errors := [message], error := some message }

/-- The state during and after a run. -/
structure Progress where
  db : Database
  added : Nat := 0
  processed : Nat := 0
  errors : List String := []
  seen : List String := []
  events : List Event := []

namespace Progress

/-- Adds events. -/
def tell (s : Progress) (events : List Event) : Progress :=
  { s with events := s.events ++ events }

end Progress

/-! ## Files one after another -/

/-- How far the work is before the file of an index, between ten and ninety of a hundred. -/
def percentAt (i n : Nat) : Nat := 10 + (Float.ofNat i / Float.ofNat n * 80.0).toUInt64.toNat

/-- Works on a file. -/
def processFile (x : Indexer) (tree : FileTree) (project : String) (language : Option String)
    (n : Nat) (s : Progress) (item : String × Nat) : Progress :=
  let (path, i) := item
  let s := s.tell
    [.info ("Processing file " ++ toString (i + 1) ++ "/" ++ toString n ++ ": " ++
      (Path.parse path).name), .progress (percentAt i n)]
  let o := x.indexFile project language path (tree.read? (.parse path)) s.db
  { s with
    db := o.db
    added := s.added + o.added
    processed := s.processed + if o.processed then 1 else 0
    errors := s.errors ++ o.error.toList.map fun e => "Error processing " ++ path ++ ": " ++ e
    seen := s.seen ++ o.seen }

/-- Works on all chosen files. -/
def processFiles (x : Indexer) (tree : FileTree) (project : String) (c : Choice) (s : Progress) :
    Progress :=
  c.files.zipIdx.foldl (x.processFile tree project c.language c.files.length) s

/-! ## A run -/

/-- Reads the commit and the branch of the last scan and stores the project. -/
def register (root : Path) (project : String) (origin : Option Origin) (db : Database) :
    Database.Result (Database × Option String × Option String) := do
  let known ← db.projectInfo project
  let (db, _) ← db.putProject
    { project, name := some root.name, path := root.toString
      isRepository := some (.int (if origin.isSome then 1 else 0))
      commit := origin.bind (·.commit), branch := origin.bind (·.branch) }
  return (db, known.bind (·.commit), known.bind (·.branch))

/-- The commit to compare with, when only changes are scanned: there was a scan of another
commit. -/
def baseline? (origin : Option Origin) (lastCommit : Option String) : Option (Origin × String) := do
  let o ← origin
  let last ← lastCommit
  if last ≠ "" ∧ o.commit ≠ some last then some (o, last) else none

/-- Chooses the files of a run and tells how. -/
def choose (x : Indexer) (tree : FileTree) (root : Path) (project : String)
    (origin : Option Origin) (lastCommit : Option String) (db : Database) :
    Event × Database.Result Choice :=
  match baseline? origin lastCommit with
  | some (o, last) =>
    (.info "Git repository detected - performing incremental scan",
      .ok (x.scanChanged tree (o.changedSince last)))
  | none => (.info "Performing full scan of codebase", x.scanAll tree root project db)

/-- Notes the scan and counts what is stored. -/
def finish (project : String) (origin : Option Origin) (db : Database) :
    Database × Database.Result Stats :=
  match origin with
  | none => (db, db.stats (Store.filterOf project))
  | some o =>
    match db.noteScan project o.commit o.branch with
    | .error e => (db, .error e)
    | .ok db => (db, db.stats (Store.filterOf project))

/-- A run that fails for a reason of the database. -/
def failWith (s : Progress) (project : String) (e : DatabaseError) : Progress × Report :=
  (s, .failure project e.message)

/-- Indexes a directory that is there. -/
def runIn (x : Indexer) (tree : FileTree) (path project : String) (origin : Option Origin)
    (db : Database) : Progress × Report :=
  let root := Path.parse path
  match register root project origin db with
  | .error e => failWith { db } project e
  | .ok (db, lastCommit, lastBranch) =>
    let (mode, choice) := x.choose tree root project origin lastCommit db
    let s := Progress.tell { db } [.info ("Discovering files in " ++ path), .progress 0, mode]
    match choice with
    | .error e => failWith s project e
    | .ok c =>
      let s := s.tell
        [.info ("Found " ++ toString c.files.length ++ " files to process"), .progress 10]
      let s := (x.processFiles tree project c s).tell [.info "Finalizing indexing...", .progress 90]
      let (db, stats) := finish project origin s.db
      let s := { s with db }
      match stats with
      | .error e => failWith s project e
      | .ok stats =>
        (s.tell [.info ("Indexing completed: " ++ toString s.processed ++ " files, " ++
            toString s.added ++ " symbols"), .progress 100],
          { project, success := true, isRepository := origin.isSome
            commit := origin.bind (·.commit), branch := origin.bind (·.branch)
            lastCommit, lastBranch, processed := s.processed, added := s.added
            errors := s.errors, stats := some stats })

/-- Indexes what a path names, which must be a directory. -/
def run (x : Indexer) (w : Workspace) (path project : String) (db : Database) :
    Progress × Report :=
  match w.tree.find? (.parse path) with
  | none => ({ db }, .failure project ("Path does not exist: " ++ path))
  | some t =>
    if t.isDir then x.runIn w.tree path project (w.origin? (.parse path)) db
    else ({ db }, .failure project ("Path is not a directory: " ++ path))

end Indexer

end SymbolAtlas
