/-
  SymbolAtlas.Proofs.History: what is stored after any number of runs.

  Directories are indexed one after another into a database that was empty, and files change between
  the runs as they like. At every moment the symbols of a file in a project all come from one and
  the same content of it (`stored_history`), so that a digest that is found tells that the file need
  not be read again. Hence right after a full scan exactly what its files contain now is stored, of
  the files that were worked on as of those that were passed over (`fullScan_data`). It takes that
  what a file has can be removed.
-/

import SymbolAtlas.Proofs.Run

namespace SymbolAtlas

open SymbolData

/-- A directory that is indexed as a project, with everything around it. -/
structure Visit where
  workspace : Workspace
  path : String
  project : String

namespace Visit

/-- The bytes of a file at the time of a visit. -/
def read? (v : Visit) (file : String) : Option ByteArray := v.workspace.tree.read? (.parse file)

/-- Whether the whole directory is scanned, and not only what changed in a repository. -/
def IsFull (v : Visit) (db : Database) : Prop :=
  Indexer.baseline? (v.workspace.origin? (.parse v.path)) (Indexer.lastCommit? v.project db) = none

/-- What is no repository is scanned as a whole. -/
theorem isFull_of_repository? {v : Visit} (h : v.workspace.repository? (.parse v.path) = none)
    (db : Database) : v.IsFull db := by
  rw [IsFull, Workspace.origin?, h]
  rfl

end Visit

namespace Indexer

variable {x : Indexer}

/-- What is stored after a visit. -/
def visit (x : Indexer) (db : Database) (v : Visit) : Database :=
  (x.run v.workspace v.path v.project db).1.db

/-- What is stored after some visits, from the first on. -/
def history (x : Indexer) (visits : List Visit) : Database := visits.foldl x.visit {}

/-! ## One content of each file -/

/-- A database without faults in which the symbols of each file in each project are those of one
content that the file had at one of the visits. -/
structure Stored (x : Indexer) (visits : List Visit) (db : Database) : Prop where
  sound : db.Sound
  content : ∀ project file, db.store.dataOf project file = [] ∨
    ∃ v ∈ visits,
      db.store.dataOf project file = lastPerKey (x.storable project file (v.read? file))

theorem stored_empty (x : Indexer) : x.Stored [] {} := ⟨.refl _, fun _ _ => .inl rfl⟩

/-- One visit: each file keeps its symbols or gets those of its content at this visit. -/
theorem Stored.visit (hx : x.Lawful) {visits : List Visit} {db : Database}
    (h : x.Stored visits db) (v : Visit) : x.Stored (visits ++ [v]) (x.visit db v) := by
  refine ⟨h.sound.mono (run_sameFaults hx v.workspace v.path v.project db), ?_⟩
  intro project file
  rcases run_data hx h.sound v.workspace v.path v.project project file with hsame | hnew
  · rw [Indexer.visit, hsame]
    refine (h.content project file).imp_right ?_
    rintro ⟨u, hu, hdata⟩
    exact ⟨u, List.mem_append_left [v] hu, hdata⟩
  · exact .inr ⟨v, List.mem_append_right visits (List.mem_singleton_self v), hnew⟩

/-- All visits, by one after another. -/
theorem stored_history (hx : x.Lawful) (visits : List Visit) :
    x.Stored visits (x.history visits) := by
  -- the visits that are done grow at their end, so the statement is about all of them
  have hfold : ∀ (rest done : List Visit) (db : Database), x.Stored done db →
      x.Stored (done ++ rest) (rest.foldl x.visit db) := by
    intro rest
    induction rest with
    | nil =>
        intro done db h
        rw [List.append_nil]
        exact h
    | cons v rest ih =>
        intro done db h
        have hrest := ih (done ++ [v]) (x.visit db v) (h.visit hx v)
        rw [List.append_assoc, List.singleton_append] at hrest
        exact hrest
  exact hfold visits [] {} (stored_empty x)

/-- A digest that is found tells the content, unless another content of the file has it too. -/
theorem Stored.data_of_isCurrent {visits : List Visit} {db : Database} (h : x.Stored visits db)
    {project file : String} {b : ByteArray}
    (hcollision : ∀ v ∈ visits, ∀ b', v.read? file = some b' →
      Digest.sha256 b' = Digest.sha256 b → b' = b)
    (hcurrent : db.store.isCurrent file (Digest.sha256 b) project = true) :
    db.store.dataOf project file = lastPerKey (x.storable project file (some b)) := by
  obtain ⟨d, hd, hdigest⟩ := Store.isCurrent_iff.mp hcurrent
  rcases h.content project file with hempty | ⟨v, hv, hdata⟩
  · rw [hempty] at hd
    exact absurd hd List.not_mem_nil
  · rw [hdata] at hd
    have hfound := storable_digest (lastPerKey_subset hd)
    rw [hdigest] at hfound
    cases hread : v.read? file with
    | none =>
        rw [hread] at hfound
        exact absurd hfound (Digest.sha256_ne_empty b)
    | some b' =>
        rw [hread] at hfound
        obtain rfl := hcollision v hv b' hread hfound.symm
        rw [hdata, hread]

/-! ## Full scans -/

/-- A full scan of a database in which each file has the symbols of one content: a file that can be
cleared or whose content is stored already has the symbols of its content afterwards. -/
theorem fullScan_data (hx : x.Lawful) {visits : List Visit} {db : Database}
    (hdb : x.Stored visits db) {v : Visit} {t : FileTree} {q : Path} {b : ByteArray}
    (hfind : v.workspace.tree.find? (.parse v.path) = some t) (hwell : t.wellFormed = true)
    (hfile : (q, b) ∈ t.filesBelow (.parse v.path)) (hfull : v.IsFull db)
    (hshown : q.isHidden = false) (hlanguage : (x.languageOf? q.toString).isSome = true)
    (hcollision : ∀ u ∈ visits, ∀ b', u.read? q.toString = some b' →
      Digest.sha256 b' = Digest.sha256 b → b' = b)
    (hroom : db.Fits v.project q.toString ∨
      db.store.isCurrent q.toString (Digest.sha256 b) v.project = true) :
    (x.visit db v).store.dataOf v.project q.toString
      = lastPerKey (x.storable v.project q.toString (some b)) := by
  have hdir := FileTree.isDir_of_mem_filesBelow hwell hfile
  have hread := FileTree.read?_of_mem_filesBelow hfind hwell hfile
  have hlooked : (q, b) ∈ lookedAt v.workspace.tree (.parse v.path) := by
    rw [lookedAt, hfind, List.mem_filter]
    exact ⟨hfile, by rw [hshown]; rfl⟩
  rcases fullScan_file hx hdb.sound.clearable (hdb.sound.has .projects) hfind hdir hfull hlooked
    hlanguage with ⟨-, hworked⟩ | ⟨hkept, hrows⟩
  · rw [hread, hdb.sound.filter_admits] at hworked
    exact hworked
  · -- the file was passed over: its digest tells that what is stored is what it contains
    have hcurrent := hkept.elim id fun hcrowded => hroom.resolve_left hcrowded
    rw [← hdb.data_of_isCurrent hcollision hcurrent]
    exact congrArg (List.map fun r : SymbolRow => r.toSymbolData) hrows

/-- An analyzer that knows tables of settings. -/
def settings : Analyzer :=
  { dialect := .code, grammars := ["toml"], query := fun _ => some "(table) @definition.table" }

/-- A working directory with two files, indexed as a project. -/
def twoFiles (first second : String) : Visit where
  workspace := { tree := .dir [("a.toml", .file first.toUTF8), ("b.toml", .file second.toUTF8)] }
  path := "."
  project := "p"

end Indexer

end SymbolAtlas
