/-
  SymbolAtlas.Proofs.CurrentContent: what a full scan leaves of the files that it looks at.

  Directories are indexed one after another into a database that was empty. After a full scan the
  symbols of a file are those of its content now (`fullScan_stores_current_content`), whether the
  file was worked on or passed over. The exception is a file that has got more symbols than values
  can be bound in a statement. They cannot be removed, so that they outlive a change of the file
  (`FullScan.crowded`), as those of a file with very many tables do (`edited_tables_stay`).
-/

import SymbolAtlas.Proofs.Failures

namespace SymbolAtlas

open SymbolData

/-- Whether a full scan can bring the symbols of a file in line with a content: they can be removed,
or they are those of the content. -/
def Database.Renewable (db : Database) (project file : String) (b : ByteArray) : Prop :=
  db.Fits project file ∨ db.store.isCurrent file (Digest.sha256 b) project = true

namespace Indexer

/-- A full scan of a directory that looks at one of its files, which is shown and of a language that
is known. -/
structure FullScan (x : Indexer) (db : Database) (v : Visit) (t : FileTree) (q : Path)
    (b : ByteArray) : Prop where
  full : v.IsFull db
  found : v.workspace.tree.find? (.parse v.path) = some t
  wellFormed : t.wellFormed = true
  file : (q, b) ∈ t.filesBelow (.parse v.path)
  shown : q.isHidden = false
  language : (x.languageOf? q.toString).isSome = true

variable {x : Indexer} {v : Visit} {db : Database}

/-! ## Runs without faults -/

/-- A run over a directory succeeds and tells the entries of those works that fail. -/
theorem run_sound (hx : x.Lawful) (hdb : db.Sound) (hdir : v.IsDirectory) :
    let report := (x.run v.workspace v.path v.project db).2
    report.success = true ∧ report.errors
      = (x.works v db).flatMap fun w => (x.outcome w).error.toList.map (entryOf w.path) := by
  obtain ⟨t, hfind, htree⟩ := hdir
  obtain ⟨c, hchoice⟩ := choice_sound hdb x v.workspace.tree v.path v.project
    (v.workspace.origin? (.parse v.path))
  obtain ⟨hsuccess, herrors⟩ := runIn_sound hx hdb hchoice
  rw [run_of_isDir hfind htree]
  refine ⟨hsuccess, herrors.trans ?_⟩
  rw [worked, processFiles_entries,
    works_of_choice hdb.opens (hdb.has .projects) hfind htree hchoice]
  rfl

theorem sound_before (hx : x.Lawful) (hdb : db.Sound) {w : Work} (hw : w ∈ x.works v db) :
    w.before.Sound :=
  (visit_induction (P := Database.Sound) (fun _ projects h => h.mono (.withProjects _ projects)) hdb
    fun w _ h => h.mono (indexFile_sameFaults hx w.project w.path w.language w.file w.before).1).1
    w hw

namespace FullScan

variable {t : FileTree} {q : Path} {b : ByteArray} (h : x.FullScan db v t q b)

include h

theorem isDirectory : v.IsDirectory :=
  ⟨t, h.found, FileTree.isDir_of_mem_filesBelow h.wellFormed h.file⟩

/-- The symbols of a file before the work on it are those from before the scan. -/
theorem fits_before_iff (hx : x.Lawful) {w : Work} (hw : w ∈ x.works v db) :
    w.before.Fits w.project w.path ↔ db.Fits v.project w.path := by
  have hrows := rowsOf_works hx (nodup_workPaths_full x h.found h.wellFormed h.full) hw v.project
  rw [(of_mem_works hw).1, Database.Fits, Database.Fits, hrows]

/-- A file that has changed and has got too many symbols keeps them, and an error is told. -/
theorem crowded (hx : x.Lawful) (hdb : db.Sound)
    (hcrowded : ¬ db.Renewable v.project q.toString b) :
    let outcome := x.run v.workspace v.path v.project db
    outcome.1.db.store.rowsOf v.project q.toString = db.store.rowsOf v.project q.toString ∧
      entryOf q.toString DatabaseError.tooManyVariables.message ∈ outcome.2.errors := by
  obtain ⟨hfits, hstale⟩ := not_or.mp hcrowded
  refine ⟨run_rows_crowded hx hdb hfits v.workspace v.path, ?_⟩
  have hlooked : (q, b) ∈ lookedAt v.workspace.tree (.parse v.path) := by
    rw [lookedAt, h.found, List.mem_filter]
    exact ⟨h.file, by rw [h.shown]; rfl⟩
  have hmem : q.toString ∈ x.workPaths v db := by
    rw [mem_workPaths_full h.full]
    exact ⟨⟨h.isDirectory, hdb.opens, hdb.has .projects⟩, hdb.has .symbols, q, b, hlooked, rfl,
      h.language, Bool.eq_false_iff.mpr hstale⟩
  obtain ⟨w, hw, hpath⟩ := List.mem_map.mp hmem
  have hrefused : ¬ w.before.Fits w.project w.path := by
    rw [h.fits_before_iff hx hw, hpath]
    exact hfits
  rw [(run_sound hx hdb h.isDirectory).2, ← hpath]
  refine List.mem_flatMap.mpr ⟨w, hw, List.mem_map_of_mem ?_⟩
  rw [outcome, indexFile_crowded (sound_before hx hdb hw).clearable hrefused]
  exact List.mem_singleton_self _

end FullScan

/-- A scan of two files looks at both. -/
theorem fullScan_twoFiles (db : Database) (first second : String) :
    FullScan (ofAnalyzer settings none) db (twoFiles first second)
        (twoFiles first second).workspace.tree ⟨"", ["a.toml"]⟩ first.toUTF8 ∧
      FullScan (ofAnalyzer settings none) db (twoFiles first second)
        (twoFiles first second).workspace.tree ⟨"", ["b.toml"]⟩ second.toUTF8 := by
  have hroot : Path.parse (twoFiles first second).path = ⟨"", []⟩ := by
    show Path.parse "." = _
    decide
  have hfull : (twoFiles first second).IsFull db := by
    apply Visit.isFull_of_repository?
    rw [hroot]
    rfl
  have hfound : (twoFiles first second).workspace.tree.find? (.parse (twoFiles first second).path)
      = some (twoFiles first second).workspace.tree := by
    rw [hroot]
    rfl
  refine ⟨⟨hfull, hfound, rfl, ?_, by decide, by decide⟩,
    ⟨hfull, hfound, rfl, ?_, by decide, by decide⟩⟩
  · rw [hroot]
    exact List.mem_cons_self
  · rw [hroot]
    exact List.mem_cons_of_mem _ List.mem_cons_self

end Indexer

/-! ## Very many tables -/

/-- A number of lines with a table each. -/
def tables (n : Nat) : String := String.ofList (List.replicate n ['[', 't', ']', '\n']).flatten

theorem decode?_tables (n : Nat) : Text.decode? (tables n).toUTF8 = some (tables n) := by
  have hbytes : String.fromUTF8? (tables n).toUTF8 = some (tables n) :=
    dif_pos (tables n).isValidUTF8
  have hfolded : ∀ m, Text.foldLineEnds (List.replicate m ['[', 't', ']', '\n']).flatten
      = (List.replicate m ['[', 't', ']', '\n']).flatten := by
    intro m
    induction m with
    | zero => rfl
    | succ m ih =>
        rw [List.replicate_succ, List.flatten_cons]
        exact congrArg (['[', 't', ']', '\n'] ++ ·) ih
  rw [Text.decode?, hbytes, Option.map_some, tables, String.toList_ofList, hfolded]

theorem lines_tables (n : Nat) : Text.lines (tables n) = List.replicate n "[t]" ++ [""] := by
  rw [Text.lines, Text.splitAt, tables, String.toList_ofList]
  induction n with
  | zero => rfl
  | succ n ih =>
      rw [List.replicate_succ, List.flatten_cons]
      exact congrArg ("[t]" :: ·) ih

/-- What is read on each of the lines; the last one is empty. -/
theorem scanLines_tables {α : Type} {read : Nat → String → List α} (hend : ∀ k, read k "" = [])
    (n : Nat) :
    scanLines read (Text.lines (tables n))
      = (List.range n).flatMap fun i => read (1 + i) "[t]" := by
  have hnumbered : (List.replicate n "[t]").zipIdx 1 = (List.range n).map fun i => ("[t]", 1 + i) :=
    List.ext_getElem (by simp) fun i _ _ => by simp
  rw [lines_tables, scanLines, List.zipIdx_append, hnumbered, List.flatMap_append, List.flatMap_map]
  simp [hend]

/-- The table on one of the lines, counted from zero. -/
def tableOn (src : Source) (i : Nat) : Symbol := src.symbolOn (1 + i) "t" "table" "[t]"

theorem findSymbols_tables (src : Source) (n : Nat) :
    Dialect.toml.findSymbols src (Text.lines (tables n))
      = ((List.range n).map (tableOn src)).map .symbol := by
  have hnames : ∀ rule ∈ TomlText.rules, rule.nameOn? "" = none ∧
      rule.nameOn? "[t]" = if rule.kind = "table" then some "t" else none := by
    decide +kernel
  have hstrip : Text.strip "[t]" = "[t]" := by decide
  have hrule : ∀ rule ∈ TomlText.rules, scanLines (rule.onLine src) (Text.lines (tables n))
      = if rule.kind = "table" then (List.range n).map (tableOn src) else [] := by
    intro rule hmem
    obtain ⟨hend, hname⟩ := hnames rule hmem
    rw [scanLines_tables (fun k => by rw [SymbolRule.onLine, hend]; rfl)]
    simp only [SymbolRule.onLine, hname, hstrip]
    split
    next htable =>
      rw [htable, Option.toList_some]
      exact List.map_eq_flatMap.symm
    next => simp
  have hfound : symbolsByRules TomlText.rules src (Text.lines (tables n))
      = (List.range n).map (tableOn src) := by
    rw [symbolsByRules, List.flatMap_congr hrule]
    simp [TomlText.rules, SymbolRule.of]
  exact congrArg (List.map Finding.symbol) hfound

namespace Indexer

/-- All tables are to be stored, each with its line. -/
theorem lastPerKey_tables (n : Nat) :
    lastPerKey ((ofAnalyzer settings none).storable "p" "a.toml" (some (tables n).toUTF8))
      = (List.range n).map fun i => symbolData "p" (Digest.sha256 (tables n).toUTF8)
          (tableOn ⟨"a.toml", "toml"⟩ i) := by
  have hfalls : settings.FallsBack .toml ⟨"a.toml", "toml"⟩ (tables n).toUTF8
      (Text.lines (tables n)) :=
    { code := rfl
      registry := rfl
      dialect := by decide
      language := by decide
      supports := by decide
      nothing := fun _ _ => rfl
      content := by rw [decode?_tables]; rfl }
  have hfound := hfalls.findings_eq
  rw [findSymbols_tables] at hfound
  have hstorable : (ofAnalyzer settings none).storable "p" "a.toml" (some (tables n).toUTF8)
      = (List.range n).map fun i => symbolData "p" (Digest.sha256 (tables n).toUTF8)
          (tableOn ⟨"a.toml", "toml"⟩ i) := by
    have hsymbols : symbolsOf? ((ofAnalyzer settings none).parse "a.toml"
        (some (tables n).toUTF8)) = some ((List.range n).map (tableOn ⟨"a.toml", "toml"⟩)) :=
      symbolsOf?_eq_some hfound
    rw [storable, hsymbols]
    exact List.map_map
  rw [hstorable]
  apply lastPerKey_eq_self
  rw [List.pairwise_map]
  refine List.pairwise_lt_range.imp fun {i j} hij => ?_
  have hne : (1 + i : Int) ≠ 1 + j := by omega
  simp [sameKey, symbolData, tableOn, Source.symbolOn, hne]

/-- Of a file with too many tables all are stored by a first run, and stay when a second one finds
another content. -/
theorem edited_tables_stay {n : Nat} (hn : Database.maxVariables < n) {edit : String}
    (hdigest : Digest.sha256 (tables n).toUTF8 ≠ Digest.sha256 edit.toUTF8) :
    let x := ofAnalyzer settings none
    let outcome := x.run (twoFiles edit "").workspace "." "p" (x.history [twoFiles (tables n) ""])
    (outcome.1.db.store.dataOf "p" "a.toml").length = n ∧
      entryOf "a.toml" DatabaseError.tooManyVariables.message ∈ outcome.2.errors := by
  intro x outcome
  have hx : x.Lawful := ofAnalyzer_lawful settings none
  let before := x.history [twoFiles (tables n) ""]
  have hsound : before.Sound := (stored_history hx [twoFiles (tables n) ""]).sound
  have hstored : before.store.dataOf "p" "a.toml"
      = (List.range n).map fun i => symbolData "p" (Digest.sha256 (tables n).toUTF8)
          (tableOn ⟨"a.toml", "toml"⟩ i) := by
    rw [← lastPerKey_tables]
    have hscan := (fullScan_twoFiles (x.history []) (tables n) "").1
    exact fullScan_data hx (stored_history hx []) hscan.found hscan.wellFormed hscan.file
      hscan.full hscan.shown hscan.language (fun _ hv => absurd hv List.not_mem_nil)
      (.inl (Database.fits_of_rowsOf_eq_nil rfl))
  have hlength : (before.store.rowsOf "p" "a.toml").length = n := by
    have hdata := congrArg List.length hstored
    rwa [Store.dataOf, List.length_map, List.length_map, List.length_range] at hdata
  have hcrowded : ¬ before.Fits "p" "a.toml" := by
    rw [Database.Fits, hlength]
    exact Nat.not_le.mpr hn
  have hstale : ¬ before.store.isCurrent "a.toml" (Digest.sha256 edit.toUTF8) "p" = true := by
    intro hcurrent
    obtain ⟨d, hd, hsame⟩ := Store.isCurrent_iff.mp hcurrent
    rw [hstored] at hd
    obtain ⟨i, -, rfl⟩ := List.mem_map.mp hd
    exact hdigest hsame
  obtain ⟨hrows, hentry⟩ := (fullScan_twoFiles before edit "").1.crowded hx hsound
    (not_or.mpr ⟨hcrowded, hstale⟩)
  refine ⟨?_, hentry⟩
  rw [Store.dataOf, List.length_map, ← hlength]
  exact congrArg List.length hrows

end Indexer

end SymbolAtlas
