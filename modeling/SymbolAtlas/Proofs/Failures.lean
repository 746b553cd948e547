/-
  SymbolAtlas.Proofs.Failures: what is stored of a file after the work on it has failed.

  What was stored of a file is removed before the file is read. When the removal itself fails, all
  of it is there after the run; when the work fails later, nothing of it is (`failed_work_index`).
  The rest of the run makes no difference, because the work on one file leaves the rows of another
  and their embeddings alone (`fileIndex_indexFile_other`), and no file is worked on twice. The
  errors that a run gathers are those of its works (`run_entries`).
-/

import SymbolAtlas.Proofs.Attributes
import SymbolAtlas.Proofs.Chosen
import SymbolAtlas.Proofs.Embedded
import SymbolAtlas.Proofs.Isolation

namespace SymbolAtlas

namespace Store

variable {st : Store} {project file : String}

/-- The embeddings of the symbols of a file. -/
def embeddingsIn (st : Store) (project file : String) : List EmbeddingRow :=
  st.embeddings.filter fun e => (st.rowsOf project file).any (·.id == e.id)

/-- What is stored of a file: its symbols and the embeddings of these. -/
def fileIndex (st : Store) (project file : String) : List SymbolRow × List EmbeddingRow :=
  (st.rowsOf project file, st.embeddingsIn project file)

theorem fileIndex_of_rowsOf (h : st.rowsOf project file = []) :
    st.fileIndex project file = ([], []) := by
  rw [fileIndex, embeddingsIn, h]
  simp

/-- A symbol of another file and its embedding leave what is stored of a file alone. -/
theorem fileIndex_insertEmbedded_other {d : SymbolData} (h : d.file ≠ file)
    (vector : Option Value) :
    (st.insertEmbedded d vector).fileIndex project file = st.fileIndex project file := by
  have hrows : (st.insertEmbedded d vector).rowsOf project file = st.rowsOf project file := by
    rw [rowsOf, symbols_insertEmbedded]
    exact rowsOf_insertSymbol_other st (.inl h)
  rw [fileIndex, fileIndex, embeddingsIn, embeddingsIn, hrows]
  refine Prod.ext rfl ?_
  cases vector with
  | none => rfl
  | some v =>
      -- the new id is larger than that of any symbol
      refine filter_putRow (fun f hid => ?_) st.embeddings
      rw [Bool.eq_false_iff]
      intro hany
      obtain ⟨r, hr, hsame⟩ := List.any_eq_true.mp hany
      have hlt := lt_insertSymbol_id (mem_rowsOf.mp hr).1 d
      rw [beq_iff_eq] at hsame
      exact absurd (hsame.trans hid) (Int.ne_of_lt hlt)

/-- To remove another file leaves what is stored of a file alone. -/
theorem fileIndex_removeFile_other (hids : (st.symbols.map (·.id)).Nodup) {path : String}
    (h : path ≠ file) (project' : String) :
    (st.removeFile path project').fileIndex project file = st.fileIndex project file := by
  have hrows : (st.removeFile path project').rowsOf project file = st.rowsOf project file :=
    rowsOf_removeFile_other st (.inl h)
  rw [fileIndex, fileIndex, embeddingsIn, embeddingsIn, hrows]
  refine Prod.ext rfl (filter_remove fun e _ hkeep => ?_)
  -- a row of the other file with this id would be the row of this one
  obtain ⟨r, hr, hid⟩ := List.any_eq_true.mp hkeep
  obtain ⟨hmem, -, hfile⟩ := mem_rowsOf.mp hr
  rw [Bool.eq_false_iff]
  intro hgone
  rw [List.contains_iff_mem] at hgone
  obtain ⟨s, hs, hsid⟩ := List.mem_map.mp hgone
  obtain ⟨hsmem, hpick⟩ := List.mem_filter.mp hs
  rw [Bool.and_eq_true, beq_iff_eq, beq_iff_eq] at hpick
  rw [beq_iff_eq] at hid
  have hsame : s = r := List.inj_on_of_nodup_map hids hsmem hmem (hsid.trans hid.symm)
  exact h (hpick.1.symm.trans (hsame ▸ hfile))

theorem nodup_ids_insertSymbol (hids : (st.symbols.map (·.id)).Nodup) (d : SymbolData) :
    ((st.insertSymbol d).1.symbols.map (·.id)).Nodup := by
  refine nodup_map_concat hids List.filter_sublist ?_
  intro r hr heq
  have hlt := lt_nextId (List.mem_map_of_mem (f := (·.id)) (List.mem_filter.mp hr).1)
  exact absurd heq (Int.ne_of_lt hlt)

end Store

namespace Indexer

variable {x : Indexer} {project digest path file : String} {language : Option String}
  {bytes : Option ByteArray} {db : Database}

/-! ## The work on another file -/

/-- A symbol that is let in is stored with its embedding, and another one is passed over. -/
theorem storeSymbol_store (project digest : String) (st : Storing) (s : Symbol)
    (vector : Option (List Value)) :
    (storeSymbol project digest st s vector).db.store
      = if st.db.admits (symbolData project digest s) then
          st.db.store.insertEmbedded (symbolData project digest s) (vector.map .list)
        else st.db.store := by
  cases h : st.db.admits (symbolData project digest s) with
  | false =>
      obtain ⟨e, he⟩ := Database.addSymbol_of_not_admits h
      rw [storeSymbol, he]
      rfl
  | true =>
      rw [storeSymbol, Database.addSymbol_of_admits h]
      cases vector with
      | none => rfl
      | some v =>
          have hopens : (st.db.withStore
              (st.db.store.insertSymbol (symbolData project digest s)).1).broken = false := by
            simp only [Database.admits, Bool.and_eq_true, Bool.not_eq_true'] at h
            exact h.1.1
          simp only [Database.addEmbedding_ok hopens]
          rfl

theorem distinctIds_storeEach {st : Storing} (hids : st.db.DistinctIds)
    (items : List (Symbol × Option (List Value))) :
    (storeEach project digest st items).db.DistinctIds := by
  induction items generalizing st with
  | nil => exact hids
  | cons item rest ih =>
      rw [storeEach_cons]
      refine ih ?_
      rw [Database.DistinctIds, storeSymbol_store]
      split
      · rw [Store.symbols_insertEmbedded]
        exact Store.nodup_ids_insertSymbol hids _
      · exact hids

theorem fileIndex_storeEach_other (project digest project' : String) (st : Storing)
    {items : List (Symbol × Option (List Value))} (h : ∀ item ∈ items, item.1.file ≠ file) :
    (storeEach project digest st items).db.store.fileIndex project' file
      = st.db.store.fileIndex project' file := by
  induction items generalizing st with
  | nil => rfl
  | cons item rest ih =>
      rw [storeEach_cons, ih _ fun i hi => h i (List.mem_cons_of_mem item hi), storeSymbol_store]
      split
      · exact Store.fileIndex_insertEmbedded_other (h item List.mem_cons_self) _
      · rfl

theorem distinctIds_cleared (hids : db.DistinctIds) (file project : String) :
    (db.cleared file project).DistinctIds :=
  List.Nodup.sublist (List.filter_sublist.map _) hids

/-- The work on a file keeps ids distinct. -/
theorem distinctIds_indexFile (hx : x.Lawful) (hids : db.DistinctIds) (project path : String)
    (language : Option String) (bytes : Option ByteArray) :
    (x.indexFile project language path bytes db).db.DistinctIds := by
  rcases indexFile_cases hx project path language bytes db with
    ⟨e, -, hout⟩ | ⟨-, items, st, relations, -, -, hst, hdb, -⟩
  · rw [hout]
    exact hids
  · rw [hdb, hst]
    exact distinctIds_storeEach (distinctIds_cleared hids path project) items

/-- The work on a file leaves what is stored of another file alone. -/
theorem fileIndex_indexFile_other (hx : x.Lawful) (hids : db.DistinctIds) (project' : String)
    (h : path ≠ file) :
    (x.indexFile project language path bytes db).db.store.fileIndex project' file
      = db.store.fileIndex project' file := by
  rcases indexFile_cases hx project path language bytes db with
    ⟨e, -, hout⟩ | ⟨-, items, st, relations, -, hfile, hst, hdb, -⟩
  · rw [hout]
  · have hother : ∀ item ∈ items, item.1.file ≠ file := fun item hitem => hfile item hitem ▸ h
    have hstored := fileIndex_storeEach_other project (digestOf bytes) project'
      { db := db.cleared path project } hother
    rw [hdb, hst]
    exact hstored.trans (Store.fileIndex_removeFile_other hids h project)

/-! ## Runs -/

/-- Of the file of a work there is stored before it what was stored in the beginning, and in the end
what the work has left. -/
theorem fileIndex_works (hx : x.Lawful) {v : Visit} (hwell : v.workspace.tree.wellFormed = true)
    (hids : db.DistinctIds) {w : Work} (hw : w ∈ x.works v db) (project' : String) :
    w.before.store.fileIndex project' w.path = db.store.fileIndex project' w.path ∧
      (x.visit db v).store.fileIndex project' w.path
        = (x.outcome w).db.store.fileIndex project' w.path := by
  have hdistinct : ∀ w ∈ x.works v db, w.before.DistinctIds :=
    (visit_induction (fun _ _ h => h) hids
      fun w _ h => distinctIds_indexFile hx h w.project w.path w.language w.file).1
  exact works_at (f := fun db => db.store.fileIndex project' w.path) (fun _ _ => rfl)
    (nodup_workPaths x hwell db) hw
    fun w' hw' hne => fileIndex_indexFile_other hx (hdistinct w' hw') project' hne

/-! ## What is told -/

/-- The entry for a file on which the work has failed. -/
def entryOf (path error : String) : String := "Error processing " ++ path ++ ": " ++ error

theorem processFiles_entries (x : Indexer) (tree : FileTree) (project : String) (c : Choice)
    (s : Progress) :
    (x.processFiles tree project c s).errors
      = s.errors ++ (x.worksOn tree project c.language c.files s.db).flatMap fun w =>
          (x.outcome w).error.toList.map (entryOf w.path) := by
  have hitems : ∀ (items : List (String × Nat)) (s : Progress),
      (items.foldl (x.processFile tree project c.language c.files.length) s).errors
        = s.errors ++ (x.worksOn tree project c.language (items.map Prod.fst) s.db).flatMap fun w =>
            (x.outcome w).error.toList.map (entryOf w.path) := by
    intro items
    induction items with
    | nil => exact fun s => (List.append_nil _).symm
    | cons item rest ih =>
        intro s
        obtain ⟨path, i⟩ := item
        rw [List.foldl_cons, ih, processFile_errors, processFile_db, List.append_assoc]
        rfl
  rw [processFiles, hitems, List.zipIdx_map_fst]

/-- A run gathers the entries of those works that fail. -/
theorem run_entries (x : Indexer) (v : Visit) (db : Database) :
    (x.run v.workspace v.path v.project db).1.errors
      = (x.works v db).flatMap fun w => (x.outcome w).error.toList.map (entryOf w.path) := by
  cases hfind : v.workspace.tree.find? (.parse v.path) with
  | none =>
      simp only [run, works, hfind]
      rfl
  | some t =>
      cases hdir : t.isDir with
      | false => simp [run, works, hfind, hdir]
      | true =>
          rw [run_of_isDir hfind hdir]
          cases hregister : register (.parse v.path) v.project
              (v.workspace.origin? (.parse v.path)) db with
          | error e => simp [runIn, works, hfind, hdir, hregister, failWith]
          | ok registered =>
              obtain ⟨db', last, branch⟩ := registered
              cases hchoice : (x.choose v.workspace.tree (.parse v.path) v.project
                  (v.workspace.origin? (.parse v.path)) last db').2 with
              | error e =>
                  simp [runIn, works, hfind, hdir, hregister, hchoice, failWith, Progress.tell]
              | ok c =>
                  simp only [runIn, works, hfind, Option.any_some, hdir, if_true, hregister,
                    hchoice]
                  -- whether the counts can be had makes no difference to the entries
                  split <;> exact processFiles_entries x _ _ c _

/-- The work on a file fails, whatever is stored and wherever in a run it comes, and the run tells
so. Either the removal of what was stored of the file failed, and all of it is there after the run;
or a finding lacked an attribute of a symbol, and nothing is left. -/
theorem failed_work_index (a : Analyzer) (model : Option Model) {v : Visit}
    (hwell : v.workspace.tree.wellFormed = true) {db : Database} (hids : db.DistinctIds) {w : Work}
    (hw : w ∈ (ofAnalyzer a model).works v db) {e : String}
    (herror : ((ofAnalyzer a model).outcome w).error = some e) :
    let x := ofAnalyzer a model
    let after := (x.visit db v).store.fileIndex v.project w.path
    entryOf w.path e ∈ (x.run v.workspace v.path v.project db).1.errors ∧
      ((∃ fault : DatabaseError, w.before.removeFile w.path v.project = .error fault ∧
          e = fault.message ∧ after = db.store.fileIndex v.project w.path) ∨
        w.before.removeFile w.path v.project = .ok (w.before.cleared w.path v.project) ∧
          e = "'symbol_type'" ∧ after = ([], [])) := by
  intro x after
  have hx : x.Lawful := ofAnalyzer_lawful a model
  have hproject := (of_mem_works hw).1
  obtain ⟨hbefore, hafter⟩ := fileIndex_works hx hwell hids hw v.project
  constructor
  · rw [run_entries]
    refine List.mem_flatMap.mpr ⟨w, hw, List.mem_map_of_mem ?_⟩
    rw [herror]
    exact List.mem_singleton_self e
  · rw [← hbefore, show after = _ from hafter]
    rw [outcome, hproject] at herror ⊢
    rcases indexFile_cases hx v.project w.path w.language w.file w.before with
      ⟨fault, hfault, hout⟩ | ⟨hcleared, items, st, relations, hitems, -, hst, hdb, -, hfailed, -⟩
    · rw [hout] at herror ⊢
      exact .inl ⟨fault, hfault, (Option.some.inj herror).symm, rfl⟩
    · refine .inr ⟨hcleared, ?_⟩
      rw [hfailed] at herror
      split at herror
      next hraises =>
        -- what cannot be stored is not stored in part
        rw [storable_of_raises hraises, List.map_eq_nil_iff] at hitems
        refine ⟨(Option.some.inj herror).symm, Store.fileIndex_of_rowsOf ?_⟩
        rw [hdb, hst, hitems]
        exact Store.rowsOf_removeFile_same w.before.store v.project w.path
      next => exact absurd herror (by simp)

/-- A function of a script is stored, with an embedding. -/
def scriptStored : Database :=
  .performAll {}
    [.insertSymbol (.object [("language", .text "bash"), ("symbol_type", .text "function"),
        ("name", .text "run"), ("file_path", .text "a.sh"), ("line_start", .int 1),
        ("line_end", .int 2), ("code_snippet", .text ""), ("file_hash", .text "")]) "p",
     .insertEmbedding (.int 1) (.list [.int 1])]

/-- The script, in which no symbol is captured. -/
def scriptVisit : Visit := .ofFiles [("a.sh", "run() \x7b\n\x7d\n")]

/-- Without the table of embeddings the function cannot be removed, and the run leaves it there. -/
theorem failed_work_index_kept :
    let x := ofAnalyzer (.lineReader "bash") none
    let db := scriptStored.without .embeddings
    let after := (x.visit db scriptVisit).store.fileIndex "p" "a.sh"
    ∃ w ∈ x.works scriptVisit db, (x.outcome w).error = some "no such table: symbol_embeddings" ∧
      after = db.store.fileIndex "p" "a.sh" ∧ after.1.map (·.name) = ["run"] := by
  intro x db after
  have hids : db.DistinctIds := by
    show (db.store.symbols.map (·.id)).Nodup
    decide +kernel
  have hfailed : (x.works scriptVisit db).any (fun w => w.path == "a.sh" &&
      (x.outcome w).error == some "no such table: symbol_embeddings") = true := by
    decide +kernel
  obtain ⟨w, hw, hout⟩ := List.any_eq_true.mp hfailed
  rw [Bool.and_eq_true, beq_iff_eq, beq_iff_eq] at hout
  obtain ⟨hpath, herror⟩ := hout
  have hwell : scriptVisit.workspace.tree.wellFormed = true := by decide
  have hkept : after = db.store.fileIndex "p" "a.sh" := by
    obtain ⟨-, hindex⟩ := failed_work_index (.lineReader "bash") none hwell hids hw herror
    rcases hindex with ⟨fault, -, -, hsame⟩ | ⟨-, htext, -⟩
    · rw [hpath] at hsame
      exact hsame
    · exact absurd htext (by decide)
  refine ⟨w, hw, herror, hkept, ?_⟩
  rw [hkept]
  decide +kernel

/-- The work on the script fails after the removal, and neither the function that was stored nor its
embedding is there after the run. -/
theorem failed_work_loses_index :
    let x := ofAnalyzer (.lineReader "bash") none
    let before := scriptStored.store.fileIndex "p" "a.sh"
    let after := (x.visit scriptStored scriptVisit).store.fileIndex "p" "a.sh"
    (x.works scriptVisit scriptStored).map (fun w => (w.path, (x.outcome w).error))
        = [("a.sh", some "'symbol_type'")] ∧
      before.1.map (·.name) = ["run"] ∧ before.2.map (·.id) = [1] ∧
      after.1.map (·.name) = [] ∧ after.2.map (·.id) = [] := by
  decide +kernel

end Indexer

end SymbolAtlas
