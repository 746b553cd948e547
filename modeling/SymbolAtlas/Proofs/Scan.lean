/-
  SymbolAtlas.Proofs.Scan: choosing files and working on them one after another.

  A full scan chooses the files whose content is not stored (`mem_scanAll`). The work on chosen
  files leaves the files that are not chosen alone, and stores of each chosen one what is found in
  it (`indexFiles_rows`, `indexFiles_data`): whatever comes later concerns other files, or the same
  file again. Only a file that cannot be cleared keeps what it has, and it stays so as long as no
  table comes back (`Steady.indexFiles_dataOf`).
-/

import SymbolAtlas.Indexer.Run
import SymbolAtlas.Proofs.FileStage
import SymbolAtlas.Proofs.FileTree

namespace SymbolAtlas

namespace Digest

theorem hexWord_ne_nil (w : UInt32) : hexWord w ≠ [] := by
  intro h
  rw [hexWord] at h
  obtain ⟨hzeros, hdigits⟩ := List.append_eq_nil_iff.mp h
  rw [hdigits] at hzeros
  exact absurd hzeros (by simp)

/-- A digest is never empty. -/
theorem sha256_ne_empty (bytes : ByteArray) : sha256 bytes ≠ "" := by
  intro h
  rw [sha256, State.words, List.flatMap_cons] at h
  have hchars := String.ofList_injective (h.trans String.ofList_nil.symm)
  exact hexWord_ne_nil _ (List.append_eq_nil_iff.mp hchars).1

end Digest

/-! ## Lists of results -/

namespace Database.Result

variable {α β : Type} {f : α → Database.Result (Option β)}

/-- What is gathered from a list is what its members give. -/
theorem mem_filterMapM {l : List α} {r : List β} (h : l.filterMapM f = .ok r) {b : β} :
    b ∈ r ↔ ∃ a ∈ l, f a = .ok (some b) := by
  induction l generalizing r with
  | nil =>
      rw [List.filterMapM_nil] at h
      obtain rfl : [] = r := Except.ok.inj h
      simp
  | cons a rest ih =>
      rw [List.filterMapM_cons] at h
      cases ha : f a with
      | error e =>
          rw [ha] at h
          exact absurd h (by simp [Bind.bind, Except.bind])
      | ok found =>
          rw [ha] at h
          cases found with
          | none =>
              rw [ih h]
              simp [ha]
          | some c =>
              cases hrest : rest.filterMapM f with
              | error e =>
                  rw [hrest] at h
                  exact absurd h (by simp [Bind.bind, Except.bind])
              | ok more =>
                  rw [hrest] at h
                  obtain rfl : c :: more = r := Except.ok.inj h
                  rw [List.mem_cons, ih hrest]
                  simp [ha, eq_comm]

theorem filterMapM_ok {l : List α} (h : ∀ a ∈ l, ∃ found, f a = .ok found) :
    ∃ r, l.filterMapM f = .ok r := by
  induction l with
  | nil => exact ⟨[], rfl⟩
  | cons a rest ih =>
      obtain ⟨found, ha⟩ := h a List.mem_cons_self
      obtain ⟨r, hrest⟩ := ih fun b hb => h b (List.mem_cons_of_mem a hb)
      rw [List.filterMapM_cons, ha]
      cases found with
      | none => exact ⟨r, hrest⟩
      | some c => exact ⟨c :: r, by rw [hrest]; rfl⟩

theorem filterMapM_eq {g : α → Option β} {l : List α} (h : ∀ a ∈ l, f a = .ok (g a)) :
    l.filterMapM f = .ok (l.filterMap g) := by
  induction l with
  | nil => rfl
  | cons a rest ih =>
      have hrest := ih fun b hb => h b (List.mem_cons_of_mem a hb)
      rw [List.filterMapM_cons, h a List.mem_cons_self, List.filterMap_cons]
      cases g a with
      | none => exact hrest
      | some c =>
          dsimp only [Bind.bind, Except.bind]
          rw [hrest]
          rfl

end Database.Result

namespace Database

variable {db db' : Database}

/-! ## Databases in order -/

theorem connect_ok (h : db.broken = false) : db.connect = .ok () := by
  rw [connect, h]
  rfl

theorem need_ok {t : Table} (h : t ∉ db.dropped) : db.need t = .ok () := by
  rw [need, if_neg (by simpa using h)]

/-- The database with other projects. -/
def withProjects (db : Database) (projects : List ProjectRow) : Database :=
  db.withStore { db.store with projects }

theorem withProjects_self (db : Database) : db.withProjects db.store.projects = db := rfl

theorem withProjects_withProjects (db : Database) (projects projects' : List ProjectRow) :
    (db.withProjects projects).withProjects projects' = db.withProjects projects' := rfl

theorem rowsOf_withProjects (db : Database) (projects : List ProjectRow) (project file : String) :
    (db.withProjects projects).store.rowsOf project file = db.store.rowsOf project file := rfl

theorem isCurrent_withProjects (db : Database) (projects : List ProjectRow)
    (file digest project : String) :
    (db.withProjects projects).store.isCurrent file digest project
      = db.store.isCurrent file digest project := rfl

theorem SameFaults.withProjects (db : Database) (projects : List ProjectRow) :
    db.SameFaults (db.withProjects projects) :=
  .withStore rfl

theorem needsUpdate_eq_true {file project : String} {bytes : ByteArray} :
    db.needsUpdate file (Digest.sha256 bytes) project = .ok true ↔
      db.broken = false ∧ Table.symbols ∉ db.dropped ∧
        db.store.isCurrent file (Digest.sha256 bytes) project = false := by
  rw [needsUpdate, if_neg (Digest.sha256_ne_empty bytes), connect, need]
  cases db.broken with
  | true => simp [Bind.bind, Except.bind]
  | false =>
      by_cases hdropped : Table.symbols ∈ db.dropped
      · simp [hdropped, Bind.bind, Except.bind]
      · simp [hdropped, Bind.bind, Except.bind, Pure.pure, Except.pure]

theorem needsUpdate_ok (hopens : db.broken = false) (hsymbols : Table.symbols ∉ db.dropped)
    (file digest project : String) : ∃ r, db.needsUpdate file digest project = .ok r := by
  rw [needsUpdate, connect_ok hopens, need_ok hsymbols]
  split
  · exact ⟨false, rfl⟩
  · exact ⟨!db.store.isCurrent file digest project, rfl⟩

end Database

namespace Indexer

variable {x : Indexer} {tree : FileTree} {project : String} {db : Database}

/-! ## Choosing files -/

/-- The files that a full scan looks at. -/
def lookedAt (tree : FileTree) (root : Path) : List (Path × ByteArray) :=
  (((tree.find? root).getD .empty).filesBelow root).filter fun f => !f.1.isHidden

/-- What is looked at lies in a directory and is read by its path. -/
theorem lookedAt_spec {path : String} (hwell : tree.wellFormed = true) {q : Path} {b : ByteArray}
    (h : (q, b) ∈ lookedAt tree (.parse path)) :
    (∃ t, tree.find? (.parse path) = some t ∧ t.isDir = true) ∧
      tree.read? (.parse q.toString) = some b := by
  obtain ⟨hmem, -⟩ := List.mem_filter.mp h
  cases hfind : tree.find? (.parse path) with
  | none =>
      rw [hfind] at hmem
      exact absurd hmem List.not_mem_nil
  | some t =>
      rw [hfind] at hmem
      have ht := FileTree.wellFormed_of_find? hwell hfind
      exact ⟨⟨t, rfl, FileTree.isDir_of_mem_filesBelow ht hmem⟩,
        FileTree.read?_of_mem_filesBelow hfind ht hmem⟩

/-- What a full scan does with a file that it looks at. -/
def consider (x : Indexer) (project : String) (db : Database) (f : Path × ByteArray) :
    Database.Result (Option String) := do
  if (x.languageOf? f.1.toString).isSome then
    return if ← db.needsUpdate f.1.toString (Digest.sha256 f.2) project then some f.1.toString
      else none
  else return none

theorem consider_eq_some {f : Path × ByteArray} {path : String} :
    x.consider project db f = .ok (some path) ↔
      f.1.toString = path ∧ (x.languageOf? path).isSome = true ∧
        db.needsUpdate path (Digest.sha256 f.2) project = .ok true := by
  rw [consider]
  by_cases hlanguage : (x.languageOf? f.1.toString).isSome = true
  · rw [if_pos hlanguage]
    cases hneeds : db.needsUpdate f.1.toString (Digest.sha256 f.2) project with
    | error e =>
        constructor
        · intro h
          exact absurd h (by simp [Bind.bind, Except.bind])
        · rintro ⟨rfl, -, h⟩
          rw [hneeds] at h
          exact absurd h (by simp)
    | ok needs =>
        cases needs with
        | false =>
            constructor
            · intro h
              exact absurd h (by simp [Bind.bind, Except.bind, Pure.pure, Except.pure])
            · rintro ⟨rfl, -, h⟩
              rw [hneeds] at h
              exact absurd h (by simp)
        | true =>
            constructor
            · intro h
              obtain rfl : f.1.toString = path := Option.some.inj (Except.ok.inj h)
              exact ⟨rfl, hlanguage, hneeds⟩
            · rintro ⟨rfl, -, -⟩
              rfl
  · rw [if_neg hlanguage]
    constructor
    · intro h
      exact absurd (Except.ok.inj h) (by simp)
    · rintro ⟨rfl, h, -⟩
      exact absurd h hlanguage

theorem scanAll_eq (x : Indexer) (tree : FileTree) (root : Path) (project : String)
    (db : Database) :
    x.scanAll tree root project db
      = ((lookedAt tree root).filterMapM (x.consider project db)).map fun files =>
          ⟨files, (lookedAt tree root).getLast?.bind fun f => x.languageOf? f.1.toString⟩ := rfl

/-- A full scan chooses the files that it looks at, that have a language, and whose content is not
stored. -/
theorem mem_scanAll {root : Path} {c : Choice} (h : x.scanAll tree root project db = .ok c)
    {path : String} :
    path ∈ c.files ↔ ∃ q b, (q, b) ∈ lookedAt tree root ∧ q.toString = path ∧
      (x.languageOf? path).isSome = true ∧
      db.needsUpdate path (Digest.sha256 b) project = .ok true := by
  rw [scanAll_eq] at h
  cases hfiles : (lookedAt tree root).filterMapM (x.consider project db) with
  | error e =>
      rw [hfiles] at h
      exact absurd h (by simp [Except.map])
  | ok files =>
      rw [hfiles] at h
      obtain rfl := Except.ok.inj h
      rw [Database.Result.mem_filterMapM hfiles]
      constructor
      · rintro ⟨⟨q, b⟩, hmem, hsome⟩
        exact ⟨q, b, hmem, consider_eq_some.mp hsome⟩
      · rintro ⟨q, b, hmem, hsome⟩
        exact ⟨(q, b), hmem, consider_eq_some.mpr hsome⟩

theorem scanAll_ok (hopens : db.broken = false) (hsymbols : Table.symbols ∉ db.dropped)
    (root : Path) : ∃ c, x.scanAll tree root project db = .ok c := by
  obtain ⟨files, hfiles⟩ := Database.Result.filterMapM_ok
    (f := x.consider project db) (l := lookedAt tree root) (by
      rintro ⟨q, b⟩ -
      rw [consider]
      split
      · obtain ⟨r, hr⟩ :=
          Database.needsUpdate_ok hopens hsymbols q.toString (Digest.sha256 b) project
        exact ⟨if r then some q.toString else none, by rw [hr]; rfl⟩
      · exact ⟨none, rfl⟩)
  rw [scanAll_eq, hfiles]
  exact ⟨_, rfl⟩

/-- A file that is looked at, has a language and is not chosen is stored as it is. -/
theorem isCurrent_of_not_mem_scanAll (hopens : db.broken = false)
    (hsymbols : Table.symbols ∉ db.dropped) {root : Path} {c : Choice}
    (h : x.scanAll tree root project db = .ok c) {q : Path} {b : ByteArray}
    (hlooked : (q, b) ∈ lookedAt tree root) (hlanguage : (x.languageOf? q.toString).isSome = true)
    (hnot : q.toString ∉ c.files) :
    db.store.isCurrent q.toString (Digest.sha256 b) project = true := by
  cases hcurrent : db.store.isCurrent q.toString (Digest.sha256 b) project with
  | true => rfl
  | false =>
      refine absurd ((mem_scanAll h).mpr ⟨q, b, hlooked, rfl, hlanguage, ?_⟩) hnot
      exact Database.needsUpdate_eq_true.mpr ⟨hopens, hsymbols, hcurrent⟩

/-- A scan for changes chooses the files among these that are there and have a language. -/
theorem mem_scanChanged {changed : List String} {file : String} :
    file ∈ (x.scanChanged tree changed).files ↔
      (file ∈ changed ∧ (tree.read? (.parse file)).isSome = true) ∧
        (x.languageOf? file).isSome = true := by
  rw [scanChanged, List.mem_filter, List.mem_filter]

/-! ## Working on files -/

/-- What is stored after the work on files, one after another. -/
def indexFiles (x : Indexer) (tree : FileTree) (project : String) (language : Option String)
    (files : List String) (db : Database) : Database :=
  files.foldl
    (fun db path => (x.indexFile project language path (tree.read? (.parse path)) db).db) db

theorem indexFiles_cons (language : Option String) (path : String) (rest : List String)
    (db : Database) :
    x.indexFiles tree project language (path :: rest) db
      = x.indexFiles tree project language rest
          (x.indexFile project language path (tree.read? (.parse path)) db).db := rfl

theorem indexFiles_sameFaults (hx : x.Lawful) (tree : FileTree) (project : String)
    (language : Option String) (files : List String) (db : Database) :
    db.SameFaults (x.indexFiles tree project language files db) ∧
      (x.indexFiles tree project language files db).store.projects = db.store.projects := by
  induction files generalizing db with
  | nil => exact ⟨.refl db, rfl⟩
  | cons path rest ih =>
      obtain ⟨hfaults, hprojects⟩ :=
        indexFile_sameFaults hx project path language (tree.read? (.parse path)) db
      obtain ⟨hrest, hprojects'⟩ := ih _
      exact ⟨hfaults.trans hrest, hprojects'.trans hprojects⟩

/-- Files that are not worked on keep their symbols, and so do other projects unless symbols are
shared. -/
theorem indexFiles_rows (hx : x.Lawful) {language : Option String} {files : List String}
    {project' file : String} (h : file ∉ files ∨ db.store.shared = false ∧ project ≠ project') :
    (x.indexFiles tree project language files db).store.rowsOf project' file
      = db.store.rowsOf project' file := by
  induction files generalizing db with
  | nil => rfl
  | cons path rest ih =>
      have hshared := (indexFile_sameFaults hx project path language
        (tree.read? (.parse path)) db).1.shared
      have hfirst : path ≠ file ∨ db.store.shared = false ∧ project ≠ project' := by
        refine h.imp_left fun hmem he => hmem ?_
        rw [he]
        exact List.mem_cons_self
      have hrest : file ∉ rest ∨
          (x.indexFile project language path (tree.read? (.parse path)) db).db.store.shared = false
            ∧ project ≠ project' := by
        rw [hshared]
        exact h.imp_left fun hmem hin => hmem (List.mem_cons_of_mem path hin)
      rw [indexFiles_cons, ih hrest, indexFile_rows_other hx hfirst]

/-! ## The table of embeddings -/

section Embeddings

variable {digest : String} {language : Option String}

theorem storeSymbol_dropped (st : Storing) (s : Symbol) :
    (storeSymbol project digest st s none).db.dropped = st.db.dropped := by
  rw [storeSymbol]
  cases h : st.db.admits (symbolData project digest s) with
  | false =>
      obtain ⟨e, he⟩ := Database.addSymbol_of_not_admits h
      rw [he]
  | true =>
      rw [Database.addSymbol_of_admits h]
      rfl

theorem storeBatches_dropped (hmodel : x.model = none) (project digest : String) (st : Storing)
    (batches : List (List Parsed)) :
    (x.storeBatches project digest st batches).1.db.dropped = st.db.dropped := by
  induction batches generalizing st with
  | nil => rfl
  | cons batch rest ih =>
      rw [storeBatches]
      split
      next symbols _ =>
        rw [ih, storeSymbols, hmodel]
        -- without a model each symbol of the batch comes without a vector
        have hfold : ∀ (ss : List Symbol) (st : Storing),
            ((ss.zip (vectors none ss)).foldl
              (fun st p => storeSymbol project digest st p.1 p.2) st).db.dropped
              = st.db.dropped := by
          intro ss
          induction ss with
          | nil => exact fun _ => rfl
          | cons s more ihs => exact fun st => (ihs _).trans (storeSymbol_dropped st s)
        exact hfold symbols _
      next => rfl

/-- Without a model the work on a file leaves every table that is missing as it is. -/
theorem indexFile_dropped (hmodel : x.model = none) (path : String) (file : Option ByteArray) :
    (x.indexFile project language path file db).db.dropped = db.dropped := by
  rw [indexFile]
  rcases db.removeFile_cases path project with ⟨e, h⟩ | h
  · rw [h]
  · rw [h]
    dsimp only
    split
    · rfl
    · have hbatches := storeBatches_dropped hmodel project (digestOf file)
        { db := db.cleared path project }
        (Embedding.chunksOf (batchSize (x.parse path file).length - 1) (x.parse path file))
      rw [storeParsed]
      split
      next st e hst =>
        rw [hst] at hbatches
        exact hbatches
      next st hst =>
        rw [hst] at hbatches
        dsimp only
        split
        · obtain ⟨relations, hrelations⟩ :=
            foldl_storeRelationsOf_cases project st.ids st.db (x.parse path file)
          rw [hrelations]
          exact hbatches
        · exact hbatches

/-- An indexer and a database in which no table comes back while files are worked on: the table of
embeddings is there, or no embedding is stored. -/
structure Steady (x : Indexer) (db : Database) : Prop where
  lawful : x.Lawful
  embeddings : Table.embeddings ∉ db.dropped ∨ x.model = none

namespace Steady

variable (h : x.Steady db)

include h

theorem mem_dropped (path : String) (bytes : Option ByteArray) (t : Table) :
    t ∈ (x.indexFile project language path bytes db).db.dropped ↔ t ∈ db.dropped := by
  have hfaults := (indexFile_sameFaults h.lawful project path language bytes db).1
  by_cases ht : t = .embeddings
  · subst ht
    rcases h.embeddings with hdb | hmodel
    · exact ⟨fun h => absurd (hfaults.embeddings h) hdb, fun h => absurd h hdb⟩
    · rw [indexFile_dropped hmodel]
  · exact hfaults.dropped t ht

theorem indexFile (path : String) (bytes : Option ByteArray) :
    x.Steady (x.indexFile project language path bytes db).db where
  lawful := h.lawful
  embeddings := h.embeddings.imp_left fun hdb hd => hdb ((h.mem_dropped path bytes _).mp hd)

/-- The work on a file changes nothing in whether another file can be cleared. -/
theorem clears_other {path file : String} (hne : path ≠ file) (bytes : Option ByteArray) :
    (x.indexFile project language path bytes db).db.clears project file = db.clears project file
    := by
  have hfaults := (indexFile_sameFaults h.lawful project path language bytes db).1
  have hrows : (x.indexFile project language path bytes db).db.store.rowsOf project file
      = db.store.rowsOf project file := indexFile_rows_other h.lawful (.inl hne)
  have hcontains : ∀ t, (x.indexFile project language path bytes db).db.dropped.contains t
      = db.dropped.contains t := by
    intro t
    rw [Bool.eq_iff_iff, List.contains_iff_mem, List.contains_iff_mem]
    exact h.mem_dropped path bytes t
  rw [Database.clears, Database.clears, hfaults.broken, hrows, hcontains, hcontains]

/-- A file that cannot be cleared keeps its symbols through the work on files, and cannot be cleared
after it either. -/
theorem indexFiles_not_clears {file : String} (hclears : db.clears project file = false)
    (files : List String) :
    (x.indexFiles tree project language files db).store.rowsOf project file
        = db.store.rowsOf project file ∧
      (x.indexFiles tree project language files db).clears project file = false := by
  induction files generalizing db with
  | nil => exact ⟨rfl, hclears⟩
  | cons f rest ih =>
      rw [indexFiles_cons]
      by_cases hf : f = file
      · subst hf
        obtain ⟨e, he⟩ := Database.removeFile_of_not_clears hclears
        rw [indexFile_refused he]
        exact ih h hclears
      · have hother : (x.indexFile project language f (tree.read? (.parse f)) db).db.clears
            project file = false := by
          rw [h.clears_other hf]
          exact hclears
        obtain ⟨hrows, hend⟩ := ih (h.indexFile f _) hother
        exact ⟨hrows.trans (indexFile_rows_other h.lawful (.inl hf)), hend⟩

/-- The symbols of each file after the work on some files. That no model stands on the right side
is what makes embeddings play no part. -/
theorem indexFiles_dataOf (files : List String) (file : String) :
    (x.indexFiles tree project language files db).store.dataOf project file
      = if file ∈ files ∧ db.clears project file = true then
          SymbolData.lastPerKey
            ((x.storable project file (tree.read? (.parse file))).filter db.admits)
        else db.store.dataOf project file := by
  induction files generalizing db with
  | nil => exact (if_neg fun h => List.not_mem_nil h.1).symm
  | cons f rest ih =>
      have hfaults :=
        (indexFile_sameFaults h.lawful project f language (tree.read? (.parse f)) db).1
      rw [indexFiles_cons, ih (h.indexFile f _), hfaults.admits]
      by_cases hf : f = file
      · subst hf
        cases hclears : db.clears project f with
        | true =>
            -- the first time the file comes decides, and each later time gives the same again
            have hdata : (x.indexFile project language f (tree.read? (.parse f)) db).db.store.dataOf
                project f = _ := indexFile_data h.lawful (Database.removeFile_of_clears hclears)
            simp [hdata]
        | false =>
            obtain ⟨e, he⟩ := Database.removeFile_of_not_clears hclears
            rw [indexFile_refused he, hclears]
            simp
      · have hrows : (x.indexFile project language f (tree.read? (.parse f)) db).db.store.rowsOf
            project file = db.store.rowsOf project file := indexFile_rows_other h.lawful (.inl hf)
        rw [h.clears_other hf, Store.dataOf, hrows]
        simp [Ne.symm hf, Store.dataOf]

end Steady

end Embeddings

/-- Of a file that was worked on and has not too many symbols, the last symbol of each key is
stored, among those that are found in it and admitted. -/
theorem indexFiles_data (hx : x.Lawful) {language : Option String} {files : List String}
    (hdb : db.Clearable) {path : String} (hmem : path ∈ files) (hfits : db.Fits project path) :
    (x.indexFiles tree project language files db).store.dataOf project path
      = SymbolData.lastPerKey
          ((x.storable project path (tree.read? (.parse path))).filter db.admits) := by
  have hsteady : x.Steady db := ⟨hx, .inl hdb.embeddings⟩
  rw [hsteady.indexFiles_dataOf, if_pos ⟨hmem, hdb.clears_iff.mpr hfits⟩]

/-- A file that has too many symbols keeps them. -/
theorem indexFiles_rows_refused (hx : x.Lawful) {language : Option String} {files : List String}
    (hdb : db.Clearable) {path : String} (hfits : ¬ db.Fits project path) :
    (x.indexFiles tree project language files db).store.rowsOf project path
      = db.store.rowsOf project path := by
  have hsteady : x.Steady db := ⟨hx, .inl hdb.embeddings⟩
  exact (hsteady.indexFiles_not_clears
    (Bool.eq_false_iff.mpr fun hclears => hfits (hdb.clears_iff.mp hclears)) files).1

/-! ## Progress -/

section ProcessFile

variable (language : Option String) (n : Nat) (s : Progress) (path : String) (i : Nat)

theorem processFile_db :
    (x.processFile tree project language n s (path, i)).db
      = (x.indexFile project language path (tree.read? (.parse path)) s.db).db := rfl

theorem processFile_added :
    (x.processFile tree project language n s (path, i)).added
      = s.added + (x.indexFile project language path (tree.read? (.parse path)) s.db).added := rfl

theorem processFile_errors :
    (x.processFile tree project language n s (path, i)).errors
      = s.errors ++
          (x.indexFile project language path (tree.read? (.parse path)) s.db).error.toList.map
            fun e => "Error processing " ++ path ++ ": " ++ e := rfl

end ProcessFile

/-- What is stored depends on the chosen files only, not on what is counted or told on the way. -/
theorem processFiles_db (x : Indexer) (tree : FileTree) (project : String) (c : Choice)
    (s : Progress) :
    (x.processFiles tree project c s).db
      = x.indexFiles tree project c.language c.files s.db := by
  have hitems : ∀ (items : List (String × Nat)) (s : Progress),
      (items.foldl (x.processFile tree project c.language c.files.length) s).db
        = x.indexFiles tree project c.language (items.map Prod.fst) s.db := by
    intro items
    induction items with
    | nil => exact fun s => rfl
    | cons item rest ih => exact fun s => ih _
  rw [processFiles, hitems, List.zipIdx_map_fst]

/-- Whether the work on a file changes nothing: what is stored of it cannot be removed, or nothing
is stored of it and nothing that is found in it is admitted. -/
def Idles (x : Indexer) (project : String) (db : Database) (path : String)
    (file : Option ByteArray) : Prop :=
  db.clears project path = false ∨
    db.store.rowsOf project path = [] ∧ (x.storable project path file).filter db.admits = []

theorem Idles.indexFile (hx : x.Lawful) {path : String} {file : Option ByteArray}
    (h : x.Idles project db path file) (language : Option String) :
    (x.indexFile project language path file db).db = db ∧
      (x.indexFile project language path file db).added = 0 := by
  rcases h with hclears | ⟨hrows, hnone⟩
  · obtain ⟨e, he⟩ := Database.removeFile_of_not_clears hclears
    rw [indexFile_refused he]
    exact ⟨rfl, rfl⟩
  · exact indexFile_idle hx hrows hnone

/-- Nothing changes when the work on none of the chosen files changes anything. -/
theorem processFiles_idle (hx : x.Lawful) {c : Choice} {s : Progress}
    (h : ∀ path ∈ c.files, x.Idles project s.db path (tree.read? (.parse path))) :
    (x.processFiles tree project c s).db = s.db ∧
      (x.processFiles tree project c s).added = s.added := by
  refine List.foldlRecOn (motive := fun s' => s'.db = s.db ∧ s'.added = s.added) c.files.zipIdx
    (x.processFile tree project c.language c.files.length) ⟨rfl, rfl⟩ ?_
  rintro s' ⟨hdb, hadded⟩ ⟨path, i⟩ hitem
  have hidles := h path (List.fst_mem_of_mem_zipIdx hitem)
  rw [← hdb] at hidles
  obtain ⟨hsame, hzero⟩ := hidles.indexFile hx c.language
  rw [processFile_db, processFile_added, hsame, hzero]
  exact ⟨hdb, hadded⟩

end Indexer

end SymbolAtlas
