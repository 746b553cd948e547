/-
  SymbolAtlas.Proofs.Links: the relationships that the work on a file stores.

  When the symbols of a file are stored, each relation that was found in it either becomes a
  relationship or is passed over, and which of the two happens does not depend on the relationships
  that are stored already. So the work on a file is the removal of its symbols, a list of symbols
  that are stored and a list of relationships that are stored (`indexFile_tables`), and the source
  of each relationship is the last symbol of its name in the file.
-/

import SymbolAtlas.Proofs.FileStage
import SymbolAtlas.Proofs.Tables

namespace SymbolAtlas

namespace Store

/-- The store with symbols stored one after another. -/
def insertSymbols (st : Store) (ds : List SymbolData) : Store :=
  ds.foldl (fun st d => (st.insertSymbol d).1) st

/-- The store with relationships stored one after another. -/
def insertRelations (st : Store) (ds : List RelationData) : Store :=
  ds.foldl (fun st d => (st.insertRelation d).1) st

theorem insertSymbols_cons (st : Store) (d : SymbolData) (ds : List SymbolData) :
    st.insertSymbols (d :: ds) = (st.insertSymbol d).1.insertSymbols ds := rfl

theorem insertRelations_cons (st : Store) (d : RelationData) (ds : List RelationData) :
    st.insertRelations (d :: ds) = (st.insertRelation d).1.insertRelations ds := rfl

theorem insertRelations_append (st : Store) (ds es : List RelationData) :
    st.insertRelations (ds ++ es) = (st.insertRelations ds).insertRelations es :=
  List.foldl_append

@[simp] theorem relations_insertSymbols (st : Store) (ds : List SymbolData) :
    (st.insertSymbols ds).relations = st.relations := by
  induction ds generalizing st with
  | nil => rfl
  | cons d rest ih => exact ih _

@[simp] theorem shared_insertSymbols (st : Store) (ds : List SymbolData) :
    (st.insertSymbols ds).shared = st.shared := by
  induction ds generalizing st with
  | nil => rfl
  | cons d rest ih => exact ih _

@[simp] theorem symbols_insertRelations (st : Store) (ds : List RelationData) :
    (st.insertRelations ds).symbols = st.symbols := by
  induction ds generalizing st with
  | nil => rfl
  | cons d rest ih => exact ih _

/-- Which symbols are there after storing some depends on the table of symbols alone. -/
theorem symbols_insertSymbols_congr {st st' : Store} (hsymbols : st'.symbols = st.symbols)
    (hshared : st'.shared = st.shared) (ds : List SymbolData) :
    (st'.insertSymbols ds).symbols = (st.insertSymbols ds).symbols := by
  induction ds generalizing st st' with
  | nil => exact hsymbols
  | cons d rest ih =>
      apply ih
      · simp only [insertSymbol, hsymbols, hshared]
      · exact hshared

/-- Which relationships are there after storing some depends on that table alone. -/
theorem relations_insertRelations_congr {st st' : Store} (h : st'.relations = st.relations)
    (ds : List RelationData) :
    (st'.insertRelations ds).relations = (st.insertRelations ds).relations := by
  induction ds generalizing st st' with
  | nil => exact h
  | cons d rest ih =>
      apply ih
      simp only [insertRelation, h]

/-- The store with the symbols of a file replaced. -/
def replaceFile (st : Store) (project file : String) (ds : List SymbolData) : Store :=
  (st.removeFile file project).insertSymbols ds

/-- The id of the last symbol of a name that is stored of a file. -/
def lastNamed? (st : Store) (project file name : String) : Option Int :=
  ((st.rowsOf project file).reverse.find? (·.name == name)).map (·.id)

/-- A symbol that is stored is the last one of its name in its file, and the last ones of other
names stay. -/
theorem lastNamed?_insertSymbol (st : Store) {d : SymbolData} {project file : String}
    (hproject : d.project = project) (hfile : d.file = file) (name : String) :
    (st.insertSymbol d).1.lastNamed? project file name
      = if d.name = name then some (st.insertSymbol d).2 else st.lastNamed? project file name := by
  rw [lastNamed?, rowsOf_insertSymbol_same st hproject hfile, List.reverse_append,
    List.reverse_singleton, List.singleton_append, List.find?_cons]
  by_cases hname : d.name = name
  · simp [hname]
  · -- the rows that give way have the name of the new one, so that none of them was looked for
    have hpred : (fun r : SymbolRow =>
          decide ((!SymbolData.sameKey r.toSymbolData d) = true ∧ (r.name == name) = true))
        = fun r => r.name == name := by
      funext r
      by_cases hr : r.name = name
      · simp [SymbolData.sameKey, hr, Ne.symm hname]
      · simp [hr]
    have hother : (d.name == name) = false := by simpa using hname
    rw [if_neg hname, lastNamed?, hother, ← List.filter_reverse, List.find?_filter, hpred]

theorem exists_of_lastNamed? {st : Store} {project file name : String} {id : Int}
    (h : st.lastNamed? project file name = some id) :
    ∃ r ∈ st.rowsOf project file, r.name = name ∧ r.id = id := by
  obtain ⟨r, hfound, rfl⟩ := Option.map_eq_some_iff.mp h
  have hname := List.find?_some hfound
  rw [beq_iff_eq] at hname
  exact ⟨r, List.mem_reverse.mp (List.mem_of_find?_eq_some hfound), hname, rfl⟩

theorem lastNamed?_of_mem {st : Store} {project file : String} {r : SymbolRow}
    (h : r ∈ st.rowsOf project file) : ∃ id, st.lastNamed? project file r.name = some id := by
  cases hfound : (st.rowsOf project file).reverse.find? (·.name == r.name) with
  | none =>
      have hno := List.find?_eq_none.mp hfound r (List.mem_reverse.mpr h)
      exact absurd (beq_self_eq_true r.name) hno
  | some s => exact ⟨s.id, by rw [lastNamed?, hfound]; rfl⟩

theorem passes_iff {filter : Option String} {s : String} :
    passes filter s = true ↔ ∀ f ∈ filter, s = f := by
  cases filter with
  | none => simp [passes]
  | some f =>
      rw [passes, beq_iff_eq]
      exact ⟨fun h g hg => h.symm.trans (Option.mem_some_iff.mp hg), fun h => (h f rfl).symm⟩

/-- The filters of a search, column by column. -/
theorem mem_inScope_iff {st : Store} {language project : Option String} {r : SymbolRow} :
    r ∈ st.inScope language project ↔ r ∈ st.symbols ∧
      (∀ l ∈ language, r.language = l) ∧ ∀ p ∈ project, r.project = p := by
  rw [inScope, List.mem_filter, Bool.and_eq_true, passes_iff, passes_iff]

theorem inScope_all (st : Store) : st.inScope none none = st.symbols := by
  rw [inScope, List.filter_eq_self]
  exact fun _ _ => rfl

/-- What a search finds are symbols in its scope. -/
theorem mem_of_mem_searchByName {st : Store} {name : String} {language project : Option String}
    {r : SymbolRow} (h : r ∈ st.searchByName name language project) :
    r ∈ st.inScope language project := by
  rw [searchByName, sortByKey, List.mem_mergeSort] at h
  exact (List.mem_filter.mp h).1

end Store

namespace Database

/-- Whether a relationship of a kind can be stored. -/
def admitsRelation (db : Database) (kind : String) : Bool :=
  !db.broken && !db.dropped.contains .relationships && !db.rejectsRelation (some kind)

theorem addRelation_of_admits {db : Database} {d : RelationData}
    (h : db.admitsRelation d.kind = true) :
    db.addRelation d
      = .ok (db.withStore (db.store.insertRelation d).1, (db.store.insertRelation d).2) := by
  simp only [admitsRelation, Bool.and_eq_true, Bool.not_eq_true'] at h
  obtain ⟨⟨hbroken, hdropped⟩, hrejects⟩ := h
  rw [addRelation, connect, need, hbroken, hdropped, hrejects]
  rfl

theorem addRelation_of_not_admits {db : Database} {d : RelationData}
    (h : db.admitsRelation d.kind = false) : ∃ e, db.addRelation d = .error e := by
  rw [addRelation, connect, need]
  cases hbroken : db.broken with
  | true => exact ⟨_, rfl⟩
  | false =>
      cases hdropped : db.dropped.contains .relationships with
      | true => exact ⟨_, rfl⟩
      | false =>
          have hrejects : db.rejectsRelation (some d.kind) = true := by
            rw [admitsRelation, hbroken, hdropped] at h
            simpa using h
          rw [hrejects]
          exact ⟨_, rfl⟩

/-- A search answers alike in databases with the same faults and the same symbols. -/
theorem searchByName_congr {db db' : Database} (h : db.SameFaults db')
    (hsymbols : db'.store.symbols = db.store.symbols) (name : String)
    (language project : Option String) :
    db'.searchByName name language project = db.searchByName name language project := by
  have hdropped : db'.dropped.contains .symbols = db.dropped.contains .symbols := by
    rw [Bool.eq_iff_iff, List.contains_iff_mem, List.contains_iff_mem]
    exact h.dropped .symbols (by decide)
  rw [searchByName, searchByName, connect, connect, need, need, h.broken, hdropped,
    Store.searchByName, Store.searchByName, Store.inScope, Store.inScope, hsymbols]

theorem mem_of_searchByName {db : Database} {target : String} {language filter : Option String}
    {hits : List SymbolRow} (h : db.searchByName target language filter = .ok hits)
    {r : SymbolRow} (hr : r ∈ hits) : r ∈ db.store.inScope language filter := by
  simp only [searchByName, Result.bind_eq_ok] at h
  obtain ⟨-, -, -, -, h⟩ := h
  split at h
  · exact absurd h (by simp [Bind.bind, Except.bind])
  · obtain rfl := Except.ok.inj h
    exact Store.mem_of_mem_searchByName hr

theorem SameFaults.admitsRelation {db db' : Database} (h : db.SameFaults db') (kind : String) :
    db'.admitsRelation kind = db.admitsRelation kind := by
  have hdropped : db'.dropped.contains .relationships = db.dropped.contains .relationships := by
    rw [Bool.eq_iff_iff, List.contains_iff_mem, List.contains_iff_mem]
    exact h.dropped .relationships (by decide)
  rw [Database.admitsRelation, Database.admitsRelation, rejectsRelation, rejectsRelation, h.broken,
    h.rejections, hdropped]

end Database

namespace Indexer

variable {x : Indexer} {project path : String} {language : Option String}
  {file : Option ByteArray} {db db' : Database}

/-! ## Relations become relationships -/

/-- The relationship that a relation from a symbol becomes, if it names a target, a search for the
target finds a symbol, and relationships of its kind are let in. -/
def link? (project : String) (db : Database) (source : Int) (r : Relation) :
    Option RelationData :=
  r.target?.bind fun target =>
    match db.searchByName target none (Store.filterOf project) with
    | .ok (hit :: _) =>
      if db.admitsRelation r.kind then
        some { project, source := .int source, target := .int hit.id, kind := r.kind
               data := some (Json.write (.object r.fields)) }
      else none
    | _ => none

/-- The relationships that the relations of findings become. -/
def links (project : String) (source? : String → Option Int) (db : Database)
    (parsed : List Parsed) : List RelationData :=
  parsed.flatMap fun p => (source? p.finding.name).toList.flatMap fun id =>
    (p.relations.getD []).filterMap (link? project db id)

/-- Relationships that are stored already play no part in which are stored next. -/
theorem link?_congr (h : db.SameFaults db') (hsymbols : db'.store.symbols = db.store.symbols)
    (source : Int) (r : Relation) : link? project db' source r = link? project db source r := by
  simp only [link?, Database.searchByName_congr h hsymbols, h.admitsRelation]

theorem links_congr (h : db.SameFaults db') (hsymbols : db'.store.symbols = db.store.symbols)
    (source? : String → Option Int) (parsed : List Parsed) :
    links project source? db' parsed = links project source? db parsed := by
  have hlink : ∀ id, link? project db' id = link? project db id :=
    fun id => funext (link?_congr h hsymbols id)
  simp only [links, hlink]

theorem withRelations_sameFaults (db : Database) (ds : List RelationData) :
    db.SameFaults (db.withStore (db.store.insertRelations ds)) := by
  apply Database.SameFaults.withStore
  induction ds generalizing db with
  | nil => rfl
  | cons d rest ih => exact ih (db.withStore (db.store.insertRelation d).1)

theorem storeRelation_eq (project : String) (source : Int) (db : Database) (r : Relation) :
    storeRelation project source db r
      = db.withStore (db.store.insertRelations (link? project db source r).toList) := by
  rw [storeRelation, link?]
  cases r.target? with
  | none => rfl
  | some target =>
      dsimp only [Option.bind_some]
      cases db.searchByName target none (Store.filterOf project) with
      | error e => rfl
      | ok hits =>
          cases hits with
          | nil => rfl
          | cons hit rest =>
              dsimp only
              cases hadmits : db.admitsRelation r.kind with
              | true =>
                  rw [Database.addRelation_of_admits hadmits]
                  rfl
              | false =>
                  obtain ⟨e, he⟩ := Database.addRelation_of_not_admits
                    (d := ⟨project, .int source, .int hit.id, r.kind,
                      some (Json.write (.object r.fields))⟩) hadmits
                  rw [he]
                  rfl

theorem foldl_storeRelation_eq (project : String) (source : Int) (db : Database)
    (rs : List Relation) :
    rs.foldl (storeRelation project source) db
      = db.withStore (db.store.insertRelations (rs.filterMap (link? project db source))) := by
  induction rs generalizing db with
  | nil => rfl
  | cons r rest ih =>
      have hlink : link? project
          (db.withStore (db.store.insertRelations (link? project db source r).toList)) source
          = link? project db source :=
        funext (link?_congr (withRelations_sameFaults db _) (Store.symbols_insertRelations _ _)
          source)
      rw [List.foldl_cons, storeRelation_eq, ih, hlink, List.filterMap_cons]
      cases link? project db source r with
      | none => rfl
      | some d => rfl

/-- The relations of findings, stored one after another, are one list of relationships. -/
theorem foldl_storeRelationsOf_eq (project : String) (ids : List (String × Int)) (db : Database)
    (parsed : List Parsed) :
    parsed.foldl (storeRelationsOf project ids) db
      = db.withStore (db.store.insertRelations
          (links project (fun n => (ids.find? (·.1 == n)).map (·.2)) db parsed)) := by
  induction parsed generalizing db with
  | nil => rfl
  | cons p rest ih =>
      have hhere : storeRelationsOf project ids db p
          = db.withStore (db.store.insertRelations
              (links project (fun n => (ids.find? (·.1 == n)).map (·.2)) db [p])) := by
        rw [storeRelationsOf, links, List.flatMap_singleton]
        cases ids.find? (·.1 == p.finding.name) with
        | none => rfl
        | some entry =>
            obtain ⟨n, id⟩ := entry
            dsimp only
            rw [foldl_storeRelation_eq]
            simp
      rw [List.foldl_cons, hhere, ih, links_congr (withRelations_sameFaults db _)
        (Store.symbols_insertRelations _ _)]
      have hsplit : ∀ source?, links project source? db (p :: rest)
          = links project source? db [p] ++ links project source? db rest := by
        intro source?
        rw [links, links, links, List.flatMap_cons, List.flatMap_singleton]
      rw [hsplit, Store.insertRelations_append]
      rfl

/-! ## Symbols and their ids -/

/-- The ids that are noted while the symbols of a file are stored are those of the last symbols of
each name. -/
def Storing.Tracks (project path : String) (st : Storing) : Prop :=
  ∀ n, (st.ids.find? (·.1 == n)).map (·.2) = st.db.store.lastNamed? project path n

/-- Nothing is noted of a file that was just cleared, and nothing is stored of it. -/
theorem tracks_cleared (db : Database) (project path : String) :
    Storing.Tracks project path { db := db.cleared path project } := by
  intro n
  have hrows : (db.cleared path project).store.rowsOf project path = [] :=
    Store.rowsOf_removeFile_same db.store project path
  rw [Store.lastNamed?, hrows]
  rfl

theorem storeSymbol_tables {digest : String} {st : Storing} {s : Symbol}
    (h : st.db.admits (symbolData project digest s) = true) (vector : Option (List Value)) :
    (∃ embeddings, (storeSymbol project digest st s vector).db.store
        = { (st.db.store.insertSymbol (symbolData project digest s)).1 with embeddings }) ∧
      (storeSymbol project digest st s vector).ids
        = (s.name, (st.db.store.insertSymbol (symbolData project digest s)).2) :: st.ids := by
  refine ⟨?_, ?_⟩
  · rcases storeSymbol_cases project digest st s vector with ⟨hno, -⟩ | ⟨-, -, hstore⟩
    · exact absurd (h.symm.trans hno) (by decide)
    · exact hstore
  · rw [storeSymbol, Database.addSymbol_of_admits h]
    cases vector with
    | none => rfl
    | some v =>
        dsimp only
        split
        all_goals rfl

theorem storeSymbol_tracks (digest : String) {st : Storing} {s : Symbol} (hfile : s.file = path)
    (hst : st.Tracks project path) (vector : Option (List Value)) :
    (storeSymbol project digest st s vector).Tracks project path := by
  cases h : st.db.admits (symbolData project digest s) with
  | false =>
      rcases storeSymbol_cases project digest st s vector with ⟨-, hsame⟩ | ⟨hyes, -⟩
      · rw [hsame]
        exact hst
      · exact absurd (h.symm.trans hyes) (by decide)
  | true =>
      obtain ⟨⟨embeddings, hstore⟩, hids⟩ := storeSymbol_tables h vector
      intro n
      have hlast : (storeSymbol project digest st s vector).db.store.lastNamed? project path n
          = if s.name = n then
              some (st.db.store.insertSymbol (symbolData project digest s)).2
            else st.db.store.lastNamed? project path n := by
        rw [hstore]
        exact Store.lastNamed?_insertSymbol st.db.store (d := symbolData project digest s) rfl
          hfile n
      rw [hlast, hids, List.find?_cons]
      by_cases hn : s.name = n
      · simp [hn]
      · have hother : (s.name == n) = false := by simpa using hn
        rw [hother, if_neg hn]
        exact hst n

/-- Symbols that are stored one after another: those that are admitted, with their ids noted. -/
theorem storeEach_tables (digest : String) {st : Storing}
    {items : List (Symbol × Option (List Value))} (hfile : ∀ item ∈ items, item.1.file = path)
    (hst : st.Tracks project path) :
    (storeEach project digest st items).db.store.symbols
        = (st.db.store.insertSymbols
            ((items.map fun item => symbolData project digest item.1).filter
              st.db.admits)).symbols ∧
      (storeEach project digest st items).Tracks project path := by
  induction items generalizing st with
  | nil => exact ⟨rfl, hst⟩
  | cons item rest ih =>
      have hfaults := storeSymbol_sameFaults project digest st item.1 item.2
      obtain ⟨hsymbols, htracks⟩ := ih (fun i hi => hfile i (List.mem_cons_of_mem item hi))
        (storeSymbol_tracks digest (hfile item List.mem_cons_self) hst item.2)
      rw [storeEach_cons, hsymbols, hfaults.admits, List.map_cons]
      refine ⟨?_, htracks⟩
      cases h : st.db.admits (symbolData project digest item.1) with
      | false =>
          rcases storeSymbol_cases project digest st item.1 item.2 with ⟨-, hsame⟩ | ⟨hyes, -⟩
          · rw [hsame, List.filter_cons_of_neg (by rw [h]; decide)]
          · exact absurd (h.symm.trans hyes) (by decide)
      | true =>
          obtain ⟨⟨embeddings, hstore⟩, -⟩ := storeSymbol_tables h item.2
          rw [List.filter_cons_of_pos h, Store.insertSymbols_cons]
          apply Store.symbols_insertSymbols_congr
          · rw [hstore]
          · rw [hstore]

/-! ## A file -/

/-- The relationships that the work on a file stores, when its symbols are there. -/
def linksOf (x : Indexer) (project : String) (language : Option String) (path : String)
    (file : Option ByteArray) (db : Database) : List RelationData :=
  if x.wantsRelations language then
    links project (db.store.lastNamed? project path) db (x.parse path file)
  else []

theorem linksOf_congr (h : db.SameFaults db') (hsymbols : db'.store.symbols = db.store.symbols)
    (language : Option String) (path : String) (file : Option ByteArray) :
    x.linksOf project language path file db' = x.linksOf project language path file db := by
  have hlast : db'.store.lastNamed? project path = db.store.lastNamed? project path := by
    funext n
    simp only [Store.lastNamed?, Store.rowsOf, hsymbols]
  rw [linksOf, linksOf, hlast, links_congr h hsymbols]

/-- Without a symbol in the file there is nothing to start a relationship. -/
theorem linksOf_eq_nil (h : db.store.rowsOf project path = []) :
    x.linksOf project language path file db = [] := by
  have hnone : ∀ n, db.store.lastNamed? project path n = none := by
    intro n
    rw [Store.lastNamed?, h]
    rfl
  rw [linksOf, links]
  split
  · rw [List.flatMap_eq_nil_iff]
    intro p _
    rw [hnone]
    rfl
  · rfl

/-- A file with nothing to be stored is cleared, and no relationship starts in it. -/
theorem replaceFile_of_storable_nil (hnone : x.storable project path file = [])
    (language : Option String) (db : Database) :
    let st := db.store.replaceFile project path ((x.storable project path file).filter db.admits)
    st = db.store.removeFile path project ∧
      x.linksOf project language path file (db.withStore st) = [] := by
  intro st
  have hst : st = db.store.removeFile path project := by
    show Store.insertSymbols _ _ = _
    rw [hnone]
    rfl
  refine ⟨hst, linksOf_eq_nil ?_⟩
  rw [hst]
  exact Store.rowsOf_removeFile_same db.store project path

/-- The symbols of a file are stored in place of those from before, and their ids are noted. -/
theorem storeEach_replaces (project digest : String) (db : Database)
    {items : List (Symbol × Option (List Value))} (hfile : ∀ item ∈ items, item.1.file = path) :
    let data := items.map fun item => symbolData project digest item.1
    let st := db.store.replaceFile project path (data.filter db.admits)
    let stored := storeEach project digest { db := db.cleared path project } items
    stored.db.store.symbols = st.symbols ∧ stored.db.store.relations = st.relations ∧
      (db.withStore st).SameFaults stored.db ∧ stored.Tracks project path := by
  intro data st stored
  obtain ⟨hsymbols, htracks⟩ := storeEach_tables digest hfile (tracks_cleared db project path)
  have hadmits : (db.cleared path project).admits = db.admits :=
    (Database.SameFaults.withStore rfl).admits
  have hcleared : (db.withStore st).SameFaults
      ((db.withStore st).withStore (db.store.removeFile path project)) :=
    .withStore (Store.shared_insertSymbols _ _).symm
  refine ⟨?_, ?_, ?_, htracks⟩
  · rw [show stored.db.store.symbols = _ from hsymbols, hadmits]
    rfl
  · rw [show stored.db.store.relations = _ from
      (storeEach_store project digest { db := db.cleared path project } items).1]
    exact (Store.relations_insertSymbols _ _).symm
  · exact hcleared.trans
      (storeEach_sameFaults project digest { db := db.cleared path project } items)

/-- The tables after the work on a file that can be cleared: its symbols are replaced, and the
relationships that start at them are stored. -/
theorem indexFile_tables (hx : x.Lawful) (language : Option String) (file : Option ByteArray)
    (hclear : db.removeFile path project = .ok (db.cleared path project)) :
    let st := db.store.replaceFile project path ((x.storable project path file).filter db.admits)
    let after := (x.indexFile project language path file db).db.store
    after.symbols = st.symbols ∧
      after.relations = (st.insertRelations
        (x.linksOf project language path file (db.withStore st))).relations := by
  intro st after
  -- a file without symbols is cleared and that is all
  have hcleared : x.storable project path file = [] → after = (db.cleared path project).store →
      after.symbols = st.symbols ∧ after.relations = (st.insertRelations
        (x.linksOf project language path file (db.withStore st))).relations := by
    intro hnone hafter
    obtain ⟨hst, hlinks⟩ := replaceFile_of_storable_nil hnone language db
    rw [hafter, hlinks, show st = _ from hst]
    exact ⟨rfl, rfl⟩
  cases hx.found path file with
  | nothing hparse =>
      refine hcleared ?_ (congrArg (·.db.store) (indexFile_nothing hclear hparse))
      rw [storable, hparse]
      rfl
  | mention p rest m hparse hm =>
      refine hcleared (storable_of_raises ?_ project)
        (congrArg (·.db.store) (indexFile_mention hclear hparse hm))
      rw [raises, hparse, symbolsOf?, List.mapM_cons, hm]
      rfl
  | symbols symbols hne hsort hfile =>
      obtain ⟨items, stored, -, hitems, hstored, hdb, -⟩ :=
        indexFile_stored language hclear hne hsort
      have hdata : (items.map fun item => symbolData project (digestOf file) item.1)
          = x.storable project path file := by
        simp only [storable, symbolsOf?_eq_some hsort, ← hitems, List.map_map, Function.comp_def]
      have hfiles : ∀ item ∈ items, item.1.file = path := by
        intro item hitem
        apply hfile
        rw [← hitems]
        exact List.mem_map_of_mem hitem
      have hreplaced := storeEach_replaces project (digestOf file) db hfiles
      rw [← hstored, hdata] at hreplaced
      obtain ⟨hsymbols, hrelations, hfaults, htracks⟩ := hreplaced
      -- the ids that were noted are those of the last symbols, so the relations start there
      have hafter : after = stored.db.store.insertRelations
          (x.linksOf project language path file stored.db) := by
        rw [show after = _ from congrArg (·.store) hdb, linksOf]
        split
        · rw [foldl_storeRelationsOf_eq, funext htracks]
          rfl
        · rfl
      rw [hafter, linksOf_congr hfaults hsymbols]
      exact ⟨(Store.symbols_insertRelations _ _).trans hsymbols,
        Store.relations_insertRelations_congr hrelations _⟩

/-- The relationships after the work on a file that can be cleared are those from before with what
is found in the file, among the symbols that are there after the work. -/
theorem indexFile_relations (hx : x.Lawful) (language : Option String) (file : Option ByteArray)
    (hclear : db.removeFile path project = .ok (db.cleared path project)) :
    (x.indexFile project language path file db).db.store.relations
      = (db.store.insertRelations (x.linksOf project language path file
          (x.indexFile project language path file db).db)).relations := by
  obtain ⟨hsymbols, hrelations⟩ := indexFile_tables hx language file hclear
  have hfaults := (indexFile_sameFaults hx project path language file db).1
  generalize hst : db.store.replaceFile project path
    ((x.storable project path file).filter db.admits) = st at hsymbols hrelations
  have hshared : st.shared = db.store.shared := by
    rw [← hst]
    exact Store.shared_insertSymbols _ _
  have hbefore : st.relations = db.store.relations := by
    rw [← hst, Store.replaceFile, Store.relations_insertSymbols]
    rfl
  have hsame : (db.withStore st).SameFaults (x.indexFile project language path file db).db :=
    ⟨hfaults.broken, hfaults.rejections, hfaults.shared.trans hshared.symm, hfaults.dropped,
      hfaults.embeddings⟩
  rw [linksOf_congr hsame hsymbols, hrelations]
  exact Store.relations_insertRelations_congr hbefore _

/-! ## Where relationships begin and end -/

theorem link?_eq_some {source : Int} {r : Relation} {d : RelationData} :
    link? project db source r = some d ↔
      ∃ target hit rest, r.target? = some target ∧
        db.searchByName target none (Store.filterOf project) = .ok (hit :: rest) ∧
        db.admitsRelation r.kind = true ∧
        d = { project, source := .int source, target := .int hit.id, kind := r.kind
              data := some (Json.write (.object r.fields)) } := by
  constructor
  · intro h
    obtain ⟨target, htarget, h⟩ := Option.bind_eq_some_iff.mp h
    split at h
    next hit rest hsearch =>
      split at h
      next hadmits =>
        exact ⟨target, hit, rest, htarget, hsearch, hadmits, (Option.some.inj h).symm⟩
      next => exact absurd h (by simp)
    next => exact absurd h (by simp)
  · rintro ⟨target, hit, rest, htarget, hsearch, hadmits, rfl⟩
    rw [link?, htarget, Option.bind_some, hsearch]
    exact if_pos hadmits

/-- The relationships of a file come from its findings, each from the last symbol of its name. -/
theorem mem_linksOf {d : RelationData} :
    d ∈ x.linksOf project language path file db ↔
      x.wantsRelations language = true ∧
        ∃ p ∈ x.parse path file, ∃ r ∈ p.relations.getD [], ∃ id,
          db.store.lastNamed? project path p.finding.name = some id ∧
          link? project db id r = some d := by
  rw [linksOf]
  split
  next hwants =>
    simp only [hwants, true_and, links, List.mem_flatMap, Option.mem_toList, List.mem_filterMap]
    constructor
    · rintro ⟨p, hp, id, hid, r, hr, hlink⟩
      exact ⟨p, hp, r, hr, id, hid, hlink⟩
    · rintro ⟨p, hp, r, hr, id, hid, hlink⟩
      exact ⟨p, hp, id, hid, r, hr, hlink⟩
  next hwants => simp [hwants]

/-- The relationships of a file begin at its symbols and end at stored symbols. -/
theorem ends_of_mem_linksOf {d : RelationData} (h : d ∈ x.linksOf project language path file db) :
    d.project = project ∧ (∃ s ∈ db.store.rowsOf project path, d.source = .int s.id) ∧
      ∃ t ∈ db.store.symbols, d.target = .int t.id := by
  obtain ⟨-, p, -, r, -, id, hid, hlink⟩ := mem_linksOf.mp h
  obtain ⟨s, hs, -, rfl⟩ := Store.exists_of_lastNamed? hid
  obtain ⟨target, hit, rest, -, hsearch, -, rfl⟩ := link?_eq_some.mp hlink
  have hhit := Database.mem_of_searchByName hsearch List.mem_cons_self
  exact ⟨rfl, ⟨s, hs, rfl⟩, hit, (List.mem_filter.mp hhit).1, rfl⟩

end Indexer

end SymbolAtlas
