/-
  SymbolAtlas.Proofs.RelationCalls: the calls by which a run stores relationships.

  When the symbols of a file are stored, one call is made for each relation that starts at a stored
  symbol and whose target is found. A call may still be refused, so the calls are more than the
  relationships that come of them, and the work on a file is the storing of its symbols followed by
  its calls (`outcome_eq_serveAll`). No call touches a symbol. What a call joins is therefore what
  was stored before the first of them.
-/

import SymbolAtlas.Proofs.Actions
import SymbolAtlas.Proofs.Rework

namespace SymbolAtlas

/-- A call that stores a relationship, with the finding and the relation for which it is made. -/
structure RelationCall where
  carrier : Parsed
  relation : Relation
  data : RelationData

namespace Database

variable {db : Database}

/-! ## Calls -/

/-- The database after a call; nothing changes when it is refused. -/
def serve (db : Database) (call : RelationCall) : Database :=
  db.orElse ((db.addRelation call.data).map (·.1))

/-- The database after calls, one after another. -/
def serveAll (db : Database) (calls : List RelationCall) : Database := calls.foldl serve db

theorem serveAll_append (db : Database) (calls more : List RelationCall) :
    db.serveAll (calls ++ more) = (db.serveAll calls).serveAll more :=
  List.foldl_append

theorem symbols_serve (db : Database) (call : RelationCall) :
    (db.serve call).store.symbols = db.store.symbols := by
  rcases db.addRelation_cases call.data with ⟨e, h⟩ | h
  · rw [serve, h]
    rfl
  · rw [serve, h]
    rfl

/-- Calls leave all symbols as they are. -/
@[simp] theorem symbols_serveAll (db : Database) (calls : List RelationCall) :
    (db.serveAll calls).store.symbols = db.store.symbols := by
  induction calls generalizing db with
  | nil => rfl
  | cons call rest ih => exact (ih (db.serve call)).trans (symbols_serve db call)

/-! ## Positive ids -/

/-- All symbols have ids from 1 on. -/
def PositiveIds (db : Database) : Prop := ∀ r ∈ db.store.symbols, 1 ≤ r.id

theorem PositiveIds.perform (h : db.PositiveIds) (op : Operation) :
    (db.perform op).PositiveIds := by
  rcases db.perform_symbols op with ⟨-, hsub⟩ | ⟨row, kept, -, hsub, hsymbols, hid⟩
  · exact fun r hr => h r (hsub.mem hr)
  · rw [PositiveIds, hsymbols]
    exact Store.one_le_id_concat h hsub hid

end Database

namespace Indexer

variable {x : Indexer} {project digest : String} {source : Int} {carrier : Parsed}
  {db : Database} {call : RelationCall} {w : Work}

theorem positiveIds_storeSymbol {st : Storing} (h : st.db.PositiveIds) (s : Symbol)
    (vector : Option (List Value)) :
    (storeSymbol project digest st s vector).db.PositiveIds := by
  rcases storeSymbol_cases project digest st s vector with ⟨-, hsame⟩ | ⟨-, -, embeddings, hstore⟩
  · rw [hsame]
    exact h
  · rw [Database.PositiveIds, hstore]
    exact Store.one_le_id_concat h List.filter_sublist rfl

theorem positiveIds_storeEach {st : Storing} (h : st.db.PositiveIds)
    (items : List (Symbol × Option (List Value))) :
    (storeEach project digest st items).db.PositiveIds := by
  induction items generalizing st with
  | nil => exact h
  | cons item rest ih => exact ih (positiveIds_storeSymbol h item.1 item.2)

theorem positiveIds_outcome (hx : x.Lawful) (h : w.before.PositiveIds) :
    (x.outcome w).db.PositiveIds := by
  rcases indexFile_cases hx w.project w.path w.language w.file w.before with
    ⟨e, -, hsame⟩ | ⟨-, items, st, relations, -, -, hst, hdb, -⟩
  · rw [outcome, hsame]
    exact h
  · have hcleared : (w.before.cleared w.path w.project).PositiveIds :=
      fun r hr => h r (List.mem_filter.mp hr).1
    rw [outcome, hdb, hst]
    exact positiveIds_storeEach hcleared items

/-- A run keeps ids positive, at each of its works and after it. -/
theorem positiveIds_visit (hx : x.Lawful) (h : db.PositiveIds) (v : Visit) :
    (∀ w ∈ x.works v db, w.before.PositiveIds) ∧ (x.visit db v).PositiveIds :=
  visit_induction (fun _ _ h => h) h fun _ _ hw => positiveIds_outcome hx hw

/-! ## The calls for relations -/

/-- The call for a relation of a finding, from the symbol of an id: none when the relation names no
target or a search for the target finds nothing. -/
def callFor? (project : String) (source : Int) (carrier : Parsed) (db : Database)
    (r : Relation) : Option RelationCall :=
  r.target?.bind fun target =>
    match db.searchByName target none (Store.filterOf project) with
    | .ok (hit :: _) =>
      some { carrier, relation := r
             data := { project, source := .int source, target := .int hit.id, kind := r.kind
                       data := some (Json.write (.object r.fields)) } }
    | _ => none

/-- The calls for relations of a finding, each made after the ones before it. -/
def callsFrom (project : String) (source : Int) (carrier : Parsed) :
    Database → List Relation → List RelationCall
  | _, [] => []
  | db, r :: rest =>
    (callFor? project source carrier db r).toList ++
      callsFrom project source carrier (storeRelation project source db r) rest

/-- The calls for the relations of a finding, from the symbol whose id is noted for its name. -/
def callsOf (project : String) (ids : List (String × Int)) (db : Database) (p : Parsed) :
    List RelationCall :=
  match ids.find? (·.1 == p.finding.name) with
  | some (_, id) => callsFrom project id p db (p.relations.getD [])
  | none => []

/-- The calls for the relations of findings, one finding after another. -/
def allCallsOf (project : String) (ids : List (String × Int)) :
    Database → List Parsed → List RelationCall
  | _, [] => []
  | db, p :: rest =>
    callsOf project ids db p ++ allCallsOf project ids (storeRelationsOf project ids db p) rest

/-- A relation is stored by its call, if there is one. -/
theorem storeRelation_eq_serveAll (project : String) (source : Int) (carrier : Parsed)
    (db : Database) (r : Relation) :
    storeRelation project source db r
      = db.serveAll (callFor? project source carrier db r).toList := by
  rw [storeRelation, callFor?]
  cases r.target? with
  | none => rfl
  | some target =>
      dsimp only [Option.bind_some]
      cases db.searchByName target none (Store.filterOf project) with
      | error e => rfl
      | ok hits =>
          cases hits with
          | nil => rfl
          | cons hit rest =>
              rw [Option.toList_some, Database.serveAll, List.foldl_cons, List.foldl_nil,
                Database.serve]
              dsimp only
              split
              next h => rw [h]; rfl
              next h => rw [h]; rfl

theorem foldl_storeRelation_eq_serveAll (project : String) (source : Int) (carrier : Parsed)
    (db : Database) (rs : List Relation) :
    rs.foldl (storeRelation project source) db
      = db.serveAll (callsFrom project source carrier db rs) := by
  induction rs generalizing db with
  | nil => rfl
  | cons r rest ih =>
      rw [List.foldl_cons, ih, callsFrom, Database.serveAll_append,
        ← storeRelation_eq_serveAll project source carrier db r]

theorem storeRelationsOf_eq_serveAll (project : String) (ids : List (String × Int))
    (db : Database) (p : Parsed) :
    storeRelationsOf project ids db p = db.serveAll (callsOf project ids db p) := by
  rw [storeRelationsOf, callsOf]
  cases ids.find? (·.1 == p.finding.name) with
  | none => rfl
  | some entry => exact foldl_storeRelation_eq_serveAll project entry.2 p db _

theorem foldl_storeRelationsOf_eq_serveAll (project : String) (ids : List (String × Int))
    (db : Database) (parsed : List Parsed) :
    parsed.foldl (storeRelationsOf project ids) db
      = db.serveAll (allCallsOf project ids db parsed) := by
  induction parsed generalizing db with
  | nil => rfl
  | cons p rest ih =>
      rw [List.foldl_cons, ih, allCallsOf, Database.serveAll_append,
        ← storeRelationsOf_eq_serveAll project ids db p]

/-- What a call is made for, and where it leads from and to. -/
structure CallsFor (project : String) (source : Int) (carrier : Parsed) (db : Database)
    (call : RelationCall) : Prop where
  carrier_eq : call.carrier = carrier
  project_eq : call.data.project = project
  source_eq : call.data.source = .int source
  target : ∃ hit ∈ db.store.inScope none (Store.filterOf project), call.data.target = .int hit.id

theorem callsFor_of_callFor? {r : Relation}
    (h : callFor? project source carrier db r = some call) :
    CallsFor project source carrier db call ∧ call.relation = r := by
  rw [callFor?, Option.bind_eq_some_iff] at h
  obtain ⟨target, -, h⟩ := h
  split at h
  next hit rest hsearch =>
    obtain rfl := Option.some.inj h
    exact ⟨⟨rfl, rfl, rfl, hit, Database.mem_of_searchByName hsearch List.mem_cons_self, rfl⟩, rfl⟩
  next => exact absurd h (by simp)

/-- What is found by a search stays when relationships are stored. -/
theorem CallsFor.congr {db' : Database} (h : CallsFor project source carrier db' call)
    (hsymbols : db'.store.symbols = db.store.symbols) :
    CallsFor project source carrier db call := by
  obtain ⟨hit, hhit, htarget⟩ := h.target
  rw [Store.inScope, hsymbols] at hhit
  exact ⟨h.carrier_eq, h.project_eq, h.source_eq, hit, hhit, htarget⟩

theorem callsFor_of_mem_callsFrom {rs : List Relation}
    (h : call ∈ callsFrom project source carrier db rs) :
    CallsFor project source carrier db call ∧ call.relation ∈ rs := by
  induction rs generalizing db with
  | nil => exact absurd h List.not_mem_nil
  | cons r rest ih =>
      rcases List.mem_append.mp h with hhere | hlater
      · obtain ⟨hfor, hr⟩ := callsFor_of_callFor? (Option.mem_toList.mp hhere)
        exact ⟨hfor, hr ▸ List.mem_cons_self⟩
      · obtain ⟨hfor, hr⟩ := ih hlater
        -- a later call searches among the same symbols
        refine ⟨hfor.congr ?_, List.mem_cons_of_mem r hr⟩
        rw [storeRelation_eq_serveAll project source carrier, Database.symbols_serveAll]

theorem callsFor_of_mem_callsOf {ids : List (String × Int)} {p : Parsed}
    (h : call ∈ callsOf project ids db p) :
    call.relation ∈ p.relations.getD [] ∧
      ∃ id, (ids.find? (·.1 == p.finding.name)).map (·.2) = some id ∧
        CallsFor project id p db call := by
  rw [callsOf] at h
  split at h
  next name id hfound =>
    obtain ⟨hfor, hr⟩ := callsFor_of_mem_callsFrom h
    exact ⟨hr, id, by rw [hfound]; rfl, hfor⟩
  next => exact absurd h List.not_mem_nil

/-- A call is made for a relation of a finding, from the symbol that is noted for its name. -/
theorem callsFor_of_mem_allCallsOf {ids : List (String × Int)} {parsed : List Parsed}
    (h : call ∈ allCallsOf project ids db parsed) :
    call.carrier ∈ parsed ∧ call.relation ∈ call.carrier.relations.getD [] ∧
      ∃ id, (ids.find? (·.1 == call.carrier.finding.name)).map (·.2) = some id ∧
        CallsFor project id call.carrier db call := by
  induction parsed generalizing db with
  | nil => exact absurd h List.not_mem_nil
  | cons p rest ih =>
      rcases List.mem_append.mp h with hhere | hlater
      · obtain ⟨hr, id, hid, hfor⟩ := callsFor_of_mem_callsOf hhere
        obtain rfl := hfor.carrier_eq
        exact ⟨List.mem_cons_self, hr, id, hid, hfor⟩
      · obtain ⟨hcarrier, hr, id, hid, hfor⟩ := ih hlater
        refine ⟨List.mem_cons_of_mem p hcarrier, hr, id, hid, hfor.congr ?_⟩
        rw [storeRelationsOf_eq_serveAll, Database.symbols_serveAll]

/-! ## A file -/

/-- The symbols that are found in a file are stored, batch by batch. -/
def storeFindings (x : Indexer) (w : Work) (db : Database) : Storing × Option MissingField :=
  let parsed := x.parse w.path w.file
  x.storeBatches w.project (digestOf w.file) { db }
    (Embedding.chunksOf (batchSize parsed.length - 1) parsed)

/-- The database when the symbols of a file are stored and no relation is. -/
def unlinked (x : Indexer) (w : Work) : Database :=
  match w.before.removeFile w.path w.project with
  | .error _ => w.before
  | .ok db => (x.storeFindings w db).1.db

/-- The calls that store the relations of a file. -/
def relationCalls (x : Indexer) (w : Work) : List RelationCall :=
  match w.before.removeFile w.path w.project with
  | .error _ => []
  | .ok db =>
    match x.storeFindings w db with
    | (_, some _) => []
    | (st, none) =>
      if x.wantsRelations w.language then
        allCallsOf w.project st.ids st.db (x.parse w.path w.file)
      else []

theorem storeFindings_nil (h : x.parse w.path w.file = []) (db : Database) :
    x.storeFindings w db = ({ db }, none) := by
  simp only [storeFindings, h, Embedding.chunksOf, storeBatches]

/-- The work on a file stores its symbols and then makes its calls. -/
theorem outcome_eq_serveAll (x : Indexer) (w : Work) :
    (x.outcome w).db = (x.unlinked w).serveAll (x.relationCalls w) := by
  rw [unlinked, relationCalls]
  cases hclear : w.before.removeFile w.path w.project with
  | error e =>
      rw [outcome, indexFile_refused hclear]
      rfl
  | ok db =>
      dsimp only
      by_cases hparse : x.parse w.path w.file = []
      · rw [outcome, indexFile_nothing hclear hparse, storeFindings_nil hparse, hparse]
        simp only [allCallsOf, ite_self]
        rfl
      · have hstored : x.outcome w = x.storeParsed w.project w.language (digestOf w.file)
            (x.parse w.path w.file) db := by
          simp only [outcome, indexFile, hclear]
        rw [hstored, storeParsed, ← storeFindings]
        cases x.storeFindings w db with
        | mk st e =>
            cases e with
            | some e => rfl
            | none =>
                dsimp only
                split
                · exact foldl_storeRelationsOf_eq_serveAll w.project st.ids st.db _
                · rfl

/-- The ids that are noted when the symbols of a file are stored are those of the last symbols of
each name. -/
theorem tracks_storeFindings (hx : x.Lawful) {st : Storing}
    (h : x.storeFindings w (w.before.cleared w.path w.project) = (st, none)) :
    st.Tracks w.project w.path := by
  have hstart := tracks_cleared w.before w.project w.path
  cases hx.found w.path w.file with
  | nothing hparse =>
      rw [storeFindings_nil hparse] at h
      obtain rfl := (Prod.mk.inj h).1
      exact hstart
  | mention p rest m hparse hm =>
      rw [storeFindings, hparse] at h
      simp only [Embedding.chunksOf, storeBatches_mention x _ _ _ hm] at h
      exact absurd h (by simp)
  | symbols symbols hne hsort hfile =>
      obtain ⟨items, -, hitems, ⟨hdb, hids, -⟩, -⟩ := storeBatches_found x w.project
        (digestOf w.file) (w.before.cleared w.path w.project) hsort
      have hfiles : ∀ item ∈ items, item.1.file = w.path := by
        intro item hitem
        apply hfile
        rw [← hitems]
        exact List.mem_map_of_mem hitem
      -- batches note the same ids as their symbols one after another
      have htracks := (storeEach_tables (digestOf w.file) hfiles hstart).2
      rw [← storeFindings, h] at hdb hids
      rw [Storing.Tracks, ← hdb, ← hids] at htracks
      exact htracks

/-- A call joins symbols that are there when the first call is made: it starts at a symbol of the
file that has the name of the finding, and it ends in the scope of the project. -/
theorem exists_rows_of_mem_relationCalls (hx : x.Lawful) (h : call ∈ x.relationCalls w) :
    call.carrier ∈ x.parse w.path w.file ∧ call.relation ∈ call.carrier.relations.getD [] ∧
      call.data.project = w.project ∧
      (∃ r ∈ (x.unlinked w).store.rowsOf w.project w.path,
        r.name = call.carrier.finding.name ∧ call.data.source = .int r.id) ∧
      ∃ r ∈ (x.unlinked w).store.inScope none (Store.filterOf w.project),
        call.data.target = .int r.id := by
  rcases w.before.removeFile_cases w.path w.project with ⟨e, hclear⟩ | hclear
  · rw [relationCalls, hclear] at h
    exact absurd h List.not_mem_nil
  · rw [relationCalls, hclear] at h
    rw [unlinked, hclear]
    dsimp only at h ⊢
    split at h
    next => exact absurd h List.not_mem_nil
    next st hstored =>
      split at h
      next hwants =>
        obtain ⟨hcarrier, hr, id, hid, hfor⟩ := callsFor_of_mem_allCallsOf h
        rw [tracks_storeFindings hx hstored] at hid
        obtain ⟨r, hrow, hname, rfl⟩ := Store.exists_of_lastNamed? hid
        rw [hstored]
        exact ⟨hcarrier, hr, hfor.project_eq, ⟨r, hrow, hname, hfor.source_eq⟩, hfor.target⟩
      next => exact absurd h List.not_mem_nil

end Indexer

namespace Database

theorem PositiveIds.act {db : Database} (h : db.PositiveIds) (action : Action) :
    (db.act action).PositiveIds := by
  cases action with
  | operation op => exact h.perform op
  | index a model v =>
      exact (Indexer.positiveIds_visit (Indexer.ofAnalyzer_lawful a model) h v).2

theorem PositiveIds.foldl_act {db : Database} (h : db.PositiveIds) (actions : List Action) :
    (actions.foldl Database.act db).PositiveIds := by
  induction actions generalizing db with
  | nil => exact h
  | cons action rest ih => exact ih (h.act action)

end Database

namespace Indexer

/-- Whatever is done to a database whose ids are positive, and whatever faults it has, a run for a
project makes calls that join stored symbols. The work on a file stores its symbols and then makes
its calls one after another. When a call is made for a relation of a finding, its source is the id
of a symbol of the file with the name of the finding, its target is the id of a symbol of the
project, and both are positive. -/
theorem relationCalls_join_stored {start : Database} (hstart : start.PositiveIds)
    (actions : List Action) (a : Analyzer) (model : Option Model) (v : Visit)
    (hproject : v.project ≠ "") (w : Work)
    (hw : w ∈ (ofAnalyzer a model).works v (actions.foldl Database.act start)) :
    let x := ofAnalyzer a model
    (x.outcome w).db = (x.unlinked w).serveAll (x.relationCalls w) ∧
      ∀ before call after, x.relationCalls w = before ++ call :: after →
        let db := (x.unlinked w).serveAll before
        call.carrier ∈ x.parse w.path (v.read? w.path) ∧
          call.relation ∈ call.carrier.relations.getD [] ∧ call.data.project = v.project ∧
          (∃ r ∈ db.store.symbols, r.project = v.project ∧ r.file = w.path ∧
            r.name = call.carrier.finding.name ∧ call.data.source = .int r.id ∧ 1 ≤ r.id) ∧
          ∃ r ∈ db.store.symbols, r.project = v.project ∧ call.data.target = .int r.id ∧
            1 ≤ r.id := by
  intro x
  have hx : x.Lawful := ofAnalyzer_lawful a model
  refine ⟨outcome_eq_serveAll x w, ?_⟩
  intro before call after hsplit db
  obtain ⟨hwproject, -, hfile⟩ := of_mem_works hw
  -- the symbols at the call are those after the work, so that their ids are positive
  have hids : (x.unlinked w).PositiveIds := by
    have hafter := positiveIds_outcome hx
      ((positiveIds_visit hx (hstart.foldl_act actions) v).1 w hw)
    rw [outcome_eq_serveAll, Database.PositiveIds, Database.symbols_serveAll] at hafter
    exact hafter
  have hsymbols : db.store.symbols = (x.unlinked w).store.symbols :=
    Database.symbols_serveAll _ before
  have hmem : call ∈ x.relationCalls w := by
    rw [hsplit]
    exact List.mem_append_right before List.mem_cons_self
  obtain ⟨hcarrier, hr, hcall, ⟨source, hsource, hname, hfrom⟩, target, htarget, hto⟩ :=
    exists_rows_of_mem_relationCalls hx hmem
  rw [hwproject] at hcall hsource htarget
  rw [hfile] at hcarrier
  obtain ⟨hsource, hsproject, hsfile⟩ := Store.mem_rowsOf.mp hsource
  obtain ⟨htarget, -, htproject⟩ := Store.mem_inScope_iff.mp htarget
  have hfilter : v.project ∈ Store.filterOf v.project := by
    rw [Store.filterOf, if_neg hproject]
    rfl
  rw [hsymbols]
  exact ⟨hcarrier, hr, hcall,
    ⟨source, hsource, hsproject, hsfile, hname, hfrom, hids source hsource⟩,
    target, htarget, htproject _ hfilter, hto, hids target htarget⟩

/-- A database that lets in no calls of functions: none is stored, and still each of the three that
are asked for starts at the function in which it was found. -/
theorem relationCalls_join_stored_refused :
    let x := ofAnalyzer functions none
    let v := Visit.ofFiles [("a.py", "def run(): pass\ndef use(): run()\n")]
    let start : Database := { rejections := [.relationOfKind "calls"] }
    ∃ w ∈ x.works v start, (x.relationCalls w).length = 3 ∧
      (x.outcome w).db.store.relations.length = 0 ∧
      ∀ call ∈ x.relationCalls w, ∃ r ∈ (x.outcome w).db.store.symbols,
        r.name = call.carrier.finding.name ∧ call.data.source = .int r.id := by
  intro x v start
  have hstart : start.PositiveIds := fun r hr => absurd hr List.not_mem_nil
  have hfacts : ∃ w ∈ x.works v start, (x.relationCalls w).length = 3 ∧
      (x.outcome w).db.store.relations.length = 0 := by
    decide +kernel
  obtain ⟨w, hw, hcount, hrefused⟩ := hfacts
  refine ⟨w, hw, hcount, hrefused, ?_⟩
  intro call hcall
  obtain ⟨before, after, hsplit⟩ := List.append_of_mem hcall
  obtain ⟨hdb, hcalls⟩ := relationCalls_join_stored hstart [] functions none v (by decide) w hw
  obtain ⟨-, -, -, ⟨r, hr, -, -, hname, hsource, -⟩, -⟩ := hcalls before call after hsplit
  refine ⟨r, ?_, hname, hsource⟩
  rw [hdb, Database.symbols_serveAll]
  rwa [Database.symbols_serveAll] at hr

end Indexer

end SymbolAtlas
