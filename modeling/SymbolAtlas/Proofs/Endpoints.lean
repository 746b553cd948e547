/-
  SymbolAtlas.Proofs.Endpoints: what a server shows of what is stored.

  After runs over directories, the views of a project's symbols, the list of projects, the
  dependency graph, the relationships of a symbol and the count of embeddings show what the database
  has exactly if it has nothing to show (`endpoints_show_iff`). Each of them fails at the first row,
  or tells a count that is always zero: rows are not turned into records, projects are asked for a
  name and nodes for a line that they do not have, and the text that a relationship carries is taken
  for a record.
-/

import SymbolAtlas.Proofs.Ends
import SymbolAtlas.Proofs.KeyOrder
import SymbolAtlas.Proofs.NameSearch
import SymbolAtlas.Service.Resource

namespace SymbolAtlas

/-! ## Showing what is there -/

/-- Whether a view lists rows: all of them, and each as often as it is stored. -/
def Answer.ShowsRows (view : Answer Value) (rows : List SymbolRow) : Prop :=
  ∃ fields shown, view = .ok (.object fields) ∧
    Value.field? "symbols" fields = some (.list (shown.map fun r => .object r.fields)) ∧
    List.Perm shown rows

/-- A view that is empty without rows and fails with some shows its rows if there are none. -/
theorem Answer.showsRows_iff_of_fails {fields : List (String × Value)}
    (hfields : Value.field? "symbols" fields = some (.list [])) (e : ServiceError)
    (rows : List SymbolRow) :
    Answer.ShowsRows (if rows.isEmpty then .ok (.object fields) else .error e) rows ↔
      rows = [] := by
  cases rows with
  | nil => exact iff_of_true ⟨fields, [], rfl, hfields, .nil⟩ rfl
  | cons r rest =>
      refine iff_of_false ?_ (by simp)
      rintro ⟨shown, listed, hview, -⟩
      exact absurd hview (by simp)

namespace Reply

/-- Whether a reply tells no failure and has a number of items under a key. -/
def HasItems (reply : Reply) (key : String) (n : Nat) : Prop :=
  ∃ fields items, reply.answer = .ok fields ∧
    Value.field? "success" fields ≠ some (.bool false) ∧
    Value.field? key fields = some (.list items) ∧ items.length = n

/-- Whether a reply tells a number of embeddings. -/
def TellsEmbeddings (reply : Reply) (n : Nat) : Prop :=
  ∃ fields counts, reply.answer = .ok fields ∧
    Value.field? "database_stats" fields = some (.object counts) ∧
    Value.field? "total_embeddings" counts = some (.ofNat n)

theorem not_hasItems_of_error {reply : Reply} {e : ServiceError} (h : reply.answer = .error e)
    (key : String) (n : Nat) : ¬ reply.HasItems key n := by
  rintro ⟨fields, items, hfields, -⟩
  exact absurd (h.symm.trans hfields) (by simp)

end Reply

/-! ## Views of symbols -/

namespace Store

theorem inScope_project (st : Store) (p : String) :
    st.inScope none (some p) = st.symbols.filter fun r => r.project == p := by
  rw [inScope]
  congr 1
  funext r
  rw [passes, passes, Bool.true_and, Bool.beq_comm]

end Store

namespace Resource

variable {db : Database}

theorem rowsOf_text (h : db.Sound) (p : String) :
    rowsOf db (.text p) = .ok (db.store.symbols.filter fun r => r.project == p) := by
  rw [rowsOf, Database.connect_ok h.opens, Database.need_ok (h.has .symbols),
    ← Store.inScope_project]
  rfl

theorem symbolsView_text (h : db.Sound) (p : String) :
    symbolsView db (.text p)
      = if (db.store.symbols.filter fun r => r.project == p).isEmpty then
          .ok (.object
            [("project_id", .text p), ("total_symbols", .ofNat 0), ("symbols", .list [])])
        else .error .rowShape := by
  rw [symbolsView, rowsOf_text h]
  cases db.store.symbols.filter fun r => r.project == p with
  | nil => rfl
  | cons r rest => rfl

/-- The symbols of a project are shown if there are none. -/
theorem symbolsView_shows_iff (h : db.Sound) (p : String) :
    (symbolsView db (.text p)).ShowsRows (db.store.symbols.filter fun r => r.project == p) ↔
      (db.store.symbols.filter fun r => r.project == p) = [] := by
  rw [symbolsView_text h]
  exact Answer.showsRows_iff_of_fails rfl _ _

theorem languageSymbolsView_text (h : db.Sound) (p l : String) :
    languageSymbolsView db (.text p) (.text l)
      = if (db.store.symbols.filter fun r => r.project == p && r.language == l).isEmpty then
          .ok (.object [("project_id", .text p), ("language", .text l), ("total_symbols", .ofNat 0),
            ("symbols", .list [])])
        else .error .rowShape := by
  have hbind : Database.bindText 2 (.text l) = .ok (some l) := rfl
  have hview : languageSymbolsView db (.text p) (.text l)
      = if (db.store.symbols.filter fun r => r.project == p).any
            (fun r => some l == some r.language) then
          .error .rowShape
        else .ok (.object [("project_id", .text p), ("language", .text l),
          ("total_symbols", .ofNat 0), ("symbols", .list [])]) := by
    rw [languageSymbolsView, rowsOf_text h, hbind]
    rfl
  rw [hview]
  -- the language is looked for among the rows of the project, which is a filter by both
  cases hrows : db.store.symbols.filter fun r => r.project == p && r.language == l with
  | nil =>
      refine if_neg fun hany => ?_
      obtain ⟨r, hr, hl⟩ := List.any_eq_true.mp hany
      obtain ⟨hmem, hp⟩ := List.mem_filter.mp hr
      have hlanguage : r.language = l := (Option.some.inj (beq_iff_eq.mp hl)).symm
      exact List.filter_eq_nil_iff.mp hrows r hmem (by rw [hp, hlanguage, beq_self_eq_true]; rfl)
  | cons r rest =>
      have hr : r ∈ db.store.symbols.filter fun r => r.project == p && r.language == l :=
        hrows ▸ List.mem_cons_self
      obtain ⟨hmem, hboth⟩ := List.mem_filter.mp hr
      obtain ⟨hp, hl⟩ := Bool.and_eq_true_iff.mp hboth
      refine if_pos (List.any_eq_true.mpr ⟨r, List.mem_filter.mpr ⟨hmem, hp⟩, ?_⟩)
      rw [beq_iff_eq.mp hl, beq_self_eq_true]

/-- The symbols of a language in a project are shown if there are none. -/
theorem languageSymbolsView_shows_iff (h : db.Sound) (p l : String) :
    (languageSymbolsView db (.text p) (.text l)).ShowsRows
        (db.store.symbols.filter fun r => r.project == p && r.language == l) ↔
      (db.store.symbols.filter fun r => r.project == p && r.language == l) = [] := by
  rw [languageSymbolsView_text h]
  exact Answer.showsRows_iff_of_fails rfl _ _

end Resource

/-! ## Lists of projects and of nodes -/

namespace Store

theorem seen_subset_distinctNodes (seen rows : List SymbolRow) :
    seen ⊆ distinctNodes seen rows := by
  induction rows generalizing seen with
  | nil => exact List.Subset.refl seen
  | cons r rest ih =>
      rw [distinctNodes]
      split
      · exact ih seen
      · exact List.Subset.trans (List.subset_append_left seen [r]) (ih (seen ++ [r]))

theorem distinctNodes_eq_nil {rows : List SymbolRow} : distinctNodes [] rows = [] ↔ rows = [] := by
  cases rows with
  | nil => exact Iff.rfl
  | cons r rest =>
      have hr : r ∈ distinctNodes [] (r :: rest) :=
        seen_subset_distinctNodes [r] rest List.mem_cons_self
      exact iff_of_false (List.ne_nil_of_mem hr) (by simp)

/-- The graph has nodes if it has edges. -/
theorem graphNodes_eq_nil {st : Store} {project : Option String} :
    st.graphNodes project = [] ↔ st.graphEdges project = [] := by
  rw [graphNodes, distinctNodes_eq_nil]
  cases st.graphEdges project with
  | nil => exact iff_of_true rfl rfl
  | cons e rest => exact iff_of_false (by simp) (by simp)

end Store

namespace Database

variable {db : Database}

theorem Sound.summaries_ok (h : db.Sound) : db.summaries = .ok db.store.summaries := by
  rw [summaries, connect_ok h.opens, need_ok (h.has .symbols)]
  rfl

theorem Sound.projectInfo_ok (h : db.Sound) (project : String) :
    db.projectInfo project = .ok (db.store.project? project) := by
  rw [projectInfo, connect_ok h.opens, need_ok (h.has .projects)]
  rfl

theorem Sound.graph_ok (h : db.Sound) (project : Option String) :
    db.graph project = .ok (db.store.graphNodes project, db.store.graphEdges project) := by
  rw [graph, connect_ok h.opens, need_ok (h.has .relationships), need_ok (h.has .symbols)]
  rfl

theorem Sound.relationsOf_ok (h : db.Sound) (symbol : Cell) (kind : Option String)
    (direction : Direction) (project : Option String) :
    db.relationsOf symbol kind direction project
      = .ok (db.store.relationsOf symbol kind direction project) := by
  rw [relationsOf, connect_ok h.opens, need_ok (h.has .relationships), need_ok (h.has .symbols)]
  rfl

end Database

/-! ## Relationships as records -/

namespace Edge

theorem directionFrom_mem (e : Edge) (symbol : Cell) :
    e.directionFrom symbol ∈ Schema.direction.members := by
  rw [directionFrom]
  split
  · decide
  · decide

/-- The text that a relationship carries is no record, whatever its kind. -/
theorem relationship_refused {kind direction text : String}
    (hkind : kind ∈ Schema.relationshipType.members)
    (hdirection : direction ∈ Schema.direction.members) (htext : text ≠ "") :
    Answer.record Schema.relationship
        [("type", .text kind), ("direction", .text direction), ("data", .text text)]
      = .error (.invalid (.invalid "Relationship" [⟨["data"], .notDict⟩])) := by
  have hkind' : Schema.relationshipType.member? (.text kind) = some kind := by
    rw [Enumeration.member?, if_pos (List.contains_iff_mem.mpr hkind)]
  have hdirection' : Schema.direction.member? (.text direction) = some direction := by
    rw [Enumeration.member?, if_pos (List.contains_iff_mem.mpr hdirection)]
  simp [Answer.record, Record.build, Schema.usesReserved, Schema.reservedName, hkind', hdirection',
    htext, Schema.relationship, Schema.need, Schema.may, Schema.checkFields, Schema.checkValue,
    Schema.dictionary, Schema.pairs?, Schema.issue, Schema.overflow?, Value.field?, Schema.both,
    Except.map, Except.mapError]

/-- A relationship that carries a text has no record. -/
theorem relationshipRecord_error {e : Edge} {text : String} (hdata : e.relation.data = some text)
    (htext : text ≠ "") (symbol : SymbolRow) :
    ∃ error, e.relationshipRecord symbol = .error error := by
  rw [relationshipRecord]
  cases hself : symbol.described with
  | error error => exact ⟨error, rfl⟩
  | ok self =>
      by_cases hkind : e.relation.kind ∈ Schema.relationshipType.members
      · have hmember : Answer.member Schema.relationshipType e.relation.kind
            = .ok (.text e.relation.kind) := by
          rw [Answer.member, if_pos (List.contains_iff_mem.mpr hkind)]
        refine ⟨.invalid (.invalid "Relationship" [⟨["data"], .notDict⟩]), ?_⟩
        rw [hmember, hdata]
        dsimp only [Bind.bind, Except.bind, Value.ofText?]
        rw [relationship_refused hkind (e.directionFrom_mem _) htext]
      · refine ⟨.notMember Schema.relationshipType e.relation.kind, ?_⟩
        rw [Answer.member, if_neg fun hmem => hkind (List.contains_iff_mem.mp hmem)]
        rfl

end Edge

/-! ## Replies of the tools -/

namespace Tool

variable {db : Database}

/-- Projects are listed if there are none. -/
theorem listProjects_hasItems_iff (h : db.Sound) :
    (listProjects db).HasItems "projects" db.store.summaries.length ↔ db.store.summaries = [] := by
  simp only [listProjects, h.summaries_ok, h.projectInfo_ok]
  cases db.store.summaries with
  | nil =>
      have hsuccess : some (Value.bool true) ≠ some (Value.bool false) := by simp
      exact iff_of_true ⟨_, [], rfl, hsuccess, rfl, rfl⟩ rfl
  | cons project rest =>
      refine iff_of_false ?_ (by simp)
      rintro ⟨fields, items, hfields, hsuccess, -⟩
      rw [← Except.ok.inj hfields] at hsuccess
      exact hsuccess rfl

theorem nodeRecord_error (r : SymbolRow) : ∃ e, r.nodeRecord = .error e := by
  rw [SymbolRow.nodeRecord]
  cases Answer.member Schema.symbolType r.kind with
  | error e => exact ⟨e, rfl⟩
  | ok kind => exact ⟨.missingKey "line", rfl⟩

/-- The graph is shown if it has no edges, and then there is nothing in it. -/
theorem graph_hasItems_iff (h : db.Sound) (project : Option String) (depth : Int) :
    ((graph db project depth).HasItems "nodes" (db.store.graphNodes (filter project)).length ∧
        (graph db project depth).HasItems "edges" (db.store.graphEdges (filter project)).length) ↔
      db.store.graphEdges (filter project) = [] := by
  rw [← Store.graphNodes_eq_nil]
  have hanswer : (graph db project depth).answer
      = (db.store.graphNodes (filter project)).mapM SymbolRow.nodeRecord >>= fun records =>
        .ok ([("project_id", .ofText? project), ("max_depth", .int depth),
          ("total_nodes", .ofNat (db.store.graphNodes (filter project)).length),
          ("total_edges", .ofNat (db.store.graphEdges (filter project)).length),
          ("nodes", .list records), ("edges", .list [])] : List (String × Value)) := by
    rw [graph, h.graph_ok]
    rfl
  constructor
  · rintro ⟨hnodes, -⟩
    by_contra hsome
    obtain ⟨r, rest, hcons⟩ := List.exists_cons_of_ne_nil hsome
    obtain ⟨e, he⟩ := nodeRecord_error r
    have herror : (graph db project depth).answer = .error e := by
      rw [hanswer, hcons, List.mapM_cons, he]
      rfl
    exact Reply.not_hasItems_of_error herror _ _ hnodes
  · intro hnone
    rw [hnone, Store.graphNodes_eq_nil.mp hnone] at hanswer ⊢
    exact ⟨⟨_, [], hanswer, by simp [Value.field?], rfl, rfl⟩,
      ⟨_, [], hanswer, by simp [Value.field?], rfl, rfl⟩⟩

/-- Relationships are shown if there are none. -/
theorem relationships_hasItems_iff (h : db.Sound) (hplain : db.store.Plain) {name : String}
    (kind : Option String) (direction : Direction) {project : Option String}
    {hits : List SymbolRow} (hhits : db.searchByName name none (filter project) = .ok hits) :
    let found := fun r : SymbolRow =>
      db.store.relationsOf (.int r.id) kind direction (filter project)
    (relationships db name kind direction project).HasItems "relationships"
        (hits.flatMap found).length ↔ hits.flatMap found = [] := by
  intro found
  have hanswer : (relationships db name kind direction project).answer
      = (hits.mapM fun r => (found r).mapM fun e => e.relationshipRecord r) >>= fun records =>
        .ok ([("symbol_name", .text name), ("project_id", .ofText? project),
          ("relationship_type", .ofText? kind), ("direction", .text direction.name),
          ("total_relationships", .ofNat records.flatten.length),
          ("relationships", .list records.flatten),
          ("error", if hits.isEmpty then "Symbol not found" else .null)] :
            List (String × Value)) := by
    simp only [relationships, hhits, h.relationsOf_ok]
    rfl
  constructor
  · intro hitems
    by_contra hsome
    -- one relationship, and neither its symbol nor the list has records
    obtain ⟨e, he⟩ := List.exists_mem_of_ne_nil _ hsome
    obtain ⟨r, hr, he⟩ := List.mem_flatMap.mp he
    obtain ⟨text, hdata, htext⟩ := hplain.data e.relation
      (Store.mem_edges (Store.mem_relationsOf he)).1
    obtain ⟨error, herror⟩ := Edge.relationshipRecord_error hdata htext r
    obtain ⟨-, -, error', -, hrecords⟩ := Answer.mapM_eq_error
      (f := fun e : Edge => e.relationshipRecord r) he herror
    obtain ⟨-, -, error'', -, hall⟩ := Answer.mapM_eq_error
      (f := fun r => (found r).mapM fun e => e.relationshipRecord r) hr hrecords
    have hfails : (relationships db name kind direction project).answer = .error error'' := by
      rw [hanswer, hall]
      rfl
    exact Reply.not_hasItems_of_error hfails _ _ hitems
  · intro hnone
    have hnil : ∀ r ∈ hits, found r = [] := List.flatMap_eq_nil_iff.mp hnone
    have hall : (hits.mapM fun r => (found r).mapM fun e => e.relationshipRecord r)
        = .ok (hits.map fun _ => []) := by
      apply Answer.mapM_eq_ok
      intro r hr
      rw [hnil r hr]
      rfl
    have hflat : (hits.map fun _ => ([] : List Value)).flatten = [] := by
      rw [List.flatten_eq_nil_iff]
      simp
    rw [hall] at hanswer
    refine ⟨_, _, hanswer, by simp [Value.field?], rfl, ?_⟩
    rw [hflat, hnone]
    rfl

/-- Some counts are told, those of nothing after an error. -/
theorem stats_answer (db : Database) (embedder : Option (Option Model)) (project : Option String) :
    ∃ (counts : Stats) (fields : List (String × Value)),
      (stats db embedder project).answer = .ok fields ∧
        Value.field? "database_stats" fields = some counts.record := by
  rw [stats]
  dsimp only
  cases Answer.ofDatabase (db.stats (filter project)) with
  | error e => exact ⟨_, _, rfl, rfl⟩
  | ok counts =>
      cases embedder with
      | none => exact ⟨counts, _, rfl, rfl⟩
      | some m =>
          dsimp only [Bind.bind, Except.bind]
          cases modelRecord m with
          | error e => exact ⟨_, _, rfl, rfl⟩
          | ok model => exact ⟨counts, _, rfl, rfl⟩

/-- The number of embeddings that is told is zero. -/
theorem stats_tellsEmbeddings_iff (embedder : Option (Option Model)) (project : Option String)
    (n : Nat) : (stats db embedder project).TellsEmbeddings n ↔ n = 0 := by
  obtain ⟨counts, fields, hfields, hcounts⟩ := stats_answer db embedder project
  constructor
  · rintro ⟨fields', counts', hfields', hcounts', hn⟩
    obtain rfl := Except.ok.inj (hfields.symm.trans hfields')
    have hrecord : counts.record = .object counts' :=
      Option.some.inj (hcounts.symm.trans hcounts')
    rw [Stats.record, Value.object.injEq] at hrecord
    rw [← hrecord] at hn
    have hzero : (0 : Int) = n := Value.int.inj (Option.some.inj hn)
    omega
  · rintro rfl
    exact ⟨fields, _, hfields, hcounts, rfl⟩

end Tool

namespace Database

/-- Directories are indexed and projects are removed, and then a server is asked for what is stored.
The symbols of a project, those of a language in it, the projects, the graph, the relationships of
symbols and the number of embeddings are each shown exactly if there are none. -/
theorem endpoints_show_iff (actions : List Action)
    (hruns : ∀ action ∈ actions, action.isRun = true) (s : Server)
    (hs : s.database = some (reached actions)) (w : Workspace) :
    let db := reached actions
    (∀ p, let rows := db.store.symbols.filter fun r => r.project == p
      (s.view (.symbols (.text p))).ShowsRows rows ↔ rows = []) ∧
    (∀ p l, let rows := db.store.symbols.filter fun r => r.project == p && r.language == l
      (s.view (.languageSymbols (.text p) (.text l))).ShowsRows rows ↔ rows = []) ∧
    (∃ projects, db.summaries = .ok projects ∧
      ((s.answer w .listProjects).HasItems "projects" projects.length ↔ projects = [])) ∧
    (∀ project depth, ∃ nodes edges, db.graph (Tool.filter project) = .ok (nodes, edges) ∧
      let reply := s.answer w (.graph project depth)
      (reply.HasItems "nodes" nodes.length ∧ reply.HasItems "edges" edges.length ↔ edges = [])) ∧
    (∀ name kind direction project hits,
      db.searchByName name none (Tool.filter project) = .ok hits →
      ∃ found : SymbolRow → List Edge,
        (∀ r, db.relationsOf (.int r.id) kind direction (Tool.filter project) = .ok (found r)) ∧
        ((s.answer w (.relationships name kind direction project)).HasItems "relationships"
          (hits.flatMap found).length ↔ hits.flatMap found = [])) ∧
    (∀ project, ∃ counts, db.stats (Tool.filter project) = .ok counts ∧
      ((s.answer w (.stats project)).TellsEmbeddings counts.embedded ↔ counts.embedded = 0)) := by
  intro db
  have hsound : db.Sound := (regular_reached actions).sound
  simp only [Server.view, Server.answer, Server.need, hs]
  refine ⟨?_, ?_, ?_, ?_, ?_, ?_⟩
  · exact Resource.symbolsView_shows_iff hsound
  · exact Resource.languageSymbolsView_shows_iff hsound
  · exact ⟨_, hsound.summaries_ok, Tool.listProjects_hasItems_iff hsound⟩
  · intro project depth
    exact ⟨_, _, hsound.graph_ok _, Tool.graph_hasItems_iff hsound project depth⟩
  · intro name kind direction project hits hhits
    exact ⟨_, fun r => hsound.relationsOf_ok _ kind direction _,
      Tool.relationships_hasItems_iff hsound (plain_reached actions hruns) kind direction hhits⟩
  · intro project
    exact ⟨_, hsound.stats_ok _, Tool.stats_tellsEmbeddings_iff s.embedder project _⟩

/-- A table of settings is indexed. -/
def tableIndexed : List Action :=
  [.index Indexer.settings none (.ofFiles [("a.toml", "[first]\n")])]

/-- The table is stored, so that it does not show as a symbol. It has no relationships, so that the
graph and the relationships show, and so does another project. -/
theorem endpoints_show_iff_table :
    let db := reached tableIndexed
    let s : Server := { database := some db }
    (∀ action ∈ tableIndexed, action.isRun = true) ∧
      (∃ row, (db.store.symbols.filter fun r => r.project == "p") = [row] ∧
        ¬ (s.view (.symbols (.text "p"))).ShowsRows [row]) ∧
      (s.view (.symbols (.text "q"))).ShowsRows [] ∧
      (s.answer { tree := .dir [] } (.graph none 3)).HasItems "nodes" 0 ∧
      (s.answer { tree := .dir [] } (.relationships "first" none .both none)).HasItems
        "relationships" 0 := by
  intro db s
  have hruns : ∀ action ∈ tableIndexed, action.isRun = true := by decide
  have hsound : db.Sound := (regular_reached tableIndexed).sound
  -- one evaluation of the run gives all that is needed of it
  have hfacts : (db.store.symbols.filter fun r => r.project == "p").length = 1 ∧
      (db.store.symbols.filter fun r => r.project == "q") = [] ∧
      db.store.graphEdges none = [] ∧ db.store.edges = [] := by
    decide +kernel
  obtain ⟨hone, hnone, hedges, hrelations⟩ := hfacts
  obtain ⟨row, hrow⟩ := List.length_eq_one_iff.mp hone
  obtain ⟨hsymbols, -, -, hgraph, hrelationships, -⟩ :=
    endpoints_show_iff tableIndexed hruns s rfl { tree := .dir [] }
  refine ⟨hruns, ⟨row, hrow, ?_⟩, ?_, ?_, ?_⟩
  · have hp := hsymbols "p"
    rw [hrow] at hp
    exact fun hshows => absurd (hp.mp hshows) (by simp)
  · have hq := hsymbols "q"
    rw [hnone] at hq
    exact hq.mpr rfl
  · obtain ⟨nodes, edges, hok, hshows⟩ := hgraph none 3
    obtain ⟨rfl, rfl⟩ := Prod.mk.inj (Except.ok.inj (hok.symm.trans (hsound.graph_ok none)))
    have hitems := (hshows.mpr hedges).1
    rw [Store.graphNodes_eq_nil.mpr hedges] at hitems
    exact hitems
  · obtain ⟨found, hfound, hshows⟩ := hrelationships "first" none .both none _
      (hsound.searchByName_of_short "first" (by decide) none none)
    have hall : (db.store.searchByName "first" none none).flatMap found = [] := by
      rw [List.flatMap_eq_nil_iff]
      intro r _
      rw [Except.ok.inj ((hfound r).symm.trans (hsound.relationsOf_ok _ _ _ _)), Store.relationsOf,
        hrelations]
      exact Store.sortByKey_eq_nil.mpr rfl
    have hitems := hshows.mpr hall
    rw [hall] at hitems
    exact hitems

/-- A function is indexed with a model. -/
def functionIndexed : List Action :=
  [.index Indexer.functions (some Indexer.echo) (.ofFiles [("a.py", "def run(): pass\n")])]

/-- One function that is embedded and that is taken to call itself: none of it shows. -/
theorem endpoints_hide_function :
    let db := reached functionIndexed
    let s : Server := { database := some db }
    let w : Workspace := { tree := .dir [] }
    (let rows := db.store.symbols.filter fun r => r.project == "p"
     rows.length = 1 ∧ ¬ (s.view (.symbols (.text "p"))).ShowsRows rows) ∧
    (let rows := db.store.symbols.filter fun r => r.project == "p" && r.language == "python"
     rows.length = 1 ∧
      ¬ (s.view (.languageSymbols (.text "p") (.text "python"))).ShowsRows rows) ∧
    (∃ projects, db.summaries = .ok projects ∧ projects.length = 1 ∧
      ¬ (s.answer w .listProjects).HasItems "projects" projects.length) ∧
    (∃ nodes edges, db.graph (some "p") = .ok (nodes, edges) ∧ nodes.length = 1 ∧
      edges.length = 1 ∧ ¬ ((s.answer w (.graph (some "p") 3)).HasItems "nodes" nodes.length ∧
        (s.answer w (.graph (some "p") 3)).HasItems "edges" edges.length)) ∧
    (∃ edges, db.relationsOf (.int 1) none .both (some "p") = .ok edges ∧ edges.length = 1 ∧
      ¬ (s.answer w (.relationships "run" none .both (some "p"))).HasItems "relationships"
        edges.length) ∧
    ∃ counts, db.stats (some "p") = .ok counts ∧ counts.embedded = 1 ∧
      ¬ (s.answer w (.stats (some "p"))).TellsEmbeddings counts.embedded := by
  intro db s w
  -- one evaluation of the run gives all that is needed of it
  have hfacts : (db.store.symbols.filter fun r => r.project == "p").length = 1 ∧
      (db.store.symbols.filter fun r => r.project == "p" && r.language == "python").length = 1 ∧
      db.store.summaries.length = 1 ∧ (db.store.graphNodes (some "p")).length = 1 ∧
      (db.store.graphEdges (some "p")).length = 1 ∧
      (db.store.searchByName "run" none (some "p")).map (·.id) = [1] ∧
      (db.store.relationsOf (.int 1) none .both (some "p")).length = 1 ∧
      (db.store.stats (some "p")).embedded = 1 := by
    decide +kernel
  obtain ⟨hrows, hpython, hprojects, hnodes, hedges, hhits, hrelations, hembedded⟩ := hfacts
  have hsound : db.Sound := (regular_reached functionIndexed).sound
  refine ⟨⟨hrows, ?_⟩, ⟨hpython, ?_⟩, ⟨_, hsound.summaries_ok, hprojects, ?_⟩,
    ⟨_, _, hsound.graph_ok _, hnodes, hedges, ?_⟩,
    ⟨_, hsound.relationsOf_ok _ _ _ _, hrelations, ?_⟩, ⟨_, hsound.stats_ok _, hembedded, ?_⟩⟩
  · exact mt (Resource.symbolsView_shows_iff hsound "p").mp
      (List.ne_nil_of_length_eq_add_one hrows)
  · exact mt (Resource.languageSymbolsView_shows_iff hsound "p" "python").mp
      (List.ne_nil_of_length_eq_add_one hpython)
  · exact mt (Tool.listProjects_hasItems_iff hsound).mp
      (List.ne_nil_of_length_eq_add_one hprojects)
  · exact mt (Tool.graph_hasItems_iff hsound (some "p") 3).mp
      (List.ne_nil_of_length_eq_add_one hedges)
  · obtain ⟨hit, hhit, hid⟩ := List.map_eq_singleton_iff.mp hhits
    have hshows := Tool.relationships_hasItems_iff hsound
      (plain_reached functionIndexed (by decide)) none .both
      (hsound.searchByName_of_short "run" (by decide) none (Tool.filter (some "p")))
    have hfilter : Tool.filter (some "p") = some "p" := by decide
    rw [hfilter, hhit] at hshows
    dsimp only at hshows
    rw [List.flatMap_singleton, hid] at hshows
    exact mt hshows.mp (List.ne_nil_of_length_eq_add_one hrelations)
  · exact mt (Tool.stats_tellsEmbeddings_iff none (some "p") _).mp (hembedded ▸ by decide)

end Database

end SymbolAtlas
