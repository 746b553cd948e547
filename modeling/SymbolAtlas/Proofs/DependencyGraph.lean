/-
  SymbolAtlas.Proofs.DependencyGraph: the nodes and the edges of the dependency graph.

  The graph has an edge for each relationship whose ends are stored (`graphEdges_perm`). Its nodes
  are put down along the edges, one for each name in the graph, which is made of a file and the name
  of a symbol. So the names of the nodes are distinct and are those of the ends of the edges
  (`nodup_names`, `mem_names`), and a node is one of the ends of its name. Two ends of one name have
  one node between them: the nodes are all ends exactly if no two ends have the same name
  (`subset_distinctNodes_iff`).
-/

import SymbolAtlas.Proofs.Incidence
import SymbolAtlas.Proofs.References
import SymbolAtlas.Service.Request

namespace SymbolAtlas

namespace Store

variable {st : Store} {seen rows : List SymbolRow} {scope : Option String}

/-! ## One node for each name -/

theorem any_nodeName_iff {r : SymbolRow} :
    (seen.any fun s => nodeName s == nodeName r) = true ↔ nodeName r ∈ seen.map nodeName := by
  simp only [List.any_eq_true, beq_iff_eq, List.mem_map]

/-- The names of the nodes are those that were there and those that come by. -/
theorem mem_names {k : String} : k ∈ (distinctNodes seen rows).map nodeName ↔
    k ∈ seen.map nodeName ∨ k ∈ rows.map nodeName := by
  induction rows generalizing seen with
  | nil => simp [distinctNodes]
  | cons r rest ih =>
      rw [distinctNodes, List.map_cons, List.mem_cons]
      split
      case isTrue hseen =>
        have hname := any_nodeName_iff.mp hseen
        rw [ih]
        constructor
        · exact Or.imp_right .inr
        · rintro (hk | rfl | hk)
          · exact .inl hk
          · exact .inl hname
          · exact .inr hk
      case isFalse =>
        rw [ih, List.map_append, List.mem_append, List.map_singleton, List.mem_singleton, or_assoc]

/-- The names of the nodes stay distinct. -/
theorem nodup_names (h : (seen.map nodeName).Nodup) :
    ((distinctNodes seen rows).map nodeName).Nodup := by
  induction rows generalizing seen with
  | nil => exact h
  | cons r rest ih =>
      rw [distinctNodes]
      split
      case isTrue => exact ih h
      case isFalse hnew =>
        refine ih (nodup_map_concat h (List.Sublist.refl seen) ?_)
        intro s hs heq
        exact hnew (any_nodeName_iff.mpr (heq ▸ List.mem_map_of_mem hs))

/-- Nodes are put down, and never made up. -/
theorem mem_of_mem_distinctNodes {r : SymbolRow} (h : r ∈ distinctNodes seen rows) :
    r ∈ seen ∨ r ∈ rows := by
  induction rows generalizing seen with
  | nil => exact .inl h
  | cons s rest ih =>
      rw [distinctNodes] at h
      split at h
      · exact (ih h).imp_right (List.mem_cons_of_mem s)
      · rcases ih h with hseen | hrest
        · rcases List.mem_append.mp hseen with hseen | hnew
          · exact .inl hseen
          · exact .inr (List.mem_singleton.mp hnew ▸ List.mem_cons_self)
        · exact .inr (List.mem_cons_of_mem s hrest)

/-- All that comes by becomes a node exactly if no two of them have the same name. -/
theorem subset_distinctNodes_iff : rows ⊆ distinctNodes [] rows ↔
    ∀ a ∈ rows, ∀ b ∈ rows, nodeName a = nodeName b → a = b := by
  constructor
  · intro hall a ha b hb hname
    have hnames : ((distinctNodes [] rows).map nodeName).Nodup := nodup_names List.nodup_nil
    exact List.inj_on_of_nodup_map hnames (hall ha) (hall hb) hname
  · intro hinj a ha
    -- the node of the name is one of those that came by, and there is only one
    obtain ⟨n, hn, hname⟩ :=
      List.mem_map.mp (mem_names.mpr (.inr (List.mem_map_of_mem (f := nodeName) ha)))
    have hcame := (mem_of_mem_distinctNodes hn).resolve_left List.not_mem_nil
    exact hinj n hcame a ha hname ▸ hn

/-! ## Relationships between stored symbols -/

/-- Whether a relationship in a scope connects two stored symbols. -/
def Connects (st : Store) (scope : Option String) (r : RelationRow) (source target : SymbolRow) :
    Prop :=
  r ∈ st.relations ∧ (∀ p ∈ scope, r.project = p) ∧
    (source ∈ st.symbols ∧ r.source = .int source.id) ∧
    target ∈ st.symbols ∧ r.target = .int target.id

/-- Whether a symbol is an end of such a relationship. -/
def IsEnd (st : Store) (scope : Option String) (a : SymbolRow) : Prop :=
  ∃ r source target, st.Connects scope r source target ∧ (a = source ∨ a = target)

instance instDecidableConnects (st : Store) (scope : Option String) (r : RelationRow)
    (source target : SymbolRow) : Decidable (st.Connects scope r source target) :=
  inferInstanceAs (Decidable (r ∈ st.relations ∧ (∀ p ∈ scope, r.project = p) ∧
    (source ∈ st.symbols ∧ r.source = .int source.id) ∧
    target ∈ st.symbols ∧ r.target = .int target.id))

section Ends

variable {r : RelationRow} {source target : SymbolRow}

theorem Connects.isEnd_source (h : st.Connects scope r source target) : st.IsEnd scope source :=
  ⟨r, source, target, h, .inl rfl⟩

theorem Connects.isEnd_target (h : st.Connects scope r source target) : st.IsEnd scope target :=
  ⟨r, source, target, h, .inr rfl⟩

end Ends

/-- The relationships in a scope both of whose ends are stored. -/
def connecting (st : Store) (scope : Option String) : List RelationRow :=
  st.relations.filter fun r =>
    passes scope r.project && decide (st.Has r.source ∧ st.Has r.target)

theorem has_iff_isSome {c : Cell} : st.Has c ↔ (st.symbol? c).isSome = true := by
  rw [Has, symbol?, List.find?_isSome]
  exact exists_congr fun s => and_congr_right fun _ => eq_comm.trans beq_iff_eq.symm

/-! ## The edges -/

/-- The edges of the graph are one for each relationship in scope both of whose ends are stored. -/
theorem graphEdges_perm (st : Store) (scope : Option String) :
    ((st.graphEdges scope).map (·.relation)).Perm (st.connecting scope) := by
  refine ((sortByKey_perm _ _).map _).trans (List.Perm.of_eq ?_)
  simp only [connecting, has_iff_isSome]
  rw [edges, List.filter_filterMap, List.map_filterMap, ← List.filterMap_eq_filter]
  refine List.filterMap_congr fun r _ => ?_
  rw [edge?, Option.guard]
  cases st.symbol? r.source with
  | none => simp
  | some source =>
      cases st.symbol? r.target with
      | none => simp
      | some target => cases hpasses : passes scope r.project <;> simp [hpasses]

/-- An edge of the graph is a relationship in scope with the stored symbols that it connects. -/
theorem connects_of_mem_graphEdges {e : Edge} (he : e ∈ st.graphEdges scope) :
    st.Connects scope e.relation e.source e.target := by
  rw [graphEdges, mem_sortByKey, List.mem_filter, passes_iff] at he
  exact ⟨(mem_edges he.1).1, he.2, ends_of_mem_edges he.1⟩

/-- What a relationship in scope connects is an edge, if symbols have ids of their own. -/
theorem mem_graphEdges_iff (h : (st.symbols.map (·.id)).Nodup) {e : Edge} :
    e ∈ st.graphEdges scope ↔ st.Connects scope e.relation e.source e.target := by
  refine ⟨connects_of_mem_graphEdges, ?_⟩
  rintro ⟨hrelation, hscope, ⟨hsource, hsourceId⟩, htarget, htargetId⟩
  rw [graphEdges, mem_sortByKey, List.mem_filter, passes_iff]
  refine ⟨List.mem_filterMap.mpr ⟨e.relation, hrelation, ?_⟩, hscope⟩
  rw [edge?, hsourceId, htargetId, symbol?_id h hsource, symbol?_id h htarget]
  rfl

/-- Whether an edge comes before another one by kind, by the name of the source and by the name of
the target, or is like it in all three. -/
def EdgeOrder (a b : Edge) : Prop :=
  a.relation.kind < b.relation.kind ∨ a.relation.kind = b.relation.kind ∧
    (a.source.name < b.source.name ∨ a.source.name = b.source.name ∧
      a.target.name ≤ b.target.name)

theorem sorted_graphEdges (st : Store) (scope : Option String) :
    (st.graphEdges scope).Pairwise EdgeOrder := by
  have hexact : ∀ e : Edge, Cell.ExactKey (graphKey scope e) := by
    intro e
    cases scope <;> simp [Cell.ExactKey, Cell.Exact, graphKey]
  exact (pairwise_sortByKey hexact _).imp fun hle => lexLe_kind_names hle

/-! ## The nodes -/

/-- The names of the nodes are those of the ends of the edges. -/
theorem mem_names_graphNodes {k : String} : k ∈ (st.graphNodes scope).map nodeName ↔
    ∃ e ∈ st.graphEdges scope, k = nodeName e.source ∨ k = nodeName e.target := by
  rw [graphNodes, mem_names]
  simp only [List.map_nil, List.not_mem_nil, false_or, List.map_flatMap, List.mem_flatMap,
    List.map_cons, List.mem_cons, or_false]

theorem nodup_names_graphNodes : ((st.graphNodes scope).map nodeName).Nodup :=
  nodup_names List.nodup_nil

/-- The ends of the edges are the ends of the relationships in scope. -/
theorem mem_ends_iff (h : (st.symbols.map (·.id)).Nodup) {a : SymbolRow} :
    (a ∈ (st.graphEdges scope).flatMap fun e => [e.source, e.target]) ↔ st.IsEnd scope a := by
  simp only [List.mem_flatMap, List.mem_cons, List.not_mem_nil, or_false, mem_graphEdges_iff h]
  constructor
  · rintro ⟨e, hconnects, hend⟩
    exact ⟨_, _, _, hconnects, hend⟩
  · rintro ⟨r, source, target, hconnects, hend⟩
    exact ⟨⟨r, source, target⟩, hconnects, hend⟩

theorem IsEnd.mem_symbols {a : SymbolRow} (h : st.IsEnd scope a) : a ∈ st.symbols := by
  obtain ⟨r, source, target, ⟨-, -, ⟨hsource, -⟩, htarget, -⟩, rfl | rfl⟩ := h
  · exact hsource
  · exact htarget

/-- Nodes are ends of relationships in scope. -/
theorem isEnd_of_mem_graphNodes (h : (st.symbols.map (·.id)).Nodup) {a : SymbolRow}
    (ha : a ∈ st.graphNodes scope) : st.IsEnd scope a :=
  (mem_ends_iff h).mp ((mem_of_mem_distinctNodes ha).resolve_left List.not_mem_nil)

/-- All ends of relationships in scope are nodes exactly if no two have the same name. -/
theorem forall_isEnd_mem_graphNodes_iff (h : (st.symbols.map (·.id)).Nodup) :
    (∀ a, st.IsEnd scope a → a ∈ st.graphNodes scope) ↔
      ∀ a b, st.IsEnd scope a → st.IsEnd scope b → nodeName a = nodeName b → a = b := by
  have hall := @subset_distinctNodes_iff
    ((st.graphEdges scope).flatMap fun e => [e.source, e.target])
  simp only [List.subset_def, mem_ends_iff h] at hall
  rw [graphNodes, hall]
  exact ⟨fun hinj a b ha hb => hinj a ha b hb, fun hinj a ha b hb => hinj a b ha hb⟩

end Store

/-! ## The graph as it is told -/

/-- What edges call a node: its file, a colon and its name. -/
def nodeKey? (node : List (String × Value)) : Option String := do
  return (← Request.text? "file" node) ++ ":" ++ (← Request.text? "name" node)

/-- Whether a graph is told with these nodes and edges, and with their numbers. -/
structure TellsGraph (graph : List (String × Value)) (nodes edges : List (List (String × Value))) :
    Prop where
  listsNodes : Value.field? "nodes" graph = some (.list (nodes.map .object))
  listsEdges : Value.field? "edges" graph = some (.list (edges.map .object))
  countsNodes : Value.field? "total_nodes" graph = some (.ofNat nodes.length)
  countsEdges : Value.field? "total_edges" graph = some (.ofNat edges.length)

/-- Whether nodes and edges fit together: nodes have keys of their own, both ends of an edge are
keys of one node each, and every node is an end. -/
structure ClosedGraph (nodes edges : List (List (String × Value))) : Prop where
  distinct : (nodes.map nodeKey?).Nodup
  ends : ∀ e ∈ edges, ∀ side ∈ ["source", "target"], ∃ k,
    Request.text? side e = some k ∧ (nodes.map nodeKey?).count (some k) = 1
  reached : ∀ n ∈ nodes, ∃ k, nodeKey? n = some k ∧
    ∃ e ∈ edges, ∃ side ∈ ["source", "target"], Request.text? side e = some k

theorem tellsGraph_graphFields (nodes : List SymbolRow) (edges : List Edge) :
    TellsGraph (graphFields nodes edges) (nodes.map (·.graphFields))
      (edges.map (·.graphFields)) := by
  refine ⟨?_, ?_, ?_, ?_⟩ <;> simp [graphFields, Value.field?]

theorem nodeKey?_graphFields (r : SymbolRow) :
    nodeKey? r.graphFields = some (Store.nodeName r) := by
  simp [nodeKey?, Request.text?, Value.field?, SymbolRow.graphFields, Store.nodeName]

theorem text?_source_graphFields (e : Edge) :
    Request.text? "source" e.graphFields = some (Store.nodeName e.source) := by
  simp [Request.text?, Value.field?, Edge.graphFields]

theorem text?_target_graphFields (e : Edge) :
    Request.text? "target" e.graphFields = some (Store.nodeName e.target) := by
  simp [Request.text?, Value.field?, Edge.graphFields]

/-- The nodes and edges of a store fit together. -/
theorem Store.closedGraph (st : Store) (scope : Option String) :
    ClosedGraph ((st.graphNodes scope).map (·.graphFields))
      ((st.graphEdges scope).map (·.graphFields)) := by
  have hkeys : ((st.graphNodes scope).map (·.graphFields)).map nodeKey?
      = ((st.graphNodes scope).map Store.nodeName).map some := by
    simp only [List.map_map, Function.comp_def, nodeKey?_graphFields]
  have hdistinct : (((st.graphNodes scope).map Store.nodeName).map some).Nodup :=
    st.nodup_names_graphNodes.map fun _ _ => Option.some.inj
  rw [← hkeys] at hdistinct
  -- the keys are distinct, so that one which occurs belongs to one node
  have hone : ∀ k ∈ (st.graphNodes scope).map Store.nodeName,
      (((st.graphNodes scope).map (·.graphFields)).map nodeKey?).count (some k) = 1 := by
    intro k hk
    refine List.count_eq_one_of_mem hdistinct ?_
    rw [hkeys]
    exact List.mem_map_of_mem hk
  refine ⟨hdistinct, ?_, ?_⟩
  · -- both ends of an edge have nodes
    simp only [List.forall_mem_map, List.forall_mem_cons, text?_source_graphFields,
      text?_target_graphFields, Option.some.injEq, exists_eq_left']
    intro e he
    exact ⟨hone _ (Store.mem_names_graphNodes.mpr ⟨e, he, .inl rfl⟩),
      hone _ (Store.mem_names_graphNodes.mpr ⟨e, he, .inr rfl⟩), by simp⟩
  · -- a node is there only for an end of some edge
    simp only [List.forall_mem_map, nodeKey?_graphFields, Option.some.injEq, exists_eq_left']
    intro n hn
    obtain ⟨e, he, hend⟩ := Store.mem_names_graphNodes.mp (List.mem_map_of_mem hn)
    refine ⟨_, List.mem_map_of_mem he, ?_⟩
    rcases hend with hsource | htarget
    · exact ⟨"source", by simp, by rw [text?_source_graphFields, hsource]⟩
    · exact ⟨"target", by simp, by rw [text?_target_graphFields, htarget]⟩

namespace Database

variable {db : Database}

theorem dependencies_eq (hopens : db.broken = false) (hsymbols : Table.symbols ∉ db.dropped)
    (hrelationships : Table.relationships ∉ db.dropped) (project : Option String) :
    db.dependencies (.ofText? project)
      = .ok (db.store.graphNodes (project.bind Store.filterOf),
          db.store.graphEdges (project.bind Store.filterOf)) := by
  simp only [dependencies, graph, connect_ok hopens, need_ok hsymbols, need_ok hrelationships,
    bindFilter_bind]
  rfl

/-- In every database that opens and has its two tables, with or without a project: the dependency
graph is told with the numbers of its nodes and edges, the keys of its nodes are distinct, each end
of an edge is the key of one node and each node is an end of an edge. The edges are sorted by kind
and by the names of source and target, and there is one for each relationship in scope both of whose
ends are stored, from the one end to the other. -/
theorem dependencies_closed (hopens : db.broken = false) (hsymbols : Table.symbols ∉ db.dropped)
    (hrelationships : Table.relationships ∉ db.dropped) (project : Option String) :
    let scope := project.bind Store.filterOf
    ∃ nodes edges, db.dependencies (.ofText? project) = .ok (nodes, edges) ∧
      TellsGraph (graphFields nodes edges) (nodes.map (·.graphFields))
        (edges.map (·.graphFields)) ∧
      ClosedGraph (nodes.map (·.graphFields)) (edges.map (·.graphFields)) ∧
      edges.Pairwise Store.EdgeOrder ∧
      (edges.map (·.relation)).Perm (db.store.connecting scope) ∧
      ∀ e ∈ edges, db.store.Connects scope e.relation e.source e.target := by
  intro scope
  refine ⟨_, _, dependencies_eq hopens hsymbols hrelationships project,
    tellsGraph_graphFields _ _, db.store.closedGraph scope, db.store.sorted_graphEdges scope,
    db.store.graphEdges_perm scope, ?_⟩
  exact fun e he => Store.connects_of_mem_graphEdges he

/-- Two functions whose files and names give the same key, and a call of the one by the other. -/
def colonNames : List Operation :=
  [.insertSymbol (functionFields "b:c" "a") "p",
   .insertSymbol (functionFields "c" "a:b") "p",
   .insertRelation (.int 1) (.int 2) "calls" "p" .null]

/-- The one call of the two functions is told, and the one node is both of its ends. -/
theorem dependencies_closed_colonNames :
    let db := performAll {} colonNames
    ∃ nodes edges, db.dependencies "p" = .ok (nodes, edges) ∧
      ClosedGraph (nodes.map (·.graphFields)) (edges.map (·.graphFields)) ∧
      edges.map (·.relation.id) = [1] := by
  have hone : ((performAll {} colonNames).store.connecting (some "p")).map (·.id) = [1] := by
    decide +kernel
  obtain ⟨nodes, edges, hok, -, hclosed, -, hperm, -⟩ := @dependencies_closed
    (performAll {} colonNames) rfl (by decide) (by decide) (some "p")
  refine ⟨nodes, edges, hok, hclosed, ?_⟩
  have hids := (hperm.map (·.id)).trans (List.Perm.of_eq hone)
  rw [List.map_map] at hids
  exact List.perm_singleton.mp hids

/-! ## Symbols that share a node -/

/-- In every database that opens, has its two tables and gives symbols ids of their own, with or
without a project: the nodes of the dependency graph are ends of relationships in scope, and each
such end has a node of its file and name. The nodes are all of these ends exactly if no two of them
have the same file and name, written with a colon between. -/
theorem dependencies_ids_iff (hopens : db.broken = false) (hsymbols : Table.symbols ∉ db.dropped)
    (hrelationships : Table.relationships ∉ db.dropped) (hids : db.DistinctIds)
    (project : Option String) :
    let scope := project.bind Store.filterOf
    ∃ nodes edges, db.dependencies (.ofText? project) = .ok (nodes, edges) ∧
      (nodes.map (·.id)).Nodup ∧ (∀ n ∈ nodes, db.store.IsEnd scope n) ∧
      (∀ a, db.store.IsEnd scope a →
        ∃ n ∈ nodes, n.file ++ ":" ++ n.name = a.file ++ ":" ++ a.name) ∧
      ((∀ id, id ∈ nodes.map (·.id) ↔ ∃ a, db.store.IsEnd scope a ∧ a.id = id) ↔
        ∀ a b, db.store.IsEnd scope a → db.store.IsEnd scope b →
          a.file ++ ":" ++ a.name = b.file ++ ":" ++ b.name → a = b) := by
  intro scope
  have hends : ∀ n ∈ db.store.graphNodes scope, db.store.IsEnd scope n :=
    fun n hn => Store.isEnd_of_mem_graphNodes hids hn
  have hinj : ∀ a, db.store.IsEnd scope a → ∀ b, db.store.IsEnd scope b → a.id = b.id → a = b :=
    fun a ha b hb => List.inj_on_of_nodup_map hids ha.mem_symbols hb.mem_symbols
  refine ⟨_, _, dependencies_eq hopens hsymbols hrelationships project, ?_, hends, ?_, ?_⟩
  · have hnodes : (db.store.graphNodes scope).Nodup := .of_map _ Store.nodup_names_graphNodes
    exact List.Nodup.map_on (fun a ha b hb => hinj a (hends a ha) b (hends b hb)) hnodes
  · intro a ha
    obtain ⟨e, he, hend⟩ := List.mem_flatMap.mp ((Store.mem_ends_iff hids).mpr ha)
    refine List.mem_map.mp (Store.mem_names_graphNodes.mpr ⟨e, he, ?_⟩)
    simp only [List.mem_cons, List.not_mem_nil, or_false] at hend
    exact hend.imp (congrArg Store.nodeName) (congrArg Store.nodeName)
  · refine Iff.trans ?_ (Store.forall_isEnd_mem_graphNodes_iff hids)
    constructor
    · intro hall a ha
      -- the node of the id is the end itself
      obtain ⟨n, hn, hid⟩ := List.mem_map.mp ((hall a.id).mpr ⟨a, ha, rfl⟩)
      exact hinj n (hends n hn) a ha hid ▸ hn
    · intro hall id
      rw [List.mem_map]
      constructor
      · rintro ⟨n, hn, hid⟩
        exact ⟨n, hends n hn, hid⟩
      · rintro ⟨a, ha, hid⟩
        exact ⟨a, hall a ha, hid⟩

/-- The caller and the callee are in files of their own and so have nodes of their own. -/
theorem dependencies_ids_iff_callStored :
    ∃ nodes edges, callStored.dependencies "p" = .ok (nodes, edges) ∧
      1 ∈ nodes.map (·.id) ∧ 2 ∈ nodes.map (·.id) := by
  have hstored : callStored.store.symbols
        = [functionRow "caller" "a.py" 1, functionRow "callee" "b.py" 2] ∧
      callStored.store.Connects (some "p") callShown.relation
        (functionRow "caller" "a.py" 1) (functionRow "callee" "b.py" 2) := by
    decide +kernel
  obtain ⟨hsymbols, hconnects⟩ := hstored
  have hids : callStored.DistinctIds := by
    rw [DistinctIds, hsymbols]
    decide
  obtain ⟨nodes, edges, hok, -, -, -, hiff⟩ :=
    @dependencies_ids_iff callStored rfl (by decide) (by decide) hids (some "p")
  have hall := hiff.mpr ?_
  · exact ⟨nodes, edges, hok, (hall 1).mpr ⟨_, hconnects.isEnd_source, rfl⟩,
      (hall 2).mpr ⟨_, hconnects.isEnd_target, rfl⟩⟩
  · intro a b ha hb
    have ha := ha.mem_symbols
    have hb := hb.mem_symbols
    rw [hsymbols] at ha hb
    simp only [List.mem_cons, List.not_mem_nil, or_false] at ha hb
    rcases ha with rfl | rfl <;> rcases hb with rfl | rfl <;> decide

/-- Two functions of one name in one file, the first of which calls the second. -/
def overloads : List Operation :=
  [.insertSymbol (.object (fieldsOnLine 1)) "p", .insertSymbol (.object (fieldsOnLine 5)) "p",
   .insertRelation (.int 1) (.int 2) "calls" "p" .null]

/-- The graph has one node for both functions, which has the id of the first. -/
theorem dependencies_merge_overloads :
    let db := performAll {} overloads
    db.store.IsEnd (some "p") ⟨functionOnLine 1, 1⟩ ∧
      db.store.IsEnd (some "p") ⟨functionOnLine 5, 2⟩ ∧
      ∃ nodes edges, db.dependencies "p" = .ok (nodes, edges) ∧ nodes.map (·.id) = [1] := by
  have hfacts : let st := (performAll {} overloads).store
      st.Connects (some "p") callShown.relation ⟨functionOnLine 1, 1⟩ ⟨functionOnLine 5, 2⟩ ∧
        (st.graphNodes (some "p")).map (·.id) = [1] := by
    decide +kernel
  exact ⟨hfacts.1.isEnd_source, hfacts.1.isEnd_target, _, _,
    dependencies_eq rfl (by decide) (by decide) (some "p"), hfacts.2⟩

end Database

end SymbolAtlas
