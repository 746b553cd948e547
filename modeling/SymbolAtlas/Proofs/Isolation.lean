/-
  SymbolAtlas.Proofs.Isolation: what the operations of one project do to another.

  Operations of a project `q` write nothing of another project `p`: its symbols, their embeddings,
  its relationships and what is known about it stay as they are (`SameData.write`), because keys
  hold the project and no two symbols have the same id. So all answers that are made from these
  stay the same. Answers about relationships look up the ends by their ids, which may be free or
  belong to symbols of `q`: they stay the same exactly when every relationship of `p` keeps its
  ends (`answers_unchanged_iff`).
-/

import SymbolAtlas.Proofs.Tables

namespace SymbolAtlas

/-- Whether a write is about one project only. An embedding is about the project of its symbol. -/
def Write.Within (q : String) (st : Store) : Write → Prop
  | .nothing => True
  | .putSymbol d => d.project = q
  | .putRelation d => d.project = q
  | .putEmbedding id _ => ∃ r ∈ st.symbols, id = some r.id ∧ r.project = q
  | .removeFile _ project => project = q
  | .removeProject project => project = q
  | .removeRelations _ project => project = q
  | .putProject d => d.project = q
  | .noteScan project _ _ => project = q

namespace Store

variable {st st' : Store} {p q : String}

/-! ## The data of a project -/

/-- The embeddings of the symbols of a project. -/
def embeddingsOf (st : Store) (p : String) : List EmbeddingRow :=
  st.embeddings.filter fun e => st.symbols.any fun r => r.id == e.id && r.project == p

/-- Stores with the same data of a project: its symbols with their ids, the embeddings of these, its
relationships, and what is known about it. -/
structure SameData (p : String) (st st' : Store) : Prop where
  symbols : st'.inScope none (some p) = st.inScope none (some p)
  embeddings : st'.embeddingsOf p = st.embeddingsOf p
  relations : st'.relationsIn (some p) = st.relationsIn (some p)
  projects : (st'.projects.filter fun r => r.project == p)
    = st.projects.filter fun r => r.project == p

theorem SameData.refl (p : String) (st : Store) : SameData p st st := ⟨rfl, rfl, rfl, rfl⟩

theorem SameData.trans {st'' : Store} (h : SameData p st st') (h' : SameData p st' st'') :
    SameData p st st'' :=
  ⟨h'.symbols.trans h.symbols, h'.embeddings.trans h.embeddings, h'.relations.trans h.relations,
    h'.projects.trans h.projects⟩

theorem mem_inScope {r : SymbolRow} :
    r ∈ st.inScope none (some p) ↔ r ∈ st.symbols ∧ r.project = p := by
  rw [inScope, List.mem_filter, passes, passes, Bool.true_and, beq_iff_eq]
  exact and_congr_right fun _ => ⟨Eq.symm, Eq.symm⟩

theorem embeddingsOf_eq (st : Store) (p : String) :
    st.embeddingsOf p
      = st.embeddings.filter fun e => (st.inScope none (some p)).any fun r => r.id == e.id := by
  apply List.filter_congr
  intro e _
  rw [inScope, List.any_filter]
  congr 1
  funext r
  rw [passes, passes, Bool.true_and, Bool.and_comm, Bool.beq_comm]

/-! ## Rows that are left alone -/

/-- Removing rows leaves a selection alone when it has none of them. -/
theorem filter_remove {α : Type} {keep gone : α → Bool} {rows : List α}
    (h : ∀ r ∈ rows, keep r = true → gone r = false) :
    (rows.filter fun r => !gone r).filter keep = rows.filter keep := by
  rw [List.filter_filter]
  apply List.filter_congr
  intro r hr
  cases hkeep : keep r with
  | false => rfl
  | true =>
      rw [h r hr hkeep]
      rfl

/-- The same with a new row that is not selected. -/
theorem filter_replace {α : Type} {keep gone : α → Bool} {rows : List α} {new : α}
    (hnew : keep new = false) (h : ∀ r ∈ rows, keep r = true → gone r = false) :
    ((rows.filter fun r => !gone r) ++ [new]).filter keep = rows.filter keep := by
  rw [List.filter_append, filter_remove h, List.filter_cons_of_neg (by simp [hnew]),
    List.filter_nil, List.append_nil]

/-- An embedding leaves a selection alone that has no embedding of its id. -/
theorem filter_putRow {keep : EmbeddingRow → Bool} {e : EmbeddingRow}
    (h : ∀ f : EmbeddingRow, f.id = e.id → keep f = false) (rows : List EmbeddingRow) :
    (putRow e rows).filter keep = rows.filter keep := by
  -- neither the embedding nor the one in whose place it may come is selected
  have he : keep e = false := h e rfl
  induction rows with
  | nil => simp [putRow, he]
  | cons f rest ih =>
      rw [putRow]
      split
      next hid => simp [he, h f hid]
      next =>
        split
        · simp [List.filter_cons, he]
        · rw [List.filter_cons, List.filter_cons, ih]

/-! ## Writes within another project -/

theorem SameData.insertSymbol (h : st.Consistent) {d : SymbolData} (hd : d.project ≠ p) :
    SameData p st (st.insertSymbol d).1 := by
  have hsymbols : (st.insertSymbol d).1.inScope none (some p) = st.inScope none (some p) := by
    refine filter_replace ?_ ?_
    · simp [passes, Ne.symm hd]
    · intro r _ hr
      have hproject : p = r.project := by simpa [passes] using hr
      -- what gives way has the same key, and keys hold the project
      rw [h.separate, Bool.eq_false_iff]
      intro hclash
      have hkey := congrArg (·.1) (clash_iff.mp hclash)
      exact hd (hkey.symm.trans hproject.symm)
  refine ⟨hsymbols, ?_, rfl, rfl⟩
  rw [embeddingsOf_eq, embeddingsOf_eq, hsymbols]
  rfl

theorem SameData.removeSymbols (h : st.Consistent) (hpq : p ≠ q) {pick : SymbolRow → Bool}
    (hpick : ∀ r, pick r = true → r.project = q) : SameData p st (st.removeSymbols pick) := by
  have hsymbols : (st.removeSymbols pick).inScope none (some p) = st.inScope none (some p) := by
    refine filter_remove ?_
    intro r _ hr
    have hproject : p = r.project := by simpa [passes] using hr
    rw [Bool.eq_false_iff]
    exact fun hq => hpq (hproject.trans (hpick r hq))
  refine ⟨hsymbols, ?_, rfl, rfl⟩
  rw [embeddingsOf_eq, embeddingsOf_eq, hsymbols]
  refine filter_remove ?_
  intro e _ he
  -- an embedding that is removed belongs to a symbol of `q`, and ids have one symbol
  obtain ⟨r, hr, hid⟩ := List.any_eq_true.mp he
  obtain ⟨hr, hproject⟩ := mem_inScope.mp hr
  rw [Bool.eq_false_iff]
  intro hgone
  obtain ⟨s, hs, hsid⟩ := List.mem_map.mp (List.contains_iff_mem.mp hgone)
  obtain ⟨hs, hq⟩ := List.mem_filter.mp hs
  have hsame : s = r := h.eq_of_id hs hr (hsid.trans (beq_iff_eq.mp hid).symm)
  exact hpq (hproject.symm.trans (hsame ▸ hpick s hq))

theorem SameData.removeAtOnce (h : st.Consistent) (hpq : p ≠ q) {pick : SymbolRow → Bool}
    (hpick : ∀ r, pick r = true → r.project = q) : SameData p st (st.removeAtOnce pick) := by
  rcases st.removeAtOnce_cases pick with heq | heq
  · rw [heq]
    exact .removeSymbols h hpq hpick
  · rw [heq]
    exact .refl p st

theorem SameData.putEmbedding (h : st.Consistent) (hpq : p ≠ q) {r : SymbolRow}
    (hr : r ∈ st.symbols) (hq : r.project = q) (vector : Value) :
    SameData p st (st.putEmbedding r.id vector) := by
  refine ⟨rfl, ?_, rfl, rfl⟩
  refine filter_putRow ?_ _
  intro f hid
  -- a symbol of `p` with this id would be the symbol of `q`
  rw [Bool.eq_false_iff]
  intro hany
  obtain ⟨s, hs, hsame⟩ := List.any_eq_true.mp hany
  rw [Bool.and_eq_true, beq_iff_eq, beq_iff_eq] at hsame
  have hsr : s = r := h.eq_of_id hs hr (hsame.1.trans hid)
  exact hpq (hsame.2.symm.trans (hsr ▸ hq))

theorem SameData.insertRelation (st : Store) {d : RelationData} (hd : d.project ≠ p) :
    SameData p st (st.insertRelation d).1 := by
  refine ⟨rfl, rfl, ?_, rfl⟩
  refine filter_replace ?_ ?_
  · simp [passes, Ne.symm hd]
  · intro r _ hr
    have hproject : p = r.project := by simpa [passes] using hr
    rw [Bool.eq_false_iff]
    intro hsame
    have hkey := congrArg (·.1) (sameRelation_iff.mp hsame)
    exact hd (hkey.symm.trans hproject.symm)

theorem SameData.removeRelations (st : Store) (symbol : Cell) (hpq : p ≠ q) :
    SameData p st (st.removeRelations symbol q) := by
  refine ⟨rfl, rfl, ?_, rfl⟩
  refine filter_remove ?_
  intro r _ hr
  have hproject : p = r.project := by simpa [passes] using hr
  simp [← hproject, hpq]

theorem SameData.putProject (st : Store) {d : ProjectData} (hd : d.project ≠ p) :
    SameData p st (st.putProject d).1 := by
  refine ⟨rfl, rfl, rfl, ?_⟩
  refine filter_replace ?_ ?_
  · simpa using hd
  · intro r _ hr
    rw [beq_iff_eq.mp hr]
    simpa using Ne.symm hd

theorem SameData.noteScan (st : Store) (commit branch : Option String) (hpq : p ≠ q) :
    SameData p st (st.noteScan q commit branch) := by
  refine ⟨rfl, rfl, rfl, ?_⟩
  rw [Store.noteScan, List.filter_map]
  -- a scan changes no name, so the same rows are selected, and none of them is that of `q`
  have hname : st.projects.filter ((fun r => r.project == p) ∘ fun r =>
        if r.project = q then
          { r with commit := commit <|> r.commit, branch := branch <|> r.branch } else r)
      = st.projects.filter fun r => r.project == p := by
    apply List.filter_congr
    intro r _
    rw [Function.comp_apply]
    split <;> rfl
  have hrow : ∀ r ∈ st.projects.filter fun r => r.project == p,
      (if r.project = q then
        { r with commit := commit <|> r.commit, branch := branch <|> r.branch } else r) = id r := by
    intro r hr
    have hproject : r.project = p := beq_iff_eq.mp (List.mem_filter.mp hr).2
    exact if_neg (hproject ▸ hpq)
  rw [hname, List.map_congr_left hrow, List.map_id]

/-- One write. -/
theorem SameData.write (h : st.Consistent) (hpq : p ≠ q) {w : Write} (hw : w.Within q st) :
    SameData p st (st.write w) := by
  cases w with
  | nothing => exact .refl p st
  | putSymbol d => exact .insertSymbol h (hw ▸ hpq.symm)
  | putRelation d => exact .insertRelation st (hw ▸ hpq.symm)
  | putEmbedding id vector =>
      obtain ⟨r, hr, rfl, hq⟩ := hw
      exact .putEmbedding h hpq hr hq vector
  | removeFile file project =>
      refine .removeAtOnce h hpq ?_
      intro r hr
      rw [Bool.and_eq_true, beq_iff_eq, beq_iff_eq] at hr
      exact hr.2.trans hw
  | removeProject project =>
      refine .removeAtOnce h hpq ?_
      intro r hr
      exact (beq_iff_eq.mp hr).trans hw
  | removeRelations symbol project => exact hw ▸ .removeRelations st symbol (hw ▸ hpq)
  | putProject d => exact .putProject st (hw ▸ hpq.symm)
  | noteScan project commit branch => exact .noteScan st commit branch (hw ▸ hpq)

/-! ## What answers are made from -/

theorem inScope_eq (st : Store) (language : Option String) (p : String) :
    st.inScope language (some p)
      = (st.inScope none (some p)).filter fun r => passes language r.language := by
  rw [inScope, inScope, List.filter_filter]
  rfl

theorem isCurrent_eq (st : Store) (file digest p : String) :
    st.isCurrent file digest p
      = (st.inScope none (some p)).any fun r => r.file == file && r.digest == digest := by
  rw [inScope, List.any_filter, isCurrent]
  congr 1
  funext r
  rw [passes, passes, Bool.true_and, Bool.and_comm, Bool.beq_comm]

theorem project?_eq (st : Store) (p : String) :
    st.project? p = (st.projects.filter fun r => r.project == p).head? := by
  rw [project?, List.head?_filter]

theorem SameData.stats (h : SameData p st st') : st'.stats (some p) = st.stats (some p) := by
  have hembedded : st'.embeddedIn (some p) = st.embeddedIn (some p) :=
    congrArg List.length h.embeddings
  rw [Store.stats, Store.stats, h.symbols, h.relations, hembedded]

theorem idsNamed_eq (st : Store) (name : String) (kinds : List String) (p : String) :
    st.idsNamed name kinds (some p)
      = ((st.inScope none (some p)).filter fun r =>
          r.name == name && kinds.contains r.kind).map (·.id) := by
  rw [idsNamed, inScope, List.filter_filter]
  rfl

/-! ## Relationships with their ends -/

/-- The relationships of a project whose ends are stored. -/
def edgesIn (st : Store) (p : String) : List Edge := (st.relationsIn (some p)).filterMap st.edge?

theorem edge?_relation {r : RelationRow} {e : Edge} (h : st.edge? r = some e) :
    e.relation = r := by
  obtain ⟨source, -, h⟩ := Option.bind_eq_some_iff.mp h
  obtain ⟨target, -, h⟩ := Option.bind_eq_some_iff.mp h
  rw [← Option.some.inj h]

theorem mem_edgesIn {e : Edge} :
    e ∈ st.edgesIn p ↔ e.relation ∈ st.relationsIn (some p) ∧ st.edge? e.relation = some e := by
  rw [edgesIn, List.mem_filterMap]
  constructor
  · rintro ⟨r, hr, he⟩
    obtain rfl := edge?_relation he
    exact ⟨hr, he⟩
  · rintro ⟨hr, he⟩
    exact ⟨e.relation, hr, he⟩

/-- It is the same whether relationships are selected before or after their ends are found. -/
theorem filter_edges (st : Store) (p : String) :
    (st.edges.filter fun e => passes (some p) e.relation.project) = st.edgesIn p := by
  rw [edges, edgesIn, relationsIn, List.filter_filterMap, List.filterMap_filter]
  apply List.filterMap_congr
  intro r _
  cases hedge : st.edge? r with
  | none => simp
  | some e => rw [Option.filter_some, edge?_relation hedge]

theorem graphEdges_eq (st : Store) (p : String) :
    st.graphEdges (some p) = sortByKey (graphKey (some p)) (st.edgesIn p) := by
  rw [graphEdges, filter_edges]

theorem relationsOf_eq (st : Store) (symbol : Cell) (kind : Option String) (d : Direction)
    (p : String) :
    st.relationsOf symbol kind d (some p) = sortByKey edgeKey ((st.edgesIn p).filter fun e =>
      d.picks symbol e.relation && passes kind e.relation.kind) := by
  rw [relationsOf, ← filter_edges, List.filter_filter]

theorem edgesInto_eq (st : Store) (ids : List Int) (kinds : List String) (p : String) :
    st.edgesInto ids kinds (some p) = sortByKey callerKey ((st.edgesIn p).filter fun e =>
      ids.contains e.target.id && kinds.contains e.relation.kind) := by
  rw [edgesInto, ← filter_edges, List.filter_filter]

theorem SameData.edgesIn_eq (h : SameData p st st')
    (hedge : ∀ r ∈ st.relationsIn (some p), st'.edge? r = st.edge? r) :
    st'.edgesIn p = st.edgesIn p := by
  rw [edgesIn, edgesIn, h.relations]
  exact List.filterMap_congr hedge

/-- The edges of the graph tell the ends of every relationship. -/
theorem SameData.edge?_eq (h : SameData p st st')
    (hgraph : st'.graphEdges (some p) = st.graphEdges (some p)) {r : RelationRow}
    (hr : r ∈ st.relationsIn (some p)) : st'.edge? r = st.edge? r := by
  -- sorting the edges for the graph loses none of them
  have hmem : ∀ e, e ∈ st'.edgesIn p ↔ e ∈ st.edgesIn p := by
    intro e
    have hsorted : ∀ s : Store, e ∈ s.graphEdges (some p) ↔ e ∈ s.edgesIn p := by
      intro s
      rw [graphEdges_eq, sortByKey, List.mem_mergeSort]
    rw [← hsorted, ← hsorted, hgraph]
  apply Option.ext
  intro e
  constructor
  · intro he
    obtain rfl := edge?_relation he
    have hold := (hmem e).mp (mem_edgesIn.mpr ⟨h.relations ▸ hr, he⟩)
    exact (mem_edgesIn.mp hold).2
  · intro he
    obtain rfl := edge?_relation he
    have hnew := (hmem e).mpr (mem_edgesIn.mpr ⟨hr, he⟩)
    exact (mem_edgesIn.mp hnew).2

/-- Whether a relationship begins and ends at symbols of a project. -/
def EndsIn (st : Store) (p : String) (r : RelationRow) : Prop :=
  (∃ a ∈ st.inScope none (some p), r.source = .int a.id) ∧
    ∃ b ∈ st.inScope none (some p), r.target = .int b.id

/-- Such ends are found as long as the data of the project are the same. -/
theorem EndsIn.edge?_eq {r : RelationRow} (hr : st.EndsIn p r) (hst : st.Consistent)
    (hst' : st'.Consistent) (h : SameData p st st') : st'.edge? r = st.edge? r := by
  obtain ⟨⟨a, ha, hsource⟩, b, hb, htarget⟩ := hr
  have hfound : ∀ c ∈ st.inScope none (some p),
      st'.symbol? (.int c.id) = st.symbol? (.int c.id) := by
    intro c hc
    rw [hst.symbol?_id (mem_inScope.mp hc).1]
    rw [← h.symbols] at hc
    exact hst'.symbol?_id (mem_inScope.mp hc).1
  rw [edge?, edge?, hsource, htarget, hfound a ha, hfound b hb]

end Store

namespace Database

variable {st st' : Store} {p q : String}

/-! ## Operations of a project -/

/-- The operations of a project. Embeddings are those of its symbols. -/
inductive ScopedTo (q : String) (db : Database) : Operation → Prop where
  | insertSymbol (data : Value) : ScopedTo q db (.insertSymbol data q)
  | insertRelation (source target kind data : Value) :
      ScopedTo q db (.insertRelation source target kind q data)
  | insertEmbedding {r : SymbolRow} (hr : r ∈ db.store.symbols) (hq : r.project = q)
      (vector : Value) : ScopedTo q db (.insertEmbedding (.int r.id) vector)
  | deleteFile (file : Value) : ScopedTo q db (.deleteFile file q)
  | deleteProject : ScopedTo q db (.deleteProject q)
  | deleteRelations (symbol : Value) : ScopedTo q db (.deleteRelations symbol q)
  | createProject (name path isRepository commit branch : Value) :
      ScopedTo q db (.createProject q name path isRepository commit branch)
  | updateScan (commit branch : Value) : ScopedTo q db (.updateScan q commit branch)

theorem notNull_some {α : Type} (t : Table) (column : String) (a : α) :
    notNull t column (some a) = pure a := rfl

theorem symbolOf_project {data : Value} {d : SymbolData} (h : symbolOf data (.text q) = .ok d) :
    d.project = q := by
  simp only [symbolOf, bindText_text, pure_bind, Result.bind_eq_ok] at h
  obtain ⟨language, -, kind, -, name, -, file, -, first, -, last, -, snippet, -, digest, -,
    language', -, kind', -, name', -, file', -, first', -, last', -, snippet', -, digest', -,
    l, -, k, -, n, -, f, -, i, -, j, -, c, -, b, -, h⟩ := h
  rw [← Except.ok.inj h]
  rfl

theorem relationOf_project {source target kind data : Value} {d : RelationData}
    (h : relationOf source target kind (.text q) data = .ok d) : d.project = q := by
  simp only [relationOf, bindText_text, notNull_some, pure_bind, Result.bind_eq_ok] at h
  obtain ⟨source', -, target', -, kind', -, s, -, t, -, k, -, h⟩ := h
  rw [← Except.ok.inj h]

theorem projectOf_project {name path isRepository commit branch : Value} {d : ProjectData}
    (h : projectOf (.text q) name path isRepository commit branch = .ok d) : d.project = q := by
  simp only [projectOf, bindText_text, notNull_some, pure_bind, Result.bind_eq_ok] at h
  obtain ⟨name', -, path', -, isRepository', -, commit', -, branch', -, l, -, h⟩ := h
  rw [← Except.ok.inj h]

theorem within_writeOf {r : Result Write} (h : ∀ w, r = .ok w → w.Within q st) :
    (writeOf r).Within q st := by
  cases r with
  | error e => trivial
  | ok w => exact h w rfl

/-- What an operation of a project writes is about this project. -/
theorem ScopedTo.within {op : Operation} (h : ScopedTo q (intact st) op) :
    op.write.Within q st := by
  cases h with
  | insertSymbol data =>
      refine within_writeOf fun w hw => ?_
      obtain ⟨d, hd, rfl⟩ := Result.map_eq_ok.mp hw
      exact symbolOf_project hd
  | insertRelation source target kind data =>
      refine within_writeOf fun w hw => ?_
      obtain ⟨d, hd, rfl⟩ := Result.map_eq_ok.mp hw
      exact relationOf_project hd
  | @insertEmbedding r hr hq vector =>
      refine within_writeOf fun w hw => ?_
      rw [bindNumber_whole] at hw
      -- an id that does not fit is refused, and nothing is written
      split at hw
      · obtain rfl := Except.ok.inj hw
        exact ⟨r, hr, rfl, hq⟩
      · exact absurd hw (by simp [Bind.bind, Except.bind])
  | deleteFile file =>
      refine within_writeOf fun w hw => ?_
      simp only [bindText_text, pure_bind, Result.bind_eq_ok] at hw
      obtain ⟨f, -, hw⟩ := hw
      cases f with
      | none => exact Except.ok.inj hw ▸ trivial
      | some f => exact Except.ok.inj hw ▸ rfl
  | deleteProject => exact rfl
  | deleteRelations symbol =>
      refine within_writeOf fun w hw => ?_
      simp only [bindText_text, pure_bind, Result.bind_eq_ok] at hw
      obtain ⟨s, -, hw⟩ := hw
      cases s with
      | none => exact Except.ok.inj hw ▸ trivial
      | some s => exact Except.ok.inj hw ▸ rfl
  | createProject name path isRepository commit branch =>
      refine within_writeOf fun w hw => ?_
      obtain ⟨d, hd, rfl⟩ := Result.map_eq_ok.mp hw
      exact projectOf_project hd
  | updateScan commit branch =>
      refine within_writeOf fun w hw => ?_
      simp only [bindText_text, pure_bind, Result.bind_eq_ok] at hw
      obtain ⟨c, -, b, -, hw⟩ := hw
      exact Except.ok.inj hw ▸ rfl

/-- All operations of a project, by one after another. -/
theorem performAll_scoped (hst : st.Consistent) (hpq : p ≠ q) {ops : List Operation}
    (hops : Throughout (ScopedTo q) (intact st) ops) :
    ∃ st', (intact st).performAll ops = intact st' ∧ st'.Consistent ∧
      Store.SameData p st st' := by
  induction ops generalizing st with
  | nil => exact ⟨st, rfl, hst, .refl p st⟩
  | cons op rest ih =>
      obtain ⟨hop, hrest⟩ := hops
      have hdata : Store.SameData p st (st.write op.write) := .write hst hpq hop.within
      rw [perform_intact] at hrest
      obtain ⟨st', heq, hst', hdata'⟩ := ih (hst.write _) hrest
      refine ⟨st', ?_, hst', hdata.trans hdata'⟩
      rw [← heq, ← perform_intact]
      rfl

/-! ## Answers about a project -/

theorem bindFilter_text (position : Nat) (hp : p ≠ "") :
    bindFilter position (.text p) = pure (some p) := by
  rw [bindFilter, Value.truthy, if_pos (by simpa using hp)]
  rfl

theorem search_eq (h : Store.SameData p st st') (hp : p ≠ "") (name language : Value) :
    (intact st').search name language p = (intact st).search name language p := by
  have hfound : ∀ l, (intact st').searchByName (Display.plain name) l (some p)
      = (intact st).searchByName (Display.plain name) l (some p) := by
    intro l
    have hrows : st'.inScope l (some p) = st.inScope l (some p) := by
      rw [Store.inScope_eq, h.symbols, ← Store.inScope_eq]
    rw [searchByName, searchByName, Store.searchByName, Store.searchByName, store_intact,
      store_intact, hrows]
    rfl
  simp only [search, bindFilter_text _ hp, connect_intact, need_intact, pure_bind, hfound]

theorem count_eq (h : Store.SameData p st st') (hp : p ≠ "") :
    (intact st').count p = (intact st).count p := by
  simp only [count, stats, bindFilter_text _ hp, connect_intact, need_intact, pure_bind,
    store_intact, h.stats]

theorem getProject_eq (h : Store.SameData p st st') :
    (intact st').getProject p = (intact st).getProject p := by
  simp only [getProject, projectInfo, bindText_text, connect_intact, need_intact, pure_bind,
    store_intact, Store.project?_eq, h.projects]

theorem fileNeedsUpdate_eq (h : Store.SameData p st st') (file digest : String) :
    (intact st').fileNeedsUpdate file digest p = (intact st).fileNeedsUpdate file digest p := by
  simp only [fileNeedsUpdate, needsUpdate, bindText_text, connect_intact, need_intact, pure_bind,
    store_intact, Store.isCurrent_eq, h.symbols]

/-- An operation of one project leaves the data of another as they are, and with them what is found,
counted and known of it and which of its files are current. -/
theorem perform_keeps_other_project {db : Database} (hdb : db.Reachable) (hp : p ≠ "")
    (hpq : p ≠ q) {op : Operation} (hop : ScopedTo q db op) :
    Store.SameData p db.store (db.perform op).store ∧
      (∀ name language, (db.perform op).search name language p = db.search name language p) ∧
      (db.perform op).count p = db.count p ∧
      (db.perform op).vectorTable = db.vectorTable ∧
      (db.perform op).getProject p = db.getProject p ∧
      ∀ file digest,
        (db.perform op).fileNeedsUpdate file digest p = db.fileNeedsUpdate file digest p := by
  obtain ⟨st, rfl, hst⟩ := hdb.exists_intact
  rw [perform_intact]
  have hdata : Store.SameData p st (st.write op.write) := .write hst hpq hop.within
  exact ⟨hdata, search_eq hdata hp, count_eq hdata hp, rfl, getProject_eq hdata,
    fileNeedsUpdate_eq hdata⟩

theorem callStored_reachable : callStored.Reachable :=
  ⟨twoFunctions ++ [.insertRelation (.int 1) (.int 2) "calls" "p" .null], rfl⟩

/-- The stored call stays when the same function is stored in another project. -/
theorem perform_keeps_other_project_call :
    Store.SameData "p" callStored.store
        (callStored.perform (.insertSymbol (functionFields "caller" "a.py") "q")).store ∧
      (callStored.perform (.insertSymbol (functionFields "caller" "a.py") "q")).count "p"
        = callStored.count "p" := by
  have hop : ScopedTo "q" callStored (.insertSymbol (functionFields "caller" "a.py") "q") :=
    .insertSymbol _
  obtain ⟨hdata, -, hcount, -⟩ :=
    perform_keeps_other_project (p := "p") callStored_reachable (by decide) (by decide) hop
  exact ⟨hdata, hcount⟩

/-! ## Answers about relationships -/

/-- Databases that tell the same about the relationships of a project: its graph, the callers and
implementations of any name, and the relationships of any symbol. -/
structure SameAnswers (p : String) (db db' : Database) : Prop where
  graph : db'.dependencies p = db.dependencies p
  callers : ∀ name, db'.edgesInto name Store.callableKinds ["calls"] p
    = db.edgesInto name Store.callableKinds ["calls"] p
  implementations : ∀ name, db'.edgesInto name Store.abstractKinds Store.implementingKinds p
    = db.edgesInto name Store.abstractKinds Store.implementingKinds p
  relations : ∀ symbol kind direction,
    db'.relations symbol kind direction p = db.relations symbol kind direction p

theorem dependencies_intact (st : Store) (hp : p ≠ "") :
    (intact st).dependencies p = .ok (st.graphNodes (some p), st.graphEdges (some p)) := by
  simp only [dependencies, graph, bindFilter_text _ hp, connect_intact, need_intact, pure_bind]
  rfl

theorem edgesInto_eq (h : Store.SameData p st st') (hp : p ≠ "")
    (hedges : st'.edgesIn p = st.edgesIn p) (name : Value) (kinds relationKinds : List String) :
    (intact st').edgesInto name kinds relationKinds p
      = (intact st).edgesInto name kinds relationKinds p := by
  simp only [edgesInto, edgesIntoNamed, bindFilter_text _ hp, connect_intact, need_intact,
    pure_bind, store_intact, Store.idsNamed_eq, Store.edgesInto_eq, h.symbols, hedges]

theorem relations_eq (hp : p ≠ "") (hedges : st'.edgesIn p = st.edgesIn p)
    (symbol kind direction : Value) :
    (intact st').relations symbol kind direction p
      = (intact st).relations symbol kind direction p := by
  have hproject : (if (Value.text p).truthy then some (Display.plain (.text p)) else none)
      = some p := if_pos (by simpa [Value.truthy] using hp)
  simp only [relations, relationsOf, connect_intact, need_intact, pure_bind, store_intact,
    hproject, Store.relationsOf_eq, hedges]

/-- All of these answers are made from the data of the project and the ends of its
relationships. -/
theorem sameAnswers_of_edges (h : Store.SameData p st st') (hp : p ≠ "")
    (hedges : st'.edgesIn p = st.edgesIn p) : SameAnswers p (intact st) (intact st') where
  graph := by
    rw [dependencies_intact st' hp, dependencies_intact st hp, Store.graphNodes, Store.graphNodes,
      Store.graphEdges_eq, Store.graphEdges_eq, hedges]
  callers := fun name => edgesInto_eq h hp hedges name _ _
  implementations := fun name => edgesInto_eq h hp hedges name _ _
  relations := relations_eq hp hedges

/-- Operations of one project leave the answers about the relationships of another as they are
exactly when every relationship there keeps the ends that are found for it. This is so whenever its
relationships begin and end at its own symbols. -/
theorem answers_unchanged_iff {db : Database} (hdb : db.Reachable) (hp : p ≠ "") (hpq : p ≠ q)
    {ops : List Operation} (hops : Throughout (ScopedTo q) db ops) :
    (SameAnswers p db (db.performAll ops) ↔
        ∀ r ∈ db.store.relationsIn (some p),
          (db.performAll ops).store.edge? r = db.store.edge? r) ∧
      ((∀ r ∈ db.store.relationsIn (some p), db.store.EndsIn p r) →
        SameAnswers p db (db.performAll ops)) := by
  obtain ⟨st, rfl, hst⟩ := hdb.exists_intact
  obtain ⟨st', heq, hst', hdata⟩ := performAll_scoped hst hpq hops
  rw [heq]
  refine ⟨⟨?_, ?_⟩, ?_⟩
  · -- the graph alone tells the ends
    intro hsame r hr
    have hgraph := hsame.graph
    rw [dependencies_intact st' hp, dependencies_intact st hp] at hgraph
    exact hdata.edge?_eq (Prod.mk.inj (Except.ok.inj hgraph)).2 hr
  · intro hedge
    exact sameAnswers_of_edges hdata hp (hdata.edgesIn_eq hedge)
  · intro hends
    refine sameAnswers_of_edges hdata hp (hdata.edgesIn_eq ?_)
    intro r hr
    exact (hends r hr).edge?_eq hst hst' hdata

theorem callStored_endsIn :
    ∀ r ∈ callStored.store.relationsIn (some "p"), callStored.store.EndsIn "p" r := by
  have hscope : callStored.store.inScope none (some "p")
      = [functionRow "caller" "a.py" 1, functionRow "callee" "b.py" 2] := by decide +kernel
  have hrelations : callStored.store.relationsIn (some "p") = [callShown.relation] := by
    decide +kernel
  rw [hrelations]
  intro r hr
  rw [List.mem_singleton.mp hr, Store.EndsIn, hscope]
  exact ⟨⟨_, List.mem_cons_self, rfl⟩, _, List.mem_cons_of_mem _ List.mem_cons_self, rfl⟩

/-- The call has its ends in its project, so that another project may come and go. -/
theorem answers_unchanged_call :
    SameAnswers "p" callStored (callStored.performAll
      [.insertSymbol (functionFields "caller" "a.py") "q", .deleteProject "q"]) := by
  have hops : Throughout (ScopedTo "q") callStored
      [.insertSymbol (functionFields "caller" "a.py") "q", .deleteProject "q"] :=
    ⟨.insertSymbol _, .deleteProject, trivial⟩
  exact (answers_unchanged_iff callStored_reachable (by decide) (by decide) hops).2
    callStored_endsIn

/-- The call is stored and the file of the function that it calls is removed. -/
def calleeRemoved : Database := callStored.perform (.deleteFile "b.py" "p")

/-- A function of another project. -/
def foreignRow : SymbolRow := { functionRow "other" "c.py" 2 with project := "q" }

/-- The graph of a project is empty at first, and then has an edge to a function that was stored in
another project: this function has got the id of the one that was called. -/
theorem foreign_symbol_completes_call :
    calleeRemoved.Reachable ∧
      Throughout (ScopedTo "q") calleeRemoved
        [.insertSymbol (functionFields "other" "c.py") "q"] ∧
      calleeRemoved.dependencies "p" = .ok ([], []) ∧
      (calleeRemoved.performAll [.insertSymbol (functionFields "other" "c.py") "q"]).dependencies
          "p"
        = .ok ([functionRow "caller" "a.py" 1, foreignRow],
            [{ callShown with target := foreignRow }]) := by
  refine ⟨?_, ?_, ?_, ?_⟩
  · exact ⟨twoFunctions ++ [.insertRelation (.int 1) (.int 2) "calls" "p" .null,
      .deleteFile "b.py" "p"], rfl⟩
  · exact ⟨.insertSymbol _, trivial⟩
  · decide +kernel
  · decide +kernel

end Database

end SymbolAtlas
