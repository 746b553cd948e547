/-
  SymbolAtlas.Proofs.Incidence: the relationships at a symbol.

  A relationship shows at a symbol when both of its ends are stored and one of them is the symbol.
  Asked for both directions, a database gives the relationships that start at the symbol and those
  that end there, and one that does both only once (`relationsOf_both_perm`). What leads to the
  symbols of a name is what leads to each of them (`edgesInto_perm`), unless there are more of them
  than values can be bound in the statement that asks for it (`callers_of_many_functions`).
-/

import SymbolAtlas.Database.View
import SymbolAtlas.Proofs.KeyOrder
import SymbolAtlas.Proofs.Selections
import SymbolAtlas.Proofs.Substring

namespace SymbolAtlas

/-- Whether an edge has the symbol of an id at this end. -/
def Edge.meets (d : Direction) (id : Int) (e : Edge) : Bool :=
  match d with
  | .outgoing => e.source.id == id
  | .incoming => e.target.id == id
  | .both => e.source.id == id || e.target.id == id

namespace Store

variable {st : Store}

/-! ## Ends -/

theorem of_symbol?_eq_some {c : Cell} {r : SymbolRow} (h : st.symbol? c = some r) :
    r ∈ st.symbols ∧ c = .int r.id := by
  refine ⟨List.mem_of_find?_eq_some h, ?_⟩
  have heq := List.find?_some h
  rw [beq_iff_eq] at heq
  exact heq.symm

/-- The ends of an edge are stored, under the ids that the relationship has. -/
theorem ends_of_mem_edges {e : Edge} (h : e ∈ st.edges) :
    (e.source ∈ st.symbols ∧ e.relation.source = .int e.source.id) ∧
      e.target ∈ st.symbols ∧ e.relation.target = .int e.target.id := by
  obtain ⟨-, hsource, htarget⟩ := mem_edges h
  exact ⟨of_symbol?_eq_some hsource, of_symbol?_eq_some htarget⟩

theorem picks_int {e : Edge} (h : e ∈ st.edges) (d : Direction) (id : Int) :
    d.picks (.int id) e.relation = e.meets d id := by
  obtain ⟨⟨-, hsource⟩, -, htarget⟩ := ends_of_mem_edges h
  have hint : ∀ m n : Int, (Cell.int m == Cell.int n) = (m == n) := by
    intro m n
    rw [Bool.eq_iff_iff, beq_iff_eq, beq_iff_eq, Cell.int.injEq]
  cases d with
  | outgoing => rw [Direction.picks, hsource, hint, Edge.meets]
  | incoming => rw [Direction.picks, htarget, hint, Edge.meets]
  | both => rw [Direction.picks, hsource, htarget, hint, hint, Edge.meets]

/-! ## Both directions -/

/-- The edges of a kind and a project. -/
def passing (st : Store) (kind project : Option String) : List Edge :=
  st.edges.filter fun e => passes kind e.relation.kind && passes project e.relation.project

theorem mem_passing {kind project : Option String} {e : Edge} :
    e ∈ st.passing kind project ↔ e ∈ st.edges ∧ (∀ k ∈ kind, e.relation.kind = k) ∧
      ∀ p ∈ project, e.relation.project = p := by
  rw [passing, List.mem_filter, Bool.and_eq_true, passes_iff, passes_iff]

/-- The relationships of a symbol are the edges that meet it and pass the filters. -/
theorem relationsOf_perm (st : Store) (id : Int) (kind : Option String) (d : Direction)
    (project : Option String) :
    (st.relationsOf (.int id) kind d project).Perm
      ((st.passing kind project).filter (·.meets d id)) := by
  refine (sortByKey_perm _ _).trans (List.Perm.of_eq ?_)
  rw [passing, List.filter_filter]
  refine List.filter_congr fun e he => ?_
  rw [picks_int he, Bool.and_assoc]

theorem mem_relationsOf_iff {id : Int} {kind : Option String} {d : Direction}
    {project : Option String} {e : Edge} :
    e ∈ st.relationsOf (.int id) kind d project ↔
      e ∈ st.passing kind project ∧ e.meets d id = true := by
  rw [(st.relationsOf_perm id kind d project).mem_iff, List.mem_filter]

/-- Both directions are the outgoing one and of the incoming one what comes from elsewhere. -/
theorem relationsOf_both_perm (st : Store) (id : Int) (kind project : Option String) :
    (st.relationsOf (.int id) kind .both project).Perm
      (st.relationsOf (.int id) kind .outgoing project ++
        (st.relationsOf (.int id) kind .incoming project).filter fun e => e.source.id != id) := by
  have hsplit := filter_or_perm (Edge.meets .outgoing id) (Edge.meets .incoming id)
    (st.passing kind project)
  refine (st.relationsOf_perm id kind .both project).trans (hsplit.trans ?_)
  exact (st.relationsOf_perm id kind .outgoing project).symm.append
    ((st.relationsOf_perm id kind .incoming project).symm.filter _)

/-- Keys that begin with the kind and the names of the ends are compared by them first. -/
theorem lexLe_kind_names {a b : Edge} {as bs : List Cell}
    (h : Cell.lexLe (.text a.relation.kind :: .text a.source.name :: .text a.target.name :: as)
      (.text b.relation.kind :: .text b.source.name :: .text b.target.name :: bs) = true) :
    a.relation.kind < b.relation.kind ∨ a.relation.kind = b.relation.kind ∧
      (a.source.name < b.source.name ∨ a.source.name = b.source.name ∧
        a.target.name ≤ b.target.name) := by
  rw [Cell.lexLe_text, Cell.lexLe_text, Cell.lexLe_text] at h
  refine h.imp_right (And.imp_right (Or.imp_right (And.imp_right ?_)))
  -- relationships of one kind between the same names are left to the rest of the keys
  rintro (hlt | ⟨heq, -⟩)
  · exact String.not_lt.mp fun hgt => String.lt_irrefl _ (String.lt_trans hlt hgt)
  · exact heq ▸ String.le_refl _

/-- Relationships by kind, then by the name of the source, then by the name of the target. -/
theorem sorted_relationsOf (st : Store) (symbol : Cell) (kind : Option String) (d : Direction)
    (project : Option String) :
    (st.relationsOf symbol kind d project).Pairwise fun a b =>
      a.relation.kind < b.relation.kind ∨ a.relation.kind = b.relation.kind ∧
        (a.source.name < b.source.name ∨ a.source.name = b.source.name ∧
          a.target.name ≤ b.target.name) := by
  have hexact : ∀ e : Edge, Cell.ExactKey (edgeKey e) := by
    intro e
    simp [Cell.ExactKey, Cell.Exact, edgeKey]
  exact (pairwise_sortByKey hexact _).imp fun hle => lexLe_kind_names hle

/-! ## What leads to the symbols of a name -/

/-- What leads to one symbol, kind by kind. -/
theorem incoming_perm (st : Store) (id : Int) {kinds : List String} (hkinds : kinds.Nodup)
    (project : Option String) :
    ((st.passing none project).filter fun e =>
        kinds.contains e.relation.kind && e.target.id == id).Perm
      (kinds.flatMap fun k => st.relationsOf (.int id) (some k) .incoming project) := by
  rw [← List.filter_filter]
  refine (filter_contains_perm (fun e : Edge => e.relation.kind) hkinds _).trans ?_
  refine List.Perm.flatMap_left kinds fun k _ => ?_
  refine (List.Perm.of_eq ?_).trans (st.relationsOf_perm id (some k) .incoming project).symm
  -- the same three conditions, in another order
  simp only [passing, List.filter_filter]
  refine List.filter_congr fun e _ => ?_
  rw [Edge.meets, passes, passes, Bool.true_and, Bool.beq_comm]
  cases k == e.relation.kind <;> cases e.target.id == id <;> rfl

/-- What leads to some symbols is what leads to each of them, kind by kind. -/
theorem edgesInto_perm (st : Store) {ids : List Int} (hids : ids.Nodup) {kinds : List String}
    (hkinds : kinds.Nodup) (project : Option String) :
    (st.edgesInto ids kinds project).Perm (ids.flatMap fun id => kinds.flatMap fun k =>
      st.relationsOf (.int id) (some k) .incoming project) := by
  have hfilter : (st.edges.filter fun e => ids.contains e.target.id &&
        kinds.contains e.relation.kind && passes project e.relation.project)
      = ((st.passing none project).filter fun e => kinds.contains e.relation.kind).filter
        fun e => ids.contains e.target.id := by
    rw [passing, List.filter_filter, List.filter_filter]
    refine List.filter_congr fun e _ => ?_
    rw [passes, Bool.true_and]
  refine (sortByKey_perm _ _).trans ((List.Perm.of_eq hfilter).trans ?_)
  refine (filter_contains_perm (fun e : Edge => e.target.id) hids _).trans ?_
  refine List.Perm.flatMap_left ids fun id _ => ?_
  rw [List.filter_filter]
  refine (List.Perm.of_eq ?_).trans (st.incoming_perm id hkinds project)
  exact List.filter_congr fun e _ => Bool.and_comm _ _

/-! ## Ids -/

theorem foldl_max_le {is : List Int} {i n : Int} (hi : i ≤ n) (h : ∀ j ∈ is, j ≤ n) :
    is.foldl max i ≤ n := by
  induction is generalizing i with
  | nil => exact hi
  | cons j rest ih =>
      obtain ⟨hj, hrest⟩ := List.forall_mem_cons.mp h
      exact ih (Int.max_le.mpr ⟨hi, hj⟩) hrest

theorem nextId_le {is : List Int} {n : Int} (hn : 0 ≤ n) (h : ∀ i ∈ is, i ≤ n) :
    nextId is ≤ n + 1 := by
  cases is with
  | nil =>
      rw [nextId]
      omega
  | cons i rest =>
      obtain ⟨hi, hrest⟩ := List.forall_mem_cons.mp h
      have hmax := foldl_max_le hi hrest
      rw [nextId]
      omega

end Store

namespace Database

variable {db : Database}

/-! ## Databases that answer -/

/-- A database that answers questions about symbols and relationships: it opens, has both tables,
and its symbols have ids of their own, which fit in 64 bits. -/
structure Readable (db : Database) : Prop where
  opens : db.broken = false
  symbols : Table.symbols ∉ db.dropped
  relationships : Table.relationships ∉ db.dropped
  distinct : db.DistinctIds
  fits : ∀ r ∈ db.store.symbols, Cell.fits r.id = true

/-- One operation gives one id more at most. -/
theorem id_le_perform {n : Int} (hn : 0 ≤ n) (h : ∀ r ∈ db.store.symbols, r.id ≤ n)
    (op : Operation) : ∀ r ∈ (db.perform op).store.symbols, r.id ≤ n + 1 := by
  intro r hr
  rcases db.perform_symbols op with ⟨-, hsub⟩ | ⟨row, kept, -, hsub, hrows, hid⟩
  · have hle := h r (hsub.mem hr)
    omega
  · rw [hrows] at hr
    rcases List.mem_append.mp hr with hold | hnew
    · have hle := h r (hsub.mem hold)
      omega
    · rw [List.mem_singleton.mp hnew, hid]
      refine Store.nextId_le hn ?_
      intro i hi
      obtain ⟨s, hs, rfl⟩ := List.mem_map.mp hi
      exact h s hs

theorem id_le_performAll {n : Int} (hn : 0 ≤ n) (h : ∀ r ∈ db.store.symbols, r.id ≤ n)
    (ops : List Operation) : ∀ r ∈ (db.performAll ops).store.symbols, r.id ≤ n + ops.length := by
  induction ops generalizing db n with
  | nil => simpa [performAll] using h
  | cons op rest ih =>
      intro r hr
      have hle := ih (Int.add_nonneg hn (by decide)) (id_le_perform hn h op) r hr
      rw [List.length_cons]
      omega

/-- What operations lead to from an empty database is readable, unless there were more of them than
there are ids. -/
theorem readable_performAll {ops : List Operation} (h : Cell.fits ops.length = true) :
    (performAll {} ops).Readable := by
  have hintact : performAll {} ops = intact (Store.writeAll {} (ops.map Operation.write)) :=
    performAll_intact {} ops
  have hconsistent : (performAll {} ops).store.Consistent := by
    rw [hintact]
    exact Store.consistent_empty.writeAll _
  refine ⟨?_, ?_, ?_, hconsistent.symbolIds, ?_⟩
  · rw [hintact]
    rfl
  · rw [hintact]
    exact List.not_mem_nil
  · rw [hintact]
    exact List.not_mem_nil
  · intro r hr
    have hlower := hconsistent.one_le_id r hr
    have hupper := id_le_performAll (Int.le_refl 0) (fun _ hmem => absurd hmem List.not_mem_nil)
      ops r hr
    simp only [Cell.fits, Bool.and_eq_true, decide_eq_true_eq] at h ⊢
    omega

theorem ofName?_name (d : Direction) : Direction.ofName? d.name = some d := by
  cases d <;> rfl

/-- The relationships of a symbol, asked for with the filters as they are given. -/
theorem relations_int (hopens : db.broken = false) (hsymbols : Table.symbols ∉ db.dropped)
    (hrelationships : Table.relationships ∉ db.dropped) (id : Int) (kind : Option String)
    (d : Direction) (project : Option String) :
    db.relations (.int id) (.ofText? kind) (.text d.name) (.ofText? project)
      = if Cell.fits id then .ok (db.store.relationsOf (.int id) (kind.bind Store.filterOf) d
          (project.bind Store.filterOf))
        else .error .tooLarge := by
  have hshown : ∀ given : Option String,
      (if (Value.ofText? given).truthy then some (Display.plain (Value.ofText? given)) else none)
        = given.bind Store.filterOf := by
    rintro (_ | s)
    · rfl
    · by_cases hs : s = ""
      · subst hs
        rfl
      · simp [Value.ofText?, Value.truthy, Store.filterOf, Display.plain, hs]
  simp only [relations, relationsOf, connect_ok hopens, need_ok hsymbols, need_ok hrelationships,
    ofName?_name, hshown]
  rw [bindNumber, bind]
  cases hfits : Cell.fits id with
  | false => rfl
  | true => rfl

/-! ## The relationships of one symbol -/

/-- In every database that opens and has its two tables, and for every id and all filters: the three
directions are answered alike. Both directions together are the outgoing relationships and those of
the incoming ones that come from elsewhere, so that a relationship of a symbol with itself is told
once. Whatever is told joins two stored symbols, one of which has the id, and all that passes the
filters and has the id at the right end is told. The answers are sorted by kind and by the names of
source and target. A number of more than 64 bits is refused in all directions. -/
theorem relations_both_perm (hopens : db.broken = false) (hsymbols : Table.symbols ∉ db.dropped)
    (hrelationships : Table.relationships ∉ db.dropped) (id : Int)
    (kind project : Option String) :
    let answer := fun d : Direction =>
      db.relations (.int id) (.ofText? kind) (.text d.name) (.ofText? project)
    (Cell.fits id = false → ∀ d, answer d = .error .tooLarge) ∧
    (Cell.fits id = true → ∃ rows : Direction → List Edge, (∀ d, answer d = .ok (rows d)) ∧
      (rows .both).Perm (rows .outgoing ++ (rows .incoming).filter fun e => e.source.id != id) ∧
      (∀ d, ∀ e ∈ rows d, e.source ∈ db.store.symbols ∧ e.target ∈ db.store.symbols ∧
        (e.source.id = id ∨ e.target.id = id)) ∧
      (∀ d e, e ∈ rows d ↔
        e ∈ db.store.passing (kind.bind Store.filterOf) (project.bind Store.filterOf) ∧
          e.meets d id = true) ∧
      ∀ d, (rows d).Pairwise fun a b =>
        a.relation.kind < b.relation.kind ∨ a.relation.kind = b.relation.kind ∧
          (a.source.name < b.source.name ∨ a.source.name = b.source.name ∧
            a.target.name ≤ b.target.name)) := by
  intro answer
  have hanswer : ∀ d, answer d = if Cell.fits id then
      .ok (db.store.relationsOf (.int id) (kind.bind Store.filterOf) d
        (project.bind Store.filterOf)) else .error .tooLarge :=
    fun d => relations_int hopens hsymbols hrelationships id kind d project
  constructor
  · intro hfits d
    rw [hanswer, hfits]
    rfl
  · intro hfits
    refine ⟨fun d => db.store.relationsOf (.int id) (kind.bind Store.filterOf) d
      (project.bind Store.filterOf), ?_, db.store.relationsOf_both_perm id _ _, ?_, ?_, ?_⟩
    · intro d
      rw [hanswer, hfits]
      rfl
    · intro d e he
      obtain ⟨hpassing, hmeets⟩ := Store.mem_relationsOf_iff.mp he
      obtain ⟨⟨hsource, -⟩, htarget, -⟩ :=
        Store.ends_of_mem_edges (Store.mem_passing.mp hpassing).1
      refine ⟨hsource, htarget, ?_⟩
      cases d with
      | outgoing => exact .inl (beq_iff_eq.mp hmeets)
      | incoming => exact .inr (beq_iff_eq.mp hmeets)
      | both => simpa [Edge.meets] using hmeets
    · exact fun d e => Store.mem_relationsOf_iff
    · intro d
      exact db.store.sorted_relationsOf _ _ d _

/-- Two functions of one name; the first calls itself and the second. -/
def selfCalled : List Operation :=
  [.insertSymbol (functionFields "run" "a.py") "p",
   .insertSymbol (functionFields "run" "b.py") "p",
   .insertRelation (.int 1) (.int 1) "calls" "p" .null,
   .insertRelation (.int 1) (.int 2) "calls" "p" .null]

/-- The call of the first function by itself. -/
def selfCall : Edge where
  relation := { project := "p", source := .int 1, target := .int 1, kind := "calls", data := none
                id := 1 }
  source := functionRow "run" "a.py" 1
  target := functionRow "run" "a.py" 1

/-- The call of the function by itself is an outgoing one and an incoming one. In both directions it
is not told a second time. -/
theorem relations_both_perm_selfCall :
    let db := performAll {} selfCalled
    ∃ rows : Direction → List Edge,
      (∀ d : Direction, db.relations (.int 1) "calls" (.text d.name) "p" = .ok (rows d)) ∧
      selfCall ∈ rows .outgoing ∧ selfCall ∈ rows .incoming ∧
      (rows .both).Perm (rows .outgoing) := by
  have hfacts : let st := (performAll {} selfCalled).store
      selfCall ∈ st.passing (some "calls") (some "p") ∧
        ∀ e ∈ st.passing (some "calls") (some "p"), e.source.id = 1 := by
    decide +kernel
  obtain ⟨rows, hrows, hperm, -, hmem, -⟩ := (@relations_both_perm (performAll {} selfCalled)
    rfl (by decide) (by decide) 1 (some "calls") (some "p")).2 (by decide)
  refine ⟨rows, hrows, (hmem _ _).mpr ⟨hfacts.1, rfl⟩, (hmem _ _).mpr ⟨hfacts.1, rfl⟩, ?_⟩
  -- nothing leads to the function from elsewhere
  have hnone : ((rows .incoming).filter fun e => e.source.id != 1) = [] := by
    refine List.filter_eq_nil_iff.mpr fun e he => ?_
    simpa using hfacts.2 e ((hmem _ _).mp he).1
  rwa [hnone, List.append_nil] at hperm

/-! ## The relationships into the symbols of a name -/

/-- The fields of some names. -/
def pick (keys : List String) (fields : List (String × Value)) : List (Option Value) :=
  keys.map fun k => Value.field? k fields

/-- The symbols of a name and of some kinds. -/
def named (db : Database) (name : String) (kinds : List String) (project : Option String) :
    List SymbolRow :=
  db.store.symbols.filter fun r =>
    r.name == name && kinds.contains r.kind && Store.passes project r.project

theorem Readable.relationsOf_eq (h : db.Readable) (symbol : Cell) (kind : Option String)
    (d : Direction) (project : Option String) :
    db.relationsOf symbol kind d project = .ok (db.store.relationsOf symbol kind d project) := by
  rw [relationsOf, connect_ok h.opens, need_ok h.relationships, need_ok h.symbols]
  rfl

/-- Whether the symbols of a name, with the project, can be bound in one statement. -/
def FitsNamed (db : Database) (name : String) (kinds : List String) (project : Option String) :
    Prop :=
  (db.named name kinds project).length + project.toList.length ≤ maxVariables

instance (db : Database) (name : String) (kinds : List String) (project : Option String) :
    Decidable (db.FitsNamed name kinds project) :=
  inferInstanceAs (Decidable (_ ≤ maxVariables))

theorem fitsNamed_of_lt {name : String} {kinds : List String} {project : Option String}
    (h : (db.named name kinds project).length < maxVariables) :
    db.FitsNamed name kinds project := by
  have hproject : project.toList.length ≤ 1 := by
    cases project <;> simp
  rw [FitsNamed]
  omega

/-- A name that no symbol has is not looked for among the relationships, where it would lead to
nothing. -/
theorem Readable.edgesIntoNamed_eq (h : db.Readable) (name : String)
    (kinds relationKinds : List String) (project : Option String) :
    db.edgesIntoNamed name kinds relationKinds project
      = if db.FitsNamed name kinds project then
          .ok (db.store.edgesInto ((db.named name kinds project).map (·.id)) relationKinds project)
        else .error .tooManyVariables := by
  have hids : db.store.idsNamed name kinds project
      = (db.named name kinds project).map (·.id) := rfl
  simp only [edgesIntoNamed, connect_ok h.opens, need_ok h.symbols, need_ok h.relationships, hids,
    fitVariables, List.length_map]
  cases hnamed : db.named name kinds project with
  | nil =>
      have hnone : db.store.edgesInto [] relationKinds project = [] := by
        rw [Store.edgesInto, Store.sortByKey_eq_nil, List.filter_eq_nil_iff]
        exact fun _ _ => by simp
      have hfits : db.FitsNamed name kinds project :=
        fitsNamed_of_lt (by rw [hnamed]; decide)
      rw [if_pos hfits, List.map_nil, hnone]
      rfl
  | cons r rest =>
      by_cases hfits : db.FitsNamed name kinds project
      all_goals
        have hlength := hfits
        rw [FitsNamed, hnamed] at hlength
      · rw [if_pos hfits, if_neg (Nat.not_lt.mpr hlength)]
        rfl
      · rw [if_neg hfits, if_pos (Nat.not_le.mp hlength)]
        rfl

theorem Readable.edgesInto_eq (h : db.Readable) (name : String) (kinds relationKinds : List String)
    (project : Option String) :
    db.edgesInto name kinds relationKinds (.ofText? project)
      = if db.FitsNamed name kinds (project.bind Store.filterOf) then
          .ok (db.store.edgesInto
            ((db.named name kinds (project.bind Store.filterOf)).map (·.id)) relationKinds
            (project.bind Store.filterOf))
        else .error .tooManyVariables := by
  rw [← h.edgesIntoNamed_eq, edgesInto, connect_ok h.opens, need_ok h.symbols]
  simp only [bindFilter_bind]
  rfl

theorem Readable.edgesInto_refused (h : db.Readable) {name : String} {kinds : List String}
    (relationKinds : List String) {project : Option String} (hproject : project ≠ some "")
    (hfits : ¬ db.FitsNamed name kinds project) :
    db.edgesInto name kinds relationKinds (.ofText? project) = .error .tooManyVariables := by
  rw [h.edgesInto_eq, bind_filterOf hproject, if_neg hfits]

/-- The functions on lines are functions of one name. -/
theorem le_length_named_functionsOnLines {n : Nat} (h : n ≤ 2147483648) :
    n ≤ ((performAll {} (functionsOnLines n)).named "f" Store.callableKinds none).length := by
  have hrows := length_rowsOf_functionsOnLines h
  rw [Store.rowsOf, ← List.countP_eq_length_filter] at hrows
  rw [named, ← List.countP_eq_length_filter]
  refine Nat.le_trans (Nat.le_of_eq hrows.symm) (List.countP_mono_left fun r hr hrow => ?_)
  have hdata : r.toSymbolData ∈ (performAll {} (functionsOnLines n)).store.dataOf "p" "a.py" :=
    List.mem_map_of_mem (List.mem_filter.mpr ⟨hr, hrow⟩)
  rw [dataOf_functionsOnLines h] at hdata
  obtain ⟨i, -, hi⟩ := List.mem_map.mp hdata
  rw [← hi]
  rfl

/-- With too many functions of a name the question for their callers is refused, although the
question for the callers of each one of them is answered. -/
theorem callers_of_many_functions {n : Nat} (hmany : maxVariables < n) (hn : n ≤ 2147483648) :
    let db := performAll {} (functionsOnLines n)
    db.Readable ∧
      db.edgesInto "f" Store.callableKinds ["calls"] (.ofText? none)
        = .error .tooManyVariables ∧
      ∀ r ∈ db.named "f" Store.callableKinds none,
        ∃ edges, db.relations (.int r.id) (.text "calls") "incoming" (.ofText? none)
          = .ok edges := by
  intro db
  have hreadable : db.Readable := by
    apply readable_performAll
    rw [functionsOnLines, List.length_map, List.length_range]
    exact fits_of_le hn
  have hcrowded : ¬ db.FitsNamed "f" Store.callableKinds none :=
    Nat.not_le.mpr (Nat.lt_of_lt_of_le hmany (le_length_named_functionsOnLines hn))
  refine ⟨hreadable, hreadable.edgesInto_refused _ (by decide) hcrowded, fun r hr => ?_⟩
  have hanswer := relations_int hreadable.opens hreadable.symbols hreadable.relationships r.id
    (some "calls") .incoming none
  rw [if_pos (hreadable.fits r (List.mem_filter.mp hr).1)] at hanswer
  exact ⟨_, hanswer⟩

end Database

end SymbolAtlas
