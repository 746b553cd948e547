/-
  SymbolAtlas.Proofs.Hierarchy: callers and callees of a function.

  Callers are looked for by the exact name of a function or method (`mem_callers`), and callees
  among the calls of all symbols that a search for the name finds (`mem_callees`). So a function is
  also told as a callee of a name that is only a part of the name of what calls it. The two answers
  agree where calls stay within the functions and methods of a project and no caller's name is found
  by a search for another one (`CallsWithin.calleeOf_iff`).
-/

import SymbolAtlas.Proofs.Endpoints
import SymbolAtlas.Proofs.Incidence
import SymbolAtlas.Proofs.Wildcards

namespace SymbolAtlas

/-! ## Items of an answer -/

namespace Value

/-- Whether a record has an item of a name in the list under a key. -/
def ListsNamed (v : Value) (key name : String) : Prop :=
  ∃ fields items item, v = .object fields ∧ field? key fields = some (.list items) ∧
    .object item ∈ items ∧ field? "name" item = some (.text name)

/-- A list whose items are made of something that has names. -/
theorem listsNamed_map {α : Type} {fields : List (String × Value)} {key : String} {xs : List α}
    {item : α → List (String × Value)} {nameOf : α → String}
    (hfield : field? key fields = some (.list (xs.map fun a => .object (item a))))
    (hname : ∀ a, field? "name" (item a) = some (.text (nameOf a))) (name : String) :
    (Value.object fields).ListsNamed key name ↔ ∃ a ∈ xs, nameOf a = name := by
  constructor
  · rintro ⟨fields', items, found, hobject, hitems, hfound, hfoundName⟩
    obtain rfl := Value.object.inj hobject
    obtain rfl := Value.list.inj (Option.some.inj (hfield.symm.trans hitems))
    obtain ⟨a, ha, heq⟩ := List.mem_map.mp hfound
    obtain rfl := Value.object.inj heq
    exact ⟨a, ha, Value.text.inj (Option.some.inj ((hname a).symm.trans hfoundName))⟩
  · rintro ⟨a, ha, rfl⟩
    exact ⟨fields, _, item a, rfl, hfield, List.mem_map_of_mem ha, hname a⟩

/-- Nothing is listed under a key that a record does not have. -/
theorem not_listsNamed {fields : List (String × Value)} {key name : String}
    (h : field? key fields = none) : ¬ (Value.object fields).ListsNamed key name := by
  rintro ⟨fields', items, item, hobject, hitems, -⟩
  obtain rfl := Value.object.inj hobject
  exact absurd (h.symm.trans hitems) (by simp)

end Value

namespace Answer

variable {α β : Type}

theorem ofDatabase_ok (a : α) : Answer.ofDatabase (.ok a) = .ok a := rfl

theorem ok_bind (a : α) (f : α → Answer β) : (Except.ok a >>= f) = f a := rfl

end Answer

/-- Whether an answer is given and has an item of a name in the list under a key. -/
def Answer.ListsNamed (answer : Answer Value) (key name : String) : Prop :=
  ∃ v, answer = .ok v ∧ v.ListsNamed key name

/-- The same for a reply. -/
def Reply.ListsNamed (reply : Reply) (key name : String) : Prop :=
  Answer.ListsNamed (reply.answer.map .object) key name

/-! ## Calls -/

namespace Store

variable {st : Store} {project : Option String} {e : Edge}

/-- The calls by the symbols of a project that a search for a text finds. -/
def callees (st : Store) (name : String) (project : Option String) : List Edge :=
  (st.searchByName name none project).flatMap fun r =>
    st.relationsOf (.int r.id) (some "calls") .outgoing project

/-- A symbol is the only one of its id. -/
theorem eq_of_id (h : (st.symbols.map (·.id)).Nodup) {a b : SymbolRow} (ha : a ∈ st.symbols)
    (hb : b ∈ st.symbols) (hid : a.id = b.id) : a = b :=
  List.inj_on_of_nodup_map h ha hb hid

/-- Callees are the targets of calls by symbols of the project whose names fit. -/
theorem mem_callees (h : (st.symbols.map (·.id)).Nodup) {name : String} :
    e ∈ st.callees name project ↔ e ∈ st.passing (some "calls") project ∧
      (∀ p ∈ project, e.source.project = p) ∧ Like.Finds name e.source.name := by
  rw [callees, List.mem_flatMap]
  constructor
  · rintro ⟨r, hr, he⟩
    obtain ⟨hscope, hfits⟩ := mem_searchByName.mp hr
    obtain ⟨hmem, -, hproject⟩ := mem_inScope_iff.mp hscope
    obtain ⟨hpassing, hmeets⟩ := mem_relationsOf_iff.mp he
    -- the call starts at the symbol that was found
    have hsource : e.source = r := by
      obtain ⟨⟨hstored, -⟩, -⟩ := ends_of_mem_edges (mem_passing.mp hpassing).1
      exact eq_of_id h hstored hmem (beq_iff_eq.mp hmeets)
    exact ⟨hpassing, hsource ▸ hproject, hsource ▸ fitsName_iff.mp hfits⟩
  · rintro ⟨hpassing, hproject, hfinds⟩
    obtain ⟨⟨hstored, -⟩, -⟩ := ends_of_mem_edges (mem_passing.mp hpassing).1
    refine ⟨e.source, mem_searchByName.mpr ⟨?_, fitsName_iff.mpr hfinds⟩, ?_⟩
    · exact mem_inScope_iff.mpr ⟨hstored, by simp, hproject⟩
    · exact mem_relationsOf_iff.mpr ⟨hpassing, beq_self_eq_true _⟩

/-- Callers are the sources of calls to the functions and methods of the name in the project. -/
theorem mem_callers (h : (st.symbols.map (·.id)).Nodup) {name : String} :
    e ∈ st.callers name project ↔ e ∈ st.passing (some "calls") project ∧
      e.target.name = name ∧ e.target.kind ∈ callableKinds ∧
      ∀ p ∈ project, e.target.project = p := by
  have hids : (st.idsNamed name callableKinds project).Nodup :=
    List.Nodup.sublist (List.filter_sublist.map _) h
  rw [callers, (st.edgesInto_perm hids (by decide) project).mem_iff, List.mem_flatMap]
  simp only [List.flatMap_singleton, mem_relationsOf_iff, Edge.meets, beq_iff_eq]
  constructor
  · rintro ⟨id, hid, hpassing, rfl⟩
    obtain ⟨r, hr, heq⟩ := List.mem_map.mp hid
    obtain ⟨hmem, hnamed⟩ := List.mem_filter.mp hr
    -- the call ends at the symbol of the name
    obtain rfl : r = e.target := by
      obtain ⟨-, hstored, -⟩ := ends_of_mem_edges (mem_passing.mp hpassing).1
      exact eq_of_id h hmem hstored heq
    rw [Bool.and_eq_true, Bool.and_eq_true, beq_iff_eq, List.contains_iff_mem, passes_iff,
      and_assoc] at hnamed
    exact ⟨hpassing, hnamed⟩
  · rintro ⟨hpassing, hname, hkind, hproject⟩
    obtain ⟨-, hstored, -⟩ := ends_of_mem_edges (mem_passing.mp hpassing).1
    refine ⟨e.target.id, List.mem_map_of_mem (List.mem_filter.mpr ⟨hstored, ?_⟩), hpassing, rfl⟩
    rw [Bool.and_eq_true, Bool.and_eq_true, beq_iff_eq, List.contains_iff_mem, passes_iff]
    exact ⟨⟨hname, hkind⟩, hproject⟩

/-- A name that no search finds has no callers and no callees. -/
theorem calls_of_searchByName_nil (h : (st.symbols.map (·.id)).Nodup) {name : String}
    (hnone : st.searchByName name none project = []) :
    st.callers name project = [] ∧ st.callees name project = [] := by
  constructor
  · refine List.eq_nil_iff_forall_not_mem.mpr fun e he => ?_
    obtain ⟨hpassing, rfl, -, hproject⟩ := (mem_callers h).mp he
    obtain ⟨-, hstored, -⟩ := ends_of_mem_edges (mem_passing.mp hpassing).1
    -- the search would find a symbol of just this name
    have hfound : e.target ∈ st.searchByName e.target.name none project :=
      mem_searchByName.mpr ⟨mem_inScope_iff.mpr ⟨hstored, by simp, hproject⟩,
        fitsName_iff.mpr (Like.finds_self _)⟩
    rw [hnone] at hfound
    exact absurd hfound List.not_mem_nil
  · rw [callees, hnone]
    rfl

/-- Whether a symbol of some name in a project, which a search for the one text finds, calls a
symbol of the other name. -/
def CalleeOf (st : Store) (project : Option String) (f g : String) : Prop :=
  ∃ e ∈ st.passing (some "calls") project, (∀ p ∈ project, e.source.project = p) ∧
    Like.Finds f e.source.name ∧ e.target.name = g

/-- Whether a symbol of the one name calls a function or method of the other name in a project. -/
def CallerOf (st : Store) (project : Option String) (g f : String) : Prop :=
  ∃ e ∈ st.passing (some "calls") project, e.source.name = f ∧ e.target.name = g ∧
    e.target.kind ∈ callableKinds ∧ ∀ p ∈ project, e.target.project = p

theorem exists_callee_iff (h : (st.symbols.map (·.id)).Nodup) {f g : String} :
    (∃ e ∈ st.callees f project, e.target.name = g) ↔ st.CalleeOf project f g := by
  simp only [CalleeOf, mem_callees h, and_assoc]

theorem exists_caller_iff (h : (st.symbols.map (·.id)).Nodup) {f g : String} :
    (∃ e ∈ st.callers g project, e.source.name = f) ↔ st.CallerOf project g f := by
  simp only [CallerOf, mem_callers h]
  grind

end Store

/-! ## Answers that list calls -/

namespace Answer

variable {answer : Answer Value} {told : Prop} {st : Store} {project : Option String}
  {name : String}

/-- Whether an answer, if it is told at all, lists the names of the callees and the callers. -/
def ListsCalls (answer : Answer Value) (told : Prop) (st : Store) (project : Option String)
    (name : String) : Prop :=
  (∀ g, answer.ListsNamed "callees" g ↔ told ∧ st.CalleeOf project name g) ∧
    ∀ f, answer.ListsNamed "callers" f ↔ told ∧ st.CallerOf project name f

theorem listsNamed_ok {v : Value} {key item : String} :
    Answer.ListsNamed (.ok v) key item ↔ v.ListsNamed key item := by
  constructor
  · rintro ⟨v', hv, hlists⟩
    rwa [Except.ok.inj hv]
  · exact fun hlists => ⟨v, rfl, hlists⟩

/-- An error lists nothing. -/
theorem listsCalls_of_error (h : ∃ e, answer = .error e) (htold : ¬ told) :
    answer.ListsCalls told st project name := by
  obtain ⟨e, rfl⟩ := h
  have hnone : ∀ key item, ¬ Answer.ListsNamed (.error e) key item := by
    rintro key item ⟨v, hv, -⟩
    exact absurd hv (by simp)
  exact ⟨fun g => iff_of_false (hnone _ g) fun hcalled => htold hcalled.1,
    fun f => iff_of_false (hnone _ f) fun hcalling => htold hcalling.1⟩

/-- Callers and callees are listed as records of some form that holds their names. -/
theorem listsCalls_of_fields (hids : (st.symbols.map (·.id)).Nodup) (htold : told)
    {fields : List (String × Value)} (h : answer = .ok (.object fields))
    {item : SymbolRow → List (String × Value)}
    (hname : ∀ r, Value.field? "name" (item r) = some (.text r.name))
    (hcallees : Value.field? "callees" fields
      = some (.list ((st.callees name project).map fun e => .object (item e.target))))
    (hcallers : Value.field? "callers" fields
      = some (.list ((st.callers name project).map fun e => .object (item e.source)))) :
    answer.ListsCalls told st project name := by
  subst h
  constructor
  · intro g
    rw [listsNamed_ok, Value.listsNamed_map hcallees fun e => hname e.target,
      Store.exists_callee_iff hids, and_iff_right htold]
  · intro f
    rw [listsNamed_ok, Value.listsNamed_map hcallers fun e => hname e.source,
      Store.exists_caller_iff hids, and_iff_right htold]

end Answer

/-! ## Searches -/

namespace Database

variable {db : Database} {project : Option String} {name : String}

/-- Whether a name is short enough to be searched for, or has nothing to be compared with. -/
def Seeks (db : Database) (project : Option String) (name : String) : Prop :=
  (Like.containing name).utf8ByteSize ≤ Like.maxBytes ∨ db.store.inScope none project = []

theorem Readable.searchByName_of_seeks (h : db.Readable) (hseeks : db.Seeks project name) :
    db.searchByName name none project = .ok (db.store.searchByName name none project) := by
  have hshort : ¬ ((decide ((Like.containing name).utf8ByteSize > Like.maxBytes) &&
      !(db.store.inScope none project).isEmpty) = true) := by
    rw [Bool.and_eq_true, decide_eq_true_eq, Bool.not_eq_true', List.isEmpty_eq_false_iff]
    rcases hseeks with hshort | hnone
    · exact fun hlong => absurd hlong.1 (Nat.not_lt.mpr hshort)
    · exact fun hlong => absurd hnone hlong.2
  simp only [searchByName, connect_ok h.opens, need_ok h.symbols]
  rw [if_neg hshort]
  rfl

theorem Readable.searchByName_of_not_seeks (h : db.Readable) (hseeks : ¬ db.Seeks project name) :
    db.searchByName name none project = .error .patternTooLong := by
  obtain ⟨hlong, hsome⟩ := not_or.mp hseeks
  have hlong : (decide ((Like.containing name).utf8ByteSize > Like.maxBytes) &&
      !(db.store.inScope none project).isEmpty) = true := by
    rw [Bool.and_eq_true, decide_eq_true_eq, Bool.not_eq_true', List.isEmpty_eq_false_iff]
    exact ⟨Nat.not_le.mp hlong, hsome⟩
  simp only [searchByName, connect_ok h.opens, need_ok h.symbols]
  rw [if_pos hlong]
  rfl

/-- Whether the calls of a name can be followed: it can be searched for, and its functions and
methods can be bound in one statement. -/
structure Traces (db : Database) (project : Option String) (name : String) : Prop where
  seeks : db.Seeks project name
  fits : db.FitsNamed name Store.callableKinds project

/-- A name that no search finds has no functions to be bound. -/
theorem fitsNamed_of_searchByName_nil (h : db.store.searchByName name none project = [])
    (kinds : List String) : db.FitsNamed name kinds project := by
  have hnone : db.named name kinds project = [] := by
    refine List.eq_nil_iff_forall_not_mem.mpr fun r hr => ?_
    obtain ⟨hmem, hnamed⟩ := List.mem_filter.mp hr
    rw [Bool.and_eq_true, Bool.and_eq_true, beq_iff_eq, Store.passes_iff] at hnamed
    obtain ⟨⟨rfl, -⟩, hproject⟩ := hnamed
    have hfound : r ∈ db.store.searchByName r.name none project :=
      Store.mem_searchByName.mpr ⟨Store.mem_inScope_iff.mpr ⟨hmem, by simp, hproject⟩,
        Store.fitsName_iff.mpr (Like.finds_self _)⟩
    rw [h] at hfound
    exact absurd hfound List.not_mem_nil
  exact fitsNamed_of_lt (by rw [hnone]; decide)

/-- A search for a text in a project, or in all of them if the project is an empty text. -/
theorem Readable.search_eq (h : db.Readable) (name p : String) :
    db.search name .null (.text p) = db.searchByName name none (Store.filterOf p) := by
  have hproject := bindFilter_bind 2 (some p)
  rw [search, connect_ok h.opens, need_ok h.symbols]
  exact congrArg (fun r => r >>= fun project => db.searchByName name none project) hproject

end Database

/-! ## The view of a hierarchy -/

namespace Resource

variable {db : Database}

/-- The view of a name that is found. -/
theorem hierarchyView_of_hits (h : db.Readable) {p name : String} {first : SymbolRow}
    {rest : List SymbolRow}
    (hfits : db.FitsNamed name Store.callableKinds (Store.filterOf p))
    (hhits : db.search (.text name) .null (.text p) = .ok (first :: rest))
    (hfound : db.store.searchByName name none (Store.filterOf p) = first :: rest) :
    hierarchyView db (.text p) (.text name) = .ok (.object
      [("function", .object [("name", .text name), ("project_id", .text p)]),
       ("callers", .list ((db.store.callers name (Store.filterOf p)).map fun e =>
         .object (placeFields e.source))),
       ("callees", .list ((db.store.callees name (Store.filterOf p)).map fun e =>
         .object (placeFields e.target)))]) := by
  have hcallers : db.edgesInto name Store.callableKinds ["calls"] (.text p)
      = .ok (db.store.callers name (Store.filterOf p)) :=
    (h.edgesInto_eq name Store.callableKinds ["calls"] (some p)).trans (if_pos hfits)
  have hcallees : (first :: rest).mapM (fun r =>
        Answer.ofDatabase (db.relations (.int r.id) "calls" "outgoing" (.text p)))
      = .ok ((first :: rest).map fun r =>
        db.store.relationsOf (.int r.id) (some "calls") .outgoing (Store.filterOf p)) := by
    refine Answer.mapM_eq_ok fun r hr => ?_
    rw [← hfound] at hr
    -- the symbol is stored, so that its id can be asked for
    have hfits := h.fits r (Store.mem_inScope_iff.mp (Store.mem_searchByName.mp hr).1).1
    have hanswer := Database.relations_int h.opens h.symbols h.relationships r.id (some "calls")
      .outgoing (some p)
    rw [if_pos hfits] at hanswer
    exact congrArg Answer.ofDatabase hanswer
  rw [Store.callees, hfound, List.flatMap_def]
  simp only [hierarchyView, hhits, hcallers, Answer.ofDatabase_ok, Answer.ok_bind, hcallees]
  rfl

/-- A name with too many functions has no view. -/
theorem hierarchyView_refused (h : db.Readable) {p name : String} {first : SymbolRow}
    {rest : List SymbolRow}
    (hfits : ¬ db.FitsNamed name Store.callableKinds (Store.filterOf p))
    (hhits : db.search (.text name) .null (.text p) = .ok (first :: rest)) :
    hierarchyView db (.text p) (.text name) = .error (.database .tooManyVariables) := by
  have hcallers : db.edgesInto name Store.callableKinds ["calls"] (.text p)
      = .error .tooManyVariables :=
    (h.edgesInto_eq name Store.callableKinds ["calls"] (some p)).trans (if_neg hfits)
  simp only [hierarchyView, hhits, hcallers, Answer.ofDatabase_ok, Answer.ok_bind]
  rfl

/-- A name whose calls can be followed is answered with its callers and its callees. -/
theorem hierarchyView_listsCalls (h : db.Readable) (p name : String) :
    (hierarchyView db (.text p) (.text name)).ListsCalls (db.Traces (Store.filterOf p) name)
      db.store (Store.filterOf p) name := by
  have hsearch := h.search_eq name p
  by_cases hseeks : db.Seeks (Store.filterOf p) name
  · rw [h.searchByName_of_seeks hseeks] at hsearch
    cases hfound : db.store.searchByName name none (Store.filterOf p) with
    | nil =>
        have hanswer : hierarchyView db (.text p) (.text name)
            = .ok (.object [("function_name", .text name), ("project_id", .text p),
              ("error", "Function not found")]) := by
          rw [hierarchyView, hsearch, hfound]
          rfl
        obtain ⟨hcallers, hcallees⟩ := Store.calls_of_searchByName_nil h.distinct hfound
        -- there is neither a list nor anything to be listed
        simp only [Answer.ListsCalls, hanswer, Answer.listsNamed_ok,
          ← Store.exists_callee_iff h.distinct, ← Store.exists_caller_iff h.distinct, hcallers,
          hcallees]
        exact ⟨fun g => iff_of_false (Value.not_listsNamed (by simp [Value.field?])) (by simp),
          fun f => iff_of_false (Value.not_listsNamed (by simp [Value.field?])) (by simp)⟩
    | cons first rest =>
        rw [hfound] at hsearch
        by_cases hfits : db.FitsNamed name Store.callableKinds (Store.filterOf p)
        · exact Answer.listsCalls_of_fields h.distinct ⟨hseeks, hfits⟩
            (hierarchyView_of_hits h hfits hsearch hfound)
            (fun r => by simp [placeFields, Value.field?]) rfl rfl
        · exact Answer.listsCalls_of_error ⟨_, hierarchyView_refused h hfits hsearch⟩
            fun htraces => hfits htraces.fits
  · refine Answer.listsCalls_of_error ⟨.database .patternTooLong, ?_⟩
      fun htraces => hseeks htraces.seeks
    rw [hierarchyView, hsearch, h.searchByName_of_not_seeks hseeks]
    rfl

end Resource

/-! ## Records with a number that cannot be read -/

namespace Schema

variable {given : List (String × Value)} {name : String} {v : Value} {c : Cause}

theorem both_error_left {α β : Type} (issues : List Issue) (second : Checked β) :
    ∃ issues', both (.error issues : Checked α) second = .error issues' := by
  cases second with
  | ok b => exact ⟨_, rfl⟩
  | error e => exact ⟨_, rfl⟩

theorem both_error_right {α β : Type} (first : Checked α) (issues : List Issue) :
    ∃ issues', both first (.error issues : Checked β) = .error issues' := by
  cases first with
  | ok a => exact ⟨_, rfl⟩
  | error e => exact ⟨_, rfl⟩

theorem map_error {α β : Type} {r : Checked α} (h : ∃ issues, r = .error issues) (f : α → β) :
    ∃ issues, r.map f = .error issues := by
  obtain ⟨issues, rfl⟩ := h
  exact ⟨issues, rfl⟩

/-- One field whose number cannot be read, and there is no result. -/
theorem checkFields_error (hgiven : Value.field? name given = some v) (hnull : v ≠ .null)
    (hint : toInt v = .error c) {fields : Fields} (hfield : need name .int ∈ fields)
    (path : List String) : ∃ issues, checkFields path given fields = .error issues := by
  induction fields with
  | nil => exact absurd hfield List.not_mem_nil
  | cons field rest ih =>
      rcases List.mem_cons.mp hfield with rfl | hrest
      -- the issue of the one field is gathered with those of the fields behind it
      · have hvalue : checkFields path given (need name .int :: rest)
            = (both (issue (path ++ [name]) c) (checkFields path given rest)).map
              fun p => (name, p.1) :: p.2 := by
          rw [need, checkFields.eq_def]
          simp only [hgiven]
          -- null has an issue of its own and is not read as a number
          cases v with
          | null => exact absurd rfl hnull
          | bool | int | float | text | list | object =>
              simp only [checkValue, hint, asValue]
        rw [hvalue, issue]
        exact map_error (both_error_left _ _) _
      · obtain ⟨issues, hissues⟩ := ih hrest
        rw [checkFields.eq_def]
        dsimp only
        rw [hissues]
        exact map_error (both_error_right _ _) _

/-- No record is made with such a field. -/
theorem build_error (hgiven : Value.field? name given = some v) (hnull : v ≠ .null)
    (hint : toInt v = .error c) {record : Record} (hfield : need name .int ∈ record.fields) :
    ∃ e, record.build given = .error e := by
  obtain ⟨issues, hissues⟩ := checkFields_error hgiven hnull hint hfield []
  simp only [Record.build, hissues]
  split
  · exact ⟨_, rfl⟩
  · split
    · exact ⟨_, rfl⟩
    · exact ⟨_, rfl⟩

end Schema

/-! ## Symbols as records -/

namespace SymbolRow

variable {r : SymbolRow}

/-- Whether the line of a symbol can be read as a number. -/
def Numbered (r : SymbolRow) : Prop := ∃ n, Schema.toInt r.first.toValue = .ok n

/-- Whether answers know the kind of a symbol and can read its line. -/
def Placeable (r : SymbolRow) : Prop := r.kind ∈ Schema.symbolType.members ∧ r.Numbered

/-- The record of a caller or a callee. -/
def placeRecord (r : SymbolRow) : List (String × Value) :=
  [("name", .text r.name), ("type", .text r.kind), ("file", .text r.file),
   ("line", .int ((Schema.toInt r.first.toValue).toOption.getD 0)), ("code", .null)]

theorem name_placeRecord (r : SymbolRow) :
    Value.field? "name" r.placeRecord = some (.text r.name) := by
  simp [placeRecord, Value.field?]

/-- A record with a line that cannot be read is refused. -/
theorem record_of_not_numbered (h : ¬ r.Numbered) {given : List (String × Value)}
    (hgiven : Value.field? "line" given = some r.first.toValue) {record : Record}
    (hfield : Schema.need "line" .int ∈ record.fields) :
    ∃ e, Answer.record record given = .error e := by
  have hnull : r.first.toValue ≠ .null := by
    cases r.first <;> simp [Cell.toValue]
  cases hint : Schema.toInt r.first.toValue with
  | ok n => exact absurd ⟨n, hint⟩ h
  | error c =>
      obtain ⟨e, he⟩ := Schema.build_error hgiven hnull hint hfield
      exact ⟨.invalid e, by rw [Answer.record, he]; rfl⟩

theorem placed_of_placeable (h : r.Placeable) :
    r.placed Schema.caller [] = .ok (.object r.placeRecord) := by
  obtain ⟨hkind, n, hline⟩ := h
  have hmember : Schema.symbolType.member? (.text r.kind) = some r.kind := by
    rw [Enumeration.member?, if_pos (List.contains_iff_mem.mpr hkind)]
  rw [placed, member_of_mem hkind, placeRecord, hline]
  -- whatever the line is, it is not null
  cases hfirst : r.first with
  | int | real | text =>
      rw [hfirst] at hline
      simp [Answer.record, Record.build, Schema.usesReserved, Schema.reservedName, hmember, hline,
        Schema.caller, Schema.need, Schema.may, Schema.checkFields, Schema.checkValue, Value.field?,
        Schema.both, Schema.asValue, Schema.toText, Cell.toValue, Except.map, Except.mapError,
        Bind.bind, Except.bind, Except.toOption] at hline ⊢

theorem placed_of_not_placeable (h : ¬ r.Placeable) :
    ∃ e, r.placed Schema.caller [] = .error e := by
  by_cases hkind : r.kind ∈ Schema.symbolType.members
  · rw [placed, member_of_mem hkind]
    exact record_of_not_numbered (fun hline => h ⟨hkind, hline⟩) (by simp [Value.field?])
      (by simp [Schema.caller])
  · rw [placed, member_of_not_mem hkind]
    exact ⟨_, rfl⟩

/-- The function that an answer is about. -/
theorem function_of_numbered (h : r.Numbered) (name : String) :
    ∃ v, Answer.record Schema.function
      [("name", .text name), ("file", .text r.file), ("line", r.first.toValue)] = .ok v := by
  obtain ⟨n, hline⟩ := h
  -- as for the record of a caller
  cases hfirst : r.first with
  | int | real | text =>
      rw [hfirst] at hline
      simp [Answer.record, Record.build, Schema.usesReserved, Schema.reservedName, hline,
        Schema.function, Schema.need, Schema.checkFields, Schema.checkValue, Value.field?,
        Schema.both, Schema.asValue, Schema.toText, Cell.toValue, Except.map, Except.mapError]
        at hline ⊢

end SymbolRow

namespace Edge

variable {edges : List Edge} {pick : Edge → SymbolRow}

/-- The records of the symbols at one end of some calls. -/
theorem placeAll_of_placeable (h : ∀ e ∈ edges, (pick e).Placeable) :
    edges.mapM (fun e => (pick e).placed Schema.caller [])
      = .ok (edges.map fun e => .object (pick e).placeRecord) :=
  Answer.mapM_eq_ok fun e he => SymbolRow.placed_of_placeable (h e he)

theorem placeAll_of_not_placeable {e : Edge} (he : e ∈ edges) (h : ¬ (pick e).Placeable) :
    ∃ error, edges.mapM (fun e => (pick e).placed Schema.caller []) = .error error := by
  obtain ⟨error, herror⟩ := SymbolRow.placed_of_not_placeable h
  obtain ⟨-, -, error', -, hall⟩ := Answer.mapM_eq_error
    (f := fun e : Edge => (pick e).placed Schema.caller []) he herror
  exact ⟨error', hall⟩

end Edge

/-! ## The tool -/

namespace Database

variable {db : Database} {project : Option String} {name : String}

/-- Whether callers and callees of a name are told: its calls can be followed, and what is found
first, the callers and the callees can be made records of. -/
structure Tells (db : Database) (project : Option String) (name : String) : Prop where
  traces : db.Traces project name
  line : ∀ r, (db.store.searchByName name none project).head? = some r → r.Numbered
  callers : ∀ e ∈ db.store.callers name project, e.source.Placeable
  callees : ∀ e ∈ db.store.callees name project, e.target.Placeable

/-- All is told where all symbols can be made records of. -/
theorem Traces.tells (htraces : db.Traces project name) (h : db.DistinctIds)
    (hall : ∀ r ∈ db.store.symbols, r.Placeable) : db.Tells project name := by
  have hends : ∀ e ∈ db.store.passing (some "calls") project,
      e.source.Placeable ∧ e.target.Placeable := by
    intro e he
    obtain ⟨⟨hsource, -⟩, htarget, -⟩ := Store.ends_of_mem_edges (Store.mem_passing.mp he).1
    exact ⟨hall _ hsource, hall _ htarget⟩
  refine ⟨htraces, ?_, ?_, ?_⟩
  · intro r hr
    have hfound := (Store.mem_searchByName.mp (List.mem_of_head? hr)).1
    exact (hall r (Store.mem_inScope_iff.mp hfound).1).2
  · exact fun e he => (hends e ((Store.mem_callers h).mp he).1).1
  · exact fun e he => (hends e ((Store.mem_callees h).mp he).1).2

end Database

namespace Tool

variable {db : Database} {name : String} {project : Option String} {first : SymbolRow}
  {rest : List SymbolRow}

/-- The answer about a name that is found, with the store's own lists in place of questions. -/
theorem hierarchy_answer (h : db.Readable)
    (hfits : db.FitsNamed name Store.callableKinds (filter project))
    (hhits : db.searchByName name none (filter project) = .ok (first :: rest)) (depth : Int) :
    (hierarchy db name project depth).answer = do
      let function ← Answer.record Schema.function
        [("name", .text name), ("file", .text first.file), ("line", first.first.toValue)]
      let callers ← (db.store.callers name (filter project)).mapM fun e =>
        e.source.placed Schema.caller []
      let callees ← (first :: rest).mapM fun r =>
        (db.store.relationsOf (.int r.id) (some "calls") .outgoing (filter project)).mapM fun e =>
          e.target.placed Schema.caller []
      return [("function", function), ("project_id", .ofText? project), ("callers", .list callers),
        ("callees", .list callees.flatten), ("max_depth", .int depth), ("error", .null)] := by
  have hcallers : db.callers name (filter project)
      = .ok (db.store.callers name (filter project)) :=
    (h.edgesIntoNamed_eq name Store.callableKinds ["calls"] (filter project)).trans (if_pos hfits)
  simp only [hierarchy, hhits, hcallers, h.relationsOf_eq, Answer.ofDatabase_ok, Answer.ok_bind]

/-- There is no answer about a name with too many functions. -/
theorem hierarchy_refused (h : db.Readable)
    (hfits : ¬ db.FitsNamed name Store.callableKinds (filter project))
    (hhits : db.searchByName name none (filter project) = .ok (first :: rest)) (depth : Int) :
    ∃ e, (hierarchy db name project depth).answer = .error e := by
  have hcallers : db.callers name (filter project) = .error .tooManyVariables :=
    (h.edgesIntoNamed_eq name Store.callableKinds ["calls"] (filter project)).trans (if_neg hfits)
  simp only [hierarchy, hhits, hcallers, Answer.ofDatabase_ok, Answer.ok_bind]
  -- the record of the function comes first, and its error would be told instead
  cases Answer.record Schema.function
      [("name", .text name), ("file", .text first.file), ("line", first.first.toValue)] with
  | error e => exact ⟨e, rfl⟩
  | ok function => exact ⟨.database .tooManyVariables, rfl⟩

/-- A name that is told: the function, its callers and its callees as records. -/
theorem hierarchy_of_tells (h : db.Readable)
    (hhits : db.searchByName name none (filter project) = .ok (first :: rest))
    (htells : db.Tells (filter project) name) (depth : Int) :
    ∃ function, (hierarchy db name project depth).answer = .ok
      [("function", function), ("project_id", .ofText? project),
       ("callers", .list ((db.store.callers name (filter project)).map fun e =>
         .object e.source.placeRecord)),
       ("callees", .list ((db.store.callees name (filter project)).map fun e =>
         .object e.target.placeRecord)),
       ("max_depth", .int depth), ("error", .null)] := by
  have hfound : db.store.searchByName name none (filter project) = first :: rest :=
    Except.ok.inj ((h.searchByName_of_seeks htells.traces.seeks).symm.trans hhits)
  obtain ⟨function, hfunction⟩ :=
    SymbolRow.function_of_numbered (htells.line first (by rw [hfound]; rfl)) name
  -- all callees of all hits can be placed, so no lookup ends the answer
  have hcallees : ((first :: rest).mapM fun r =>
        (db.store.relationsOf (.int r.id) (some "calls") .outgoing (filter project)).mapM fun e =>
          e.target.placed Schema.caller [])
      = .ok ((first :: rest).map fun r =>
          (db.store.relationsOf (.int r.id) (some "calls") .outgoing (filter project)).map fun e =>
            .object e.target.placeRecord) := by
    refine Answer.mapM_eq_ok fun r hr => Edge.placeAll_of_placeable fun e he => ?_
    apply htells.callees
    rw [Store.callees, hfound]
    exact List.mem_flatMap.mpr ⟨r, hr, he⟩
  refine ⟨function, ?_⟩
  rw [hierarchy_answer h htells.traces.fits hhits, hfunction,
    Edge.placeAll_of_placeable htells.callers, hcallees, Store.callees, hfound, List.map_flatMap,
    List.flatMap_def]
  rfl

/-- An answer about a name that is found was made of records. -/
theorem tells_of_hierarchy (h : db.Readable) (htraces : db.Traces (filter project) name)
    (hhits : db.searchByName name none (filter project) = .ok (first :: rest)) {depth : Int}
    {fields : List (String × Value)}
    (hanswer : (hierarchy db name project depth).answer = .ok fields) :
    db.Tells (filter project) name := by
  have hfound : db.store.searchByName name none (filter project) = first :: rest :=
    Except.ok.inj ((h.searchByName_of_seeks htraces.seeks).symm.trans hhits)
  rw [hierarchy_answer h htraces.fits hhits] at hanswer
  simp only [Database.Result.bind_eq_ok] at hanswer
  obtain ⟨function, hfunction, callers, hcallers, callees, hcallees, -⟩ := hanswer
  refine ⟨htraces, ?_, ?_, ?_⟩
  · intro r hr
    by_contra hline
    rw [hfound, List.head?_cons, Option.some.injEq] at hr
    have hgiven : Value.field? "line" [("name", .text name), ("file", .text first.file),
        ("line", first.first.toValue)] = some first.first.toValue := by
      simp [Value.field?]
    have hfield : Schema.need "line" .int ∈ Schema.function.fields := by simp [Schema.function]
    obtain ⟨e, he⟩ := SymbolRow.record_of_not_numbered (hr ▸ hline) hgiven hfield
    exact absurd (he.symm.trans hfunction) (by simp)
  · intro e he
    by_contra hplace
    obtain ⟨error, herror⟩ := Edge.placeAll_of_not_placeable he hplace
    exact absurd (herror.symm.trans hcallers) (by simp)
  · intro e he
    by_contra hplace
    -- the calls of one symbol that was found have no records, so neither has the list of all
    rw [Store.callees, hfound] at he
    obtain ⟨r, hr, he⟩ := List.mem_flatMap.mp he
    obtain ⟨error, herror⟩ := Edge.placeAll_of_not_placeable he hplace
    obtain ⟨-, -, error', -, hall⟩ := Answer.mapM_eq_error (f := fun r : SymbolRow =>
      (db.store.relationsOf (.int r.id) (some "calls") .outgoing (filter project)).mapM fun e =>
        e.target.placed Schema.caller []) hr herror
    exact absurd (hall.symm.trans hcallees) (by simp)

/-- Callers and callees of a name are listed if they are told. -/
theorem hierarchy_listsCalls (h : db.Readable) (name : String) (project : Option String)
    (depth : Int) :
    Answer.ListsCalls ((hierarchy db name project depth).answer.map Value.object)
      (db.Tells (filter project) name) db.store (filter project) name := by
  by_cases hseeks : db.Seeks (filter project) name
  · have hhits := h.searchByName_of_seeks hseeks
    cases hfound : db.store.searchByName name none (filter project) with
    | nil =>
        -- nothing is found, so nothing calls and nothing is called
        obtain ⟨hcallers, hcallees⟩ := Store.calls_of_searchByName_nil h.distinct hfound
        have htells : db.Tells (filter project) name :=
          ⟨⟨hseeks, Database.fitsNamed_of_searchByName_nil hfound _⟩, by simp [hfound],
            by simp [hcallers], by simp [hcallees]⟩
        have hanswer : (hierarchy db name project depth).answer = .ok
            [("function", .object [("name", .text name), ("file", ""), ("line", .ofNat 0)]),
             ("project_id", .ofText? project), ("callers", .list []), ("callees", .list []),
             ("max_depth", .int depth), ("error", "Function not found")] := by
          simp only [hierarchy, hhits, hfound, Answer.ofDatabase_ok, Answer.ok_bind]
          rfl
        rw [hanswer]
        exact Answer.listsCalls_of_fields h.distinct htells rfl SymbolRow.name_placeRecord
          (by rw [hcallees]; rfl) (by rw [hcallers]; rfl)
    | cons first rest =>
        rw [hfound] at hhits
        by_cases htells : db.Tells (filter project) name
        · obtain ⟨function, hanswer⟩ := hierarchy_of_tells h hhits htells depth
          rw [hanswer]
          exact Answer.listsCalls_of_fields h.distinct htells rfl SymbolRow.name_placeRecord
            rfl rfl
        · refine Answer.listsCalls_of_error ?_ htells
          by_cases hfits : db.FitsNamed name Store.callableKinds (filter project)
          · cases hanswer : (hierarchy db name project depth).answer with
            | error e => exact ⟨e, rfl⟩
            | ok fields =>
                exact absurd (tells_of_hierarchy h ⟨hseeks, hfits⟩ hhits hanswer) htells
          · obtain ⟨e, he⟩ := hierarchy_refused h hfits hhits depth
            exact ⟨e, by rw [he]; rfl⟩
  · refine Answer.listsCalls_of_error ⟨.database .patternTooLong, ?_⟩ fun htells =>
      hseeks htells.traces.seeks
    rw [hierarchy, h.searchByName_of_not_seeks hseeks]
    rfl

end Tool

namespace Store

variable {st : Store} {project : Option String} {f : String}

/-- Whether calls stay within the functions and methods of a project and come from no other symbols
that a search for a name finds than those of the name. -/
structure CallsWithin (st : Store) (project : Option String) (f : String) : Prop where
  sources : ∀ e ∈ st.passing (some "calls") project, (∀ p ∈ project, e.source.project = p) ∧
    (Like.Finds f e.source.name → e.source.name = f)
  targets : ∀ e ∈ st.passing (some "calls") project, (∀ p ∈ project, e.target.project = p) ∧
    e.target.kind ∈ callableKinds

theorem CallsWithin.calleeOf_iff (h : st.CallsWithin project f) (g : String) :
    st.CalleeOf project f g ↔ st.CallerOf project g f := by
  constructor
  · rintro ⟨e, he, -, hfinds, hname⟩
    exact ⟨e, he, (h.sources e he).2 hfinds, hname, (h.targets e he).2, (h.targets e he).1⟩
  · rintro ⟨e, he, rfl, hname, -⟩
    exact ⟨e, he, (h.sources e he).1, Like.finds_self _, hname⟩

end Store

namespace Database

variable {db : Database} {s : Server}

/-- The hierarchy of one name lists a callee of a name if a symbol of the project that a search for
the one name finds calls a symbol of the other, and the hierarchy of the other name lists a caller
of the one if a symbol of just the one name calls a function or method of the other in the project.
So the two are the same where calls stay within the functions and methods of the project and
searches for the one name find no callers of other names; and as far as both are told at all. -/
theorem hierarchy_lists_iff (h : db.Readable) (hs : s.database = some db) (w : Workspace)
    (p f g : String) (depth : Int) :
    let scope := Store.filterOf p
    let tool := fun name => s.answer w (.hierarchy name (some p) depth)
    let view := fun name => s.view (.hierarchy (.text p) (.text name))
    ((tool f).ListsNamed "callees" g ↔ db.Tells scope f ∧ db.store.CalleeOf scope f g) ∧
    ((tool g).ListsNamed "callers" f ↔ db.Tells scope g ∧ db.store.CallerOf scope g f) ∧
    ((view f).ListsNamed "callees" g ↔ db.Traces scope f ∧ db.store.CalleeOf scope f g) ∧
    ((view g).ListsNamed "callers" f ↔ db.Traces scope g ∧ db.store.CallerOf scope g f) ∧
    (db.store.CallsWithin scope f →
      (db.Tells scope f → db.Tells scope g →
        ((tool f).ListsNamed "callees" g ↔ (tool g).ListsNamed "callers" f)) ∧
      (db.Traces scope f → db.Traces scope g →
        ((view f).ListsNamed "callees" g ↔ (view g).ListsNamed "callers" f))) := by
  intro scope tool view
  -- tool and view list the same calls and differ only in when they answer
  have htool : ∀ name, Answer.ListsCalls ((tool name).answer.map Value.object)
      (db.Tells scope name) db.store scope name := by
    intro name
    have hreply : tool name = Tool.hierarchy db name (some p) depth := by
      simp only [tool, Server.answer, hs, Server.need]
    rw [hreply]
    exact Tool.hierarchy_listsCalls h name (some p) depth
  have hview : ∀ name,
      Answer.ListsCalls (view name) (db.Traces scope name) db.store scope name := by
    intro name
    have hanswer : view name = Resource.hierarchyView db (.text p) (.text name) := by
      simp only [view, Server.view, hs]
    rw [hanswer]
    exact Resource.hierarchyView_listsCalls h p name
  refine ⟨(htool f).1 g, (htool g).2 f, (hview f).1 g, (hview g).2 f, fun hwithin => ⟨?_, ?_⟩⟩
  · intro hf hg
    rw [Reply.ListsNamed, Reply.ListsNamed, (htool f).1 g, (htool g).2 f, and_iff_right hf,
      and_iff_right hg]
    exact hwithin.calleeOf_iff g
  · intro hf hg
    rw [(hview f).1 g, (hview g).2 f, and_iff_right hf, and_iff_right hg]
    exact hwithin.calleeOf_iff g

/-- The name of a function within the name of another one, which calls a third. -/
def overlappingNames : List Operation :=
  [.insertSymbol (functionFields "run" "a.py") "p",
   .insertSymbol (functionFields "prerun" "b.py") "p",
   .insertSymbol (functionFields "load" "c.py") "p",
   .insertRelation (.int 2) (.int 3) "calls" "p" .null]

/-- The call of the third function by the second. -/
def loadCall : Edge where
  relation := { project := "p", source := .int 2, target := .int 3, kind := "calls", data := none
                id := 1 }
  source := functionRow "prerun" "b.py" 2
  target := functionRow "load" "c.py" 3

theorem stored_overlappingNames :
    let st := (performAll {} overlappingNames).store
    st.symbols = [functionRow "run" "a.py" 1, functionRow "prerun" "b.py" 2,
      functionRow "load" "c.py" 3] ∧ st.passing (some "calls") (some "p") = [loadCall] := by
  decide +kernel

theorem tells_overlappingNames {name : String}
    (hshort : (Like.containing name).utf8ByteSize ≤ Like.maxBytes) :
    (performAll {} overlappingNames).Tells (some "p") name := by
  have hplace : ∀ name file id, (functionRow name file id).Placeable :=
    fun _ _ _ => ⟨(by decide : "function" ∈ Schema.symbolType.members), 1, rfl⟩
  have hfew : (performAll {} overlappingNames).store.symbols.length < maxVariables := by
    rw [stored_overlappingNames.1]
    decide
  have htraces : (performAll {} overlappingNames).Traces (some "p") name :=
    ⟨.inl hshort, fitsNamed_of_lt (Nat.lt_of_le_of_lt (List.length_filter_le _ _) hfew)⟩
  refine htraces.tells (readable_performAll (by decide)).distinct ?_
  rw [stored_overlappingNames.1]
  simp [hplace]

/-- Two names of which a search for the first finds nothing else: the call is told from both
ends. -/
theorem hierarchy_lists_iff_prerun :
    let s : Server := { database := some (performAll {} overlappingNames) }
    (s.answer {} (.hierarchy "prerun" (some "p") 3)).ListsNamed "callees" "load" ∧
    (s.answer {} (.hierarchy "load" (some "p") 3)).ListsNamed "callers" "prerun" ∧
    (s.view (.hierarchy "p" "prerun")).ListsNamed "callees" "load" ∧
    (s.view (.hierarchy "p" "load")).ListsNamed "callers" "prerun" := by
  intro s
  have hreadable : (performAll {} overlappingNames).Readable := readable_performAll (by decide)
  have hwithin : (performAll {} overlappingNames).store.CallsWithin (some "p") "prerun" := by
    constructor
    · rw [stored_overlappingNames.2]
      simp [loadCall, functionRow]
    · rw [stored_overlappingNames.2]
      simp [loadCall, functionRow, Store.callableKinds]
  have hcalls : (performAll {} overlappingNames).store.CalleeOf (some "p") "prerun" "load" := by
    refine ⟨loadCall, ?_, by simp [loadCall, functionRow], Like.finds_self _, rfl⟩
    rw [stored_overlappingNames.2]
    exact List.mem_singleton_self _
  have hf := @tells_overlappingNames "prerun" (by decide)
  have hg := @tells_overlappingNames "load" (by decide)
  obtain ⟨hcallees, -, hcalleesView, -, hdual⟩ :=
    @hierarchy_lists_iff _ s hreadable rfl {} "p" "prerun" "load" 3
  obtain ⟨htool, hview⟩ := hdual hwithin
  have htoolCallees := hcallees.mpr ⟨hf, hcalls⟩
  have hviewCallees := hcalleesView.mpr ⟨hf.traces, hcalls⟩
  exact ⟨htoolCallees, (htool hf hg).mp htoolCallees, hviewCallees,
    (hview hf.traces hg.traces).mp hviewCallees⟩

/-- A function is told to be a callee of another one that calls nothing and that it does not tell as
a caller: the call comes from a function whose name has the other name in it. -/
theorem hierarchy_lists_callee_of_other :
    let db := performAll {} overlappingNames
    let s : Server := { database := some db }
    functionRow "run" "a.py" 1 ∈ db.store.symbols ∧
    functionRow "load" "c.py" 3 ∈ db.store.symbols ∧
    (s.answer {} (.hierarchy "run" (some "p") 3)).ListsNamed "callees" "load" ∧
    ¬ (s.answer {} (.hierarchy "load" (some "p") 3)).ListsNamed "callers" "run" ∧
    (s.view (.hierarchy "p" "run")).ListsNamed "callees" "load" ∧
    ¬ (s.view (.hierarchy "p" "load")).ListsNamed "callers" "run" := by
  intro db s
  have hreadable : db.Readable := readable_performAll (by decide)
  -- the one stored call is made by a function whose name only contains the searched one
  have hcallee : db.store.CalleeOf (some "p") "run" "load" := by
    refine ⟨loadCall, ?_, by simp [loadCall, functionRow], (by decide), rfl⟩
    rw [stored_overlappingNames.2]
    exact List.mem_singleton_self _
  have hcaller : ¬ db.store.CallerOf (some "p") "load" "run" := by
    rintro ⟨e, he, hname, -⟩
    rw [stored_overlappingNames.2, List.mem_singleton] at he
    subst he
    exact absurd hname (by decide)
  have hf : db.Tells (some "p") "run" := tells_overlappingNames (by decide)
  have htool := fun name => Tool.hierarchy_listsCalls hreadable name (some "p") 3
  have hview := fun name => Resource.hierarchyView_listsCalls hreadable "p" name
  refine ⟨?_, ?_, ?_, ?_, ?_, ?_⟩
  · rw [stored_overlappingNames.1]
    exact List.mem_cons_self
  · rw [stored_overlappingNames.1]
    exact List.mem_of_getElem? (i := 2) rfl
  · exact ((htool "run").1 "load").mpr ⟨hf, hcallee⟩
  · exact fun hlists => hcaller (((htool "load").2 "run").mp hlists).2
  · exact ((hview "run").1 "load").mpr ⟨hf.traces, hcallee⟩
  · exact fun hlists => hcaller (((hview "load").2 "run").mp hlists).2

end Database

end SymbolAtlas
