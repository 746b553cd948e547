/-
  SymbolAtlas.Proofs.References: whether relationships have symbols at their ends.

  Nothing removes a relationship together with a symbol. Three kinds of operations remove symbols:
  those that remove a file or a project, and those that store a symbol in the place of another,
  which gets a new id. So relationships that are stored between symbols all keep their ends exactly
  as long as no operation removes a symbol at which a relationship begins or ends
  (`referential_throughout_iff`).
-/

import SymbolAtlas.Proofs.Tables

namespace SymbolAtlas

namespace Store

variable {st : Store} {w : Write}

/-- Whether a symbol is removed with all that are picked, which are not too many. -/
def removesAtOnce (st : Store) (pick : SymbolRow → Bool) (s : SymbolRow) : Bool :=
  decide (st.symbols.countP pick ≤ Database.maxVariables) && pick s

/-- Whether a write removes a symbol. -/
def removes (st : Store) : Write → SymbolRow → Bool
  | .putSymbol d, s => clash false s.toSymbolData d
  | .removeFile file project, s =>
    st.removesAtOnce (fun r => r.file == file && r.project == project) s
  | .removeProject project, s => st.removesAtOnce (fun r => r.project == project) s
  | _, _ => false

/-! ## Ends -/

/-- Whether there is a symbol of an id. -/
def Has (st : Store) (id : Cell) : Prop := ∃ s ∈ st.symbols, id = .int s.id

/-- Whether every relationship begins and ends at a symbol. -/
def Referential (st : Store) : Prop := ∀ r ∈ st.relations, st.Has r.source ∧ st.Has r.target

/-- Whether a write removes a symbol at which a relationship begins or ends. -/
def Orphans (st : Store) (w : Write) : Prop :=
  ∃ s ∈ st.symbols, st.removes w s = true ∧
    ∃ r ∈ st.relations, r.source = .int s.id ∨ r.target = .int s.id

/-- Whether the relationship that a write stores begins and ends at symbols. -/
def Joins (st : Store) (w : Write) : Prop :=
  ∀ d, w.relation? = some d → st.Has d.source ∧ st.Has d.target

instance instDecidableHas (st : Store) (id : Cell) : Decidable (st.Has id) :=
  inferInstanceAs (Decidable (∃ s ∈ st.symbols, id = .int s.id))

instance instDecidableReferential (st : Store) : Decidable st.Referential :=
  inferInstanceAs (Decidable (∀ r ∈ st.relations, st.Has r.source ∧ st.Has r.target))

instance instDecidableOrphans (st : Store) (w : Write) : Decidable (st.Orphans w) :=
  inferInstanceAs (Decidable (∃ s ∈ st.symbols, st.removes w s = true ∧
    ∃ r ∈ st.relations, r.source = .int s.id ∨ r.target = .int s.id))

/-! ## One write -/

/-- Of the symbols that are stored, those stay that are not removed. -/
theorem mem_symbols_write (h : st.Consistent) {s : SymbolRow} (hs : s ∈ st.symbols) :
    s ∈ (st.write w).symbols ↔ st.removes w s = false := by
  have hpick : ∀ pick : SymbolRow → Bool,
      s ∈ (st.removeAtOnce pick).symbols ↔ st.removesAtOnce pick s = false := by
    intro pick
    rw [removeAtOnce, removesAtOnce]
    by_cases hfit : st.symbols.countP pick ≤ Database.maxVariables
    · rw [if_pos hfit, decide_eq_true hfit, Bool.true_and, removeSymbols, List.mem_filter,
        Bool.not_eq_true']
      exact and_iff_right hs
    · rw [if_neg hfit, decide_eq_false hfit]
      exact iff_of_true hs rfl
  cases w with
  | putSymbol d =>
      -- the new row is not the symbol, because its id is larger than all others
      have hnew : s.id ≠ nextId (st.symbols.map (·.id)) := id_ne_nextId (List.Sublist.refl _) s hs
      constructor
      · intro hmem
        rcases List.mem_append.mp hmem with hkept | hlast
        · have hkeep := (List.mem_filter.mp hkept).2
          rw [h.separate, Bool.not_eq_true'] at hkeep
          exact hkeep
        · exact absurd (congrArg (·.id) (List.mem_singleton.mp hlast)) hnew
      · intro hkeep
        refine List.mem_append_left _ (List.mem_filter.mpr ⟨hs, ?_⟩)
        rw [h.separate, Bool.not_eq_true']
        exact hkeep
  | removeFile file project => exact hpick _
  | removeProject project => exact hpick _
  | nothing | putRelation | putEmbedding | removeRelations | putProject | noteScan =>
      exact iff_of_true hs rfl

/-- A symbol that is stored afterwards was stored before, or it has an id that was free. -/
theorem mem_or_new_id {s : SymbolRow} (hs : s ∈ (st.write w).symbols) :
    s ∈ st.symbols ∨ ∀ a ∈ st.symbols, a.id ≠ s.id := by
  cases w with
  | putSymbol d =>
      rcases List.mem_append.mp hs with hkept | hlast
      · exact .inl (List.mem_filter.mp hkept).1
      · obtain rfl := List.mem_singleton.mp hlast
        exact .inr (id_ne_nextId (List.Sublist.refl _))
  | removeFile file project => exact .inl (symbols_removeAtOnce_subset st _ hs)
  | removeProject project => exact .inl (symbols_removeAtOnce_subset st _ hs)
  | nothing | putRelation | putEmbedding | removeRelations | putProject | noteScan =>
      exact .inl hs

/-- The id of a symbol is free exactly after a write that removes it. In particular a symbol that
takes the place of another does not take its id. -/
theorem has_write_iff (h : st.Consistent) {s : SymbolRow} (hs : s ∈ st.symbols) :
    (st.write w).Has (.int s.id) ↔ st.removes w s = false := by
  rw [← mem_symbols_write h hs]
  constructor
  · rintro ⟨a, ha, hid⟩
    have hid : s.id = a.id := Cell.int.inj hid
    rcases mem_or_new_id ha with hold | hnew
    · rwa [h.eq_of_id hs hold hid]
    · exact absurd hid (hnew s hs)
  · intro hkept
    exact ⟨s, hkept, rfl⟩

/-- What removes symbols leaves the relationships alone. -/
theorem relations_write_of_removes {s : SymbolRow} (h : st.removes w s = true) :
    (st.write w).relations = st.relations := by
  cases w with
  | putSymbol => rfl
  | removeFile | removeProject => exact relations_removeAtOnce st _
  | nothing | putRelation | putEmbedding | removeRelations | putProject | noteScan => cases h

theorem mem_relations_write {r : RelationRow} (hr : r ∈ (st.write w).relations) :
    r ∈ st.relations ∨ w.relation? = some r.toRelationData := by
  cases w with
  | putRelation d =>
      rcases List.mem_append.mp hr with hkept | hlast
      · exact .inl (List.mem_filter.mp hkept).1
      · rw [List.mem_singleton.mp hlast]
        exact .inr rfl
  | removeRelations symbol project => exact .inl (List.mem_filter.mp hr).1
  | removeFile | removeProject =>
      rw [write, relations_removeAtOnce] at hr
      exact .inl hr
  | nothing | putSymbol | putEmbedding | putProject | noteScan => exact .inl hr

/-- One write to tables in which relationships have their ends. -/
theorem referential_write_iff (hst : st.Consistent) (h : st.Referential) (hw : st.Joins w) :
    (st.write w).Referential ↔ ¬ st.Orphans w := by
  constructor
  · rintro hafter ⟨s, hs, hremoves, r, hr, hend⟩
    rw [← relations_write_of_removes hremoves] at hr
    have hfree : ¬ (st.write w).Has (.int s.id) := by
      rw [has_write_iff hst hs, hremoves]
      exact Bool.noConfusion
    rcases hend with hsource | htarget
    · exact hfree (hsource ▸ (hafter r hr).1)
    · exact hfree (htarget ▸ (hafter r hr).2)
  · intro hnone r hr
    rcases mem_relations_write hr with hold | hnew
    · -- an end of a relationship that was there is not removed
      have hkept : ∀ id, st.Has id → r.source = id ∨ r.target = id → (st.write w).Has id := by
        rintro id ⟨s, hs, rfl⟩ hend
        rw [has_write_iff hst hs, Bool.eq_false_iff]
        exact fun hremoves => hnone ⟨s, hs, hremoves, r, hold, hend⟩
      obtain ⟨hsource, htarget⟩ := h r hold
      exact ⟨hkept _ hsource (.inl rfl), hkept _ htarget (.inr rfl)⟩
    · -- what stores a relationship leaves the symbols alone
      have hends := hw _ hnew
      cases w with
      | putRelation d => exact hends
      | nothing | putSymbol | putEmbedding | removeFile | removeProject | removeRelations
      | putProject | noteScan => cases hnew

end Store

namespace Database

variable {st : Store}

/-! ## Sequences of operations -/

/-- Whether an operation that stores a relationship is given the ids of two symbols. -/
def JoinsSymbols (db : Database) : Operation → Prop
  | .insertRelation source target _ _ _ =>
      (∃ s ∈ db.store.symbols, source = .int s.id) ∧ ∃ s ∈ db.store.symbols, target = .int s.id
  | _ => True

theorem notNull_eq_ok {α : Type} {t : Table} {column : String} {o : Option α} {a : α} :
    notNull t column o = .ok a ↔ o = some a := by
  cases o with
  | none => simp [notNull]
  | some b => simp [notNull]

theorem relationOf_ends {source target kind project data : Value} {d : RelationData}
    (h : relationOf source target kind project data = .ok d) :
    bindNumber 2 source = .ok (some d.source) ∧ bindNumber 3 target = .ok (some d.target) := by
  simp only [relationOf, Result.bind_eq_ok, notNull_eq_ok] at h
  obtain ⟨project', -, source', hsource, target', htarget, kind', -, p, -, s, rfl, t, rfl, k, -,
    h⟩ := h
  obtain rfl := Except.ok.inj h
  exact ⟨hsource, htarget⟩

theorem eq_ok_of_writeOf {r : Result Write} {d : RelationData}
    (h : (writeOf r).relation? = some d) : r = .ok (.putRelation d) := by
  rcases r with e | w
  · cases h
  · cases w with
    | putRelation d' => rw [Option.some.inj h]
    | nothing | putSymbol | putEmbedding | removeFile | removeProject | removeRelations
    | putProject | noteScan => cases h

/-- Nothing else writes a relationship than an operation that is given one. -/
theorem relation?_write {op : Operation} {d : RelationData} (h : op.write.relation? = some d) :
    ∃ source target kind project data, op = .insertRelation source target kind project data ∧
      relationOf source target kind project data = .ok d := by
  cases op with
  | insertRelation source target kind project data =>
      obtain ⟨d', hgiven, hd⟩ := Result.map_eq_ok.mp (eq_ok_of_writeOf h)
      exact ⟨source, target, kind, project, data, rfl, Write.putRelation.inj hd ▸ hgiven⟩
  | insertSymbol data project =>
      obtain ⟨d', -, hd⟩ := Result.map_eq_ok.mp (eq_ok_of_writeOf h)
      cases hd
  | createProject project name path isRepository commit branch =>
      obtain ⟨d', -, hd⟩ := Result.map_eq_ok.mp (eq_ok_of_writeOf h)
      cases hd
  | insertEmbedding id vector =>
      obtain ⟨n, -, hw⟩ := Result.bind_eq_ok.mp (eq_ok_of_writeOf h)
      rcases n with _ | _ | _ | _ <;> cases hw
  | deleteFile file project =>
      obtain ⟨f, -, hw⟩ := Result.bind_eq_ok.mp (eq_ok_of_writeOf h)
      obtain ⟨p, -, hw⟩ := Result.bind_eq_ok.mp hw
      cases f <;> cases p <;> cases hw
  | deleteProject project =>
      obtain ⟨p, -, hw⟩ := Result.bind_eq_ok.mp (eq_ok_of_writeOf h)
      cases p <;> cases hw
  | deleteRelations symbol project =>
      obtain ⟨s, -, hw⟩ := Result.bind_eq_ok.mp (eq_ok_of_writeOf h)
      obtain ⟨p, -, hw⟩ := Result.bind_eq_ok.mp hw
      cases s <;> cases p <;> cases hw
  | updateScan project commit branch =>
      obtain ⟨c, -, hw⟩ := Result.bind_eq_ok.mp (eq_ok_of_writeOf h)
      obtain ⟨b, -, hw⟩ := Result.bind_eq_ok.mp hw
      obtain ⟨p, -, hw⟩ := Result.bind_eq_ok.mp hw
      cases p <;> cases hw
  | reopen => cases h

theorem JoinsSymbols.joins {op : Operation} (h : JoinsSymbols (intact st) op) :
    st.Joins op.write := by
  intro d hd
  obtain ⟨source, target, kind, project, data, rfl, hgiven⟩ := relation?_write hd
  obtain ⟨⟨a, ha, rfl⟩, b, hb, rfl⟩ := h
  obtain ⟨hsource, htarget⟩ := relationOf_ends hgiven
  exact ⟨⟨a, ha, bindNumber_int hsource⟩, b, hb, bindNumber_int htarget⟩

/-- All operations, by one after another. -/
theorem referential_throughout (hst : st.Consistent) (h : st.Referential) {ops : List Operation}
    (hops : Throughout JoinsSymbols (intact st) ops) :
    Throughout (fun db op => (db.perform op).store.Referential) (intact st) ops ↔
      Throughout (fun db op => ¬ db.store.Orphans op.write) (intact st) ops := by
  induction ops generalizing st with
  | nil => exact Iff.rfl
  | cons op rest ih =>
      obtain ⟨hop, hrest⟩ := hops
      -- the operations that follow count only as long as the relationships have their ends
      have hstep := Store.referential_write_iff hst h hop.joins
      simp only [Throughout, perform_intact, store_intact] at hrest ⊢
      rw [← hstep]
      exact and_congr_right fun hafter => ih (hst.write _) hafter hrest

/-- Operations from an empty database on store relationships between symbols only. Then every
relationship begins and ends at a symbol after each of them exactly when none of them removes a
symbol at which a relationship begins or ends. -/
theorem referential_throughout_iff {ops : List Operation} (hops : Throughout JoinsSymbols {} ops) :
    Throughout (fun db op => (db.perform op).store.Referential) {} ops ↔
      Throughout (fun db op => ¬ db.store.Orphans op.write) {} ops :=
  referential_throughout Store.consistent_empty (fun _ hr => absurd hr List.not_mem_nil) hops

/-- The operations that store the call, and others. -/
def callThen (rest : List Operation) : List Operation :=
  twoFunctions ++ .insertRelation (.int 1) (.int 2) "calls" "p" .null :: rest

theorem throughout_callThen {rest : List Operation} (h : Throughout JoinsSymbols callStored rest) :
    Throughout JoinsSymbols {} (callThen rest) := by
  have hcaller : functionRow "caller" "a.py" 1 ∈ (performAll {} twoFunctions).store.symbols := by
    decide +kernel
  have hcallee : functionRow "callee" "b.py" 2 ∈ (performAll {} twoFunctions).store.symbols := by
    decide +kernel
  exact ⟨trivial, trivial, ⟨⟨_, hcaller, rfl⟩, _, hcallee, rfl⟩, h⟩

/-- The call keeps its ends when a third function comes and goes. -/
theorem referential_throughout_iff_third_function :
    Throughout (fun db op => (db.perform op).store.Referential) {}
      (callThen [.insertSymbol (functionFields "other" "c.py") "p", .deleteFile "c.py" "p"]) := by
  have hjoins : Throughout JoinsSymbols callStored
      [.insertSymbol (functionFields "other" "c.py") "p", .deleteFile "c.py" "p"] :=
    ⟨trivial, trivial, trivial⟩
  refine (referential_throughout_iff (throughout_callThen hjoins)).mpr ?_
  refine ⟨?_, ?_, ?_, ?_, ?_, trivial⟩
  all_goals decide +kernel

/-- The call has lost an end after each of the operations that remove the function that it calls:
its file is removed, its project is removed, or it is stored again. -/
theorem call_without_callee :
    (Throughout JoinsSymbols {} (callThen [.deleteFile "b.py" "p"]) ∧
        ¬ (performAll {} (callThen [.deleteFile "b.py" "p"])).store.Referential) ∧
      (Throughout JoinsSymbols {} (callThen [.deleteProject "p"]) ∧
        ¬ (performAll {} (callThen [.deleteProject "p"])).store.Referential) ∧
      Throughout JoinsSymbols {}
          (callThen [.insertSymbol (functionFields "callee" "b.py") "p"]) ∧
        ¬ (performAll {} (callThen
          [.insertSymbol (functionFields "callee" "b.py") "p"])).store.Referential := by
  refine ⟨⟨?_, ?_⟩, ⟨?_, ?_⟩, ?_, ?_⟩
  · exact throughout_callThen ⟨trivial, trivial⟩
  · decide +kernel
  · exact throughout_callThen ⟨trivial, trivial⟩
  · decide +kernel
  · exact throughout_callThen ⟨trivial, trivial⟩
  · decide +kernel

end Database

end SymbolAtlas
