/-
  SymbolAtlas.Proofs.RelatedSymbols: what is told as related to a symbol.

  The relationships of the symbols that a search finds are told one by one, each with its symbol and
  with a symbol that is related to it. The related one is the source of a relationship that starts
  at the symbol, and the target of one that ends there, so that it is the symbol itself
  (`related_eq`). The other end is told only where it has the same name, kind, file and line
  (`forall₂_other_iff`).
-/

import SymbolAtlas.Proofs.Hierarchy

namespace SymbolAtlas

/-- The end of a relationship that is not the symbol of an id. -/
def Edge.other (e : Edge) (id : Int) : SymbolRow :=
  if e.source.id = id then e.target else e.source

/-! ## Symbols and their relationships -/

namespace Store

variable {st : Store} {kind scope : Option String} {d : Direction}

/-- The symbols that a search for a text finds, each with its relationships. -/
def incidences (st : Store) (name : String) (kind : Option String) (d : Direction)
    (scope : Option String) : List (SymbolRow × Edge) :=
  (st.searchByName name none scope).flatMap fun r =>
    (st.relationsOf (.int r.id) kind d scope).map fun e => (r, e)

theorem mem_incidences {name : String} {x : SymbolRow × Edge} :
    x ∈ st.incidences name kind d scope ↔ x.1 ∈ st.searchByName name none scope ∧
      x.2 ∈ st.relationsOf (.int x.1.id) kind d scope := by
  simp only [incidences, List.mem_flatMap, List.mem_map]
  constructor
  · rintro ⟨r, hr, e, he, rfl⟩
    exact ⟨hr, he⟩
  · rintro ⟨hr, he⟩
    exact ⟨x.1, hr, x.2, he, rfl⟩

/-- The end that counts as related to a symbol is the symbol itself: a relationship that does not
start there ends there. -/
theorem related_eq (h : (st.symbols.map (·.id)).Nodup) {r : SymbolRow} (hr : r ∈ st.symbols)
    {e : Edge} (he : e ∈ st.relationsOf (.int r.id) kind d scope) :
    e.related (.int r.id) = r := by
  obtain ⟨hpassing, hmeets⟩ := mem_relationsOf_iff.mp he
  obtain ⟨⟨hsource, hsourceId⟩, htarget, -⟩ := ends_of_mem_edges (mem_passing.mp hpassing).1
  rw [Edge.related, Edge.directionFrom, hsourceId]
  by_cases hid : e.source.id = r.id
  · rw [hid, beq_self_eq_true, if_pos rfl, if_pos rfl]
    exact eq_of_id h hsource hr hid
  · have hends : e.target.id = r.id := by
      cases d with
      | outgoing => exact absurd (beq_iff_eq.mp hmeets) hid
      | incoming => exact beq_iff_eq.mp hmeets
      | both => simpa [Edge.meets, hid] using hmeets
    have hother : ¬ ((Cell.int e.source.id == Cell.int r.id) = true) := by simpa using hid
    rw [if_neg hother, if_neg (by decide)]
    exact eq_of_id h htarget hr hends

theorem related_of_mem_incidences (h : (st.symbols.map (·.id)).Nodup) {name : String}
    {x : SymbolRow × Edge} (hx : x ∈ st.incidences name kind d scope) :
    x.2.related (.int x.1.id) = x.1 := by
  obtain ⟨hr, he⟩ := mem_incidences.mp hx
  exact related_eq h (mem_inScope_iff.mp (mem_of_mem_searchByName hr)).1 he

end Store

/-! ## Items that tell a related symbol -/

/-- Whether an item tells a name, a kind, a file and a line as those of the related symbol. -/
def Value.RelatesTo (item : Value) (place : List (Option Value)) : Prop :=
  ∃ fields related, item = .object fields ∧
    Value.field? "related_symbol" fields = some (.object related) ∧
    Database.pick ["name", "type", "file", "line"] related = place

/-- An item tells one related symbol. -/
theorem Value.RelatesTo.unique {item : Value} {a b : List (Option Value)} (ha : item.RelatesTo a)
    (hb : item.RelatesTo b) : a = b := by
  obtain ⟨fields, related, rfl, hrelated, rfl⟩ := ha
  obtain ⟨fields', related', hobject, hrelated', rfl⟩ := hb
  obtain rfl := Value.object.inj hobject
  obtain rfl := Value.object.inj (Option.some.inj (hrelated.symm.trans hrelated'))
  rfl

/-- The name, kind, file and line of a symbol, the line in some form. -/
def SymbolRow.place (line : Cell → Value) (r : SymbolRow) : List (Option Value) :=
  [some (.text r.name), some (.text r.kind), some (.text r.file), some (line r.first)]

/-- A line that is read as a number. -/
def Cell.asLine (c : Cell) : Value := .int ((Schema.toInt c.toValue).toOption.getD 0)

/-- Whether the two ends of a relationship look the same, where they are different symbols. -/
def EndsAlike (told : List (SymbolRow × Edge)) (line : Cell → Value) : Prop :=
  ∀ x ∈ told, x.2.source ≠ x.2.target → (x.2.other x.1.id).place line = x.1.place line

namespace Answer

variable {answer : Answer Value} {told : List (SymbolRow × Edge)} {line : Cell → Value}

/-- Whether the items of an answer about relationships, as far as it is given, are about some
symbols and relationships, one item for each and in this order. -/
def TellsEach (answer : Answer Value) (told : List (SymbolRow × Edge))
    (about : SymbolRow × Edge → Value → Prop) : Prop :=
  ∀ fields items, answer = .ok (.object fields) →
    Value.field? "relationships" fields = some (.list items) → List.Forall₂ about told items

/-- Whether each item tells its own symbol as the related one. -/
def TellsSelf (answer : Answer Value) (told : List (SymbolRow × Edge)) (line : Cell → Value) :
    Prop :=
  answer.TellsEach told fun x item => item.RelatesTo (x.1.place line)

/-- Whether each item about a relationship between two different symbols tells the end that is not
its own symbol as the related one. -/
def TellsOther (answer : Answer Value) (told : List (SymbolRow × Edge)) (line : Cell → Value) :
    Prop :=
  answer.TellsEach told fun x item =>
    x.2.source ≠ x.2.target → item.RelatesTo ((x.2.other x.1.id).place line)

section Items

variable {fields : List (String × Value)} {items : List Value}
  {about : SymbolRow × Edge → Value → Prop}

theorem tellsEach_iff (hok : answer = .ok (.object fields))
    (hitems : Value.field? "relationships" fields = some (.list items)) :
    answer.TellsEach told about ↔ List.Forall₂ about told items := by
  constructor
  · exact fun h => h fields items hok hitems
  · intro h fields' items' hok' hitems'
    obtain rfl := Value.object.inj (Except.ok.inj (hok.symm.trans hok'))
    obtain rfl := Value.list.inj (Option.some.inj (hitems.symm.trans hitems'))
    exact h

/-- Items that tell their own symbols tell the other ends exactly if these look the same. -/
theorem forall₂_other_iff
    (h : List.Forall₂ (fun x item => Value.RelatesTo item (x.1.place line)) told items) :
    List.Forall₂ (fun x item => x.2.source ≠ x.2.target →
        item.RelatesTo ((x.2.other x.1.id).place line)) told items ↔ EndsAlike told line := by
  induction h with
  | nil => simp [EndsAlike]
  | cons hitem _ ih =>
      rw [List.forall₂_cons, ih]
      simp only [EndsAlike, List.forall_mem_cons]
      refine and_congr_left' (forall_congr' fun _ => ?_)
      exact ⟨fun hother => hother.unique hitem, fun hsame => hsame ▸ hitem⟩

/-- An answer that is given, with items that tell their own symbols. -/
theorem tells_of_items {given : Prop} (hgiven : given) (hok : answer = .ok (.object fields))
    (hitems : Value.field? "relationships" fields = some (.list items))
    (hself : List.Forall₂ (fun x item => Value.RelatesTo item (x.1.place line)) told items) :
    answer.TellsSelf told line ∧
      (answer.TellsOther told line ↔ (given → EndsAlike told line)) := by
  refine ⟨(tellsEach_iff hok hitems).mpr hself, ?_⟩
  rw [TellsOther, tellsEach_iff hok hitems, forall₂_other_iff hself, forall_prop_of_true hgiven]

/-- An answer without items tells whatever is asked of them. -/
theorem tells_of_no_items {given : Prop} (hgiven : given → EndsAlike told line)
    (h : ∀ fields, answer = .ok (.object fields) → Value.field? "relationships" fields = none) :
    answer.TellsSelf told line ∧
      (answer.TellsOther told line ↔ (given → EndsAlike told line)) := by
  have hnone : ∀ about, answer.TellsEach told about := by
    intro about fields items hok hitems
    exact absurd ((h fields hok).symm.trans hitems) (by simp)
  exact ⟨hnone _, iff_of_true (hnone _) hgiven⟩

end Items

section Lists

variable {α β γ : Type} {l : List α}

/-- A mapped list that has a result has one for each item. -/
theorem forall₂_of_mapM {f : α → Answer β} {results : List β} (h : l.mapM f = .ok results) :
    List.Forall₂ (fun a b => f a = .ok b) l results := by
  induction l generalizing results with
  | nil =>
      obtain rfl := Except.ok.inj h
      exact .nil
  | cons a rest ih =>
      simp only [List.mapM_cons, Database.Result.bind_eq_ok] at h
      obtain ⟨b, hb, bs, hbs, heq⟩ := h
      obtain rfl := Except.ok.inj heq
      exact .cons hb (ih hbs)

/-- The same for lists within a list, one after another. -/
theorem forall₂_of_mapM_mapM {f : α → β → Answer γ} {g : α → List β} {results : List (List γ)}
    (h : (l.mapM fun a => (g a).mapM (f a)) = .ok results) :
    List.Forall₂ (fun x c => f x.1 x.2 = .ok c) (l.flatMap fun a => (g a).map fun b => (a, b))
      results.flatten := by
  have hlists := forall₂_of_mapM h
  clear h
  induction hlists with
  | nil => exact .nil
  | cons hfirst _ ih =>
      rw [List.flatten_cons, List.flatMap_cons]
      refine List.rel_append ?_ ih
      rw [List.forall₂_map_left_iff]
      exact forall₂_of_mapM hfirst

end Lists

end Answer

/-! ## The view of relationships -/

namespace Resource

variable {db : Database}

theorem pick_placeFields (r : SymbolRow) :
    Database.pick ["name", "type", "file", "line"] (placeFields r) = r.place Cell.toValue := by
  simp [Database.pick, placeFields, Value.field?, SymbolRow.place]

theorem relatesTo_edgeOf {r : SymbolRow} {e : Edge} (h : e.related (.int r.id) = r) :
    (edgeOf r e).RelatesTo (r.place Cell.toValue) := by
  refine ⟨_, placeFields r, rfl, ?_, pick_placeFields r⟩
  simp [Value.field?, h]

/-- The view of a name that is found has an item for each symbol and each of its relationships. -/
theorem relationshipsView_of_hits (h : db.Readable) {p name : String} {first : SymbolRow}
    {rest : List SymbolRow}
    (hhits : db.search (.text name) .null (.text p) = .ok (first :: rest))
    (hfound : db.store.searchByName name none (Store.filterOf p) = first :: rest) :
    let items := (db.store.incidences name none .both (Store.filterOf p)).map fun x =>
      edgeOf x.1 x.2
    relationshipsView db (.text p) (.text name) = .ok (.object
      [("symbol_name", .text name), ("project_id", .text p),
       ("total_relationships", .ofNat items.length), ("relationships", .list items)]) := by
  have hrelations : (first :: rest).mapM (fun r => do
        let edges ← Answer.ofDatabase (db.relations (.int r.id) .null "both" (.text p))
        return edges.map (edgeOf r))
      = .ok ((first :: rest).map fun r =>
        (db.store.relationsOf (.int r.id) none .both (Store.filterOf p)).map (edgeOf r)) := by
    refine Answer.mapM_eq_ok fun r hr => ?_
    rw [← hfound] at hr
    -- the symbol is stored, so that its id can be asked for
    have hfits := h.fits r (Store.mem_inScope_iff.mp (Store.mem_of_mem_searchByName hr)).1
    have hanswer := Database.relations_int h.opens h.symbols h.relationships r.id none .both
      (some p)
    rw [if_pos hfits] at hanswer
    exact congrArg (fun edges => Answer.ofDatabase edges >>= fun edges =>
      .ok (edges.map (edgeOf r))) hanswer
  simp only [Store.incidences, hfound, List.map_flatMap, List.map_map]
  rw [relationshipsView, hhits]
  simp only [Answer.ofDatabase_ok, Answer.ok_bind, hrelations, ← List.flatMap_def]
  rfl

/-- Each item of the view tells its own symbol as the related one, so that the other end is told
exactly if it looks the same. -/
theorem relationshipsView_tells (h : db.Readable) (p name : String) :
    let answer := relationshipsView db (.text p) (.text name)
    let told := db.store.incidences name none .both (Store.filterOf p)
    answer.TellsSelf told Cell.toValue ∧ (answer.TellsOther told Cell.toValue ↔
      (db.Seeks (Store.filterOf p) name → EndsAlike told Cell.toValue)) := by
  intro answer told
  have hsearch := h.search_eq name p
  by_cases hseeks : db.Seeks (Store.filterOf p) name
  · rw [h.searchByName_of_seeks hseeks] at hsearch
    cases hfound : db.store.searchByName name none (Store.filterOf p) with
    | nil =>
        have hanswer : answer = .ok (.object [("symbol_name", .text name),
            ("project_id", .text p), ("error", "Symbol not found")]) := by
          rw [show answer = relationshipsView db (.text p) (.text name) from rfl,
            relationshipsView, hsearch, hfound]
          rfl
        -- nothing was found, so that there are no relationships to be told
        have hnothing : EndsAlike told Cell.toValue := by
          simp [EndsAlike, told, Store.incidences, hfound]
        refine Answer.tells_of_no_items (fun _ => hnothing) fun fields hok => ?_
        obtain rfl := Value.object.inj (Except.ok.inj (hanswer.symm.trans hok))
        simp [Value.field?]
    | cons first rest =>
        rw [hfound] at hsearch
        refine Answer.tells_of_items hseeks (relationshipsView_of_hits h hsearch hfound) rfl ?_
        rw [List.forall₂_map_right_iff, List.forall₂_same]
        exact fun x hx => relatesTo_edgeOf (Store.related_of_mem_incidences h.distinct hx)
  · have herror : answer = .error (.database .patternTooLong) := by
      rw [show answer = relationshipsView db (.text p) (.text name) from rfl, relationshipsView,
        hsearch, h.searchByName_of_not_seeks hseeks]
      rfl
    exact Answer.tells_of_no_items (fun hs => absurd hs hseeks) fun fields hok =>
      absurd (herror.symm.trans hok) (by simp)

end Resource

/-! ## Records that were made -/

/-- A symbol whose line was read as a number. -/
def SymbolRow.onLine (r : SymbolRow) (n : Int) : SymbolRow := { r with first := .int n }

theorem SymbolRow.place_onLine {r : SymbolRow} {n : Int}
    (h : Schema.toInt r.first.toValue = .ok n) :
    (r.onLine n).place Cell.toValue = r.place Cell.asLine := by
  have hline : r.first.asLine = .int n := by
    simp [Cell.asLine, h, Except.toOption]
  simp [place, onLine, Cell.toValue, hline]

namespace Schema

variable {path : List String} {given out : List (String × Value)} {name : String} {v : Value}

theorem both_eq_ok {α β : Type} {first : Checked α} {second : Checked β} {p : α × β} :
    both first second = .ok p ↔ first = .ok p.1 ∧ second = .ok p.2 := by
  obtain ⟨a, b⟩ := p
  cases first <;> cases second <;> simp [both]

theorem map_eq_ok {α β : Type} {r : Checked α} {f : α → β} {b : β} :
    r.map f = .ok b ↔ ∃ a, r = .ok a ∧ f a = b := by
  cases r <;> simp [Except.map]

/-- A record that was made has each needed field as it was checked. -/
theorem checkFields_need_eq_ok {t : FieldType} {rest : Fields}
    (hgiven : Value.field? name given = some v) (hnull : v ≠ .null)
    (h : checkFields path given (need name t :: rest) = .ok out) :
    ∃ v' out', checkValue (path ++ [name]) t v = .ok v' ∧
      checkFields path given rest = .ok out' ∧ out = (name, v') :: out' := by
  rw [need, checkFields.eq_def] at h
  simp only [hgiven] at h
  obtain ⟨p, hboth, rfl⟩ := map_eq_ok.mp h
  obtain ⟨hvalue, hrest⟩ := both_eq_ok.mp hboth
  refine ⟨p.1, p.2, ?_, hrest, rfl⟩
  cases v with
  | null => exact absurd rfl hnull
  | bool | int | float | text | list | object => exact hvalue

theorem checkValue_text {s : String} (h : checkValue path .text (.text s) = .ok v) :
    v = .text s := by
  simpa [checkValue, asValue, toText, eq_comm] using h

theorem checkValue_choice {e : Enumeration} {s : String}
    (h : checkValue path (.choice e) (.text s) = .ok v) : v = .text s := by
  cases hmember : e.member? (.text s) with
  | none => simp [checkValue, hmember, issue] at h
  | some member =>
      obtain rfl : s = member := by
        rw [Enumeration.member?, Option.ite_none_right_eq_some] at hmember
        exact Option.some.inj hmember.2
      simpa [checkValue, hmember, eq_comm] using h

theorem checkValue_int {w : Value} (h : checkValue path .int w = .ok v) :
    ∃ n, toInt w = .ok n ∧ v = .int n := by
  rw [checkValue] at h
  cases hint : toInt w with
  | ok n => simpa [hint, asValue, eq_comm] using h
  | error c => simp [hint, asValue, issue] at h

/-- The record of a related symbol is what was given of it, with the line read as a number. -/
theorem relatedSymbol_of_ok {r : SymbolRow}
    (h : checkFields path (Resource.placeFields r) relatedSymbol.fields = .ok out) :
    ∃ n, toInt r.first.toValue = .ok n ∧ out = Resource.placeFields (r.onLine n) := by
  have hnull : r.first.toValue ≠ .null := by
    cases r.first <;> simp [Cell.toValue]
  obtain ⟨v₁, out₁, h₁, hrest₁, rfl⟩ := checkFields_need_eq_ok rfl (by simp) h
  obtain ⟨v₂, out₂, h₂, hrest₂, rfl⟩ := checkFields_need_eq_ok rfl (by simp) hrest₁
  obtain ⟨v₃, out₃, h₃, hrest₃, rfl⟩ := checkFields_need_eq_ok rfl (by simp) hrest₂
  obtain ⟨v₄, out₄, h₄, hrest₄, rfl⟩ := checkFields_need_eq_ok rfl hnull hrest₃
  obtain ⟨n, hn, rfl⟩ := checkValue_int h₄
  rw [checkFields, Except.ok.injEq] at hrest₄
  refine ⟨n, hn, ?_⟩
  rw [checkValue_text h₁, checkValue_choice h₂, checkValue_text h₃, ← hrest₄]
  rfl

/-- The related symbol of an item that was made was checked once more as a part of it. -/
theorem symbolRelationship_of_ok {self relationship : List (String × Value)} {r : SymbolRow}
    (h : checkFields [] [("symbol", .object self), ("relationship", .object relationship),
      ("related_symbol", .object (Resource.placeFields r))] symbolRelationship.fields = .ok out) :
    ∃ n, toInt r.first.toValue = .ok n ∧
      Value.field? "related_symbol" out = some (.object (Resource.placeFields (r.onLine n))) := by
  obtain ⟨v₁, out₁, -, hrest₁, rfl⟩ := checkFields_need_eq_ok rfl (by simp) h
  obtain ⟨v₂, out₂, -, hrest₂, rfl⟩ := checkFields_need_eq_ok rfl (by simp) hrest₁
  obtain ⟨v₃, out₃, h₃, hrest₃, rfl⟩ := checkFields_need_eq_ok rfl (by simp) hrest₂
  rw [checkFields, Except.ok.injEq] at hrest₃
  subst hrest₃
  have hnamed : named (.object (Resource.placeFields r)) = .ok (Resource.placeFields r) := rfl
  simp only [Record.type, checkValue, hnamed] at h₃
  obtain ⟨related, hrelated, rfl⟩ := map_eq_ok.mp h₃
  obtain ⟨n, hn, rfl⟩ := relatedSymbol_of_ok hrelated
  exact ⟨n, hn, by simp [Value.field?]⟩

end Schema

namespace Answer

theorem member_eq_ok {e : Enumeration} {s : String} {v : Value} (h : member e s = .ok v) :
    v = .text s := by
  rw [member] at h
  split at h
  · exact (Except.ok.inj h).symm
  · exact absurd h (by simp)

theorem record_eq_ok {r : Record} {given : List (String × Value)} {v : Value}
    (h : record r given = .ok v) :
    ∃ fields, Schema.checkFields [] given r.fields = .ok fields ∧ v = .object fields := by
  rw [record, Record.build] at h
  split at h
  · exact absurd h (by simp [Except.map, Except.mapError])
  · cases hfields : Schema.checkFields [] given r.fields with
    | ok fields =>
        exact ⟨fields, rfl, by simpa [hfields, Except.map, Except.mapError, eq_comm] using h⟩
    | error issues =>
        rw [hfields] at h
        cases hoverflow : Schema.overflow? issues <;>
          simp [hoverflow, Except.map, Except.mapError] at h

end Answer

namespace SymbolRow

variable {r : SymbolRow} {v : Value}

theorem described_eq_ok (h : r.described = .ok v) : ∃ fields, v = .object fields := by
  obtain ⟨_, -, h⟩ := Database.Result.bind_eq_ok.mp h
  obtain ⟨fields, -, rfl⟩ := Answer.record_eq_ok h
  exact ⟨fields, rfl⟩

theorem placed_relatedSymbol_eq_ok (h : r.placed Schema.relatedSymbol [] = .ok v) :
    ∃ n, Schema.toInt r.first.toValue = .ok n ∧
      v = .object (Resource.placeFields (r.onLine n)) := by
  obtain ⟨_, hkind, h⟩ := Database.Result.bind_eq_ok.mp h
  obtain rfl := Answer.member_eq_ok hkind
  obtain ⟨fields, hfields, rfl⟩ := Answer.record_eq_ok h
  obtain ⟨n, hn, rfl⟩ := Schema.relatedSymbol_of_ok hfields
  exact ⟨n, hn, rfl⟩

end SymbolRow

/-- The record of a relationship whose related symbol is its own symbol. -/
theorem Edge.relatesTo_of_relationshipRecord {e : Edge} {r : SymbolRow} {item : Value}
    (hrelated : e.related (.int r.id) = r) (h : e.relationshipRecord r = .ok item) :
    item.RelatesTo (r.place Cell.asLine) := by
  simp only [relationshipRecord, hrelated, Database.Result.bind_eq_ok] at h
  obtain ⟨_, hself, kind, -, _, hrelationship, _, hother, hitem⟩ := h
  obtain ⟨self, rfl⟩ := SymbolRow.described_eq_ok hself
  obtain ⟨relationship, -, rfl⟩ := Answer.record_eq_ok hrelationship
  obtain ⟨n, hline, rfl⟩ := SymbolRow.placed_relatedSymbol_eq_ok hother
  obtain ⟨fields, hfields, rfl⟩ := Answer.record_eq_ok hitem
  -- the line is a number by now, and reading it again does not change it
  obtain ⟨m, hm, hfield⟩ := Schema.symbolRelationship_of_ok hfields
  obtain rfl : n = m := Except.ok.inj hm
  refine ⟨fields, _, rfl, hfield, ?_⟩
  rw [Resource.pick_placeFields]
  exact SymbolRow.place_onLine hline

/-! ## The tool -/

namespace Tool

variable {db : Database}

/-- An answer has the records of the symbols that were found, each with its relationships. -/
theorem items_of_relationships (h : db.Readable) {name : String} {kind : Option String}
    {d : Direction} {project : Option String} {fields : List (String × Value)}
    (hanswer : (relationships db name kind d project).answer = .ok fields) :
    ∃ items, Value.field? "relationships" fields = some (.list items) ∧
      List.Forall₂ (fun x item => x.2.relationshipRecord x.1 = .ok item)
        (db.store.incidences name kind d (filter project)) items := by
  by_cases hseeks : db.Seeks (filter project) name
  · simp only [relationships, h.searchByName_of_seeks hseeks, h.relationsOf_eq,
      Answer.ofDatabase_ok, Answer.ok_bind, Database.Result.bind_eq_ok] at hanswer
    obtain ⟨records, hrecords, hfields⟩ := hanswer
    obtain rfl := Except.ok.inj hfields
    exact ⟨records.flatten, by simp [Value.field?],
      Answer.forall₂_of_mapM_mapM (f := fun r e => Edge.relationshipRecord e r) hrecords⟩
  · have herror : (relationships db name kind d project).answer
        = .error (.database .patternTooLong) := by
      rw [relationships, h.searchByName_of_not_seeks hseeks]
      rfl
    exact absurd (herror.symm.trans hanswer) (by simp)

/-- Each item of the answer tells its own symbol as the related one, so that the other end is told
exactly if it looks the same. -/
theorem relationships_tells (h : db.Readable) (name : String) (kind : Option String)
    (d : Direction) (project : Option String) :
    let reply := relationships db name kind d project
    let told := db.store.incidences name kind d (filter project)
    Answer.TellsSelf (reply.answer.map .object) told Cell.asLine ∧
      (Answer.TellsOther (reply.answer.map .object) told Cell.asLine ↔
        ((∃ fields, reply.answer = .ok fields) → EndsAlike told Cell.asLine)) := by
  intro reply told
  cases hanswer : reply.answer with
  | error e =>
      refine Answer.tells_of_no_items ?_ fun fields hok => absurd hok (by simp [Except.map])
      rintro ⟨fields, hok⟩
      exact absurd hok (by simp)
  | ok fields =>
      obtain ⟨items, hitems, hrecords⟩ := items_of_relationships h hanswer
      refine Answer.tells_of_items ⟨fields, rfl⟩ rfl hitems ?_
      -- each record is about a symbol and one of its relationships, where `related_eq` applies
      have hboth := (List.forall₂_and_left _ _).mpr
        ⟨fun x hx => Store.related_of_mem_incidences h.distinct hx, hrecords⟩
      exact hboth.imp fun x item hitem => Edge.relatesTo_of_relationshipRecord hitem.1 hitem.2

end Tool

/-! ## Both answers -/

namespace Database

variable {db : Database} {s : Server}

/-- Each item about a relationship of a symbol tells that symbol as the related one, in the view and
in the answer of the tool. So the end that is not the item's own symbol is told exactly if it has
the same name, kind, file and line, as far as there is an answer. -/
theorem relationships_tell_other_iff (h : db.Readable) (hs : s.database = some db) (w : Workspace)
    (name : String) :
    (∀ p : String,
      let view := s.view (.relationships (.text p) (.text name))
      let told := db.store.incidences name none .both (Store.filterOf p)
      view.TellsSelf told Cell.toValue ∧ (view.TellsOther told Cell.toValue ↔
        (db.Seeks (Store.filterOf p) name → EndsAlike told Cell.toValue))) ∧
    ∀ (kind : Option String) (d : Direction) (project : Option String),
      let reply := s.answer w (.relationships name kind d project)
      let told := db.store.incidences name kind d (Tool.filter project)
      Answer.TellsSelf (reply.answer.map .object) told Cell.asLine ∧
        (Answer.TellsOther (reply.answer.map .object) told Cell.asLine ↔
          ((∃ fields, reply.answer = .ok fields) → EndsAlike told Cell.asLine)) := by
  refine ⟨fun p => ?_, fun kind d project => ?_⟩
  · have hview : s.view (.relationships (.text p) (.text name))
        = Resource.relationshipsView db (.text p) (.text name) := by
      simp only [Server.view, hs]
    rw [hview]
    exact Resource.relationshipsView_tells h p name
  · have hreply : s.answer w (.relationships name kind d project)
        = Tool.relationships db name kind d project := by
      simp only [Server.answer, hs, Server.need]
    rw [hreply]
    exact Tool.relationships_tells h name kind d project

/-- A function that calls another one, which looks the same in another project. -/
def twinCalled : List Operation :=
  [.insertSymbol (functionFields "run" "a.py") "p",
   .insertSymbol (functionFields "run" "a.py") "q",
   .insertRelation (.int 1) (.int 2) "calls" "p" .null]

/-- The call of the function in the other project. -/
def twinCall : Edge where
  relation := { project := "p", source := .int 1, target := .int 2, kind := "calls", data := none
                id := 1 }
  source := functionRow "run" "a.py" 1
  target := { functionRow "run" "a.py" 2 with project := "q" }

/-- The end in the other project is told, as it looks like the function itself. -/
theorem relationships_tell_other_iff_twinCalled :
    let db := performAll {} twinCalled
    let s : Server := { database := some db }
    let told := db.store.incidences "run" none .both (some "p")
    told = [(functionRow "run" "a.py" 1, twinCall)] ∧
    (s.view (.relationships "p" "run")).TellsOther told Cell.toValue ∧
    Answer.TellsOther ((s.answer {} (.relationships "run" none .both (some "p"))).answer.map
      .object) told Cell.asLine := by
  intro db s told
  have hreadable : db.Readable := readable_performAll (by decide)
  have htold : told = [(functionRow "run" "a.py" 1, twinCall)] := by decide +kernel
  have halike : ∀ line, EndsAlike told line := by
    intro line x hx _
    rw [htold, List.mem_singleton] at hx
    subst hx
    rfl
  obtain ⟨hview, htool⟩ := @relationships_tell_other_iff _ s hreadable rfl {} "run"
  exact ⟨htold, (hview "p").2.mpr fun _ => halike _,
    (htool none .both (some "p")).2.mpr fun _ => halike _⟩

/-- The call of the second function by the first. -/
def calleeCall : Edge := { callShown with target := functionRow "callee" "b.py" 2 }

/-- Neither the caller nor the callee tells the other function as related to it. -/
theorem relationships_tell_own_symbol :
    let s : Server := { database := some callStored }
    let told := fun name => callStored.store.incidences name none .both (some "p")
    told "caller" = [(functionRow "caller" "a.py" 1, calleeCall)] ∧
    told "callee" = [(functionRow "callee" "b.py" 2, calleeCall)] ∧
    ∀ name ∈ ["caller", "callee"],
      ¬ (s.view (.relationships "p" (.text name))).TellsOther (told name) Cell.toValue ∧
      ¬ Answer.TellsOther ((s.answer {} (.relationships name none .both (some "p"))).answer.map
        .object) (told name) Cell.asLine := by
  intro s told
  have hreadable : callStored.Readable := by
    exact @readable_performAll (twoFunctions ++
      [.insertRelation (.int 1) (.int 2) "calls" "p" .null]) (by decide)
  have hcaller : told "caller" = [(functionRow "caller" "a.py" 1, calleeCall)] := by
    decide +kernel
  have hcallee : told "callee" = [(functionRow "callee" "b.py" 2, calleeCall)] := by
    decide +kernel
  -- the two functions differ in name and file, so the ends of the call do not look alike
  have hdiffer : ∀ name ∈ ["caller", "callee"], ∀ line, ¬ EndsAlike (told name) line := by
    intro name hname line halike
    rcases List.mem_pair.mp hname with rfl | rfl
    · have hplace := halike (functionRow "caller" "a.py" 1, calleeCall)
        (by rw [hcaller]; exact List.mem_singleton_self _) (by decide)
      simp [SymbolRow.place, Edge.other, calleeCall, callShown, functionRow] at hplace
    · have hplace := halike (functionRow "callee" "b.py" 2, calleeCall)
        (by rw [hcallee]; exact List.mem_singleton_self _) (by decide)
      simp [SymbolRow.place, Edge.other, calleeCall, callShown, functionRow] at hplace
  refine ⟨hcaller, hcallee, fun name hname => ⟨fun hother => ?_, fun hother => ?_⟩⟩
  · have hseeks : callStored.Seeks (some "p") name := by
      rcases List.mem_pair.mp hname with rfl | rfl <;> exact .inl (by decide)
    exact hdiffer name hname _ ((Resource.relationshipsView_tells hreadable "p" name).2.mp hother
      hseeks)
  · have hok : (Tool.relationships callStored name none .both (some "p")).answer.isOk = true := by
      rcases List.mem_pair.mp hname with rfl | rfl <;> decide +kernel
    have hanswer : ∃ fields, (Tool.relationships callStored name none .both (some "p")).answer
        = .ok fields := by
      cases hcase : (Tool.relationships callStored name none .both (some "p")).answer with
      | ok fields => exact ⟨fields, rfl⟩
      | error e => exact absurd hok (by simp [hcase, Except.isOk, Except.toBool])
    exact hdiffer name hname _
      ((Tool.relationships_tells hreadable name none .both (some "p")).2.mp hother hanswer)

end Database

end SymbolAtlas
