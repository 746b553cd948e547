/-
  SymbolAtlas.Proofs.NameSearch: what a search by name answers.

  Runs over directories store symbols on numbered lines (`plain_reached`), so that only its kind can
  keep a symbol out of an answer. A search lists all that the database finds, in the same order,
  exactly if each kind among it is one that answers know. A single other kind and the answer tells a
  failure and lists nothing, whatever else was found.
-/

import SymbolAtlas.Proofs.Attachment
import SymbolAtlas.Proofs.Resolution
import SymbolAtlas.Proofs.Sources
import SymbolAtlas.Service.Tool

namespace SymbolAtlas

/-! ## Rows that runs store -/

namespace Store

variable {st : Store}

/-- Symbols on numbered lines, and relationships that carry a text. -/
structure Plain (st : Store) : Prop where
  lines : ∀ r ∈ st.symbols, ∃ first last : Int, r.first = .int first ∧ r.last = .int last
  data : ∀ r ∈ st.relations, ∃ text, r.data = some text ∧ text ≠ ""

theorem plain_empty : Plain {} :=
  ⟨fun _ h => absurd h List.not_mem_nil, fun _ h => absurd h List.not_mem_nil⟩

theorem Plain.removeSymbols (h : st.Plain) (pick : SymbolRow → Bool) :
    (st.removeSymbols pick).Plain :=
  ⟨fun r hr => h.lines r (List.mem_filter.mp hr).1, h.data⟩

end Store

theorem Json.write_object_ne_empty (fields : List (String × Value)) :
    Json.write (.object fields) ≠ "" := by
  intro h
  have hchars := congrArg String.toList h
  rw [Json.write, String.toList_append, String.toList_append] at hchars
  exact absurd hchars (by simp)

namespace Indexer

/-- The work on a file stores symbols with the lines on which they were found, and relations as
objects. -/
theorem plain_outcome {x : Indexer} (hx : x.Lawful) {w : Work} (hbefore : w.before.Regular)
    (h : w.before.store.Plain) : (x.outcome w).db.store.Plain := by
  by_cases hfits : w.before.Fits w.project w.path
  case neg =>
    rw [outcome, indexFile_crowded hbefore.sound.clearable hfits]
    exact h
  have hclear := hbefore.sound.clearable.removeFile hfits
  constructor
  · intro r hr
    by_cases hhere : w.path = r.file ∧ w.project = r.project
    · obtain ⟨-, -, s, -, -, hfirst, hlast⟩ := exists_symbol_of_mem_rowsOf hx hclear
        (Store.mem_rowsOf.mpr ⟨hr, hhere.2.symm, hhere.1.symm⟩)
      exact ⟨s.first, s.last, hfirst, hlast⟩
    · have hne : w.path ≠ r.file ∨ w.before.store.shared = false ∧ w.project ≠ r.project := by
        rcases not_and_or.mp hhere with hpath | hproject
        · exact .inl hpath
        · exact .inr ⟨hbefore.sound.shared_eq, hproject⟩
      have hrow : r ∈ (x.outcome w).db.store.rowsOf r.project r.file :=
        Store.mem_rowsOf.mpr ⟨hr, rfl, rfl⟩
      rw [outcome, indexFile_rows_other hx hne] at hrow
      exact h.lines r (Store.mem_rowsOf.mp hrow).1
  · intro r hr
    rcases mem_relations_indexFile hx hclear hr with
      hold | ⟨-, -, link, -, -, -, -, -, -, -, hdata⟩
    · exact h.data r hold
    · exact ⟨_, hdata, Json.write_object_ne_empty link.fields⟩

theorem plain_visit {x : Indexer} (hx : x.Lawful) {db : Database} (hdb : db.Regular)
    (h : db.store.Plain) (v : Visit) : (x.visit db v).store.Plain :=
  (visit_induction (P := fun db => db.store.Plain) (fun _ _ hplain => ⟨hplain.lines, hplain.data⟩) h
    fun w hw hplain => plain_outcome hx ((regular_visit hx hdb v).1 w hw) hplain).2

end Indexer

namespace Database

/-- Whatever directories are indexed and projects removed, what is stored is plain. -/
theorem plain_reached (actions : List Action)
    (hruns : ∀ action ∈ actions, action.isRun = true) : (reached actions).store.Plain := by
  induction actions using List.reverseRecOn with
  | nil => exact Store.plain_empty
  | append_singleton done action ih =>
      have hdone := ih fun action' h => hruns action' (List.mem_append_left _ h)
      have hrun := hruns action (List.mem_append_right done List.mem_cons_self)
      rw [reached_concat]
      match action, hrun with
      | .index a model v, _ =>
          have hx := Indexer.ofAnalyzer_lawful a model
          exact Indexer.plain_visit hx (regular_reached done) hdone v
      | .operation (.deleteProject project), _ =>
          rw [act, perform]
          cases hresult : (reached done).deleteProject project with
          | error e => exact hdone
          | ok db' =>
              rcases deleteProject_eq_ok hresult with rfl | ⟨pick, rfl⟩
              · exact hdone
              · exact hdone.removeSymbols pick

end Database

/-! ## Lists of records -/

namespace Answer

variable {α β : Type} {f : α → Answer β} {l : List α}

theorem mapM_eq_ok {g : α → β} (h : ∀ a ∈ l, f a = .ok (g a)) : l.mapM f = .ok (l.map g) := by
  induction l with
  | nil => rfl
  | cons a rest ih =>
      rw [List.mapM_cons, h a List.mem_cons_self, ih fun b hb => h b (List.mem_cons_of_mem a hb)]
      rfl

/-- One item that fails, and the list fails as the first such item does. -/
theorem mapM_eq_error {a : α} (ha : a ∈ l) {e : ServiceError} (h : f a = .error e) :
    ∃ b ∈ l, ∃ e', f b = .error e' ∧ l.mapM f = .error e' := by
  induction l with
  | nil => exact absurd ha List.not_mem_nil
  | cons c rest ih =>
      rw [List.mapM_cons]
      cases hc : f c with
      | error e' => exact ⟨c, List.mem_cons_self, e', hc, rfl⟩
      | ok v =>
          rcases List.mem_cons.mp ha with rfl | hrest
          · exact absurd (h.symm.trans hc) (by simp)
          · obtain ⟨b, hb, e', he', hmap⟩ := ih hrest
            exact ⟨b, List.mem_cons_of_mem c hb, e', he', by rw [hmap]; rfl⟩

end Answer

namespace SymbolRow

variable {r : SymbolRow}

/-- A stored symbol as a search by name shows it. -/
def shown (r : SymbolRow) : Value :=
  .object
    [("id", .int r.id), ("project_id", .text r.project), ("name", .text r.name),
     ("symbol_type", .text r.kind), ("language", .text r.language), ("file_path", .text r.file),
     ("line_start", r.first.toValue), ("line_end", r.last.toValue),
     ("code_snippet", .text r.snippet), ("score", .null)]

theorem member_of_mem (h : r.kind ∈ Schema.symbolType.members) :
    Answer.member Schema.symbolType r.kind = .ok (.text r.kind) := by
  rw [Answer.member, if_pos (List.contains_iff_mem.mpr h)]

theorem member_of_not_mem (h : r.kind ∉ Schema.symbolType.members) :
    Answer.member Schema.symbolType r.kind = .error (.notMember Schema.symbolType r.kind) := by
  rw [Answer.member, if_neg fun hmem => h (List.contains_iff_mem.mp hmem)]

/-- A symbol of a kind that answers know, on numbered lines, is shown with all its fields. -/
theorem found_eq_ok (hkind : r.kind ∈ Schema.symbolType.members) {first last : Int}
    (hfirst : r.first = .int first) (hlast : r.last = .int last) : r.found [] = .ok r.shown := by
  have hmember : Schema.symbolType.member? (.text r.kind) = some r.kind := by
    rw [Enumeration.member?, if_pos (List.contains_iff_mem.mpr hkind)]
  rw [found, member_of_mem hkind]
  simp [Answer.record, Record.build, Schema.usesReserved, Schema.reservedName, recordFields, shown,
    hfirst, hlast, hmember, Schema.symbol, Schema.need, Schema.may, Schema.checkFields,
    Schema.checkValue, Value.field?, Schema.both, Schema.asValue, Schema.toText, Schema.toInt,
    Cell.toValue, Except.map, Except.mapError, Bind.bind, Except.bind]

theorem found_eq_error (hkind : r.kind ∉ Schema.symbolType.members)
    (extra : List (String × Value)) :
    r.found extra = .error (.notMember Schema.symbolType r.kind) := by
  rw [found, member_of_not_mem hkind]
  rfl

end SymbolRow

/-! ## Replies to a search -/

namespace Reply

/-- Whether a reply tells success and has these results, no more and in this order. -/
def Lists (reply : Reply) (values : List Value) : Prop :=
  ∃ fields, reply.answer = .ok fields ∧ Value.field? "success" fields = some (.bool true) ∧
    Value.field? "total_results" fields = some (.ofNat values.length) ∧
    Value.field? "results" fields = some (.list values)

/-- Whether a reply tells a failure with a message, and has no results. -/
def Refuses (reply : Reply) (message : String) : Prop :=
  ∃ fields, reply.answer = .ok fields ∧ Value.field? "success" fields = some (.bool false) ∧
    Value.field? "results" fields = some (.list []) ∧
    Value.field? "error" fields = some (.text message)

theorem Refuses.not_lists {reply : Reply} {message : String} (h : reply.Refuses message)
    (values : List Value) : ¬ reply.Lists values := by
  rintro ⟨fields, hfields, hsuccess, -⟩
  obtain ⟨fields', hfields', hfailure, -⟩ := h
  obtain rfl := Except.ok.inj (hfields.symm.trans hfields')
  exact absurd (hsuccess.symm.trans hfailure) (by simp)

end Reply

namespace Tool

variable {db : Database} {name : String} {language project : Option String}

/-- The records of what a search by name finds. -/
def recordsByName (db : Database) (name : String) (language project : Option String) :
    Answer (List Value) := do
  (← Answer.ofDatabase (db.searchByName name (filter language) (filter project))).mapM
    (SymbolRow.found [])

theorem searchByName_lists {values : List Value}
    (h : recordsByName db name language project = .ok values) :
    (searchByName db name language project).Lists values := by
  rw [recordsByName] at h
  refine ⟨_, rfl, ?_⟩
  simp [Value.field?, h, success, items]

theorem searchByName_refuses {e : ServiceError}
    (h : recordsByName db name language project = .error e) :
    (searchByName db name language project).Refuses e.message := by
  rw [recordsByName] at h
  refine ⟨_, rfl, ?_⟩
  simp [Value.field?, h, success, items, errorOf]

theorem recordsByName_of_error {e : DatabaseError}
    (h : db.searchByName name (filter language) (filter project) = .error e) :
    recordsByName db name language project = .error (.database e) := by
  rw [recordsByName, h]
  rfl

theorem recordsByName_of_ok {rows : List SymbolRow}
    (h : db.searchByName name (filter language) (filter project) = .ok rows) :
    recordsByName db name language project = rows.mapM (SymbolRow.found []) := by
  rw [recordsByName, h]
  rfl

/-- A kind that answers do not know, and the search is refused for the first such kind. -/
theorem searchByName_refuses_kind (language project : Option String) {rows : List SymbolRow}
    (h : db.searchByName name (filter language) (filter project) = .ok rows)
    (hlines : ∀ r ∈ rows, ∃ first last : Int, r.first = .int first ∧ r.last = .int last)
    {r : SymbolRow} (hr : r ∈ rows) (hkind : r.kind ∉ Schema.symbolType.members) :
    ∃ r' ∈ rows, r'.kind ∉ Schema.symbolType.members ∧
      (searchByName db name language project).Refuses
        (Schema.symbolType.refusal (.text r'.kind)) := by
  obtain ⟨r', hr', e, he, hmap⟩ := Answer.mapM_eq_error hr (SymbolRow.found_eq_error hkind [])
  have hkind' : r'.kind ∉ Schema.symbolType.members := by
    intro hmem
    obtain ⟨first, last, hfirst, hlast⟩ := hlines r' hr'
    exact absurd (he.symm.trans (SymbolRow.found_eq_ok hmem hfirst hlast)) (by simp)
  rw [SymbolRow.found_eq_error hkind'] at he
  obtain rfl := Except.error.inj he
  have hreply := searchByName_refuses ((recordsByName_of_ok h).trans hmap)
  exact ⟨r', hr', hkind', hreply⟩

end Tool

namespace Database

variable {db : Database}

theorem Sound.mem_of_searchByName_eq_ok (h : db.Sound) {name : String}
    {language project : Option String} {rows : List SymbolRow}
    (hfound : db.searchByName name language project = .ok rows) :
    ∀ r ∈ rows, r ∈ db.store.symbols := by
  rw [h.searchByName_eq] at hfound
  split at hfound
  next => exact absurd hfound (by simp)
  next =>
    obtain rfl := Except.ok.inj hfound
    exact fun r hr => (List.mem_filter.mp (Store.mem_of_mem_searchByName hr)).1

theorem Sound.searchByName_eq_error (h : db.Sound) {name : String}
    {language project : Option String} {e : DatabaseError}
    (hfound : db.searchByName name language project = .error e) : e = .patternTooLong := by
  rw [h.searchByName_eq] at hfound
  split at hfound
  next => exact (Except.error.inj hfound).symm
  next => exact absurd hfound (by simp)

theorem Sound.searchByName_of_short (h : db.Sound) (name : String)
    (hshort : (Like.containing name).utf8ByteSize ≤ Like.maxBytes)
    (language project : Option String) :
    db.searchByName name language project = .ok (db.store.searchByName name language project) := by
  rw [h.searchByName_eq, if_neg]
  simp [Nat.not_lt.mpr hshort]

/-- What a search finds after runs lies on numbered lines. -/
theorem lines_of_searchByName {actions : List Action}
    (hruns : ∀ action ∈ actions, action.isRun = true) {name : String}
    {language project : Option String} {rows : List SymbolRow}
    (hfound : (reached actions).searchByName name language project = .ok rows) :
    ∀ r ∈ rows, ∃ first last : Int, r.first = .int first ∧ r.last = .int last := fun r hr =>
  (plain_reached actions hruns).lines r
    ((regular_reached actions).sound.mem_of_searchByName_eq_ok hfound r hr)

/-- Directories are indexed and projects are removed, and then symbols are searched for by name. The
reply has one result for each symbol that the database finds, in the same order, exactly if answers
know the kinds of all of them. Otherwise it tells a failure that names a kind, and has no results.
The database itself only refuses names that are too long. -/
theorem searchByName_lists_iff (actions : List Action)
    (hruns : ∀ action ∈ actions, action.isRun = true) (s : Server)
    (hs : s.database = some (reached actions)) (w : Workspace) (name : String)
    (language project : Option String) :
    let found := (reached actions).searchByName name (Tool.filter language) (Tool.filter project)
    let reply := s.answer w (.searchByName name language project)
    (∀ e, found = .error e → e = .patternTooLong ∧ reply.Refuses e.message) ∧
      ∀ rows, found = .ok rows →
        (reply.Lists (rows.map (·.shown)) ↔ ∀ r ∈ rows, r.kind ∈ Schema.symbolType.members) ∧
        ((∃ r ∈ rows, r.kind ∉ Schema.symbolType.members) →
          ∃ r ∈ rows, r.kind ∉ Schema.symbolType.members ∧
            reply.Refuses (Schema.symbolType.refusal (.text r.kind))) := by
  intro found reply
  have hsound := (regular_reached actions).sound
  have hreply : reply = Tool.searchByName (reached actions) name language project := by
    simp only [reply, Server.answer, Server.need, hs]
  rw [hreply]
  constructor
  · intro e he
    exact ⟨hsound.searchByName_eq_error he,
      Tool.searchByName_refuses (Tool.recordsByName_of_error he)⟩
  · intro rows hrows
    have hlines := lines_of_searchByName hruns hrows
    have hrefused := fun (r : SymbolRow) (hr : r ∈ rows) =>
      Tool.searchByName_refuses_kind language project hrows hlines hr
    refine ⟨⟨?_, ?_⟩, ?_⟩
    · intro hlists r hr
      by_contra hkind
      -- one row outside of the members is enough for the whole list to be refused
      obtain ⟨_, _, _, hrefuses⟩ := hrefused r hr hkind
      exact hrefuses.not_lists _ hlists
    · intro hkinds
      apply Tool.searchByName_lists
      rw [Tool.recordsByName_of_ok hrows]
      apply Answer.mapM_eq_ok
      intro r hr
      obtain ⟨first, last, hfirst, hlast⟩ := hlines r hr
      exact SymbolRow.found_eq_ok (hkinds r hr) hfirst hlast
    · rintro ⟨r, hr, hkind⟩
      exact hrefused r hr hkind

/-- An analyzer that knows functions and pairs of settings. -/
def mixed : Analyzer :=
  { dialect := .code, grammars := ["json", "python"]
    query := fun language =>
      if language = "json" then some "(pair) @definition.key"
      else some "(function_definition) @definition.function" }

/-- A function, and settings with a key of the same name. -/
def functionAndKey : Visit :=
  .ofFiles [("a.py", "def run(): pass\n"), ("b.json", "\x7b\"run\": 1\x7d\n")]

/-- What is stored of the function and the settings. -/
def mixedIndexed : List Action := [.index mixed none functionAndKey]

theorem mixedIndexed_isRun : ∀ action ∈ mixedIndexed, action.isRun = true := by decide

/-- The symbols of the name, in one language and in all of them. -/
theorem mixedIndexed_fits :
    let st := (reached mixedIndexed).store
    (st.searchByName "run" (some "python") none).map (fun r => (r.name, r.kind))
        = [("run", "function")] ∧
      ((st.inScope none none).filter fun r => Store.fitsName "run" r.name).map
        (fun r => (r.name, r.kind)) = [("run", "function"), ("run", "key")] := by
  decide +kernel

/-- Among the functions the search has its one result. -/
theorem searchByName_lists_iff_function :
    let s : Server := { database := some (reached mixedIndexed) }
    let reply := s.answer functionAndKey.workspace (.searchByName "run" (some "python") none)
    (∀ action ∈ mixedIndexed, action.isRun = true) ∧
      ∃ r, (reached mixedIndexed).searchByName "run" (some "python") none = .ok [r] ∧
        r.name = "run" ∧ reply.Lists [r.shown] := by
  intro s reply
  obtain ⟨r, hrows, hr⟩ := List.map_eq_singleton_iff.mp mixedIndexed_fits.1
  obtain ⟨hname, hkind⟩ := Prod.mk.inj hr
  have hfound := ((regular_reached mixedIndexed).sound.searchByName_of_short "run" (by decide)
    (some "python") none).trans (congrArg Except.ok hrows)
  refine ⟨mixedIndexed_isRun, r, hfound, hname, ?_⟩
  refine ((searchByName_lists_iff mixedIndexed mixedIndexed_isRun s rfl functionAndKey.workspace
    "run" (some "python") none).2 [r] hfound).1.mpr ?_
  intro r' hr'
  rw [List.mem_singleton.mp hr', hkind]
  decide

/-- Among all symbols the key is found as well, and then not even the function is listed. -/
theorem searchByName_refused_for_key :
    let s : Server := { database := some (reached mixedIndexed) }
    let reply := s.answer functionAndKey.workspace (.searchByName "run" none none)
    (∃ rows, (reached mixedIndexed).searchByName "run" none none = .ok rows ∧
        (rows.map fun r => (r.name, r.kind)).Perm [("run", "function"), ("run", "key")]) ∧
      reply.Refuses "'key' is not a valid SymbolType" := by
  intro s reply
  have hperm : (((reached mixedIndexed).store.searchByName "run" none none).map
      fun r => (r.name, r.kind)).Perm [("run", "function"), ("run", "key")] := by
    rw [← mixedIndexed_fits.2]
    exact (List.mergeSort_perm _ _).map _
  have hfound := (regular_reached mixedIndexed).sound.searchByName_of_short "run" (by decide)
    none none
  refine ⟨⟨_, hfound, hperm⟩, ?_⟩
  have hkinds : ∀ kind, kind ∈ ((reached mixedIndexed).store.searchByName "run" none none).map
      (·.kind) ↔ kind = "function" ∨ kind = "key" := by
    intro kind
    have hmap := (hperm.map Prod.snd).mem_iff (a := kind)
    simpa [List.map_map, Function.comp_def] using hmap
  obtain ⟨r, hr, hkind⟩ := List.mem_map.mp ((hkinds "key").mpr (.inr rfl))
  -- the failure names a kind that was found, which is not the kind of the function
  obtain ⟨r', hr', hkind', hrefuses⟩ := Tool.searchByName_refuses_kind none none hfound
    (lines_of_searchByName mixedIndexed_isRun hfound) hr (hkind ▸ by decide)
  rcases (hkinds r'.kind).mp (List.mem_map_of_mem hr') with h | h
  · rw [h] at hkind'
    exact absurd (by decide) hkind'
  · rw [h] at hrefuses
    exact hrefuses

end Database

end SymbolAtlas
