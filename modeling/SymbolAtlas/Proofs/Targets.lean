/-
  SymbolAtlas.Proofs.Targets: whether a relation reaches the symbol that it names.

  The target of a relation is looked for with wildcards before and after it. A name is always found
  by itself (`Like.finds_self`), and so are longer names, names in other letters and whatever an
  underscore or a percent sign in the target stands for. The least of all names that are found is
  taken. So a relation reaches the symbol of its target's name exactly if no lesser name is found.
-/

import SymbolAtlas.Proofs.Actions
import SymbolAtlas.Proofs.GraphOrder

namespace SymbolAtlas

namespace Like

variable {p t : List Char}

/-! ## Texts that a pattern describes -/

/-- The texts that a pattern describes, one sign of it after another. -/
inductive Matches : List Char → List Char → Prop where
  | nil : Matches [] []
  /-- a percent sign stands for any run of characters -/
  | run {p t : List Char} (skipped : List Char) (h : Matches p t) :
      Matches ('%' :: p) (skipped ++ t)
  /-- an underscore stands for one character -/
  | one {p t : List Char} (c : Char) (h : Matches p t) : Matches ('_' :: p) (c :: t)
  /-- a character stands for itself, a letter in both cases -/
  | same {p t : List Char} {c d : Char} (hc : sameChar c d = true) (h : Matches p t) :
      Matches (c :: p) (d :: t)

theorem matches_nil : Matches [] t ↔ t = [] := by
  constructor
  · intro h
    cases h
    rfl
  · rintro rfl
    exact .nil

theorem matches_percent : Matches ('%' :: p) t ↔ ∃ skipped rest, t = skipped ++ rest ∧
    Matches p rest := by
  constructor
  · intro h
    cases h with
    | run skipped h => exact ⟨skipped, _, rfl, h⟩
    | same _ h => exact ⟨[_], _, rfl, h⟩
  · rintro ⟨skipped, rest, rfl, h⟩
    exact .run skipped h

theorem matches_percent_percent : Matches ('%' :: '%' :: p) t ↔ Matches ('%' :: p) t := by
  rw [matches_percent]
  constructor
  · rintro ⟨skipped, rest, rfl, h⟩
    obtain ⟨more, last, rfl, hlast⟩ := matches_percent.mp h
    rw [← List.append_assoc]
    exact .run _ hlast
  · exact fun h => ⟨[], t, rfl, h⟩

theorem matches_underscore : Matches ('_' :: p) t ↔ ∃ c u, t = c :: u ∧ Matches p u := by
  constructor
  · intro h
    cases h with
    | one c h => exact ⟨c, _, rfl, h⟩
    | same _ h => exact ⟨_, _, rfl, h⟩
  · rintro ⟨c, u, rfl, h⟩
    exact .one c h

theorem matches_cons {c : Char} (hpercent : c ≠ '%') (hunderscore : c ≠ '_') :
    Matches (c :: p) t ↔ ∃ d u, t = d :: u ∧ sameChar c d = true ∧ Matches p u := by
  constructor
  · intro h
    cases h with
    | run => exact absurd rfl hpercent
    | one => exact absurd rfl hunderscore
    | same hc h => exact ⟨_, _, rfl, hc, h⟩
  · rintro ⟨d, u, rfl, hc, h⟩
    exact .same hc h

theorem someEnd_iff {α : Type} {test : List α → Bool} {t : List α} :
    someEnd test t = true ↔ ∃ skipped rest, t = skipped ++ rest ∧ test rest = true := by
  induction t with
  | nil => simp [someEnd]
  | cons a r ih =>
      rw [someEnd, Bool.or_eq_true, ih]
      constructor
      · rintro (h | ⟨skipped, rest, rfl, h⟩)
        · exact ⟨[], a :: r, rfl, h⟩
        · exact ⟨a :: skipped, rest, rfl, h⟩
      · rintro ⟨skipped, rest, heq, h⟩
        cases skipped with
        | nil => exact .inl (heq ▸ h)
        | cons b more =>
            obtain ⟨rfl, rfl⟩ := List.cons.inj heq
            exact .inr ⟨more, rest, rfl, h⟩

/-- The test finds out what a pattern describes. -/
theorem fits_iff : fits p t = true ↔ Matches p t := by
  -- the test looks at the first sign of the pattern, and so do the lemmas above
  fun_induction fits p t with
  | case1 t => rw [List.isEmpty_iff, matches_nil]
  | case2 t p ih => rw [ih, matches_percent_percent]
  | case3 t p _ ih =>
      rw [someEnd_iff, matches_percent]
      simp only [ih]
  | case4 p => simp [matches_underscore]
  | case5 p c u ih =>
      rw [ih, matches_underscore]
      simp
  | case6 c p _ hpercent hunderscore => simp [matches_cons hpercent hunderscore]
  | case7 c p _ hpercent hunderscore d u ih =>
      rw [Bool.and_eq_true, ih, matches_cons hpercent hunderscore]
      simp

/-- Whether a search for a target finds a name. -/
def Finds (target name : String) : Prop :=
  Matches (upToNull (containing target).toList) (upToNull name.toList)

instance decidableFinds (target name : String) : Decidable (Finds target name) :=
  decidable_of_iff _ fits_iff

theorem containing_toList (q : String) : (containing q).toList = '%' :: (q.toList ++ ['%']) := by
  rw [containing, String.toList_append, String.toList_append]
  rfl

/-- Every name is found by itself, whatever signs it is made of. -/
theorem finds_self (name : String) : Finds name name := by
  have hself : ∀ cs : List Char, Matches (upToNull (cs ++ ['%'])) (upToNull cs) := by
    intro cs
    induction cs with
    | nil => exact .run [] .nil
    | cons c rest ih =>
        rw [List.cons_append, upToNull, upToNull]
        split
        · exact .nil
        · exact .same (beq_self_eq_true _) ih
  have hpattern : upToNull (containing name).toList
      = '%' :: upToNull (name.toList ++ ['%']) := by
    rw [containing_toList]
    rfl
  rw [Finds, hpattern]
  exact .run [] (hself name.toList)

end Like

namespace Store

variable {st : Store} {target : String} {language project : Option String}

theorem fitsName_iff {name : String} : fitsName target name = true ↔ Like.Finds target name :=
  Like.fits_iff

/-- When a symbol of the target's name is there, a search gives it first exactly if it finds no
lesser name. -/
theorem name_eq_iff_of_search {hit : SymbolRow} {rest : List SymbolRow}
    (h : st.searchByName target language project = hit :: rest)
    (hnamed : ∃ s ∈ st.inScope language project, s.name = target) :
    hit.name = target ↔
      ∀ s ∈ st.inScope language project, Like.Finds target s.name → target ≤ s.name := by
  obtain ⟨hscope, hfits, hleast⟩ := searchByName_eq_cons h
  have hle : ∀ s ∈ st.inScope language project, Like.Finds target s.name → hit.name ≤ s.name :=
    fun s hs hfinds => (lexLe_searchKey.mp (hleast s hs (fitsName_iff.mpr hfinds))).1
  constructor
  · rintro rfl
    exact hle
  · intro hall
    obtain ⟨s, hs, rfl⟩ := hnamed
    have hupper : hit.name ≤ s.name := hle s hs (Like.finds_self s.name)
    have hlower : s.name ≤ hit.name := hall hit hscope (fitsName_iff.mp hfits)
    exact String.le_antisymm hupper hlower

end Store

namespace Indexer

/-- Whatever was done to a database, a run stores what is found in its files, except in those whose
symbols are too many to be removed. Each relationship comes from a relation with a target and ends
at a symbol. If a symbol of the project has the target's name, then the relationship ends at a
symbol of this name exactly if the target finds no lesser name among the symbols that are there. -/
theorem works_reach_named_iff (actions : List Action) (a : Analyzer) (model : Option Model)
    (v : Visit) :
    let x := ofAnalyzer a model
    ∀ w ∈ x.works v (.reached actions),
      let after := (x.outcome w).db
      let found := x.linksOf w.project w.language w.path w.file after
      after.store.relations = (if w.before.Fits w.project w.path then
          w.before.store.insertRelations found else w.before.store).relations ∧
      ∀ d ∈ found, ∃ p ∈ x.parse w.path w.file, ∃ r ∈ p.relations.getD [], ∃ target source hit,
        r.target? = some target ∧
        d = { project := v.project, source, target := .int hit.id, kind := r.kind
              data := some (Json.write (.object r.fields)) } ∧
        after.store.symbol? d.target = some hit ∧
        ((∃ s ∈ after.store.symbols, s.project = v.project ∧ s.name = target) →
          (hit.name = target ↔
            ∀ s ∈ after.store.inScope none (Store.filterOf v.project),
              Like.Finds target s.name → target ≤ s.name)) := by
  intro x w hw after found
  have hx : x.Lawful := ofAnalyzer_lawful a model
  have hbefore : w.before.Regular :=
    (regular_visit hx (Database.regular_reached actions) v).1 w hw
  have hafter : after.Regular := regular_outcome hx hbefore
  obtain ⟨hproject, -, -⟩ := of_mem_works hw
  refine ⟨?_, ?_⟩
  · by_cases hfits : w.before.Fits w.project w.path
    · rw [if_pos hfits]
      exact indexFile_relations hx w.language w.file (hbefore.sound.clearable.removeFile hfits)
    · rw [if_neg hfits, show after = w.before from
        congrArg FileOutcome.db (indexFile_crowded hbefore.sound.clearable hfits)]
  intro d hd
  -- a relationship is made of a relation and of the first symbol that a search for its target gives
  obtain ⟨-, p, hp, r, hr, id, -, hlink⟩ := mem_linksOf.mp hd
  obtain ⟨target, hit, rest, htarget, hsearch, -, hdata⟩ := link?_eq_some.mp hlink
  rw [hproject] at hsearch hdata
  have hmem : hit ∈ after.store.symbols :=
    (List.mem_filter.mp (Database.mem_of_searchByName hsearch List.mem_cons_self)).1
  refine ⟨p, hp, r, hr, target, .int id, hit, htarget, hdata, ?_, ?_⟩
  · rw [hdata]
    exact hafter.tidy.keyed.symbol?_eq_some_iff.mpr ⟨hmem, rfl⟩
  · rintro ⟨s, hs, hsproject, hname⟩
    -- the search went through, so that its result is that of the store
    have hstore : after.store.searchByName target none (Store.filterOf v.project)
        = hit :: rest := by
      rw [hafter.sound.searchByName_eq] at hsearch
      split at hsearch
      · exact absurd hsearch (by simp)
      · exact Except.ok.inj hsearch
    refine Store.name_eq_iff_of_search hstore ⟨s, List.mem_filter.mpr ⟨hs, ?_⟩, hname⟩
    rw [hsproject, Store.passes_filterOf]
    rfl

/-- A function and another one that calls it: all relationships end at the symbols that they
name. -/
theorem works_reach_named_iff_call :
    let x := ofAnalyzer functions none
    let v := Visit.ofFiles [("a.py", "def run(): pass\ndef use(): run()\n")]
    ∃ w ∈ x.works v (.reached []),
      let after := (x.outcome w).db
      after.store.relations.length = 3 ∧
        ∀ d ∈ x.linksOf w.project w.language w.path w.file after,
          ∃ r : Relation, ∃ target hit, r.target? = some target ∧
            d.data = some (Json.write (.object r.fields)) ∧
            after.store.symbol? d.target = some hit ∧ hit.name = target := by
  intro x v
  have hfacts : ∃ w ∈ x.works v (.reached []),
      (x.outcome w).db.store.relations.length = 3 ∧
        ∀ p ∈ x.parse w.path w.file, ∀ r ∈ p.relations.getD [], ∀ target ∈ r.target?.toList,
          (∃ s ∈ (x.outcome w).db.store.symbols, s.project = "p" ∧ s.name = target) ∧
          ∀ s ∈ (x.outcome w).db.store.inScope none (Store.filterOf "p"),
            Like.Finds target s.name → target ≤ s.name := by
    decide +kernel
  obtain ⟨w, hw, hcount, hnames⟩ := hfacts
  refine ⟨w, hw, hcount, ?_⟩
  intro d hd
  obtain ⟨-, hreach⟩ := works_reach_named_iff [] functions none _ w hw
  obtain ⟨p, hp, r, hr, target, source, hit, htarget, hdata, hfound, hiff⟩ := hreach d hd
  obtain ⟨hnamed, hleast⟩ := hnames p hp r hr target (by rw [htarget]; exact List.mem_cons_self)
  exact ⟨r, target, hit, htarget, congrArg RelationData.data hdata, hfound,
    (hiff hnamed).mpr hleast⟩

/-- A call of a function ends at another one whose name contains the name that is called. -/
theorem call_ends_at_longer_name :
    let x := ofAnalyzer functions none
    let v := Visit.ofFiles [("a.py", "def prerun(): pass\ndef run(): pass\ndef use(): run()\n")]
    let after := x.visit {} v
    (∃ p ∈ x.parse "a.py" (v.read? "a.py"), p.finding.name = "use" ∧
        ∃ r ∈ p.relations.getD [], r.kind = "calls" ∧ r.target? = some "run") ∧
      (∃ s ∈ after.store.symbols, s.project = "p" ∧ s.name = "run") ∧
      ∃ shown, after.arrows "p" = .ok shown ∧ ⟨"use", "a.py", "calls", "prerun", "a.py"⟩ ∈ shown ∧
        ⟨"use", "a.py", "calls", "run", "a.py"⟩ ∉ shown := by
  intro x v after
  have hx : x.Lawful := ofAnalyzer_lawful functions none
  have hlaid : x.Laid "p" (x.scanLanguage v.workspace.tree (.parse "."))
      (x.scanOrder v.workspace.tree (.parse ".")) after.store :=
    fullScan_laid hx rfl rfl (by decide +kernel)
  have hsound : after.Sound := Database.sound_empty.mono (run_sameFaults hx _ _ _ _)
  -- what is shown is told without a search, one evaluation for all
  have hfacts : (∃ p ∈ x.parse "a.py" (v.read? "a.py"), p.finding.name = "use" ∧
        ∃ r ∈ p.relations.getD [], r.kind = "calls" ∧ r.target? = some "run") ∧
      ("run", "a.py") ∈ x.namesOf (x.scanOrder v.workspace.tree (.parse ".")) ∧
      x.Finds (x.scanLanguage v.workspace.tree (.parse "."))
        (x.scanOrder v.workspace.tree (.parse ".")) ⟨"use", "a.py", "calls", "prerun", "a.py"⟩ ∧
      ¬ x.Finds (x.scanLanguage v.workspace.tree (.parse "."))
        (x.scanOrder v.workspace.tree (.parse ".")) ⟨"use", "a.py", "calls", "run", "a.py"⟩ := by
    decide +kernel
  obtain ⟨hrelation, hname, hprerun, hrun⟩ := hfacts
  obtain ⟨s, hs, hsname, -⟩ := (hlaid.knows.names _).mp hname
  refine ⟨hrelation, ⟨s, hs, hlaid.knows.own s hs, hsname⟩, _, hsound.arrows_eq "p", ?_, ?_⟩
  · exact (hlaid.arrows _).mpr hprerun
  · exact fun h => hrun ((hlaid.arrows _).mp h)

end Indexer

end SymbolAtlas
