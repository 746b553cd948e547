/-
  SymbolAtlas.Proofs.Owners: the symbols under which relations are filed.

  A call is filed under the first symbol that lies on its line (`CallRule.assign_eq`), and a header
  under the name that it defines. Where the symbols are the ones that the rules themselves find, a
  line belongs to the first rule that finds a name on it (`firstOn_findSymbols`), and every owner is
  the name of such a symbol, so that attaching relations to symbols by their names loses none.
-/

import SymbolAtlas.Proofs.Attributes
import SymbolAtlas.Proofs.DefinitionNames
import SymbolAtlas.Proofs.Sources

namespace SymbolAtlas

/-! ## The first symbol on a line -/

namespace Outline

variable {o : Outline} {outlines : List Outline}

/-- Whether an outline says what a symbol is called, where it begins and where it ends. -/
structure Placed (o : Outline) : Prop where
  name : o.name.isSome = true
  first : o.first.isSome = true
  last : o.last.isSome = true

/-- Whether a symbol lies on a line. -/
def liesOn (o : Outline) (line : Nat) : Bool :=
  o.first.any (· ≤ (line : Int)) && o.last.any ((line : Int) ≤ ·)

/-- The name of the first symbol that lies on a line. -/
def firstOn (line : Nat) (outlines : List Outline) : Option String :=
  (outlines.find? (·.liesOn line)).bind (·.name)

theorem Placed.covers_eq (h : o.Placed) (line : Nat) : o.covers line = .ok (o.liesOn line) := by
  obtain ⟨first, hfirst⟩ := Option.isSome_iff_exists.mp h.first
  obtain ⟨last, hlast⟩ := Option.isSome_iff_exists.mp h.last
  have hgetFirst : o.getFirst = .ok first := by rw [getFirst, hfirst, require]
  have hgetLast : o.getLast = .ok last := by rw [getLast, hlast, require]
  rw [covers, hgetFirst, hgetLast, liesOn, hfirst, hlast]
  show (if first ≤ (line : Int) then Except.ok (decide ((line : Int) ≤ last)) else .ok false) = _
  by_cases hle : first ≤ (line : Int)
  · simp [hle]
  · simp [hle]

theorem ownerAt_eq (h : ∀ o ∈ outlines, o.Placed) (line : Nat) :
    ownerAt line outlines = .ok (firstOn line outlines) := by
  induction outlines with
  | nil => rfl
  | cons o rest ih =>
      obtain ⟨ho, hrest⟩ := List.forall_mem_cons.mp h
      rw [ownerAt, ho.covers_eq, firstOn, List.find?_cons]
      cases o.liesOn line with
      | false => exact ih hrest
      | true =>
          obtain ⟨name, hname⟩ := Option.isSome_iff_exists.mp ho.name
          have hgetName : o.getName = .ok name := by rw [getName, hname, require]
          show (o.getName >>= fun n => Except.ok (some n)) = .ok o.name
          rw [hgetName, hname]
          rfl

end Outline

/-! ## Filing -/

namespace CallRule

variable {rule : CallRule} {outlines : List Outline}

/-- A call with the owner of its line, if the line has one. -/
def filed (rule : CallRule) (outlines : List Outline) (site : Nat × String) :
    Option (String × Relation) :=
  (Outline.firstOn site.1 outlines).map fun owner => (owner, rule.relation site.1 site.2)

theorem assign_eq (h : ∀ o ∈ outlines, o.Placed) (sites : List (Nat × String)) :
    rule.assign outlines sites = .ok (sites.filterMap (rule.filed outlines)) := by
  induction sites with
  | nil => rfl
  | cons site rest ih =>
      obtain ⟨n, word⟩ := site
      rw [assign, Outline.ownerAt_eq h, List.filterMap_cons, filed]
      cases Outline.firstOn n outlines with
      | none => exact ih
      | some owner =>
          show (rule.assign outlines rest >>= fun more =>
            Except.ok ((owner, rule.relation n word) :: more)) = _
          rw [ih]
          rfl

/-- What is filed under a name are the calls on the lines that belong to it. -/
theorem filed_under (name : String) (sites : List (Nat × String)) :
    ((sites.filterMap (rule.filed outlines)).filter (·.1 == name)).map (·.2) =
      (sites.filter fun site => Outline.firstOn site.1 outlines == some name).map
        fun site => rule.relation site.1 site.2 := by
  induction sites with
  | nil => rfl
  | cons site rest ih =>
      cases howner : Outline.firstOn site.1 outlines with
      | none =>
          have hfiled : rule.filed outlines site = none := by rw [filed, howner]; rfl
          rw [List.filterMap_cons_none hfiled, List.filter_cons_of_neg (by simp [howner]), ih]
      | some owner =>
          have hfiled : rule.filed outlines site = some (owner, rule.relation site.1 site.2) := by
            rw [filed, howner]; rfl
          rw [List.filterMap_cons_some hfiled]
          by_cases hname : owner = name
          · rw [List.filter_cons_of_pos (by simp [hname]),
              List.filter_cons_of_pos (by simp [howner, hname]), List.map_cons, List.map_cons, ih]
          · rw [List.filter_cons_of_neg (by simp [hname]),
              List.filter_cons_of_neg (by simp [howner, hname]), ih]

end CallRule

theorem kind_of_mem_headerRelations {rules : LineRules} (h : rules.HeadersStateNoCall)
    {lines : List String} {e : String × Relation}
    (he : e ∈ headerRelations rules.headers lines) : e.2.kind ≠ "calls" := by
  obtain ⟨l, -, he⟩ := List.mem_flatMap.mp he
  obtain ⟨rule, hrule, hon⟩ := List.mem_filterMap.mp he
  obtain ⟨m, -, rfl⟩ := Option.map_eq_some_iff.mp hon
  exact h rule hrule _

namespace LineRules

variable {rules : LineRules} {outlines : List Outline} {lines : List String}

theorem findRelations_eq (h : ∀ o ∈ outlines, o.Placed) :
    rules.findRelations outlines lines =
      .ok ⟨[], (rules.calls.sites lines).filterMap (rules.calls.filed outlines) ++
        headerRelations rules.headers lines⟩ := by
  rw [findRelations, CallRule.relations, CallRule.assign_eq h]
  rfl

end LineRules

theorem Dialect.findRelations_of_lineRules? {d : Dialect} {rules : LineRules}
    (h : d.lineRules? = some rules) (content : String) (outlines : List Outline) :
    d.findRelations content outlines = rules.findRelations outlines (Text.lines content) := by
  unfold findRelations
  simp only [h]

/-! ## Symbols of the rules -/

/-- Looking through numbered lines for one number finds what the line with this number gives. -/
theorem findSome?_zipIdx {α : Type} (F : String → Option α) {lines : List String} {k n : Nat}
    {line : String} (h : (line, n) ∈ lines.zipIdx k) :
    ((lines.zipIdx k).findSome? fun l => if l.2 = n then F l.1 else none) = F line := by
  cases hfound : (lines.zipIdx k).findSome? fun l => if l.2 = n then F l.1 else none with
  | none =>
      have hnone := List.findSome?_eq_none_iff.mp hfound (line, n) h
      rw [if_pos rfl] at hnone
      exact hnone.symm
  | some a =>
      obtain ⟨⟨line', n'⟩, hl, heq⟩ := List.exists_of_findSome?_eq_some hfound
      split at heq
      next hn =>
        obtain rfl : n' = n := hn
        rw [line_eq_of_mem_zipIdx h hl]
        exact heq.symm
      next => exact absurd heq (by simp)

theorem SymbolRule.find?_onLine (rule : SymbolRule) (src : Source) (n : Nat) (l : String × Nat) :
    (rule.onLine src l.2 l.1).find? (·.covers n) =
      if l.2 = n then (rule.nameOn? l.1).map fun name =>
        src.symbolOn n name rule.kind (Text.strip l.1) else none := by
  rw [onLine]
  cases rule.nameOn? l.1 with
  | none => simp
  | some name =>
      have hcovers : (src.symbolOn l.2 name rule.kind (Text.strip l.1)).covers n =
          decide (l.2 = n) := by
        rw [Bool.eq_iff_iff, Symbol.covers, Bool.and_eq_true, decide_eq_true_iff,
          decide_eq_true_iff, decide_eq_true_iff]
        show (l.2 : Int) ≤ n ∧ (n : Int) ≤ l.2 ↔ l.2 = n
        omega
      rw [Option.toList_some, List.map_singleton, List.find?_singleton, hcovers]
      by_cases hn : l.2 = n
      · simp [hn]
      · simp [hn]

/-- Among the symbols that rules find, a line belongs to the first rule that finds a name on it. -/
theorem LineRules.firstOn_findSymbols (rules : LineRules) (src : Source) {lines : List String}
    {line : String} {n : Nat} (h : (line, n) ∈ lines.zipIdx 1) :
    Outline.firstOn n ((rules.findSymbols src lines).map (·.outline)) =
      rules.symbols.findSome? (·.nameOn? line) := by
  have hfind : (symbolsByRules rules.symbols src lines).find? (·.covers n) =
      rules.symbols.findSome? fun rule => (rule.nameOn? line).map fun name =>
        src.symbolOn n name rule.kind (Text.strip line) := by
    rw [symbolsByRules, List.find?_flatMap]
    congr 1
    funext rule
    rw [scanLines, List.find?_flatMap]
    simp only [SymbolRule.find?_onLine]
    exact findSome?_zipIdx (fun line => (rule.nameOn? line).map fun name =>
      src.symbolOn n name rule.kind (Text.strip line)) h
  have hnames : Outline.firstOn n ((rules.findSymbols src lines).map (·.outline)) =
      ((symbolsByRules rules.symbols src lines).find? (·.covers n)).map (·.name) := by
    rw [Outline.firstOn, findSymbols, List.map_map, List.find?_map]
    show (((symbolsByRules rules.symbols src lines).find? (·.covers n)).map fun s =>
      (Finding.symbol s).outline).bind (·.name) = _
    cases (symbolsByRules rules.symbols src lines).find? (·.covers n) with
    | none => rfl
    | some s => rfl
  rw [hnames, hfind, List.map_findSome?]
  congr 1
  funext rule
  rw [Function.comp_apply, Option.map_map]
  exact Option.map_id_apply

/-! ## Names of owners -/

theorem LineRules.placed_findSymbols (rules : LineRules) (src : Source) (lines : List String) :
    ∀ o ∈ (rules.findSymbols src lines).map (·.outline), o.Placed := by
  intro o ho
  have hcomplete := outlines_complete _ o ho
  exact ⟨hcomplete.name, hcomplete.first, hcomplete.last⟩

/-- What relations are filed under are names of symbols that were found. -/
theorem LineRules.exists_of_mem_owners {rules : LineRules} (hdefine : rules.HeadersDefine)
    (src : Source) {lines : List String} {rs : Relations}
    (h : rules.findRelations ((rules.findSymbols src lines).map (·.outline)) lines = .ok rs)
    {owner : String} (howner : owner ∈ rs.owners) :
    ∃ f ∈ rules.findSymbols src lines, f.name = owner := by
  have hentry : ∃ r, (owner, r) ∈ rs.entries := by
    rw [findRelations_eq (rules.placed_findSymbols src lines)] at h
    obtain rfl := Except.ok.inj h
    rw [Relations.owners, List.mem_eraseDups, List.nil_append] at howner
    obtain ⟨e, he, rfl⟩ := List.mem_map.mp howner
    exact ⟨e.2, he⟩
  obtain ⟨r, hr⟩ := hentry
  rcases mem_findRelations h hr with ⟨n, word, -, hat⟩ | ⟨rule, hrule, l, hl, hon⟩
  · obtain ⟨s, hs, hname, -⟩ := exists_symbol_of_ownerAt hat
    exact ⟨.symbol s, hs, hname⟩
  · obtain ⟨s, hs, hname, -⟩ := exists_symbol_of_header hdefine src hrule hl hon
    exact ⟨.symbol s, hs, hname⟩

theorem Dialect.reads_of_lineRules? {d : Dialect} {rules : LineRules}
    (h : d.lineRules? = some rules) : d.reads = true := by
  cases d with
  | bare | catalog | code => exact absurd h (by simp [lineRules?])
  | _ => rfl

namespace Analyzer

/-- A file in a supported language of which nothing was captured, so that a dialect reads its
symbols off its lines, and looks for their relations. -/
structure ReadsLines (a : Analyzer) (d : Dialect) (src : Source) (bytes : ByteArray)
    (content : String) : Prop where
  decoded : Text.decode? bytes = some content
  language : a.dialect.languageOf? (.parse src.file) = some src.language
  supports : a.supports src.language = true
  nothing : a.captured src content = []
  delegate : a.dialect.delegate? a.registry src.language = some d
  wants : a.dialect.wantsRelations a.registry src.language = true

/-- Each symbol gets the relations that are filed under its name. -/
theorem ReadsLines.parseFile_eq {a : Analyzer} {d : Dialect} {src : Source} {bytes : ByteArray}
    {content : String} (h : a.ReadsLines d src bytes content) (hreads : d.reads = true)
    {rs : Relations} (hrs : d.findRelations content
      ((d.findSymbols src (Text.lines content)).map (·.outline)) = .ok rs) :
    a.parseFile src.file (some bytes) =
      (d.findSymbols src (Text.lines content)).map fun f => ⟨f, some (rs.of f.name)⟩ := by
  have hshell : a.dialect ≠ .shell := by
    intro hshell
    have hwants := h.wants
    rw [hshell] at hwants
    exact Bool.false_ne_true hwants
  have hfindings : a.findings src content = d.findSymbols src (Text.lines content) := by
    simp only [findings, h.nothing, readLines, h.delegate, hreads, List.isEmpty_nil, if_true,
      Option.getD_some]
  have hrelations : a.relations? src.language content
      (d.findSymbols src (Text.lines content)) = some rs := by
    simp only [relations?, h.wants, h.delegate, hreads, if_true, hrs, Except.toOption]
  rw [parseFile, if_neg hshell, Option.bind_some, h.decoded, h.language]
  simp only [h.supports, if_true, parseText, hfindings, hrelations]

end Analyzer

/-- No relation is lost by its name: every owner is the name of a symbol that the dialect finds, and
when a file is read by the dialect, some symbol of that name has all relations of the owner. -/
theorem Dialect.owners_found {d : Dialect}
    (hd : d ∈ [python, swift, javascript, java, cpp, csharp, go]) (src : Source)
    (content : String) :
    ∃ rs, d.findRelations content
        ((d.findSymbols src (Text.lines content)).map (·.outline)) = .ok rs ∧
      (∀ owner ∈ rs.owners, ∃ f ∈ d.findSymbols src (Text.lines content), f.name = owner) ∧
      ∀ (a : Analyzer) (bytes : ByteArray), a.ReadsLines d src bytes content →
        ∀ owner ∈ rs.owners, ∃ p ∈ a.parseFile src.file (some bytes),
          p.finding.name = owner ∧ p.relations = some (rs.of owner) := by
  obtain ⟨rules, hrules, hrust⟩ : ∃ rules, d.lineRules? = some rules ∧ d ≠ rust := by
    simp only [List.mem_cons, List.not_mem_nil, or_false] at hd
    rcases hd with rfl | rfl | rfl | rfl | rfl | rfl | rfl
    all_goals exact ⟨_, rfl, nofun⟩
  have hfound := findSymbols_of_lineRules? hrules src (Text.lines content)
  obtain ⟨rs, hrs⟩ : ∃ rs, d.findRelations content
      ((d.findSymbols src (Text.lines content)).map (·.outline)) = .ok rs := by
    rw [hfound, findRelations_of_lineRules? hrules]
    exact ⟨_, LineRules.findRelations_eq (rules.placed_findSymbols src _)⟩
  have hnames : ∀ owner ∈ rs.owners,
      ∃ f ∈ d.findSymbols src (Text.lines content), f.name = owner := by
    intro owner howner
    rw [findRelations_of_lineRules? hrules, hfound] at hrs
    rw [hfound]
    exact LineRules.exists_of_mem_owners (headersDefine_of_lineRules? hrules hrust) src hrs howner
  refine ⟨rs, hrs, hnames, ?_⟩
  intro a bytes ha owner howner
  obtain ⟨f, hf, rfl⟩ := hnames owner howner
  rw [ha.parseFile_eq (reads_of_lineRules? hrules) hrs]
  exact ⟨_, List.mem_map_of_mem hf, rfl, rfl⟩

/-- A class with a parent: both the header and what looks like a call in it are kept. -/
theorem Dialect.owners_found_child :
    ∃ p ∈ (Analyzer.lineReader "python").parseFile "app.py" (some "class A(B): pass\n".toUTF8),
      p.finding.name = "A" ∧ p.relations =
        some [.link "calls" "A" "function" 1, .link "inherits" "B" "class" 1] := by
  have hfile : (Analyzer.lineReader "python").ReadsLines .python ⟨"app.py", "python"⟩
      "class A(B): pass\n".toUTF8 "class A(B): pass\n" :=
    ⟨by decide +kernel, by decide +kernel, by decide, rfl, by decide +kernel, by decide +kernel⟩
  obtain ⟨rs, hrs, -, hkept⟩ :=
    owners_found (d := python) (by decide) ⟨"app.py", "python"⟩ "class A(B): pass\n"
  have hcomputed : python.findRelations "class A(B): pass\n"
      ((python.findSymbols ⟨"app.py", "python"⟩ (Text.lines "class A(B): pass\n")).map
        (·.outline)) = .ok ⟨[], [("A", .link "calls" "A" "function" 1),
          ("A", .link "inherits" "B" "class" 1)]⟩ := by decide +kernel
  obtain rfl := Except.ok.inj (hrs.symm.trans hcomputed)
  exact hkept _ _ hfile "A" (by decide)

end SymbolAtlas
