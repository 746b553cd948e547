/-
  SymbolAtlas.Proofs.Sources: the symbols at which relationships start.

  A call is filed under the first symbol that covers its line, and a header under the name that it
  defines, which a rule finds on the same line too (`headersDefine_of_lineRules?`). What is stored
  starts at the last symbol of that name in the file. So the line of a relationship lies in some
  symbol of the name at which it starts, and in that very symbol when the name has only one place
  in the file. The headers of Rust are filed under the type that implements a trait, wherever that
  is defined.
-/

import SymbolAtlas.Proofs.Links
import SymbolAtlas.Proofs.Matching
import SymbolAtlas.Proofs.Rework

namespace SymbolAtlas

open Pattern Declarations

/-! ## Headers -/

/-- Whether a pattern finds the name that a keyword defines, where the keyword comes first. -/
def Pattern.NamesAfter (p : Pattern) (w : String) : Prop :=
  ∀ x z, ((defined w).ends x).head? = some z → (p.ends x).head? = some z

/-- A header that begins with a name which a keyword defines, and goes on after the word. -/
structure HeaderRule.Opens (h : HeaderRule) (w : String) : Prop where
  owner_eq : h.owner = 1
  goesOn : ∃ q, LeavesWord q ∧ q.remembers 1 = false ∧
    ∀ x, h.pattern.ends x = (defined w ++ q).ends x

/-- The name that such a header relates is the one that is found on its line. -/
theorem HeaderRule.Opens.nameOn? {h : HeaderRule} {w kind : String} {p : Pattern}
    (hopens : h.Opens w) (hfinds : p.NamesAfter w) {n : Nat} {line owner : String} {r : Relation}
    (hon : h.onLine n line = some (owner, r)) :
    (SymbolRule.of kind p).nameOn? line = some owner := by
  obtain ⟨howner, q, hleaves, hq, hpattern⟩ := hopens
  obtain ⟨m, hm, heq⟩ := Option.map_eq_some_iff.mp hon
  rw [matchStart?, matchAt?_eq, hpattern] at hm
  obtain ⟨y, hy, rfl⟩ := Option.map_eq_some_iff.mp hm
  obtain ⟨z, hz, hgroup⟩ := group?_of_defined hleaves hq (List.mem_of_mem_head? hy)
  have hmatch : p.matchStart? (Text.strip line)
      = some (toMatch (.start (Text.strip line).toList) z) := by
    rw [matchStart?, matchAt?_eq, hfinds _ z hz, Option.map_some]
  have hname : (toMatch (.start (Text.strip line).toList) z).group 1 = owner := by
    rw [← (Prod.mk.inj heq).1, howner, Match.group, Match.group, group?_toMatch, group?_toMatch,
      hgroup]
  simp only [SymbolRule.nameOn?, SymbolRule.of, Bool.false_eq_true, if_false, hmatch, hname]
  rfl

/-- Whether what headers relate is defined on their lines. -/
def LineRules.HeadersDefine (rules : LineRules) : Prop :=
  ∀ h ∈ rules.headers, ∀ n line owner r, h.onLine n line = some (owner, r) →
    ∃ rule ∈ rules.symbols, rule.nameOn? line = some owner

theorem LineRules.headersDefine_of_opens {rules : LineRules} {w kind : String} {p : Pattern}
    (hrule : SymbolRule.of kind p ∈ rules.symbols) (hfinds : p.NamesAfter w)
    (hopens : ∀ h ∈ rules.headers, h.Opens w) : rules.HeadersDefine := by
  intro h hh n line owner r hon
  exact ⟨_, hrule, (hopens h hh).nameOn? hfinds hon⟩

/-! ## The rules of the languages -/

theorem namesAfter_defined (w : String) : (defined w).NamesAfter w := fun _ _ h => h

/-- Modifiers that may be missing do not stand in the way of a keyword that comes first. -/
theorem namesAfter_optKeywords {ws : List String}
    (hws : ∀ v ∈ ws, v.toList.head?.any (· != 'c') = true) :
    (optKeywords ws ++ defined "class").NamesAfter "class" := by
  intro x z h
  have hx := head?_rest_of_defined (w := "class") rfl (List.mem_of_mem_head? h)
  rw [ends_append_of_singleton (ends_optKeywords hx hws)]
  exact h

theorem namesAfter_csharpClass {ws : List String}
    (hws : ∀ v ∈ ws, v.toList.head?.any (· != 'c') = true) :
    (csharpAccess ++ optKeywords ws ++ defined "class").NamesAfter "class" := by
  intro x z h
  have hx := head?_rest_of_defined (w := "class") rfl (List.mem_of_mem_head? h)
  have hblank : x.sees .blank = false := by
    rw [Cursor.sees, hx]
    decide
  have haccess : csharpAccess.ends x = [x] := by
    have hany : (anyOf ["public", "private", "protected", "internal"]).ends x = [] :=
      ends_anyOf_eq_nil hx (by decide)
    rw [csharpAccess, ends_append_of_singleton (ends_opt_of_nil hany)]
    exact ends_blanks hblank
  rw [ends_append_assoc, ends_append_of_singleton haccess,
    ends_append_of_singleton (ends_optKeywords hx hws)]
  exact h

theorem namesAfter_cppClass :
    (anyOf ["class", "struct"] ++ gap ++ name 1).NamesAfter "class" := by
  intro x z h
  obtain ⟨zs, hzs⟩ := List.head?_eq_some_iff.mp h
  show ((((lit "class").ends x ++ (lit "struct").ends x).flatMap gap.ends).flatMap
    (name 1).ends).head? = some z
  have hclass : (((lit "class").ends x).flatMap gap.ends).flatMap (name 1).ends = z :: zs := hzs
  rw [List.flatMap_append, List.flatMap_append, hclass]
  rfl

/-- A header that goes on with a sign that is no word character, after blanks or none. -/
theorem HeaderRule.Opens.of_sign {h : HeaderRule} {w v : String} (howner : h.owner = 1)
    (hv : v.toList.head?.any (fun c => !Text.isWord c) = true) (q : Pattern)
    (hq : q.remembers 1 = false)
    (hpattern : ∀ x, h.pattern.ends x = (defined w ++ (blanks ++ (lit v ++ q))).ends x) :
    h.Opens w :=
  ⟨howner, _, leavesWord_blanks hv q, hq, hpattern⟩

/-- A header that goes on with blanks and a keyword. -/
theorem HeaderRule.Opens.of_gap {h : HeaderRule} {w : String} (howner : h.owner = 1) (q : Pattern)
    (hq : q.remembers 1 = false)
    (hpattern : ∀ x, h.pattern.ends x = (defined w ++ (gap ++ q)).ends x) : h.Opens w :=
  ⟨howner, _, leavesWord_gap q, hq, hpattern⟩

theorem python_headersDefine : python.HeadersDefine := by
  refine LineRules.headersDefine_of_opens (List.mem_cons_of_mem _ List.mem_cons_self)
    (namesAfter_defined "class") ?_
  intro h hh
  obtain rfl := List.mem_singleton.mp hh
  refine .of_sign rfl (v := "(") (by decide) (capture 2 (plus (.noneOf ")")) ++ lit ")") rfl ?_
  intro x
  simp only [HeaderRule.inherits, ends_append_assoc]

theorem swift_headersDefine : swift.HeadersDefine := by
  refine LineRules.headersDefine_of_opens (List.mem_cons_of_mem _ List.mem_cons_self)
    (namesAfter_defined "class") ?_
  intro h hh
  rcases List.mem_cons.mp hh with rfl | hh
  · refine .of_sign rfl (v := ":") (by decide) (blanks ++ name 2) rfl ?_
    intro x
    simp only [HeaderRule.inherits, ends_append_assoc]
  · obtain rfl := List.mem_singleton.mp hh
    refine .of_sign rfl (v := ",") (by decide) (blanks ++ name 2) rfl ?_
    intro x
    simp only [ends_append_assoc]

theorem javascript_headersDefine : javascript.HeadersDefine := by
  refine LineRules.headersDefine_of_opens
    (List.mem_cons_of_mem _ (List.mem_cons_of_mem _ List.mem_cons_self))
    (namesAfter_defined "class") ?_
  intro h hh
  obtain rfl := List.mem_singleton.mp hh
  refine .of_gap rfl (keyword "extends" ++ name 2) rfl ?_
  intro x
  simp only [HeaderRule.inherits, ends_append_assoc]

theorem java_headersDefine : java.HeadersDefine := by
  refine LineRules.headersDefine_of_opens (List.mem_cons_of_mem _ List.mem_cons_self)
    (namesAfter_optKeywords (by decide)) ?_
  intro h hh
  rcases List.mem_cons.mp hh with rfl | hh
  · refine .of_gap rfl (keyword "extends" ++ name 2) rfl ?_
    intro x
    simp only [HeaderRule.inherits, ends_append_assoc]
  · obtain rfl := List.mem_singleton.mp hh
    refine .of_gap rfl (keyword "implements" ++ name 2) rfl ?_
    intro x
    simp only [ends_append_assoc]

theorem cpp_headersDefine : cpp.HeadersDefine := by
  refine LineRules.headersDefine_of_opens (List.mem_cons_of_mem _ List.mem_cons_self)
    namesAfter_cppClass ?_
  intro h hh
  obtain rfl := List.mem_singleton.mp hh
  refine .of_sign rfl (v := ":") (by decide) (blanks ++ (optKeyword "public" ++ name 2)) rfl ?_
  intro x
  simp only [HeaderRule.inherits, ends_append_assoc]

theorem csharp_headersDefine : csharp.HeadersDefine := by
  refine LineRules.headersDefine_of_opens (List.mem_cons_of_mem _ List.mem_cons_self)
    (namesAfter_csharpClass (by decide)) ?_
  intro h hh
  obtain rfl := List.mem_singleton.mp hh
  refine .of_sign rfl (v := ":") (by decide) (blanks ++ name 2) rfl ?_
  intro x
  simp only [ends_append_assoc]

theorem LineRules.headersDefine_of_nil {rules : LineRules} (h : rules.headers = []) :
    rules.HeadersDefine := by
  intro r hr
  rw [h] at hr
  exact absurd hr List.not_mem_nil

/-- Apart from Rust, what a header relates is defined on its line. -/
theorem headersDefine_of_lineRules? {d : Dialect} {rules : LineRules}
    (h : d.lineRules? = some rules) (hd : d ≠ .rust) : rules.HeadersDefine := by
  rw [Dialect.lineRules?.eq_def] at h
  split at h
  case h_8 => exact absurd rfl hd
  case h_9 => exact absurd h (by simp)
  all_goals obtain rfl := Option.some.inj h
  · exact python_headersDefine
  · exact swift_headersDefine
  · exact javascript_headersDefine
  · exact java_headersDefine
  · exact cpp_headersDefine
  · exact csharp_headersDefine
  · exact LineRules.headersDefine_of_nil rfl

/-- Whether no header states a call. -/
def LineRules.HeadersStateNoCall (rules : LineRules) : Prop :=
  ∀ rule ∈ rules.headers, ∀ target, (rule.sort target).1 ≠ "calls"

theorem headersStateNoCall_of_lineRules? {d : Dialect} {rules : LineRules}
    (h : d.lineRules? = some rules) : rules.HeadersStateNoCall := by
  intro rule hrule target
  rw [Dialect.lineRules?.eq_def] at h
  split at h
  case h_9 => exact absurd h (by simp)
  all_goals
    obtain rfl := Option.some.inj h
    simp only [python, swift, javascript, java, cpp, csharp, go, rust, HeaderRule.inherits,
      List.mem_cons, List.not_mem_nil, or_false] at hrule
  case h_2 | h_4 =>
    rcases hrule with rfl | rfl
    all_goals simp
  case h_6 =>
    -- by the name of the target
    subst hrule
    dsimp only
    split
    all_goals simp
  all_goals
    subst hrule
    simp

/-! ## Calls -/

/-- The owner of a line is a symbol that covers it. -/
theorem exists_of_ownerAt {line : Int} {outlines : List Outline} {owner : String}
    (h : ownerAt line outlines = .ok (some owner)) :
    ∃ o ∈ outlines, o.covers line = .ok true ∧ o.name = some owner := by
  induction outlines with
  | nil => exact absurd (Except.ok.inj h) (by simp)
  | cons o rest ih =>
      rw [ownerAt, Outline.bind_eq_ok] at h
      obtain ⟨covers, hcovers, h⟩ := h
      cases covers with
      | false =>
          obtain ⟨o', ho', hspec⟩ := ih h
          exact ⟨o', List.mem_cons_of_mem o ho', hspec⟩
      | true =>
          obtain ⟨n, hn, heq⟩ := Outline.bind_eq_ok.mp h
          obtain rfl : n = owner := Option.some.inj (Except.ok.inj heq)
          refine ⟨o, List.mem_cons_self, hcovers, ?_⟩
          rw [Outline.getName] at hn
          cases hname : o.name with
          | none =>
              rw [hname] at hn
              exact absurd hn (by simp [Outline.require])
          | some m =>
              rw [hname] at hn
              exact congrArg some (Except.ok.inj hn)

/-- Whether a symbol lies on a line. -/
def Symbol.covers (s : Symbol) (line : Int) : Bool := s.first ≤ line && line ≤ s.last

theorem exists_symbol_of_ownerAt {line : Int} {found : List Finding} {owner : String}
    (h : ownerAt line (found.map (·.outline)) = .ok (some owner)) :
    ∃ s, .symbol s ∈ found ∧ s.name = owner ∧ s.covers line = true := by
  obtain ⟨o, ho, hcovers, hname⟩ := exists_of_ownerAt h
  obtain ⟨f, hf, rfl⟩ := List.mem_map.mp ho
  rw [Outline.covers, Outline.bind_eq_ok] at hcovers
  obtain ⟨first, hfirst, hcovers⟩ := hcovers
  cases f with
  | mention m => exact absurd hfirst (by simp [Finding.outline, Outline.getFirst, Outline.require])
  | symbol s =>
      obtain rfl : s.first = first := Except.ok.inj hfirst
      refine ⟨s, hf, Option.some.inj hname, ?_⟩
      split at hcovers
      next hle =>
        rw [Symbol.covers, Bool.and_eq_true]
        exact ⟨decide_eq_true hle, Except.ok.inj hcovers⟩
      next => exact absurd (Except.ok.inj hcovers) (by decide)

/-- A call is filed under the owner of its line. -/
theorem CallRule.mem_assign {rule : CallRule} {outlines : List Outline}
    {sites : List (Nat × String)} {entries : List (String × Relation)}
    (h : rule.assign outlines sites = .ok entries) {owner : String} {r : Relation}
    (hr : (owner, r) ∈ entries) :
    ∃ n word, r = rule.relation n word ∧ ownerAt n outlines = .ok (some owner) := by
  induction sites generalizing entries with
  | nil =>
      obtain rfl := Except.ok.inj h
      exact absurd hr List.not_mem_nil
  | cons site rest ih =>
      obtain ⟨n, word⟩ := site
      rw [assign, Outline.bind_eq_ok] at h
      obtain ⟨found, howner, h⟩ := h
      cases found with
      | none => exact ih h hr
      | some o =>
          obtain ⟨more, hrest, heq⟩ := Outline.bind_eq_ok.mp h
          obtain rfl := Except.ok.inj heq
          rcases List.mem_cons.mp hr with heq | hmore
          · obtain ⟨rfl, rfl⟩ := Prod.mk.inj heq
            exact ⟨n, word, rfl, howner⟩
          · exact ih hrest hmore

/-- The relations of line rules are calls, filed under the owners of their lines, and headers. -/
theorem LineRules.mem_findRelations {rules : LineRules} {outlines : List Outline}
    {lines : List String} {rs : Relations} (h : rules.findRelations outlines lines = .ok rs)
    {owner : String} {r : Relation} (hr : (owner, r) ∈ rs.entries) :
    (∃ n word, r = rules.calls.relation n word ∧ ownerAt n outlines = .ok (some owner)) ∨
      ∃ rule ∈ rules.headers, ∃ l ∈ lines.zipIdx 1, rule.onLine l.2 l.1 = some (owner, r) := by
  obtain ⟨calls, hcalls, heq⟩ := Outline.bind_eq_ok.mp h
  obtain rfl := Except.ok.inj heq
  rcases List.mem_append.mp hr with hcall | hheader
  · exact .inl (CallRule.mem_assign hcalls hcall)
  · obtain ⟨l, hl, hmem⟩ := List.mem_flatMap.mp hheader
    obtain ⟨rule, hrule, hon⟩ := List.mem_filterMap.mp hmem
    exact .inr ⟨rule, hrule, l, hl, hon⟩

/-- A header that defines its name lies in the symbol that is found on its line. -/
theorem LineRules.exists_symbol_of_header {rules : LineRules} (hdefine : rules.HeadersDefine)
    (src : Source) {lines : List String} {rule : HeaderRule} (hrule : rule ∈ rules.headers)
    {l : String × Nat} (hl : l ∈ lines.zipIdx 1) {owner : String} {r : Relation}
    (hon : rule.onLine l.2 l.1 = some (owner, r)) :
    ∃ s, .symbol s ∈ rules.findSymbols src lines ∧ s.name = owner ∧ s.covers l.2 = true := by
  obtain ⟨sr, hsr, hname⟩ := hdefine rule hrule l.2 l.1 owner r hon
  refine ⟨src.symbolOn l.2 owner sr.kind (Text.strip l.1), ?_, rfl, ?_⟩
  · refine List.mem_map_of_mem (List.mem_flatMap.mpr ⟨sr, hsr, List.mem_flatMap.mpr ⟨l, hl, ?_⟩⟩)
    rw [SymbolRule.onLine, hname]
    exact List.mem_singleton_self _
  · simp [Symbol.covers, Source.symbolOn]

/-- A relation of line rules lies in a symbol of its owner's name, if it is a call or if the symbols
are the ones that the rules find and what headers relate is defined on their lines. -/
theorem LineRules.exists_symbol {rules : LineRules} (hcalls : rules.HeadersStateNoCall)
    {found : List Finding} {lines : List String} {rs : Relations}
    (h : rules.findRelations (found.map (·.outline)) lines = .ok rs) {owner : String}
    {r : Relation} (hr : (owner, r) ∈ rs.entries) {line : Int} (hline : r.line? = some line)
    (hinside : r.kind = "calls" ∨
      rules.HeadersDefine ∧ ∃ src, found = rules.findSymbols src lines) :
    ∃ s, .symbol s ∈ found ∧ s.name = owner ∧ s.covers line = true := by
  rcases LineRules.mem_findRelations h hr with ⟨n, word, rfl, howner⟩ | ⟨rule, hrule, l, hl, hon⟩
  · obtain rfl : (n : Int) = line := Option.some.inj hline
    exact exists_symbol_of_ownerAt howner
  · obtain ⟨m, -, heq⟩ := Option.map_eq_some_iff.mp hon
    have hlink := (Prod.mk.inj heq).2
    have hno : r.kind ≠ "calls" := by
      rw [← hlink]
      exact hcalls rule hrule _
    obtain ⟨hdefine, src, rfl⟩ := hinside.resolve_left hno
    obtain rfl : (l.2 : Int) = line := by
      rw [← hlink] at hline
      exact Option.some.inj hline
    exact exists_symbol_of_header hdefine src hrule hl hon

/-! ## Kotlin -/

namespace Kotlin

variable {outlines : List Outline} {e : String × Relation}

/-- The categories that relations are filed under. -/
def categories : List String :=
  ["inheritance", "implementation", "composition", "dependency", "usage"]

/-- What is found in Kotlin is filed under a category and lies between two names. -/
def Filed (e : String × Relation) : Prop :=
  e.1 ∈ categories ∧ ∃ source target kind line, e.2 = .edge source target kind line

theorem filed_of_relationsOn {n : Nat} {line : String} {here : List (String × Relation)}
    (h : relationsOn outlines n line = .ok here) (he : e ∈ here) : Filed e := by
  have hfiled : ∀ {category : String}, category ∈ categories → ∀ source target kind,
      Filed (category, .edge source target kind n) :=
    fun hcategory source target kind => ⟨hcategory, source, target, kind, n, rfl⟩
  rw [relationsOn] at h
  dsimp only at h
  -- calls are looked for in a line that has some, and the rest is the same for each line
  split at h
  all_goals
    obtain ⟨caller, -, heq⟩ := Outline.bind_eq_ok.mp h
    obtain rfl := Except.ok.inj heq
    simp only [List.mem_append, List.mem_map] at he
    rcases he with (((⟨m, -, rfl⟩ | ⟨m, -, rfl⟩) | hcall) | ⟨m, -, rfl⟩) | ⟨m, -, rfl⟩
    · exact hfiled (by decide) _ _ _
    · exact hfiled (by decide) _ _ _
    · split at hcall
      next =>
        split at hcall
        · exact absurd hcall List.not_mem_nil
        · obtain ⟨callee, -, rfl⟩ := List.mem_map.mp hcall
          exact hfiled (by decide) _ _ _
      next => exact absurd hcall List.not_mem_nil
    · exact hfiled (by decide) _ _ _
    · exact hfiled (by decide) _ _ _

theorem filed_of_relationsFrom {numbered : List (String × Nat)}
    {entries : List (String × Relation)} (h : relationsFrom outlines numbered = .ok entries)
    (he : e ∈ entries) : Filed e := by
  induction numbered generalizing entries with
  | nil =>
      obtain rfl := Except.ok.inj h
      exact absurd he List.not_mem_nil
  | cons l rest ih =>
      obtain ⟨line, n⟩ := l
      rw [relationsFrom, Outline.bind_eq_ok] at h
      obtain ⟨here, hhere, h⟩ := h
      obtain ⟨more, hmore, heq⟩ := Outline.bind_eq_ok.mp h
      obtain rfl := Except.ok.inj heq
      rcases List.mem_append.mp he with he | he
      · exact filed_of_relationsOn hhere he
      · exact ih hmore he

theorem filed_of_findRelations {lines : List String} {rs : Relations}
    (h : findRelations outlines lines = .ok rs) (he : e ∈ rs.entries) : Filed e := by
  obtain ⟨entries, hentries, heq⟩ := Outline.bind_eq_ok.mp h
  obtain rfl := Except.ok.inj heq
  exact filed_of_relationsFrom hentries he

/-- What lies between two names has no target of its own. -/
theorem Filed.target? (h : Filed e) : e.2.target? = none := by
  obtain ⟨-, source, target, kind, line, heq⟩ := h
  rw [heq]
  rfl

end Kotlin

/-! ## Files -/

/-- Relations with targets, of a dialect for which they are wanted, come from line rules. -/
theorem Dialect.rules_of_findRelations {d : Dialect} (hwants : d.hasRelations = true)
    {content : String} {outlines : List Outline} {rs : Relations}
    (h : d.findRelations content outlines = .ok rs) {e : String × Relation} (he : e ∈ rs.entries)
    {target : String} (htarget : e.2.target? = some target) :
    ∃ rules, d.lineRules? = some rules ∧
      rules.findRelations outlines (Text.lines content) = .ok rs := by
  rw [findRelations.eq_def] at h
  cases hrules : d.lineRules? with
  | some rules =>
      simp only [hrules] at h
      exact ⟨rules, rfl, h⟩
  | none =>
      simp only [hrules] at h
      split at h
      case h_1 =>
        have hnone := (Kotlin.filed_of_findRelations h he).target?
        exact absurd (htarget.symm.trans hnone) (by simp)
      case h_5 =>
        obtain rfl := Except.ok.inj h
        exact absurd he List.not_mem_nil
      -- relations of data and scripts are not wanted
      all_goals exact absurd hwants (by decide)

namespace Analyzer

variable {a : Analyzer}

/-- The line rules by which a language is read. -/
def rulesFor? (a : Analyzer) (language : String) : Option LineRules :=
  match a.dialect.delegate? a.registry language with
  | some d => d.lineRules?
  | none => some Declarations.generic

theorem toOption_eq_some {rs : Relations} {r : Except MissingField Relations}
    (h : r.toOption = some rs) : r = .ok rs := by
  cases r with
  | error e => exact absurd h (by simp [Except.toOption])
  | ok rs' => exact congrArg _ (Option.some.inj h)

theorem rules_of_relations? (hcode : a.dialect = .code) {language content : String}
    {found : List Finding} {rs : Relations} (h : a.relations? language content found = some rs)
    {e : String × Relation} (he : e ∈ rs.entries) {target : String}
    (htarget : e.2.target? = some target) :
    ∃ rules, a.rulesFor? language = some rules ∧
      rules.findRelations (found.map (·.outline)) (Text.lines content) = .ok rs := by
  rw [relations?] at h
  split at h
  next hwants =>
    rw [rulesFor?]
    dsimp only at h
    cases hdelegate : a.dialect.delegate? a.registry language with
    | none =>
        rw [hdelegate] at h
        exact ⟨_, rfl, toOption_eq_some h⟩
    | some d =>
        rw [hdelegate] at h
        dsimp only at h
        split at h
        next =>
          -- it was asked for relations, so it has some of its own
          have hhas : d.hasRelations = true := by
            rw [hcode] at hwants hdelegate
            rw [Dialect.wantsRelations, hdelegate] at hwants
            exact hwants
          exact d.rules_of_findRelations hhas (toOption_eq_some h) he htarget
        next => exact absurd h (by simp)
  next =>
    obtain rfl := Option.some.inj h
    exact absurd he List.not_mem_nil

theorem headersStateNoCall_of_rulesFor? {language : String} {rules : LineRules}
    (h : a.rulesFor? language = some rules) : rules.HeadersStateNoCall := by
  rw [rulesFor?] at h
  split at h
  next => exact headersStateNoCall_of_lineRules? h
  next =>
    obtain rfl := Option.some.inj h
    exact fun rule hrule => absurd hrule List.not_mem_nil

theorem headersDefine_of_rulesFor? {language : String} {rules : LineRules}
    (h : a.rulesFor? language = some rules)
    (hd : a.dialect.delegate? a.registry language ≠ some .rust) : rules.HeadersDefine := by
  rw [rulesFor?] at h
  split at h
  next d hdelegate => exact headersDefine_of_lineRules? h fun hrust => hd (hrust ▸ hdelegate)
  next =>
    obtain rfl := Option.some.inj h
    exact LineRules.headersDefine_of_nil rfl

/-- Without captures, what is found in a language with line rules is what they find. -/
theorem findings_of_rulesFor? (src : Source) {rules : LineRules}
    (h : a.rulesFor? src.language = some rules)
    {content : String} (hnone : (a.captured src content).isEmpty = true) :
    a.findings src content = rules.findSymbols src (Text.lines content) := by
  simp only [findings, hnone, if_true, readLines]
  rw [rulesFor?] at h
  cases hdelegate : a.dialect.delegate? a.registry src.language with
  | none =>
      rw [hdelegate] at h
      obtain rfl := Option.some.inj h
      rfl
  | some d =>
      rw [hdelegate] at h
      have hrules : d.lineRules? = some rules := h
      have hreads : d.reads = true := by
        cases d with
        | bare | catalog | code => exact absurd hrules (by simp [Dialect.lineRules?])
        | _ => rfl
      simp only [hreads, if_true, Dialect.findSymbols, hrules, Option.getD_some]

/-- Whether the headers of a file lie in what they relate: its symbols are read off its lines, and
not by the rules of Rust, whose headers name a trait first. -/
def headersInside (a : Analyzer) (path : String) (file : Option ByteArray) : Bool :=
  (a.dialect.languageOf? (.parse path)).all fun language =>
    ((file.bind Text.decode?).all fun content => (a.captured ⟨path, language⟩ content).isEmpty) &&
      a.dialect.delegate? a.registry language != some .rust

/-- In a file that is no script nothing is found, or what its text shows with its relations. -/
theorem parseFile_cases (hshell : a.dialect ≠ .shell) (path : String) (file : Option ByteArray) :
    a.parseFile path file = [] ∨ ∃ content language rs,
      file.bind Text.decode? = some content ∧
      a.dialect.languageOf? (.parse path) = some language ∧
      a.relations? language content (a.findings ⟨path, language⟩ content) = some rs ∧
      a.parseFile path file
        = (a.findings ⟨path, language⟩ content).map fun f => ⟨f, some (rs.of f.name)⟩ := by
  rw [parseFile, if_neg hshell]
  split
  next content language hcontent hlanguage =>
    split
    next =>
      rw [parseText]
      cases hrelations : a.relations? language content (a.findings ⟨path, language⟩ content) with
      | none => exact .inl rfl
      | some rs => exact .inr ⟨content, language, rs, hcontent, hlanguage, hrelations, rfl⟩
    next => exact .inl rfl
  next => exact .inl rfl

/-- A relation with a target lies in a symbol that has the name of the one which it is found with,
if it is a call or if the headers of the file lie in what they relate. -/
theorem exists_symbol_of_parseFile (hcode : a.dialect = .code) {path : String}
    {file : Option ByteArray} {p : Parsed} (hp : p ∈ a.parseFile path file) {r : Relation}
    (hr : r ∈ p.relations.getD []) {target : String} (htarget : r.target? = some target)
    {line : Int} (hline : r.line? = some line)
    (hinside : r.kind = "calls" ∨ a.headersInside path file = true) :
    ∃ q ∈ a.parseFile path file, ∃ s, q.finding = .symbol s ∧ s.name = p.finding.name ∧
      s.covers line = true := by
  have hshell : a.dialect ≠ .shell := by
    rw [hcode]
    decide
  rcases parseFile_cases hshell path file with
    hnone | ⟨content, language, rs, hcontent, hlanguage, hrelations, hparsed⟩
  · exact absurd (hnone ▸ hp) List.not_mem_nil
  rw [hparsed] at hp ⊢
  obtain ⟨f, hf, rfl⟩ := List.mem_map.mp hp
  obtain ⟨e, he, rfl⟩ := List.mem_map.mp hr
  obtain ⟨he, howner⟩ := List.mem_filter.mp he
  obtain ⟨rules, hrules, hfound⟩ := rules_of_relations? hcode hrelations he htarget
  have hin : e.2.kind = "calls" ∨ rules.HeadersDefine ∧ ∃ src,
      a.findings ⟨path, language⟩ content = rules.findSymbols src (Text.lines content) := by
    refine hinside.imp_right fun hheaders => ?_
    rw [headersInside, hlanguage, Option.all_some, hcontent, Option.all_some, Bool.and_eq_true,
      bne_iff_ne] at hheaders
    exact ⟨headersDefine_of_rulesFor? hrules hheaders.2, ⟨path, language⟩,
      findings_of_rulesFor? ⟨path, language⟩ hrules hheaders.1⟩
  obtain ⟨s, hs, hname, hcovers⟩ := LineRules.exists_symbol
    (headersStateNoCall_of_rulesFor? hrules) hfound he hline hin
  exact ⟨_, List.mem_map_of_mem hs, s, rfl, hname.trans (beq_iff_eq.mp howner), hcovers⟩

end Analyzer

/-! ## Rows -/

namespace Store

/-- A relationship was there before others were stored, or is one of them. -/
theorem mem_insertRelations {st : Store} {ds : List RelationData} {row : RelationRow}
    (h : row ∈ (st.insertRelations ds).relations) :
    row ∈ st.relations ∨ row.toRelationData ∈ ds := by
  induction ds generalizing st with
  | nil => exact .inl h
  | cons d rest ih =>
      rcases ih h with hold | hnew
      · rcases List.mem_append.mp hold with hkept | hd
        · exact .inl (List.mem_filter.mp hkept).1
        · obtain rfl := List.mem_singleton.mp hd
          exact .inr List.mem_cons_self
      · exact .inr (List.mem_cons_of_mem d hnew)

end Store

/-- Whether a stored symbol lies on a line. -/
def SymbolRow.covers (r : SymbolRow) (line : Int) : Bool :=
  match r.first, r.last with
  | .int first, .int last => first ≤ line && line ≤ last
  | _, _ => false

namespace Indexer

/-- Findings that are symbols, all of them. -/
theorem exists_of_mem_symbolsOf? {batch : List Parsed} {symbols : List Symbol}
    (h : symbolsOf? batch = some symbols) {s : Symbol} (hs : s ∈ symbols) :
    ∃ q ∈ batch, q.finding = .symbol s := by
  induction batch generalizing symbols with
  | nil =>
      obtain rfl := Option.some.inj h
      exact absurd hs List.not_mem_nil
  | cons p rest ih =>
      rw [symbolsOf?, List.mapM_cons] at h
      obtain ⟨t, ht, h⟩ := Option.bind_eq_some_iff.mp h
      obtain ⟨more, hmore, heq⟩ := Option.bind_eq_some_iff.mp h
      obtain rfl := Option.some.inj heq
      rcases List.mem_cons.mp hs with rfl | hs
      · refine ⟨p, List.mem_cons_self, ?_⟩
        split at ht
        next s' hfinding => rw [hfinding, Option.some.inj ht]
        next => exact absurd ht (by simp)
      · obtain ⟨q, hq, hfinding⟩ := ih hmore hs
        exact ⟨q, List.mem_cons_of_mem p hq, hfinding⟩

/-- A stored symbol of a file that was worked on is one that was found in it. -/
theorem exists_symbol_of_mem_rowsOf {x : Indexer} (hx : x.Lawful) {db : Database}
    {project path : String} {language : Option String} {file : Option ByteArray}
    (hclear : db.removeFile path project = .ok (db.cleared path project)) {row : SymbolRow}
    (h : row ∈ (x.indexFile project language path file db).db.store.rowsOf project path) :
    ∃ q ∈ x.parse path file, ∃ s, q.finding = .symbol s ∧ s.name = row.name ∧
      row.first = .int s.first ∧ row.last = .int s.last := by
  have hdata : row.toSymbolData ∈
      (x.indexFile project language path file db).db.store.dataOf project path :=
    List.mem_map_of_mem h
  rw [indexFile_data hx hclear] at hdata
  have hstorable := (List.mem_filter.mp (SymbolData.lastPerKey_subset hdata)).1
  rw [storable] at hstorable
  split at hstorable
  next symbols hsymbols =>
    obtain ⟨s, hs, heq⟩ := List.mem_map.mp hstorable
    obtain ⟨q, hq, hfinding⟩ := exists_of_mem_symbolsOf? hsymbols hs
    exact ⟨q, hq, s, hfinding, congrArg SymbolData.name heq, congrArg SymbolData.first heq.symm,
      congrArg SymbolData.last heq.symm⟩
  next => exact absurd hstorable List.not_mem_nil

/-- A relationship after the work on a file was there before, or is the link of a relation that was
found in it, from a stored symbol of the finding's name. -/
theorem mem_relations_indexFile {x : Indexer} (hx : x.Lawful) {db : Database}
    {project path : String} {language : Option String} {file : Option ByteArray}
    (hclear : db.removeFile path project = .ok (db.cleared path project)) {row : RelationRow}
    (h : row ∈ (x.indexFile project language path file db).db.store.relations) :
    row ∈ db.store.relations ∨
      ∃ p ∈ x.parse path file, ∃ r ∈ p.relations.getD [], (∃ target, r.target? = some target) ∧
        ∃ source ∈ (x.indexFile project language path file db).db.store.rowsOf project path,
          source.name = p.finding.name ∧ row.source = .int source.id ∧ row.kind = r.kind ∧
          row.data = some (Json.write (.object r.fields)) := by
  obtain ⟨hsymbols, hrelations⟩ := indexFile_tables hx language file hclear
  rw [hrelations] at h
  rcases Store.mem_insertRelations h with hold | hnew
  · refine .inl ?_
    rw [Store.replaceFile, Store.relations_insertSymbols] at hold
    exact hold
  · obtain ⟨-, p, hp, r, hr, id, hid, hlink⟩ := mem_linksOf.mp hnew
    obtain ⟨source, hsource, hname, rfl⟩ := Store.exists_of_lastNamed? hid
    obtain ⟨target, hit, rest, htarget, -, -, hdata⟩ := link?_eq_some.mp hlink
    refine .inr ⟨p, hp, r, hr, ⟨target, htarget⟩, source, ?_, hname, ?_, ?_, ?_⟩
    · rw [Store.rowsOf, hsymbols]
      exact hsource
    · exact congrArg RelationData.source hdata
    · exact congrArg RelationData.kind hdata
    · exact congrArg RelationData.data hdata

/-- The work on a file stores relationships that start at its symbols. Each comes from a relation of
a finding and starts at a symbol that has the finding's name. Calls, and headers that lie in what
they relate, are on a line of a symbol of that name, and this is the symbol at which the
relationship starts when all symbols of the name lie on the same lines. -/
theorem indexFile_relations_start_inside (a : Analyzer) (hcode : a.dialect = .code)
    (model : Option Model) (db : Database) (project : String) (language : Option String)
    (path : String) (file : Option ByteArray) :
    let x := ofAnalyzer a model
    let after := (x.indexFile project language path file db).db.store
    ∀ row ∈ after.relations, row ∈ db.store.relations ∨
      ∃ p ∈ x.parse path file, ∃ r ∈ p.relations.getD [], ∃ source ∈ after.rowsOf project path,
        row.source = .int source.id ∧ row.kind = r.kind ∧
        row.data = some (Json.write (.object r.fields)) ∧ source.name = p.finding.name ∧
        ∀ line, r.line? = some line → (r.kind = "calls" ∨ a.headersInside path file = true) →
          ∃ q ∈ x.parse path file, ∃ s, q.finding = .symbol s ∧ s.name = source.name ∧
            s.covers line = true ∧
            ((∀ q' ∈ x.parse path file, ∀ s', q'.finding = .symbol s' → s'.name = s.name →
                s'.first = s.first ∧ s'.last = s.last) → source.covers line = true) := by
  intro x after row hrow
  have hx : x.Lawful := ofAnalyzer_lawful a model
  rcases db.removeFile_cases path project with ⟨e, he⟩ | hclear
  · have hdb : (x.indexFile project language path file db).db = db := by rw [indexFile_refused he]
    exact .inl ((congrArg (·.store.relations) hdb) ▸ hrow)
  rcases mem_relations_indexFile hx hclear hrow with
    hold | ⟨p, hp, r, hr, ⟨target, htarget⟩, source, hsource, hname, hid, hkind, hdata⟩
  · exact .inl hold
  refine .inr ⟨p, hp, r, hr, source, hsource, hid, hkind, hdata, hname, ?_⟩
  intro line hline hinside
  obtain ⟨q, hq, s, hfinding, hsname, hcovers⟩ :=
    Analyzer.exists_symbol_of_parseFile hcode hp hr htarget hline hinside
  refine ⟨q, hq, s, hfinding, hsname.trans hname.symm, hcovers, ?_⟩
  -- the symbol that is stored was found under the name, so that it lies on the same lines
  intro hsole
  obtain ⟨q', hq', s', hfinding', hname', hfirst, hlast⟩ :=
    exists_symbol_of_mem_rowsOf hx hclear hsource
  obtain ⟨hsameFirst, hsameLast⟩ :=
    hsole q' hq' s' hfinding' (hname'.trans (hname.trans hsname.symm))
  rw [SymbolRow.covers, hfirst, hlast, hsameFirst, hsameLast]
  exact hcovers

/-- A class and a class that inherits from it. -/
def derivedClass : Option ByteArray :=
  some "class Base: pass\nclass Derived(Base): pass\n".toUTF8

/-- Both relationships of the second class start at it, on the line where they are found. -/
theorem indexFile_relations_start_inside_class :
    let x := ofAnalyzer functions none
    let after := (x.indexFile "p" (some "python") "a.py" derivedClass {}).db.store
    after.relations.map (·.kind) = ["calls", "inherits"] ∧
      ∀ row ∈ after.relations, ∃ r : Relation, ∃ source ∈ after.rowsOf "p" "a.py",
        row.source = .int source.id ∧ row.data = some (Json.write (.object r.fields)) ∧
        source.name = "Derived" ∧ ∃ line, r.line? = some line ∧ source.covers line = true := by
  -- one evaluation for all, since each of them takes what is found in the file
  have hfacts : ((ofAnalyzer functions none).indexFile "p" (some "python") "a.py" derivedClass
        {}).db.store.relations.map (·.kind) = ["calls", "inherits"] ∧
      functions.headersInside "a.py" derivedClass = true ∧
      (∀ p ∈ (ofAnalyzer functions none).parse "a.py" derivedClass, ∀ r ∈ p.relations.getD [],
        r.line? = some 2 ∧ p.finding.name = "Derived") ∧
      ∀ q ∈ (ofAnalyzer functions none).parse "a.py" derivedClass,
        ∀ q' ∈ (ofAnalyzer functions none).parse "a.py" derivedClass,
          q'.finding.name = q.finding.name → q' = q := by
    decide +kernel
  obtain ⟨hkinds, hheaders, hparsed, hsole⟩ := hfacts
  refine ⟨hkinds, ?_⟩
  intro row hrow
  have hstart := indexFile_relations_start_inside functions rfl none {} "p" (some "python") "a.py"
    derivedClass row hrow
  rcases hstart with hold | ⟨p, hp, r, hr, source, hsource, hid, -, hdata, hname, hinside⟩
  · exact absurd hold List.not_mem_nil
  obtain ⟨hline, hp⟩ := hparsed p hp r hr
  obtain ⟨q, hq, s, hfinding, -, -, hcovers⟩ := hinside 2 hline (.inr hheaders)
  refine ⟨r, source, hsource, hid, hdata, hname.trans hp, 2, hline, hcovers ?_⟩
  intro q' hq' s' hfinding' hsame
  obtain rfl := hsole q hq q' hq' (by rw [hfinding, hfinding']; exact hsame)
  obtain rfl := Finding.symbol.inj (hfinding.symm.trans hfinding')
  exact ⟨rfl, rfl⟩

/-- An analyzer that knows structures. -/
def structures : Analyzer :=
  { dialect := .code, grammars := ["rust"]
    query := fun _ => some "(struct_item) @definition.struct" }

/-- A trait, a structure and the line on which the structure implements the trait. -/
def discShape : Option ByteArray :=
  some "trait Shape \x7b\x7d\nstruct Disc;\nimpl Shape for Disc \x7b\x7d\n".toUTF8

/-- What is stated on the third line starts at the structure on the second, the only symbol of its
name. -/
theorem indexFile_implements_outside :
    let x := ofAnalyzer structures none
    let after := (x.indexFile "p" (some "rust") "a.rs" discShape {}).db.store
    after.symbols.map (·.name) = ["Disc", "Shape"] ∧
      ∃ row ∈ after.relations, row.kind = "implements" ∧
        row.data = some (Json.write (.object
          (Relation.link "implements" "Shape" "trait" 3).fields)) ∧
        ∃ source ∈ after.rowsOf "p" "a.rs", row.source = .int source.id ∧
          source.name = "Disc" ∧ source.covers 3 = false := by
  decide +kernel

end Indexer

end SymbolAtlas
