/-
  SymbolAtlas.Proofs.SymbolRelations: relations that reach the symbols they start at.

  A file is parsed to what was found in it, each with the relations that are filed under its name.
  A link is filed under the name that it starts at and reaches every symbol of this name
  (`reachesSymbol_link_iff`). An edge tells its own start and is filed under a category, where no
  symbol looks for it, and it has no target (`Kotlin.not_reachesSymbol`). In Rust the type
  that implements a trait need not be among the symbols, and then the relation is lost.
-/

import SymbolAtlas.Proofs.Phrases

namespace SymbolAtlas

open Pattern Declarations

/-! ## Starts and ends -/

namespace Relation

/-- Where a relation starts: an edge tells it, any other starts at what it is filed under. -/
def start (owner : String) : Relation → String
  | .edge source _ _ _ => source
  | _ => owner

/-- The name at the other end of a relation, as its target or not. -/
def end? : Relation → Option String
  | .edge _ target _ _ => some target
  | r => r.target?

end Relation

/-- Whether a relation that was found is told by a symbol that it starts at, with its type and its
target. -/
def ReachesSymbol (parsed : List Parsed) (e : String × Relation) : Prop :=
  ∃ p ∈ parsed, p.finding.name = e.2.start e.1 ∧ ∃ r ∈ p.relations.getD [],
    r.line? = e.2.line? ∧ ("type", .text e.2.kind) ∈ r.fields ∧
      ∃ target, e.2.end? = some target ∧ ("target", .text target) ∈ r.fields

variable {found : List Finding} {rs : Relations} {e : String × Relation}

/-- A link reaches a symbol if there is one of the name that it is filed under. -/
theorem reachesSymbol_link_iff {owner kind target targetKind : String} {line : Nat}
    (he : (owner, .link kind target targetKind line) ∈ rs.entries) :
    ReachesSymbol (found.map fun f => ⟨f, some (rs.of f.name)⟩)
        (owner, .link kind target targetKind line) ↔
      ∃ f ∈ found, f.name = owner := by
  constructor
  · rintro ⟨p, hp, hname, -⟩
    obtain ⟨f, hf, rfl⟩ := List.mem_map.mp hp
    exact ⟨f, hf, hname⟩
  · rintro ⟨f, hf, rfl⟩
    have hof : .link kind target targetKind line ∈ rs.of f.name :=
      List.mem_map.mpr ⟨_, List.mem_filter.mpr ⟨he, beq_self_eq_true f.name⟩, rfl⟩
    refine ⟨_, List.mem_map_of_mem hf, rfl, _, hof, rfl, ?_, target, rfl, ?_⟩
    · exact List.mem_cons_self
    · exact List.mem_cons_of_mem _ List.mem_cons_self

/-! ## Kotlin -/

namespace Kotlin

/-- Where all that was found is filed under categories, nothing reaches a symbol. -/
theorem not_reachesSymbol (hfiled : ∀ e ∈ rs.entries, Filed e) (e : String × Relation) :
    ¬ ReachesSymbol (found.map fun f => ⟨f, some (rs.of f.name)⟩) e := by
  rintro ⟨p, hp, -, r, hr, -, -, target, -, htarget⟩
  obtain ⟨f, -, rfl⟩ := List.mem_map.mp hp
  obtain ⟨e', he', rfl⟩ := List.mem_map.mp hr
  obtain ⟨-, source, other, kind, line, hedge⟩ := hfiled e' (List.mem_filter.mp he').1
  rw [hedge] at htarget
  simp [Relation.fields] at htarget

/-- A symbol that is not named like a category has no relations. -/
theorem of_eq_nil (hfiled : ∀ e ∈ rs.entries, Filed e) {name : String}
    (hname : name ∉ categories) : rs.of name = [] := by
  rw [Relations.of, List.map_eq_nil_iff, List.filter_eq_nil_iff]
  intro e he heq
  exact hname (beq_iff_eq.mp heq ▸ (hfiled e he).1)

end Kotlin

/-! ## Traits and types -/

/-- Whether a line begins by saying that a type implements a trait. -/
def Implements (line trait type : String) : Prop :=
  ∃ a b c rest, Text.IsGap a ∧ Text.IsName trait.toList ∧ Text.IsGap b ∧ Text.IsGap c ∧
    Text.IsName type.toList ∧ rest.head?.any Text.isWord = false ∧
    (Text.strip line).toList = "impl".toList ++ (a ++ (trait.toList ++ (b ++ ("for".toList ++
      (c ++ (type.toList ++ rest))))))

theorem implements_iff {line trait type : String} :
    Implements line trait type ↔
      Text.Phrase ["impl", trait, "for", type] (Text.strip line).toList := by
  constructor
  · rintro ⟨a, b, c, rest, ha, htrait, hb, hc, htype, hrest, hline⟩
    rw [hline]
    exact .more (.of_all (by decide)) ha (.more htrait hb
      (.more (.of_all (by decide)) hc (.last htype hrest)))
  · intro h
    generalize htext : (Text.strip line).toList = cs at h
    cases h with
    | more _ ha h =>
        cases h with
        | more htrait hb h =>
            cases h with
            | more _ hc h =>
                cases h with
                | last htype hrest =>
                    exact ⟨_, _, _, _, ha, htrait, hb, hc, htype, hrest, htext⟩
                | more _ _ h => exact absurd rfl h.ne_nil

section Rule

variable {rule : HeaderRule} (hrule : rule ∈ rust.headers) {n : Nat} {line : String}

include hrule

/-- The rule of the header finds what the line says. -/
theorem onLine_rust_iff :
    rule.onLine n line = some e ↔
      ∃ trait type,
        Implements line trait type ∧ e = (type, .link "implements" trait "trait" n) := by
  obtain rfl := List.mem_singleton.mp hrule
  rw [HeaderRule.onLine_clause_iff rfl (.of_all (by decide)) (.of_all (by decide)) (by decide)
    (by decide)]
  constructor
  · rintro ⟨part, hphrase, rfl⟩
    exact ⟨part 1, part 2, implements_iff.mpr hphrase, rfl⟩
  · rintro ⟨trait, type, himpl, rfl⟩
    exact ⟨fun k => if k = 1 then trait else type, implements_iff.mp himpl, rfl⟩

end Rule

/-! ## Rust -/

/-- The relations of line rules hold all that their headers state. -/
theorem LineRules.mem_entries_of_onLine {rules : LineRules} {outlines : List Outline}
    {lines : List String} (h : rules.findRelations outlines lines = .ok rs) {rule : HeaderRule}
    (hrule : rule ∈ rules.headers) {l : String × Nat} (hl : l ∈ lines.zipIdx 1)
    (hon : rule.onLine l.2 l.1 = some e) : e ∈ rs.entries := by
  obtain ⟨calls, -, heq⟩ := Outline.bind_eq_ok.mp h
  obtain rfl := Except.ok.inj heq
  refine List.mem_append_right _ (List.mem_flatMap.mpr ⟨l, hl, ?_⟩)
  exact List.mem_filterMap.mpr ⟨rule, hrule, hon⟩

section Rust

variable {lines : List String} (h : rust.findRelations (found.map (·.outline)) lines = .ok rs)

include h

/-- A relation in Rust reaches a symbol if there is one of the name that it is filed under. -/
theorem rust_reachesSymbol_iff (he : e ∈ rs.entries) :
    ReachesSymbol (found.map fun f => ⟨f, some (rs.of f.name)⟩) e ↔ ∃ f ∈ found, f.name = e.1 := by
  obtain ⟨owner, r⟩ := e
  rcases LineRules.mem_findRelations h he with ⟨n, word, rfl, -⟩ | ⟨rule, hrule, l, -, hon⟩
  · exact reachesSymbol_link_iff he
  · obtain ⟨trait, type, -, heq⟩ := (onLine_rust_iff hrule).mp hon
    obtain ⟨rfl, rfl⟩ := Prod.mk.inj heq
    exact reachesSymbol_link_iff he

/-- All relations in Rust are filed under names of symbols if and only if all types that are said to
implement a trait are symbols: calls always are. -/
theorem rust_owners_found_iff :
    (∀ e ∈ rs.entries, ∃ f ∈ found, f.name = e.1) ↔
      ∀ line ∈ lines, ∀ trait type, Implements line trait type → ∃ f ∈ found, f.name = type := by
  constructor
  · intro hall line hline trait type himpl
    obtain ⟨l, hl, rfl⟩ : ∃ l ∈ lines.zipIdx 1, l.1 = line := by
      rw [← List.zipIdx_map_fst 1 lines] at hline
      exact List.mem_map.mp hline
    have hrule : rust.headers[0] ∈ rust.headers := List.getElem_mem _
    have hon : rust.headers[0].onLine l.2 l.1 = some (type, .link "implements" trait "trait" l.2) :=
      (onLine_rust_iff hrule).mpr ⟨trait, type, himpl, rfl⟩
    exact hall _ (LineRules.mem_entries_of_onLine h hrule hl hon)
  · rintro htypes ⟨owner, r⟩ he
    rcases LineRules.mem_findRelations h he with ⟨n, word, -, howner⟩ | ⟨rule, hrule, l, hl, hon⟩
    · obtain ⟨s, hs, hname, -⟩ := exists_symbol_of_ownerAt howner
      exact ⟨_, hs, hname⟩
    · obtain ⟨trait, type, himpl, heq⟩ := (onLine_rust_iff hrule).mp hon
      obtain ⟨rfl, -⟩ := Prod.mk.inj heq
      exact htypes l.1 (List.fst_mem_of_mem_zipIdx hl) trait owner himpl

end Rust

/-! ## Files -/

namespace Analyzer

variable {a : Analyzer}

/-- Of the relations that are found in a file in Kotlin none reaches a symbol, and a symbol has none
unless it is named like a category. In Rust a relation reaches the symbols of the name that it is
filed under. All of them reach one if and only if each type that a line gives a trait to is a symbol
that was found. -/
theorem found_relations_reach_iff (hcode : a.dialect = .code) (hregistry : a.registry = .standard)
    {path language content : String} {bytes : ByteArray}
    (hcontent : Text.decode? bytes = some content)
    (hlanguage : Dialect.code.languageOf? (.parse path) = some language)
    (hsupports : a.supports language = true) (hread : language = "kotlin" ∨ language = "rust") :
    ∃ rs, Registry.builtin.findRelations language content
        ((a.findings ⟨path, language⟩ content).map (·.outline)) = .ok rs ∧
      (language = "kotlin" →
        (∀ e ∈ rs.entries, ¬ ReachesSymbol (a.parseFile path (some bytes)) e) ∧
        ∀ p ∈ a.parseFile path (some bytes), p.finding.name ∉ Kotlin.categories →
          p.relations = some []) ∧
      (language = "rust" →
        (∀ e ∈ rs.entries, ReachesSymbol (a.parseFile path (some bytes)) e ↔
          ∃ f ∈ a.findings ⟨path, language⟩ content, f.name = e.1) ∧
        ((∀ e ∈ rs.entries, ReachesSymbol (a.parseFile path (some bytes)) e) ↔
          ∀ line ∈ Text.lines content, ∀ trait type, Implements line trait type →
            ∃ f ∈ a.findings ⟨path, language⟩ content, f.name = type)) := by
  obtain ⟨rs, hwanted, hparse⟩ := parseFile_code hcode hregistry hcontent hlanguage hsupports
  have hwants : Registry.builtin.wantsRelations language = true := by
    rcases hread with rfl | rfl
    · decide
    · decide
  rw [if_pos hwants] at hwanted
  refine ⟨rs, hwanted, ?_, ?_⟩
  · rintro rfl
    -- nothing is filed under a symbol, only under the categories
    have hfiled : ∀ e ∈ rs.entries, Kotlin.Filed e :=
      fun e he => Kotlin.filed_of_findRelations hwanted he
    rw [hparse]
    refine ⟨fun e _ => Kotlin.not_reachesSymbol hfiled e, fun p hp hname => ?_⟩
    obtain ⟨f, -, rfl⟩ := List.mem_map.mp hp
    exact congrArg some (Kotlin.of_eq_nil hfiled hname)
  · rintro rfl
    have hrules : rust.findRelations ((a.findings ⟨path, "rust"⟩ content).map (·.outline))
        (Text.lines content) = .ok rs := hwanted
    rw [hparse]
    refine ⟨fun e he => rust_reachesSymbol_iff hrules he, ?_⟩
    rw [← rust_owners_found_iff hrules]
    exact forall₂_congr fun e he => rust_reachesSymbol_iff hrules he

/-- A type that is a symbol and one that is none. -/
theorem found_relations_reach_struct :
    let parsed := (Analyzer.lineReader "rust").parseFile "a.rs"
      (some "struct Disc;\nimpl Shape for Disc;\nimpl Shape for Hue;\n".toUTF8)
    ReachesSymbol parsed ("Disc", .link "implements" "Shape" "trait" 2) ∧
      ¬ ReachesSymbol parsed ("Hue", .link "implements" "Shape" "trait" 3) := by
  have hcontent : Text.decode? "struct Disc;\nimpl Shape for Disc;\nimpl Shape for Hue;\n".toUTF8 =
      some "struct Disc;\nimpl Shape for Disc;\nimpl Shape for Hue;\n" := by
    decide +kernel
  have hlanguage : Dialect.code.languageOf? (.parse "a.rs") = some "rust" := by decide +kernel
  have hfacts : (Registry.builtin.findRelations "rust"
        "struct Disc;\nimpl Shape for Disc;\nimpl Shape for Hue;\n"
        (((Analyzer.lineReader "rust").findings ⟨"a.rs", "rust"⟩
          "struct Disc;\nimpl Shape for Disc;\nimpl Shape for Hue;\n").map (·.outline))) =
      .ok { entries := [("Disc", .link "implements" "Shape" "trait" 2),
        ("Hue", .link "implements" "Shape" "trait" 3)] } ∧
      ((Analyzer.lineReader "rust").findings ⟨"a.rs", "rust"⟩
        "struct Disc;\nimpl Shape for Disc;\nimpl Shape for Hue;\n").map (·.name) = ["Disc"] := by
    decide +kernel
  have hread := found_relations_reach_iff (a := .lineReader "rust") rfl rfl hcontent hlanguage
    (by decide) (.inr rfl)
  obtain ⟨rs, hrs, -, hrust⟩ := hread
  obtain rfl := Except.ok.inj (hrs.symm.trans hfacts.1)
  obtain ⟨heach, -⟩ := hrust rfl
  have hnames : ∀ name, (∃ f ∈ (Analyzer.lineReader "rust").findings ⟨"a.rs", "rust"⟩
      "struct Disc;\nimpl Shape for Disc;\nimpl Shape for Hue;\n", f.name = name) ↔
        name ∈ ["Disc"] := by
    intro name
    rw [← hfacts.2, List.mem_map]
  refine ⟨(heach _ (by simp)).mpr ((hnames _).mpr (by decide)), fun hhue => ?_⟩
  exact absurd ((hnames _).mp ((heach _ (by simp)).mp hhue)) (by decide)

/-- A class with a parent: the relation is found, and the class has none. -/
theorem kotlin_parent_is_lost :
    (Analyzer.lineReader "kotlin").parseFile "a.kt" (some "class A : B\n".toUTF8) =
      [⟨.mention { name := "A", kind := "class", line := 1, file := "a.kt", language := "kotlin" },
        some []⟩] ∧
    Registry.builtin.findRelations "kotlin" "class A : B\n"
        (((Analyzer.lineReader "kotlin").findings ⟨"a.kt", "kotlin"⟩ "class A : B\n").map
          (·.outline)) =
      .ok { categories := Kotlin.categories
            entries := [("inheritance", .edge "A" "B" "inheritance" 1)] } := by
  decide +kernel

end Analyzer

end SymbolAtlas
