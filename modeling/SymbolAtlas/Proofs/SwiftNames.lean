/-
  SymbolAtlas.Proofs.SwiftNames: the names of definitions in Swift, found on lines or read off.

  A definition is found where a line begins with a keyword and a name. Its name is read off by the
  first of three headers that fits, each of which has `public` or nothing before its keyword. No
  keyword is `public`, so the words before a name are never the beginning of other such words
  (`prefixFree_leads`), and all headers that fit have the same name behind them. The guesses for
  texts without a header are not reached.
-/

import SymbolAtlas.Proofs.Phrases

namespace SymbolAtlas

open Pattern Declarations

namespace Swift

/-- The kinds of definitions whose names are read off, with the words that they begin with. -/
def definitions : List (String × List String) :=
  [("function", ["func"]), ("class", ["class"]), ("struct", ["struct"]),
    ("variable", ["let", "var"])]

/-- Whether a line begins with a definition, after blanks or none. That of a function has a
parenthesis behind the name. -/
def DefinesOn (definition : String × List String) (line name : String) : Prop :=
  (∃ w ∈ definition.2, Text.Phrase [w, name] (Text.strip line).toList) ∧
    (definition.1 = "function" → ∃ i, Dialect.swift.HeaderAt line i name)

variable {words ws : List String} {w name text line : String} {cs : List Char} {n : Nat}

/-! ## Names read off -/

/-- The keywords of the headers, in the order in which they are tried. -/
def headerWords : List (List String) := [["class", "struct"], ["func"], ["let", "var"]]

/-- The words that may come before a name that is read off. -/
def Leads (words ws : List String) : Prop :=
  ∃ ms w, ms.Sublist ["public"] ∧ w ∈ words ∧ ws = ms ++ [w]

theorem Leads.of_mem (hw : w ∈ words) : Leads words [w] := ⟨[], w, List.nil_sublist _, hw, rfl⟩

theorem Leads.mono {words' : List String} (h : Leads words ws) (hsub : words ⊆ words') :
    Leads words' ws := by
  obtain ⟨ms, w, hms, hw, rfl⟩ := h
  exact ⟨ms, w, hms, hsub hw, rfl⟩

theorem prefixFree_leads (hwords : "public" ∉ words) : Text.PrefixFree (Leads words) := by
  rintro - - ⟨ms, w, hms, hw, rfl⟩ ⟨ms', w', hms', hw', rfl⟩ hbegins
  rcases List.sublist_singleton.mp hms with rfl | rfl
  · rcases List.sublist_singleton.mp hms' with rfl | rfl
    · exact hbegins.eq_of_length rfl
    · obtain ⟨rfl, -⟩ := List.cons_prefix_cons.mp hbegins
      exact absurd hw hwords
  · rcases List.sublist_singleton.mp hms' with rfl | rfl
    · obtain ⟨rfl, -⟩ := List.cons_prefix_cons.mp hbegins
      exact absurd hw' hwords
    · exact hbegins.eq_of_length rfl

theorem takes_leads_iff (hwords : ∀ w ∈ words, Text.IsName w.toList) (hne : words ≠ []) :
    (∃ ps, (optKeyword "public" ++ anyOf words ++ gap).Takes cs ps) ↔
      ∃ ws, Leads words ws ∧ Text.Spaced ws cs := by
  have hpublic : Text.IsName "public".toList := .of_all (by decide)
  simp only [optKeyword, takes_append_silent_iff takes_gap_iff_isGap,
    takes_append_silent_iff (takes_anyOf_iff hne),
    takes_opt_silent_iff (takes_keyword_iff hpublic)]
  constructor
  · rintro ⟨-, -, gap, ⟨front, -, ⟨hfront, rfl⟩, ⟨w, hw, rfl⟩, rfl⟩, hgap, rfl⟩
    have hspaced : Text.Spaced [w] (w.toList ++ gap) :=
      Text.spaced_singleton_iff.mpr ⟨hwords w hw, gap, hgap, rfl⟩
    rcases hfront with rfl | hfront
    · exact ⟨_, .of_mem hw, hspaced⟩
    · refine ⟨["public", w], ⟨["public"], w, List.Sublist.refl _, hw, rfl⟩, ?_⟩
      exact Text.spaced_cons_iff.mpr ⟨front, _, hfront, hspaced, List.append_assoc _ _ _⟩
  · rintro ⟨-, ⟨ms, w, hms, hw, rfl⟩, hspaced⟩
    obtain ⟨front, rear, hfront, hrear, rfl⟩ := Text.spaced_append_iff.mp hspaced
    obtain ⟨-, gap, hgap, rfl⟩ := Text.spaced_singleton_iff.mp hrear
    refine ⟨[], _, gap, ⟨front, _, ⟨?_, rfl⟩, ⟨w, hw, rfl⟩, rfl⟩, hgap,
      (List.append_assoc _ _ _).symm⟩
    rcases List.sublist_singleton.mp hms with rfl | rfl
    · cases hfront with
      | nil => exact .inl rfl
    · exact .inr hfront

/-- A header finds the name behind its words. -/
theorem matchStart?_header_iff (hwords : words ∈ headerWords) :
    ((swiftHeader words).matchStart? text).map (·.group 1) = some name ↔
      ∃ ws, Leads words ws ∧ Text.Phrase (ws ++ [name]) text.toList := by
  have htable : ∀ ws ∈ headerWords, (optKeyword "public" ++ anyOf ws ++ gap).plain = true ∧
      ws ≠ [] ∧ "public" ∉ ws ∧
      ws.all (fun w => !w.toList.isEmpty && w.toList.all Text.isWord) = true := by decide
  obtain ⟨hplain, hne, hpublic, hall⟩ := htable words hwords
  have hnames : ∀ w ∈ words, Text.IsName w.toList :=
    fun w hw => .of_all (List.all_eq_true.mp hall w hw)
  exact matchStart?_name_iff hplain (takes_leads_iff hnames hne) (prefixFree_leads hpublic)

/-- The name behind a keyword is read off. -/
theorem swiftName_of_phrase (hw : w ∈ headerWords.flatten)
    (h : Text.Phrase [w, name] text.toList) : swiftName text = some name := by
  obtain ⟨words, hwords, hmem⟩ := List.mem_flatten.mp hw
  have hfits : ((swiftHeader words).matchStart? text).map (·.group 1) = some name :=
    (matchStart?_header_iff hwords).mpr ⟨[w], .of_mem hmem, h⟩
  have hheaders : [swiftHeader ["class", "struct"], swiftHeader ["func"],
      swiftHeader ["let", "var"]] = headerWords.map swiftHeader := rfl
  rw [swiftName, hheaders]
  cases hfound : (headerWords.map swiftHeader).findSome? fun p => p.matchStart? text with
  | none =>
      -- the header with this keyword fits
      rw [List.findSome?_eq_none_iff.mp hfound _ (List.mem_map_of_mem hwords)] at hfits
      exact absurd hfits (by simp)
  | some m =>
      -- whichever header comes first, the name is the same
      obtain ⟨p, hp, hm⟩ := List.exists_of_findSome?_eq_some hfound
      obtain ⟨words', hwords', rfl⟩ := List.mem_map.mp hp
      have hgroup : ((swiftHeader words').matchStart? text).map (·.group 1) =
          some (m.group 1) := by
        rw [hm, Option.map_some]
      obtain ⟨ws, hleads, h'⟩ := (matchStart?_header_iff hwords').mp hgroup
      have hfree : Text.PrefixFree (Leads headerWords.flatten) := prefixFree_leads (by decide)
      have hname := hfree.name_unique
        (hleads.mono fun v hv => List.mem_flatten.mpr ⟨words', hwords', hv⟩) (.of_mem hw) h' h
      exact congrArg some hname

/-! ## Names found -/

/-- A rule finds the name behind one of some words, if these are what comes before the name. -/
theorem nameOn?_iff {rule : SymbolRule} {p : Pattern} (hraw : rule.raw = false)
    (htrim : rule.trimName = false) (hexcluded : rule.excluded = [])
    (hpattern : rule.pattern = p ++ Pattern.name rule.part) (hplain : p.plain = true)
    (htakes : ∀ {cs}, (∃ ps, p.Takes cs ps) ↔ ∃ w ∈ words, Text.Spaced [w] cs) :
    rule.nameOn? line = some name ↔
      ∃ w ∈ words, Text.Phrase [w, name] (Text.strip line).toList := by
  have hfree : Text.PrefixFree fun ws => ∃ w ∈ words, ws = [w] := by
    rintro - - ⟨w, -, rfl⟩ ⟨w', -, rfl⟩ hbegins
    exact hbegins.eq_of_length rfl
  have hleads : ∀ {cs}, (∃ ps, p.Takes cs ps) ↔
      ∃ ws, (∃ w ∈ words, ws = [w]) ∧ Text.Spaced ws cs := by
    intro cs
    simp [htakes]
  rw [SymbolRule.nameOn?_eq hraw htrim hexcluded, hpattern,
    matchStart?_name_iff hplain hleads hfree]
  simp

/-- A function is found by its keyword and its name, too. -/
theorem phrase_of_nameOn? {f : HeaderForm} (hcall : f.style = .call)
    (h : f.rule.nameOn? line = some name) :
    Text.Phrase [f.word, name] (Text.strip line).toList := by
  obtain ⟨gap, lead, sign, rest, hfits, hstrip⟩ := HeaderForm.exists_fits_of_nameOn? h
  obtain rfl : lead = [] := by
    rcases hfits.lead with hlead | ⟨hmethod, -⟩
    · exact hlead
    · exact absurd (hcall.symm.trans hmethod) (by decide)
  rw [hstrip, List.nil_append]
  exact .more f.isName ⟨hfits.blank, hfits.gap_ne⟩
    (.last hfits.isName (hfits.sign.head?_isWord rest))

theorem nameOn?_defined_iff (kind : String) {word : String} (hword : Text.IsName word.toList) :
    (SymbolRule.of kind (defined word)).nameOn? line = some name ↔
      ∃ w ∈ [word], Text.Phrase [w, name] (Text.strip line).toList := by
  refine nameOn?_iff rfl rfl rfl rfl rfl ?_
  intro cs
  simp [takes_keyword_iff hword]

/-- The rule that finds the variables. -/
def variableRule : SymbolRule :=
  { kind := "variable", pattern := capture 1 (anyOf ["let", "var"]) ++ gap ++ Pattern.name 2,
    part := 2 }

theorem nameOn?_variable_iff :
    variableRule.nameOn? line = some name ↔
      ∃ w ∈ ["let", "var"], Text.Phrase [w, name] (Text.strip line).toList := by
  have hwords : ∀ w ∈ ["let", "var"], Text.IsName w.toList :=
    List.forall_mem_cons.mpr ⟨.of_all (by decide),
      List.forall_mem_singleton.mpr (.of_all (by decide))⟩
  refine nameOn?_iff rfl rfl rfl rfl rfl ?_
  intro cs
  simp only [takes_append_silent_iff takes_gap_iff_isGap, takes_capture_iff,
    takes_anyOf_iff (List.cons_ne_nil "let" ["var"]), Text.spaced_singleton_iff]
  constructor
  · rintro ⟨-, -, gap, ⟨-, ⟨⟨w, hw, rfl⟩, rfl⟩, rfl⟩, hgap, rfl⟩
    exact ⟨w, hw, hwords w hw, gap, hgap, rfl⟩
  · rintro ⟨w, hw, -, gap, hgap, rfl⟩
    exact ⟨_, _, gap, ⟨[], ⟨⟨w, hw, rfl⟩, rfl⟩, rfl⟩, hgap, rfl⟩

section Found

variable (src : Source) {lines : List String} (hl : (line, n) ∈ lines.zipIdx 1)

include hl

/-- Of a kind other than functions, the one rule for it tells what is found. -/
theorem exists_symbol_iff {rule : SymbolRule} {kind : String} (hkind : kind ≠ "function")
    (hrule : swift.symbols.filter (·.kind == kind) = [rule])
    (hname : rule.nameOn? line = some name ↔
      ∃ w ∈ words, Text.Phrase [w, name] (Text.strip line).toList) :
    (∃ s : Symbol, .symbol s ∈ swift.findSymbols src lines ∧ s.kind = kind ∧ s.first = n ∧
      s.name = name) ↔ DefinesOn (kind, words) line name := by
  rw [LineRules.exists_symbolOn_iff_of_filter hrule src hl, hname, DefinesOn]
  simp [hkind]

/-- The definitions of a kind that are found on a line are those that it begins with. -/
theorem exists_definition_iff {definition : String × List String}
    (hdefinition : definition ∈ definitions) :
    (∃ s : Symbol, .symbol s ∈ swift.findSymbols src lines ∧ s.kind = definition.1 ∧
      s.first = n ∧ s.name = name) ↔ DefinesOn definition line name := by
  simp only [definitions, List.mem_cons, List.not_mem_nil, or_false] at hdefinition
  obtain rfl | rfl | rfl | rfl := hdefinition
  · have hsymbols : swift.symbols =
        Dialect.swift.headerForms.map HeaderForm.rule ++ swift.symbols.drop 1 := rfl
    rw [Dialect.exists_function_iff hsymbols (by decide) src hl]
    constructor
    · rintro ⟨i, hheader⟩
      refine ⟨?_, fun _ => ⟨i, hheader⟩⟩
      obtain ⟨f, hf, hat⟩ := hheader
      obtain rfl := List.mem_singleton.mp hf
      exact ⟨"func", List.mem_singleton_self _, phrase_of_nameOn? rfl hat.nameOn?⟩
    · rintro ⟨-, hheader⟩
      exact hheader rfl
  · exact exists_symbol_iff src hl (by decide) rfl
      (nameOn?_defined_iff "class" (.of_all (by decide)))
  · exact exists_symbol_iff src hl (by decide) rfl
      (nameOn?_defined_iff "struct" (.of_all (by decide)))
  · have hrule : swift.symbols.filter (·.kind == "variable") = [variableRule] := rfl
    exact exists_symbol_iff src hl (by decide) hrule nameOn?_variable_iff

end Found

/-! ## Both ways -/

/-- The definitions of functions, classes, structs and variables that are found are those that lines
begin with, and the name that is read off the text of one, for whichever capture, is the name that
was found. -/
theorem swift_names_agree (src : Source) (lines : List String) :
    (∀ l ∈ lines.zipIdx 1, ∀ definition ∈ definitions, ∀ name,
      (∃ s : Symbol, .symbol s ∈ Dialect.swift.findSymbols src lines ∧ s.kind = definition.1 ∧
        s.first = l.2 ∧ s.name = name) ↔ DefinesOn definition l.1 name) ∧
    ∀ s : Symbol, .symbol s ∈ Dialect.swift.findSymbols src lines →
      s.kind ∈ definitions.map (·.1) →
        ∃ l ∈ lines.zipIdx 1, s.first = l.2 ∧ s.snippet = Text.strip l.1 ∧
          ∀ hash capture,
            Dialect.swift.definitionName hash capture (Text.strip l.1) = some s.name := by
  have hrules : Dialect.swift.lineRules? = some swift := rfl
  rw [Dialect.findSymbols_of_lineRules? hrules]
  refine ⟨?_, ?_⟩
  · rintro ⟨line, n⟩ hl definition hdefinition name
    exact exists_definition_iff src hl hdefinition
  · intro s hs hkind
    obtain ⟨definition, hdefinition, hsame⟩ := List.mem_map.mp hkind
    obtain ⟨-, -, ⟨line, n⟩, hl, hfirst, hsnippet, -⟩ := exists_of_mem_findSymbols hs
    refine ⟨(line, n), hl, hfirst, hsnippet, fun _ _ => ?_⟩
    obtain ⟨⟨w, hw, hphrase⟩, -⟩ := (exists_definition_iff src hl hdefinition).mp
      ⟨s, hs, hsame.symm, hfirst, rfl⟩
    have hwords : ∀ d ∈ definitions, ∀ v ∈ d.2, v ∈ headerWords.flatten := by decide
    exact swiftName_of_phrase (hwords definition hdefinition w hw) hphrase

/-- A struct that is named like a modifier, on a line that mentions `init`. -/
theorem swift_names_agree_public :
    let s := Source.symbolOn ⟨"f", "x"⟩ 1 "public" "struct" "struct  public: init"
    .symbol s ∈ Dialect.swift.findSymbols ⟨"f", "x"⟩ ["\tstruct  public: init"] ∧
      Dialect.swift.NamesAlike s := by
  have hfound : .symbol (Source.symbolOn ⟨"f", "x"⟩ 1 "public" "struct" "struct  public: init") ∈
      Dialect.swift.findSymbols ⟨"f", "x"⟩ ["\tstruct  public: init"] := by
    decide +kernel
  obtain ⟨l, -, -, hsnippet, hname⟩ := (swift_names_agree _ _).2 _ hfound (by decide)
  refine ⟨hfound, fun hash capture => ?_⟩
  rw [hsnippet]
  exact hname hash capture

end Swift

end SymbolAtlas
