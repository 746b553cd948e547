/-
  SymbolAtlas.Proofs.Inheritance: what headers of classes say of parents, and what is recorded.

  Headers are read rule by rule, and what they state on a line is what the rules find there
  (`LineRules.ofKindOn_eq`). In Java a class is found behind modifiers, but its parent and its
  interface are looked for where the line begins with `class`, both of them right behind the name.
  So modifiers hide both, and a parent hides the interface. In Python all that stands between the
  parentheses is one target, however many bases it names.
-/

import SymbolAtlas.Proofs.Sections
import SymbolAtlas.Proofs.SymbolRelations

namespace SymbolAtlas

open Pattern Declarations

/-! ## What headers state on a line -/

/-- The relations of one kind that an owner has on a line. -/
def Relations.ofKindOn (rs : Relations) (owner kind : String) (line : Nat) : List Relation :=
  (rs.of owner).filter fun r => r.kind == kind && r.line? == some (line : Int)

theorem line?_of_onLine {rule : HeaderRule} {n : Nat} {line : String} {e : String × Relation}
    (h : rule.onLine n line = some e) : e.2.line? = some (n : Int) := by
  obtain ⟨m, -, rfl⟩ := Option.map_eq_some_iff.mp h
  rfl

theorem nodup_zipIdx (lines : List String) (k : Nat) : (lines.zipIdx k).Nodup := by
  have hnumbers : ((lines.zipIdx k).map Prod.snd).Nodup := by
    rw [List.zipIdx_map_snd]
    exact List.nodup_range'
  exact hnumbers.of_map

/-- Calls aside, the relations of an owner on a line are those that the headers state there. -/
theorem LineRules.ofKindOn_eq {rules : LineRules} {outlines : List Outline} {lines : List String}
    {rs : Relations} (hrs : rules.findRelations outlines lines = .ok rs) {line : String} {n : Nat}
    (hl : (line, n) ∈ lines.zipIdx 1) {kind : String} (hkind : kind ≠ "calls") (owner : String) :
    rs.ofKindOn owner kind n =
      (((rules.headers.filterMap (·.onLine n line)).filter fun e =>
        e.1 == owner && e.2.kind == kind).map (·.2)) := by
  obtain ⟨calls, hcalls, heq⟩ := Outline.bind_eq_ok.mp hrs
  obtain rfl := Except.ok.inj heq
  have hcall : ∀ e ∈ calls, (e.2.kind == kind) = false := by
    rintro ⟨owner, r⟩ he
    obtain ⟨n, word, rfl, -⟩ := CallRule.mem_assign hcalls he
    exact beq_eq_false_iff_ne.mpr hkind.symm
  -- of what the headers state, the line's part is told by its number
  have hheaders : (headerRelations rules.headers lines).filter (·.2.line? == some (n : Int)) =
      rules.headers.filterMap (·.onLine n line) := by
    rw [headerRelations, scanLines]
    apply filter_flatMap_of_mem (nodup_zipIdx lines 1) hl
    · intro e he
      obtain ⟨rule, -, hon⟩ := List.mem_filterMap.mp he
      exact beq_iff_eq.mpr (line?_of_onLine hon)
    · rintro ⟨line', n'⟩ hl' hne e he hsame
      obtain ⟨rule, -, hon⟩ := List.mem_filterMap.mp he
      rw [line?_of_onLine hon, beq_iff_eq, Option.some.injEq] at hsame
      obtain rfl : n' = n := Int.ofNat.inj hsame
      exact hne (by rw [line_eq_of_mem_zipIdx hl hl'])
  rw [Relations.ofKindOn, Relations.of, List.filter_map, List.filter_filter, List.filter_append,
    List.filter_eq_nil_iff.mpr, List.nil_append, ← hheaders, List.filter_filter]
  · congr 1
    refine List.filter_congr fun e _ => ?_
    simp only [Function.comp_apply, Bool.and_comm, Bool.and_assoc]
  · intro e he
    simp [hcall e he]

/-- What headers state is found under an owner if a rule finds it on the line. -/
theorem LineRules.mem_of_iff {rules : LineRules} {outlines : List Outline} {lines : List String}
    {rs : Relations} (hrs : rules.findRelations outlines lines = .ok rs) {line : String} {n : Nat}
    (hl : (line, n) ∈ lines.zipIdx 1) {r : Relation} (hkind : r.kind ≠ "calls")
    (hline : r.line? = some (n : Int)) (owner : String) :
    r ∈ rs.of owner ↔ ∃ rule ∈ rules.headers, rule.onLine n line = some (owner, r) := by
  have hfilter : r ∈ rs.of owner ↔ r ∈ rs.ofKindOn owner r.kind n := by
    simp [Relations.ofKindOn, hline]
  rw [hfilter, ofKindOn_eq hrs hl hkind]
  simp

/-! ## Java -/

/-- What the header of a class says: its modifiers, its name, its parent and its interface. -/
structure ClassHeader where
  modifiers : List String
  name : String
  parent : Option String
  interface : Option String

namespace ClassHeader

/-- The modifiers of classes, in the order in which they come. -/
def allModifiers : List String := ["public", "abstract", "final", "strictfp"]

/-- A word and the name behind it, if there is one. -/
def clause (word : String) (name : Option String) : List String :=
  name.toList.flatMap fun n => [word, n]

/-- The words of a header. -/
def words (h : ClassHeader) : List String :=
  h.modifiers ++ "class" :: h.name :: (clause "extends" h.parent ++ clause "implements" h.interface)

/-- Whether a line begins with a header, after blanks or none. -/
structure On (h : ClassHeader) (line : String) : Prop where
  modifiers : h.modifiers.Sublist allModifiers
  phrase : Text.Phrase h.words (Text.strip line).toList

/-- Whether all that a header says on a line is recorded under the name of the class. -/
def Recorded (h : ClassHeader) (rs : Relations) (line : Nat) : Prop :=
  (∀ p ∈ h.parent, .link "inherits" p "class" line ∈ rs.of h.name) ∧
    ∀ i ∈ h.interface, .link "implements" i "interface" line ∈ rs.of h.name

variable {h : ClassHeader} {line name : String} {n : Nat}

/-! ### Headers -/

/-- Where a word comes first in two lists, the lists agree up to it. -/
theorem append_cons_unique {α : Type} {c : α} {a b s t : List α} (ha : c ∉ a) (hb : c ∉ b)
    (h : a ++ c :: s <+: b ++ c :: t) : a = b ∧ s <+: t := by
  induction a generalizing b with
  | nil =>
      cases b with
      | nil => exact ⟨rfl, (List.cons_prefix_cons.mp h).2⟩
      | cons d b =>
          have hd := (List.cons_prefix_cons.mp h).1
          exact absurd (hd ▸ List.mem_cons_self) hb
  | cons d a ih =>
      cases b with
      | nil =>
          have hd := (List.cons_prefix_cons.mp h).1
          exact absurd (hd ▸ List.mem_cons_self) ha
      | cons e b =>
          obtain ⟨rfl, hmore⟩ := List.cons_prefix_cons.mp h
          obtain ⟨rfl, htail⟩ := ih (mt (List.mem_cons_of_mem _) ha)
            (mt (List.mem_cons_of_mem _) hb) hmore
          exact ⟨rfl, htail⟩

theorem class_notMem_of_sublist {ms : List String} (h : ms.Sublist allModifiers) :
    "class" ∉ ms := by
  intro hmem
  exact absurd (h.subset hmem) (by decide)

/-- Behind the modifiers and `class`, of a header and another reading of the line one goes on where
the other ends. -/
theorem On.tails {ms ws : List String} (hon : h.On line) (hms : ms.Sublist allModifiers)
    (hphrase : Text.Phrase (ms ++ "class" :: ws) (Text.strip line).toList) :
    h.modifiers = ms ∧
      (ws <+: h.name :: (clause "extends" h.parent ++ clause "implements" h.interface) ∨
        h.name :: (clause "extends" h.parent ++ clause "implements" h.interface) <+: ws) := by
  have hclass := class_notMem_of_sublist hon.modifiers
  have hclass' := class_notMem_of_sublist hms
  rcases hon.phrase.isPrefix_total hphrase with hbegins | hbegins
  · obtain ⟨heq, htail⟩ := append_cons_unique hclass hclass' hbegins
    exact ⟨heq, .inr htail⟩
  · obtain ⟨heq, htail⟩ := append_cons_unique hclass' hclass hbegins
    exact ⟨heq.symm, .inl htail⟩

/-! ### Classes -/

/-- The words that may come before the name of a class. -/
def Leads (ws : List String) : Prop := ∃ ms, ms.Sublist allModifiers ∧ ws = ms ++ ["class"]

theorem prefixFree_leads : Text.PrefixFree Leads := by
  rintro - - ⟨ms, hms, rfl⟩ ⟨ms', hms', rfl⟩ hbegins
  rw [(append_cons_unique (class_notMem_of_sublist hms) (class_notMem_of_sublist hms')
    hbegins).1]

theorem takes_leads_iff {cs : List Char} :
    (∃ ps, (optKeywords allModifiers ++ keyword "class").Takes cs ps) ↔
      ∃ ws, Leads ws ∧ Text.Spaced ws cs := by
  have hclass : Text.IsName "class".toList := .of_all (by decide)
  have hmodifiers : ∀ w ∈ allModifiers, Text.IsName w.toList := by
    intro w hw
    have hall : allModifiers.all
        (fun w => !w.toList.isEmpty && w.toList.all Text.isWord) = true := by decide
    exact .of_all (List.all_eq_true.mp hall w hw)
  simp only [takes_append_silent_iff (takes_keyword_iff hclass), takes_optKeywords_iff hmodifiers]
  constructor
  · rintro ⟨ps, as, bs, ⟨⟨ms, hms, has⟩, -⟩, hbs, rfl⟩
    exact ⟨_, ⟨ms, hms, rfl⟩, Text.spaced_append_iff.mpr ⟨as, bs, has, hbs, rfl⟩⟩
  · rintro ⟨-, ⟨ms, hms, rfl⟩, hspaced⟩
    obtain ⟨as, bs, has, hbs, rfl⟩ := Text.spaced_append_iff.mp hspaced
    exact ⟨[], as, bs, ⟨⟨ms, hms, has⟩, rfl⟩, hbs, rfl⟩

/-- The rule that finds the classes. -/
def rule : SymbolRule := .of "class" (optKeywords allModifiers ++ defined "class")

/-- The rule finds the name in a header. -/
theorem nameOn?_rule_iff :
    rule.nameOn? line = some name ↔ ∃ h : ClassHeader, h.On line ∧ h.name = name := by
  rw [rule, SymbolRule.nameOn?_of, defined, matchStart?_append_assoc,
    matchStart?_name_iff rfl takes_leads_iff prefixFree_leads]
  constructor
  · rintro ⟨-, ⟨ms, hms, rfl⟩, hphrase⟩
    rw [List.append_assoc] at hphrase
    exact ⟨⟨ms, name, none, none⟩, ⟨hms, hphrase⟩, rfl⟩
  · rintro ⟨h, hon, rfl⟩
    refine ⟨_, ⟨h.modifiers, hon.modifiers, rfl⟩, ?_⟩
    have hphrase := hon.phrase
    have hwords : h.words = h.modifiers ++ ["class"] ++ [h.name] ++
        (clause "extends" h.parent ++ clause "implements" h.interface) := by
      simp [words]
    rw [hwords] at hphrase
    exact hphrase.of_append (by simp)

/-! ### Clauses -/

/-- The rule for what a class says behind a word. -/
def clauseRule (word kind targetKind : String) : HeaderRule :=
  { pattern := defined "class" ++ gap ++ keyword word ++ Pattern.name 2
    sort := fun _ => (kind, targetKind) }

theorem onLine_clauseRule_iff {word kind targetKind : String} (hword : Text.IsName word.toList)
    {e : String × Relation} :
    (clauseRule word kind targetKind).onLine n line = some e ↔ ∃ name target,
      Text.Phrase ["class", name, word, target] (Text.strip line).toList ∧
        e = (name, .link kind target targetKind n) := by
  have howner : (clauseRule word kind targetKind).owner ∈ [1, 2] := List.mem_cons_self
  have htarget : (clauseRule word kind targetKind).target ∈ [1, 2] :=
    List.mem_cons_of_mem 1 List.mem_cons_self
  rw [HeaderRule.onLine_clause_iff rfl (.of_all (by decide)) hword howner htarget]
  constructor
  · rintro ⟨part, hphrase, rfl⟩
    exact ⟨part 1, part 2, hphrase, rfl⟩
  · rintro ⟨name, target, hphrase, rfl⟩
    exact ⟨fun k => if k = 1 then name else target, hphrase, rfl⟩

/-- The words that begin a clause, with the kinds of its relation and of its target. -/
def clauses : List (String × String × String) :=
  [("extends", "inherits", "class"), ("implements", "implements", "interface")]

/-- What a clause says is recorded if the line begins with `class`, and the clause comes right
behind the name. -/
theorem mem_of_clause_iff {outlines : List Outline} {lines : List String} {rs : Relations}
    (hrs : java.findRelations outlines lines = .ok rs) (hl : (line, n) ∈ lines.zipIdx 1)
    {word kind targetKind : String} (hclause : (word, kind, targetKind) ∈ clauses)
    (target : String) :
    .link kind target targetKind n ∈ rs.of name ↔
      Text.Phrase ["class", name, word, target] (Text.strip line).toList := by
  have hheaders : java.headers = [clauseRule "extends" "inherits" "class",
    clauseRule "implements" "implements" "interface"] := rfl
  have hextends : Text.IsName "extends".toList := .of_all (by decide)
  have himplements : Text.IsName "implements".toList := .of_all (by decide)
  simp only [clauses, List.mem_cons, Prod.mk.injEq, List.not_mem_nil, or_false] at hclause
  obtain ⟨rfl, rfl, rfl⟩ | ⟨rfl, rfl, rfl⟩ := hclause
  · rw [LineRules.mem_of_iff hrs hl (by simp [Relation.kind]) rfl, hheaders]
    simp [onLine_clauseRule_iff hextends, onLine_clauseRule_iff himplements]
  · rw [LineRules.mem_of_iff hrs hl (by simp [Relation.kind]) rfl, hheaders]
    simp [onLine_clauseRule_iff hextends, onLine_clauseRule_iff himplements]

/-! ### What is recorded -/

/-- Modifiers hide the parent. -/
theorem On.extends_iff (hon : h.On line) {p : String} (hp : p ∈ h.parent) :
    Text.Phrase ["class", h.name, "extends", p] (Text.strip line).toList ↔ h.modifiers = [] := by
  constructor
  · intro hphrase
    exact (hon.tails (List.nil_sublist _) hphrase).1
  · intro hnone
    have hphrase := hon.phrase
    have hwords : h.words =
        ["class", h.name, "extends", p] ++ clause "implements" h.interface := by
      simp [words, hnone, Option.mem_def.mp hp, clause]
    rw [hwords] at hphrase
    exact hphrase.of_append (List.cons_ne_nil _ _)

/-- Modifiers hide the interface, and so does a parent. -/
theorem On.implements_iff (hon : h.On line) {i : String} (hi : i ∈ h.interface) :
    Text.Phrase ["class", h.name, "implements", i] (Text.strip line).toList ↔
      h.modifiers = [] ∧ h.parent = none := by
  constructor
  · intro hphrase
    obtain ⟨hnone, htails⟩ := hon.tails (List.nil_sublist _) hphrase
    refine ⟨hnone, ?_⟩
    -- behind the name comes `implements`, and a parent has `extends` before it
    cases hparent : h.parent with
    | none => rfl
    | some p =>
        rw [hparent] at htails
        simp [clause, List.cons_prefix_cons] at htails
  · rintro ⟨hnone, hparent⟩
    have hphrase := hon.phrase
    have hwords : h.words = ["class", h.name, "implements", i] := by
      simp [words, hnone, hparent, Option.mem_def.mp hi, clause]
    rwa [hwords] at hphrase

/-- The classes found on a line are those with a header there. -/
theorem exists_class_iff (src : Source) {lines : List String} (hl : (line, n) ∈ lines.zipIdx 1) :
    (∃ s : Symbol, .symbol s ∈ java.findSymbols src lines ∧ s.kind = "class" ∧ s.first = n ∧
      s.name = name) ↔ ∃ h : ClassHeader, h.On line ∧ h.name = name := by
  have hrule : java.symbols.filter (·.kind == "class") = [rule] := rfl
  rw [LineRules.exists_symbolOn_iff_of_filter hrule src hl, nameOn?_rule_iff]

/-- The classes found on a line are those with a header there, with modifiers or without. The parent
that a header names is recorded if it has no modifiers, and the interface if it has no modifiers and
no parent. So all that a header says is recorded exactly if it says nothing, or has no modifiers and
says one thing only. -/
theorem inheritance_recorded_iff (src : Source) (content : String) {outlines : List Outline}
    (hplaced : ∀ o ∈ outlines, o.Placed) :
    ∃ rs, Dialect.java.findRelations content outlines = .ok rs ∧
      ∀ l ∈ (Text.lines content).zipIdx 1,
        (∀ name, (∃ s : Symbol, .symbol s ∈ Dialect.java.findSymbols src (Text.lines content) ∧
          s.kind = "class" ∧ s.first = l.2 ∧ s.name = name) ↔
            ∃ h : ClassHeader, h.On l.1 ∧ h.name = name) ∧
        ∀ h : ClassHeader, h.On l.1 →
          (∀ p ∈ h.parent, .link "inherits" p "class" l.2 ∈ rs.of h.name ↔ h.modifiers = []) ∧
          (∀ i ∈ h.interface, .link "implements" i "interface" l.2 ∈ rs.of h.name ↔
            h.modifiers = [] ∧ h.parent = none) ∧
          (h.Recorded rs l.2 ↔ (h.parent = none ∧ h.interface = none) ∨
            h.modifiers = [] ∧ (h.parent = none ∨ h.interface = none)) := by
  have hrules : Dialect.java.lineRules? = some java := rfl
  obtain ⟨rs, hrs⟩ : ∃ rs, java.findRelations outlines (Text.lines content) = .ok rs :=
    ⟨_, LineRules.findRelations_eq hplaced⟩
  refine ⟨rs, (Dialect.findRelations_of_lineRules? hrules content outlines).trans hrs, ?_⟩
  rintro ⟨line, n⟩ hl
  refine ⟨fun name => ?_, fun h hon => ?_⟩
  · rw [Dialect.findSymbols_of_lineRules? hrules]
    exact exists_class_iff src hl
  · have hparent : ∀ p ∈ h.parent,
        .link "inherits" p "class" n ∈ rs.of h.name ↔ h.modifiers = [] :=
      fun p hp => (mem_of_clause_iff hrs hl (by decide) p).trans (hon.extends_iff hp)
    have hinterface : ∀ i ∈ h.interface,
        .link "implements" i "interface" n ∈ rs.of h.name ↔ h.modifiers = [] ∧ h.parent = none :=
      fun i hi => (mem_of_clause_iff hrs hl (by decide) i).trans (hon.implements_iff hi)
    refine ⟨hparent, hinterface, ?_⟩
    rw [Recorded, forall₂_congr hparent, forall₂_congr hinterface]
    cases h.parent <;> cases h.interface <;> simp

/-- A class with a modifier, and one with a parent and an interface. -/
theorem inheritance_recorded_two_classes :
    let content := "public class A extends B \x7b\nclass C extends D implements E \x7b\n"
    ∃ rs, Dialect.java.findRelations content
        ((java.findSymbols ⟨"f", "x"⟩ (Text.lines content)).map (·.outline)) = .ok rs ∧
      .link "inherits" "B" "class" 1 ∉ rs.of "A" ∧ .link "inherits" "D" "class" 2 ∈ rs.of "C" ∧
        .link "implements" "E" "interface" 2 ∉ rs.of "C" := by
  obtain ⟨rs, hrs, hlines⟩ := inheritance_recorded_iff ⟨"f", "x"⟩
    "public class A extends B \x7b\nclass C extends D implements E \x7b\n"
    (java.placed_findSymbols ⟨"f", "x"⟩ _)
  have hfacts : ("public class A extends B \x7b", 1) ∈ (Text.lines
        "public class A extends B \x7b\nclass C extends D implements E \x7b\n").zipIdx 1 ∧
      ("class C extends D implements E \x7b", 2) ∈ (Text.lines
        "public class A extends B \x7b\nclass C extends D implements E \x7b\n").zipIdx 1 ∧
      (Text.strip "public class A extends B \x7b").toList = "public".toList ++ ([' '] ++
        ("class".toList ++ ([' '] ++ ("A".toList ++ ([' '] ++ ("extends".toList ++ ([' '] ++
          ("B".toList ++ [' ', '{'])))))))) ∧
      (Text.strip "class C extends D implements E \x7b").toList = "class".toList ++ ([' '] ++
        ("C".toList ++ ([' '] ++ ("extends".toList ++ ([' '] ++ ("D".toList ++ ([' '] ++
          ("implements".toList ++ ([' '] ++ ("E".toList ++ [' ', '{'])))))))))) := by
    decide +kernel
  obtain ⟨hfirst, hsecond, htext, htext'⟩ := hfacts
  have hgap : Text.IsGap [' '] := ⟨List.forall_mem_singleton.mpr rfl, List.cons_ne_nil _ _⟩
  have hon : On ⟨["public"], "A", some "B", none⟩ "public class A extends B \x7b" := by
    refine ⟨by decide, ?_⟩
    rw [htext]
    exact .more (.of_all (by decide)) hgap (.more (.of_all (by decide)) hgap
      (.more (.of_all (by decide)) hgap (.more (.of_all (by decide)) hgap
        (.last (.of_all (by decide)) rfl))))
  have hon' : On ⟨[], "C", some "D", some "E"⟩ "class C extends D implements E \x7b" := by
    refine ⟨by decide, ?_⟩
    rw [htext']
    exact .more (.of_all (by decide)) hgap (.more (.of_all (by decide)) hgap
      (.more (.of_all (by decide)) hgap (.more (.of_all (by decide)) hgap
        (.more (.of_all (by decide)) hgap (.last (.of_all (by decide)) rfl)))))
  obtain ⟨hpublic, -⟩ := (hlines _ hfirst).2 _ hon
  obtain ⟨hparent, hinterface, -⟩ := (hlines _ hsecond).2 _ hon'
  exact ⟨rs, hrs, mt (hpublic "B" rfl).mp (by decide), (hparent "D" rfl).mpr rfl,
    mt (hinterface "E" rfl).mp (by decide)⟩

/-- Both classes are found, and of the three things that they say one is recorded. -/
theorem clauses_are_lost :
    let content := "public class A extends B \x7b\nclass C extends D implements E \x7b\n"
    let found := Dialect.java.findSymbols ⟨"f", "x"⟩ (Text.lines content)
    found = [.symbol (Source.symbolOn ⟨"f", "x"⟩ 1 "A" "class" "public class A extends B \x7b"),
        .symbol (Source.symbolOn ⟨"f", "x"⟩ 2 "C" "class" "class C extends D implements E \x7b")] ∧
      Dialect.java.findRelations content (found.map (·.outline)) =
        .ok { entries := [("C", .link "inherits" "D" "class" 2)] } := by
  decide +kernel

end ClassHeader

/-! ## Python -/

namespace Text

theorem toList_join_cons (sep w v : String) (ws : List String) :
    (join sep (w :: v :: ws)).toList = w.toList ++ (sep.toList ++ (join sep (v :: ws)).toList) := by
  rw [join, String.toList_append, String.toList_append, List.append_assoc]
  exact List.cons_ne_nil v ws

/-- The characters of joined texts are those of the texts and of what stands between them. -/
theorem mem_join {sep : String} {ws : List String} {c : Char} (h : c ∈ (join sep ws).toList) :
    (∃ w ∈ ws, c ∈ w.toList) ∨ c ∈ sep.toList := by
  induction ws with
  | nil => exact absurd h List.not_mem_nil
  | cons w ws ih =>
      cases ws with
      | nil => exact .inl ⟨w, List.mem_cons_self, h⟩
      | cons v ws =>
          rw [toList_join_cons, List.mem_append, List.mem_append] at h
          rcases h with hw | hsep | hmore
          · exact .inl ⟨w, List.mem_cons_self, hw⟩
          · exact .inr hsep
          · rcases ih hmore with ⟨u, hu, hc⟩ | hsep
            · exact .inl ⟨u, List.mem_cons_of_mem w hu, hc⟩
            · exact .inr hsep

/-- Joined names have no blanks at their ends. -/
theorem strip_join {sep : String} {ws : List String} (hws : ∀ w ∈ ws, IsName w.toList) :
    strip (join sep ws) = join sep ws := by
  have hlast : ∀ front : List Char, ws ≠ [] →
      (front ++ (join sep ws).toList).getLast?.any isBlank = false := by
    induction ws with
    | nil => exact fun _ hne => absurd rfl hne
    | cons w ws ih =>
        obtain ⟨hw, hmore⟩ := List.forall_mem_cons.mp hws
        intro front _
        cases ws with
        | nil => exact hw.getLast?_isBlank front
        | cons v ws =>
            rw [toList_join_cons, ← List.append_assoc, ← List.append_assoc]
            exact ih hmore _ (List.cons_ne_nil v ws)
  cases ws with
  | nil => rfl
  | cons w ws =>
      refine strip_eq_self ?_ (hlast [] (List.cons_ne_nil w ws))
      have hw := hws w List.mem_cons_self
      cases ws with
      | nil => exact List.append_nil w.toList ▸ hw.head?_isBlank []
      | cons v ws =>
          rw [toList_join_cons]
          exact hw.head?_isBlank _

end Text

namespace ClassBases

open Text

variable {name inner name' inner' cs : List Char} {parts : List (Nat × List Char)} {line : String}
  {n : Nat}

/-- The rule that finds the bases of a class. -/
def rule : HeaderRule :=
  .inherits (defined "class" ++ blanks ++ lit "(" ++ capture 2 (plus (.noneOf ")")) ++ lit ")")

/-- A header of a class up to the closing parenthesis, with the text that it encloses. -/
structure Header (name inner cs : List Char) : Prop where
  isName : IsName name
  enclosed : ')' ∉ inner ∧ 1 ≤ inner.length
  layout : ∃ lead pad, Spaced ["class"] lead ∧ (∀ c ∈ pad, isBlank c = true) ∧
    cs = lead ++ (name ++ (pad ++ '(' :: (inner ++ [')'])))

theorem takes_rule_iff :
    rule.pattern.Takes cs parts ↔
      ∃ name inner, Header name inner cs ∧ parts = [(2, inner), (1, name)] := by
  have hclass : IsName "class".toList := .of_all (by decide)
  simp only [rule, HeaderRule.inherits, defined, plus, takes_append_silent_iff takes_lit_iff,
    takes_append_iff (q := capture 2 _), takes_capture_iff, takes_noParen_iff,
    takes_append_silent_iff takes_blanks_iff, takes_append_name_iff, takes_keyword_iff hclass]
  constructor
  · rintro ⟨-, -, ⟨-, inner, -, -, ⟨-, -, ⟨-, pad, ⟨lead, name, -, ⟨hlead, rfl⟩, hname, rfl, rfl⟩,
      hpad, rfl⟩, rfl, rfl⟩, ⟨-, ⟨hinner, rfl⟩, rfl⟩, rfl, rfl⟩, rfl, rfl⟩
    exact ⟨name, inner, ⟨hname, hinner, lead, pad, hlead, hpad, by simp⟩, rfl⟩
  · rintro ⟨name, inner, ⟨hname, hinner, lead, pad, hlead, hpad, rfl⟩, rfl⟩
    exact ⟨_, _, ⟨_, inner, _, _, ⟨_, _, ⟨_, pad, ⟨lead, name, _, ⟨hlead, rfl⟩, hname, rfl, rfl⟩,
      hpad, rfl⟩, rfl, rfl⟩, ⟨_, ⟨hinner, rfl⟩, rfl⟩, rfl, rfl⟩, rfl, by simp⟩

/-- A text begins with at most one such header. -/
theorem Header.unique {cs' rest rest' : List Char} (h : Header name inner cs)
    (h' : Header name' inner' cs') (heq : cs ++ rest = cs' ++ rest') :
    name = name' ∧ inner = inner' := by
  obtain ⟨hname, ⟨hinner, -⟩, lead, pad, hlead, hpad, rfl⟩ := h
  obtain ⟨hname', ⟨hinner', -⟩, lead', pad', hlead', hpad', rfl⟩ := h'
  obtain ⟨-, gap, hgap, rfl⟩ := spaced_singleton_iff.mp hlead
  obtain ⟨-, gap', hgap', rfl⟩ := spaced_singleton_iff.mp hlead'
  have hsign : ∀ {pad rest : List Char}, (∀ c ∈ pad, isBlank c = true) →
      (pad ++ '(' :: rest).head?.any isWord = false := by
    intro pad rest hpad
    cases pad with
    | nil => rfl
    | cons c pad => exact isWord_of_isBlank (hpad c List.mem_cons_self)
  have hkept : ∀ {inner : List Char}, ')' ∉ inner → ∀ c ∈ inner, (c != ')') = true := by
    intro inner hnot c hc
    exact bne_iff_ne.mpr fun heq => hnot (heq ▸ hc)
  -- the blanks, the name, more blanks and the enclosed text are runs, one after another
  simp only [List.append_assoc, List.append_cancel_left_eq, List.cons_append] at heq
  obtain ⟨-, heq⟩ := run_unique heq hgap.blank hgap'.blank (hname.head?_isBlank _)
    (hname'.head?_isBlank _)
  obtain ⟨hnames, heq⟩ := run_unique heq hname.2 hname'.2 (hsign hpad) (hsign hpad')
  obtain ⟨-, heq⟩ := run_unique heq hpad hpad' rfl rfl
  obtain ⟨hinners, -⟩ := run_unique (List.cons.inj heq).2 (hkept hinner) (hkept hinner') rfl rfl
  exact ⟨hnames, hinners⟩

/-- What the rule finds on a line that begins with a header. -/
theorem Header.onLine_eq {rest : List Char} (h : Header name inner cs)
    (hline : (strip line).toList = cs ++ rest) :
    rule.onLine n line = some (String.ofList name,
      .link "inherits" (strip (String.ofList inner)) "class" n) := by
  obtain ⟨m, hm⟩ := (takes_rule_iff.mpr ⟨name, inner, h, rfl⟩).exists_matchStart? hline
  obtain ⟨cs', rest', htakes, hline'⟩ := exists_of_matchStart? rfl hm
  obtain ⟨name', inner', h', hgroups⟩ := takes_rule_iff.mp htakes
  obtain ⟨rfl, rfl⟩ := h.unique h' (hline.symm.trans hline')
  have hfirst : m.group 1 = String.ofList name := Match.group_of_groups hgroups rfl
  have hsecond : m.group 2 = String.ofList inner := Match.group_of_groups hgroups rfl
  rw [← hfirst, ← hsecond]
  exact Option.map_eq_some_iff.mpr ⟨m, hm, rfl⟩

/-! ### Bases -/

/-- Whether a line begins with the header of a class with bases, after blanks or none. -/
structure On (name : String) (bases : List String) (line : String) : Prop where
  isName : IsName name.toList
  areNames : ∀ b ∈ bases, IsName b.toList
  ne_nil : bases ≠ []
  header : ("class " ++ name ++ "(" ++ join ", " bases ++ "):").toList <+: (strip line).toList

variable {bases : List String}

theorem enclosed_join (hbases : ∀ b ∈ bases, IsName b.toList) (hne : bases ≠ []) :
    ')' ∉ (join ", " bases).toList ∧ 1 ≤ (join ", " bases).toList.length := by
  constructor
  · intro hmem
    rcases mem_join hmem with ⟨b, hb, hc⟩ | hsep
    · exact absurd ((hbases b hb).2 _ hc) (by decide)
    · exact absurd hsep (by decide)
  · obtain ⟨b, bs, rfl⟩ := List.exists_cons_of_ne_nil hne
    have hb : 1 ≤ b.toList.length := List.length_pos_iff.mpr (hbases b List.mem_cons_self).1
    cases bs with
    | nil => exact hb
    | cons b' bs =>
        rw [toList_join_cons, List.length_append]
        exact Nat.le_add_right_of_le hb

/-- The rule takes all bases together for one. -/
theorem On.onLine_eq {name : String} (hon : On name bases line) :
    rule.onLine n line = some (name, .link "inherits" (join ", " bases) "class" n) := by
  obtain ⟨rest, hline⟩ := hon.header
  have hclass : Spaced ["class"] "class ".toList :=
    spaced_singleton_iff.mpr ⟨.of_all (by decide), [' '],
      ⟨List.forall_mem_singleton.mpr rfl, List.cons_ne_nil _ _⟩, rfl⟩
  have hheader : Header name.toList (join ", " bases).toList ("class ".toList ++ (name.toList ++
      ([] ++ '(' :: ((join ", " bases).toList ++ [')'])))) :=
    ⟨hon.isName, enclosed_join hon.areNames hon.ne_nil, _, [], hclass,
      fun _ hc => absurd hc List.not_mem_nil, rfl⟩
  have htext : (strip line).toList = "class ".toList ++ (name.toList ++
      ([] ++ '(' :: ((join ", " bases).toList ++ [')']))) ++ ':' :: rest := by
    rw [← hline]
    simp
  rw [hheader.onLine_eq htext, String.ofList_toList, String.ofList_toList, strip_join hon.areNames]

/-- Two bases or more are no name. -/
theorem length_eq_one_of_isName (hne : bases ≠ []) (h : IsName (join ", " bases).toList) :
    bases.length = 1 := by
  obtain ⟨b, bs, rfl⟩ := List.exists_cons_of_ne_nil hne
  cases bs with
  | nil => rfl
  | cons b' bs =>
      have hcomma : ',' ∈ (join ", " (b :: b' :: bs)).toList := by
        rw [toList_join_cons]
        simp
      exact absurd (h.2 ',' hcomma) (by decide)

/-- All bases of a class are recorded together, as one parent. They are recorded one by one exactly
if there is only one, and otherwise no symbol has the name of the parent. -/
theorem bases_recorded_together (content : String) {outlines : List Outline}
    (hplaced : ∀ o ∈ outlines, o.Placed) :
    ∃ rs, Dialect.python.findRelations content outlines = .ok rs ∧
      ∀ l ∈ (lines content).zipIdx 1, ∀ name bases, On name bases l.1 →
        rs.ofKindOn name "inherits" l.2 =
          [.link "inherits" (join ", " bases) "class" l.2] ∧
        (rs.ofKindOn name "inherits" l.2 =
          bases.map (.link "inherits" · "class" l.2) ↔ bases.length = 1) ∧
        ∀ src ls, ∀ s : Symbol, .symbol s ∈ Dialect.python.findSymbols src ls →
          s.name = join ", " bases → bases.length = 1 := by
  have hrules : Dialect.python.lineRules? = some python := rfl
  obtain ⟨rs, hrs⟩ : ∃ rs, python.findRelations outlines (lines content) = .ok rs :=
    ⟨_, LineRules.findRelations_eq hplaced⟩
  refine ⟨rs, (Dialect.findRelations_of_lineRules? hrules content outlines).trans hrs, ?_⟩
  rintro ⟨line, n⟩ hl name bases hon
  -- one rule finds bases, and it finds the whole text between the parentheses
  have hone : rs.ofKindOn name "inherits" n = [.link "inherits" (join ", " bases) "class" n] := by
    have hheaders : python.headers = [rule] := rfl
    have hfound : rule.onLine n line = _ := hon.onLine_eq
    rw [LineRules.ofKindOn_eq hrs hl (by decide), hheaders]
    simp [hfound, Relation.kind]
  refine ⟨hone, ?_, ?_⟩
  · rw [hone]
    constructor
    · intro heq
      have hlength := congrArg List.length heq
      rw [List.length_map] at hlength
      exact hlength.symm
    · intro hlength
      obtain ⟨b, rfl⟩ := List.length_eq_one_iff.mp hlength
      rfl
  · intro src ls s hs hname
    obtain ⟨-, rules, hrules, hnames⟩ := Dialect.lineRules_of_nameRule? (d := .python) rfl
    rw [Dialect.findSymbols_of_lineRules? hrules] at hs
    obtain ⟨r, hr, l, -, -, -, hfound⟩ := exists_of_mem_findSymbols hs
    have hisName := (SymbolRule.exists_of_nameOn? (hnames r hr) hfound).1
    rw [hname] at hisName
    exact length_eq_one_of_isName hon.ne_nil hisName

/-- A class with two bases. -/
theorem bases_recorded_together_two :
    let content := "class C(A, B):\n    pass\n"
    ∃ rs, Dialect.python.findRelations content
        ((python.findSymbols ⟨"f", "x"⟩ (lines content)).map (·.outline)) = .ok rs ∧
      On "C" ["A", "B"] "class C(A, B):" ∧
      rs.ofKindOn "C" "inherits" 1 = [.link "inherits" "A, B" "class" 1] := by
  obtain ⟨rs, hrs, hlines⟩ := bases_recorded_together "class C(A, B):\n    pass\n"
    (python.placed_findSymbols ⟨"f", "x"⟩ _)
  have hfacts : ("class C(A, B):", 1) ∈ (lines "class C(A, B):\n    pass\n").zipIdx 1 ∧
      ("class " ++ "C" ++ "(" ++ join ", " ["A", "B"] ++ "):").toList <+:
        (strip "class C(A, B):").toList := by
    decide +kernel
  have hon : On "C" ["A", "B"] "class C(A, B):" := by
    refine ⟨.of_all (by decide), ?_, List.cons_ne_nil _ _, hfacts.2⟩
    exact List.forall_mem_cons.mpr ⟨.of_all (by decide),
      List.forall_mem_singleton.mpr (.of_all (by decide))⟩
  exact ⟨rs, hrs, hon, (hlines _ hfacts.1 _ _ hon).1⟩

/-- Neither base is recorded by its name. -/
theorem bases_are_not_named :
    Dialect.python.findRelations "class C(A, B):\n    pass\n" [] =
      .ok { entries := [("C", .link "inherits" "A, B" "class" 1)] } := by
  decide +kernel

end ClassBases

end SymbolAtlas
