/-
  SymbolAtlas.Proofs.DefinitionNames: the name of a definition, found in two ways.

  A line rule finds the name of a definition by a pattern, as a run of word characters. The name is
  also read off the text of the definition: some beginnings are cut off, and the word that comes
  next, up to a blank, is the name. Both ways give the same name exactly when the name comes next
  after the cuts and a blank or the end follows it. Where every definition begins with a keyword,
  this can be told from the line itself: a space must follow the keyword and a blank the name.
-/

import SymbolAtlas.Dialect.Basic
import SymbolAtlas.Proofs.Matching

namespace SymbolAtlas

namespace Text

/-! ## The first word -/

/-- Whether a word comes next in a text, with a blank or the end after it. -/
def NextWord (w cs : List Char) : Prop :=
  ∃ gap rest, cs = gap ++ w ++ rest ∧ (∀ c ∈ gap, isBlank c = true) ∧
    rest.head?.all isBlank = true

/-- Whether a text begins with a character that is no blank. -/
def startsInk (cs : List Char) : Bool := cs.head?.any fun c => !isBlank c

/-- Characters that a name may have: at least one, and all of them word characters. -/
def IsName (cs : List Char) : Prop := cs ≠ [] ∧ ∀ c ∈ cs, isWord c = true

/-- Whether a text begins with a word and blanks, and goes on with something else: after the word
come the blanks `gap` and then `tail`. -/
structure OpensWith (w gap tail cs : List Char) : Prop where
  text : cs = w ++ gap ++ tail
  gap_ne : gap ≠ []
  blank : ∀ c ∈ gap, isBlank c = true
  ink : startsInk tail = true

theorem isBlank_of_isWord {c : Char} (h : isWord c = true) : isBlank c = false := by
  rw [Bool.eq_false_iff]
  intro hblank
  exact absurd (h.symm.trans (isWord_of_isBlank hblank)) (by decide)

theorem IsName.not_isBlank {cs : List Char} (h : IsName cs) : ∀ c ∈ cs, isBlank c = false :=
  fun c hc => isBlank_of_isWord (h.2 c hc)

theorem startsInk_append {cs : List Char} (h : startsInk cs = true) (ds : List Char) :
    startsInk (cs ++ ds) = true := by
  cases cs with
  | nil => exact absurd h (by decide)
  | cons c cs => exact h

theorem IsName.startsInk {cs : List Char} (h : IsName cs) : startsInk cs = true := by
  obtain ⟨c, cs, rfl⟩ := List.exists_cons_of_ne_nil h.1
  rw [Text.startsInk, List.head?_cons, Option.any_some, h.not_isBlank c List.mem_cons_self]
  rfl

theorem wordLists_cons_of_isBlank {c : Char} (h : isBlank c = true) (cs : List Char) :
    wordLists (c :: cs) = wordLists cs := by
  simp only [wordLists, splitWords, h, if_true, List.isEmpty_nil]

theorem wordLists_append_of_isBlank {gap : List Char} (h : ∀ c ∈ gap, isBlank c = true)
    (cs : List Char) : wordLists (gap ++ cs) = wordLists cs := by
  induction gap with
  | nil => rfl
  | cons c rest ih =>
      rw [List.cons_append, wordLists_cons_of_isBlank (h c List.mem_cons_self)]
      exact ih fun d hd => h d (List.mem_cons_of_mem c hd)

/-- The word at the start of a text goes on up to a blank or the end. -/
theorem splitWords_fst_append {w rest : List Char} (hw : ∀ c ∈ w, isBlank c = false)
    (hrest : rest.head?.all isBlank = true) : (splitWords (w ++ rest)).1 = w := by
  induction w with
  | nil =>
      cases rest with
      | nil => rfl
      | cons c cs =>
          have hc : isBlank c = true := hrest
          simp only [List.nil_append, splitWords, hc, if_true]
  | cons c cs ih =>
      have hc : isBlank c = false := hw c List.mem_cons_self
      rw [List.cons_append, splitWords, hc]
      exact congrArg (c :: ·) (ih fun d hd => hw d (List.mem_cons_of_mem c hd))

theorem head?_wordLists_of_ne_nil {cs : List Char} (h : (splitWords cs).1 ≠ []) :
    (wordLists cs).head? = some (splitWords cs).1 := by
  have hne : (splitWords cs).1.isEmpty = false := by
    rw [Bool.eq_false_iff]
    exact fun hempty => h (List.isEmpty_iff.mp hempty)
  simp only [wordLists, hne, Bool.false_eq_true, if_false, List.head?_cons]

/-- A word that comes next is the first word. -/
theorem NextWord.head?_wordLists {w cs : List Char} (h : NextWord w cs) (hne : w ≠ [])
    (hw : ∀ c ∈ w, isBlank c = false) : (wordLists cs).head? = some w := by
  obtain ⟨gap, rest, rfl, hgap, hrest⟩ := h
  have hfst : (splitWords (w ++ rest)).1 = w := splitWords_fst_append hw hrest
  rw [List.append_assoc, wordLists_append_of_isBlank hgap,
    head?_wordLists_of_ne_nil (hfst.symm ▸ hne), hfst]

/-- The word at the start of a text, and what comes after it. -/
theorem exists_append_splitWords (cs : List Char) :
    ∃ rest, cs = (splitWords cs).1 ++ rest ∧ rest.head?.all isBlank = true := by
  induction cs with
  | nil => exact ⟨[], rfl, rfl⟩
  | cons c cs ih =>
      cases hc : isBlank c with
      | true =>
          refine ⟨c :: cs, ?_, hc⟩
          simp only [splitWords, hc, if_true, List.nil_append]
      | false =>
          obtain ⟨rest, hcs, hrest⟩ := ih
          refine ⟨rest, ?_, hrest⟩
          rw [splitWords, hc]
          exact congrArg (c :: ·) hcs

/-- The first word comes next. -/
theorem nextWord_of_head?_wordLists {w cs : List Char} (h : (wordLists cs).head? = some w) :
    NextWord w cs := by
  induction cs with
  | nil => exact absurd h (by simp [wordLists, splitWords])
  | cons c cs ih =>
      cases hc : isBlank c with
      | true =>
          rw [wordLists_cons_of_isBlank hc] at h
          obtain ⟨gap, rest, hcs, hgap, hrest⟩ := ih h
          refine ⟨c :: gap, rest, congrArg (c :: ·) hcs, ?_, hrest⟩
          exact List.forall_mem_cons.mpr ⟨hc, hgap⟩
      | false =>
          have hne : (splitWords (c :: cs)).1 ≠ [] := by simp [splitWords, hc]
          rw [head?_wordLists_of_ne_nil hne, Option.some.injEq] at h
          obtain ⟨rest, hcs, hrest⟩ := exists_append_splitWords (c :: cs)
          exact ⟨[], rest, h ▸ hcs, fun d hd => absurd hd List.not_mem_nil, hrest⟩

theorem firstWord?_eq (s : String) :
    firstWord? s = (wordLists s.toList).head?.map String.ofList := by
  rw [firstWord?, words, List.head?_map]

/-- The first word of a text is the one that comes next. -/
theorem firstWord?_eq_some_iff {s n : String} (hne : n.toList ≠ [])
    (hn : ∀ c ∈ n.toList, isBlank c = false) :
    firstWord? s = some n ↔ NextWord n.toList s.toList := by
  rw [firstWord?_eq, Option.map_eq_some_iff]
  constructor
  · rintro ⟨w, hw, rfl⟩
    rw [String.toList_ofList]
    exact nextWord_of_head?_wordLists hw
  · intro h
    exact ⟨n.toList, h.head?_wordLists hne hn, String.ofList_toList⟩

/-- After blanks, a word comes next if the rest begins with it and goes on with a blank. -/
theorem nextWord_append_iff {w gap tail : List Char} (hne : w ≠ [])
    (hw : ∀ c ∈ w, isBlank c = false) (hgap : ∀ c ∈ gap, isBlank c = true)
    (htail : startsInk tail = true) :
    NextWord w (gap ++ tail) ↔ ∃ rest, tail = w ++ rest ∧ rest.head?.all isBlank = true := by
  constructor
  · intro h
    -- the first word of the tail begins where the tail does
    have hhead := h.head?_wordLists hne hw
    obtain ⟨c, cs, rfl, hc⟩ : ∃ c cs, tail = c :: cs ∧ isBlank c = false := by
      cases tail with
      | nil => exact absurd htail (by decide)
      | cons c cs => exact ⟨c, cs, rfl, by simpa [startsInk] using htail⟩
    have hstart : (splitWords (c :: cs)).1 ≠ [] := by simp [splitWords, hc]
    rw [wordLists_append_of_isBlank hgap, head?_wordLists_of_ne_nil hstart,
      Option.some.injEq] at hhead
    exact hhead ▸ exists_append_splitWords (c :: cs)
  · rintro ⟨rest, rfl, hrest⟩
    exact ⟨gap, rest, (List.append_assoc gap w rest).symm, hgap, hrest⟩

end Text

/-! ## What a pattern passes -/

theorem Cursor.rest_of_skip? {x y : Cursor} {cs : List Char} (h : x.skip? cs = some y) :
    x.rest = cs ++ y.rest := by
  induction cs generalizing x with
  | nil =>
      rw [skip?] at h
      rw [Option.some.inj h, List.nil_append]
  | cons d ds ih =>
      rw [skip?] at h
      split at h
      next c r hrest =>
        split at h
        next heq => rw [hrest, heq, List.cons_append, ← ih h, Cursor.next]
        next => exact absurd h (by simp)
      next => exact absurd h (by simp)

namespace Pattern

variable {p q : Pattern} {x y : Cursor} {s : CharClass} {w : String} {n : Nat}

/-- A run passes characters of its class. -/
theorem exists_of_mem_endsMany {xs : List Char} {least : Nat} {most : Option Nat}
    (hx : x.rest = xs) (h : y ∈ endsMany s xs least most x) :
    ∃ cs, xs = cs ++ y.rest ∧ y.offset = x.offset + cs.length ∧ least ≤ cs.length ∧
      ∀ c ∈ cs, s.holds c = true := by
  -- where a run ends nothing more is taken, which will do if nothing more is required
  have hhere : ∀ {u : Cursor} {us : List Char} {least : Nat}, u.rest = us →
      y ∈ (if least = 0 then [u] else []) →
      ∃ cs, us = cs ++ y.rest ∧ y.offset = u.offset + cs.length ∧ least ≤ cs.length ∧
        ∀ c ∈ cs, s.holds c = true := by
    intro u us least hu hmem
    split at hmem
    next hleast =>
      obtain rfl := List.mem_singleton.mp hmem
      exact ⟨[], hu.symm, rfl, Nat.le_of_eq hleast, fun c hc => absurd hc List.not_mem_nil⟩
    next => exact absurd hmem List.not_mem_nil
  induction xs generalizing least most x with
  | nil =>
      rw [endsMany] at h
      exact hhere hx h
  | cons c rest ih =>
      rw [endsMany] at h
      rcases List.mem_append.mp h with hmore | hend
      · split at hmore
        next hholds =>
          obtain ⟨cs, hrest, hoffset, hleast, hcs⟩ := ih rfl hmore
          refine ⟨c :: cs, congrArg (c :: ·) hrest, ?_, ?_, ?_⟩
          · have hnext : (x.next c rest).offset = x.offset + 1 := rfl
            rw [hoffset, hnext, List.length_cons]
            omega
          · rw [List.length_cons]
            omega
          · exact List.forall_mem_cons.mpr ⟨((Bool.and_eq_true _ _).mp hholds).1, hcs⟩
        next => exact absurd hmore List.not_mem_nil
      · exact hhere hx hend

/-! ## Names in patterns -/

/-- Whether part `n` of every match is a run of word characters. -/
def yieldsName (n : Nat) : Pattern → Bool
  | .seq p q => q.yieldsName n || (!q.remembers n && p.yieldsName n)
  | .alt p q => p.yieldsName n && q.yieldsName n
  | .capture m p => m == n && p == ident
  | _ => false

theorem holds_word (c : Char) : CharClass.word.holds c = Text.isWord c := by
  simp [CharClass.holds, CharClass.word, ClassItem.holds]

theorem holds_blank (c : Char) : CharClass.blank.holds c = Text.isBlank c := by
  simp [CharClass.holds, CharClass.blank, ClassItem.holds]

theorem isName_of_mem_endsMany {least : Nat} {most : Option Nat} (hleast : 0 < least)
    (h : y ∈ endsMany .word x.rest least most x) :
    ∃ cs, x.rest = cs ++ y.rest ∧ Text.IsName cs ∧ y.offset = x.offset + cs.length := by
  obtain ⟨cs, hrest, hoffset, hle, hcs⟩ := exists_of_mem_endsMany rfl h
  have hne : cs ≠ [] := List.ne_nil_of_length_pos (Nat.lt_of_lt_of_le hleast hle)
  exact ⟨cs, hrest, ⟨hne, fun c hc => holds_word c ▸ hcs c hc⟩, hoffset⟩

/-- A remembered name is what was passed. -/
theorem isName_of_mem_ends_name (h : y ∈ (name n).ends x) :
    ∃ cs, y.group? n = some cs ∧ Text.IsName cs := by
  obtain ⟨z, hz, rfl⟩ := List.mem_map.mp h
  obtain ⟨cs, hrest, hname, hoffset⟩ := isName_of_mem_endsMany Nat.one_pos hz
  have hlength : z.offset - x.offset = cs.length := by omega
  refine ⟨cs, ?_, hname⟩
  rw [Cursor.group?, Cursor.record, List.find?_cons, beq_self_eq_true]
  show some (x.rest.take (z.offset - x.offset)) = some cs
  rw [hlength, hrest, List.take_left]

theorem isName_of_yieldsName (hp : p.yieldsName n = true) (h : y ∈ p.ends x) :
    ∃ cs, y.group? n = some cs ∧ Text.IsName cs := by
  induction p generalizing x y with
  | seq p q ihp ihq =>
      obtain ⟨z, hz, hy⟩ := mem_ends_append.mp h
      rw [yieldsName, Bool.or_eq_true, Bool.and_eq_true, Bool.not_eq_true'] at hp
      -- either the later pattern remembers the name, or it leaves the part as it is
      rcases hp with hq | ⟨hno, hp⟩
      · exact ihq hq hy
      · rw [group?_of_mem_ends hno hy]
        exact ihp hp hz
  | alt p q ihp ihq =>
      rw [yieldsName, Bool.and_eq_true] at hp
      rcases List.mem_append.mp h with h | h
      · exact ihp hp.1 h
      · exact ihq hp.2 h
  | capture m p _ =>
      rw [yieldsName, Bool.and_eq_true, beq_iff_eq, beq_iff_eq] at hp
      obtain ⟨rfl, rfl⟩ := hp
      exact isName_of_mem_ends_name h
  | _ => exact absurd hp Bool.false_ne_true

/-! ## Keywords in patterns -/

/-- Whether a match begins with a character that is no blank, when `next` says so of what comes
after the match. -/
def inkThen : Pattern → (next : Bool) → Bool
  | .empty, next => next
  | .text cs, _ => Text.startsInk cs
  | .many s least _, _ => s == .word && least != 0
  | .seq p q, next => p.inkThen (q.inkThen next)
  | .alt p q, next => p.inkThen next && q.inkThen next
  | .capture _ p, next => p.inkThen next
  | _, _ => false

/-- Whether a match begins with a keyword and blanks and goes on with something else. -/
def headsThen (w : String) : Pattern → (next : Bool) → Bool
  | .seq p q, next => p == keyword w && q.inkThen next || p.headsThen w (q.inkThen next)
  | _, _ => false

theorem startsInk_of_inkThen {next : Bool} (hp : p.inkThen next = true) (h : y ∈ p.ends x)
    (hnext : next = true → Text.startsInk y.rest = true) : Text.startsInk x.rest = true := by
  induction p generalizing x y next with
  | empty =>
      rw [← List.mem_singleton.mp h]
      exact hnext hp
  | text cs =>
      rw [Cursor.rest_of_skip? (Option.mem_toList.mp h)]
      exact Text.startsInk_append hp y.rest
  | many s least most =>
      rw [inkThen, Bool.and_eq_true, beq_iff_eq, bne_iff_ne] at hp
      obtain ⟨rfl, hleast⟩ := hp
      obtain ⟨cs, hrest, hname, -⟩ := isName_of_mem_endsMany (Nat.pos_of_ne_zero hleast) h
      rw [hrest]
      exact Text.startsInk_append hname.startsInk y.rest
  | seq p q ihp ihq =>
      obtain ⟨z, hz, hy⟩ := mem_ends_append.mp h
      exact ihp hp hz fun hq => ihq hq hy hnext
  | alt p q ihp ihq =>
      rw [inkThen, Bool.and_eq_true] at hp
      rcases List.mem_append.mp h with h | h
      · exact ihp hp.1 h hnext
      · exact ihq hp.2 h hnext
  | capture m p ih =>
      obtain ⟨z, hz, rfl⟩ := List.mem_map.mp h
      exact ih hp hz hnext
  | _ => exact absurd hp Bool.false_ne_true

theorem exists_of_mem_ends_keyword (h : y ∈ (keyword w).ends x) :
    ∃ gap, x.rest = w.toList ++ gap ++ y.rest ∧ gap ≠ [] ∧ ∀ c ∈ gap, Text.isBlank c = true := by
  obtain ⟨z, hz, hy⟩ := mem_ends_append.mp h
  obtain ⟨gap, hrest, -, hleast, hgap⟩ := exists_of_mem_endsMany rfl hy
  refine ⟨gap, ?_, List.ne_nil_of_length_pos hleast, fun c hc => holds_blank c ▸ hgap c hc⟩
  rw [Cursor.rest_of_skip? (Option.mem_toList.mp hz), hrest, List.append_assoc]

theorem opensWith_of_headsThen {next : Bool} (hp : p.headsThen w next = true) (h : y ∈ p.ends x)
    (hnext : next = true → Text.startsInk y.rest = true) :
    ∃ gap tail, Text.OpensWith w.toList gap tail x.rest := by
  induction p generalizing x y next with
  | seq p q ihp _ =>
      obtain ⟨z, hz, hy⟩ := mem_ends_append.mp h
      rw [headsThen, Bool.or_eq_true, Bool.and_eq_true, beq_iff_eq] at hp
      have hink : q.inkThen next = true → Text.startsInk z.rest = true :=
        fun hq => startsInk_of_inkThen hq hy hnext
      rcases hp with ⟨rfl, hq⟩ | hp
      · obtain ⟨gap, hrest, hgap, hblank⟩ := exists_of_mem_ends_keyword hz
        exact ⟨gap, z.rest, hrest, hgap, hblank, hink hq⟩
      · exact ihp hp hz hink
  | _ => exact absurd hp Bool.false_ne_true

end Pattern

/-! ## Findings of line rules -/

/-- A rule whose names are runs of word characters, read off the line without the blanks at its
ends. -/
def SymbolRule.findsNames (rule : SymbolRule) : Bool :=
  rule.pattern.yieldsName rule.part && !rule.raw && !rule.trimName

theorem SymbolRule.exists_of_nameOn? {rule : SymbolRule} {line n : String}
    (hrule : rule.findsNames = true) (h : rule.nameOn? line = some n) :
    Text.IsName n.toList ∧ ∃ y, y ∈ rule.pattern.ends (.start (Text.strip line).toList) := by
  simp only [findsNames, Bool.and_eq_true, Bool.not_eq_true'] at hrule
  obtain ⟨⟨hyields, hraw⟩, htrim⟩ := hrule
  rw [nameOn?, hraw, if_neg Bool.false_ne_true] at h
  split at h
  next m hmatch =>
    rw [Pattern.matchStart?, Pattern.matchAt?_eq, Option.map_eq_some_iff] at hmatch
    obtain ⟨y, hhead, rfl⟩ := hmatch
    have hy := List.mem_of_head? hhead
    obtain ⟨cs, hgroup, hname⟩ := Pattern.isName_of_yieldsName hyields hy
    have hpart : (Pattern.toMatch (.start (Text.strip line).toList) y).group rule.part =
        String.ofList cs := by
      rw [Match.group, Pattern.group?_toMatch, hgroup]
      rfl
    simp only [htrim, hpart, Bool.false_eq_true, if_false] at h
    split at h
    · exact absurd h (by simp)
    · obtain rfl := Option.some.inj h
      rw [String.toList_ofList]
      exact ⟨hname, y, hy⟩
  next => exact absurd h (by simp)

/-- A symbol is found on a line by one of the rules. -/
theorem exists_of_mem_findSymbols {rules : LineRules} {src : Source} {lines : List String}
    {s : Symbol} (h : .symbol s ∈ rules.findSymbols src lines) :
    ∃ rule ∈ rules.symbols, ∃ l ∈ lines.zipIdx 1, s.first = l.2 ∧
      s.snippet = Text.strip l.1 ∧ rule.nameOn? l.1 = some s.name := by
  obtain ⟨s', hs, heq⟩ := List.mem_map.mp h
  obtain rfl := Finding.symbol.inj heq
  obtain ⟨rule, hrule, hs⟩ := List.mem_flatMap.mp hs
  obtain ⟨l, hl, hs⟩ := List.mem_flatMap.mp hs
  obtain ⟨name, hname, rfl⟩ := List.mem_map.mp hs
  exact ⟨rule, hrule, l, hl, rfl, rfl, Option.mem_toList.mp hname⟩

/-! ## Cutting off beginnings -/

namespace Text

theorem dropPrefix?_eq_some_iff {p s t : String} :
    dropPrefix? p s = some t ↔ s.toList = p.toList ++ t.toList := by
  rw [dropPrefix?, hasPrefix]
  constructor
  · intro h
    split at h
    next hp =>
      obtain ⟨rest, hrest⟩ := List.isPrefixOf_iff_prefix.mp hp
      obtain rfl := Option.some.inj h
      rw [String.toList_ofList, ← hrest, List.drop_left]
    next => exact absurd h (by simp)
  · intro h
    rw [if_pos (List.isPrefixOf_iff_prefix.mpr ⟨t.toList, h.symm⟩), h, List.drop_left,
      String.ofList_toList]

/-- Whether a word stands in a text with blanks, or the ends of the text, on both sides. -/
def StandsAlone (w cs : List Char) : Prop :=
  ∃ pre rest, cs = pre ++ w ++ rest ∧ pre.getLast?.all isBlank = true ∧
    rest.head?.all isBlank = true

theorem getLast?_append_all {as bs : List Char} (ha : as.getLast?.all isBlank = true)
    (hb : bs.getLast?.all isBlank = true) : (as ++ bs).getLast?.all isBlank = true := by
  rw [List.getLast?_append]
  cases hlast : bs.getLast? with
  | none => exact ha
  | some c =>
      rw [hlast] at hb
      exact hb

theorem getLast?_all_of_forall {cs : List Char} (h : ∀ c ∈ cs, isBlank c = true) :
    cs.getLast?.all isBlank = true := by
  cases hlast : cs.getLast? with
  | none => rfl
  | some c => exact h c (List.mem_of_getLast? hlast)

/-- Two words that end at their first blanks are equal where the texts are. -/
theorem append_blank_inj {v w : List Char} (hv : ∀ c ∈ v, isBlank c = false)
    (hw : ∀ c ∈ w, isBlank c = false) {b c : Char} (hb : isBlank b = true) (hc : isBlank c = true)
    {t u : List Char} (h : v ++ b :: t = w ++ c :: u) : v = w ∧ b = c ∧ t = u := by
  induction v generalizing w with
  | nil =>
      cases w with
      | nil => exact ⟨rfl, List.cons.inj h⟩
      | cons d ds =>
          have hd : b = d := (List.cons.inj h).1
          exact absurd (hb.symm.trans (hd ▸ hw d List.mem_cons_self)) (by decide)
  | cons a as ih =>
      cases w with
      | nil =>
          have ha : a = c := (List.cons.inj h).1
          exact absurd (hc.symm.trans (ha ▸ hv a List.mem_cons_self)) (by decide)
      | cons d ds =>
          obtain ⟨rfl, htail⟩ := List.cons.inj h
          obtain ⟨hwords, hrest⟩ := ih (fun e he => hv e (List.mem_cons_of_mem a he))
            (fun e he => hw e (List.mem_cons_of_mem a he)) htail
          exact ⟨congrArg (a :: ·) hwords, hrest⟩

end Text

namespace NameRule

/-- What is left of a definition after the cuts. -/
def body (rule : NameRule) (text : String) : String :=
  rule.modifiers.foldl cut ((rule.openers.findSome? fun p => Text.dropPrefix? p text).getD text)

theorem read_eq (rule : NameRule) (text : String) :
    rule.read text = Text.firstWord? (rule.body text) := rfl

/-- Whether all that a rule cuts off ends with a blank. -/
def cutsAtBlanks (rule : NameRule) : Bool :=
  (rule.openers ++ rule.modifiers).all fun p => p.toList.getLast?.all Text.isBlank

theorem exists_of_cut {p : String} (hp : p.toList.getLast?.all Text.isBlank = true)
    (text : String) :
    ∃ pre, text.toList = pre ++ (cut text p).toList ∧ pre.getLast?.all Text.isBlank = true := by
  rw [cut]
  cases hdrop : Text.dropPrefix? p text with
  | none => exact ⟨[], rfl, rfl⟩
  | some t => exact ⟨p.toList, Text.dropPrefix?_eq_some_iff.mp hdrop, hp⟩

theorem exists_of_foldl_cut {ps : List String}
    (hps : ∀ p ∈ ps, p.toList.getLast?.all Text.isBlank = true) (text : String) :
    ∃ pre, text.toList = pre ++ (ps.foldl cut text).toList ∧
      pre.getLast?.all Text.isBlank = true := by
  induction ps generalizing text with
  | nil => exact ⟨[], rfl, rfl⟩
  | cons p ps ih =>
      obtain ⟨pre, htext, hpre⟩ := exists_of_cut (hps p List.mem_cons_self) text
      obtain ⟨mid, hmore, hmid⟩ := ih (fun q hq => hps q (List.mem_cons_of_mem p hq)) (cut text p)
      refine ⟨pre ++ mid, ?_, Text.getLast?_append_all hpre hmid⟩
      rw [htext, hmore, List.append_assoc, List.foldl_cons]

/-- What is cut off ends with a blank, if it is not empty. -/
theorem exists_of_body {rule : NameRule} (hrule : rule.cutsAtBlanks = true) (text : String) :
    ∃ pre, text.toList = pre ++ (rule.body text).toList ∧
      pre.getLast?.all Text.isBlank = true := by
  rw [cutsAtBlanks, List.all_append, Bool.and_eq_true, List.all_eq_true, List.all_eq_true] at hrule
  rw [body]
  cases hopen : rule.openers.findSome? fun p => Text.dropPrefix? p text with
  | none => exact exists_of_foldl_cut hrule.2 text
  | some t =>
      obtain ⟨p, hp, hdrop⟩ := List.exists_of_findSome?_eq_some hopen
      obtain ⟨mid, hmore, hmid⟩ := exists_of_foldl_cut hrule.2 t
      refine ⟨p.toList ++ mid, ?_, Text.getLast?_append_all (hrule.1 p hp) hmid⟩
      rw [Text.dropPrefix?_eq_some_iff.mp hdrop, hmore, List.append_assoc, Option.getD_some]

/-- A word that comes next after the cuts stands alone in the whole text. -/
theorem standsAlone_of_nextWord {rule : NameRule} (hrule : rule.cutsAtBlanks = true)
    {text : String} {w : List Char} (h : Text.NextWord w (rule.body text).toList) :
    Text.StandsAlone w text.toList := by
  obtain ⟨pre, htext, hpre⟩ := exists_of_body hrule text
  obtain ⟨gap, rest, hbody, hgap, hrest⟩ := h
  refine ⟨pre ++ gap, rest, ?_,
    Text.getLast?_append_all hpre (Text.getLast?_all_of_forall hgap), hrest⟩
  rw [htext, hbody]
  simp only [List.append_assoc]

/-! ### Rules that cut off one keyword -/

/-- The rule that cuts off the first of some words, with a space after it. -/
def ofWords (ws : List String) : NameRule := ⟨ws.map (· ++ " "), []⟩

variable {ws : List String} {w text : String} {gap tail rest : List Char} {b : Char}

/-- A word of the rule is cut off only where it begins the text and a space follows. -/
theorem eq_of_dropPrefix? {v t : String} (hv : ∀ c ∈ v.toList, Text.isBlank c = false)
    (hw : ∀ c ∈ w.toList, Text.isBlank c = false) (hb : Text.isBlank b = true)
    (htext : text.toList = w.toList ++ b :: rest) (h : Text.dropPrefix? (v ++ " ") text = some t) :
    b = ' ' ∧ t.toList = rest := by
  rw [Text.dropPrefix?_eq_some_iff, htext, String.toList_append, List.append_assoc] at h
  obtain ⟨-, hspace, hrest⟩ := Text.append_blank_inj hw hv hb (by decide) h
  exact ⟨hspace, hrest.symm⟩

theorem body_ofWords (hws : ∀ v ∈ ws, ∀ c ∈ v.toList, Text.isBlank c = false) (hw : w ∈ ws)
    (hb : Text.isBlank b = true) (htext : text.toList = w.toList ++ b :: rest) :
    ((ofWords ws).body text).toList = if b = ' ' then rest else text.toList := by
  have hcut : ∀ {t}, (ofWords ws).openers.findSome? (fun p => Text.dropPrefix? p text) = some t →
      b = ' ' ∧ t.toList = rest := by
    intro t hfound
    obtain ⟨p, hp, hdrop⟩ := List.exists_of_findSome?_eq_some hfound
    obtain ⟨v, hv, rfl⟩ := List.mem_map.mp hp
    exact eq_of_dropPrefix? (hws v hv) (hws w hw) hb htext hdrop
  show ((List.findSome? _ _).getD text).toList = _
  cases hopen : (ofWords ws).openers.findSome? fun p => Text.dropPrefix? p text with
  | some t =>
      obtain ⟨hspace, hrest⟩ := hcut hopen
      rw [if_pos hspace]
      exact hrest
  | none =>
      rw [if_neg]
      · rfl
      · -- with a space after it the word itself would have been cut off
        rintro rfl
        have hnone := List.findSome?_eq_none_iff.mp hopen (w ++ " ") (List.mem_map_of_mem hw)
        have hsome : Text.dropPrefix? (w ++ " ") text = some (String.ofList rest) := by
          rw [Text.dropPrefix?_eq_some_iff, htext]
          simp
        exact absurd (hnone.symm.trans hsome) (by simp)

/-- After a keyword and a space a name comes next if the rest of the line begins with it; after
another blank the keyword itself comes next. -/
theorem nextWord_body_ofWords_iff (hws : ∀ v ∈ ws, ∀ c ∈ v.toList, Text.isBlank c = false)
    (hne : w.toList ≠ []) (hw : w ∈ ws) (h : Text.OpensWith w.toList gap tail text.toList)
    {n : String} (hn : Text.IsName n.toList) :
    Text.NextWord n.toList ((ofWords ws).body text).toList ↔
      if gap.head? = some ' ' then
        ∃ rest, tail = n.toList ++ rest ∧ rest.head?.all Text.isBlank = true
      else n = w := by
  obtain ⟨b, gap, rfl⟩ := List.exists_cons_of_ne_nil h.gap_ne
  have hb := h.blank b List.mem_cons_self
  have htext : text.toList = w.toList ++ b :: (gap ++ tail) := by
    rw [h.text, List.append_assoc, List.cons_append]
  have hhead : (b :: gap).head? = some ' ' ↔ b = ' ' := by
    rw [List.head?_cons, Option.some.injEq]
  rw [body_ofWords hws hw hb htext]
  by_cases hspace : b = ' '
  · rw [if_pos hspace, if_pos (hhead.mpr hspace)]
    exact Text.nextWord_append_iff hn.1 hn.not_isBlank
      (fun c hc => h.blank c (List.mem_cons_of_mem b hc)) h.ink
  · rw [if_neg hspace, if_neg (mt hhead.mp hspace)]
    -- nothing was cut off, so that the next word is the keyword itself
    have hkeyword : Text.NextWord w.toList text.toList :=
      ⟨[], b :: (gap ++ tail), htext, fun c hc => absurd hc List.not_mem_nil, hb⟩
    constructor
    · intro hnext
      have hfirst := (hnext.head?_wordLists hn.1 hn.not_isBlank).symm.trans
        (hkeyword.head?_wordLists hne (hws w hw))
      exact String.toList_inj.mp (Option.some.inj hfirst)
    · rintro rfl
      exact hkeyword

end NameRule

/-! ## Both ways of finding a name -/

namespace Dialect

/-- How a dialect with line rules reaches the name in a definition, where a name rule says it. -/
def nameRule? : Dialect → Option NameRule
  | .python => some Declarations.pythonName
  | .javascript => some Declarations.javascriptName
  | .java => some Declarations.javaName
  | .cpp => some Declarations.cppName
  | .csharp => some Declarations.csharpName
  | .go => some Declarations.goName
  | .rust => some Declarations.rustName
  | _ => none

/-- The keywords of a dialect in which every definition begins with one. -/
def headwords : Dialect → List String
  | .python => ["def", "class"]
  | .javascript => ["function", "class", "const"]
  | .go => ["func", "type"]
  | .rust => ["fn", "struct", "trait"]
  | _ => []

/-- Whether the name that was found for a symbol is read off its text, for every hash and
capture. -/
def NamesAlike (d : Dialect) (s : Symbol) : Prop :=
  ∀ hash capture, d.definitionName hash capture s.snippet = some s.name

variable {d : Dialect} {rule : NameRule}

theorem definitionName_of_nameRule? (h : d.nameRule? = some rule) (hash : TextHash)
    (capture text : String) : d.definitionName hash capture text = rule.read text := by
  unfold nameRule? at h
  split at h
  case h_8 => exact nomatch h
  all_goals
    obtain rfl := Option.some.inj h
    rfl

/-- All names that a dialect finds are runs of word characters, and what it cuts off ends with a
blank. -/
theorem lineRules_of_nameRule? (h : d.nameRule? = some rule) :
    rule.cutsAtBlanks = true ∧
      ∃ rules, d.lineRules? = some rules ∧ ∀ r ∈ rules.symbols, r.findsNames = true := by
  unfold nameRule? at h
  split at h
  case h_8 => exact nomatch h
  all_goals
    obtain rfl := Option.some.inj h
    exact ⟨by decide +kernel, _, rfl, by decide +kernel⟩

theorem findSymbols_of_lineRules? {rules : LineRules} (h : d.lineRules? = some rules)
    (src : Source) (lines : List String) :
    d.findSymbols src lines = rules.findSymbols src lines := by
  unfold findSymbols
  rw [h]

/-! ### Keywords -/

/-- Every definition of a dialect with keywords begins with one of them, and the keyword is cut off
to reach the name. -/
theorem tables_of_headwords (hne : d.headwords ≠ []) :
    d.nameRule? = some (.ofWords d.headwords) ∧
      (∀ w ∈ d.headwords, w.toList ≠ [] ∧ w.toList.all (fun c => !Text.isBlank c) = true) ∧
      ∀ rules ∈ d.lineRules?, ∀ r ∈ rules.symbols, ∃ w ∈ d.headwords,
        r.pattern.headsThen w false = true := by
  unfold headwords at hne
  split at hne
  case h_5 => exact absurd rfl hne
  all_goals exact ⟨by decide +kernel, by decide +kernel, by decide +kernel⟩

/-! ### Comparison -/

theorem namesAlike_iff (h : d.nameRule? = some rule) {s : Symbol} (hs : Text.IsName s.name.toList) :
    d.NamesAlike s ↔ Text.NextWord s.name.toList (rule.body s.snippet).toList := by
  rw [← Text.firstWord?_eq_some_iff hs.1 hs.not_isBlank, ← NameRule.read_eq]
  constructor
  · intro hsame
    rw [← definitionName_of_nameRule? h .zero "" s.snippet]
    exact hsame .zero ""
  · intro hread hash capture
    rw [definitionName_of_nameRule? h]
    exact hread

/-- The name found for a definition by a line rule is also read off its line exactly when it comes
next after the cuts, with a blank or the end after it. Such a name stands alone in the line. Where
definitions begin with keywords, the line is a keyword, blanks and a tail, and the names are alike
when the blanks begin with a space and the tail is the name, up to a blank; or, with another blank
after the keyword, when the definition is called like its keyword. -/
theorem definitionName_found_iff (h : d.nameRule? = some rule) (src : Source)
    (lines : List String) {s : Symbol} (hs : .symbol s ∈ d.findSymbols src lines) :
    (∃ l ∈ lines.zipIdx 1, s.first = l.2 ∧ s.snippet = Text.strip l.1) ∧
      (d.NamesAlike s ↔ Text.NextWord s.name.toList (rule.body s.snippet).toList) ∧
      (d.NamesAlike s → Text.StandsAlone s.name.toList s.snippet.toList) ∧
      (d.headwords ≠ [] → ∃ w ∈ d.headwords, ∃ gap tail,
        Text.OpensWith w.toList gap tail s.snippet.toList ∧
          (d.NamesAlike s ↔ if gap.head? = some ' ' then
            ∃ rest, tail = s.name.toList ++ rest ∧ rest.head?.all Text.isBlank = true
          else s.name = w)) := by
  obtain ⟨hcuts, rules, hrules, hnames⟩ := lineRules_of_nameRule? h
  rw [findSymbols_of_lineRules? hrules] at hs
  -- the symbol comes from a rule of the dialect on one of the lines
  obtain ⟨r, hr, l, hl, hfirst, hsnippet, hname⟩ := exists_of_mem_findSymbols hs
  obtain ⟨hisName, y, hy⟩ := SymbolRule.exists_of_nameOn? (hnames r hr) hname
  rw [← hsnippet] at hy
  have halike := namesAlike_iff h hisName
  refine ⟨⟨l, hl, hfirst, hsnippet⟩, halike, ?_, ?_⟩
  · intro hsame
    exact NameRule.standsAlone_of_nextWord hcuts (halike.mp hsame)
  · intro hne
    obtain ⟨hrule, hwords, hheads⟩ := tables_of_headwords hne
    obtain rfl : rule = .ofWords d.headwords := Option.some.inj (h.symm.trans hrule)
    have hink : ∀ v ∈ d.headwords, ∀ c ∈ v.toList, Text.isBlank c = false := by
      intro v hv c hc
      exact Bool.not_eq_true' _ ▸ List.all_eq_true.mp (hwords v hv).2 c hc
    -- where there are keywords, the rule that found the symbol begins with one of them
    obtain ⟨w, hw, hhead⟩ := hheads rules hrules r hr
    obtain ⟨gap, tail, hopens⟩ := Pattern.opensWith_of_headsThen hhead hy
      fun hfalse => absurd hfalse Bool.false_ne_true
    refine ⟨w, hw, gap, tail, hopens, ?_⟩
    rw [halike]
    exact NameRule.nextWord_body_ofWords_iff hink (hwords w hw).1 hw hopens hisName

/-- A function of the name `run` on the first line. -/
def runOn (snippet : String) : Symbol :=
  Source.symbolOn ⟨"a.py", "python"⟩ 1 "run" "function" snippet

/-- With a blank after the name both ways agree. -/
theorem definitionName_found_iff_blank :
    .symbol (runOn "def run (): pass") ∈
        python.findSymbols ⟨"a.py", "python"⟩ ["def run (): pass"] ∧
      python.NamesAlike (runOn "def run (): pass") := by
  have hfound : .symbol (runOn "def run (): pass") ∈
      python.findSymbols ⟨"a.py", "python"⟩ ["def run (): pass"] := by decide +kernel
  have hrule : python.nameRule? = some Declarations.pythonName := rfl
  refine ⟨hfound, (definitionName_found_iff hrule _ _ hfound).2.1.mpr ?_⟩
  exact ⟨[], " (): pass".toList, by decide +kernel, fun c hc => absurd hc List.not_mem_nil,
    by decide⟩

/-- With a parenthesis after the name they differ: what is read off goes on up to the blank. -/
theorem definitionName_past_parenthesis :
    .symbol (runOn "def run(): pass") ∈
        python.findSymbols ⟨"a.py", "python"⟩ ["def run(): pass"] ∧
      python.definitionName .zero "definition.function" (runOn "def run(): pass").snippet =
        some "run():" ∧
      ¬ python.NamesAlike (runOn "def run(): pass") := by
  have hread : python.definitionName .zero "definition.function" (runOn "def run(): pass").snippet =
      some "run():" := by decide +kernel
  refine ⟨by decide +kernel, hread, ?_⟩
  intro hsame
  exact absurd (hread.symm.trans (hsame .zero "definition.function")) (by decide)

end Dialect

end SymbolAtlas
