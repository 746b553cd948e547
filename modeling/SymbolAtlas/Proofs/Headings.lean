/-
  SymbolAtlas.Proofs.Headings: the headings of a document and the section of a line.

  A heading is one to six hash signs, blanks and a title, or a line with a rule below it. Either has
  a name that is not empty (`name_of_mem_headings`), and the section of a line is named after the
  last listed heading that begins on it or before it (`sectionAt_eq`).
-/

import Mathlib.Data.List.TakeWhile
import SymbolAtlas.Proofs.FencedBlocks

namespace SymbolAtlas

/-! ## Texts with ink -/

namespace Text

theorem trim_ne_nil {cs : List Char} {c : Char} (hc : c ∈ cs) (hink : isBlank c = false) :
    trim cs ≠ [] := by
  have hleft : trimLeft cs ≠ [] := by
    rw [trimLeft, Ne, List.dropWhile_eq_nil_iff]
    exact fun hall => absurd ((hall c hc).symm.trans hink) (by decide)
  obtain ⟨d, ds, hds⟩ := List.exists_cons_of_ne_nil hleft
  have hd : isBlank d = false := by
    have hhead := List.head?_dropWhile_not isBlank cs
    rw [← trimLeft, hds] at hhead
    exact hhead
  rw [trim, trimRight, Ne, List.reverse_eq_nil_iff, List.dropWhile_eq_nil_iff]
  intro hall
  have hblank := hall d (by rw [hds]; simp)
  exact absurd (hblank.symm.trans hd) (by decide)

/-- A text with a character that is no blank is not empty when stripped. -/
theorem strip_ne_empty {s : String} {c : Char} (hc : c ∈ s.toList) (hink : isBlank c = false) :
    strip s ≠ "" := by
  intro h
  rw [strip, ← String.toList_eq_nil_iff, String.toList_ofList] at h
  exact trim_ne_nil hc hink h

theorem isBlank_of_head?_trim {cs : List Char} {c : Char} (h : (trim cs).head? = some c) :
    isBlank c = false := by
  have hsplit : trimLeft cs = trim cs ++ ((trimLeft cs).reverse.takeWhile isBlank).reverse := by
    rw [trim, trimRight, ← List.reverse_append, List.takeWhile_append_dropWhile,
      List.reverse_reverse]
  have hhead := List.head?_dropWhile_not isBlank cs
  rw [← trimLeft, hsplit, List.head?_append, h] at hhead
  exact hhead

end Text

namespace Pattern

variable {cs : List Char} {parts : List (Nat × List Char)}

theorem matchStart?_append_assoc (p q r : Pattern) (s : String) :
    (p ++ (q ++ r)).matchStart? s = (p ++ q ++ r).matchStart? s := by
  rw [matchStart?, matchStart?, matchAt?_eq, matchAt?_eq, ends_append_assoc]

theorem takes_rest_iff {n : Nat} :
    (capture n (plus .notLineFeed)).Takes cs parts ↔
      (cs ≠ [] ∧ '\n' ∉ cs) ∧ parts = [(n, cs)] := by
  have hholds : ∀ c, CharClass.notLineFeed.holds c = true ↔ c ≠ '\n' := by
    intro c
    simp [CharClass.holds, CharClass.notLineFeed, ClassItem.holds]
  have hall : (∀ c ∈ cs, c ≠ '\n') ↔ '\n' ∉ cs :=
    ⟨fun h hmem => h _ hmem rfl, fun h c hc heq => h (heq ▸ hc)⟩
  rw [takes_capture_iff]
  simp only [plus, takes_many_iff, hholds, hall, Nat.one_le_iff_ne_zero, ne_eq,
    List.length_eq_zero_iff]
  constructor
  · rintro ⟨-, ⟨hcs, hne, rfl⟩, rfl⟩
    exact ⟨⟨hne, hcs⟩, rfl⟩
  · rintro ⟨⟨hne, hcs⟩, rfl⟩
    exact ⟨[], ⟨hcs, hne, rfl⟩, rfl⟩

end Pattern

namespace Markdown

open Pattern

/-! ## Headings with hash signs -/

/-- The parts of a heading: one to six hash signs, blanks and a title. -/
structure HeadingParts (marks space title : List Char) : Prop where
  hash : ∀ c ∈ marks, c = '#'
  one_le : 1 ≤ marks.length
  le_six : marks.length ≤ 6
  blank : ∀ c ∈ space, Text.isBlank c = true
  space_ne : space ≠ []
  title_ne : title ≠ []
  oneLine : '\n' ∉ title

/-- Whether a line is a heading with hash signs, but for the blanks at its ends. -/
def IsHeading (line : String) : Prop :=
  ∃ marks space title, HeadingParts marks space title ∧
    (Text.strip line).toList = marks ++ space ++ title

variable {cs : List Char} {parts : List (Nat × List Char)} {src : Source} {n : Nat} {line : String}
  {s : Symbol}

theorem takes_marks_iff :
    (capture 1 (many (.among "#") 1 (some 6))).Takes cs parts ↔
      ((∀ c ∈ cs, c = '#') ∧ 1 ≤ cs.length ∧ cs.length ≤ 6) ∧ parts = [(1, cs)] := by
  have hholds : ∀ c, (CharClass.among "#").holds c = true ↔ c = '#' := by
    intro c
    simp [CharClass.holds, CharClass.among, ClassItem.holds]
  rw [takes_capture_iff]
  constructor
  · rintro ⟨ps, h, rfl⟩
    cases h with
    | many hcs hleast hmost =>
        exact ⟨⟨fun c hc => (hholds c).mp (hcs c hc), hleast, hmost 6 rfl⟩, rfl⟩
  · rintro ⟨⟨hcs, hleast, hmost⟩, rfl⟩
    refine ⟨[], .many (fun c hc => (hholds c).mpr (hcs c hc)) hleast ?_, rfl⟩
    rintro k hk
    rwa [← Option.some.inj hk]

theorem takes_heading_iff :
    (capture 1 (many (.among "#") 1 (some 6)) ++ gap ++
      capture 2 (plus .notLineFeed)).Takes cs parts ↔
      ∃ marks space title, HeadingParts marks space title ∧ cs = marks ++ space ++ title ∧
        parts = [(2, title), (1, marks)] := by
  rw [takes_append_iff]
  simp only [takes_append_silent_iff takes_gap_iff, takes_marks_iff, takes_rest_iff]
  constructor
  · rintro ⟨-, title, -, -, ⟨marks, space, ⟨hmarks, rfl⟩, hspace, rfl⟩, ⟨htitle, rfl⟩, rfl, rfl⟩
    exact ⟨marks, space, title, ⟨hmarks.1, hmarks.2.1, hmarks.2.2, hspace.1, hspace.2, htitle.1,
      htitle.2⟩, rfl, rfl⟩
  · rintro ⟨marks, space, title, h, rfl, rfl⟩
    exact ⟨_, title, _, _, ⟨marks, space, ⟨⟨h.hash, h.one_le, h.le_six⟩, rfl⟩,
      ⟨h.blank, h.space_ne⟩, rfl⟩, ⟨⟨h.title_ne, h.oneLine⟩, rfl⟩, rfl, rfl⟩

theorem headingPattern_matchStart? (s : String) :
    headingPattern.matchStart? s = (capture 1 (many (.among "#") 1 (some 6)) ++ gap ++
      capture 2 (plus .notLineFeed) ++ textEnd).matchStart? s :=
  matchStart?_append_assoc _ _ _ s

/-- A line that is a heading gives a symbol. -/
theorem IsHeading.exists_symbol (h : IsHeading line) (src : Source) (n : Nat) :
    ∃ s ∈ headingOn src n line, s.first = n := by
  obtain ⟨marks, space, title, hparts, hstrip⟩ := h
  have htakes := takes_heading_iff.mpr ⟨marks, space, title, hparts, hstrip, rfl⟩
  obtain ⟨m, hm⟩ := htakes.exists_matchStart?_textEnd
  rw [← headingPattern_matchStart?] at hm
  rw [headingOn, hm]
  exact ⟨_, List.mem_singleton_self _, rfl⟩

/-- The title of a heading has ink: its last character is the last one of the line. -/
theorem name_of_mem_headingOn (hs : s ∈ headingOn src n line) : s.name ≠ "" := by
  obtain ⟨m, hm, rfl⟩ := List.mem_map.mp hs
  rw [Option.mem_toList, headingPattern_matchStart?] at hm
  obtain ⟨marks, space, title, hparts, hstrip, hgroups⟩ :=
    takes_heading_iff.mp (takes_of_matchStart?_strip rfl hm)
  have htitle : m.group 2 = String.ofList title := Match.group_of_groups hgroups rfl
  obtain ⟨init, last, rfl⟩ := List.eq_nil_or_concat title |>.resolve_left hparts.title_ne
  have hlast : (Text.trim line.toList).getLast? = some last := by
    rw [← String.toList_ofList (l := Text.trim line.toList), ← Text.strip, hstrip]
    simp
  show Text.strip (m.group 2) ≠ ""
  rw [htitle]
  exact Text.strip_ne_empty (c := last) (by simp) (Text.isBlank_of_getLast?_trim hlast)

/-! ## Underlined headings -/

theorem exists_of_takes_underlined
    (h : (capture 1 (plus .notLineFeed) ++ lit "\n" ++ capture 2 (plus (.among "=-"))).Takes
      cs parts) :
    ∃ title rule, title ≠ [] ∧ '\n' ∉ title ∧ cs = title ++ '\n' :: rule ∧
      parts = [(2, rule), (1, title)] := by
  obtain ⟨front, rule, ps, qs, hfront, hrule, rfl, rfl⟩ := takes_append_iff.mp h
  obtain ⟨title, feed, htitle, rfl, rfl⟩ := (takes_append_silent_iff takes_lit_iff).mp hfront
  obtain ⟨⟨hne, hline⟩, rfl⟩ := takes_rest_iff.mp htitle
  obtain ⟨rs, hmany, rfl⟩ := takes_capture_iff.mp hrule
  obtain ⟨-, -, rfl⟩ := takes_many_iff.mp hmany
  exact ⟨title, rule, hne, hline, by simp, rfl⟩

/-- The title of an underlined heading has ink: its first character is the first one of the line. -/
theorem name_of_mem_underlinedOn {next : String} (hs : s ∈ underlinedOn src n line next) :
    s.name ≠ "" := by
  obtain ⟨m, hm, rfl⟩ := List.mem_map.mp hs
  obtain ⟨taken, rest, htakes, hcode, -⟩ :=
    exists_of_matchStart?_textEnd rfl (Option.mem_toList.mp hm)
  obtain ⟨title, rule, hne, hline, rfl, hgroups⟩ := exists_of_takes_underlined htakes
  have htitle : m.group 1 = String.ofList title := Match.group_of_groups hgroups rfl
  obtain ⟨c, cs, rfl⟩ := List.exists_cons_of_ne_nil hne
  have hhead : (Text.trim line.toList).head? = some c := by
    rw [String.toList_append, String.toList_append, Text.strip, String.toList_ofList] at hcode
    cases htrim : Text.trim line.toList with
    | nil =>
        rw [htrim] at hcode
        exact absurd ((List.cons.inj hcode).1 ▸ List.mem_cons_self) hline
    | cons d ds =>
        rw [htrim] at hcode
        rw [(List.cons.inj hcode).1]
        rfl
  show Text.strip (m.group 1) ≠ ""
  rw [htitle]
  exact Text.strip_ne_empty (c := c) (by simp) (Text.isBlank_of_head?_trim hhead)

theorem name_of_mem_underlined {numbered : List (String × Nat)} (hs : s ∈ underlined src numbered) :
    s.name ≠ "" := by
  fun_induction underlined src numbered with
  | case1 line n next m rest ih =>
      rcases List.mem_append.mp hs with hs | hs
      · exact name_of_mem_underlinedOn hs
      · exact ih hs
  | case2 numbered _ => exact absurd hs List.not_mem_nil

/-! ## Sections -/

/-- The headings of a document. -/
def headings (src : Source) (lines : List String) : List Symbol :=
  scanLines (headingOn src) lines ++ underlined src (lines.zipIdx 1)

theorem name_of_mem_headings {lines : List String} (hs : s ∈ headings src lines) : s.name ≠ "" := by
  rcases List.mem_append.mp hs with hs | hs
  · exact forall_mem_scanLines (P := fun s => s.name ≠ "") (fun n line s => name_of_mem_headingOn)
      lines s hs
  · exact name_of_mem_underlined hs

theorem filter_heading (src : Source) (lines : List String) :
    (symbols src lines).filter (Text.hasPrefix "heading_" ·.kind) = headings src lines := by
  have hletter : ∀ kind, Text.hasPrefix "heading_" kind = true → kind.toList.head? = some 'h' := by
    intro kind hprefix
    obtain ⟨more, hmore⟩ := List.isPrefixOf_iff_prefix.mp hprefix
    rw [← hmore]
    rfl
  have hsort : (sorts src lines).filter (·.1.toList.head? == some 'h') =
      [("heading_h", headings src lines)] := by
    simp [sorts, headings]
  have hmem : ("heading_h", headings src lines) ∈ sorts src lines := List.mem_cons_self
  rw [filter_symbols hletter, hsort, List.flatMap_singleton, List.filter_eq_self.mpr]
  intro s hs
  obtain ⟨more, hkind⟩ := kind_of_mem_sorts hmem hs
  rw [hkind, Text.hasPrefix, String.toList_append]
  exact List.isPrefixOf_iff_prefix.mpr ⟨'h' :: more.toList, by simp⟩

/-- The name of the section of a line: that of the last listed heading that begins on the line or
before it. -/
def sectionName (hs : List Symbol) (line : Int) : Option String :=
  (hs.filter (·.first ≤ line)).getLast?.map (·.name)

/-- Looking for the section of a line among symbols finds the name, and where there is none the
section stays. -/
theorem sectionAt_eq (ss : List Symbol) (line : Int) (current : Option String) :
    sectionAt line current ((ss.map Finding.symbol).map (·.outline)) =
      .ok ((sectionName (ss.filter (Text.hasPrefix "heading_" ·.kind)) line).or current) := by
  induction ss generalizing current with
  | nil => rfl
  | cons s ss ih =>
      have hstep : sectionAt line current (((s :: ss).map Finding.symbol).map (·.outline)) =
          if Text.hasPrefix "heading_" s.kind then
            if s.first ≤ line then
              sectionAt line (some s.name) ((ss.map Finding.symbol).map (·.outline))
            else sectionAt line current ((ss.map Finding.symbol).map (·.outline))
          else sectionAt line current ((ss.map Finding.symbol).map (·.outline)) := rfl
      rw [hstep, ih, ih]
      by_cases hheading : Text.hasPrefix "heading_" s.kind = true
      · rw [if_pos hheading, List.filter_cons_of_pos (by exact hheading), sectionName, sectionName]
        by_cases hfirst : s.first ≤ line
        · rw [if_pos hfirst, List.filter_cons_of_pos (by simp [hfirst]), List.getLast?_cons]
          cases ((ss.filter (Text.hasPrefix "heading_" ·.kind)).filter
              (·.first ≤ line)).getLast? with
          | none => rfl
          | some h => rfl
        · rw [if_neg hfirst, List.filter_cons_of_neg (by simp [hfirst])]
      · rw [if_neg hheading, List.filter_cons_of_neg (by exact hheading)]

theorem exists_of_sectionName {hs : List Symbol} {line : Int} {name : String}
    (h : sectionName hs line = some name) : ∃ s ∈ hs, s.first ≤ line ∧ s.name = name := by
  obtain ⟨s, hs, rfl⟩ := Option.map_eq_some_iff.mp h
  obtain ⟨hmem, hle⟩ := List.mem_filter.mp (List.mem_of_getLast? hs)
  exact ⟨s, hmem, of_decide_eq_true hle, rfl⟩

theorem exists_sectionName {hs : List Symbol} {line : Int} {s : Symbol} (hs' : s ∈ hs)
    (hle : s.first ≤ line) : ∃ name, sectionName hs line = some name := by
  have hmem : s ∈ hs.filter (·.first ≤ line) := List.mem_filter.mpr ⟨hs', decide_eq_true hle⟩
  have hlast := List.getLast?_eq_some_getLast (List.ne_nil_of_mem hmem)
  exact ⟨_, by rw [sectionName, hlast, Option.map_some]⟩

/-- In a document that begins with a heading every line has a section. -/
theorem exists_section (src : Source) {rest : List String} (h : IsHeading line) (hn : 1 ≤ n) :
    ∃ name, sectionName (headings src (line :: rest)) n = some name := by
  obtain ⟨s, hs, hfirst⟩ := h.exists_symbol src 1
  refine exists_sectionName (List.mem_append_left _ ?_) (hfirst.trans_le (Int.ofNat_le.mpr hn))
  exact List.mem_flatMap.mpr ⟨(line, 1), List.mem_cons_self, hs⟩

end Markdown

end SymbolAtlas
