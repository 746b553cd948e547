/-
  SymbolAtlas.Proofs.FencePairs: fences that are taken two by two.

  The relations of a document pair the lines that begin with a fence, the first with the second, the
  third with the fourth and so on (`pairUp`), whatever follows the fence. The symbols of the same
  document are blocks from an opening fence to the next bare one. Both find the same if and only if
  the first line of each pair opens a block and the second closes it (`Laid.pairUp_eq`).
-/

import Mathlib.Data.List.Basic
import SymbolAtlas.Proofs.Headings
import SymbolAtlas.Proofs.Pipeline

namespace SymbolAtlas

/-! ## Pairs -/

/-- The first with the second, the third with the fourth and so on. -/
def pairUp {α : Type} : List α → List (α × α)
  | a :: b :: rest => (a, b) :: pairUp rest
  | _ => []

theorem pairUp_map {α β : Type} (f : α → β) (l : List α) :
    pairUp (l.map f) = (pairUp l).map fun p => (f p.1, f p.2) := by
  fun_induction pairUp l with
  | case1 a b rest ih => rw [List.map_cons, List.map_cons, pairUp, ih, List.map_cons]
  | case2 l h =>
      match l with
      | [] => rfl
      | [a] => rfl
      | a :: b :: rest => exact absurd rfl (h a b rest)

theorem mem_of_mem_pairUp {α : Type} {l : List α} {p : α × α} (h : p ∈ pairUp l) :
    p.1 ∈ l ∧ p.2 ∈ l := by
  fun_induction pairUp l with
  | case1 a b rest ih =>
      rcases List.mem_cons.mp h with rfl | h
      · exact ⟨by simp, by simp⟩
      · obtain ⟨hfirst, hsecond⟩ := ih h
        exact ⟨by simp [hfirst], by simp [hsecond]⟩
  | case2 l hl => exact absurd h List.not_mem_nil

/-- The lines that a block of a section reaches from and to. -/
def Relation.span? : Relation → Option (Nat × Nat)
  | .codeBlock first last => some (first, last)
  | _ => none

/-- The lines of the blocks of all sections. -/
def Relations.spans (rs : Relations) : List (Nat × Nat) := rs.entries.filterMap (·.2.span?)

theorem Relations.mem_spans_iff {rs : Relations} {m n : Nat} :
    (m, n) ∈ rs.spans ↔ ∃ owner, .codeBlock m n ∈ rs.of owner := by
  rw [spans, List.mem_filterMap]
  constructor
  · rintro ⟨⟨owner, r⟩, he, hspan⟩
    cases r with
    | codeBlock first last =>
        obtain ⟨rfl, rfl⟩ := Prod.mk.inj (Option.some.inj hspan)
        exact ⟨owner, List.mem_map.mpr ⟨_, List.mem_filter.mpr ⟨he, by simp⟩, rfl⟩⟩
    | _ => exact absurd hspan (by simp [Relation.span?])
  · rintro ⟨owner, hr⟩
    obtain ⟨e, he, heq⟩ := List.mem_map.mp hr
    exact ⟨e, (List.mem_filter.mp he).1, by rw [heq]; rfl⟩

namespace Markdown

/-- The lines that begin with a fence, but for blanks. -/
def fenced (numbered : List (String × Nat)) : List (String × Nat) :=
  numbered.filter fun l => Text.hasPrefix "```" (Text.strip l.1)

variable {line tag : String} {k : Nat} {lines : List String} {blocks : List Fence}

theorem fenced_cons_of_pos {n : Nat} {rest : List (String × Nat)}
    (h : Text.hasPrefix "```" (Text.strip line) = true) :
    fenced ((line, n) :: rest) = (line, n) :: fenced rest := List.filter_cons_of_pos h

theorem fenced_cons_of_neg {n : Nat} {rest : List (String × Nat)}
    (h : ¬ Text.hasPrefix "```" (Text.strip line) = true) :
    fenced ((line, n) :: rest) = fenced rest := List.filter_cons_of_neg h

theorem hasFence_of_openerTag? (h : openerTag? line = some tag) :
    Text.hasPrefix "```" (Text.strip line) = true := by
  rw [(opens_of_openerTag? h).1, Text.hasPrefix, String.toList_append]
  exact List.isPrefixOf_iff_prefix.mpr (List.prefix_append _ _)

theorem hasFence_of_closes (h : closes line = true) :
    Text.hasPrefix "```" (Text.strip line) = true := by
  rw [closes_iff.mp h]
  decide

/-! ## Pairs and blocks -/

/-- The fences of a block are lines with its numbers. -/
theorem Laid.mem_fences (h : Laid k lines blocks) {f : Fence} (hf : f ∈ blocks) :
    ∃ opener closer, (opener, f.first) ∈ lines.zipIdx k ∧ (closer, f.last) ∈ lines.zipIdx k ∧
      openerTag? opener = some f.tag ∧ closes closer = true := by
  obtain ⟨before, opener, closer, after, rfl, hfirst, hlast, htag, hcloses, -⟩ := h.place hf
  refine ⟨opener, closer, ?_, ?_, htag, hcloses⟩
  · rw [hfirst, List.zipIdx_append, List.zipIdx_cons]
    exact List.mem_append_right _ List.mem_cons_self
  · have hend : f.last = k + before.length + 1 + f.body.length := by omega
    rw [hend, List.zipIdx_append, List.zipIdx_cons, List.zipIdx_append, List.zipIdx_cons]
    refine List.mem_append_right _ (List.mem_cons_of_mem _ (List.mem_append_right _ ?_))
    exact List.mem_cons_self

/-- Without a line that begins with a fence there is no block. -/
theorem Laid.eq_nil_of_fenced (h : Laid k lines blocks) (hnone : fenced (lines.zipIdx k) = []) :
    blocks = [] := by
  refine List.eq_nil_iff_forall_not_mem.mpr fun f hf => ?_
  obtain ⟨opener, -, hmem, -, htag, -⟩ := h.mem_fences hf
  exact List.filter_eq_nil_iff.mp hnone _ hmem (hasFence_of_openerTag? htag)

/-- Where no line closes a block, the first with a fence does not. -/
theorem strip_ne_of_fenced {l : String × Nat} {ls : List (String × Nat)}
    (hnever : ∀ line ∈ lines, closes line = false) (h : fenced (lines.zipIdx k) = l :: ls) :
    Text.strip l.1 ≠ "```" := by
  have hl : l ∈ fenced (lines.zipIdx k) := by rw [h]; exact List.mem_cons_self
  have hopen := hnever _ (List.fst_mem_of_mem_zipIdx (List.mem_filter.mp hl).1)
  exact fun hstrip => absurd (hopen.symm.trans (closes_iff.mpr hstrip)) Bool.false_ne_true

/-- Whether the first line of a pair opens a block and the second closes it. -/
structure Brackets (p : (String × Nat) × (String × Nat)) : Prop where
  opens : ∃ tag, Opens p.1.1 tag
  closed : Text.strip p.2.1 = "```"

/-- Where the lines with a fence open and close blocks in turn, the pairs are the blocks. -/
theorem Laid.pairUp_eq (h : Laid k lines blocks)
    (hpairs : ∀ p ∈ pairUp (fenced (lines.zipIdx k)), Brackets p) :
    (pairUp (fenced (lines.zipIdx k))).map (fun p => (p.1.2, p.2.2)) =
      blocks.map fun f => (f.first, f.last) := by
  induction h with
  | nil => rfl
  | @skip k line rest blocks plain more ih =>
      rw [List.zipIdx_cons] at hpairs ⊢
      by_cases hfence : Text.hasPrefix "```" (Text.strip line) = true
      · rw [fenced_cons_of_pos hfence] at hpairs ⊢
        cases hrest : fenced (rest.zipIdx (k + 1)) with
        | nil => rw [more.eq_nil_of_fenced hrest]; rfl
        | cons l ls =>
            -- the line would open a block
            rw [hrest] at hpairs
            obtain ⟨⟨tag, hopens⟩, -⟩ := hpairs _ List.mem_cons_self
            rw [openerTag?_eq_some_iff.mpr hopens] at plain
            exact absurd plain (by simp)
      · rw [fenced_cons_of_neg hfence] at hpairs ⊢
        exact ih hpairs
  | @unclosed k line tag rest opener never =>
      rw [List.zipIdx_cons, fenced_cons_of_pos (hasFence_of_openerTag? opener)] at hpairs ⊢
      cases hrest : fenced (rest.zipIdx (k + 1)) with
      | nil => rfl
      | cons l ls =>
          rw [hrest] at hpairs
          exact absurd (hpairs _ List.mem_cons_self).closed (strip_ne_of_fenced never hrest)
  | @block k line tag closer body rest blocks opener inside closed more ih =>
      have hnumber : k + 1 + body.length + 1 = k + body.length + 2 := by omega
      have hsplit : fenced ((line :: (body ++ closer :: rest)).zipIdx k) =
          (line, k) :: (fenced (body.zipIdx (k + 1)) ++
            (closer, k + 1 + body.length) :: fenced (rest.zipIdx (k + body.length + 2))) := by
        rw [List.zipIdx_cons, List.zipIdx_append, List.zipIdx_cons, hnumber,
          fenced_cons_of_pos (hasFence_of_openerTag? opener), fenced, List.filter_append, ← fenced,
          ← fenced, fenced_cons_of_pos (hasFence_of_closes closed)]
      rw [hsplit] at hpairs ⊢
      cases hbody : fenced (body.zipIdx (k + 1)) with
      | nil =>
          rw [hbody] at hpairs
          have hlast : k + 1 + body.length = k + body.length + 1 := by omega
          rw [List.nil_append, pairUp, List.map_cons, List.map_cons, hlast,
            ih fun p hp => hpairs p (List.mem_cons_of_mem _ hp)]
      | cons l ls =>
          -- the opening fence would be paired with a line of the block
          rw [hbody] at hpairs
          exact absurd (hpairs _ List.mem_cons_self).closed (strip_ne_of_fenced inside hbody)

/-! ## Relations of a document -/

theorem kind_of_linkRelations {outlines : List Outline} {found : List (Nat × Match)}
    {entries : List (String × Relation)} (h : linkRelations outlines found = .ok entries) :
    ∀ e ∈ entries, e.2.kind = "link" := by
  induction found generalizing entries with
  | nil =>
      obtain rfl := Except.ok.inj h
      exact fun e he => absurd he List.not_mem_nil
  | cons l rest ih =>
      obtain ⟨n, m⟩ := l
      obtain ⟨owners, -, h⟩ := Outline.bind_eq_ok.mp h
      obtain ⟨more, hmore, heq⟩ := Outline.bind_eq_ok.mp h
      obtain rfl := Except.ok.inj heq
      intro e he
      rcases List.mem_append.mp he with he | he
      · obtain ⟨o, -, rfl⟩ := List.mem_map.mp he
        rfl
      · exact ih hmore e he

/-- What an item is filed under: every heading that begins on its line or before it. -/
def itemIn (hs : List Symbol) (item : Symbol) : List (String × Relation) :=
  (hs.filter (·.first ≤ item.first)).map fun h => (h.name, .listItem item.name item.first)

theorem itemRelations_eq (item : Symbol) (ss : List Symbol) :
    itemRelations (Finding.symbol item).outline ((ss.map Finding.symbol).map (·.outline)) =
      .ok (itemIn (ss.filter (Text.hasPrefix "heading_" ·.kind)) item) := by
  induction ss with
  | nil => rfl
  | cons s ss ih =>
      have hstep : itemRelations (Finding.symbol item).outline
          (((s :: ss).map Finding.symbol).map (·.outline)) =
          if Text.hasPrefix "heading_" s.kind then
            if s.first ≤ item.first then
              itemRelations (Finding.symbol item).outline
                ((ss.map Finding.symbol).map (·.outline)) >>= fun more =>
                  .ok ((s.name, .listItem item.name item.first) :: more)
            else itemRelations (Finding.symbol item).outline
              ((ss.map Finding.symbol).map (·.outline))
          else itemRelations (Finding.symbol item).outline
            ((ss.map Finding.symbol).map (·.outline)) := rfl
      rw [hstep, ih]
      by_cases hheading : Text.hasPrefix "heading_" s.kind = true
      · rw [if_pos hheading, List.filter_cons_of_pos (by exact hheading), itemIn, itemIn]
        by_cases hfirst : s.first ≤ item.first
        · rw [if_pos hfirst, List.filter_cons_of_pos (by simp [hfirst])]
          rfl
        · rw [if_neg hfirst, List.filter_cons_of_neg (by simp [hfirst])]
      · rw [if_neg hheading, List.filter_cons_of_neg (by exact hheading)]

theorem listRelations_eq (ss items : List Symbol) :
    listRelations ((ss.map Finding.symbol).map (·.outline))
        ((items.map Finding.symbol).map (·.outline)) =
      .ok ((items.filter (Text.hasPrefix "list_item_" ·.kind)).flatMap
        (itemIn (ss.filter (Text.hasPrefix "heading_" ·.kind)))) := by
  induction items with
  | nil => rfl
  | cons item items ih =>
      have hstep : listRelations ((ss.map Finding.symbol).map (·.outline))
          (((item :: items).map Finding.symbol).map (·.outline)) =
          if Text.hasPrefix "list_item_" item.kind then
            itemRelations (Finding.symbol item).outline
              ((ss.map Finding.symbol).map (·.outline)) >>= fun here =>
                listRelations ((ss.map Finding.symbol).map (·.outline))
                  ((items.map Finding.symbol).map (·.outline)) >>= fun more => .ok (here ++ more)
          else listRelations ((ss.map Finding.symbol).map (·.outline))
            ((items.map Finding.symbol).map (·.outline)) >>= fun more => .ok ([] ++ more) := rfl
      rw [hstep, ih, itemRelations_eq]
      by_cases hitem : Text.hasPrefix "list_item_" item.kind = true
      · rw [if_pos hitem, List.filter_cons_of_pos (by exact hitem), List.flatMap_cons]
        rfl
      · rw [if_neg hitem, List.filter_cons_of_neg (by exact hitem)]
        rfl

/-- What a pair of fences is filed under: the section of its first line, if there is one. -/
def blockIn (hs : List Symbol) (p : Nat × Nat) : List (String × Relation) :=
  (sectionName hs p.1).toList.map fun name => (name, .codeBlock p.1 p.2)

/-- Where a line has a section, every later line has one. -/
theorem isSome_sectionName_mono {hs : List Symbol} {m n : Nat} (hle : m ≤ n)
    (h : (sectionName hs m).isSome = true) : (sectionName hs n).isSome = true := by
  obtain ⟨name, hname⟩ := Option.isSome_iff_exists.mp h
  obtain ⟨s, hs', hfirst, -⟩ := exists_of_sectionName hname
  obtain ⟨name', hname'⟩ := exists_sectionName hs' (Int.le_trans hfirst (Int.ofNat_le.mpr hle))
  rw [hname']
  rfl

/-- A section of the line itself takes the place of the current one, which there is only if the line
has a section. -/
theorem sectionName_or {hs : List Symbol} {line : Int} {current : Option String}
    (h : current.isSome = true → (sectionName hs line).isSome = true) :
    (sectionName hs line).or current = sectionName hs line := by
  cases current with
  | none => exact Option.or_none
  | some name =>
      obtain ⟨own, hown⟩ := Option.isSome_iff_exists.mp (h rfl)
      rw [hown, Option.some_or]

/-- The lines that begin with a fence are filed two by two. While a block is open the current
section is that of its first line; where there was a section before, every later line has one. -/
theorem blockRelations_eq {ss hs : List Symbol}
    (hhs : hs = ss.filter (Text.hasPrefix "heading_" ·.kind)) (hnames : ∀ h ∈ hs, h.name ≠ "")
    {numbered : List (String × Nat)} (hnumbered : (numbered.map (·.2)).Pairwise (· < ·))
    {opened : Option Nat} {current : Option String}
    (hcurrent : current.isSome = true → ∀ l ∈ numbered, (sectionName hs l.2).isSome = true)
    (hopened : ∀ first ∈ opened, current = sectionName hs first) :
    blockRelations ((ss.map Finding.symbol).map (·.outline)) opened current numbered =
      .ok ((pairUp (opened.toList ++ (fenced numbered).map (·.2))).flatMap (blockIn hs)) := by
  induction numbered generalizing opened current with
  | nil =>
      cases opened with
      | none => rfl
      | some n => rfl
  | cons l rest ih =>
      obtain ⟨line, n⟩ := l
      rw [List.map_cons, List.pairwise_cons] at hnumbered
      obtain ⟨hlater, hrest⟩ := hnumbered
      have hcurrent' : current.isSome = true → ∀ l ∈ rest, (sectionName hs l.2).isSome = true :=
        fun hsome l hl => hcurrent hsome l (List.mem_cons_of_mem _ hl)
      rw [blockRelations.eq_def]
      dsimp only
      by_cases hfence : Text.hasPrefix "```" (Text.strip line) = true
      · rw [if_pos hfence, fenced_cons_of_pos hfence, List.map_cons]
        cases opened with
        | none =>
            -- the fence opens a block, and the section of its line is the current one from here on
            rw [sectionAt_eq, ← hhs,
              sectionName_or fun hsome => hcurrent hsome _ List.mem_cons_self]
            refine ih hrest ?_ ?_
            · intro hsome l hl
              exact isSome_sectionName_mono
                (Nat.le_of_lt (hlater l.2 (List.mem_map_of_mem hl))) hsome
            · rintro first ⟨⟩
              rfl
        | some first =>
            -- the fence closes the block, and the current section stays for the rest
            obtain rfl := hopened first rfl
            have hmore := @ih hrest none _ hcurrent' (by simp)
            dsimp only
            rw [hmore]
            show _ = Except.ok (blockIn hs (first, n) ++ _)
            rw [blockIn]
            cases hname : sectionName hs first with
            | none => rfl
            | some name =>
                obtain ⟨s, hs', -, rfl⟩ := exists_of_sectionName hname
                show Except.ok (if s.name = "" then _ else _) = _
                rw [if_neg (hnames s hs')]
                rfl
      · rw [if_neg hfence, fenced_cons_of_neg hfence]
        exact ih hrest hcurrent' hopened

/-- The list items of a document. -/
def items (src : Source) (lines : List String) : List Symbol := scanLines (itemOn src) lines

theorem filter_item (src : Source) (lines : List String) :
    (symbols src lines).filter (Text.hasPrefix "list_item_" ·.kind) = items src lines := by
  have hletter : ∀ kind, Text.hasPrefix "list_item_" kind = true →
      kind.toList.head? = some 'l' := by
    intro kind hprefix
    obtain ⟨more, hmore⟩ := List.isPrefixOf_iff_prefix.mp hprefix
    rw [← hmore]
    rfl
  have hsort : (sorts src lines).filter (·.1.toList.head? == some 'l') =
      [("list_item_", items src lines),
       ("link_reference", scanLines (labelRule.onLine src) lines)] := by
    simp [sorts, items]
  have hitem : ∀ s ∈ items src lines, Text.hasPrefix "list_item_" s.kind = true := by
    intro s hs
    have hmem : ("list_item_", items src lines) ∈ sorts src lines := by simp [sorts, items]
    obtain ⟨more, hkind⟩ := kind_of_mem_sorts hmem hs
    rw [hkind, Text.hasPrefix, String.toList_append]
    exact List.isPrefixOf_iff_prefix.mpr (List.prefix_append _ _)
  have hlabel : ∀ s ∈ scanLines (labelRule.onLine src) lines,
      ¬ Text.hasPrefix "list_item_" s.kind = true := by
    refine forall_mem_scanLines (fun n line s hs => ?_) lines
    obtain ⟨name, -, rfl⟩ := List.mem_map.mp hs
    show ¬ Text.hasPrefix "list_item_" labelRule.kind = true
    decide
  rw [filter_symbols hletter, hsort, List.flatMap_cons, List.flatMap_singleton,
    List.filter_eq_self.mpr hitem, List.filter_eq_nil_iff.mpr hlabel, List.append_nil]

/-- The numbers of the lines that begin with a fence, taken two by two. -/
def fencePairs (lines : List String) : List (Nat × Nat) :=
  pairUp ((fenced (lines.zipIdx 1)).map (·.2))

/-- The relations of a document: its links, the pairs of fences, each under the section of its first
line, and the list items, each under all headings that begin on its line or before it. -/
theorem exists_findRelations (src : Source) (lines : List String) :
    ∃ linked, (∀ e ∈ linked, e.2.kind = "link") ∧
      findRelations ((findSymbols src lines).map (·.outline)) lines =
        .ok { entries := linked ++ (fencePairs lines).flatMap (blockIn (headings src lines)) ++
          (items src lines).flatMap (itemIn (headings src lines)) } := by
  obtain ⟨linked, hlinked⟩ :=
    linkRelations_reads (outlines_complete (symbols src lines)) (links lines)
  refine ⟨linked, kind_of_linkRelations hlinked, ?_⟩
  have hnumbers : ((lines.zipIdx 1).map (·.2)).Pairwise (· < ·) := by
    rw [List.zipIdx_map_snd]
    exact List.pairwise_lt_range'
  have hblocks := @blockRelations_eq _ _ (filter_heading src lines).symm
    (fun h => name_of_mem_headings) _ hnumbers none none (by simp) (by simp)
  rw [Option.toList_none, List.nil_append] at hblocks
  have hitems := listRelations_eq (symbols src lines) (symbols src lines)
  rw [filter_item, filter_heading] at hitems
  rw [findSymbols_eq, findRelations, hlinked, hblocks, hitems]
  rfl

theorem span?_eq_none_of_kind {r : Relation} (h : r.kind ≠ "contains_code_block") :
    r.span? = none := by
  cases r with
  | codeBlock first last => exact absurd rfl h
  | _ => rfl

theorem filterMap_span?_blockIn {hs : List Symbol} {p : Nat × Nat} {name : String}
    (h : sectionName hs p.1 = some name) : (blockIn hs p).filterMap (·.2.span?) = [p] := by
  rw [blockIn, h]
  rfl

/-- In a document that begins with a heading the blocks of the sections are the pairs of lines that
begin with a fence. -/
theorem spans_of_findRelations (src : Source) {rest : List String} (hheading : IsHeading line)
    {rs : Relations}
    (h : findRelations ((findSymbols src (line :: rest)).map (·.outline)) (line :: rest) = .ok rs) :
    rs.spans = (pairUp (fenced ((line :: rest).zipIdx 1))).map fun p => (p.1.2, p.2.2) := by
  obtain ⟨linked, hlinked, hfound⟩ := exists_findRelations src (line :: rest)
  obtain rfl := Except.ok.inj (h.symm.trans hfound)
  have hlinks : linked.filterMap (·.2.span?) = [] := by
    refine List.filterMap_eq_nil_iff.mpr fun e he => span?_eq_none_of_kind ?_
    rw [hlinked e he]
    decide
  have hitems : ((items src (line :: rest)).flatMap
      (itemIn (headings src (line :: rest)))).filterMap (·.2.span?) = [] := by
    refine List.filterMap_eq_nil_iff.mpr fun e he => ?_
    obtain ⟨item, -, he⟩ := List.mem_flatMap.mp he
    obtain ⟨s, -, rfl⟩ := List.mem_map.mp he
    rfl
  have hblocks : ∀ p ∈ fencePairs (line :: rest),
      (blockIn (headings src (line :: rest)) p).filterMap (·.2.span?) = [p] := by
    intro p hp
    obtain ⟨l, hl, hfirst⟩ := List.mem_map.mp (mem_of_mem_pairUp hp).1
    have hle : 1 ≤ p.1 := hfirst ▸ (List.mem_zipIdx (List.mem_filter.mp hl).1).1
    obtain ⟨name, hname⟩ : ∃ name, sectionName (headings src (line :: rest)) p.1 = some name :=
      exists_section src hheading hle
    exact filterMap_span?_blockIn hname
  rw [Relations.spans, List.filterMap_append, List.filterMap_append, hlinks, hitems,
    List.nil_append, List.append_nil, List.filterMap_flatMap, List.flatMap_congr hblocks,
    List.flatMap_singleton', fencePairs, pairUp_map]

/-- The symbols of blocks have the spans of the blocks. -/
theorem exists_codeBlock_iff {src : Source} {m n : Nat} :
    (∃ s : Symbol, .symbol s ∈ findSymbols src lines ∧ s.kind = "code_block" ∧
        s.first = m ∧ s.last = n) ↔
      (m, n) ∈ (fences none (lines.zipIdx 1)).map fun f => (f.first, f.last) := by
  have hmem : ∀ s, Finding.symbol s ∈ findSymbols src lines ∧ s.kind = "code_block" ↔
      s ∈ (fences none (lines.zipIdx 1)).map (·.symbol src) := by
    intro s
    rw [← filter_codeBlock, List.mem_filter, findSymbols_eq, beq_iff_eq]
    simp
  constructor
  · rintro ⟨s, hs, hkind, hfirst, hlast⟩
    obtain ⟨f, hf, rfl⟩ := List.mem_map.mp ((hmem s).mp ⟨hs, hkind⟩)
    exact List.mem_map.mpr ⟨f, hf, Prod.ext (Int.ofNat_inj.mp hfirst) (Int.ofNat_inj.mp hlast)⟩
  · intro h
    obtain ⟨f, hf, heq⟩ := List.mem_map.mp h
    obtain ⟨rfl, rfl⟩ := Prod.mk.inj heq
    obtain ⟨hs, hkind⟩ := (hmem _).mpr (List.mem_map_of_mem hf)
    exact ⟨_, hs, hkind, rfl, rfl⟩

/-- In a document that begins with a heading, the blocks of the sections are the lines that begin
with a fence, the first with the second, the third with the fourth and so on. They are the fenced
blocks among the symbols if and only if each of these pairs is an opening fence with a tag of word
characters, or none, and a bare closing fence. -/
theorem section_blocks_agree_iff (src : Source) {content line : String} {rest : List String}
    (hlines : Text.lines content = line :: rest) (hheading : IsHeading line) :
    ∃ rs, Dialect.markdown.findRelations content
        ((Dialect.markdown.findSymbols src (Text.lines content)).map (·.outline)) = .ok rs ∧
      rs.spans = (pairUp (fenced ((Text.lines content).zipIdx 1))).map (fun p => (p.1.2, p.2.2)) ∧
      ((∀ m n : Nat, (∃ name, .codeBlock m n ∈ rs.of name) ↔
          ∃ s : Symbol, .symbol s ∈ Dialect.markdown.findSymbols src (Text.lines content) ∧
            s.kind = "code_block" ∧ s.first = m ∧ s.last = n) ↔
        ∀ p ∈ pairUp (fenced ((Text.lines content).zipIdx 1)), Brackets p) := by
  obtain ⟨rs, hrs⟩ := Dialect.findRelations_reads_own (d := .markdown) (by decide) src
    (Text.lines content) content
  have hsymbols : Dialect.markdown.findSymbols src (Text.lines content) =
      findSymbols src (Text.lines content) := rfl
  have hspans : rs.spans =
      (pairUp (fenced ((Text.lines content).zipIdx 1))).map fun p => (p.1.2, p.2.2) := by
    have hfound : findRelations ((findSymbols src (Text.lines content)).map (·.outline))
        (Text.lines content) = .ok rs := hrs
    rw [hlines] at hfound ⊢
    exact spans_of_findRelations src hheading hfound
  refine ⟨rs, hrs, hspans, ?_⟩
  have hlaid := laid_fences 1 (Text.lines content)
  simp only [← Relations.mem_spans_iff, hspans, hsymbols, exists_codeBlock_iff]
  constructor
  · intro hsame p hp
    obtain ⟨f, hf, heq⟩ := List.mem_map.mp ((hsame p.1.2 p.2.2).mp (List.mem_map_of_mem hp))
    obtain ⟨hfirst, hlast⟩ := Prod.mk.inj heq
    obtain ⟨opener, closer, hopener, hcloser, htag, hcloses⟩ := hlaid.mem_fences hf
    -- the lines of the pair are those with the numbers of the block
    obtain ⟨hp₁, hp₂⟩ := mem_of_mem_pairUp hp
    rw [hfirst] at hopener
    rw [hlast] at hcloser
    obtain rfl := line_eq_of_mem_zipIdx hopener (List.mem_filter.mp hp₁).1
    obtain rfl := line_eq_of_mem_zipIdx hcloser (List.mem_filter.mp hp₂).1
    exact ⟨⟨_, opens_of_openerTag? htag⟩, closes_iff.mp hcloses⟩
  · intro hpairs m n
    rw [hlaid.pairUp_eq hpairs]

/-- A block between a fence with a tag and a bare one is found both ways. -/
theorem section_blocks_agree_script :
    ∃ rs, Dialect.markdown.findRelations "# T\n```js\nf()\n```\n"
        ((Dialect.markdown.findSymbols ⟨"a.md", "markdown"⟩
          (Text.lines "# T\n```js\nf()\n```\n")).map (·.outline)) = .ok rs ∧
      rs.spans = [(2, 4)] ∧
      ∀ m n : Nat, (∃ name, .codeBlock m n ∈ rs.of name) ↔
        ∃ s : Symbol, .symbol s ∈ Dialect.markdown.findSymbols ⟨"a.md", "markdown"⟩
            (Text.lines "# T\n```js\nf()\n```\n") ∧
          s.kind = "code_block" ∧ s.first = m ∧ s.last = n := by
  have hlines : Text.lines "# T\n```js\nf()\n```\n" = ["# T", "```js", "f()", "```", ""] := by
    decide +kernel
  have hheading : IsHeading "# T" :=
    ⟨['#'], [' '], ['T'], ⟨fun c => List.mem_singleton.mp, by decide, by decide,
      List.all_eq_true.mp (by decide +kernel), by decide, by decide, by decide⟩, by decide +kernel⟩
  have hpairs : pairUp (fenced ((Text.lines "# T\n```js\nf()\n```\n").zipIdx 1)) =
      [(("```js", 2), ("```", 4))] := by
    decide +kernel
  obtain ⟨rs, hrs, hspans, hagree⟩ := section_blocks_agree_iff ⟨"a.md", "markdown"⟩ hlines hheading
  rw [hpairs] at hspans hagree
  refine ⟨rs, hrs, hspans, hagree.mpr fun p hp => ?_⟩
  obtain rfl := List.mem_singleton.mp hp
  exact ⟨⟨"js", by decide +kernel, List.all_eq_true.mp (by decide +kernel)⟩, by decide +kernel⟩

/-- A fence with another tag inside a block ends what the section has, and the symbol goes on to the
bare fence. -/
theorem tagged_fence_splits_block :
    Dialect.markdown.findRelations "# T\n```js\n```text\n```\n"
        ((Dialect.markdown.findSymbols ⟨"a.md", "markdown"⟩
          (Text.lines "# T\n```js\n```text\n```\n")).map (·.outline)) =
      .ok { entries := [("T", .codeBlock 2 3)] } ∧
    (Dialect.markdown.findSymbols ⟨"a.md", "markdown"⟩
        (Text.lines "# T\n```js\n```text\n```\n")).map (·.outline) =
      [⟨some "T", some "heading_h1", some 1, some 1⟩,
       ⟨some "code_block_js", some "code_block", some 2, some 4⟩] := by
  decide +kernel

end Markdown

end SymbolAtlas
