/-
  SymbolAtlas.Proofs.FencedBlocks: the fenced blocks of a document.

  Lines are read one after the other, and a closing fence looks like an opening one. `Laid` says how
  a document is laid out: lines outside blocks, blocks from an opening fence to the next bare one,
  and at the end perhaps a fence that nothing closes. The scan follows this layout (`laid_fences`),
  and what is to be known of the blocks is read off it.
-/

import SymbolAtlas.Proofs.Findings
import SymbolAtlas.Proofs.PatternText

namespace SymbolAtlas

/-! ## Texts without blanks at their ends -/

namespace Text

theorem isBlank_of_getLast?_trim {cs : List Char} {c : Char} (h : (trim cs).getLast? = some c) :
    isBlank c = false := by
  rw [trim, trimRight, List.getLast?_reverse] at h
  have hhead := List.head?_dropWhile_not isBlank (trimLeft cs).reverse
  rw [h] at hhead
  exact hhead

/-- A stripped text does not end in a line feed. -/
theorem strip_ne_append_lineFeed (s : String) (cs : List Char) :
    (strip s).toList ≠ cs ++ ['\n'] := by
  rw [strip, String.toList_ofList]
  intro h
  have hlast : (trim s.toList).getLast? = some '\n' := by rw [h, List.getLast?_concat]
  exact absurd (isBlank_of_getLast?_trim hlast) (by decide)

end Text

namespace Pattern

/-- Up to the end of a stripped text, a pattern takes all of it. -/
theorem takes_of_matchStart?_strip {p : Pattern} (hp : p.plain = true) {line : String} {m : Match}
    (h : (p ++ textEnd).matchStart? (Text.strip line) = some m) :
    p.Takes (Text.strip line).toList m.groups := by
  obtain ⟨cs, rest, htakes, heq, hrest⟩ := exists_of_matchStart?_textEnd hp h
  rcases hrest with rfl | rfl
  · rwa [heq, List.append_nil]
  · exact absurd heq (Text.strip_ne_append_lineFeed line cs)

end Pattern

namespace Markdown

open Pattern

/-! ## Fences -/

/-- Whether a line opens a block: but for the blanks at its ends it is a fence and a tag of word
characters, or a bare fence. -/
def Opens (line tag : String) : Prop :=
  Text.strip line = "```" ++ tag ∧ ∀ c ∈ tag.toList, Text.isWord c = true

theorem takes_opener_iff {cs : List Char} {parts : List (Nat × List Char)} :
    (lit "```" ++ capture 1 (chars .word)).Takes cs parts ↔
      ∃ w, (∀ c ∈ w, Text.isWord c = true) ∧ cs = "```".toList ++ w ∧ parts = [(1, w)] := by
  simp only [takes_append_iff, takes_lit_iff, takes_capture_iff, chars, takes_many_iff, holds_word]
  constructor
  · rintro ⟨-, w, -, -, ⟨rfl, rfl⟩, ⟨-, ⟨hw, -, rfl⟩, rfl⟩, rfl, rfl⟩
    exact ⟨w, hw, rfl, rfl⟩
  · rintro ⟨w, hw, rfl, rfl⟩
    exact ⟨_, w, _, _, ⟨rfl, rfl⟩, ⟨_, ⟨hw, Nat.zero_le _, rfl⟩, rfl⟩, rfl, rfl⟩

theorem opens_of_openerTag? {line tag : String} (h : openerTag? line = some tag) :
    Opens line tag := by
  obtain ⟨m, hm, rfl⟩ := Option.map_eq_some_iff.mp h
  obtain ⟨w, hw, hstrip, hparts⟩ := takes_opener_iff.mp (takes_of_matchStart?_strip rfl hm)
  have hgroup : m.group 1 = String.ofList w := Match.group_of_groups hparts rfl
  rw [hgroup]
  refine ⟨String.toList_inj.mp ?_, by rwa [String.toList_ofList]⟩
  rw [hstrip, String.toList_append, String.toList_ofList (l := w)]

theorem openerTag?_eq_some_iff {line tag : String} :
    openerTag? line = some tag ↔ Opens line tag := by
  refine ⟨opens_of_openerTag?, ?_⟩
  rintro ⟨hstrip, htag⟩
  have htakes : (lit "```" ++ capture 1 (chars .word)).Takes (Text.strip line).toList
      [(1, tag.toList)] :=
    takes_opener_iff.mpr ⟨tag.toList, htag, by rw [hstrip, String.toList_append], rfl⟩
  obtain ⟨m, hm⟩ := htakes.exists_matchStart?_textEnd
  -- some tag is found, and a line has no other
  have hfound : openerTag? line = some (m.group 1) := by
    rw [openerTag?, openerPattern, openerPattern.name0, hm, Option.map_some]
  have hsame : tag.toList = (m.group 1).toList := by
    have heq := congrArg String.toList (hstrip.symm.trans (opens_of_openerTag? hfound).1)
    rw [String.toList_append, String.toList_append] at heq
    exact List.append_cancel_left heq
  rw [hfound, String.toList_inj.mp hsame]

theorem closes_iff {line : String} : closes line = true ↔ Text.strip line = "```" := beq_iff_eq

/-! ## Layout -/

/-- How the lines of a document are laid out, the first of them with number `k`, and the blocks. -/
inductive Laid : (k : Nat) → List String → List Fence → Prop
  | nil (k : Nat) : Laid k [] []
  /-- a line that opens no block -/
  | skip {k : Nat} {line : String} {rest : List String} {blocks : List Fence}
      (plain : openerTag? line = none) (more : Laid (k + 1) rest blocks) :
      Laid k (line :: rest) blocks
  /-- an opening fence that no line closes -/
  | unclosed {k : Nat} {line tag : String} {rest : List String}
      (opener : openerTag? line = some tag) (never : ∀ l ∈ rest, closes l = false) :
      Laid k (line :: rest) []
  /-- an opening fence, the lines of a block and its closing fence -/
  | block {k : Nat} {line tag closer : String} {body rest : List String} {blocks : List Fence}
      (opener : openerTag? line = some tag) (inside : ∀ l ∈ body, closes l = false)
      (closed : closes closer = true) (more : Laid (k + body.length + 2) rest blocks) :
      Laid k (line :: (body ++ closer :: rest)) (⟨k, k + body.length + 1, tag, body⟩ :: blocks)

/-- A block that is open reaches to the first line that closes it, and is dropped without one. -/
theorem fences_open (b : OpenFence) (k : Nat) (lines : List String) :
    (∀ l ∈ lines, closes l = false) ∧ fences (some b) (lines.zipIdx k) = [] ∨
      ∃ body closer rest, lines = body ++ closer :: rest ∧ (∀ l ∈ body, closes l = false) ∧
        closes closer = true ∧ fences (some b) (lines.zipIdx k) =
          ⟨b.first, k + body.length, b.tag, b.body.reverse ++ body⟩ ::
            fences none (rest.zipIdx (k + body.length + 1)) := by
  induction lines generalizing b k with
  | nil => exact .inl ⟨nofun, rfl⟩
  | cons line rest ih =>
      rw [List.zipIdx_cons, fences]
      cases hclose : closes line with
      | true =>
          refine .inr ⟨[], line, rest, rfl, nofun, hclose, ?_⟩
          rw [if_pos rfl, List.append_nil]
          rfl
      | false =>
          rw [if_neg Bool.false_ne_true]
          rcases ih { b with body := line :: b.body } (k + 1) with
            ⟨hopen, hnone⟩ | ⟨body, closer, rest, rfl, hbody, hcloser, hblocks⟩
          · exact .inl ⟨List.forall_mem_cons.mpr ⟨hclose, hopen⟩, hnone⟩
          · refine .inr ⟨line :: body, closer, rest, rfl,
              List.forall_mem_cons.mpr ⟨hclose, hbody⟩, hcloser, ?_⟩
            have hlength : k + 1 + body.length = k + (line :: body).length := by
              rw [List.length_cons]
              omega
            rw [hblocks, hlength, List.reverse_cons, List.append_assoc]
            rfl

/-- The scan follows the layout. -/
theorem laid_fences (k : Nat) (lines : List String) :
    Laid k lines (fences none (lines.zipIdx k)) := by
  -- behind a block the scan goes on with fewer lines, so the induction is on their number
  induction hn : lines.length using Nat.strongRecOn generalizing k lines with
  | ind n ih =>
      cases lines with
      | nil => exact .nil k
      | cons line rest =>
          rw [List.length_cons] at hn
          rw [List.zipIdx_cons, fences]
          cases htag : openerTag? line with
          | none => exact .skip htag (ih rest.length (by omega) (k + 1) rest rfl)
          | some tag =>
              dsimp only
              rcases fences_open ⟨k, tag, []⟩ (k + 1) rest with
                ⟨hopen, hnone⟩ | ⟨body, closer, rest, rfl, hbody, hcloser, hblocks⟩
              · rw [hnone]
                exact .unclosed htag hopen
              · have hlast : k + 1 + body.length = k + body.length + 1 := by omega
                rw [hblocks, hlast]
                refine .block htag hbody hcloser (ih rest.length ?_ _ rest rfl)
                rw [List.length_append, List.length_cons] at hn
                omega

/-- Lines behind others are those whose numbers are large enough. -/
theorem mem_zipIdx_append_iff {front rest : List String} {k : Nat} {l : String × Nat}
    (hle : k + front.length ≤ l.2) :
    l ∈ (front ++ rest).zipIdx k ↔ l ∈ rest.zipIdx (k + front.length) := by
  rw [List.zipIdx_append, List.mem_append]
  refine ⟨fun h => h.resolve_left fun hfront => ?_, .inr⟩
  have hlt := (List.mem_zipIdx hfront).2.1
  omega

namespace Laid

variable {k n : Nat} {line tag : String} {lines : List String} {blocks : List Fence} {f : Fence}

/-- Where a block stands: between two fences of which the second is the first to close it. -/
theorem place (h : Laid k lines blocks) (hf : f ∈ blocks) :
    ∃ before opener closer after, lines = before ++ opener :: (f.body ++ closer :: after) ∧
      f.first = k + before.length ∧ f.last = f.first + f.body.length + 1 ∧
      openerTag? opener = some f.tag ∧ closes closer = true ∧ ∀ l ∈ f.body, closes l = false := by
  induction h with
  | nil => exact absurd hf List.not_mem_nil
  | @skip k line rest blocks plain more ih =>
      obtain ⟨before, opener, closer, after, rfl, hfirst, hspec⟩ := ih hf
      refine ⟨line :: before, opener, closer, after, rfl, ?_, hspec⟩
      rw [hfirst, List.length_cons]
      omega
  | unclosed => exact absurd hf List.not_mem_nil
  | @block k line tag closer body rest blocks hopener inside closed more ih =>
      rcases List.mem_cons.mp hf with rfl | hf
      · exact ⟨[], line, closer, rest, rfl, rfl, rfl, hopener, closed, inside⟩
      · obtain ⟨before, opener, last, after, rfl, hfirst, hspec⟩ := ih hf
        refine ⟨line :: (body ++ closer :: before), opener, last, after, by simp, ?_, hspec⟩
        rw [hfirst]
        simp only [List.length_cons, List.length_append]
        omega

theorem le_first (h : Laid k lines blocks) (hf : f ∈ blocks) : k ≤ f.first := by
  obtain ⟨before, -, -, -, -, hfirst, -⟩ := h.place hf
  omega

/-- A block ends before the next one begins. -/
theorem pairwise (h : Laid k lines blocks) : blocks.Pairwise (·.last < ·.first) := by
  induction h with
  | nil => exact .nil
  | skip _ _ ih => exact ih
  | unclosed => exact .nil
  | @block k _ _ _ body _ _ _ _ _ more ih =>
      refine List.pairwise_cons.mpr ⟨fun f hf => ?_, ih⟩
      have hle := more.le_first hf
      show k + body.length + 1 < f.first
      omega

/-- Behind a line that opens a block and lies in none, nothing closes and no block begins. -/
theorem unclosed_of_outside (h : Laid k lines blocks) (hl : (line, n) ∈ lines.zipIdx k)
    (hopens : openerTag? line = some tag) (hout : ∀ f ∈ blocks, n < f.first ∨ f.last < n) :
    (∀ l ∈ lines.zipIdx k, n < l.2 → closes l.1 = false) ∧ ∀ f ∈ blocks, f.first ≤ n := by
  induction h with
  | nil => exact absurd hl List.not_mem_nil
  | @skip k head rest blocks plain more ih =>
      rw [List.zipIdx_cons] at hl ⊢
      rcases List.mem_cons.mp hl with heq | hl
      · obtain ⟨rfl, rfl⟩ := Prod.mk.inj heq
        exact absurd (plain.symm.trans hopens) (by simp)
      · obtain ⟨hlater, hfirst⟩ := ih hl hout
        have hle := (List.mem_zipIdx hl).1
        refine ⟨List.forall_mem_cons.mpr ⟨fun hlt => ?_, hlater⟩, hfirst⟩
        exact absurd hlt (by show ¬ n < k; omega)
  | @unclosed k head tag rest hopener never =>
      have hle := (List.mem_zipIdx hl).1
      rw [List.zipIdx_cons]
      refine ⟨List.forall_mem_cons.mpr ⟨fun hlt => ?_, fun l hl _ => ?_⟩, nofun⟩
      · exact absurd hlt (by show ¬ n < k; omega)
      · exact never l.1 (List.fst_mem_of_mem_zipIdx hl)
  | @block k head tag closer body rest blocks hopener inside closed more ih =>
      have hsplit : head :: (body ++ closer :: rest) = (head :: (body ++ [closer])) ++ rest := by
        simp
      have hlength : k + (head :: (body ++ [closer])).length = k + body.length + 2 := by
        simp only [List.length_cons, List.length_append, List.length_nil]
        omega
      have hle := (List.mem_zipIdx hl).1
      -- the line is none of those of the block, and so are all that come later
      have hbehind : k + body.length + 1 < n :=
        (hout _ List.mem_cons_self).resolve_left (by show ¬ n < k; omega)
      rw [hsplit] at hl ⊢
      rw [mem_zipIdx_append_iff (by show _ ≤ n; omega), hlength] at hl
      obtain ⟨hlater, hfirst⟩ := ih hl fun f hf => hout f (List.mem_cons_of_mem _ hf)
      refine ⟨fun l hl hlt => hlater l ?_ hlt, List.forall_mem_cons.mpr ⟨hle, hfirst⟩⟩
      rwa [mem_zipIdx_append_iff (by omega), hlength] at hl

end Laid

/-! ## Symbols of a sort -/

/-- The symbols of a document, sort by sort, with what the kinds of a sort begin with. -/
def sorts (src : Source) (lines : List String) : List (String × List Symbol) :=
  [("heading_h", scanLines (headingOn src) lines ++ underlined src (lines.zipIdx 1)),
   ("code_block", (fences none (lines.zipIdx 1)).map (·.symbol src)),
   ("list_item_", scanLines (itemOn src) lines),
   ("task_list_item_", scanLines (taskOn src) lines),
   ("blockquote", scanLines (quoteRule.onLine src) lines),
   ("thematic_break", scanLines (markOn breakPattern "thematic_break" "thematic_break" src) lines),
   ("link_reference", scanLines (labelRule.onLine src) lines),
   ("table", scanLines (markOn rowPattern "table_row" "table" src) lines)]

/-- The symbols of a document. -/
def symbols (src : Source) (lines : List String) : List Symbol := (sorts src lines).flatMap (·.2)

theorem findSymbols_eq (src : Source) (lines : List String) :
    findSymbols src lines = (symbols src lines).map .symbol := by
  simp only [findSymbols, symbols, sorts, List.flatMap_cons, List.flatMap_nil, List.append_nil,
    List.append_assoc]

theorem underlined_kind {src : Source} {numbered : List (String × Nat)} {s : Symbol}
    (hs : s ∈ underlined src numbered) : ∃ level, s.kind = "heading_h" ++ level := by
  fun_induction underlined src numbered with
  | case1 line n next m rest ih =>
      rcases List.mem_append.mp hs with hs | hs
      · obtain ⟨m, -, rfl⟩ := List.mem_map.mp hs
        exact ⟨_, rfl⟩
      · exact ih hs
  | case2 numbered _ => exact absurd hs List.not_mem_nil

theorem kind_of_mem_sorts {src : Source} {lines : List String} {sort : String × List Symbol}
    (hsort : sort ∈ sorts src lines) {s : Symbol} (hs : s ∈ sort.2) :
    ∃ more, s.kind = sort.1 ++ more := by
  have hlines : ∀ {name : String} {read : Nat → String → List Symbol},
      (∀ n line, ∀ s ∈ read n line, ∃ more, s.kind = name ++ more) → s ∈ scanLines read lines →
        ∃ more, s.kind = name ++ more := fun h hs => forall_mem_scanLines h lines s hs
  simp only [sorts, List.mem_cons, List.not_mem_nil, or_false] at hsort
  rcases hsort with rfl | rfl | rfl | rfl | rfl | rfl | rfl | rfl
  · rcases List.mem_append.mp hs with hs | hs
    · refine hlines (fun n line s hs => ?_) hs
      obtain ⟨m, -, rfl⟩ := List.mem_map.mp hs
      exact ⟨_, rfl⟩
    · exact underlined_kind hs
  · obtain ⟨f, -, rfl⟩ := List.mem_map.mp hs
    exact ⟨"", rfl⟩
  -- the kind of a symbol on one line is given by its sort
  all_goals
    refine hlines (fun n line s hs => ?_) hs
    obtain ⟨m, -, rfl⟩ := List.mem_map.mp hs
  · exact ⟨_, rfl⟩
  · exact ⟨_, rfl⟩
  · exact ⟨"", rfl⟩
  · exact ⟨"", rfl⟩
  · exact ⟨"", rfl⟩
  · exact ⟨"", rfl⟩

/-- The first letter of a kind tells which sorts a symbol can be of. -/
theorem head?_kind_of_mem_sorts {src : Source} {lines : List String} {sort : String × List Symbol}
    (hsort : sort ∈ sorts src lines) {s : Symbol} (hs : s ∈ sort.2) :
    s.kind.toList.head? = sort.1.toList.head? := by
  have hne : sort.1.toList.head?.isSome = true := by
    have hall : ∀ name ∈ ["heading_h", "code_block", "list_item_", "task_list_item_", "blockquote",
        "thematic_break", "link_reference", "table"], name.toList.head?.isSome = true := by decide
    exact hall _ (List.mem_map_of_mem (f := Prod.fst) hsort)
  obtain ⟨more, hkind⟩ := kind_of_mem_sorts hsort hs
  rw [hkind, String.toList_append, List.head?_append, Option.or_of_isSome hne]

theorem flatMap_filter_of_nil {α β : Type} {q : α → Bool} {g : α → List β} {l : List α}
    (h : ∀ a ∈ l, q a = false → g a = []) : (l.filter q).flatMap g = l.flatMap g := by
  induction l with
  | nil => rfl
  | cons a rest ih =>
      obtain ⟨ha, hrest⟩ := List.forall_mem_cons.mp h
      cases hq : q a with
      | true => rw [List.filter_cons_of_pos hq, List.flatMap_cons, List.flatMap_cons, ih hrest]
      | false =>
          rw [List.filter_cons_of_neg (by simp [hq]), List.flatMap_cons, ha hq, ih hrest]
          rfl

/-- Symbols whose kinds all begin with one letter are to be found among the sorts that begin with
it. -/
theorem filter_symbols {c : Char} {pick : String → Bool}
    (hpick : ∀ kind, pick kind = true → kind.toList.head? = some c) (src : Source)
    (lines : List String) :
    (symbols src lines).filter (pick ·.kind) =
      ((sorts src lines).filter (·.1.toList.head? == some c)).flatMap
        fun sort => sort.2.filter (pick ·.kind) := by
  rw [symbols, flatMap_filter_of_nil, List.filter_flatMap]
  intro sort hsort hother
  refine List.filter_eq_nil_iff.mpr fun s hs hpicked => ?_
  rw [← head?_kind_of_mem_sorts hsort hs, hpick _ hpicked, beq_self_eq_true] at hother
  exact absurd hother (by decide)

/-- The symbols with the kind of fenced blocks are the blocks. -/
theorem filter_codeBlock (src : Source) (lines : List String) :
    (symbols src lines).filter (·.kind == "code_block") =
      (fences none (lines.zipIdx 1)).map (·.symbol src) := by
  have hletter : ∀ kind : String, (kind == "code_block") = true → kind.toList.head? = some 'c' := by
    intro kind heq
    rw [beq_iff_eq.mp heq]
    rfl
  have hsort : (sorts src lines).filter (·.1.toList.head? == some 'c') =
      [("code_block", (fences none (lines.zipIdx 1)).map (·.symbol src))] := by
    simp [sorts]
  rw [filter_symbols hletter, hsort, List.flatMap_singleton, List.filter_eq_self.mpr]
  intro s hs
  obtain ⟨f, -, rfl⟩ := List.mem_map.mp hs
  rfl

/-! ## Blocks as symbols -/

/-- A symbol that tells a block of a document: an opening fence, lines of which none closes it, and
a closing fence. -/
def TellsBlock (lines : List String) (s : Symbol) : Prop :=
  ∃ before opener body closer after, lines = before ++ opener :: (body ++ closer :: after) ∧
    s.first = before.length + 1 ∧ s.last = s.first + body.length + 1 ∧
    (∃ tag, Opens opener tag) ∧ Text.strip closer = "```" ∧ (∀ l ∈ body, Text.strip l ≠ "```") ∧
    s.snippet = Text.strip opener ++ "\n" ++ Text.join "\n" body ++ "\n" ++ "```"

theorem Laid.tellsBlock {lines : List String} {blocks : List Fence} (h : Laid 1 lines blocks)
    (src : Source) {f : Fence} (hf : f ∈ blocks) : TellsBlock lines (f.symbol src) := by
  obtain ⟨before, opener, closer, after, hlines, hfirst, hlast, htag, hclosed, hinside⟩ :=
    h.place hf
  have hopens := opens_of_openerTag? htag
  refine ⟨before, opener, f.body, closer, after, hlines, ?_, ?_, ⟨f.tag, hopens⟩,
    closes_iff.mp hclosed, fun l hl hstrip => ?_, ?_⟩
  · show (f.first : Int) = before.length + 1
    omega
  · show (f.last : Int) = f.first + f.body.length + 1
    omega
  · exact absurd ((hinside l hl).symm.trans (closes_iff.mpr hstrip)) Bool.false_ne_true
  · have hend : "\n```" = "\n" ++ "```" := by decide
    show "```" ++ f.tag ++ "\n" ++ Text.join "\n" f.body ++ "\n```" = _
    rw [hopens.1, hend]
    simp only [String.append_assoc]

theorem TellsBlock.first_lt_last {lines : List String} {s : Symbol} (h : TellsBlock lines s) :
    1 ≤ s.first ∧ s.first < s.last ∧ s.last ≤ lines.length := by
  obtain ⟨before, opener, body, closer, after, rfl, hfirst, hlast, -⟩ := h
  simp only [List.length_append, List.length_cons]
  omega

/-- The fenced blocks of a document are paired exactly. Each begins at a line with a fence and a
tag, if any, and ends at the next line that is a bare fence, with the lines between them untouched;
one ends before the next begins. A line with a fence and a tag that lies in no block opens one that
is never closed: no line after it is a bare fence, and no block begins after it. -/
theorem fenced_blocks_paired (src : Source) (lines : List String) :
    ∃ blocks : List Symbol,
      (Dialect.markdown.findSymbols src lines).filter (·.outline.kind == some "code_block") =
        blocks.map .symbol ∧
      (∀ s ∈ blocks, 1 ≤ s.first ∧ s.first < s.last ∧ s.last ≤ lines.length) ∧
      (∀ s ∈ blocks, TellsBlock lines s) ∧
      blocks.Pairwise (fun s t => s.last < t.first) ∧
      ∀ l ∈ lines.zipIdx 1, (∃ tag, Opens l.1 tag) →
        (∀ s ∈ blocks, (l.2 : Int) < s.first ∨ s.last < l.2) →
          (∀ l' ∈ lines.zipIdx 1, l.2 < l'.2 → Text.strip l'.1 ≠ "```") ∧
          ∀ s ∈ blocks, s.first ≤ l.2 := by
  have hlaid := laid_fences 1 lines
  have htells : ∀ s ∈ (fences none (lines.zipIdx 1)).map (·.symbol src), TellsBlock lines s := by
    intro s hs
    obtain ⟨f, hf, rfl⟩ := List.mem_map.mp hs
    exact hlaid.tellsBlock src hf
  refine ⟨_, ?_, fun s hs => (htells s hs).first_lt_last, htells, ?_, ?_⟩
  · show (findSymbols src lines).filter _ = _
    rw [findSymbols_eq, List.filter_map, ← filter_codeBlock]
    rfl
  · exact List.pairwise_map.mpr (hlaid.pairwise.imp Int.ofNat_lt.mpr)
  · rintro ⟨line, n⟩ hl ⟨tag, hopens⟩ hout
    -- the lines of symbols are integers, those of the laid fences are counted
    have houtside : ∀ f ∈ fences none (lines.zipIdx 1), n < f.first ∨ f.last < n := by
      intro f hf
      exact (hout _ (List.mem_map_of_mem hf)).imp Int.ofNat_lt.mp Int.ofNat_lt.mp
    obtain ⟨hlater, hfirst⟩ :=
      hlaid.unclosed_of_outside hl (openerTag?_eq_some_iff.mpr hopens) houtside
    refine ⟨fun l' hl' hlt hstrip => ?_, fun s hs => ?_⟩
    · exact absurd ((hlater l' hl' hlt).symm.trans (closes_iff.mpr hstrip)) Bool.false_ne_true
    · obtain ⟨f, hf, rfl⟩ := List.mem_map.mp hs
      exact Int.ofNat_le.mpr (hfirst f hf)

end Markdown

end SymbolAtlas
