/-
  SymbolAtlas.Proofs.Sections: under which headings the contents of a document are filed.

  A list item or a fenced block belongs to the heading nearest to it, the last one that begins on
  its line or before it (`Nearest`). Items are filed under every heading before them, and blocks
  under the last listed one, where all headings with hash signs are listed before the underlined
  ones. So an item has its place only below a single heading (`filedNearest_map_iff`), and a block
  only where no heading with hash signs stands between the last underlined one and the block
  (`filedNearest_section_iff`).
-/

import Mathlib.Data.List.Nodup
import SymbolAtlas.Proofs.FencePairs

namespace SymbolAtlas

/-- The owners that a relation is filed under, one for each time. -/
def Relations.filers (rs : Relations) (r : Relation) : List String :=
  (rs.entries.filter (·.2 == r)).map (·.1)

/-! ## Order of symbols and pairs -/

/-- Where no two items have the same key, a key is that of one item. -/
theorem eq_of_key {α β : Type} {key : α → β} {l : List α} {a b : α}
    (hkeys : l.Pairwise (key · ≠ key ·)) (ha : a ∈ l) (hb : b ∈ l) (h : key a = key b) : a = b :=
  List.inj_on_of_nodup_map (List.pairwise_map.mpr hkeys) ha hb h

theorem map_fst_pairUp_sublist {α : Type} (l : List α) : ((pairUp l).map Prod.fst).Sublist l := by
  fun_induction pairUp l with
  | case1 a b rest ih => exact (ih.cons b).cons_cons a
  | case2 l h => exact List.nil_sublist l

/-- Among items of which no two have the same key, what one gives is told apart by the key. -/
theorem filter_flatMap_of_mem {α β : Type} {l : List α} {f : α → List β} {q : β → Bool} {a : α}
    (hnodup : l.Nodup) (ha : a ∈ l) (hself : ∀ x ∈ f a, q x = true)
    (hother : ∀ b ∈ l, b ≠ a → ∀ x ∈ f b, ¬ q x = true) : (l.flatMap f).filter q = f a := by
  obtain ⟨front, back, rfl⟩ := List.append_of_mem ha
  have hnone : ∀ part, part ⊆ front ++ a :: back → a ∉ part → (part.flatMap f).filter q = [] := by
    intro part hpart hnot
    refine List.filter_eq_nil_iff.mpr fun x hx => ?_
    obtain ⟨b, hb, hx⟩ := List.mem_flatMap.mp hx
    exact hother b (hpart hb) (fun heq => hnot (heq ▸ hb)) x hx
  obtain ⟨-, hnodup, hapart⟩ := List.nodup_append.mp hnodup
  have hfront : a ∉ front := fun hmem => hapart a hmem a List.mem_cons_self rfl
  have hback : a ∉ back := (List.nodup_cons.mp hnodup).1
  rw [List.flatMap_append, List.flatMap_cons, List.filter_append, List.filter_append,
    hnone front (List.subset_append_left _ _) hfront,
    hnone back (fun b hb => by simp [hb]) hback, List.filter_eq_self.mpr hself, List.nil_append,
    List.append_nil]

namespace Markdown

variable {src : Source} {lines : List String} {hs as bs : List Symbol} {line : Int} {s t : Symbol}

/-! ## The nearest heading -/

/-- The heading nearest to a line: it begins on the line or before it, and no other such heading
begins later. -/
structure Nearest (hs : List Symbol) (line : Int) (s : Symbol) : Prop where
  mem : s ∈ hs
  first_le : s.first ≤ line
  greatest : ∀ t ∈ hs, t.first ≤ line → t.first ≤ s.first

/-- Whether something on a line is filed once, under the heading nearest to the line, or not at all
when no heading begins on the line or before it. -/
def FiledNearest (hs : List Symbol) (line : Int) (owners : List String) : Prop :=
  (∃ s, Nearest hs line s ∧ owners = [s.name]) ∨ (∀ s ∈ hs, line < s.first) ∧ owners = []

/-- In the order of the lines the last heading before a line is the nearest. -/
theorem nearest_of_getLast? (hsorted : hs.Pairwise (·.first < ·.first))
    (h : (hs.filter (·.first ≤ line)).getLast? = some s) : Nearest hs line s := by
  obtain ⟨init, hinit⟩ := List.getLast?_eq_some_iff.mp h
  have hmem : ∀ t, t ∈ init ++ [s] ↔ t ∈ hs ∧ t.first ≤ line := by
    intro t
    rw [← hinit, List.mem_filter, decide_eq_true_iff]
  obtain ⟨hs', hle⟩ := (hmem s).mp (by simp)
  refine ⟨hs', hle, fun t ht hfirst => ?_⟩
  have hlast : (init ++ [s]).Pairwise (·.first < ·.first) := hinit ▸ hsorted.filter _
  rcases List.mem_append.mp ((hmem t).mpr ⟨ht, hfirst⟩) with hinit | hself
  · exact Int.le_of_lt ((List.pairwise_append.mp hlast).2.2 t hinit s (List.mem_singleton_self s))
  · exact Int.le_of_eq (congrArg Symbol.first (List.mem_singleton.mp hself))

theorem Nearest.getLast?_eq (hsorted : hs.Pairwise (·.first < ·.first)) (h : Nearest hs line s) :
    (hs.filter (·.first ≤ line)).getLast? = some s := by
  have hmem : s ∈ hs.filter (·.first ≤ line) :=
    List.mem_filter.mpr ⟨h.mem, decide_eq_true h.first_le⟩
  have hlast := List.getLast?_eq_some_getLast (List.ne_nil_of_mem hmem)
  have hnearest := nearest_of_getLast? hsorted hlast
  rw [hlast]
  -- both begin on the same line, on which there is one heading only
  have hle := h.greatest _ hnearest.mem hnearest.first_le
  have hge := hnearest.greatest s h.mem h.first_le
  exact congrArg some
    (eq_of_key (hsorted.imp Int.ne_of_lt) hnearest.mem h.mem (Int.le_antisymm hle hge))

theorem getLast?_eq_none_iff :
    (hs.filter (·.first ≤ line)).getLast? = none ↔ ∀ s ∈ hs, line < s.first := by
  rw [List.getLast?_eq_none_iff, List.filter_eq_nil_iff]
  simp only [decide_eq_true_iff, Int.not_le]

/-- What is filed under all headings before it is filed under the nearest one alone if there are no
two of them. -/
theorem filedNearest_map_iff :
    FiledNearest hs line ((hs.filter (·.first ≤ line)).map (·.name)) ↔
      (hs.filter (·.first ≤ line)).length ≤ 1 := by
  constructor
  · rintro (⟨s, -, howners⟩ | ⟨-, howners⟩)
    · rw [← List.length_map (·.name), howners, List.length_singleton]
    · rw [← List.length_map (·.name), howners]
      exact Nat.zero_le 1
  · intro hlength
    have hmem : ∀ t, t ∈ hs.filter (·.first ≤ line) ↔ t ∈ hs ∧ t.first ≤ line := by
      intro t
      rw [List.mem_filter, decide_eq_true_iff]
    rcases Nat.le_one_iff_eq_zero_or_eq_one.mp hlength with hzero | hone
    · have hfilter := List.length_eq_zero_iff.mp hzero
      refine .inr ⟨fun s hs' => Int.not_le.mp fun hle => ?_, by rw [hfilter, List.map_nil]⟩
      exact List.not_mem_nil (hfilter ▸ (hmem s).mpr ⟨hs', hle⟩)
    · obtain ⟨s, hfilter⟩ := List.length_eq_one_iff.mp hone
      rw [hfilter] at hmem
      obtain ⟨hs', hle⟩ := (hmem s).mp (List.mem_singleton_self s)
      refine .inl ⟨s, ⟨hs', hle, fun t ht hfirst => ?_⟩, by rw [hfilter, List.map_singleton]⟩
      exact Int.le_of_eq (congrArg Symbol.first (List.mem_singleton.mp ((hmem t).mpr ⟨ht, hfirst⟩)))

theorem Nearest.append_left {a : Symbol} (h : Nearest as line a)
    (hbs : ∀ b ∈ bs, b.first ≤ line → b.first ≤ a.first) : Nearest (as ++ bs) line a where
  mem := List.mem_append_left bs h.mem
  first_le := h.first_le
  greatest t ht hle := (List.mem_append.mp ht).elim (h.greatest t · hle) (hbs t · hle)

theorem Nearest.append_right {b : Symbol} (h : Nearest bs line b)
    (has : ∀ a ∈ as, a.first ≤ line → a.first ≤ b.first) : Nearest (as ++ bs) line b where
  mem := List.mem_append_right as h.mem
  first_le := h.first_le
  greatest t ht hle := (List.mem_append.mp ht).elim (has t · hle) (h.greatest t · hle)

/-- The section of a line is the nearest heading's if, of two sorts of headings that are listed one
after the other, no heading of the first sort stands between the last one of the second sort and the
line, or if both have one name. -/
theorem filedNearest_section_iff (has : as.Pairwise (·.first < ·.first))
    (hbs : bs.Pairwise (·.first < ·.first)) :
    FiledNearest (as ++ bs) line (sectionName (as ++ bs) line).toList ↔
      ∀ a b, Nearest as line a → Nearest bs line b → a.first ≤ b.first ∨ a.name = b.name := by
  rw [sectionName, List.filter_append, List.getLast?_append]
  cases hb : (bs.filter (·.first ≤ line)).getLast? with
  | none =>
      -- the second sort has nothing before the line, so the first sort alone decides
      have hnone := getLast?_eq_none_iff.mp hb
      have hright : ∀ a b, Nearest as line a → Nearest bs line b →
          a.first ≤ b.first ∨ a.name = b.name := fun a b _ hnear =>
        absurd hnear.first_le (Int.not_le.mpr (hnone b hnear.mem))
      refine iff_of_true ?_ hright
      cases ha : (as.filter (·.first ≤ line)).getLast? with
      | none =>
          refine .inr ⟨fun s hs' => ?_, rfl⟩
          exact (List.mem_append.mp hs').elim (getLast?_eq_none_iff.mp ha s) (hnone s)
      | some a =>
          refine .inl ⟨a, (nearest_of_getLast? has ha).append_left ?_, rfl⟩
          exact fun b hmem hle => absurd hle (Int.not_le.mpr (hnone b hmem))
  | some b =>
      have hnearb := nearest_of_getLast? hbs hb
      constructor
      · -- the owner is `b`, so the nearest heading has its name
        rintro (⟨s, hnear, howner⟩ | ⟨hnone, -⟩) a b' hneara hnearb'
        · obtain rfl := Option.some.inj (hb.symm.trans (hnearb'.getLast?_eq hbs))
          by_cases hle : a.first ≤ b.first
          · exact .inl hle
          · have hge := hnear.greatest a (List.mem_append_left _ hneara.mem) hneara.first_le
            rcases List.mem_append.mp hnear.mem with hmem | hmem
            · -- nearest among the first sort, too
              have hsa : Nearest as line s := ⟨hmem, hnear.first_le, fun t ht =>
                hnear.greatest t (List.mem_append_left _ ht)⟩
              obtain rfl := Option.some.inj
                ((hneara.getLast?_eq has).symm.trans (hsa.getLast?_eq has))
              exact .inr (List.cons.inj howner).1.symm
            · have := hnearb.greatest s hmem hnear.first_le
              omega
        · exact absurd hnearb.first_le
            (Int.not_le.mpr (hnone b (List.mem_append_right _ hnearb.mem)))
      · intro hcond
        left
        by_cases hbefore : ∀ a ∈ as, a.first ≤ line → a.first ≤ b.first
        · exact ⟨b, hnearb.append_right hbefore, rfl⟩
        · -- a heading of the first sort is nearer than `b`, and it has its name
          cases ha : (as.filter (·.first ≤ line)).getLast? with
          | none =>
              refine absurd (fun a hmem hle => ?_) hbefore
              exact absurd hle (Int.not_le.mpr (getLast?_eq_none_iff.mp ha a hmem))
          | some a =>
              have hneara := nearest_of_getLast? has ha
              have hlt : b.first < a.first := Int.not_le.mp fun hle =>
                hbefore fun t ht hfirst => Int.le_trans (hneara.greatest t ht hfirst) hle
              have hname := (hcond a b hneara hnearb).resolve_left (Int.not_le.mpr hlt)
              refine ⟨a, hneara.append_left ?_, congrArg (fun name => [name]) hname.symm⟩
              exact fun t ht hle => Int.le_trans (hnearb.greatest t ht hle) (Int.le_of_lt hlt)

/-! ## Headings, items and pairs in the order of the lines -/

/-- Symbols that are read at most once on a line, and begin there, are in the order of the
lines. -/
theorem pairwise_first_scanLines {α : Type} {read : Nat → String → Option α}
    {make : Nat → String → α → Symbol} (hmake : ∀ n line a, (make n line a).first = n)
    (lines : List String) :
    (scanLines (fun n line => (read n line).toList.map (make n line)) lines).Pairwise
      (·.first < ·.first) := by
  refine pairwise_scanLines (fun n line => pairwise_toList_map _ _) ?_ lines
  intro m n line line' hlt a ha b hb
  obtain ⟨_, -, rfl⟩ := List.mem_map.mp ha
  obtain ⟨_, -, rfl⟩ := List.mem_map.mp hb
  rw [hmake, hmake]
  exact Int.ofNat_lt.mpr hlt

theorem pairwise_hashed (src : Source) (lines : List String) :
    (scanLines (headingOn src) lines).Pairwise (·.first < ·.first) :=
  pairwise_first_scanLines (fun _ _ _ => rfl) lines

theorem pairwise_items (src : Source) (lines : List String) :
    (items src lines).Pairwise (·.first < ·.first) :=
  pairwise_first_scanLines (fun _ _ _ => rfl) lines

theorem first_of_mem_underlined {k : Nat} (hs : s ∈ underlined src (lines.zipIdx k)) :
    (k : Int) ≤ s.first := by
  induction lines generalizing k with
  | nil => exact absurd hs List.not_mem_nil
  | cons line rest ih =>
      cases rest with
      | nil => exact absurd hs List.not_mem_nil
      | cons next rest =>
          rcases List.mem_append.mp hs with hs | hs
          · obtain ⟨_, -, rfl⟩ := List.mem_map.mp hs
            exact Int.le_refl _
          · have hle := ih hs
            omega

theorem pairwise_underlined (src : Source) (k : Nat) (lines : List String) :
    (underlined src (lines.zipIdx k)).Pairwise (·.first < ·.first) := by
  induction lines generalizing k with
  | nil => exact .nil
  | cons line rest ih =>
      cases rest with
      | nil => exact .nil
      | cons next rest =>
          refine List.pairwise_append.mpr ⟨pairwise_toList_map _ _, ih (k + 1), ?_⟩
          intro a ha b hb
          obtain ⟨_, -, rfl⟩ := List.mem_map.mp ha
          have hmore : b ∈ underlined src ((next :: rest).zipIdx (k + 1)) := hb
          have hle := first_of_mem_underlined hmore
          show (k : Int) < b.first
          omega

theorem pairwise_fencePairs (lines : List String) :
    (fencePairs lines).Pairwise (·.1 < ·.1) := by
  have hnumbers : ((lines.zipIdx 1).map Prod.snd).Pairwise (· < ·) := by
    rw [List.zipIdx_map_snd]
    exact List.pairwise_lt_range'
  have hfenced : ((fenced (lines.zipIdx 1)).map Prod.snd).Pairwise (· < ·) :=
    hnumbers.sublist (List.filter_sublist.map _)
  exact List.pairwise_map.mp (hfenced.sublist (map_fst_pairUp_sublist _))

/-! ## Owners -/

theorem filter_kind {entries : List (String × Relation)} {kind : String}
    (h : ∀ e ∈ entries, e.2.kind = kind) (kind' : String) :
    entries.filter (·.2.kind == kind') = if kind = kind' then entries else [] := by
  split
  next heq => exact List.filter_eq_self.mpr fun e he => by rw [h e he, heq, beq_self_eq_true]
  next hne =>
    refine List.filter_eq_nil_iff.mpr fun e he heq => hne ?_
    rw [← h e he, beq_iff_eq.mp heq]

/-- Relations of another kind are not filed as this one. -/
theorem filter_eq_nil_of_kind {entries : List (String × Relation)} {kind : String}
    (h : ∀ e ∈ entries, e.2.kind = kind) {r : Relation} (hr : kind ≠ r.kind) :
    entries.filter (·.2 == r) = [] := by
  refine List.filter_eq_nil_iff.mpr fun e he heq => hr ?_
  rw [← h e he, beq_iff_eq.mp heq]

theorem kind_of_mem_blocks (lines : List String) (hs : List Symbol) :
    ∀ e ∈ (fencePairs lines).flatMap (blockIn hs), e.2.kind = "contains_code_block" := by
  intro e he
  obtain ⟨p, -, he⟩ := List.mem_flatMap.mp he
  obtain ⟨name, -, rfl⟩ := List.mem_map.mp he
  rfl

theorem kind_of_mem_items (src : Source) (lines : List String) (hs : List Symbol) :
    ∀ e ∈ (items src lines).flatMap (itemIn hs), e.2.kind = "contains_list_item" := by
  intro e he
  obtain ⟨item, -, he⟩ := List.mem_flatMap.mp he
  obtain ⟨s, -, rfl⟩ := List.mem_map.mp he
  rfl

variable {linked blocks filed : List (String × Relation)}

/-- An item is told apart by its line, so its owners are the headings before it. -/
theorem filers_listItem (hlinked : ∀ e ∈ linked, e.2.kind = "link")
    (hblocks : ∀ e ∈ blocks, e.2.kind = "contains_code_block") {item : Symbol}
    (hitem : item ∈ items src lines) :
    Relations.filers { entries := linked ++ blocks ++ (items src lines).flatMap (itemIn hs) }
        (.listItem item.name item.first) =
      (hs.filter (·.first ≤ item.first)).map (·.name) := by
  have hkeys : (items src lines).Pairwise (·.first ≠ ·.first) :=
    (pairwise_items src lines).imp Int.ne_of_lt
  have hown : ((items src lines).flatMap (itemIn hs)).filter
      (·.2 == .listItem item.name item.first) = itemIn hs item := by
    refine filter_flatMap_of_mem (hkeys.imp fun hne heq => hne (congrArg Symbol.first heq)) hitem
      ?_ ?_
    · intro e he
      obtain ⟨s, -, rfl⟩ := List.mem_map.mp he
      exact beq_self_eq_true _
    · intro other hother hne e he heq
      obtain ⟨s, -, rfl⟩ := List.mem_map.mp he
      exact hne (eq_of_key hkeys hother hitem (Relation.listItem.inj (beq_iff_eq.mp heq)).2)
  rw [Relations.filers, List.filter_append, List.filter_append, hown,
    filter_eq_nil_of_kind hlinked (by simp [Relation.kind]),
    filter_eq_nil_of_kind hblocks (by simp [Relation.kind]), List.nil_append, List.nil_append,
    itemIn, List.map_map]
  rfl

/-- A pair of fences is told apart by its first line, so its owner is the section of that line. -/
theorem filers_codeBlock (hlinked : ∀ e ∈ linked, e.2.kind = "link")
    (hfiled : ∀ e ∈ filed, e.2.kind = "contains_list_item") {p : Nat × Nat}
    (hp : p ∈ fencePairs lines) :
    Relations.filers { entries := linked ++ (fencePairs lines).flatMap (blockIn hs) ++ filed }
        (.codeBlock p.1 p.2) = (sectionName hs p.1).toList := by
  have hkeys : (fencePairs lines).Pairwise (·.1 ≠ ·.1) :=
    (pairwise_fencePairs lines).imp Nat.ne_of_lt
  have hown : ((fencePairs lines).flatMap (blockIn hs)).filter (·.2 == .codeBlock p.1 p.2) =
      blockIn hs p := by
    refine filter_flatMap_of_mem (hkeys.imp fun hne heq => hne (congrArg Prod.fst heq)) hp ?_ ?_
    · intro e he
      obtain ⟨name, -, rfl⟩ := List.mem_map.mp he
      exact beq_self_eq_true _
    · intro other hother hne e he heq
      obtain ⟨name, -, rfl⟩ := List.mem_map.mp he
      exact hne (eq_of_key hkeys hother hp (Relation.codeBlock.inj (beq_iff_eq.mp heq)).1)
  rw [Relations.filers, List.filter_append, List.filter_append, hown,
    filter_eq_nil_of_kind hlinked (by simp [Relation.kind]),
    filter_eq_nil_of_kind hfiled (by simp [Relation.kind]), List.nil_append, List.append_nil,
    blockIn, List.map_map]
  exact List.map_id _

/-- How list items and fenced blocks are filed: an item under every heading that begins on its line
or before it, and a block, from one line that begins with a fence to the next, under the last such
heading of the list, in which those with hash signs come first. Each has just the heading nearest to
it, or none where there is none, if and only if no item has two headings before it and no block has
a heading with hash signs before it that follows the last underlined one and has another name. -/
theorem contents_filed_nearest_iff (src : Source) (content : String) :
    ∃ rs, Dialect.markdown.findRelations content
        ((Dialect.markdown.findSymbols src (Text.lines content)).map (·.outline)) = .ok rs ∧
      (Dialect.markdown.findSymbols src (Text.lines content)).filter
          (·.outline.kind.any (Text.hasPrefix "heading_")) =
        (headings src (Text.lines content)).map .symbol ∧
      (Dialect.markdown.findSymbols src (Text.lines content)).filter
          (·.outline.kind.any (Text.hasPrefix "list_item_")) =
        (items src (Text.lines content)).map .symbol ∧
      rs.entries.filter (·.2.kind == "contains_list_item") =
        (items src (Text.lines content)).flatMap (itemIn (headings src (Text.lines content))) ∧
      rs.entries.filter (·.2.kind == "contains_code_block") =
        (fencePairs (Text.lines content)).flatMap (blockIn (headings src (Text.lines content))) ∧
      ((∀ item ∈ items src (Text.lines content),
            FiledNearest (headings src (Text.lines content)) item.first
              (rs.filers (.listItem item.name item.first))) ∧
          (∀ p ∈ fencePairs (Text.lines content),
            FiledNearest (headings src (Text.lines content)) p.1
              (rs.filers (.codeBlock p.1 p.2))) ↔
        (∀ item ∈ items src (Text.lines content),
            ((headings src (Text.lines content)).filter (·.first ≤ item.first)).length ≤ 1) ∧
          ∀ p ∈ fencePairs (Text.lines content), ∀ h u,
            Nearest (scanLines (headingOn src) (Text.lines content)) p.1 h →
            Nearest (underlined src ((Text.lines content).zipIdx 1)) p.1 u →
              h.first ≤ u.first ∨ h.name = u.name) := by
  obtain ⟨linked, hlinked, hfound⟩ := exists_findRelations src (Text.lines content)
  have hsymbols : Dialect.markdown.findSymbols src (Text.lines content) =
      (symbols src (Text.lines content)).map .symbol := findSymbols_eq src (Text.lines content)
  have hblocks := kind_of_mem_blocks (Text.lines content) (headings src (Text.lines content))
  have hitems := kind_of_mem_items src (Text.lines content) (headings src (Text.lines content))
  refine ⟨_, hfound, ?_, ?_, ?_, ?_, and_congr ?_ ?_⟩
  · rw [hsymbols, List.filter_map, ← filter_heading]
    rfl
  · rw [hsymbols, List.filter_map, ← filter_item]
    rfl
  · rw [List.filter_append, List.filter_append, filter_kind hlinked, filter_kind hblocks,
      filter_kind hitems]
    rfl
  · rw [List.filter_append, List.filter_append, filter_kind hlinked, filter_kind hblocks,
      filter_kind hitems]
    exact List.append_nil _
  · refine forall_congr' fun item => forall_congr' fun hitem => ?_
    rw [filers_listItem hlinked hblocks hitem, filedNearest_map_iff]
  · -- underlined headings are listed last, so a block is filed under one wherever one stands above
    -- it
    refine forall_congr' fun p => forall_congr' fun hp => ?_
    rw [filers_codeBlock hlinked hitems hp]
    exact filedNearest_section_iff (pairwise_hashed _ _) (pairwise_underlined _ _ _)

/-- Below an underlined heading and one with hash signs, an item is filed under both, and a block
under the first. -/
theorem underlined_heading_keeps_block :
    Dialect.markdown.findRelations "A\n===\n# B\n- x\n```\n```\n"
        ((Dialect.markdown.findSymbols ⟨"a.md", "markdown"⟩
          (Text.lines "A\n===\n# B\n- x\n```\n```\n")).map (·.outline)) =
      .ok { entries :=
        [("A", .codeBlock 5 6), ("B", .listItem "x" 4), ("A", .listItem "x" 4)] } ∧
    (headings ⟨"a.md", "markdown"⟩ (Text.lines "A\n===\n# B\n- x\n```\n```\n")).map
        (fun s => (s.name, s.first)) = [("B", 3), ("A", 1)] := by
  decide +kernel

end Markdown

end SymbolAtlas
