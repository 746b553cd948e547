/-
  SymbolAtlas.Proofs.PatternText: the texts that a pattern matches.

  A pattern without anchors and without reference to its own parts matches the same texts wherever
  they stand. `Takes` says which, and which parts are remembered. Matching finds exactly these: a
  match passes such a text (`takes_of_mem_ends`), and such a text leads to a match
  (`Takes.exists_end`). Which of several matches comes first is not said by it. For runs it is the
  longest, and the best match of a pattern is put together from those of its parts (`Best`).
-/

import SymbolAtlas.Proofs.DefinitionNames

namespace SymbolAtlas

/-! ## Places -/

namespace Cursor

variable {x y : Cursor} {cs rest : List Char}

/-- The parts remembered on the way to a place, the last one first. -/
def parts (x : Cursor) : List (Nat × List Char) := x.groups.map fun g => (g.1, g.2.chars)

/-- A match from `x` to `y` that passes the characters `cs`. -/
structure Passes (x : Cursor) (cs : List Char) (y : Cursor) : Prop where
  rest : x.rest = cs ++ y.rest
  offset : y.offset = x.offset + cs.length

theorem Passes.refl (x : Cursor) : x.Passes [] x := ⟨rfl, rfl⟩

theorem Passes.trans {z : Cursor} {ds : List Char} (h : x.Passes cs y) (h' : y.Passes ds z) :
    x.Passes (cs ++ ds) z where
  rest := by rw [h.rest, h'.rest, List.append_assoc]
  offset := by rw [h'.offset, h.offset, List.length_append, Nat.add_assoc]

theorem parts_of_groups (h : y.groups = x.groups) : y.parts = x.parts := by
  rw [parts, h, parts]

/-- What is remembered of a match is what it passes. -/
theorem Passes.parts_record (h : x.Passes cs y) (n : Nat) :
    (x.record y n).parts = (n, cs) :: y.parts := by
  have hlength : y.offset - x.offset = cs.length := by rw [h.offset, Nat.add_sub_cancel_left]
  have hchars : Stretch.chars ⟨x.rest, y.offset - x.offset⟩ = cs := by
    rw [Stretch.chars, hlength, h.rest, List.take_left]
  show (n, Stretch.chars ⟨x.rest, y.offset - x.offset⟩) :: y.parts = _
  rw [hchars]

theorem passes_of_skip? (h : x.skip? cs = some y) : x.Passes cs y := by
  refine ⟨rest_of_skip? h, ?_⟩
  induction cs generalizing x with
  | nil =>
      rw [skip?] at h
      rw [Option.some.inj h, List.length_nil, Nat.add_zero]
  | cons d ds ih =>
      rw [skip?] at h
      split at h
      next c r hrest =>
        split at h
        next =>
          have hnext : (x.next c r).offset = x.offset + 1 := rfl
          rw [ih h, hnext, List.length_cons]
          omega
        next => exact absurd h (by simp)
      next => exact absurd h (by simp)

/-- What comes next is passed. -/
theorem exists_skip? (h : x.rest = cs ++ rest) : ∃ y, x.skip? cs = some y ∧ y.rest = rest := by
  induction cs generalizing x with
  | nil => exact ⟨x, rfl, h⟩
  | cons d ds ih =>
      rw [skip?, h, List.cons_append]
      dsimp only
      rw [if_pos rfl]
      exact ih rfl

end Cursor

/-- A part is the text that was remembered for it last. -/
theorem Match.group_of_groups {m : Match} {parts : List (Nat × List Char)} (h : m.groups = parts)
    {n : Nat} {w : List Char} (hfind : parts.find? (·.1 == n) = some (n, w)) :
    m.group n = String.ofList w := by
  rw [group, group?, h, hfind]
  rfl

namespace Pattern

variable {p q : Pattern} {x y : Cursor} {s : CharClass} {cs rest : List Char}
  {parts : List (Nat × List Char)} {n least : Nat} {most : Option Nat}

/-! ## Texts of a pattern -/

/-- A text that a pattern matches wherever it stands, with the parts that are remembered, the last
one first. -/
inductive Takes : Pattern → List Char → List (Nat × List Char) → Prop
  | empty : Takes .empty [] []
  | text (cs : List Char) : Takes (.text cs) cs []
  | many {s : CharClass} {least : Nat} {most : Option Nat} {cs : List Char}
      (holds : ∀ c ∈ cs, s.holds c = true) (least_le : least ≤ cs.length)
      (le_most : ∀ k ∈ most, cs.length ≤ k) : Takes (.many s least most) cs []
  | seq {p q : Pattern} {as bs : List Char} {ps qs : List (Nat × List Char)}
      (first : Takes p as ps) (second : Takes q bs qs) : Takes (.seq p q) (as ++ bs) (qs ++ ps)
  | left {p q : Pattern} {cs : List Char} {ps : List (Nat × List Char)} (h : Takes p cs ps) :
      Takes (.alt p q) cs ps
  | right {p q : Pattern} {cs : List Char} {qs : List (Nat × List Char)} (h : Takes q cs qs) :
      Takes (.alt p q) cs qs
  | capture {n : Nat} {p : Pattern} {cs : List Char} {ps : List (Nat × List Char)}
      (h : Takes p cs ps) : Takes (.capture n p) cs ((n, cs) :: ps)

/-- Whether a pattern has no anchors and does not refer to its own parts. -/
def plain : Pattern → Bool
  | .empty | .text _ | .many .. => true
  | .seq p q | .alt p q => p.plain && q.plain
  | .capture _ p => p.plain
  | _ => false

/-! ## Runs of characters -/

theorem offset_le_of_mem_endsMany {xs : List Char} (h : y ∈ endsMany s xs least most x) {k : Nat}
    (hmost : most = some k) : y.offset ≤ x.offset + k := by
  induction xs generalizing least most x k with
  | nil =>
      rw [endsMany] at h
      split at h
      · rw [List.mem_singleton.mp h]
        omega
      · exact absurd h List.not_mem_nil
  | cons c rest ih =>
      rw [endsMany, List.mem_append] at h
      rcases h with h | h
      · split at h
        next hholds =>
          -- one more character leaves one less to come
          have hle : y.offset ≤ (x.next c rest).offset + (k - 1) := ih h (by rw [hmost]; rfl)
          have hnext : (x.next c rest).offset = x.offset + 1 := rfl
          have hpos : k ≠ 0 := by
            rintro rfl
            simp [hmost] at hholds
          omega
        next => exact absurd h List.not_mem_nil
      · split at h
        · rw [List.mem_singleton.mp h]
          omega
        · exact absurd h List.not_mem_nil

/-- Characters of a class that come next are a run. -/
theorem exists_mem_endsMany (hx : x.rest = cs ++ rest) (hcs : ∀ c ∈ cs, s.holds c = true)
    (hleast : least ≤ cs.length) (hmost : ∀ k ∈ most, cs.length ≤ k) :
    ∃ y ∈ endsMany s (cs ++ rest) least most x, y.rest = rest := by
  induction cs generalizing x least most with
  | nil =>
      have hzero : least = 0 := Nat.le_zero.mp hleast
      refine ⟨x, ?_, hx⟩
      cases hrest : rest with
      | nil => simp [endsMany, hzero]
      | cons c r => simp [endsMany, hzero]
  | cons c cs ih =>
      have hne : (most != some 0) = true := by
        rw [bne_iff_ne]
        intro hzero
        exact absurd (hmost 0 hzero) (by simp)
      have hmore : ∀ k ∈ most.map (· - 1), cs.length ≤ k := by
        intro k hk
        obtain ⟨j, hj, rfl⟩ := Option.map_eq_some_iff.mp hk
        have hle := hmost j hj
        rw [List.length_cons] at hle
        omega
      have hfewer : least - 1 ≤ cs.length := by
        rw [List.length_cons] at hleast
        omega
      -- one character fewer is left to take, and both bounds go down with it
      obtain ⟨y, hy, hrest⟩ := ih (x := x.next c (cs ++ rest)) rfl
        (fun d hd => hcs d (List.mem_cons_of_mem c hd)) hfewer hmore
      refine ⟨y, ?_, hrest⟩
      rw [List.cons_append, endsMany, hcs c List.mem_cons_self, hne]
      exact List.mem_append_left _ hy

/-! ## Matches pass texts of the pattern -/

/-- What a match passes is a text of the pattern. -/
theorem takes_of_mem_ends (hp : p.plain = true) (h : y ∈ p.ends x) :
    ∃ cs parts, p.Takes cs parts ∧ x.Passes cs y ∧ y.parts = parts ++ x.parts := by
  induction p generalizing x y with
  | empty =>
      obtain rfl := List.mem_singleton.mp h
      exact ⟨[], [], .empty, .refl y, rfl⟩
  | text cs =>
      have hskip : x.skip? cs = some y := Option.mem_toList.mp h
      exact ⟨cs, [], .text cs, Cursor.passes_of_skip? hskip,
        Cursor.parts_of_groups (Cursor.skip?_groups hskip)⟩
  | many s least most =>
      obtain ⟨cs, hrest, hoffset, hleast, hcs⟩ := exists_of_mem_endsMany rfl h
      refine ⟨cs, [], .many hcs hleast ?_, ⟨hrest, hoffset⟩,
        Cursor.parts_of_groups (endsMany_groups h)⟩
      intro k hk
      have hle := offset_le_of_mem_endsMany h hk
      omega
  | seq p q ihp ihq =>
      obtain ⟨hpp, hpq⟩ := (Bool.and_eq_true _ _).mp hp
      obtain ⟨z, hz, hy⟩ := mem_ends_append.mp h
      obtain ⟨as, ps, hfirst, hpass, hps⟩ := ihp hpp hz
      obtain ⟨bs, qs, hsecond, hpass', hqs⟩ := ihq hpq hy
      -- what is recorded last stands first
      refine ⟨as ++ bs, qs ++ ps, .seq hfirst hsecond, hpass.trans hpass', ?_⟩
      rw [hqs, hps, List.append_assoc]
  | alt p q ihp ihq =>
      obtain ⟨hpp, hpq⟩ := (Bool.and_eq_true _ _).mp hp
      rcases List.mem_append.mp h with h | h
      · obtain ⟨cs, ps, htakes, hpass⟩ := ihp hpp h
        exact ⟨cs, ps, .left htakes, hpass⟩
      · obtain ⟨cs, qs, htakes, hpass⟩ := ihq hpq h
        exact ⟨cs, qs, .right htakes, hpass⟩
  | capture n p ih =>
      obtain ⟨z, hz, rfl⟩ := List.mem_map.mp h
      obtain ⟨cs, ps, htakes, hpass, hps⟩ := ih hp hz
      refine ⟨cs, (n, cs) :: ps, .capture htakes, ⟨hpass.rest, hpass.offset⟩, ?_⟩
      rw [hpass.parts_record, hps, List.cons_append]
  | _ => exact absurd hp Bool.false_ne_true

/-- A text of the pattern that comes next leads to a match. -/
theorem Takes.exists_end (h : p.Takes cs parts) (hx : x.rest = cs ++ rest) :
    ∃ y ∈ p.ends x, y.rest = rest := by
  induction h generalizing x rest with
  | empty => exact ⟨x, List.mem_singleton_self x, hx⟩
  | text cs =>
      obtain ⟨y, hskip, hrest⟩ := Cursor.exists_skip? hx
      exact ⟨y, Option.mem_toList.mpr hskip, hrest⟩
  | many hcs hleast hmost =>
      obtain ⟨y, hy, hrest⟩ := exists_mem_endsMany hx hcs hleast hmost
      rw [ends, hx]
      exact ⟨y, hy, hrest⟩
  | seq _ _ ihp ihq =>
      rw [List.append_assoc] at hx
      obtain ⟨z, hz, hrest⟩ := ihp hx
      obtain ⟨y, hy, hrest⟩ := ihq hrest
      exact ⟨y, mem_ends_append.mpr ⟨z, hz, hy⟩, hrest⟩
  | left _ ih =>
      obtain ⟨y, hy, hrest⟩ := ih hx
      exact ⟨y, List.mem_append_left _ hy, hrest⟩
  | right _ ih =>
      obtain ⟨y, hy, hrest⟩ := ih hx
      exact ⟨y, List.mem_append_right _ hy, hrest⟩
  | capture _ ih =>
      obtain ⟨y, hy, hrest⟩ := ih hx
      exact ⟨_, List.mem_map_of_mem hy, hrest⟩

/-- A match at a place is of a text of the pattern, and remembers its parts. -/
theorem exists_of_matchAt? (hp : p.plain = true) {m : Match} (h : p.matchAt? x = some m) :
    ∃ cs rest parts, p.Takes cs parts ∧ x.rest = cs ++ rest ∧
      m = ⟨x.offset, x.offset + cs.length, cs, parts ++ x.parts⟩ := by
  rw [matchAt?_eq] at h
  obtain ⟨y, hy, rfl⟩ := Option.map_eq_some_iff.mp h
  obtain ⟨cs, parts, htakes, hpass, hparts⟩ := takes_of_mem_ends hp (List.mem_of_head? hy)
  refine ⟨cs, y.rest, parts, htakes, hpass.rest, ?_⟩
  have hlength : y.offset - x.offset = cs.length := by
    rw [hpass.offset, Nat.add_sub_cancel_left]
  show Match.mk x.offset y.offset (x.rest.take (y.offset - x.offset)) y.parts = _
  rw [hlength, hpass.rest, List.take_left, hpass.offset, hparts]

/-- Where a text of the pattern comes next there is a match. -/
theorem Takes.exists_matchAt? (h : p.Takes cs parts) (hx : x.rest = cs ++ rest) :
    ∃ m, p.matchAt? x = some m := by
  obtain ⟨y, hy, -⟩ := h.exists_end hx
  obtain ⟨z, hz⟩ := Option.isSome_iff_exists.mp
    (List.isSome_head?.mpr (List.ne_nil_of_mem hy))
  exact ⟨toMatch x z, by rw [matchAt?_eq, hz]; rfl⟩

theorem exists_of_matchStart? (hp : p.plain = true) {s : String} {m : Match}
    (h : p.matchStart? s = some m) :
    ∃ cs rest, p.Takes cs m.groups ∧ s.toList = cs ++ rest := by
  obtain ⟨cs, rest, parts, htakes, hs, rfl⟩ := exists_of_matchAt? hp h
  refine ⟨cs, rest, ?_, hs⟩
  show p.Takes cs (parts ++ [])
  rw [List.append_nil]
  exact htakes

theorem Takes.exists_matchStart? (h : p.Takes cs parts) {s : String} (hs : s.toList = cs ++ rest) :
    ∃ m, p.matchStart? s = some m :=
  h.exists_matchAt? hs

/-! ## The texts of patterns in use -/

theorem takes_append_iff :
    (p ++ q).Takes cs parts ↔
      ∃ as bs ps qs, p.Takes as ps ∧ q.Takes bs qs ∧ cs = as ++ bs ∧ parts = qs ++ ps := by
  constructor
  · intro h
    cases (show (Pattern.seq p q).Takes cs parts from h) with
    | seq hp hq => exact ⟨_, _, _, _, hp, hq, rfl, rfl⟩
  · rintro ⟨as, bs, ps, qs, hp, hq, rfl, rfl⟩
    exact .seq hp hq

/-- Behind a pattern, one that remembers nothing adds its own texts only. -/
theorem takes_append_silent_iff {Q : List Char → Prop}
    (hq : ∀ {bs qs}, q.Takes bs qs ↔ Q bs ∧ qs = []) :
    (p ++ q).Takes cs parts ↔ ∃ as bs, p.Takes as parts ∧ Q bs ∧ cs = as ++ bs := by
  rw [takes_append_iff]
  constructor
  · rintro ⟨as, bs, ps, qs, hp, htakes, rfl, rfl⟩
    obtain ⟨hbs, rfl⟩ := hq.mp htakes
    exact ⟨as, bs, hp, hbs, rfl⟩
  · rintro ⟨as, bs, hp, hbs, rfl⟩
    exact ⟨as, bs, parts, [], hp, hq.mpr ⟨hbs, rfl⟩, rfl, rfl⟩

theorem takes_lit_iff {w : String} : (lit w).Takes cs parts ↔ cs = w.toList ∧ parts = [] := by
  constructor
  · intro h
    cases (show (Pattern.text w.toList).Takes cs parts from h) with
    | text => exact ⟨rfl, rfl⟩
  · rintro ⟨rfl, rfl⟩
    exact .text _

theorem takes_many_iff :
    (many s least none).Takes cs parts ↔
      (∀ c ∈ cs, s.holds c = true) ∧ least ≤ cs.length ∧ parts = [] := by
  constructor
  · intro h
    cases h with
    | many hcs hleast _ => exact ⟨hcs, hleast, rfl⟩
  · rintro ⟨hcs, hleast, rfl⟩
    exact .many hcs hleast fun k hk => by cases hk

theorem takes_one_iff :
    (one s).Takes cs parts ↔ (∃ c, s.holds c = true ∧ cs = [c]) ∧ parts = [] := by
  constructor
  · intro h
    cases h with
    | many hcs hleast hmost =>
        have hle := hmost 1 rfl
        obtain ⟨c, rfl⟩ := List.length_eq_one_iff.mp (Nat.le_antisymm hle hleast)
        exact ⟨⟨c, hcs c List.mem_cons_self, rfl⟩, rfl⟩
  · rintro ⟨⟨c, hc, rfl⟩, rfl⟩
    refine .many (List.forall_mem_singleton.mpr hc) (Nat.le_refl 1) ?_
    rintro k ⟨⟩
    exact Nat.le_refl 1

theorem takes_capture_iff :
    (capture n p).Takes cs parts ↔ ∃ ps, p.Takes cs ps ∧ parts = (n, cs) :: ps := by
  constructor
  · intro h
    cases h with
    | capture h => exact ⟨_, h, rfl⟩
  · rintro ⟨ps, h, rfl⟩
    exact .capture h

theorem takes_opt_iff :
    (opt p).Takes cs parts ↔ p.Takes cs parts ∨ cs = [] ∧ parts = [] := by
  constructor
  · intro h
    cases (show (Pattern.alt p .empty).Takes cs parts from h) with
    | left h => exact .inl h
    | right h =>
        cases h with
        | empty => exact .inr ⟨rfl, rfl⟩
  · rintro (h | ⟨rfl, rfl⟩)
    · exact .left h
    · exact .right .empty

/-- What may be missing and remembers nothing adds nothing or its own texts. -/
theorem takes_opt_silent_iff {P : List Char → Prop}
    (hp : ∀ {bs qs}, p.Takes bs qs ↔ P bs ∧ qs = []) :
    (opt p).Takes cs parts ↔ (cs = [] ∨ P cs) ∧ parts = [] := by
  rw [takes_opt_iff, hp, or_and_right, or_comm]

theorem takes_anyOf_iff {ws : List String} (hne : ws ≠ []) :
    (anyOf ws).Takes cs parts ↔ (∃ w ∈ ws, cs = w.toList) ∧ parts = [] := by
  induction ws with
  | nil => exact absurd rfl hne
  | cons w ws ih =>
      cases ws with
      | nil =>
          have hone : (anyOf [w]).Takes cs parts ↔ cs = w.toList ∧ parts = [] := takes_lit_iff
          simp [hone]
      | cons v ws =>
          have heither : (anyOf (w :: v :: ws)).Takes cs parts ↔
              (lit w).Takes cs parts ∨ (anyOf (v :: ws)).Takes cs parts := by
            constructor
            · intro h
              cases (show (Pattern.alt (lit w) (anyOf (v :: ws))).Takes cs parts from h) with
              | left h => exact .inl h
              | right h => exact .inr h
            · rintro (h | h)
              · exact Takes.left h
              · exact Takes.right h
          rw [heither, takes_lit_iff, ih (List.cons_ne_nil v ws), ← or_and_right]
          simp only [List.mem_cons, exists_eq_or_imp]

theorem takes_blanks_iff :
    blanks.Takes cs parts ↔ (∀ c ∈ cs, Text.isBlank c = true) ∧ parts = [] := by
  rw [blanks, chars, takes_many_iff]
  simp only [holds_blank, Nat.zero_le, true_and]

theorem takes_gap_iff :
    gap.Takes cs parts ↔ ((∀ c ∈ cs, Text.isBlank c = true) ∧ cs ≠ []) ∧ parts = [] := by
  rw [gap, plus, takes_many_iff]
  simp only [holds_blank, Nat.one_le_iff_ne_zero, ne_eq, List.length_eq_zero_iff, and_assoc]

theorem takes_name_iff : (name n).Takes cs parts ↔ Text.IsName cs ∧ parts = [(n, cs)] := by
  rw [name, takes_capture_iff, Text.IsName]
  simp only [ident, plus, takes_many_iff, holds_word, Nat.one_le_iff_ne_zero, ne_eq,
    List.length_eq_zero_iff]
  constructor
  · rintro ⟨ps, ⟨hcs, hne, rfl⟩, rfl⟩
    exact ⟨⟨hne, hcs⟩, rfl⟩
  · rintro ⟨⟨hne, hcs⟩, rfl⟩
    exact ⟨[], ⟨hcs, hne, rfl⟩, rfl⟩

theorem takes_append_name_iff :
    (p ++ name n).Takes cs parts ↔
      ∃ as w ps, p.Takes as ps ∧ Text.IsName w ∧ cs = as ++ w ∧ parts = (n, w) :: ps := by
  rw [takes_append_iff]
  constructor
  · rintro ⟨as, w, ps, qs, hp, hname, rfl, rfl⟩
    obtain ⟨hw, rfl⟩ := takes_name_iff.mp hname
    exact ⟨as, w, ps, hp, hw, rfl, rfl⟩
  · rintro ⟨as, w, ps, hp, hw, rfl, rfl⟩
    exact ⟨as, w, ps, [(n, w)], hp, takes_name_iff.mpr ⟨hw, rfl⟩, rfl, rfl⟩

/-! ## Up to the end of the text -/

/-- A match that reaches the end of the text leaves a line feed at most. -/
theorem exists_of_matchStart?_textEnd (hp : p.plain = true) {s : String} {m : Match}
    (h : (p ++ textEnd).matchStart? s = some m) :
    ∃ cs rest, p.Takes cs m.groups ∧ s.toList = cs ++ rest ∧ (rest = [] ∨ rest = ['\n']) := by
  rw [matchStart?, matchAt?_eq] at h
  obtain ⟨y, hy, rfl⟩ := Option.map_eq_some_iff.mp h
  obtain ⟨z, hz, hend⟩ := mem_ends_append.mp (List.mem_of_head? hy)
  have hend : y = z ∧ z.atEnd = true := by
    rw [ends] at hend
    split at hend
    next hat => exact ⟨List.mem_singleton.mp hend, hat⟩
    next => exact absurd hend List.not_mem_nil
  obtain ⟨rfl, hat⟩ := hend
  obtain ⟨cs, parts, htakes, hpass, hparts⟩ := takes_of_mem_ends hp hz
  refine ⟨cs, y.rest, ?_, hpass.rest, by simpa [Cursor.atEnd] using hat⟩
  show p.Takes cs y.parts
  rw [hparts]
  show p.Takes cs (parts ++ [])
  rwa [List.append_nil]

theorem Takes.exists_matchStart?_textEnd {s : String} (h : p.Takes s.toList parts) :
    ∃ m, (p ++ textEnd).matchStart? s = some m := by
  obtain ⟨y, hy, hrest⟩ := h.exists_end (x := .start s.toList) (List.append_nil _).symm
  have hend : y ∈ (p ++ textEnd).ends (.start s.toList) := by
    refine mem_ends_append.mpr ⟨y, hy, ?_⟩
    rw [ends, Cursor.atEnd, hrest]
    exact List.mem_singleton_self y
  obtain ⟨z, hz⟩ := Option.isSome_iff_exists.mp
    (List.isSome_head?.mpr (List.ne_nil_of_mem hend))
  exact ⟨_, by rw [matchStart?, matchAt?_eq, hz]; rfl⟩

/-! ## Longest runs -/

/-- A run that may be empty has an end. -/
theorem endsMany_zero_ne_nil (xs : List Char) : endsMany s xs 0 most x ≠ [] := by
  cases xs with
  | nil => simp [endsMany]
  | cons c rest => simp [endsMany]

/-- The best end of a run is where a character of another kind comes next. -/
theorem head?_holds_of_endsMany {xs : List Char} (hx : x.rest = xs)
    (h : (endsMany s xs least none x).head? = some y) : y.rest.head?.any s.holds = false := by
  induction xs generalizing least x with
  | nil =>
      rw [endsMany] at h
      split at h
      · obtain rfl := Option.some.inj h
        rw [hx]
        rfl
      · exact absurd h (by simp)
  | cons c rest ih =>
      rw [endsMany, List.head?_append] at h
      cases hc : s.holds c with
      | false =>
          rw [hc, Bool.false_and, if_neg Bool.false_ne_true, List.head?_nil, Option.none_or] at h
          split at h
          · obtain rfl := Option.some.inj h
            rw [hx]
            exact hc
          · exact absurd h (by simp)
      | true =>
          have hmore : (s.holds c && (none : Option Nat) != some 0) = true := by rw [hc]; rfl
          rw [if_pos hmore, Option.map_none] at h
          cases hlong : (endsMany s rest (least - 1) none (x.next c rest)).head? with
          | some z =>
              rw [hlong, Option.some_or] at h
              obtain rfl := Option.some.inj h
              exact ih rfl hlong
          | none =>
              -- a run that is long enough here is long enough one character later
              rw [hlong, Option.none_or] at h
              split at h
              next hleast =>
                rw [hleast, List.head?_eq_none_iff] at hlong
                exact absurd hlong (endsMany_zero_ne_nil rest)
              next => exact absurd h (by simp)

/-- A match that ends with a run takes all of it. -/
theorem exists_of_matchAt?_run (hp : p.plain = true) {m : Match}
    (h : (p ++ capture n (plus s)).matchAt? x = some m) :
    ∃ cs rest parts, (p ++ capture n (plus s)).Takes cs parts ∧ x.rest = cs ++ rest ∧
      rest.head?.any s.holds = false ∧
      m = ⟨x.offset, x.offset + cs.length, cs, parts ++ x.parts⟩ := by
  have hplain : (p ++ capture n (plus s)).plain = true := by
    show (p.plain && true) = true
    rw [hp, Bool.and_true]
  obtain ⟨cs, rest, parts, htakes, hrest, rfl⟩ := exists_of_matchAt? hplain h
  refine ⟨cs, rest, parts, htakes, hrest, ?_, rfl⟩
  rw [matchAt?_eq] at h
  obtain ⟨y, hy, htext⟩ := Option.map_eq_some_iff.mp h
  -- the best end comes from a best run, behind which the text goes on as behind the match
  have hends : (p ++ capture n (plus s)).ends x = (p.ends x).flatMap (capture n (plus s)).ends :=
    rfl
  rw [hends, List.head?_flatMap] at hy
  obtain ⟨z, hz, hbest⟩ := List.exists_of_findSome?_eq_some hy
  have hrun : (capture n (plus s)).ends z = (endsMany s z.rest 1 none z).map (z.record · n) := rfl
  rw [hrun, List.head?_map] at hbest
  obtain ⟨w, hw, rfl⟩ := Option.map_eq_some_iff.mp hbest
  have hstop := head?_holds_of_endsMany rfl hw
  obtain ⟨as, ps, -, hpass, -⟩ := takes_of_mem_ends hp hz
  obtain ⟨bs, qs, -, hpass', -⟩ := takes_of_mem_ends (p := plus s) rfl (List.mem_of_head? hw)
  have hwhole := hpass.trans hpass'
  have hstops : x.offset + cs.length = w.offset := (congrArg Match.stop htext).symm
  have hlength : cs.length = (as ++ bs).length := by
    rw [hwhole.offset] at hstops
    omega
  rwa [List.append_inj_right (hrest.symm.trans hwhole.rest) hlength]

/-- A match that ends with a name takes all of it. -/
theorem exists_of_matchStart?_name (hp : p.plain = true) {s : String} {m : Match}
    (h : (p ++ name n).matchStart? s = some m) :
    ∃ cs rest, (p ++ name n).Takes cs m.groups ∧ s.toList = cs ++ rest ∧
      rest.head?.any Text.isWord = false := by
  obtain ⟨cs, rest, parts, htakes, hrest, hstop, rfl⟩ := exists_of_matchAt?_run hp h
  rw [funext holds_word] at hstop
  refine ⟨cs, rest, ?_, hrest, hstop⟩
  show (p ++ name n).Takes cs (parts ++ [])
  rw [List.append_nil]
  exact htakes

/-! ## Best matches -/

/-- The best match of a pattern at a place, which passes the characters `cs`. -/
structure Best (p : Pattern) (x : Cursor) (cs : List Char) (y : Cursor) : Prop where
  head : (p.ends x).head? = some y
  passes : x.Passes cs y

theorem Best.append {z : Cursor} {ds : List Char} (hp : p.Best x cs z) (hq : q.Best z ds y) :
    (p ++ q).Best x (cs ++ ds) y :=
  ⟨head?_ends_append hp.head hq.head, hp.passes.trans hq.passes⟩

theorem Best.rest_eq (h : p.Best x cs y) (hx : x.rest = cs ++ rest) : y.rest = rest :=
  List.append_cancel_left (h.passes.rest.symm.trans hx)

theorem Best.matchAt? (h : p.Best x cs y) :
    p.matchAt? x = some ⟨x.offset, x.offset + cs.length, cs, y.parts⟩ := by
  have hlength : y.offset - x.offset = cs.length := by
    rw [h.passes.offset, Nat.add_sub_cancel_left]
  rw [matchAt?_eq, h.head, Option.map_some, toMatch, hlength, h.passes.rest, List.take_left,
    h.passes.offset]
  rfl

theorem Best.capture (h : p.Best x cs y) (n : Nat) :
    (capture n p).Best x cs (x.record y n) := by
  refine ⟨?_, h.passes.rest, h.passes.offset⟩
  show ((p.ends x).map fun z => x.record z n).head? = _
  rw [List.head?_map, h.head, Option.map_some]

theorem Best.alt (h : p.Best x cs y) : (Pattern.alt p q).Best x cs y := by
  obtain ⟨ys, hys⟩ := List.head?_eq_some_iff.mp h.head
  refine ⟨?_, h.passes⟩
  show (p.ends x ++ q.ends x).head? = _
  rw [hys]
  rfl

theorem Best.alt_of_nil (hp : p.ends x = []) (h : q.Best x cs y) :
    (Pattern.alt p q).Best x cs y := by
  refine ⟨?_, h.passes⟩
  show (p.ends x ++ q.ends x).head? = _
  rw [hp]
  exact h.head

theorem best_opt_of_nil (h : p.ends x = []) : (opt p).Best x [] x :=
  Best.alt_of_nil h ⟨rfl, .refl x⟩

theorem exists_best_lit {w : String} (hx : x.rest = w.toList ++ rest) :
    ∃ y, (lit w).Best x w.toList y := by
  obtain ⟨y, hskip, -⟩ := Cursor.exists_skip? hx
  refine ⟨y, ?_, Cursor.passes_of_skip? hskip⟩
  show (x.skip? w.toList).toList.head? = some y
  rw [hskip]
  rfl

/-- A run that cannot go on is the best one. -/
theorem exists_best_many (hx : x.rest = cs ++ rest) (hcs : ∀ c ∈ cs, s.holds c = true)
    (hleast : least ≤ cs.length) (hstop : rest.head?.any s.holds = false) :
    ∃ y, (many s least none).Best x cs y := by
  have hmost : ∀ k ∈ (none : Option Nat), cs.length ≤ k := by simp
  obtain ⟨y, hy, hrest⟩ := exists_mem_endsMany hx hcs hleast hmost
  rw [← hx] at hy
  have hsees : y.sees s = false := by rw [Cursor.sees, hrest, hstop]
  obtain ⟨ds, hds, hoffset, -⟩ := exists_of_mem_endsMany rfl hy
  obtain rfl : ds = cs := by
    rw [hrest] at hds
    exact List.append_cancel_right (hds.symm.trans hx)
  exact ⟨y, head?_endsMany rfl hy hsees, hds, hoffset⟩

theorem exists_best_one {c : Char} (hx : x.rest = c :: rest) (hc : s.holds c = true) :
    ∃ y, (one s).Best x [c] y := by
  refine ⟨x.next c rest, ?_, hx, rfl⟩
  show (endsMany s x.rest 1 (some 1) x).head? = _
  rw [hx, endsMany, hc]
  show (endsMany s rest 0 (some 0) (x.next c rest) ++ []).head? = _
  cases rest with
  | nil => rfl
  | cons d rest => simp [endsMany]

theorem ends_one_eq_nil (h : x.rest.head?.any s.holds = false) : (one s).ends x = [] := by
  show endsMany s x.rest 1 (some 1) x = []
  cases hrest : x.rest with
  | nil => rfl
  | cons c rest =>
      rw [hrest] at h
      have hc : s.holds c = false := h
      rw [endsMany, hc]
      rfl

theorem ends_lit_eq_nil_of_ne {w : String} {c : Char} {ds : List Char} (hw : w.toList = c :: ds)
    (h : x.rest.head? ≠ some c) : (lit w).ends x = [] := by
  show (x.skip? w.toList).toList = []
  rw [hw]
  cases hskip : x.skip? (c :: ds) with
  | none => rfl
  | some y => exact absurd (Cursor.head?_of_skip? hskip) h

theorem ends_append_eq_nil (h : p.ends x = []) : (p ++ q).ends x = [] := by
  show (p.ends x).flatMap q.ends = []
  rw [h, List.flatMap_nil]

end Pattern

end SymbolAtlas
