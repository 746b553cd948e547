/-
  SymbolAtlas.Proofs.Matching: what a match of a pattern tells of the text.

  A run of characters is as long as it can be unless what follows needs some of them. Blanks are no
  word characters, so a keyword, the blanks after it and a name are matched in one way only when
  the name ends where its word ends (`head?_ends_defined`). A longer pattern that begins with them
  and goes on after the word finds the same name (`group?_of_defined`).
-/

import SymbolAtlas.Dialect.Declarations

namespace SymbolAtlas

namespace Text

/-- The code points of blanks. -/
def blankCodes : List Nat :=
  [32, 9, 10, 11, 12, 13, 28, 29, 30, 31, 0x85, 0xa0, 0x1680, 0x2000, 0x2001, 0x2002, 0x2003,
   0x2004, 0x2005, 0x2006, 0x2007, 0x2008, 0x2009, 0x200a, 0x2028, 0x2029, 0x202f, 0x205f, 0x3000]

theorem mem_blankCodes {c : Char} (h : isBlank c = true) : c.toNat ∈ blankCodes := by
  simp only [isBlank, blankRanges, Ranges.contains, List.any_cons, List.any_nil, Bool.or_eq_true,
    Bool.and_eq_true, beq_iff_eq, decide_eq_true_eq, Bool.or_false] at h
  simp only [blankCodes, List.mem_cons, List.not_mem_nil, or_false]
  rcases h with ((rfl | h) | h) | h
  · exact .inl rfl
  all_goals omega

/-- No blank is a word character. -/
theorem isWord_of_isBlank {c : Char} (h : isBlank c = true) : isWord c = false := by
  have hall : ∀ n ∈ blankCodes, isWord (Char.ofNat n) = false := by decide +kernel
  have hc := hall c.toNat (mem_blankCodes h)
  rwa [Char.ofNat_toNat] at hc

end Text

namespace Cursor

/-- Whether a character of a class comes next. -/
def sees (x : Cursor) (s : CharClass) : Bool := x.rest.head?.any s.holds

theorem not_sees_word_of_sees_blank {x : Cursor} (h : x.sees .blank = true) :
    x.sees .word = false := by
  rw [sees] at *
  cases hrest : x.rest.head? with
  | none => rfl
  | some c =>
      rw [hrest, Option.any_some] at h
      have hblank : Text.isBlank c = true := by simpa [CharClass.holds, CharClass.blank,
        ClassItem.holds] using h
      simp [CharClass.holds, CharClass.word, ClassItem.holds, Text.isWord_of_isBlank hblank]

theorem skip?_groups {x y : Cursor} {cs : List Char} (h : x.skip? cs = some y) :
    y.groups = x.groups := by
  induction cs generalizing x with
  | nil =>
      rw [skip?] at h
      rw [← Option.some.inj h]
  | cons d ds ih =>
      rw [skip?] at h
      split at h
      next c r hrest =>
        split at h
        next => exact (ih h).trans rfl
        next => exact absurd h (by simp)
      next => exact absurd h (by simp)

/-- What does not come next is not passed. -/
theorem skip?_eq_none {x : Cursor} {c d : Char} {ds : List Char} (hx : x.rest.head? = some c)
    (hne : c ≠ d) : x.skip? (d :: ds) = none := by
  rw [skip?]
  split
  next e r hrest =>
    rw [hrest, List.head?_cons, Option.some.injEq] at hx
    rw [if_neg (hx ▸ hne)]
  next => rfl

theorem head?_of_skip? {x y : Cursor} {d : Char} {ds : List Char} (h : x.skip? (d :: ds) = some y) :
    x.rest.head? = some d := by
  rw [skip?] at h
  split at h
  next c r hrest =>
    split at h
    next heq => rw [hrest, heq, List.head?_cons]
    next => exact absurd h (by simp)
  next => exact absurd h (by simp)

end Cursor

namespace Pattern

variable {p q r : Pattern} {x y z : Cursor} {s : CharClass} {n : Nat}

/-! ## The best end -/

theorem matchAt?_eq (p : Pattern) (x : Cursor) :
    p.matchAt? x = (p.ends x).head?.map (toMatch x) := by
  rw [matchAt?, run_eq_findSome?]
  cases p.ends x with
  | nil => rfl
  | cons y ys => rfl

theorem group?_toMatch (x y : Cursor) (n : Nat) :
    (toMatch x y).group? n = (y.group? n).map String.ofList := by
  rw [Match.group?, toMatch, Cursor.group?, List.find?_map, Option.map_map, Option.map_map]
  rfl

theorem mem_ends_append : y ∈ (p ++ q).ends x ↔ ∃ z ∈ p.ends x, y ∈ q.ends z :=
  List.mem_flatMap

theorem ends_append_assoc (p q r : Pattern) (x : Cursor) :
    (p ++ q ++ r).ends x = (p ++ (q ++ r)).ends x :=
  List.flatMap_assoc

theorem head?_ends_append (hp : (p.ends x).head? = some z) (hq : (q.ends z).head? = some y) :
    ((p ++ q).ends x).head? = some y := by
  obtain ⟨zs, hzs⟩ := List.head?_eq_some_iff.mp hp
  obtain ⟨ys, hys⟩ := List.head?_eq_some_iff.mp hq
  show ((p.ends x).flatMap q.ends).head? = some y
  rw [hzs, List.flatMap_cons, hys]
  rfl

/-! ## Runs of characters -/

theorem endsMany_groups {xs : List Char} {least : Nat} {most : Option Nat}
    (h : y ∈ endsMany s xs least most x) : y.groups = x.groups := by
  induction xs generalizing least most x with
  | nil =>
      rw [endsMany] at h
      split at h
      · rw [List.mem_singleton.mp h]
      · exact absurd h List.not_mem_nil
  | cons c rest ih =>
      rw [endsMany, List.mem_append] at h
      rcases h with h | h
      · split at h
        · exact (ih h).trans rfl
        · exact absurd h List.not_mem_nil
      · split at h
        · rw [List.mem_singleton.mp h]
        · exact absurd h List.not_mem_nil

/-- A run begins with a character of its class, unless it is empty and may be. -/
theorem sees_of_mem_endsMany {least : Nat} (h : y ∈ endsMany s x.rest least none x) :
    y = x ∧ least = 0 ∨ x.sees s = true := by
  have hhere : y ∈ (if least = 0 then [x] else []) → y = x ∧ least = 0 := by
    intro hmem
    split at hmem
    next hleast => exact ⟨List.mem_singleton.mp hmem, hleast⟩
    next => exact absurd hmem List.not_mem_nil
  cases hrest : x.rest with
  | nil =>
      rw [hrest, endsMany] at h
      exact .inl (hhere h)
  | cons c rest =>
      rw [hrest, endsMany, List.mem_append] at h
      rcases h with h | h
      · split at h
        next hholds =>
          rw [Bool.and_eq_true] at hholds
          right
          rw [Cursor.sees, hrest]
          exact hholds.1
        next => exact absurd h List.not_mem_nil
      · exact .inl (hhere h)

/-- A run that cannot go on is the longest one, which comes first. -/
theorem head?_endsMany {xs : List Char} {least : Nat} (hx : x.rest = xs)
    (h : y ∈ endsMany s xs least none x) (hstop : y.sees s = false) :
    (endsMany s xs least none x).head? = some y := by
  have hhere : ∀ (u : Cursor) (least : Nat), y ∈ (if least = 0 then [u] else []) →
      (if least = 0 then [u] else []).head? = some y ∧ y = u := by
    intro u least hmem
    split
    next hleast =>
      rw [if_pos hleast, List.mem_singleton] at hmem
      exact ⟨congrArg some hmem.symm, hmem⟩
    next hleast =>
      rw [if_neg hleast] at hmem
      exact absurd hmem List.not_mem_nil
  induction xs generalizing least x with
  | nil =>
      rw [endsMany] at *
      exact (hhere x least h).1
  | cons c rest ih =>
      rw [endsMany] at *
      rcases List.mem_append.mp h with hmore | hend
      · split at hmore
        next hholds =>
          have hrun : (endsMany s rest (least - 1) none (x.next c rest)).head? = some y :=
            ih rfl hmore
          rw [if_pos hholds, List.head?_append]
          exact congrArg (Option.or · _) hrun
        next => exact absurd hmore List.not_mem_nil
      · -- the run ends at its start, so that no character of the class comes next
        obtain ⟨hhead, rfl⟩ := hhere x least hend
        have hno : s.holds c = false := by
          rw [Cursor.sees, hx, List.head?_cons, Option.any_some] at hstop
          exact hstop
        rw [hno, Bool.false_and, if_neg Bool.false_ne_true, List.nil_append]
        exact hhead

/-! ## Parts -/

/-- Whether a pattern remembers part `n`. -/
def remembers (n : Nat) : Pattern → Bool
  | .seq p q | .alt p q => p.remembers n || q.remembers n
  | .capture m p => m == n || p.remembers n
  | _ => false

/-- A part that a pattern does not remember is the one from before. -/
theorem group?_of_mem_ends (hp : p.remembers n = false) (h : y ∈ p.ends x) :
    y.group? n = x.group? n := by
  -- pieces that move without recording keep the groups, and edges keep the whole cursor
  have hsame : ∀ {u v : Cursor}, v.groups = u.groups → v.group? n = u.group? n := by
    intro u v hgroups
    rw [Cursor.group?, hgroups, Cursor.group?]
  have hstay : ∀ {u v : Cursor} {b : Bool}, v ∈ (if b then [u] else []) →
      v.group? n = u.group? n := by
    intro u v b hmem
    split at hmem
    · rw [List.mem_singleton.mp hmem]
    · exact absurd hmem List.not_mem_nil
  induction p generalizing x y with
  | empty => rw [List.mem_singleton.mp h]
  | text cs => exact hsame (Cursor.skip?_groups (Option.mem_toList.mp h))
  | many s least most => exact hsame (endsMany_groups h)
  | seq p q ihp ihq =>
      obtain ⟨hnop, hnoq⟩ := Bool.or_eq_false_iff.mp hp
      obtain ⟨z, hz, hy⟩ := mem_ends_append.mp h
      exact (ihq hnoq hy).trans (ihp hnop hz)
  | alt p q ihp ihq =>
      obtain ⟨hnop, hnoq⟩ := Bool.or_eq_false_iff.mp hp
      rcases List.mem_append.mp h with h | h
      · exact ihp hnop h
      · exact ihq hnoq h
  | capture m p ih =>
      obtain ⟨hother, hnop⟩ := Bool.or_eq_false_iff.mp hp
      obtain ⟨z, hz, rfl⟩ := List.mem_map.mp h
      rw [← ih hnop hz, Cursor.group?, Cursor.record, List.find?_cons, hother, Cursor.group?]
  | again m =>
      rw [ends] at h
      split at h
      · exact hsame (Cursor.skip?_groups (Option.mem_toList.mp h))
      · exact absurd h List.not_mem_nil
  | textStart => exact hstay h
  | textEnd => exact hstay h
  | lineStart => exact hstay h
  | wordEdge => exact hstay h

/-! ## Keywords and names -/

/-- A name that cannot go on is the whole word. -/
theorem head?_ends_name (h : y ∈ (name n).ends x) (hstop : y.sees .word = false) :
    ((name n).ends x).head? = some y ∧ x.sees .word = true := by
  obtain ⟨z, hz, rfl⟩ := List.mem_map.mp h
  have hrun : (endsMany .word x.rest 1 none x).head? = some z := head?_endsMany rfl hz hstop
  have hsees := (sees_of_mem_endsMany hz).resolve_left fun hend => absurd hend.2 (by decide)
  refine ⟨?_, hsees⟩
  show ((endsMany .word x.rest 1 none x).map fun u => x.record u n).head? = _
  rw [List.head?_map, hrun, Option.map_some]

/-- Blanks before a word are all blanks. -/
theorem head?_ends_gap (h : y ∈ gap.ends x) (hword : y.sees .word = true) :
    (gap.ends x).head? = some y := by
  apply head?_endsMany rfl h
  rw [Bool.eq_false_iff]
  intro hblank
  exact absurd (hword.symm.trans (Cursor.not_sees_word_of_sees_blank hblank)) (by decide)

/-- A keyword and a name after it match in one way only when the name is a whole word. -/
theorem head?_ends_defined {w : String} (h : y ∈ (Declarations.defined w).ends x)
    (hstop : y.sees .word = false) : ((Declarations.defined w).ends x).head? = some y := by
  obtain ⟨u, hu, hy⟩ := mem_ends_append.mp h
  obtain ⟨v, hv, hgap⟩ := mem_ends_append.mp hu
  obtain ⟨hname, hword⟩ := head?_ends_name hy hstop
  have hlit : ((lit w).ends x).head? = some v := by
    have hskip : x.skip? w.toList = some v := Option.mem_toList.mp hv
    show (x.skip? w.toList).toList.head? = some v
    rw [hskip]
    rfl
  exact head?_ends_append (head?_ends_append hlit (head?_ends_gap hgap hword)) hname

/-- Whether a pattern matches only where no word character comes next. -/
def LeavesWord (p : Pattern) : Prop := ∀ x y, y ∈ p.ends x → x.sees .word = false

theorem leavesWord_gap (q : Pattern) : LeavesWord (gap ++ q) := by
  intro x y h
  obtain ⟨z, hz, -⟩ := mem_ends_append.mp h
  have hblank := (sees_of_mem_endsMany hz).resolve_left fun hend => absurd hend.2 (by decide)
  exact Cursor.not_sees_word_of_sees_blank hblank

theorem leavesWord_blanks {w : String} (hw : w.toList.head?.any (fun c => !Text.isWord c) = true)
    (q : Pattern) : LeavesWord (blanks ++ (lit w ++ q)) := by
  intro x y h
  obtain ⟨c, hhead, hc⟩ := (Option.any_eq_true _ _).mp hw
  obtain ⟨cs, hcs⟩ := List.head?_eq_some_iff.mp hhead
  rw [Bool.not_eq_true'] at hc
  obtain ⟨z, hz, hy⟩ := mem_ends_append.mp h
  rcases sees_of_mem_endsMany hz with ⟨rfl, -⟩ | hblank
  · -- without blanks the text comes next
    obtain ⟨u, hu, -⟩ := mem_ends_append.mp hy
    have hskip : z.skip? (c :: cs) = some u := hcs ▸ Option.mem_toList.mp hu
    rw [Cursor.sees, Cursor.head?_of_skip? hskip, Option.any_some]
    simp [CharClass.holds, CharClass.word, ClassItem.holds, hc]
  · exact Cursor.not_sees_word_of_sees_blank hblank

/-- What goes on after a name that is defined finds the name that is found without it. -/
theorem group?_of_defined {w : String} (hleaves : LeavesWord q) (hq : q.remembers 1 = false)
    (h : y ∈ (Declarations.defined w ++ q).ends x) :
    ∃ z, ((Declarations.defined w).ends x).head? = some z ∧ y.group? 1 = z.group? 1 := by
  obtain ⟨z, hz, hy⟩ := mem_ends_append.mp h
  exact ⟨z, head?_ends_defined hz (hleaves z y hy), group?_of_mem_ends hq hy⟩

/-! ## Words that may be missing -/

/-- Where a text would begin otherwise it does not match. -/
theorem ends_lit_eq_nil {c : Char} {w : String} (hx : x.rest.head? = some c)
    (hw : w.toList.head?.any (· != c) = true) : (lit w).ends x = [] := by
  obtain ⟨d, hhead, hne⟩ := (Option.any_eq_true _ _).mp hw
  obtain ⟨ds, hds⟩ := List.head?_eq_some_iff.mp hhead
  have hskip : x.skip? w.toList = none :=
    hds ▸ Cursor.skip?_eq_none hx (Ne.symm (bne_iff_ne.mp hne))
  show (x.skip? w.toList).toList = []
  rw [hskip]
  rfl

theorem ends_opt_of_nil (h : p.ends x = []) : (opt p).ends x = [x] := by
  show p.ends x ++ [x] = [x]
  rw [h, List.nil_append]

theorem ends_append_of_singleton (h : p.ends x = [x]) : (p ++ q).ends x = q.ends x := by
  show (p.ends x).flatMap q.ends = q.ends x
  rw [h, List.flatMap_singleton]

theorem ends_optKeywords {c : Char} {ws : List String} (hx : x.rest.head? = some c)
    (hws : ∀ w ∈ ws, w.toList.head?.any (· != c) = true) :
    (Declarations.optKeywords ws).ends x = [x] := by
  induction ws with
  | nil => rfl
  | cons w rest ih =>
      have hkeyword : (keyword w).ends x = [] := by
        show ((lit w).ends x).flatMap _ = []
        rw [ends_lit_eq_nil hx (hws w List.mem_cons_self), List.flatMap_nil]
      show (opt (keyword w) ++ Declarations.optKeywords rest).ends x = [x]
      rw [ends_append_of_singleton (ends_opt_of_nil hkeyword)]
      exact ih fun v hv => hws v (List.mem_cons_of_mem w hv)

theorem ends_anyOf_eq_nil {c : Char} {w : String} {ws : List String} (hx : x.rest.head? = some c)
    (hws : ∀ v ∈ w :: ws, v.toList.head?.any (· != c) = true) : (anyOf (w :: ws)).ends x = [] := by
  induction ws generalizing w with
  | nil => exact ends_lit_eq_nil hx (hws w List.mem_cons_self)
  | cons v rest ih =>
      show (lit w).ends x ++ (anyOf (v :: rest)).ends x = []
      rw [ends_lit_eq_nil hx (hws w List.mem_cons_self),
        ih fun u hu => hws u (List.mem_cons_of_mem w hu), List.nil_append]

theorem ends_blanks (h : x.sees .blank = false) : blanks.ends x = [x] := by
  show endsMany .blank x.rest 0 none x = [x]
  cases hrest : x.rest with
  | nil => rfl
  | cons c rest =>
      rw [Cursor.sees, hrest, List.head?_cons, Option.any_some] at h
      rw [endsMany, h]
      rfl

theorem head?_rest_of_defined {w : String} {c : Char} {cs : List Char} (hw : w.toList = c :: cs)
    (h : y ∈ (Declarations.defined w).ends x) : x.rest.head? = some c := by
  obtain ⟨u, hu, -⟩ := mem_ends_append.mp h
  obtain ⟨v, hv, -⟩ := mem_ends_append.mp hu
  have hskip : x.skip? (c :: cs) = some v := hw ▸ Option.mem_toList.mp hv
  exact Cursor.head?_of_skip? hskip

end Pattern

end SymbolAtlas
