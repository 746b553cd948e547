/-
  SymbolAtlas.Proofs.Path: reading a path that was written.

  Names joined by slashes are split into the same names again, provided that no name holds a slash,
  so a path whose names are plain is read back as it was written (`parse_toString`). The names that
  are read from any text are plain.
-/

import SymbolAtlas.Path

namespace SymbolAtlas

namespace Text

/-! ## Pieces -/

theorem splitChar_of_not_mem {sep : Char} {cs : List Char} (h : sep ∉ cs) :
    splitChar sep cs = [cs] := by
  induction cs with
  | nil => rfl
  | cons c rest ih =>
      have hc : c ≠ sep := fun he => h (he ▸ List.mem_cons_self)
      have hrest := ih fun hm => h (List.mem_cons_of_mem c hm)
      rw [splitChar, if_neg hc, hrest]

theorem splitChar_append {sep : Char} {cs : List Char} (h : sep ∉ cs) (rest : List Char) :
    splitChar sep (cs ++ sep :: rest) = cs :: splitChar sep rest := by
  induction cs with
  | nil => rw [List.nil_append, splitChar, if_pos rfl]
  | cons c more ih =>
      have hc : c ≠ sep := fun he => h (he ▸ List.mem_cons_self)
      have hmore := ih fun hm => h (List.mem_cons_of_mem c hm)
      rw [List.cons_append, splitChar, if_neg hc, hmore]

/-- No piece holds the character that the text was split at. -/
theorem not_mem_of_mem_splitChar {sep : Char} {cs piece : List Char}
    (h : piece ∈ splitChar sep cs) : sep ∉ piece := by
  induction cs generalizing piece with
  | nil =>
      rw [splitChar, List.mem_singleton] at h
      rw [h]
      exact List.not_mem_nil
  | cons c rest ih =>
      rw [splitChar] at h
      split at h
      · rcases List.mem_cons.mp h with rfl | h
        · exact List.not_mem_nil
        · exact ih h
      next hc =>
        split at h
        next l ls hl =>
          rcases List.mem_cons.mp h with rfl | h
          · have hpiece := ih (hl ▸ List.mem_cons_self)
            intro hm
            rcases List.mem_cons.mp hm with heq | hm
            · exact hc heq.symm
            · exact hpiece hm
          · exact ih (hl ▸ List.mem_cons_of_mem l h)
        next =>
          rw [List.mem_singleton] at h
          rw [h, List.mem_singleton]
          exact fun he => hc he.symm

theorem not_mem_of_mem_splitAt {sep : Char} {s piece : String} (h : piece ∈ splitAt sep s) :
    sep ∉ piece.toList := by
  obtain ⟨cs, hcs, rfl⟩ := List.mem_map.mp h
  rw [String.toList_ofList]
  exact not_mem_of_mem_splitChar hcs

/-- Names joined by slashes are split into the same names. -/
theorem splitAt_join {names : List String} (hne : names ≠ [])
    (h : ∀ n ∈ names, '/' ∉ n.toList) : splitAt '/' (join "/" names) = names := by
  induction names with
  | nil => exact absurd rfl hne
  | cons n rest ih =>
      have hn := h n List.mem_cons_self
      cases rest with
      | nil => rw [join, splitAt, splitChar_of_not_mem hn, List.map_singleton, String.ofList_toList]
      | cons m more =>
          have hrest := ih (List.cons_ne_nil m more) fun k hk => h k (List.mem_cons_of_mem n hk)
          have hchars : (n ++ "/" ++ join "/" (m :: more)).toList
              = n.toList ++ '/' :: (join "/" (m :: more)).toList := by
            rw [String.toList_append, String.toList_append, List.append_assoc]
            rfl
          rw [join, splitAt, hchars, splitChar_append hn, List.map_cons, String.ofList_toList]
          · exact congrArg (n :: ·) hrest
          · exact List.cons_ne_nil m more

end Text

namespace Path

/-! ## Names -/

/-- Whether a text is a name that a path keeps. Double points are kept as well. -/
def isPlain (n : String) : Bool := n != "" && n != "." && !n.toList.contains '/'

theorem isPlain_iff {n : String} : isPlain n = true ↔ n ≠ "" ∧ n ≠ "." ∧ '/' ∉ n.toList := by
  simp [isPlain, and_assoc]

/-- The path of what lies some names below another path. -/
def below (p : Path) (names : List String) : Path := ⟨p.root, p.names ++ names⟩

theorem child_below (p : Path) (n : String) (names : List String) :
    (p.child n).below names = p.below (n :: names) := by
  rw [below, below, child, List.append_assoc, List.singleton_append]

theorem below_injective (p : Path) {names names' : List String}
    (h : p.below names = p.below names') : names = names' :=
  List.append_cancel_left (Path.mk.inj h).2

theorem below_singleton (p : Path) (n : String) : p.below [n] = p.child n := rfl

/-- The names that are read from a text are plain. -/
theorem parse_names_plain (s : String) : ∀ n ∈ (parse s).names, isPlain n = true := by
  intro n hn
  obtain ⟨hmem, hkeep⟩ := List.mem_filter.mp hn
  rw [Bool.and_eq_true, bne_iff_ne, bne_iff_ne] at hkeep
  exact isPlain_iff.mpr ⟨hkeep.1, hkeep.2, Text.not_mem_of_mem_splitAt hmem⟩

/-- A text that does not begin with a slash has no root. -/
theorem rootOf_of_head {s : String} (h : s.toList.head? ≠ some '/') : rootOf s = "" := by
  rw [rootOf]
  cases hs : s.toList with
  | nil => rfl
  | cons c rest =>
      have hc : (c == '/') = false := by
        rw [hs, List.head?_cons] at h
        simpa using h
      rw [List.takeWhile_cons, hc]
      rfl

theorem head?_join {n : String} {rest : List String} (h : isPlain n = true) :
    (Text.join "/" (n :: rest)).toList.head? ≠ some '/' := by
  obtain ⟨hne, -, hslash⟩ := isPlain_iff.mp h
  obtain ⟨c, cs, hchars⟩ : ∃ c cs, n.toList = c :: cs :=
    List.exists_cons_of_ne_nil fun he => hne (String.toList_injective he)
  have hhead : (Text.join "/" (n :: rest)).toList.head? = some c := by
    cases rest with
    | nil => rw [Text.join, hchars, List.head?_cons]
    | cons m more =>
        rw [Text.join, String.toList_append, String.toList_append, hchars, List.cons_append,
          List.cons_append, List.head?_cons]
        exact List.cons_ne_nil m more
  rw [hhead]
  intro he
  exact hslash (hchars ▸ Option.some.inj he ▸ List.mem_cons_self)

theorem toString_names {names : List String} (hne : names ≠ []) :
    (⟨"", names⟩ : Path).toString = Text.join "/" names := by
  cases names with
  | nil => exact absurd rfl hne
  | cons n rest =>
      rw [toString, List.isEmpty_cons, Bool.and_false, if_neg Bool.false_ne_true,
        String.empty_append]

/-- Plain names that are joined by slashes are read as they were. -/
theorem parse_join {names : List String} (hne : names ≠ [])
    (h : ∀ n ∈ names, isPlain n = true) : parse (Text.join "/" names) = ⟨"", names⟩ := by
  have hsplit : Text.splitAt '/' (Text.join "/" names) = names :=
    Text.splitAt_join hne fun k hk => (isPlain_iff.mp (h k hk)).2.2
  have hroot : rootOf (Text.join "/" names) = "" := by
    cases names with
    | nil => exact absurd rfl hne
    | cons n rest => exact rootOf_of_head (head?_join (h n List.mem_cons_self))
  rw [parse, hsplit, hroot]
  congr 1
  rw [List.filter_eq_self]
  intro k hk
  obtain ⟨hempty, hpoint, -⟩ := isPlain_iff.mp (h k hk)
  rw [Bool.and_eq_true, bne_iff_ne, bne_iff_ne]
  exact ⟨hempty, hpoint⟩

/-- A path without a root whose names are plain is read back as it was written. -/
theorem parse_toString {p : Path} (hroot : p.root = "") (h : ∀ n ∈ p.names, isPlain n = true) :
    parse p.toString = p := by
  obtain ⟨root, names⟩ := p
  subst hroot
  by_cases hne : names = []
  · subst hne
    rfl
  · rw [toString_names hne, parse_join hne h]

end Path

end SymbolAtlas
