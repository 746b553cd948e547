/-
  SymbolAtlas.Proofs.Wildcards: queries whose results all contain them.

  A query is looked for as it is, so that a percent sign or an underscore in it stands for other
  characters. A null character ends it, and three code points are compared as one. All other signs
  stand for themselves: a query that is made of them finds only names that contain it
  (`contains_of_finds`). Any other query finds a name in which each sign that stands for more has
  something else in its place (`finds_decoy`), and that name does not contain it.
-/

import SymbolAtlas.Proofs.Substring

namespace SymbolAtlas

namespace Like

variable {q t : List Char} {c d : Char}

/-! ## Signs that stand for themselves only -/

/-- The signs of a query that stand for something else: the two wildcards, the end of a text, and
the code points that are compared as one. -/
def specialSigns : List Char := ['%', '_', '\x00', '\uFFFD', '\uFFFE', '\uFFFF']

/-- Whether all signs of a query stand for themselves. -/
def Literal (q : List Char) : Prop := ∀ c ∈ q, c ∉ specialSigns

theorem literal_cons : Literal (c :: q) ↔ c ∉ specialSigns ∧ Literal q := List.forall_mem_cons

/-- What is no small letter is no other letter in small. -/
theorem eq_of_toLower (h : c.toLower = d) (hd : d.isLower = false) : c = d := by
  delta Char.toLower at h
  split at h
  next hupper =>
    -- the small letter of a capital one would be a small letter
    subst h
    delta Char.isLower at hd
    simp only [UInt32.le_iff_toNat_le, ge_iff_le, UInt32.toNat_add] at hupper hd
    simp at hupper hd
    omega
  next => exact h

theorem toLower_not_mem_specialSigns (h : c ∉ specialSigns) : c.toLower ∉ specialSigns := by
  intro hmem
  have hnone : specialSigns.all (fun d => d.isLower == false) = true := by decide
  have hlower := beq_iff_eq.mp (List.all_eq_true.mp hnone _ hmem)
  exact h (eq_of_toLower rfl hlower ▸ hmem)

/-- A sign that stands for itself is the same as another one only up to the case of letters. -/
theorem toLower_of_sameChar (h : c ∉ specialSigns) (hsame : sameChar c d = true) :
    c.toLower = d.toLower := by
  have hc := toLower_not_mem_specialSigns h
  -- the code points that are compared as another one are special, and so is the other one
  have hcompared : compared c.toLower = c.toLower := by
    refine if_neg fun hor => hc ?_
    rcases (Bool.or_eq_true _ _).mp hor with heq | heq
    · exact of_decide_eq_true heq ▸ by decide
    · exact of_decide_eq_true heq ▸ by decide
  rw [sameChar, beq_iff_eq, hcompared, compared] at hsame
  split at hsame
  next => exact absurd (hsame ▸ by decide) hc
  next => exact hsame

/-- Literal signs describe one part of a text. -/
theorem exists_part_of_matches (h : Literal q) (hmatches : Matches (q ++ ['%']) t) :
    ∃ part after, t = part ++ after ∧ q.map Char.toLower = part.map Char.toLower := by
  induction q generalizing t with
  | nil => exact ⟨[], t, rfl, rfl⟩
  | cons c rest ih =>
      obtain ⟨hc, hrest⟩ := literal_cons.mp h
      have hpercent : c ≠ '%' := fun heq => hc (heq ▸ by decide)
      have hunderscore : c ≠ '_' := fun heq => hc (heq ▸ by decide)
      obtain ⟨d, u, rfl, hsame, hu⟩ := (matches_cons hpercent hunderscore).mp hmatches
      obtain ⟨part, after, rfl, hpart⟩ := ih hrest hu
      refine ⟨d :: part, after, rfl, ?_⟩
      rw [List.map_cons, List.map_cons, hpart, toLower_of_sameChar hc hsame]

theorem upToNull_initial (t : List Char) : upToNull t <+: t := by
  induction t with
  | nil => exact List.prefix_rfl
  | cons c rest ih =>
      rw [upToNull]
      split
      · exact List.nil_prefix
      · exact List.cons_prefix_cons.mpr ⟨rfl, ih⟩

/-- A query of literal signs finds only names that contain it, and that before a null character. -/
theorem contains_of_finds {q name : String} (h : Literal q.toList) (hfinds : Finds q name) :
    Contains name.toList q.toList := by
  have hnull : '\x00' ∉ (containing q).toList := by
    have hq : '\x00' ∉ q.toList := fun hmem => h _ hmem (by decide)
    rw [containing_toList]
    simpa using hq
  rw [Finds, upToNull_of_not_mem hnull, containing_toList] at hfinds
  -- the percent signs stand for what is before and behind the part
  obtain ⟨before, rest, htext, hrest⟩ := matches_percent.mp hfinds
  obtain ⟨part, after, rfl, hpart⟩ := exists_part_of_matches h hrest
  have hinside : part <:+: upToNull name.toList := ⟨before, after, by rw [htext, List.append_assoc]⟩
  rw [Contains, hpart]
  exact (hinside.trans (upToNull_initial _).isInfix).map Char.toLower

/-! ## Names that are found and do not contain the query -/

/-- A text that is found for a sign, other than the sign itself if there is one. -/
def standIn : Char → List Char
  | '%' => []
  | '_' => ['-']
  | '\uFFFD' => ['\uFFFE']
  | '\uFFFE' | '\uFFFF' => ['\uFFFD']
  | c => [c]

/-- A name that a query finds, and that contains it only if the query is literal. -/
def decoy (q : List Char) : List Char := (upToNull q).flatMap standIn

theorem decoy_cons (hc : c ≠ '\x00') : decoy (c :: q) = standIn c ++ decoy q := by
  rw [decoy, upToNull, if_neg hc, List.flatMap_cons]
  rfl

theorem decoy_null (q : List Char) : decoy ('\x00' :: q) = [] := rfl

/-- What a sign is replaced with is found for it. -/
theorem matches_standIn {p : List Char} (h : Matches p t) : Matches (c :: p) (standIn c ++ t) := by
  rw [standIn.eq_def]
  split
  · exact .run [] h
  · exact .one '-' h
  · exact .same (by decide) h
  · exact .same (by decide) h
  · exact .same (by decide) h
  · exact .same (beq_self_eq_true _) h

theorem not_mem_standIn (hc : c ≠ '\x00') : '\x00' ∉ standIn c := by
  rw [standIn.eq_def]
  split
  · decide
  · decide
  · decide
  · decide
  · decide
  · simpa using hc.symm

theorem length_standIn_le (c : Char) : (standIn c).length ≤ 1 := by
  rw [standIn.eq_def]
  split <;> simp

/-- Only literal signs are replaced with themselves. -/
theorem not_mem_specialSigns_of_standIn (hc : c ≠ '\x00')
    (h : [c.toLower] = (standIn c).map Char.toLower) : c ∉ specialSigns := by
  intro hmem
  have hother : specialSigns.all (fun c =>
      c == '\x00' || [c.toLower] != (standIn c).map Char.toLower) = true := by decide
  rcases (Bool.or_eq_true _ _).mp (List.all_eq_true.mp hother c hmem) with hnull | hne
  · exact hc (beq_iff_eq.mp hnull)
  · exact bne_iff_ne.mp hne h

theorem matches_decoy (q : List Char) : Matches (upToNull (q ++ ['%'])) (decoy q) := by
  induction q with
  | nil => exact .run [] .nil
  | cons c rest ih =>
      by_cases hc : c = '\x00'
      · subst hc
        exact .nil
      · rw [List.cons_append, upToNull, if_neg hc, decoy_cons hc]
        exact matches_standIn ih

theorem not_mem_decoy (q : List Char) : '\x00' ∉ decoy q := by
  induction q with
  | nil => exact List.not_mem_nil
  | cons c rest ih =>
      by_cases hc : c = '\x00'
      · subst hc
        exact List.not_mem_nil
      · rw [decoy_cons hc, List.mem_append, not_or]
        exact ⟨not_mem_standIn hc, ih⟩

theorem length_decoy_le (q : List Char) : (decoy q).length ≤ q.length := by
  induction q with
  | nil => exact Nat.le_refl 0
  | cons c rest ih =>
      by_cases hc : c = '\x00'
      · subst hc
        exact Nat.zero_le _
      · have hone := length_standIn_le c
        rw [decoy_cons hc, List.length_append, List.length_cons]
        omega

theorem literal_of_decoy (h : q.map Char.toLower = (decoy q).map Char.toLower) : Literal q := by
  induction q with
  | nil => exact fun _ hmem => absurd hmem List.not_mem_nil
  | cons c rest ih =>
      by_cases hc : c = '\x00'
      · subst hc
        exact absurd h (by simp [decoy_null])
      · rw [decoy_cons hc, List.map_append, List.map_cons] at h
        -- what stands for the sign is one sign, because a shorter text would be left
        cases hstand : standIn c with
        | nil =>
            have hlength := congrArg List.length h
            have hle := length_decoy_le rest
            simp [hstand] at hlength
            omega
        | cons d more =>
            obtain rfl : more = [] := by
              have hone := length_standIn_le c
              simpa [hstand] using hone
            rw [hstand] at h
            obtain ⟨hlower, hrest⟩ := List.cons.inj h
            have hsame : [c.toLower] = (standIn c).map Char.toLower := by
              rw [hstand, hlower, List.map_singleton]
            exact literal_cons.mpr ⟨not_mem_specialSigns_of_standIn hc hsame, ih hrest⟩

/-- Every query finds its decoy. -/
theorem finds_decoy (q : String) : Finds q (.ofList (decoy q.toList)) := by
  have hpattern : upToNull (containing q).toList = '%' :: upToNull (q.toList ++ ['%']) := by
    rw [containing_toList]
    rfl
  rw [Finds, hpattern, String.toList_ofList, upToNull_of_not_mem (not_mem_decoy _)]
  exact .run [] (matches_decoy q.toList)

/-- A decoy is not longer than its query, so that it contains the query only as a whole. -/
theorem literal_of_contains_decoy (h : Contains (decoy q) q) : Literal q := by
  refine literal_of_decoy (List.IsInfix.eq_of_length_le h ?_)
  rw [List.length_map, List.length_map]
  exact length_decoy_le q

end Like

namespace Database

variable {db : Database} {q : String}

/-! ## Results of a search -/

/-- Whether every symbol that a search for a text gives has a name that contains the text. -/
def OnlyContaining (db : Database) (q : String) : Prop :=
  ∀ language project rows, db.search q language project = .ok rows →
    ∀ r ∈ rows, Like.Contains r.name.toList q.toList

/-- A search that gives a list was made in a database that opens and has its symbols, and a text
that is too long was compared with none. -/
theorem search_eq_ok {language project : Value} {rows : List SymbolRow}
    (h : db.search q language project = .ok rows) :
    db.broken = false ∧ Table.symbols ∉ db.dropped ∧
      ∃ language' project', rows = db.store.searchByName q language' project' ∧
        (Like.maxBytes < (Like.containing q).utf8ByteSize →
          db.store.inScope language' project' = []) := by
  simp only [search, searchByName, Result.bind_eq_ok] at h
  obtain ⟨⟨⟩, hconnect, ⟨⟩, hneed, language', -, project', -, -, -, -, -, h⟩ := h
  refine ⟨?_, ?_, language', project', ?_⟩
  · rw [connect] at hconnect
    split at hconnect
    next => exact absurd hconnect (by simp)
    next hopens => exact Bool.eq_false_iff.mpr hopens
  · rw [need] at hneed
    split at hneed
    next => exact absurd hneed (by simp)
    next htable => exact fun hmem => htable (List.contains_iff_mem.mpr hmem)
  · split at h
    next => exact absurd h (by simp [Bind.bind, Except.bind])
    next hshort =>
      refine ⟨(Except.ok.inj h).symm, ?_⟩
      intro hlong
      simpa [Display.plain, hlong] using hshort

/-- In a database that opens and has its symbols, and for a text that is not too long, no name may
fit the text as a pattern without containing it. -/
theorem onlyContaining_iff (db : Database) (q : String) :
    db.OnlyContaining q ↔
      db.broken = true ∨ Table.symbols ∈ db.dropped ∨
        Like.maxBytes < (Like.containing q).utf8ByteSize ∨
        ∀ r ∈ db.store.symbols, Like.Finds q r.name → Like.Contains r.name.toList q.toList := by
  constructor
  · intro honly
    by_contra hnone
    simp only [not_or] at hnone
    obtain ⟨hopens, htable, hshort, hall⟩ := hnone
    refine hall fun r hr hfinds => ?_
    have hsearch : db.search q (.ofText? none) (.ofText? none)
        = .ok (db.store.searchByName q none none) :=
      search_of_short (Bool.eq_false_iff.mpr hopens) htable (Nat.not_lt.mp hshort) (by simp)
        (by simp)
    refine honly _ _ _ hsearch r (Store.mem_searchByName.mpr ⟨?_, Store.fitsName_iff.mpr hfinds⟩)
    exact Store.mem_inScope_iff.mpr ⟨hr, by simp, by simp⟩
  · intro hreason language project rows hrows r hr
    obtain ⟨hopens, htable, language', project', rfl, hlong⟩ := search_eq_ok hrows
    obtain ⟨hscope, hfits⟩ := Store.mem_searchByName.mp hr
    rcases hreason with hbroken | hdropped | hlimit | hall
    · exact absurd (hopens.symm.trans hbroken) (by simp)
    · exact absurd hdropped htable
    · exact absurd (hlong hlimit ▸ hscope) List.not_mem_nil
    · exact hall r (Store.mem_inScope_iff.mp hscope).1 (Store.fitsName_iff.mp hfits)

/-- The one operation that stores a function under a name. -/
def functionNamed (name : String) : List Operation :=
  [.insertSymbol (functionFields name "a.py") "p"]

theorem performAll_functionNamed (name : String) :
    performAll {} (functionNamed name) = { store := { symbols := [functionRow name "a.py" 1] } } :=
  rfl

/-- A query with a sign that does not stand for itself finds a function whose name does not contain
it, once that function is stored. -/
theorem not_onlyContaining_decoy (hshort : (Like.containing q).utf8ByteSize ≤ Like.maxBytes)
    (hq : ¬ Like.Literal q.toList) :
    ¬ (performAll {} (functionNamed (.ofList (Like.decoy q.toList)))).OnlyContaining q := by
  rw [onlyContaining_iff, performAll_functionNamed]
  rintro (hbroken | hdropped | hlong | hall)
  · exact absurd hbroken Bool.false_ne_true
  · exact absurd hdropped List.not_mem_nil
  · exact absurd hlong (Nat.not_lt.mpr hshort)
  · have hcontains := hall _ List.mem_cons_self (Like.finds_decoy q)
    rw [functionRow, String.toList_ofList] at hcontains
    exact hq (Like.literal_of_contains_decoy hcontains)

/-- In a database that opens and has its symbols, a search for a text that is not too long gives
only symbols whose names contain it exactly if no other name fits the text as a pattern. This is so
in all databases, and already in those with a single function, exactly for the texts without special
signs. -/
theorem search_only_containing_iff (q : String) :
    (∀ db : Database, db.OnlyContaining q ↔
      db.broken = true ∨ Table.symbols ∈ db.dropped ∨
        Like.maxBytes < (Like.containing q).utf8ByteSize ∨
        ∀ r ∈ db.store.symbols, Like.Finds q r.name → Like.Contains r.name.toList q.toList) ∧
    ((∀ db : Database, db.OnlyContaining q) ↔
      Like.maxBytes < (Like.containing q).utf8ByteSize ∨ Like.Literal q.toList) ∧
    ((∀ name, (performAll {} (functionNamed name)).OnlyContaining q) ↔
      Like.maxBytes < (Like.containing q).utf8ByteSize ∨ Like.Literal q.toList) := by
  have hsure : Like.maxBytes < (Like.containing q).utf8ByteSize ∨ Like.Literal q.toList →
      ∀ db : Database, db.OnlyContaining q := by
    intro hq db
    rw [onlyContaining_iff]
    rcases hq with hlong | hq
    · exact .inr (.inr (.inl hlong))
    · exact .inr (.inr (.inr fun r _ hfinds => Like.contains_of_finds hq hfinds))
  have hunsure : (∀ name, (performAll {} (functionNamed name)).OnlyContaining q) →
      Like.maxBytes < (Like.containing q).utf8ByteSize ∨ Like.Literal q.toList := by
    intro hall
    by_contra hnone
    -- the name in which each special sign has something else in its place
    obtain ⟨hshort, hq⟩ := not_or.mp hnone
    exact not_onlyContaining_decoy (Nat.not_lt.mp hshort) hq (hall _)
  exact ⟨fun db => db.onlyContaining_iff q, ⟨fun hall => hunsure fun _ => hall _, hsure⟩,
    ⟨hunsure, fun hq _ => hsure hq _⟩⟩

/-- A search for a name with an underscore gives a function of another name, which has another
character in its place. -/
theorem search_finds_other_name :
    let db := performAll {} (functionNamed "getXitem")
    db.search "get_item" .null .null = .ok [functionRow "getXitem" "a.py" 1] ∧
      ¬ Like.Contains "getXitem".toList "get_item".toList := by
  have hfacts : let st := (performAll {} (functionNamed "getXitem")).store
      st.searchByName "get_item" none none = [functionRow "getXitem" "a.py" 1] ∧
        ¬ Like.Contains "getXitem".toList "get_item".toList := by
    decide +kernel
  have hsearch : (performAll {} (functionNamed "getXitem")).search "get_item" (.ofText? none)
      (.ofText? none)
        = .ok ((performAll {} (functionNamed "getXitem")).store.searchByName "get_item" none
          none) :=
    search_of_short rfl (by decide) (by decide) (by decide) (by decide)
  exact ⟨hsearch.trans (congrArg Except.ok hfacts.1), hfacts.2⟩

end Database

end SymbolAtlas
