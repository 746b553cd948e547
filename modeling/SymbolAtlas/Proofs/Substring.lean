/-
  SymbolAtlas.Proofs.Substring: symbols whose names contain a text.

  A search puts wildcards before and after the text and compares it sign by sign. Signs that are
  wildcards themselves stand for themselves as well, so no name that contains the text is missed
  (`finds_of_contains`), whatever else is found. The texts of a comparison end at a null character:
  what a name has behind one is not seen by any search.
-/

import SymbolAtlas.Proofs.NameSearch
import SymbolAtlas.Proofs.Targets

namespace SymbolAtlas

namespace Like

variable {q t : List Char}

/-- Whether a text contains another one, with ASCII letters in either case. -/
def Contains (t q : List Char) : Prop := q.map Char.toLower <:+: t.map Char.toLower

instance decidableContains (t q : List Char) : Decidable (Contains t q) :=
  inferInstanceAs (Decidable (_ <:+: _))

/-! ## Signs that stand for themselves -/

theorem sameChar_of_toLower {c d : Char} (h : c.toLower = d.toLower) : sameChar c d = true := by
  rw [sameChar, h]
  exact beq_self_eq_true _

/-- Any signs at all describe the text that they are made of, and what follows it. -/
theorem matches_self_append {part : List Char} (h : q.map Char.toLower = part.map Char.toLower)
    (after : List Char) : Matches (q ++ ['%']) (part ++ after) := by
  induction q generalizing part with
  | nil =>
      obtain rfl := List.map_eq_nil_iff.mp h.symm
      have hrest : Matches ['%'] (after ++ []) := .run after .nil
      rwa [List.append_nil] at hrest
  | cons c rest ih =>
      cases part with
      | nil => exact absurd h (by simp)
      | cons d more =>
          obtain ⟨hchar, hrest⟩ := List.cons.inj h
          -- also where the sign is a wildcard
          exact .same (sameChar_of_toLower hchar) (ih hrest)

/-- With wildcards around it a text describes all texts that contain it. -/
theorem matches_of_contains (h : Contains t q) : Matches ('%' :: (q ++ ['%'])) t := by
  obtain ⟨left, right, hlower⟩ := h
  obtain ⟨front, after, rfl, hfront, -⟩ := List.map_eq_append_iff.mp hlower.symm
  obtain ⟨before, part, rfl, -, hpart⟩ := List.map_eq_append_iff.mp hfront
  rw [List.append_assoc]
  exact .run before (matches_self_append hpart.symm after)

/-! ## Null characters -/

theorem upToNull_of_not_mem (h : '\x00' ∉ t) : upToNull t = t := by
  induction t with
  | nil => rfl
  | cons c rest ih =>
      obtain ⟨hc, hrest⟩ := not_or.mp (fun hmem => h (List.mem_cons.mpr hmem))
      rw [upToNull, if_neg (Ne.symm hc), ih hrest]

/-- A search for a text without null characters finds every name that contains it before the first
null character. -/
theorem finds_of_contains {target name : String} (hnull : '\x00' ∉ target.toList)
    (h : Contains (upToNull name.toList) target.toList) : Finds target name := by
  have hpattern : '\x00' ∉ (containing target).toList := by
    rw [containing_toList]
    simpa using hnull
  rw [Finds, upToNull_of_not_mem hpattern, containing_toList]
  exact matches_of_contains h

end Like

namespace Store

variable {st : Store} {target : String} {language project : Option String} {r : SymbolRow}

/-- Where all symbols have ids of their own, a search lists none of them twice. -/
theorem nodup_searchByName (h : (st.symbols.map (·.id)).Nodup) (target : String)
    (language project : Option String) : (st.searchByName target language project).Nodup := by
  have hscope : (st.inScope language project).Nodup := (List.Nodup.of_map _ h).filter _
  exact (List.mergeSort_perm _ _).nodup_iff.mpr (hscope.filter _)

/-- Search results by name, and by file within a name. -/
theorem sorted_searchByName (st : Store) (target : String) (language project : Option String) :
    (st.searchByName target language project).Pairwise
      fun a b => a.name < b.name ∨ a.name = b.name ∧ a.file ≤ b.file := by
  refine (st.pairwise_searchByName target language project).imp ?_
  intro a b hle
  obtain ⟨hname, hfile⟩ := lexLe_searchKey.mp hle
  by_cases heq : a.name = b.name
  · exact .inr ⟨heq, (hfile heq).1⟩
  · exact .inl (String.not_le.mp fun hge => heq (String.le_antisymm hname hge))

end Store

namespace Database

variable {db : Database}

/-- A filter that is an empty text does not filter. -/
theorem bindFilter_bind (position : Nat) (filter : Option String) :
    bindFilter position (.ofText? filter) = pure (filter.bind Store.filterOf) := by
  cases filter with
  | none => rfl
  | some s =>
      by_cases hs : s = ""
      · subst hs
        rfl
      · rw [Option.bind_some, Store.filterOf, if_neg hs]
        exact bindFilter_text position hs

theorem bind_filterOf {filter : Option String} (h : filter ≠ some "") :
    filter.bind Store.filterOf = filter := by
  cases filter with
  | none => rfl
  | some s => exact if_neg fun hs => h (congrArg some hs)

theorem bindFilter_ofText? (position : Nat) {filter : Option String} (h : filter ≠ some "") :
    bindFilter position (.ofText? filter) = pure filter := by
  rw [bindFilter_bind, bind_filterOf h]

/-- With filters that are not empty texts, all forms of a search are one. -/
theorem search_of_short (hopens : db.broken = false) (htable : Table.symbols ∉ db.dropped)
    {q : String} (hshort : (Like.containing q).utf8ByteSize ≤ Like.maxBytes)
    {language project : Option String} (hlanguage : language ≠ some "")
    (hproject : project ≠ some "") :
    db.search q (.ofText? language) (.ofText? project)
      = .ok (db.store.searchByName q language project) := by
  have hlimit : ((Like.containing q).utf8ByteSize > Like.maxBytes) = False :=
    eq_false (Nat.not_lt.mpr hshort)
  simp only [search, connect_ok hopens, need_ok htable, bindFilter_ofText? _ hlanguage,
    bindFilter_ofText? _ hproject, pure_bind, searchByName, Display.plain, hlimit]
  rfl

/-- In every database that opens and has its symbols under ids of their own, a search for a text
without null characters that is not too long gives a list. Each symbol that passes the filters and
has the text in its name before the first null character is in it exactly once, signs that are
wildcards included. All symbols in it pass the filters and fit the text as a pattern. It is sorted
by name and file. -/
theorem search_misses_nothing_before_null (hopens : db.broken = false)
    (htable : Table.symbols ∉ db.dropped) (hids : db.DistinctIds) (q : String)
    (hnull : '\x00' ∉ q.toList) (hshort : (Like.containing q).utf8ByteSize ≤ Like.maxBytes)
    (language project : Option String) (hlanguage : language ≠ some "")
    (hproject : project ≠ some "") :
    ∃ rows, db.search q (.ofText? language) (.ofText? project) = .ok rows ∧
      (∀ r ∈ db.store.symbols, (∀ l ∈ language, r.language = l) → (∀ p ∈ project, r.project = p) →
        Like.Contains (Like.upToNull r.name.toList) q.toList → rows.count r = 1) ∧
      (∀ r ∈ rows, r ∈ db.store.symbols ∧ (∀ l ∈ language, r.language = l) ∧
        (∀ p ∈ project, r.project = p) ∧ Like.Finds q r.name) ∧
      rows.Pairwise fun a b => a.name < b.name ∨ a.name = b.name ∧ a.file ≤ b.file := by
  refine ⟨_, search_of_short hopens htable hshort hlanguage hproject, ?_, ?_,
    db.store.sorted_searchByName q language project⟩
  · intro r hr hl hp hcontains
    have hscope : r ∈ db.store.inScope language project := Store.mem_inScope_iff.mpr ⟨hr, hl, hp⟩
    have hfits := Store.fitsName_iff.mpr (Like.finds_of_contains hnull hcontains)
    exact List.count_eq_one_of_mem (Store.nodup_searchByName hids q language project)
      (Store.mem_searchByName.mpr ⟨hscope, hfits⟩)
  · intro r hr
    obtain ⟨hscope, hfits⟩ := Store.mem_searchByName.mp hr
    obtain ⟨hmem, hl, hp⟩ := Store.mem_inScope_iff.mp hscope
    exact ⟨hmem, hl, hp, Store.fitsName_iff.mp hfits⟩

/-- A name in capitals, and one that does not contain the text. -/
def namedInCapitals : List Operation :=
  [.insertSymbol (functionFields "GET_ITEM" "b.py") "p",
   .insertSymbol (functionFields "getter" "a.py") "p"]

/-- The underscore of the text is one in the name, and the letters are in the other case. -/
theorem search_misses_nothing_before_null_underscore :
    let db := performAll {} namedInCapitals
    ∃ rows, db.search "t_i" "python" "p" = .ok rows ∧
      rows.count (functionRow "GET_ITEM" "b.py" 1) = 1 ∧
      ∀ r ∈ rows, r.language = "python" ∧ r.project = "p" ∧ Like.Finds "t_i" r.name := by
  have hempty : DistinctIds {} := List.nodup_nil
  obtain ⟨rows, hsearch, hmisses, hall, -⟩ := search_misses_nothing_before_null rfl (by decide)
    (hempty.performAll namedInCapitals) "t_i" (by decide) (by decide) (some "python") (some "p")
    (by decide) (by decide)
  have hrow : functionRow "GET_ITEM" "b.py" 1 ∈ (performAll {} namedInCapitals).store.symbols ∧
      Like.Contains (Like.upToNull "GET_ITEM".toList) "t_i".toList := by
    decide +kernel
  refine ⟨rows, hsearch, ?_, ?_⟩
  · exact hmisses _ hrow.1 (by rintro _ ⟨⟩; rfl) (by rintro _ ⟨⟩; rfl) hrow.2
  · intro r hr
    obtain ⟨-, hlanguage, hproject, hfinds⟩ := hall r hr
    exact ⟨hlanguage _ rfl, hproject _ rfl, hfinds⟩

/-- A name with a null character in it. -/
def namedWithNull : List Operation := [.insertSymbol (functionFields "a\x00b" "a.py") "p"]

/-- The name contains what is behind the null character, and a search for that does not find it. -/
theorem search_misses_behind_null :
    let db := performAll {} namedWithNull
    db.store.symbols = [functionRow "a\x00b" "a.py" 1] ∧
      Like.Contains "a\x00b".toList "b".toList ∧ '\x00' ∉ "b".toList ∧
      (Like.containing "b").utf8ByteSize ≤ Like.maxBytes ∧
      db.search "b" .null .null = .ok [] := by
  have hfacts : let db := performAll {} namedWithNull
      db.store.symbols = [functionRow "a\x00b" "a.py" 1] ∧
      Like.Contains "a\x00b".toList "b".toList ∧ '\x00' ∉ "b".toList ∧
      (Like.containing "b").utf8ByteSize ≤ Like.maxBytes ∧
      ∀ r ∈ db.store.inScope none none, Store.fitsName "b" r.name = false := by
    decide +kernel
  obtain ⟨hsymbols, hcontains, hnull, hshort, hnone⟩ := hfacts
  have hsearch : (performAll {} namedWithNull).search "b" (.ofText? none) (.ofText? none)
      = .ok ((performAll {} namedWithNull).store.searchByName "b" none none) :=
    search_of_short rfl (by decide) hshort (by decide) (by decide)
  rw [Store.searchByName_eq_nil.mpr hnone] at hsearch
  exact ⟨hsymbols, hcontains, hnull, hshort, hsearch⟩

end Database

end SymbolAtlas
