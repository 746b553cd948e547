/-
  SymbolAtlas.Proofs.Resolution: the symbol that the target of a relation leads to.

  A search lists what it finds by name, then by file, then by id. A relation takes the first of
  these, so its target leads to the least name, and in it to the least file, among the stored
  symbols whose name contains the target (`leadsTo_of_search`, `search_of_leadsTo`). Which of
  several symbols of that name in that file is taken does not show in the graph.
-/

import SymbolAtlas.Proofs.Arrows
import SymbolAtlas.Proofs.KeyOrder

namespace SymbolAtlas

namespace Store

variable {st : Store}

/-! ## The order of search results -/

/-- Search results by name, then by file, then by id. -/
theorem lexLe_searchKey {a b : SymbolRow} :
    Cell.lexLe (searchKey a) (searchKey b) = true ↔
      a.name ≤ b.name ∧ (a.name = b.name → a.file ≤ b.file ∧ (a.file = b.file → a.id ≤ b.id)) := by
  simp only [searchKey, Cell.lexLe, Cell.text.injEq, Cell.int.injEq, Cell.le]
  by_cases hname : a.name = b.name
  · by_cases hfile : a.file = b.file
    · by_cases hid : a.id = b.id
      · simp [hname, hfile, hid]
      · simp [hname, hfile, hid]
    · simp [hname, hfile]
  · simp [hname]

theorem exactKey_searchKey (r : SymbolRow) : Cell.ExactKey (searchKey r) := by
  simp [Cell.ExactKey, searchKey, Cell.Exact]

/-- Whether the name of a symbol contains a text, as a search has it. -/
def fitsName (target name : String) : Bool :=
  Like.fits (Like.upToNull (Like.containing target).toList) (Like.upToNull name.toList)

theorem mem_searchByName {target : String} {language project : Option String} {r : SymbolRow} :
    r ∈ st.searchByName target language project ↔
      r ∈ st.inScope language project ∧ fitsName target r.name = true := by
  rw [searchByName, mem_sortByKey, List.mem_filter]
  rfl

theorem pairwise_searchByName (st : Store) (target : String) (language project : Option String) :
    (st.searchByName target language project).Pairwise
      fun a b => Cell.lexLe (searchKey a) (searchKey b) = true :=
  pairwise_sortByKey exactKey_searchKey _

/-- The first result of a search is the least symbol that fits. -/
theorem searchByName_eq_cons {target : String} {language project : Option String}
    {hit : SymbolRow} {rest : List SymbolRow}
    (h : st.searchByName target language project = hit :: rest) :
    hit ∈ st.inScope language project ∧ fitsName target hit.name = true ∧
      ∀ r ∈ st.inScope language project, fitsName target r.name = true →
        Cell.lexLe (searchKey hit) (searchKey r) = true := by
  have hmem : ∀ r, r ∈ hit :: rest ↔
      r ∈ st.inScope language project ∧ fitsName target r.name = true := by
    intro r
    rw [← h, mem_searchByName]
  have hsorted := st.pairwise_searchByName target language project
  rw [h] at hsorted
  obtain ⟨hscope, hfits⟩ := (hmem hit).mp List.mem_cons_self
  refine ⟨hscope, hfits, ?_⟩
  intro r hr hrfits
  rcases List.mem_cons.mp ((hmem r).mpr ⟨hr, hrfits⟩) with rfl | hin
  · rw [lexLe_searchKey]
    exact ⟨String.le_refl _, fun _ => ⟨String.le_refl _, fun _ => Int.le_refl _⟩⟩
  · exact (List.pairwise_cons.mp hsorted).1 r hin

theorem searchByName_eq_nil {target : String} {language project : Option String} :
    st.searchByName target language project = [] ↔
      ∀ r ∈ st.inScope language project, fitsName target r.name = false := by
  rw [searchByName, sortByKey_eq_nil, List.filter_eq_nil_iff]
  refine forall₂_congr fun r _ => ?_
  rw [Bool.not_eq_true]
  rfl

end Store

/-! ## Names with their files -/

/-- Whether a target leads to a name in a file, among the names of symbols with their files. -/
def LeadsTo (known : List (String × String)) (target : String) (q : String × String) : Prop :=
  (Like.containing target).utf8ByteSize ≤ Like.maxBytes ∧ q ∈ known ∧
    Store.fitsName target q.1 = true ∧
    ∀ q' ∈ known, Store.fitsName target q'.1 = true → q.1 ≤ q'.1 ∧ (q.1 = q'.1 → q.2 ≤ q'.2)

instance decidableLeadsTo (known : List (String × String)) (target : String)
    (q : String × String) : Decidable (LeadsTo known target q) :=
  inferInstanceAs (Decidable (_ ∧ _))

/-- A target leads to one name in one file at most. -/
theorem LeadsTo.unique {known : List (String × String)} {target : String} {q q' : String × String}
    (h : LeadsTo known target q) (h' : LeadsTo known target q') : q = q' := by
  obtain ⟨-, hmem, hfits, hleast⟩ := h
  obtain ⟨-, hmem', hfits', hleast'⟩ := h'
  obtain ⟨hle, hfile⟩ := hleast q' hmem' hfits'
  obtain ⟨hle', hfile'⟩ := hleast' q hmem hfits
  have hname : q.1 = q'.1 := String.le_antisymm hle hle'
  exact Prod.ext hname (String.le_antisymm (hfile hname) (hfile' hname.symm))

/-- The symbols of a store are those of some names in some files, all of one project. -/
structure Store.Knows (st : Store) (project : String) (known : List (String × String)) : Prop where
  own : ∀ r ∈ st.symbols, r.project = project
  names : ∀ q, q ∈ known ↔ ∃ r ∈ st.symbols, r.name = q.1 ∧ r.file = q.2

namespace Database

variable {db : Database} {project target : String} {known : List (String × String)}

theorem Sound.searchByName_eq (h : db.Sound) (target : String) (language project : Option String) :
    db.searchByName target language project
      = if (Like.containing target).utf8ByteSize > Like.maxBytes &&
            !(db.store.inScope language project).isEmpty then .error .patternTooLong
        else .ok (db.store.searchByName target language project) := by
  simp only [searchByName, connect_ok h.opens, need_ok (h.has .symbols)]
  split
  · rfl
  · rfl

theorem inScope_of_own (hown : ∀ r ∈ db.store.symbols, r.project = project) :
    db.store.inScope none (Store.filterOf project) = db.store.symbols := by
  rw [Store.inScope, List.filter_eq_self]
  intro r hr
  rw [hown r hr, Store.passes_filterOf]
  rfl

/-- A symbol that a search finds first has the name and the file that the target leads to, and the
least id with these. -/
theorem leadsTo_of_search (hdb : db.Sound) (hknows : db.store.Knows project known)
    {hit : SymbolRow} {rest : List SymbolRow}
    (h : db.searchByName target none (Store.filterOf project) = .ok (hit :: rest)) :
    LeadsTo known target (hit.name, hit.file) ∧ hit ∈ db.store.symbols ∧
      ∀ r ∈ db.store.symbols, r.name = hit.name → r.file = hit.file → hit.id ≤ r.id := by
  rw [hdb.searchByName_eq, inScope_of_own hknows.own] at h
  split at h
  · exact absurd h (by simp)
  next hshort =>
    obtain ⟨hmem, hfits, hleast⟩ := Store.searchByName_eq_cons (Except.ok.inj h)
    rw [inScope_of_own hknows.own] at hmem hleast
    refine ⟨⟨?_, ?_, hfits, ?_⟩, hmem, ?_⟩
    · have hsome : db.store.symbols.isEmpty = false :=
        List.isEmpty_eq_false_iff_exists_mem.mpr ⟨hit, hmem⟩
      simpa [hsome] using hshort
    · exact (hknows.names _).mpr ⟨hit, hmem, rfl, rfl⟩
    · rintro ⟨n, f⟩ hq hqfits
      obtain ⟨r, hr, rfl, rfl⟩ := (hknows.names _).mp hq
      obtain ⟨hle, hfile⟩ := Store.lexLe_searchKey.mp (hleast r hr hqfits)
      exact ⟨hle, fun hname => (hfile hname).1⟩
    · intro r hr hname hfile
      have hrfits : Store.fitsName target r.name = true := hname ▸ hfits
      exact ((Store.lexLe_searchKey.mp (hleast r hr hrfits)).2 hname.symm).2 hfile.symm

/-- Where a target leads, a search for it finds. -/
theorem search_of_leadsTo (hdb : db.Sound) (hknows : db.store.Knows project known)
    {q : String × String} (h : LeadsTo known target q) :
    ∃ hit rest, db.searchByName target none (Store.filterOf project) = .ok (hit :: rest) ∧
      (hit.name, hit.file) = q := by
  obtain ⟨hshort, hmem, hfits, -⟩ := id h
  obtain ⟨r, hr, hname, -⟩ := (hknows.names q).mp hmem
  have hsearch : db.searchByName target none (Store.filterOf project)
      = .ok (db.store.searchByName target none (Store.filterOf project)) := by
    rw [hdb.searchByName_eq, if_neg]
    simp only [Bool.and_eq_true, decide_eq_true_eq, not_and]
    intro hlong
    omega
  cases hfound : db.store.searchByName target none (Store.filterOf project) with
  | nil =>
      have hnone := Store.searchByName_eq_nil.mp hfound r (by rwa [inScope_of_own hknows.own])
      rw [hname, hfits] at hnone
      exact absurd hnone (by decide)
  | cons hit rest =>
      rw [hfound] at hsearch
      exact ⟨hit, rest, hsearch, (leadsTo_of_search hdb hknows hsearch).1.unique h⟩

end Database

end SymbolAtlas
