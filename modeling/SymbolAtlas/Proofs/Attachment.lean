/-
  SymbolAtlas.Proofs.Attachment: embeddings that belong to symbols.

  Removing symbols removes their embeddings as well. Storing a symbol may remove another one, of the
  same key, and then the embedding of that one stays behind. Its id is not given again while its
  file has a symbol with a larger one, so that it still belongs to nothing when the run is over
  (`Lost`). Hence embeddings belong to symbols after all of a number of runs and removals exactly if
  no run with a model worked on a file in which two symbols have the same key.
-/

import SymbolAtlas.Proofs.Rework
import SymbolAtlas.Proofs.Vectors

namespace SymbolAtlas

namespace Store

open SymbolData

variable {st : Store} {project file : String}

/-- Whether every embedding is that of a symbol. -/
def Attached (st : Store) : Prop := ∀ e ∈ st.embeddings, ∃ r ∈ st.symbols, r.id = e.id

instance decidableAttached (st : Store) : Decidable st.Attached :=
  inferInstanceAs (Decidable (∀ e ∈ st.embeddings, ∃ r ∈ st.symbols, r.id = e.id))

/-- When all embeddings are those of symbols, there are not more of them. -/
theorem Attached.length_le (h : st.Attached)
    (horder : st.embeddings.Pairwise (·.id < ·.id)) :
    st.embeddings.length ≤ st.symbols.length := by
  have hnodup : (st.embeddings.map (·.id)).Nodup := by
    rw [List.Nodup, List.pairwise_map]
    exact horder.imp fun hlt heq => absurd heq (Int.ne_of_lt hlt)
  have hsub : st.embeddings.map (·.id) ⊆ st.symbols.map (·.id) := by
    intro id hid
    obtain ⟨e, he, rfl⟩ := List.mem_map.mp hid
    obtain ⟨r, hr, heq⟩ := h e he
    exact List.mem_map.mpr ⟨r, hr, heq⟩
  have hle := (List.subperm_of_subset hnodup hsub).length_le
  rwa [List.length_map, List.length_map] at hle

/-! ## Embeddings that stay with their symbols -/

/-- What is left after removing symbols belongs to symbols that stay. -/
theorem Attached.exists_of_removeSymbols (h : st.Attached) (pick : SymbolRow → Bool) :
    ∀ e ∈ (st.removeSymbols pick).embeddings,
      ∃ r ∈ (st.removeSymbols pick).symbols, r.id = e.id ∧ pick r = false := by
  intro e he
  obtain ⟨hmem, hkept⟩ := List.mem_filter.mp he
  obtain ⟨r, hr, hid⟩ := h e hmem
  have hpick : pick r = false := by
    rw [Bool.eq_false_iff]
    intro hpick
    have hgone : e.id ∈ (st.symbols.filter pick).map (·.id) :=
      List.mem_map.mpr ⟨r, List.mem_filter.mpr ⟨hr, hpick⟩, hid⟩
    simp [hgone] at hkept
  exact ⟨r, List.mem_filter.mpr ⟨hr, by simp [hpick]⟩, hid, hpick⟩

theorem Attached.removeSymbols (h : st.Attached) (pick : SymbolRow → Bool) :
    (st.removeSymbols pick).Attached := by
  intro e he
  obtain ⟨r, hr, hid, -⟩ := h.exists_of_removeSymbols pick e he
  exact ⟨r, hr, hid⟩

/-- A symbol that takes the place of no other one leaves all embeddings with their symbols. -/
theorem Attached.insertEmbedded (h : st.Attached) {d : SymbolData}
    (hnew : ∀ r ∈ st.symbols, clash st.shared r.toSymbolData d = false) (vector : Option Value) :
    (st.insertEmbedded d vector).Attached := by
  have hold : ∀ e ∈ st.embeddings, ∃ r ∈ (st.insertEmbedded d vector).symbols, r.id = e.id := by
    intro e he
    obtain ⟨r, hr, hid⟩ := h e he
    exact ⟨r, mem_symbols_insertEmbedded.mpr (.inl ⟨hr, hnew r hr⟩), hid⟩
  cases vector with
  | none => exact hold
  | some v =>
      intro e he
      rcases mem_putRow he with rfl | he
      · exact ⟨_, mem_symbols_insertEmbedded.mpr (.inr rfl), rfl⟩
      · exact hold e he

/-- A symbol whose key is free comes behind the other symbols of its file. -/
theorem dataOf_insertEmbedded_of_free {d : SymbolData} (hproject : d.project = project)
    (hfile : d.file = file) (hfree : ∀ e ∈ st.dataOf project file, sameKey e d = false)
    (vector : Option Value) :
    (st.insertEmbedded d vector).dataOf project file = st.dataOf project file ++ [d] := by
  rw [dataOf_insertEmbedded st vector hproject hfile, upsert]
  congr 1
  rw [List.filter_eq_self]
  intro e he
  rw [hfree e he]
  rfl

/-- Symbols of a file that all have different keys leave all embeddings with their symbols. -/
theorem Attached.insertAllEmbedded (h : st.Attached) (hshared : st.shared = false)
    {items : List (SymbolData × Option Value)}
    (hitems : ∀ item ∈ items, item.1.project = project ∧ item.1.file = file)
    (hkeys : (st.dataOf project file ++ items.map (·.1)).Pairwise
      fun a b => sameKey a b = false) :
    (st.insertAllEmbedded items).Attached := by
  induction items generalizing st with
  | nil => exact h
  | cons item rest ih =>
      obtain ⟨hproject, hfile⟩ := hitems item List.mem_cons_self
      have hold : ∀ d ∈ st.dataOf project file, sameKey d item.1 = false :=
        fun d hd => (List.pairwise_append.mp hkeys).2.2 d hd item.1 List.mem_cons_self
      have hnew : ∀ r ∈ st.symbols, clash st.shared r.toSymbolData item.1 = false := by
        intro r hr
        cases helse : r.isElsewhere project file with
        | true =>
            rw [hshared]
            exact clash_eq_false_of_isElsewhere hproject hfile helse
        | false =>
            obtain ⟨hrproject, hrfile⟩ := SymbolRow.isElsewhere_eq_false.mp helse
            rw [clash_eq_sameKey (hrproject.trans hproject.symm) (hrfile.trans hfile.symm)]
            exact hold _ (List.mem_map_of_mem (mem_rowsOf.mpr ⟨hr, hrproject, hrfile⟩))
      -- what is stored of the file and what is to come stay the same list of symbols
      refine ih (h.insertEmbedded hnew item.2) ?_ ?_ ?_
      · rw [shared_insertEmbedded]
        exact hshared
      · exact fun i hi => hitems i (List.mem_cons_of_mem item hi)
      · rw [dataOf_insertEmbedded_of_free hproject hfile hold, List.append_assoc]
        exact hkeys

theorem symbols_insertAllEmbedded (st : Store) (items : List (SymbolData × Option Value)) :
    (st.insertAllEmbedded items).symbols = (st.insertSymbols (items.map (·.1))).symbols := by
  induction items generalizing st with
  | nil => rfl
  | cons item rest ih =>
      rw [insertAllEmbedded_cons, ih, List.map_cons, insertSymbols_cons]
      exact symbols_insertSymbols_congr (symbols_insertEmbedded st item.1 item.2)
        (shared_insertEmbedded st item.1 item.2) _

theorem embeddings_insertAllEmbedded {items : List (SymbolData × Option Value)}
    (h : ∀ item ∈ items, item.2 = none) :
    (st.insertAllEmbedded items).embeddings = st.embeddings := by
  induction items generalizing st with
  | nil => rfl
  | cons item rest ih =>
      rw [insertAllEmbedded_cons, ih fun i hi => h i (List.mem_cons_of_mem item hi),
        h item List.mem_cons_self]
      rfl

/-- Replacing the symbols of a file without embeddings leaves all embeddings with their symbols,
which are those of other files. -/
theorem Attached.replace_of_none (h : st.Attached) (hshared : st.shared = false)
    {items : List (SymbolData × Option Value)}
    (hitems : ∀ item ∈ items, item.1.project = project ∧ item.1.file = file)
    (hnone : ∀ item ∈ items, item.2 = none) :
    ((st.removeFile file project).insertAllEmbedded items).Attached := by
  intro e he
  rw [embeddings_insertAllEmbedded hnone] at he
  obtain ⟨r, hr, hid, hpick⟩ := h.exists_of_removeSymbols _ e he
  have helse : r.isElsewhere project file = true := by
    rw [SymbolRow.isElsewhere, Bool.and_comm, hpick]
    rfl
  have hds : ∀ d ∈ items.map (·.1), d.project = project ∧ d.file = file := by
    intro d hd
    obtain ⟨item, hitem, rfl⟩ := List.mem_map.mp hd
    exact hitems item hitem
  have hkept := filter_isElsewhere_insertSymbols
    (show (st.removeFile file project).shared = false from hshared) hds
  have hstays : r ∈ ((st.removeFile file project).insertSymbols (items.map (·.1))).symbols.filter
      (·.isElsewhere project file) := by
    rw [hkept]
    exact List.mem_filter.mpr ⟨hr, helse⟩
  refine ⟨r, ?_, hid⟩
  rw [symbols_insertAllEmbedded]
  exact (List.mem_filter.mp hstays).1

/-! ## Embeddings that are left behind -/

/-- An embedding of no symbol, and a symbol of a file with a larger id. -/
structure Lost (st : Store) (project file : String) (id : Int) : Prop where
  stored : ∃ e ∈ st.embeddings, e.id = id
  orphan : ∀ r ∈ st.symbols, r.id ≠ id
  later : ∃ r ∈ st.rowsOf project file, id < r.id

theorem Lost.not_attached {id : Int} (h : st.Lost project file id) : ¬ st.Attached := by
  intro hattached
  obtain ⟨e, he, rfl⟩ := h.stored
  obtain ⟨r, hr, hid⟩ := hattached e he
  exact h.orphan r hr hid

/-- A loss shows in symbols and embeddings only. -/
theorem Lost.congr {st' : Store} {id : Int} (h : st.Lost project file id)
    (hsymbols : st'.symbols = st.symbols) (hembeddings : st'.embeddings = st.embeddings) :
    st'.Lost project file id := by
  refine ⟨hembeddings ▸ h.stored, hsymbols ▸ h.orphan, ?_⟩
  rw [rowsOf, hsymbols]
  exact h.later

theorem mem_putRow_of_ne {e f : EmbeddingRow} {rows : List EmbeddingRow} (h : f ∈ rows)
    (hne : f.id ≠ e.id) : f ∈ putRow e rows := by
  have hfilter : f ∈ (putRow e rows).filter (·.id != e.id) := by
    rw [filter_putRow (fun g hg => by simp [hg])]
    exact List.mem_filter.mpr ⟨h, by simpa using hne⟩
  exact (List.mem_filter.mp hfilter).1

theorem mem_putRow_self (e : EmbeddingRow) (rows : List EmbeddingRow) : e ∈ putRow e rows := by
  induction rows with
  | nil => exact List.mem_cons_self
  | cons f rest ih =>
      rw [putRow]
      split
      · exact List.mem_cons_self
      · split
        · exact List.mem_cons_self
        · exact List.mem_cons_of_mem f ih

/-- An embedding stays when a symbol gets another id. -/
theorem mem_embeddings_insertEmbedded {e : EmbeddingRow} (h : e ∈ st.embeddings) {d : SymbolData}
    (hne : e.id ≠ (st.insertSymbol d).2) (vector : Option Value) :
    e ∈ (st.insertEmbedded d vector).embeddings := by
  cases vector with
  | none => exact h
  | some v => exact mem_putRow_of_ne h hne

theorem newRow_mem_rowsOf {d : SymbolData} (hproject : d.project = project)
    (hfile : d.file = file) (vector : Option Value) :
    ⟨d, (st.insertSymbol d).2⟩ ∈ (st.insertEmbedded d vector).rowsOf project file :=
  mem_rowsOf.mpr ⟨mem_symbols_insertEmbedded.mpr (.inr rfl), hproject, hfile⟩

/-- Storing a symbol brings no lost embedding back. -/
theorem Lost.insertEmbedded {id : Int} (h : st.Lost project file id) (hshared : st.shared = false)
    (d : SymbolData) (vector : Option Value) :
    (st.insertEmbedded d vector).Lost project file id := by
  obtain ⟨⟨e, he, hid⟩, horphan, r, hr, hlt⟩ := h
  obtain ⟨hmem, hproject, hfile⟩ := mem_rowsOf.mp hr
  have hnext := lt_insertSymbol_id hmem d
  refine ⟨⟨e, mem_embeddings_insertEmbedded he (by omega) vector, hid⟩, ?_, ?_⟩
  · intro s hs
    rcases mem_symbols_insertEmbedded.mp hs with ⟨hs, -⟩ | rfl
    · exact horphan s hs
    · exact Int.ne_of_gt (Int.lt_trans hlt hnext)
  · -- the symbol with the larger id stays, or a symbol of its file takes its place
    cases hclash : clash st.shared r.toSymbolData d with
    | false =>
        refine ⟨r, mem_rowsOf.mpr ⟨?_, hproject, hfile⟩, hlt⟩
        exact mem_symbols_insertEmbedded.mpr (.inl ⟨hmem, hclash⟩)
    | true =>
        rw [hshared, clash_iff, key, key] at hclash
        simp only [Prod.mk.injEq] at hclash
        exact ⟨_, newRow_mem_rowsOf (hclash.1.symm.trans hproject)
          (hclash.2.2.2.1.symm.trans hfile) vector, Int.lt_trans hlt hnext⟩

theorem Lost.insertAllEmbedded {id : Int} (h : st.Lost project file id)
    (hshared : st.shared = false) (items : List (SymbolData × Option Value)) :
    (st.insertAllEmbedded items).Lost project file id := by
  induction items generalizing st with
  | nil => exact h
  | cons item rest ih =>
      refine ih (h.insertEmbedded hshared item.1 item.2) ?_
      rw [shared_insertEmbedded]
      exact hshared

/-- Removing the symbols of another file removes no lost embedding. -/
theorem Lost.removeFile {id : Int} (h : st.Lost project file id) {path : String}
    (hne : path ≠ file) : (st.removeFile path project).Lost project file id := by
  obtain ⟨⟨e, he, hid⟩, horphan, r, hr, hlt⟩ := h
  refine ⟨⟨e, List.mem_filter.mpr ⟨he, ?_⟩, hid⟩, ?_, r, ?_, hlt⟩
  · -- only embeddings of symbols are removed with them
    rw [Bool.not_eq_true', ← Bool.not_eq_true, List.contains_iff_mem]
    intro hgone
    obtain ⟨s, hs, heq⟩ := List.mem_map.mp hgone
    exact horphan s (List.mem_filter.mp hs).1 (heq.trans hid)
  · exact fun s hs => horphan s (List.mem_filter.mp hs).1
  · rw [rowsOf_removeFile_other st (.inl hne)]
    exact hr

/-- A symbol that takes the place of another one leaves the embedding of that one behind. -/
theorem lost_insertEmbedded (hst : st.Keyed) {r : SymbolRow} (hr : r ∈ st.rowsOf project file)
    (hembedded : ∃ e ∈ st.embeddings, e.id = r.id) {d : SymbolData} (hproject : d.project = project)
    (hfile : d.file = file) (hkey : sameKey r.toSymbolData d = true) (vector : Option Value) :
    (st.insertEmbedded d vector).Lost project file r.id := by
  obtain ⟨hmem, hrproject, hrfile⟩ := mem_rowsOf.mp hr
  obtain ⟨e, he, hid⟩ := hembedded
  have hnext := lt_insertSymbol_id hmem d
  refine ⟨⟨e, mem_embeddings_insertEmbedded he (by omega) vector, hid⟩, ?_,
    _, newRow_mem_rowsOf hproject hfile vector, hnext⟩
  intro s hs heq
  rcases mem_symbols_insertEmbedded.mp hs with ⟨hs, hkept⟩ | rfl
  · obtain rfl := Consistent.eq_of_id hst hs hmem heq
    rw [clash_eq_sameKey (hrproject.trans hproject.symm) (hrfile.trans hfile.symm), hkey] at hkept
    exact Bool.noConfusion hkept
  · exact absurd heq (Int.ne_of_gt hnext)

theorem Keyed.insertEmbedded (h : st.Keyed) (d : SymbolData) (vector : Option Value) :
    (st.insertEmbedded d vector).Keyed := by
  cases vector with
  | none => exact Consistent.insertSymbol h d
  | some v => exact Consistent.insertSymbol h d

/-- Whether every symbol of a file has an embedding. -/
def HasEmbeddings (st : Store) (project file : String) : Prop :=
  ∀ r ∈ st.rowsOf project file, ∃ e ∈ st.embeddings, e.id = r.id

theorem HasEmbeddings.insertEmbedded (h : st.HasEmbeddings project file) (d : SymbolData)
    (v : Value) : (st.insertEmbedded d (some v)).HasEmbeddings project file := by
  intro r hr
  rcases mem_rowsOf_insertEmbedded hr with hold | rfl
  · obtain ⟨e, he, hid⟩ := h r hold
    have hnext := lt_insertSymbol_id (mem_rowsOf.mp hold).1 d
    exact ⟨e, mem_embeddings_insertEmbedded he (by omega) (some v), hid⟩
  · exact ⟨_, mem_putRow_self _ st.embeddings, rfl⟩

/-- Symbols of a file that all have embeddings leave one behind when two of them have the same
key. -/
theorem exists_lost (hst : st.Keyed) {items : List (SymbolData × Option Value)}
    (hitems : ∀ item ∈ items,
      item.1.project = project ∧ item.1.file = file ∧ item.2.isSome = true)
    (hembedded : st.HasEmbeddings project file)
    (hold : (st.dataOf project file).Pairwise fun a b => sameKey a b = false)
    (hkeys : ¬ (st.dataOf project file ++ items.map (·.1)).Pairwise
      fun a b => sameKey a b = false) :
    ∃ id, (st.insertAllEmbedded items).Lost project file id := by
  induction items generalizing st with
  | nil =>
      rw [List.map_nil, List.append_nil] at hkeys
      exact absurd hold hkeys
  | cons item rest ih =>
      obtain ⟨hproject, hfile, hvector⟩ := hitems item List.mem_cons_self
      obtain ⟨v, hv⟩ := Option.isSome_iff_exists.mp hvector
      rw [insertAllEmbedded_cons, hv]
      by_cases htaken : ∃ r ∈ st.rowsOf project file, sameKey r.toSymbolData item.1 = true
      · obtain ⟨r, hr, hkey⟩ := htaken
        have hlost := lost_insertEmbedded hst hr (hembedded r hr) hproject hfile hkey (some v)
        exact ⟨r.id, hlost.insertAllEmbedded hst.shared_eq rest⟩
      · -- the symbols that are there have different keys still, so that the pair comes later
        have hfree : ∀ d ∈ st.dataOf project file, sameKey d item.1 = false := by
          intro d hd
          obtain ⟨r, hr, rfl⟩ := List.mem_map.mp hd
          rw [← Bool.not_eq_true]
          exact fun hkey => htaken ⟨r, hr, hkey⟩
        have hdata := dataOf_insertEmbedded_of_free hproject hfile hfree (some v)
        refine ih (hst.insertEmbedded item.1 (some v))
          (fun i hi => hitems i (List.mem_cons_of_mem item hi))
          (hembedded.insertEmbedded item.1 v) ?_ ?_
        · rw [hdata, List.pairwise_append]
          refine ⟨hold, List.pairwise_singleton _ _, ?_⟩
          intro d hd e he
          obtain rfl := List.mem_singleton.mp he
          exact hfree d hd
        · rw [hdata, List.append_assoc]
          exact hkeys

end Store

namespace Indexer

open SymbolData

variable {x : Indexer} {w : Work} {db : Database} {v : Visit}

/-! ## Works -/

theorem isSome_of_mem_embedded {project path : String} {file : Option ByteArray}
    {item : SymbolData × Option Value} (h : item ∈ x.embedded project path file) :
    item.2.isSome = x.model.isSome := by
  have hitems : ∀ (batches : List (List Symbol)), ∀ i ∈ itemsOf x.model batches,
      i.2.isSome = x.model.isSome := by
    intro batches i hi
    obtain ⟨symbols, -, hi⟩ := List.mem_flatMap.mp hi
    have hvector : i.2 ∈ vectors x.model symbols := (List.of_mem_zip hi).2
    cases hmodel : x.model with
    | none =>
        rw [hmodel] at hvector
        obtain ⟨s, -, hs⟩ := List.mem_map.mp hvector
        rw [← hs]
        rfl
    | some m =>
        rw [hmodel] at hvector
        obtain ⟨u, -, hu⟩ := List.mem_map.mp hvector
        rw [← hu]
        rfl
  rw [embedded] at h
  split at h
  next =>
    obtain ⟨i, hi, rfl⟩ := List.mem_map.mp h
    rw [Option.isSome_map]
    exact hitems _ i hi
  next => exact absurd h List.not_mem_nil

theorem Lawful.mem_embedded (hx : x.Lawful) {project path : String} {file : Option ByteArray}
    {item : SymbolData × Option Value} (h : item ∈ x.embedded project path file) :
    item.1.project = project ∧ item.1.file = path := by
  have hstorable : item.1 ∈ x.storable project path file := by
    rw [← embedded_fst]
    exact List.mem_map_of_mem h
  exact hx.mem_storable hstorable

/-- Without a model, or with symbols of different keys, the work on a file leaves all embeddings
with their symbols, and so it does when the file cannot be cleared. -/
theorem attached_outcome (hx : x.Lawful) (h : w.before.Regular)
    (hattached : w.before.store.Attached)
    (hkeys : x.model = none ∨ (w.before.Fits w.project w.path →
      (x.storable w.project w.path w.file).Pairwise fun a b => sameKey a b = false)) :
    (x.outcome w).db.store.Attached := by
  have hshared := h.tidy.keyed.shared_eq
  have hitems : ∀ item ∈ x.embedded w.project w.path w.file,
      item.1.project = w.project ∧ item.1.file = w.path := fun item hi => hx.mem_embedded hi
  rcases outcome_regular hx h with ⟨-, hsame⟩ | ⟨hfits, relations, hdb⟩
  · rw [hsame]
    exact hattached
  rw [hdb]
  rcases hkeys with hmodel | hkeys
  · refine hattached.replace_of_none hshared hitems ?_
    intro item hitem
    have hnone := isSome_of_mem_embedded hitem
    rw [hmodel] at hnone
    exact Option.not_isSome_iff_eq_none.mp (by rw [hnone]; decide)
  · have hcleared : (w.before.store.removeFile w.path w.project).Attached :=
      hattached.removeSymbols _
    refine hcleared.insertAllEmbedded hshared hitems ?_
    rw [embedded_fst, Store.dataOf_eq_nil.mpr (Store.rowsOf_removeFile_same _ _ _)]
    exact hkeys hfits

/-- With a model, two symbols of the same key leave an embedding behind. -/
theorem lost_outcome (hx : x.Lawful) (h : w.before.Regular)
    (hfits : w.before.Fits w.project w.path) (hmodel : x.model ≠ none)
    (hkeys : ¬ (x.storable w.project w.path w.file).Pairwise fun a b => sameKey a b = false) :
    ∃ id, (x.outcome w).db.store.Lost w.project w.path id := by
  have hrows := Store.rowsOf_removeFile_same w.before.store w.project w.path
  have hdata := Store.dataOf_eq_nil.mpr hrows
  have hsome : x.model.isSome = true := Option.isSome_iff_ne_none.mpr hmodel
  have hlost : ∃ id, ((w.before.store.removeFile w.path w.project).insertAllEmbedded
      (x.embedded w.project w.path w.file)).Lost w.project w.path id := by
    refine Store.exists_lost (h.tidy.keyed.removeFile w.path w.project) ?_ ?_ ?_ ?_
    · intro item hitem
      obtain ⟨hproject, hfile⟩ := hx.mem_embedded hitem
      exact ⟨hproject, hfile, (isSome_of_mem_embedded hitem).trans hsome⟩
    · intro r hr
      rw [hrows] at hr
      exact absurd hr List.not_mem_nil
    · rw [hdata]
      exact List.Pairwise.nil
    · rw [hdata, embedded_fst]
      exact hkeys
  obtain ⟨id, hlost⟩ := hlost
  rcases outcome_regular hx h with ⟨hcrowded, -⟩ | ⟨-, relations, hdb⟩
  · exact absurd hfits hcrowded
  · rw [hdb]
    exact ⟨id, hlost.congr rfl rfl⟩

/-- The work on another file brings no lost embedding back. -/
theorem lost_outcome_other (hx : x.Lawful) (h : w.before.Regular) {file : String} {id : Int}
    (hlost : w.before.store.Lost w.project file id) (hne : w.path ≠ file) :
    (x.outcome w).db.store.Lost w.project file id := by
  rcases outcome_regular hx h with ⟨-, hsame⟩ | ⟨-, relations, hdb⟩
  · rw [hsame]
    exact hlost
  · have hstays := (hlost.removeFile hne).insertAllEmbedded h.tidy.keyed.shared_eq
      (x.embedded w.project w.path w.file)
    rw [hdb]
    exact hstays.congr rfl rfl

/-! ## Runs -/

/-- A run whose works all leave embeddings with their symbols. -/
theorem attached_visit (hx : x.Lawful) (h : db.Regular) (hattached : db.store.Attached)
    (hkeys : ∀ w ∈ x.works v db, x.model = none ∨ (w.before.Fits w.project w.path →
      (x.storable w.project w.path w.file).Pairwise fun a b => sameKey a b = false)) :
    (x.visit db v).store.Attached := by
  have hregular := (regular_visit hx h v).1
  exact (visit_induction (P := fun db => db.store.Attached) (fun _ _ h => h) hattached
    fun w hw hbefore => attached_outcome hx (hregular w hw) hbefore (hkeys w hw)).2

/-- A run with a model that works on a file with two symbols of the same key. -/
theorem not_attached_visit (hx : x.Lawful) (h : db.Regular) (hmodel : x.model ≠ none)
    (hw : w ∈ x.works v db) (hfits : w.before.Fits w.project w.path)
    (hkeys : ¬ (x.storable w.project w.path w.file).Pairwise fun a b => sameKey a b = false) :
    ¬ (x.visit db v).store.Attached := by
  have hregular := (regular_visit hx h v).1
  obtain ⟨hproject, -, hfile⟩ := of_mem_works hw
  have hlost : ∃ id, (x.visit db v).store.Lost w.project w.path id := by
    refine visit_from (P := fun db => ∃ id, db.store.Lost w.project w.path id)
      (fun _ _ ⟨id, hlost⟩ => ⟨id, hlost.congr rfl rfl⟩) hw
      (lost_outcome hx (hregular w hw) hfits hmodel hkeys) ?_
    intro w' hw' hbefore
    obtain ⟨hproject', -, hfile'⟩ := of_mem_works hw'
    have hsame : w'.project = w.project := hproject'.trans hproject.symm
    by_cases hfits' : w'.before.Fits w'.project w'.path
    case neg =>
      rw [outcome, indexFile_crowded (hregular w' hw').sound.clearable hfits']
      exact hbefore
    -- the file may come again in the same run, and has the same symbols then
    by_cases hpath : w'.path = w.path
    · have hkeys' : ¬ (x.storable w'.project w'.path w'.file).Pairwise
          fun a b => sameKey a b = false := by
        rw [hfile', hsame, hpath, ← hfile]
        exact hkeys
      have hagain := lost_outcome hx (hregular w' hw') hfits' hmodel hkeys'
      rw [hsame, hpath] at hagain
      exact hagain
    · obtain ⟨id, hid⟩ := hbefore
      rw [← hsame] at hid ⊢
      exact ⟨id, lost_outcome_other hx (hregular w' hw') hid hpath⟩
  obtain ⟨id, hid⟩ := hlost
  exact hid.not_attached

end Indexer

/-- Whether an action is a run over a directory or the removal of a project. -/
def Action.isRun : Action → Bool
  | .index _ _ _ => true
  | .operation (.deleteProject _) => true
  | .operation _ => false

namespace Database

open SymbolData

theorem attached_deleteProject {db : Database} (h : db.store.Attached) (project : Value) :
    (db.perform (.deleteProject project)).store.Attached := by
  rw [perform]
  cases hresult : db.deleteProject project with
  | error e => exact h
  | ok db' =>
      rcases deleteProject_eq_ok hresult with rfl | ⟨pick, rfl⟩
      · exact h
      · exact h.removeSymbols pick

theorem Regular.embedded_le {db : Database} (h : db.Regular) (hattached : db.store.Attached) :
    ∃ s, db.stats none = .ok s ∧ s.embedded ≤ s.symbols := by
  refine ⟨_, h.sound.stats_ok none, ?_⟩
  have hle := hattached.length_le h.tidy.embeddingIds
  simp only [Store.stats, Store.embeddedIn, Store.inScope_all]
  exact hle

/-- Directories are indexed and projects are removed, in any order. All along, every embedding is
that of a symbol and there are not more embeddings than symbols, exactly if no file that is worked
on with a model, and whose symbols from before can be removed, has two symbols of the same language,
name and first line. -/
theorem attached_throughout_iff (actions : List Action)
    (hruns : ∀ action ∈ actions, action.isRun = true) :
    (∀ done, done <+: actions → (reached done).store.Attached ∧
        ∃ s, (reached done).stats none = .ok s ∧ s.embedded ≤ s.symbols) ↔
      ∀ done a model v, done ++ [.index a model v] <+: actions →
        let x := Indexer.ofAnalyzer a model
        ∀ w ∈ x.works v (reached done), model = none ∨ (w.before.Fits w.project w.path →
          (x.storable w.project w.path w.file).Pairwise fun d e => sameKey d e = false) := by
  constructor
  · intro hall done a model v hdone x w hw
    -- the run that has such a file is over at some point, and then an embedding is lost
    by_contra hno
    obtain ⟨hmodel, hno⟩ := not_or.mp hno
    obtain ⟨hfits, hkeys⟩ := Classical.not_imp.mp hno
    have hafter := (hall _ hdone).1
    rw [reached_concat] at hafter
    exact Indexer.not_attached_visit (Indexer.ofAnalyzer_lawful a model) (regular_reached done)
      hmodel hw hfits hkeys hafter
  · intro hworks
    have hattached : ∀ done, done <+: actions → (reached done).store.Attached := by
      intro done
      induction done using List.reverseRecOn with
      | nil => exact fun _ e he => absurd he List.not_mem_nil
      | append_singleton done action ih =>
          intro hdone
          have hbefore := ih ((List.prefix_append done [action]).trans hdone)
          have hrun := hruns action (hdone.mem (List.mem_append_right done List.mem_cons_self))
          rw [reached_concat]
          match action, hrun with
          | .index a model v, _ =>
              exact Indexer.attached_visit (Indexer.ofAnalyzer_lawful a model)
                (regular_reached done) hbefore (hworks done a model v hdone)
          | .operation (.deleteProject project), _ => exact attached_deleteProject hbefore project
    exact fun done hdone =>
      ⟨hattached done hdone, (regular_reached done).embedded_le (hattached done hdone)⟩

/-- Two files with functions are indexed with a model, and the project is removed. -/
def indexedAndRemoved : List Action :=
  [.index Indexer.functions (some Indexer.echo) Indexer.calleeFirst,
    .operation (.deleteProject (.text "p"))]

/-- The two embeddings are those of symbols, before and after the removal. -/
theorem attached_throughout_iff_functions :
    (reached (indexedAndRemoved.take 1)).store.embeddings.length = 2 ∧
      (∀ action ∈ indexedAndRemoved, action.isRun = true) ∧
      ∀ done, done <+: indexedAndRemoved → (reached done).store.Attached ∧
        ∃ s, (reached done).stats none = .ok s ∧ s.embedded ≤ s.symbols := by
  have hruns : ∀ action ∈ indexedAndRemoved, action.isRun = true := by decide
  have hfacts : (reached (indexedAndRemoved.take 1)).store.embeddings.length = 2 ∧
      ∀ w ∈ (Indexer.ofAnalyzer Indexer.functions (some Indexer.echo)).works Indexer.calleeFirst
          (reached []),
        ((Indexer.ofAnalyzer Indexer.functions (some Indexer.echo)).storable w.project w.path
          w.file).Pairwise fun d e => sameKey d e = false := by
    decide +kernel
  refine ⟨hfacts.1, hruns, (attached_throughout_iff indexedAndRemoved hruns).mpr ?_⟩
  intro done a model v hdone x w hw
  cases done with
  | nil =>
      obtain ⟨hfirst, -⟩ := List.cons_prefix_cons.mp hdone
      obtain ⟨rfl, rfl, rfl⟩ := Action.index.inj hfirst
      exact .inr fun _ => hfacts.2 w hw
  | cons first rest =>
      -- there is no second run
      obtain ⟨-, hdone⟩ := List.cons_prefix_cons.mp hdone
      cases rest with
      | nil => exact absurd (List.cons_prefix_cons.mp hdone).1 (by simp)
      | cons second more =>
          obtain ⟨-, hdone⟩ := List.cons_prefix_cons.mp hdone
          exact absurd hdone (by simp)

/-- An analyzer that knows pairs of settings. -/
def pairs : Analyzer :=
  { dialect := .code, grammars := ["json"], query := fun _ => some "(pair) @definition.key" }

/-- The key and the value of a pair are two symbols of the same name on the same line. The value
takes the place of the key, and the embedding of the key stays behind. -/
theorem equal_pair_leaves_embedding :
    let v := Visit.ofFiles [("a.json", "\x7b\"a\": \"a\"\x7d\n")]
    let db := reached [.index pairs (some Indexer.echo) v]
    ¬ db.store.Attached ∧
      ∃ s, db.stats none = .ok s ∧ s.symbols = 2 ∧ s.embedded = 3 := by
  intro v db
  have hcounts : ¬ db.store.Attached ∧ (db.store.stats none).symbols = 2 ∧
      (db.store.stats none).embedded = 3 := by
    decide +kernel
  obtain ⟨hattached, hsymbols, hembedded⟩ := hcounts
  exact ⟨hattached, _, (regular_reached _).sound.stats_ok none, hsymbols, hembedded⟩

end Database

end SymbolAtlas
