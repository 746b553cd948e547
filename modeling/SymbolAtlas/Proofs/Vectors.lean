/-
  SymbolAtlas.Proofs.Vectors: each symbol has the vector of its own text.

  The symbols of a file are cut into batches, and a batch into chunks, each with a size of its own.
  With a model that never fails a chunk has the vectors of its texts in their order, hence so has a
  batch, and the symbols of a file are stored as if each had been embedded alone
  (`embedded_eq_map`). A symbol gets an id that no other symbol has, and its embedding takes the
  place of one that was left under this id. So every symbol that is there after the work on its file
  has one embedding, and it is that of its text.
-/

import SymbolAtlas.Proofs.Actions
import SymbolAtlas.Proofs.FailedChunks
import SymbolAtlas.Proofs.Isolation

namespace SymbolAtlas

/-- A model that gives a vector for every text. -/
def Model.Total (m : Model) : Prop := ∀ text, (m.embed text).isSome = true

namespace Embedding

variable {m : Model}

/-! ## Batches -/

/-- Where a batch is cut into chunks plays no part when the model never fails. -/
theorem batch_eq_map (hm : m.Total) (texts : List String) :
    batch m texts = texts.map fun text => single m (clean text) := by
  have hembeds : ∀ ts : List String, m.failsIn ts = false := by
    intro ts
    rw [Model.failsIn, List.any_eq_false]
    intro text _
    rw [← Option.not_isSome, hm]
    exact Bool.false_ne_true
  apply List.ext_getElem?
  intro i
  rw [getElem?_batch, hembeds, List.getElem?_map]
  rfl

end Embedding

namespace Store

variable {st : Store} {project file : String}

/-! ## One embedding for each symbol -/

/-- An embedding takes the place of the one under its id. -/
theorem filter_putRow_self {rows : List EmbeddingRow} (h : rows.Pairwise (·.id < ·.id))
    (e : EmbeddingRow) : (putRow e rows).filter (·.id == e.id) = [e] := by
  -- an id that is larger than another one is not the same
  have hlarger : ∀ rest : List EmbeddingRow, (∀ g ∈ rest, e.id < g.id) →
      rest.filter (·.id == e.id) = [] := by
    intro rest hrest
    rw [List.filter_eq_nil_iff]
    intro g hg
    have hlt := hrest g hg
    rw [beq_iff_eq]
    omega
  induction rows with
  | nil => simp [putRow]
  | cons f rest ih =>
      obtain ⟨hfirst, hrest⟩ := List.pairwise_cons.mp h
      rw [putRow]
      split
      next hid =>
        have hnone := hlarger rest fun g hg => hid ▸ hfirst g hg
        simp only [List.filter_cons, beq_self_eq_true, if_true, hnone]
      next hne =>
        split
        next hlt =>
          have hnone : (f :: rest).filter (·.id == e.id) = [] := by
            apply hlarger
            intro g hg
            rcases List.mem_cons.mp hg with rfl | hg
            · exact hlt
            · exact Int.lt_trans hlt (hfirst g hg)
          rw [List.filter_cons, hnone]
          simp
        next => rw [List.filter_cons_of_neg (by simpa using hne), ih hrest]

/-- Each symbol of a file has one embedding, the one that a function gives for it. -/
def EmbeddedBy (st : Store) (project file : String) (f : SymbolData → Value) : Prop :=
  ∀ r ∈ st.rowsOf project file,
    st.embeddings.filter (·.id == r.id) = [⟨r.id, f r.toSymbolData⟩]

theorem EmbeddedBy.insertEmbedded {f : SymbolData → Value} (h : st.EmbeddedBy project file f)
    (horder : st.embeddings.Pairwise (·.id < ·.id)) (d : SymbolData) :
    (st.insertEmbedded d (some (f d))).EmbeddedBy project file f := by
  intro r hr
  rcases mem_rowsOf_insertEmbedded hr with hold | rfl
  · -- the ids of symbols that were there are smaller than the one that is given now
    have hlt := lt_insertSymbol_id (mem_rowsOf.mp hold).1 d
    rw [← h r hold]
    refine filter_putRow ?_ st.embeddings
    intro e he
    dsimp only at he
    rw [beq_eq_false_iff_ne]
    omega
  · exact filter_putRow_self horder ⟨(st.insertSymbol d).2, f d⟩

/-- All symbols, by one after another. -/
theorem EmbeddedBy.insertAllEmbedded {f : SymbolData → Value} (h : st.EmbeddedBy project file f)
    (horder : st.embeddings.Pairwise (·.id < ·.id)) (ds : List SymbolData) :
    (st.insertAllEmbedded (ds.map fun d => (d, some (f d)))).EmbeddedBy project file f := by
  induction ds generalizing st with
  | nil => exact h
  | cons d rest ih =>
      exact ih (h.insertEmbedded horder d) (embeddingIds_insertEmbedded horder d _)

end Store

namespace Indexer

open SymbolData

variable {x : Indexer} {m : Model}

/-! ## A file -/

/-- The symbols of batches, each with the vector of its own text. -/
theorem itemsOf_eq_map (hm : m.Total) (batches : List (List Symbol)) :
    itemsOf (some m) batches
      = batches.flatten.map fun s => (s, some (Embedding.ofSymbol m s.kind s.name s.snippet)) := by
  induction batches with
  | nil => rfl
  | cons symbols rest ih =>
      have hvectors : vectors (some m) symbols
          = symbols.map fun s => some (Embedding.ofSymbol m s.kind s.name s.snippet) := by
        rw [vectors, Embedding.batch_eq_map hm, List.map_map, List.map_map]
        rfl
      rw [itemsOf, List.flatMap_cons, hvectors, List.zip_map_right, List.flatten_cons,
        List.map_append]
      congr 1
      -- symbols are paired with vectors by their places
      rw [List.zip_eq_zipWith, List.map_zipWith, List.zipWith_self]
      rfl

/-- The symbols of a file are stored as if each had been embedded alone. -/
theorem embedded_eq_map (hmodel : x.model = some m) (hm : m.Total) (project path : String)
    (file : Option ByteArray) :
    x.embedded project path file = (x.storable project path file).map fun d =>
      (d, some (.list (Embedding.ofSymbol m d.kind d.name d.snippet))) := by
  rw [embedded, storable, hmodel]
  cases symbolsOf? (x.parse path file) with
  | none => rfl
  | some symbols =>
      dsimp only
      rw [itemsOf_eq_map hm, Embedding.flatten_chunksOf, List.map_map, List.map_map]
      rfl

/-- Whatever was done to a database, in a run with a model that never fails the work on a file
leaves the last symbol of each key that is found in it, and each of them has one embedding, the one
that the model gives for its text alone. Only a file with more symbols than can be removed is not
worked on. -/
theorem works_embed_each_symbol (hx : x.Lawful) (hmodel : x.model = some m) (hm : m.Total)
    (actions : List Action) (v : Visit) :
    ∀ w ∈ x.works v (.reached actions),
      let after := (x.outcome w).db.store
      (w.before.Fits w.project w.path →
        after.dataOf w.project w.path = lastPerKey (x.storable w.project w.path w.file) ∧
          ∀ r ∈ after.rowsOf w.project w.path, after.embeddings.filter (·.id == r.id)
            = [⟨r.id, .list (Embedding.ofSymbol m r.kind r.name r.snippet)⟩]) ∧
      (¬ w.before.Fits w.project w.path →
        x.outcome w
          = { db := w.before, error := some DatabaseError.tooManyVariables.message }) := by
  intro w hw after
  have hdb : w.before.Regular := (regular_visit hx (Database.regular_reached actions) v).1 w hw
  refine ⟨fun hfits => ⟨?_, ?_⟩, indexFile_crowded hdb.sound.clearable⟩
  · rw [← hdb.sound.filter_admits (x.storable w.project w.path w.file)]
    exact indexFile_data hx (hdb.sound.clearable.removeFile hfits)
  · -- nothing is left of the file at first, and each symbol comes with its own vector
    have hcleared : (w.before.store.removeFile w.path w.project).EmbeddedBy w.project w.path
        fun d => .list (Embedding.ofSymbol m d.kind d.name d.snippet) := by
      intro r hr
      rw [Store.rowsOf_removeFile_same] at hr
      exact absurd hr List.not_mem_nil
    have hstored := hcleared.insertAllEmbedded (hdb.tidy.removeSymbols _).embeddingIds
      (x.storable w.project w.path w.file)
    rw [← embedded_eq_map hmodel hm] at hstored
    rcases outcome_regular hx hdb with ⟨hcrowded, -⟩ | ⟨-, relations, hafter⟩
    · exact absurd hfits hcrowded
    · rw [show after = _ from congrArg (·.store) hafter]
      exact hstored

/-- A model whose vectors show the texts that they stand for. -/
def echo : Model :=
  { name := "echo", embed := fun text => some [.text text], vectors := none, vocabulary := 0
    pipeline := [] }

/-- A function on a line of its own. -/
def functionOn (path : String) (line : Nat) : Symbol :=
  { name := "f", kind := "function", first := line, last := line, snippet := "def f(): pass"
    language := "python", file := path }

/-- An indexer that finds a number of functions in every file. -/
def manyFunctions (n : Nat) : Indexer where
  languageOf? _ := some "python"
  parse path _ := (List.range n).map fun line => ⟨.symbol (functionOn path line), none⟩
  wantsRelations _ := true
  model := some echo

theorem finding_manyFunctions (n : Nat) (path : String) (file : Option ByteArray) :
    ((manyFunctions n).parse path file).map (·.finding)
      = ((List.range n).map (functionOn path)).map .symbol := by
  rw [manyFunctions, List.map_map, List.map_map]
  rfl

theorem manyFunctions_lawful (n : Nat) : (manyFunctions n).Lawful := by
  intro path file
  refine .inl ⟨_, finding_manyFunctions n path file, ?_⟩
  intro s hs
  obtain ⟨line, -, rfl⟩ := List.mem_map.mp hs
  rfl

/-- All functions of a file stay, since they are on different lines. -/
theorem lastPerKey_manyFunctions (n : Nat) (project path : String) (file : Option ByteArray) :
    lastPerKey ((manyFunctions n).storable project path file)
      = (List.range n).map fun line =>
          symbolData project (digestOf file) (functionOn path line) := by
  have hstorable : (manyFunctions n).storable project path file
      = (List.range n).map fun line =>
          symbolData project (digestOf file) (functionOn path line) := by
    rw [storable, symbolsOf?_eq_some (finding_manyFunctions n path file)]
    exact List.map_map
  rw [hstorable]
  apply lastPerKey_eq_self
  rw [List.pairwise_map]
  refine List.pairwise_lt_range.imp ?_
  intro i j hij
  have hne : (i : Int) ≠ j := by omega
  simp [sameKey, symbolData, functionOn, hne]

/-- A file with more than a thousand functions, where an embedding was left under the first id. -/
theorem works_embed_each_symbol_many :
    let left := .operation (.insertEmbedding (.int 1) (.text "left"))
    let x := manyFunctions 1001
    ∃ w ∈ x.works (.ofFiles [("a.py", "")]) (.reached [left]),
      let after := (x.outcome w).db.store
      w.before.store.embeddings.map (·.id) = [1] ∧
        (after.rowsOf w.project w.path).length = 1001 ∧
        ∀ r ∈ after.rowsOf w.project w.path, after.embeddings.filter (·.id == r.id)
          = [⟨r.id, .list (Embedding.ofSymbol echo r.kind r.name r.snippet)⟩] := by
  intro left x
  have hfacts : ∃ w ∈ x.works (.ofFiles [("a.py", "")]) (.reached [left]),
      w.before.store.embeddings.map (·.id) = [1] ∧ w.before.Fits w.project w.path := by
    decide +kernel
  obtain ⟨w, hw, hleft, hfits⟩ := hfacts
  obtain ⟨hdata, hrows⟩ := (works_embed_each_symbol (manyFunctions_lawful 1001) rfl
    (fun _ => rfl) [left] _ w hw).1 hfits
  refine ⟨w, hw, hleft, ?_, hrows⟩
  rw [lastPerKey_manyFunctions] at hdata
  have hlength := congrArg List.length hdata
  rw [Store.dataOf, List.length_map, List.length_map, List.length_range] at hlength
  exact hlength

end Indexer

end SymbolAtlas
