/-
  SymbolAtlas.Proofs.FailedChunks: batches of texts on some of which the model fails.

  A batch is cut into chunks. A text on which the model fails costs its whole chunk the vectors
  (`chunk_of_fails`), and in a chunk without such a text each vector is the one that its text has
  alone (`chunk_of_embeds`). A place of the batch lies in one chunk, at the rest of the place by the
  size of a chunk (`getElem?_flatMap_chunksOf`), which tells the vector at each place
  (`getElem?_batch`).
-/

import SymbolAtlas.Proofs.Batches

namespace SymbolAtlas

/-- Whether the model fails on the cleaned form of one of the texts. -/
def Model.failsIn (m : Model) (texts : List String) : Bool :=
  texts.any fun text => (m.embed (Embedding.clean text)).isNone

namespace Embedding

/-! ## Places in chunks -/

section Places

variable {α β : Type}

/-- The chunk that a place of a list falls into, with `n` items in a chunk. -/
def chunkAt (n : Nat) (xs : List α) (i : Nat) : List α := (xs.drop (n * (i / n))).take n

/-- The item at a place stands in its chunk at the rest of the place. -/
theorem getElem?_chunkAt {n : Nat} (hn : 0 < n) (xs : List α) (i : Nat) :
    (chunkAt n xs i)[i % n]? = xs[i]? := by
  have hplace : n * (i / n) + i % n = i := Nat.div_add_mod i n
  rw [chunkAt, List.getElem?_take_of_lt (Nat.mod_lt i hn), List.getElem?_drop, hplace]

theorem chunkAt_of_lt {n i : Nat} (h : i < n) (xs : List α) : chunkAt n xs i = xs.take n := by
  rw [chunkAt, Nat.div_eq_of_lt h, Nat.mul_zero, List.drop_zero]

/-- Behind the first chunk the chunks are those of the rest. -/
theorem chunkAt_add (n : Nat) (xs : List α) (j : Nat) :
    chunkAt (n + 1) xs (j + (n + 1)) = chunkAt (n + 1) (xs.drop (n + 1)) j := by
  have hnext : (n + 1) * ((j + (n + 1)) / (n + 1)) = n + 1 + (n + 1) * (j / (n + 1)) := by
    rw [Nat.add_div_right j (Nat.succ_pos n), Nat.mul_succ, Nat.add_comm]
  rw [chunkAt, chunkAt, hnext, List.drop_drop]

/-- What is made of chunks without a change of their lengths has at each place what is made of the
chunk of this place. -/
theorem getElem?_flatMap_chunksOf {g : List α → List β} (hg : ∀ c, (g c).length = c.length)
    (n : Nat) (xs : List α) (i : Nat) :
    ((chunksOf n xs).flatMap g)[i]? = (g (chunkAt (n + 1) xs i))[i % (n + 1)]? := by
  have hnil : g [] = [] := List.eq_nil_of_length_eq_zero (hg [])
  fun_induction chunksOf n xs generalizing i with
  | case1 => simp [chunkAt, hnil]
  | case2 x rest ih =>
      have hlength : (g (x :: rest.take n)).length = min n rest.length + 1 := by
        rw [hg, List.length_cons, List.length_take]
      -- a first chunk that is not full is the last one
      have hfull : rest.length < n → rest.drop n = [] :=
        fun hshort => List.drop_of_length_le (Nat.le_of_lt hshort)
      rw [List.flatMap_cons]
      by_cases hfirst : i < n + 1
      · have hchunk : chunkAt (n + 1) (x :: rest) i = x :: rest.take n := chunkAt_of_lt hfirst _
        rw [hchunk, Nat.mod_eq_of_lt hfirst]
        by_cases hi : i < (g (x :: rest.take n)).length
        · exact List.getElem?_append_left hi
        · have hnone : (g (x :: rest.take n))[i]? = none := List.getElem?_eq_none (by omega)
          rw [hfull (by omega), chunksOf, List.flatMap_nil, List.append_nil, hnone]
      · obtain ⟨j, rfl⟩ : ∃ j, i = j + (n + 1) := ⟨i - (n + 1), by omega⟩
        have hchunk : chunkAt (n + 1) (x :: rest) (j + (n + 1))
            = chunkAt (n + 1) (rest.drop n) j := chunkAt_add n (x :: rest) j
        rw [List.getElem?_append_right (by omega), hchunk, Nat.add_mod_right, ← ih]
        by_cases hshort : rest.length < n
        · simp [hfull hshort, chunksOf]
        · have hskip : j + (n + 1) - (g (x :: rest.take n)).length = j := by omega
          rw [hskip]

end Places

variable {m : Model} {texts : List String}

/-! ## Vectors of the fixed length -/

theorem length_fit (v : List Value) : (fit v).length = dimensions := by
  rw [fit, List.length_take, List.length_append, List.length_replicate]
  omega

theorem length_zero : zero.length = dimensions := List.length_replicate

theorem length_single (m : Model) (text : String) : (single m text).length = dimensions := by
  rw [single]
  split
  · exact length_fit _
  · exact length_zero

/-! ## Chunks -/

/-- One text on which the model fails, and the whole chunk has zero vectors. -/
theorem chunk_of_fails (h : m.failsIn texts = true) :
    chunk m (texts.map some) = texts.map fun _ => zero := by
  have hnone : ((texts.map some).mapM fun item => item.bind fun text => m.embed (clean text))
      = none := by
    induction texts with
    | nil => exact absurd h Bool.false_ne_true
    | cons text rest ih =>
        rw [List.map_cons, List.mapM_cons, Option.bind_some]
        cases htext : m.embed (clean text) with
        | none => rfl
        | some v =>
            -- the text itself is embedded, so the failure is among the others
            have hrest : m.failsIn rest = true := by
              rw [Model.failsIn, List.any_cons, htext] at h
              exact h
            rw [ih hrest]
            rfl
  rw [chunk, hnone]
  exact List.map_map

/-- Without such a text each vector is that of its own text. -/
theorem chunk_of_embeds (h : m.failsIn texts = false) :
    chunk m (texts.map some) = texts.map fun text => single m (clean text) := by
  have hall : ∃ vs, ((texts.map some).mapM fun item => item.bind fun text => m.embed (clean text))
        = some vs ∧ vs.map fit = texts.map fun text => single m (clean text) := by
    induction texts with
    | nil => exact ⟨[], rfl, rfl⟩
    | cons text rest ih =>
        rw [Model.failsIn, List.any_cons, Bool.or_eq_false_iff] at h
        obtain ⟨vs, hvs, hfit⟩ := ih h.2
        obtain ⟨v, hv⟩ : ∃ v, m.embed (clean text) = some v :=
          Option.isSome_iff_exists.mp (by rw [← Option.not_isNone, h.1]; rfl)
        refine ⟨v :: vs, ?_, ?_⟩
        · rw [List.map_cons, List.mapM_cons, hvs, Option.bind_some, hv]
          rfl
        · rw [List.map_cons, List.map_cons, hfit, single, hv]
  obtain ⟨vs, hvs, hfit⟩ := hall
  rw [chunk, hvs]
  exact hfit

/-! ## Batches -/

/-- A batch that is not cut is one chunk, so that all batches are made of chunks. -/
theorem batch_eq_flatMap (m : Model) (texts : List String) :
    batch m texts
      = (chunksOf (chunkSize - 1) texts).flatMap fun c => chunk m (c.map some) := by
  have hchunks : (chunksOf (chunkSize - 1) (texts.map some)).flatMap (chunk m)
      = (chunksOf (chunkSize - 1) texts).flatMap fun c => chunk m (c.map some) := by
    rw [← map_chunksOf, List.flatMap_map]
  rw [batch, batchItems, ← hchunks]
  split
  · rfl
  next hsmall =>
    cases texts with
    | nil => rw [List.map_nil, chunksOf]; rfl
    | cons text rest =>
        have hrest : (rest.map some).length ≤ chunkSize - 1 := by
          rw [List.map_cons, List.length_cons] at hsmall
          omega
        rw [List.map_cons, chunksOf, List.take_of_length_le hrest, List.drop_of_length_le hrest,
          chunksOf, List.flatMap_singleton]

/-- The vector at a place: that of the text alone, unless the model fails in its chunk. -/
theorem getElem?_batch (m : Model) (texts : List String) (i : Nat) :
    (batch m texts)[i]? = texts[i]?.map fun text =>
      if m.failsIn (chunkAt chunkSize texts i) then zero else single m (clean text) := by
  have hlength : ∀ c : List String, (chunk m (c.map some)).length = c.length := by
    intro c
    rw [length_chunk, List.length_map]
  have hsize : chunkSize - 1 + 1 = chunkSize := rfl
  rw [batch_eq_flatMap, getElem?_flatMap_chunksOf hlength, hsize,
    ← getElem?_chunkAt (by decide : 0 < chunkSize) texts i]
  cases hfails : m.failsIn (chunkAt chunkSize texts i) with
  | true =>
      rw [chunk_of_fails hfails, List.getElem?_map]
      rfl
  | false =>
      rw [chunk_of_embeds hfails, List.getElem?_map]
      rfl

theorem length_of_mem_batch {v : List Value} (h : v ∈ batch m texts) : v.length = dimensions := by
  obtain ⟨i, hi⟩ := List.mem_iff_getElem?.mp h
  rw [getElem?_batch] at hi
  obtain ⟨text, -, rfl⟩ := Option.map_eq_some_iff.mp hi
  split
  · exact length_zero
  · exact length_single m (clean text)

/-- A batch has one vector for each text, all of one length. A place has the zero vector if the
model fails on a text of the chunk that the place falls into, and else the vector that the text at
this place has alone. -/
theorem batch_agrees_by_chunks (m : Model) (texts : List String) :
    (batch m texts).length = texts.length ∧
      (∀ v ∈ batch m texts, v.length = 300) ∧
      ∀ i, (batch m texts)[i]? = texts[i]?.map fun text =>
        if ((texts.drop (50 * (i / 50))).take 50).any fun t => (m.embed (clean t)).isNone then
          List.replicate 300 (.float 0.0)
        else single m (clean text) :=
  ⟨length_batch m texts, fun _ hv => length_of_mem_batch hv, getElem?_batch m texts⟩

/-- A model that fails on one text. -/
def fussy : Model :=
  { name := "fussy", embed := fun text => if text = "bad" then none else some [.text text]
    vectors := none, vocabulary := 0, pipeline := [] }

/-- The first text of fifty-one costs all of the first chunk its vectors, and not the last text. -/
theorem batch_agrees_by_chunks_fussy :
    let texts := " bad\n" :: List.replicate 50 "ok"
    (batch fussy texts)[49]? = some (List.replicate 300 (.float 0.0)) ∧
      (batch fussy texts)[50]? = some (single fussy "ok") ∧
      ∀ v ∈ batch fussy texts, v.length = 300 := by
  intro texts
  obtain ⟨-, hlength, hplace⟩ := batch_agrees_by_chunks fussy texts
  have hfails : (((texts.drop (50 * (49 / 50))).take 50).any
        fun t => (fussy.embed (clean t)).isNone) = true ∧
      (((texts.drop (50 * (50 / 50))).take 50).any
        fun t => (fussy.embed (clean t)).isNone) = false := by
    decide +kernel
  refine ⟨?_, ?_, hlength⟩
  · rw [hplace 49, hfails.1]
    rfl
  · rw [hplace 50, hfails.2]
    rfl

end Embedding

end SymbolAtlas
