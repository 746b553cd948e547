/-
  SymbolAtlas.Proofs.Batches: cutting lists into chunks.

  Chunks put together again are the list that was cut, so a batch has one vector for each of its
  texts, whichever chunks they fall into and whether the model fails on them or not.
-/

import SymbolAtlas.Embedding

namespace SymbolAtlas.Embedding

theorem flatten_chunksOf {α : Type} (n : Nat) (xs : List α) : (chunksOf n xs).flatten = xs := by
  fun_induction chunksOf n xs with
  | case1 => rfl
  | case2 x rest ih => rw [List.flatten_cons, ih, List.cons_append, List.take_append_drop]

theorem map_chunksOf {α β : Type} (f : α → β) (n : Nat) (xs : List α) :
    (chunksOf n xs).map (List.map f) = chunksOf n (xs.map f) := by
  fun_induction chunksOf n xs with
  | case1 => rw [List.map_nil, List.map_nil, chunksOf]
  | case2 x rest ih =>
      rw [List.map_cons, List.map_cons, List.map_cons, chunksOf, ih, List.map_take, List.map_drop]

theorem length_of_mapM_some {α β : Type} {f : α → Option β} {xs : List α} {ys : List β}
    (h : xs.mapM f = some ys) : ys.length = xs.length := by
  induction xs generalizing ys with
  | nil =>
      rw [List.mapM_nil] at h
      cases h
      rfl
  | cons x rest ih =>
      rw [List.mapM_cons] at h
      simp only [Option.bind_eq_bind, Option.bind_eq_some_iff] at h
      obtain ⟨y, -, ys', hys, h⟩ := h
      cases h
      rw [List.length_cons, List.length_cons, ih hys]

/-- A chunk has a vector for each item, also when the model fails on one of them. -/
theorem length_chunk (m : Model) (items : List (Option String)) :
    (chunk m items).length = items.length := by
  rw [chunk]
  split
  next vs hvs => rw [List.length_map, length_of_mapM_some hvs]
  next => rw [List.length_map]

theorem length_flatMap_of_length {α β : Type} {g : List α → List β}
    (h : ∀ c, (g c).length = c.length) (cs : List (List α)) :
    (cs.flatMap g).length = cs.flatten.length := by
  induction cs with
  | nil => rfl
  | cons c rest ih =>
      rw [List.flatMap_cons, List.flatten_cons, List.length_append, List.length_append, h, ih]

/-- A batch has a vector for each text. -/
theorem length_batch (m : Model) (texts : List String) :
    (batch m texts).length = texts.length := by
  rw [batch, batchItems]
  split
  · rw [length_flatMap_of_length (length_chunk m), flatten_chunksOf, List.length_map]
  · rw [length_chunk, List.length_map]

end SymbolAtlas.Embedding
