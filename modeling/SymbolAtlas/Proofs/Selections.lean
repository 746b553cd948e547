/-
  SymbolAtlas.Proofs.Selections: rows that are selected by their keys.

  What a list of distinct keys selects falls apart into what each key selects
  (`filter_contains_perm`). With all the keys that there are, nothing is left out
  (`perm_flatMap_eraseDups`).
-/

import Mathlib.Data.List.Perm.Subperm

namespace SymbolAtlas

variable {α β : Type}

/-- A selection by one of two conditions: what meets the first, and of what meets the second the
rest. -/
theorem filter_or_perm (p q : α → Bool) (l : List α) :
    (l.filter fun a => p a || q a).Perm
      (l.filter p ++ (l.filter q).filter fun a => !p a) := by
  have hsplit := (List.filter_append_perm p (l.filter fun a => p a || q a)).symm
  rw [List.filter_filter, List.filter_filter] at hsplit
  rw [List.filter_filter]
  have hfirst : (l.filter fun a => p a && (p a || q a)) = l.filter p := by
    congr 1
    funext a
    cases p a <;> rfl
  have hsecond : (l.filter fun a => !p a && (p a || q a)) = l.filter fun a => !p a && q a := by
    congr 1
    funext a
    cases p a <;> rfl
  rwa [hfirst, hsecond] at hsplit

/-! ## Keys -/

variable [BEq β] [LawfulBEq β]

/-- A selection by a list of keys, key by key. -/
theorem filter_contains_perm (f : α → β) {keys : List β} (h : keys.Nodup) (l : List α) :
    (l.filter fun a => keys.contains (f a)).Perm
      (keys.flatMap fun k => l.filter fun a => f a == k) := by
  induction keys with
  | nil => simp
  | cons k rest ih =>
      obtain ⟨hk, hrest⟩ := List.nodup_cons.mp h
      rw [List.flatMap_cons]
      have hcons : (l.filter fun a => (k :: rest).contains (f a))
          = l.filter fun a => f a == k || rest.contains (f a) := by
        congr 1
      rw [hcons]
      refine (filter_or_perm _ _ l).trans (List.Perm.append_left _ ?_)
      rw [List.filter_eq_self.mpr]
      · exact ih hrest
      · intro a ha
        -- the key stands in the list only once
        have hmem : f a ∈ rest := List.contains_iff_mem.mp (List.mem_filter.mp ha).2
        have hne : f a ≠ k := fun heq => hk (heq ▸ hmem)
        simpa using hne

theorem nodup_eraseDups (keys : List β) : keys.eraseDups.Nodup := by
  match keys with
  | [] => exact List.nodup_nil
  | key :: rest =>
      rw [List.eraseDups_cons, List.nodup_cons]
      exact ⟨by simp [List.mem_eraseDups], nodup_eraseDups _⟩
termination_by keys.length
decreasing_by exact Nat.lt_succ_of_le (List.length_filter_le _ _)

theorem length_eraseDups_le (keys : List β) : keys.eraseDups.length ≤ keys.length := by
  have hsub : keys.eraseDups ⊆ keys := fun _ h => List.mem_eraseDups.mp h
  exact ((nodup_eraseDups keys).subperm hsub).length_le

/-- Each row has one of the keys that there are. -/
theorem perm_flatMap_eraseDups (f : α → β) (l : List α) :
    l.Perm ((l.map f).eraseDups.flatMap fun k => l.filter fun a => f a == k) := by
  have hall : (l.filter fun a => (l.map f).eraseDups.contains (f a)) = l := by
    rw [List.filter_eq_self]
    intro a ha
    rw [List.contains_iff_mem, List.mem_eraseDups]
    exact List.mem_map_of_mem ha
  have hparts := filter_contains_perm f (nodup_eraseDups (l.map f)) l
  rwa [hall] at hparts

end SymbolAtlas
