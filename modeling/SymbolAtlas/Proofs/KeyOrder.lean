/-
  SymbolAtlas.Proofs.KeyOrder: lists that are sorted by keys.

  Whole numbers and texts are compared exactly, and keys that are made of them are in a linear
  order (`lexLe_trans`, `lexLe_total`). Doubles are not: a whole number and a double can be of one
  size and yet not be equal, so that what follows them in a key is not looked at.
-/

import SymbolAtlas.Store.Cell

namespace SymbolAtlas

namespace Cell

variable {a b c : Cell} {as bs cs : List Cell}

/-- Whether a cell is a whole number or a text. -/
def Exact : Cell → Prop
  | .int _ | .text _ => True
  | .real _ => False

/-- Whether a key is made of whole numbers and texts. -/
def ExactKey (key : List Cell) : Prop := ∀ c ∈ key, c.Exact

theorem exactKey_cons : ExactKey (a :: as) ↔ a.Exact ∧ ExactKey as := List.forall_mem_cons

/-! ## Single cells -/

theorem le_trans (ha : a.Exact) (hb : b.Exact) (hc : c.Exact) (hab : a.le b = true)
    (hbc : b.le c = true) : a.le c = true := by
  match a, b, c, ha, hb, hc with
  | .int _, .int _, .int _, _, _, _ =>
      simp only [le, decide_eq_true_eq] at *
      omega
  | .int _, .int _, .text _, _, _, _ | .int _, .text _, .text _, _, _, _ => rfl
  | .int _, .text _, .int _, _, _, _ | .text _, .text _, .int _, _, _, _ => cases hbc
  | .text _, .int _, _, _, _, _ => cases hab
  | .text _, .text _, .text _, _, _, _ =>
      simp only [le, decide_eq_true_eq] at *
      exact String.le_trans hab hbc

theorem le_antisymm (ha : a.Exact) (hb : b.Exact) (hab : a.le b = true) (hba : b.le a = true) :
    a = b := by
  match a, b, ha, hb with
  | .int _, .int _, _, _ =>
      simp only [le, decide_eq_true_eq] at *
      exact congrArg Cell.int (Int.le_antisymm hab hba)
  | .int _, .text _, _, _ => cases hba
  | .text _, .int _, _, _ => cases hab
  | .text _, .text _, _, _ =>
      simp only [le, decide_eq_true_eq] at *
      exact congrArg Cell.text (String.le_antisymm hab hba)

theorem le_total (ha : a.Exact) (hb : b.Exact) : a.le b = true ∨ b.le a = true := by
  match a, b, ha, hb with
  | .int m, .int n, _, _ =>
      simp only [le, decide_eq_true_eq]
      omega
  | .int _, .text _, _, _ => exact .inl rfl
  | .text _, .int _, _, _ => exact .inr rfl
  | .text s, .text t, _, _ =>
      simp only [le, decide_eq_true_eq]
      exact String.le_total s t

/-! ## Keys -/

theorem lexLe_cons : lexLe (a :: as) (b :: bs) = true ↔
    a = b ∧ lexLe as bs = true ∨ a ≠ b ∧ a.le b = true := by
  rw [lexLe]
  by_cases h : a = b
  · simp [h]
  · simp [h]

theorem lexLe_trans (ha : ExactKey as) (hb : ExactKey bs) (hc : ExactKey cs)
    (hab : lexLe as bs = true) (hbc : lexLe bs cs = true) : lexLe as cs = true := by
  induction as generalizing bs cs with
  | nil => rfl
  | cons a as ih =>
      match bs, cs with
      | [], _ => cases hab
      | _ :: _, [] => cases hbc
      | b :: bs, c :: cs =>
          obtain ⟨ha, has⟩ := exactKey_cons.mp ha
          obtain ⟨hb, hbs⟩ := exactKey_cons.mp hb
          obtain ⟨hc, hcs⟩ := exactKey_cons.mp hc
          rw [lexLe_cons] at *
          rcases hab with ⟨rfl, hab⟩ | ⟨hne, hab⟩
          · rcases hbc with ⟨rfl, hbc⟩ | ⟨hne, hbc⟩
            · exact .inl ⟨rfl, ih has hbs hcs hab hbc⟩
            · exact .inr ⟨hne, hbc⟩
          · rcases hbc with ⟨rfl, -⟩ | ⟨-, hbc⟩
            · exact .inr ⟨hne, hab⟩
            · refine .inr ⟨?_, le_trans ha hb hc hab hbc⟩
              rintro rfl
              exact hne (le_antisymm ha hb hab hbc)

theorem lexLe_total (ha : ExactKey as) (hb : ExactKey bs) :
    lexLe as bs = true ∨ lexLe bs as = true := by
  induction as generalizing bs with
  | nil => exact .inl rfl
  | cons a as ih =>
      cases bs with
      | nil => exact .inr rfl
      | cons b bs =>
          obtain ⟨ha, has⟩ := exactKey_cons.mp ha
          obtain ⟨hb, hbs⟩ := exactKey_cons.mp hb
          rw [lexLe_cons, lexLe_cons]
          by_cases h : a = b
          · exact (ih has hbs).imp (fun hle => .inl ⟨h, hle⟩) fun hle => .inl ⟨h.symm, hle⟩
          · exact (le_total ha hb).imp (fun hle => .inr ⟨h, hle⟩)
              fun hle => .inr ⟨Ne.symm h, hle⟩

/-- Keys that begin with texts go by the texts first. -/
theorem lexLe_text {s t : String} : lexLe (.text s :: as) (.text t :: bs) = true ↔
    s < t ∨ s = t ∧ lexLe as bs = true := by
  rw [lexLe_cons, ne_eq, Cell.text.injEq]
  by_cases h : s = t
  · subst h
    simp
  · have hlt : s ≤ t ↔ s < t :=
      ⟨fun hle => String.not_le.mp fun hge => h (String.le_antisymm hle hge),
        fun hlt => String.not_lt.mp fun hgt => String.lt_irrefl s (String.lt_trans hlt hgt)⟩
    simp [h, le, hlt]

end Cell

/-! ## Sorted lists -/

namespace Store

variable {α : Type} {key : α → List Cell}

theorem sortByKey_perm (key : α → List Cell) (xs : List α) : (sortByKey key xs).Perm xs :=
  List.mergeSort_perm _ _

@[simp] theorem mem_sortByKey {xs : List α} {a : α} : a ∈ sortByKey key xs ↔ a ∈ xs :=
  List.mem_mergeSort

theorem sortByKey_eq_nil {xs : List α} : sortByKey key xs = [] ↔ xs = [] := by
  rw [sortByKey, ← List.length_eq_zero_iff, List.length_mergeSort, List.length_eq_zero_iff]

/-- What is sorted by keys of whole numbers and texts is in the order of the keys. -/
theorem pairwise_sortByKey (h : ∀ a, Cell.ExactKey (key a)) (xs : List α) :
    (sortByKey key xs).Pairwise fun a b => Cell.lexLe (key a) (key b) = true := by
  refine List.pairwise_mergeSort ?_ ?_ xs
  · exact fun a b c => Cell.lexLe_trans (h a) (h b) (h c)
  · exact fun a b => (Bool.or_eq_true _ _).mpr (Cell.lexLe_total (h a) (h b))

end Store

end SymbolAtlas
