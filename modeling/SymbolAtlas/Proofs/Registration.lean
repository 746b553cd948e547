/-
  SymbolAtlas.Proofs.Registration: which dialect reads a language once dialects were registered.

  A registry gives the dialect that was registered last for a language, and what it gave before for
  a language that was not registered (`get?_registerAll`). The `code` dialect asks its own table
  first, which no registration changes: it follows the registry for the languages outside of that
  table only, and goes its own way where another dialect is registered for a language of the table.
-/

import SymbolAtlas.Registry

namespace SymbolAtlas

namespace Registry

/-! ## Registrations -/

theorem find?_putEntry (language : String) (d : Dialect) (es : List (String × Dialect))
    (other : String) :
    ((putEntry language d es).find? (·.1 == other)).map (·.2)
      = if other = language then some d else (es.find? (·.1 == other)).map (·.2) := by
  induction es with
  | nil =>
      by_cases hother : other = language
      · simp [putEntry, hother]
      · simp [putEntry, hother, Ne.symm hother]
  | cons e rest ih =>
      obtain ⟨l, d'⟩ := e
      rw [putEntry]
      split
      next hl =>
        -- the entry that is replaced hides those behind it
        by_cases hother : other = language
        · simp [hl, hother]
        · simp [hl, hother, Ne.symm hother]
      next hl =>
        by_cases hfirst : l = other
        · have hother : other ≠ language := fun h => hl (hfirst.trans h)
          simp [hfirst, hother]
        · rw [List.find?_cons_of_neg (by simpa using hfirst), ih,
            List.find?_cons_of_neg (by simpa using hfirst)]

/-- A registration is found for its language, and changes nothing for another one. -/
theorem get?_register (r : Registry) (language : String) (d : Dialect) (other : String) :
    (r.register language d).get? other = if other = language then some d else r.get? other :=
  find?_putEntry language d r.entries other

/-- Registers dialects, one after another. -/
def registerAll (r : Registry) (calls : List (String × Dialect)) : Registry :=
  calls.foldl (fun r call => r.register call.1 call.2) r

/-- The dialect that is registered last for a language. -/
def lastFor? (calls : List (String × Dialect)) (language : String) : Option Dialect :=
  (calls.reverse.find? (·.1 == language)).map (·.2)

theorem lastFor?_cons (call : String × Dialect) (calls : List (String × Dialect))
    (language : String) :
    lastFor? (call :: calls) language
      = (lastFor? calls language).or (if language = call.1 then some call.2 else none) := by
  rw [lastFor?, List.reverse_cons, List.find?_append, Option.map_or, lastFor?]
  congr 1
  by_cases hcall : language = call.1
  · simp [hcall]
  · simp [hcall, Ne.symm hcall]

/-- After all registrations the last one for a language is found. -/
theorem get?_registerAll (r : Registry) (calls : List (String × Dialect)) (language : String) :
    (r.registerAll calls).get? language = (lastFor? calls language).or (r.get? language) := by
  induction calls generalizing r with
  | nil => rfl
  | cons call rest ih =>
      have hstep : (r.registerAll (call :: rest)).get? language
          = (lastFor? rest language).or ((r.register call.1 call.2).get? language) := ih _
      rw [hstep, get?_register, lastFor?_cons, Option.or_assoc]
      congr 1
      split <;> rfl

/-! ## Tables -/

theorem get?_eq_none_iff {r : Registry} {language : String} :
    r.get? language = none ↔ language ∉ r.languages := by
  rw [get?, Option.map_eq_none_iff, List.find?_eq_none, languages, List.mem_map]
  simp only [beq_iff_eq, not_exists, not_and]

/-- What is known from the start is read by `code` in the same way. -/
theorem builtin_of_standard {language : String} {d : Dialect}
    (h : standard.get? language = some d) : builtin.get? language = some d := by
  rw [get?, builtin, List.find?_append, Option.map_or]
  rw [get?] at h
  rw [h, Option.some_or]

end Registry

namespace Dialect

open Registry

theorem delegate?_code (r : Registry) (language : String) :
    code.delegate? r language = (builtin.get? language).or (r.get? language) := by
  rw [delegate?]
  cases builtin.get? language <;> rfl

/-- For every sequence of registrations: a language outside of the table of `code` is read by the
dialect that was registered last for it, or by none, whichever dialect asks. A language of the table
is read by the table's dialect where `code` asks, and by the dialect registered last where `bare`
asks; so the two agree if and only if that is the dialect of the table. They also agree on a
language that is known from the start and is not registered again. -/
theorem delegates_after_registrations (calls : List (String × Dialect)) (language : String) :
    let registry := standard.registerAll calls
    let last := lastFor? calls language
    (language ∉ builtin.languages →
      code.delegate? registry language = last ∧ bare.delegate? registry language = last) ∧
    (∀ own, builtin.get? language = some own →
      code.delegate? registry language = some own ∧
      ∀ d, last = some d → bare.delegate? registry language = some d ∧
        (code.delegate? registry language = bare.delegate? registry language ↔ d = own)) ∧
    (last = none → language ∈ standard.languages →
      code.delegate? registry language = bare.delegate? registry language ∧
        bare.delegate? registry language ≠ none) := by
  intro registry last
  have hbare : bare.delegate? registry language = last.or (standard.get? language) :=
    get?_registerAll standard calls language
  have hcode : code.delegate? registry language
      = (builtin.get? language).or (bare.delegate? registry language) :=
    delegate?_code registry language
  refine ⟨fun houtside => ?_, fun own hown => ?_, fun hlast hknown => ?_⟩
  · have hbuiltin : builtin.get? language = none := get?_eq_none_iff.mpr houtside
    -- all that is standard is built in
    have hstandard : standard.get? language = none := by
      cases h : standard.get? language with
      | none => rfl
      | some d => exact absurd (builtin_of_standard h) (by simp [hbuiltin])
    rw [hstandard, Option.or_none] at hbare
    rw [hbuiltin, Option.none_or, hbare] at hcode
    exact ⟨hcode, hbare⟩
  · rw [hown, Option.some_or] at hcode
    refine ⟨hcode, fun d hd => ?_⟩
    rw [hd, Option.some_or] at hbare
    rw [hcode, hbare]
    exact ⟨rfl, by simp [eq_comm]⟩
  · cases h : standard.get? language with
    | none => exact absurd hknown (get?_eq_none_iff.mp h)
    | some d =>
        rw [hlast, h, Option.none_or] at hbare
        rw [builtin_of_standard h, Option.some_or] at hcode
        rw [hcode, hbare]
        exact ⟨rfl, Option.some_ne_none d⟩

/-- A new language that is registered twice, a language of the table that is registered anew, and
one that is not registered. -/
theorem delegates_after_registrations_three :
    let calls : List (String × Dialect) := [("elm", .python), ("python", .go), ("elm", .ruby)]
    let registry := standard.registerAll calls
    ("elm" ∉ builtin.languages ∧
      code.delegate? registry "elm" = some .ruby ∧ bare.delegate? registry "elm" = some .ruby) ∧
    (builtin.get? "python" = some .python ∧ lastFor? calls "python" = some .go ∧
      code.delegate? registry "python" = some .python ∧
      bare.delegate? registry "python" = some .go) ∧
    (lastFor? calls "rust" = none ∧ "rust" ∈ standard.languages ∧
      code.delegate? registry "rust" = bare.delegate? registry "rust") := by
  intro calls registry
  have hnew : "elm" ∉ builtin.languages ∧ lastFor? calls "elm" = some .ruby := by decide
  have hknown : builtin.get? "python" = some .python ∧ lastFor? calls "python" = some .go := by
    decide
  have hother : lastFor? calls "rust" = none ∧ "rust" ∈ standard.languages := by decide
  have helm := (delegates_after_registrations calls "elm").1 hnew.1
  obtain ⟨hcode, hlast⟩ := (delegates_after_registrations calls "python").2.1 .python hknown.1
  rw [hnew.2] at helm
  exact ⟨⟨hnew.1, helm⟩, ⟨hknown.1, hknown.2, hcode, (hlast .go hknown.2).1⟩, hother.1, hother.2,
    ((delegates_after_registrations calls "rust").2.2 hother.1 hother.2).1⟩

/-- A registration for a language of the table of `code` does not reach `code`. -/
theorem registration_passes_code_by :
    let calls : List (String × Dialect) := [("python", .go)]
    let registry := standard.registerAll calls
    lastFor? calls "python" = some .go ∧ bare.delegate? registry "python" = some .go ∧
      code.delegate? registry "python" = some .python := by
  decide

end Dialect

end SymbolAtlas
