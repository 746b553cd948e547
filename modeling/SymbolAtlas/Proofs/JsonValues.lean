/-
  SymbolAtlas.Proofs.JsonValues: where the value symbols of a JSON document come from.

  Numbers, truth values and nulls are looked for line by line behind colons. A colon of a document
  belongs to a member or stands inside a text in quotes. Behind the colon of a member the whole
  scalar is found, if it is on the same line (`MemberAt.mem_sites`). Inside a text whatever looks
  like a value is found as well (`MentionedAt.exists_site`), and nothing else is found
  (`sound_of_mem_sites`).
-/

import SymbolAtlas.Proofs.FunctionHeaders
import SymbolAtlas.Proofs.JsonGrammar
import SymbolAtlas.Proofs.Places

namespace SymbolAtlas.JsonText

open Pattern

/-! ## What looks like a value -/

/-- The sorts of scalars. -/
inductive Sense where
  | number | truth | null
  deriving DecidableEq, Repr

/-- The sort of a scalar. -/
def Scalar.sense : Scalar → Sense
  | .number _ => .number
  | .truth _ => .truth
  | .null => .null

namespace Sense

/-- Whether a text looks like a scalar of a sort. Numbers may have digits of any script, and zeros
in front. -/
def Looks : Sense → List Char → Prop
  | .number, w => ∃ sign whole fraction exponent,
      NumeralParts Text.isDecimal sign whole fraction exponent ∧
      w = sign ++ (whole ++ (fraction ++ exponent))
  | .truth, w => w = "true".toList ∨ w = "false".toList
  | .null, w => w = "null".toList

/-- The pattern that finds the scalars of a sort. -/
def pattern : Sense → Pattern
  | .number => numeral 1
  | .truth => JsonText.truth 1
  | .null => lit "null"

/-- What is remembered of a scalar that is found. -/
def remembered : Sense → List Char → List (Nat × List Char)
  | .null, _ => []
  | _, w => [(1, w)]

/-- The sort of the scalars that begin with a character. -/
def of? (c : Char) : Option Sense :=
  if c == 't' || c == 'f' then some .truth
  else if c == 'n' then some .null
  else if c == '-' || Text.isDecimal c then some .number
  else none

end Sense

variable {k : Sense} {w cs rest : List Char} {parts : List (Nat × List Char)} {x : Cursor}

theorem Digits.mono {p q : Char → Bool} (hpq : ∀ c, p c = true → q c = true) (h : Digits p cs) :
    Digits q cs :=
  ⟨h.ne_nil, fun c hc => hpq c (h.digits c hc)⟩

theorem NumeralParts.mono {p q : Char → Bool} (hpq : ∀ c, p c = true → q c = true)
    {sign whole fraction exponent : List Char}
    (h : NumeralParts p sign whole fraction exponent) :
    NumeralParts q sign whole fraction exponent := by
  refine ⟨h.minus, h.digits.mono hpq, h.point.imp_right ?_, h.power.imp_right ?_⟩
  · rintro ⟨ds, hds, heq⟩
    exact ⟨ds, hds.mono hpq, heq⟩
  · rintro ⟨e, plus, ds, he, hplus, hds, heq⟩
    exact ⟨e, plus, ds, he, hplus, hds.mono hpq, heq⟩

theorem isDecimal_of_isDigit (c : Char) (h : c.isDigit = true) : Text.isDecimal c = true := by
  rw [Text.isDecimal, h, Bool.true_or]

/-- A scalar looks like what it is. -/
theorem Scalar.looks (v : Scalar) : v.sense.Looks v.chars := by
  cases v with
  | number n =>
      obtain ⟨sign, whole, fraction, exponent, hparts, -, hchars⟩ := n.parts
      exact ⟨sign, whole, fraction, exponent, hparts.mono isDecimal_of_isDigit, hchars⟩
  | truth b =>
      cases b with
      | true => exact .inl rfl
      | false => exact .inr rfl
  | null => rfl

/-! ## Texts of the patterns -/

theorem holds_digit (c : Char) : CharClass.digit.holds c = Text.isDecimal c := by
  simp [CharClass.holds, CharClass.digit, ClassItem.holds]

theorem takes_digits_iff :
    (plus .digit).Takes cs parts ↔ Digits Text.isDecimal cs ∧ parts = [] := by
  rw [plus, takes_many_iff]
  simp only [holds_digit, Nat.one_le_iff_ne_zero, ne_eq, List.length_eq_zero_iff]
  constructor
  · rintro ⟨hcs, hne, rfl⟩
    exact ⟨⟨hne, hcs⟩, rfl⟩
  · rintro ⟨⟨hne, hcs⟩, rfl⟩
    exact ⟨hcs, hne, rfl⟩

theorem takes_fraction_iff :
    (lit "." ++ plus .digit).Takes cs parts ↔
      (∃ ds, Digits Text.isDecimal ds ∧ cs = '.' :: ds) ∧ parts = [] := by
  rw [takes_append_silent_iff takes_digits_iff]
  simp only [takes_lit_iff]
  constructor
  · rintro ⟨_, ds, ⟨rfl, rfl⟩, hds, rfl⟩
    exact ⟨⟨ds, hds, rfl⟩, rfl⟩
  · rintro ⟨⟨ds, hds, rfl⟩, rfl⟩
    exact ⟨_, ds, ⟨rfl, rfl⟩, hds, rfl⟩

theorem holds_among {c d e : Char} {s : String} (hs : s.toList = [d, e]) :
    (CharClass.among s).holds c = true ↔ c = d ∨ c = e := by
  simp [CharClass.among, CharClass.holds, ClassItem.holds, hs]

theorem holds_letter (c : Char) : (CharClass.among "eE").holds c = true ↔ c = 'e' ∨ c = 'E' :=
  holds_among rfl

theorem holds_sign (c : Char) : (CharClass.among "+-").holds c = true ↔ c = '+' ∨ c = '-' :=
  holds_among rfl

theorem takes_exponent_iff :
    (one (.among "eE") ++ opt (one (.among "+-")) ++ plus .digit).Takes cs parts ↔
      (∃ e plus ds, (e = 'e' ∨ e = 'E') ∧ (plus = [] ∨ plus = ['+'] ∨ plus = ['-']) ∧
        Digits Text.isDecimal ds ∧ cs = e :: (plus ++ ds)) ∧ parts = [] := by
  have hsign : ∀ {bs : List Char}, (∃ c, (CharClass.among "+-").holds c = true ∧ bs = [c]) ↔
      bs = ['+'] ∨ bs = ['-'] := by
    intro bs
    simp only [holds_sign]
    constructor
    · rintro ⟨c, rfl | rfl, rfl⟩
      · exact .inl rfl
      · exact .inr rfl
    · rintro (rfl | rfl)
      · exact ⟨'+', .inl rfl, rfl⟩
      · exact ⟨'-', .inr rfl, rfl⟩
  rw [takes_append_silent_iff takes_digits_iff]
  simp only [takes_append_silent_iff (takes_opt_silent_iff takes_one_iff), takes_one_iff, hsign,
    holds_letter]
  constructor
  · rintro ⟨_, ds, ⟨_, plus, ⟨⟨e, he, rfl⟩, rfl⟩, hplus, rfl⟩, hds, rfl⟩
    exact ⟨⟨e, plus, ds, he, hplus, hds, rfl⟩, rfl⟩
  · rintro ⟨⟨e, plus, ds, he, hplus, hds, rfl⟩, rfl⟩
    exact ⟨_, ds, ⟨_, plus, ⟨⟨e, he, rfl⟩, rfl⟩, hplus, rfl⟩, hds, rfl⟩

theorem takes_numeral_iff {n : Nat} :
    (numeral n).Takes w parts ↔ Sense.number.Looks w ∧ parts = [(n, w)] := by
  rw [numeral, takes_capture_iff]
  simp only [takes_append_silent_iff (takes_opt_silent_iff takes_exponent_iff),
    takes_append_silent_iff (takes_opt_silent_iff takes_fraction_iff),
    takes_append_silent_iff takes_digits_iff, takes_opt_silent_iff takes_lit_iff]
  constructor
  · rintro ⟨_, ⟨_, exponent, ⟨_, fraction, ⟨sign, whole, ⟨hsign, rfl⟩, hwhole, rfl⟩, hfraction,
      rfl⟩, hexponent, rfl⟩, rfl⟩
    refine ⟨⟨sign, whole, fraction, exponent, ⟨hsign, hwhole, hfraction, hexponent⟩, ?_⟩, rfl⟩
    rw [List.append_assoc, List.append_assoc]
  · rintro ⟨⟨sign, whole, fraction, exponent, hparts, rfl⟩, rfl⟩
    refine ⟨_, ⟨_, exponent, ⟨_, fraction, ⟨sign, whole, ⟨hparts.minus, rfl⟩, hparts.digits, rfl⟩,
      hparts.point, rfl⟩, hparts.power, ?_⟩, rfl⟩
    rw [List.append_assoc, List.append_assoc]

theorem takes_truth_iff {n : Nat} :
    (truth n).Takes w parts ↔ Sense.truth.Looks w ∧ parts = [(n, w)] := by
  have heither : ∀ {bs qs}, (anyOf ["true", "false"]).Takes bs qs ↔
      Sense.truth.Looks bs ∧ qs = [] := by
    intro bs qs
    rw [takes_anyOf_iff (List.cons_ne_nil _ _)]
    simp [Sense.Looks]
  rw [truth, takes_capture_iff]
  constructor
  · rintro ⟨ps, hps, rfl⟩
    obtain ⟨hw, rfl⟩ := heither.mp hps
    exact ⟨hw, rfl⟩
  · rintro ⟨hw, rfl⟩
    exact ⟨[], heither.mpr ⟨hw, rfl⟩, rfl⟩

theorem takes_pattern_iff :
    k.pattern.Takes w parts ↔ k.Looks w ∧ parts = k.remembered w := by
  cases k with
  | number => exact takes_numeral_iff
  | truth => exact takes_truth_iff
  | null => exact takes_lit_iff

/-! ## Characters of values -/

/-- Whether a character may be part of what looks like a value. -/
def isValueChar (c : Char) : Bool := Text.isDecimal c || "-+.eEtrufalsn".toList.contains c

theorem isDecimal_of_isBlank {c : Char} (h : Text.isBlank c = true) : Text.isDecimal c = false := by
  have hall : ∀ n ∈ Text.blankCodes, Text.isDecimal (Char.ofNat n) = false := by decide +kernel
  have hc := hall c.toNat (Text.mem_blankCodes h)
  rwa [Char.ofNat_toNat] at hc

theorem isBlank_of_isValueChar {c : Char} (h : isValueChar c = true) : Text.isBlank c = false := by
  rw [← Bool.not_eq_true]
  intro hblank
  rw [isValueChar, isDecimal_of_isBlank hblank, Bool.false_or, List.contains_iff_mem] at h
  have hall : ("-+.eEtrufalsn".toList.all (!Text.isBlank ·)) = true := by decide
  have hc := List.all_eq_true.mp hall c h
  rw [hblank] at hc
  exact absurd hc Bool.false_ne_true

theorem NumeralParts.isValueChar {sign whole fraction exponent : List Char}
    (h : NumeralParts Text.isDecimal sign whole fraction exponent) :
    ∀ c ∈ sign ++ (whole ++ (fraction ++ exponent)), JsonText.isValueChar c = true := by
  have hdigits : ∀ {ds : List Char}, Digits Text.isDecimal ds →
      ∀ c ∈ ds, JsonText.isValueChar c = true := by
    intro ds hds c hc
    rw [JsonText.isValueChar, hds.digits c hc, Bool.true_or]
  refine List.forall_mem_append.mpr ⟨?_, List.forall_mem_append.mpr
    ⟨hdigits h.digits, List.forall_mem_append.mpr ⟨?_, ?_⟩⟩⟩
  · rcases h.minus with rfl | rfl
    · simp
    · exact List.forall_mem_singleton.mpr rfl
  · rcases h.point with rfl | ⟨ds, hds, rfl⟩
    · simp
    · exact List.forall_mem_cons.mpr ⟨rfl, hdigits hds⟩
  · rcases h.power with rfl | ⟨e, plus, ds, he, hplus, hds, rfl⟩
    · simp
    · refine List.forall_mem_cons.mpr ⟨?_, List.forall_mem_append.mpr ⟨?_, hdigits hds⟩⟩
      · rcases he with rfl | rfl <;> rfl
      · rcases hplus with rfl | rfl | rfl
        · simp
        · exact List.forall_mem_singleton.mpr rfl
        · exact List.forall_mem_singleton.mpr rfl

theorem Sense.Looks.isValueChar (h : k.Looks w) : ∀ c ∈ w, JsonText.isValueChar c = true := by
  cases k with
  | number =>
      obtain ⟨sign, whole, fraction, exponent, hparts, rfl⟩ := h
      exact hparts.isValueChar
  | truth => rcases h with rfl | rfl <;> exact List.all_eq_true.mp (by decide)
  | null =>
      obtain rfl := h
      exact List.all_eq_true.mp (by decide)

theorem Sense.of?_of_isDecimal {c : Char} (h : Text.isDecimal c = true) :
    Sense.of? c = some .number := by
  have hne : ∀ d, Text.isDecimal d = false → (c == d) = false := by
    rintro d hd
    rw [beq_eq_false_iff_ne]
    rintro rfl
    exact absurd (hd.symm.trans h) Bool.false_ne_true
  rw [Sense.of?, hne 't' (by decide), hne 'f' (by decide), hne 'n' (by decide), h, Bool.or_true]
  rfl

/-- The first character of what looks like a value tells its sort. -/
theorem Sense.Looks.exists_cons (h : k.Looks w) : ∃ c cs, w = c :: cs ∧ Sense.of? c = some k := by
  cases k with
  | number =>
      obtain ⟨sign, whole, fraction, exponent, hparts, rfl⟩ := h
      rcases hparts.minus with rfl | rfl
      · obtain ⟨c, cs, rfl⟩ := List.exists_cons_of_ne_nil hparts.digits.ne_nil
        exact ⟨c, _, rfl, of?_of_isDecimal (hparts.digits.digits c List.mem_cons_self)⟩
      · exact ⟨'-', _, rfl, rfl⟩
  | truth =>
      rcases h with rfl | rfl
      · exact ⟨'t', _, rfl, rfl⟩
      · exact ⟨'f', _, rfl, rfl⟩
  | null =>
      obtain rfl := h
      exact ⟨'n', _, rfl, rfl⟩

/-- Where something that looks like a value comes, a value that begins there is a scalar of its
sort. -/
theorem Sense.Looks.exists_scalar (h : k.Looks w) {p : Piece} (hp : p.opens = true)
    {r r' : List Char} (heq : w ++ r = p.chars ++ r') : ∃ v, p = .scalar v ∧ v.sense = k := by
  obtain ⟨c, cs, rfl, hc⟩ := h.exists_cons
  have hhead : ∀ {d ds}, p.chars = d :: ds → Sense.of? d = some k := by
    intro d ds hd
    rw [hd] at heq
    exact (List.cons.inj heq).1 ▸ hc
  cases p with
  | space s => exact absurd hp Bool.false_ne_true
  | colon => exact absurd hp Bool.false_ne_true
  | text b => exact absurd (hhead rfl) (by cases k <;> decide)
  | mark m =>
      cases m with
      | openArray => exact absurd (hhead rfl) (by cases k <;> decide)
      | openObject => exact absurd (hhead rfl) (by cases k <;> decide)
      | _ => exact absurd hp Bool.false_ne_true
  | scalar v =>
      obtain ⟨d, ds, hd, hsense⟩ := v.looks.exists_cons
      exact ⟨v, rfl, Option.some.inj (hsense.symm.trans (hhead hd))⟩

theorem Sense.Looks.not_mem (h : k.Looks w) {c : Char} (hc : JsonText.isValueChar c = false) :
    c ∉ w := fun hmem => absurd ((h.isValueChar c hmem).symm.trans hc) (by decide)

theorem Sense.Looks.lineFeed_not_mem (h : k.Looks w) : '\n' ∉ w := h.not_mem (by decide)

theorem Sense.Looks.solid (h : k.Looks w) : Text.Solid w := by
  obtain ⟨c, cs, rfl, -⟩ := h.exists_cons
  exact ⟨List.cons_ne_nil c cs, fun d hd => isBlank_of_isValueChar (h.isValueChar d hd)⟩

/-! ## The best match of a scalar -/

theorem head?_ne_of_endsValue {c : Char} (hstop : rest.head?.all endsValue = true)
    (hc : endsValue c = false) : rest.head? ≠ some c := by
  intro hhead
  rw [hhead] at hstop
  exact absurd (hstop.symm.trans hc) (by decide)

theorem isDecimal_of_endsValue {c : Char} (h : endsValue c = true) : Text.isDecimal c = false := by
  simp only [endsValue, isSpace, Bool.or_eq_true, beq_iff_eq] at h
  rcases h with (((((rfl | rfl) | rfl) | rfl) | rfl) | rfl) | rfl <;> decide

theorem head?_any_eq_false {p : Char → Bool} (hstop : rest.head?.all endsValue = true)
    (hp : ∀ c, endsValue c = true → p c = false) : rest.head?.any p = false := by
  cases hhead : rest.head? with
  | none => rfl
  | some c =>
      rw [hhead] at hstop
      exact hp c hstop

theorem head?_digit (hstop : rest.head?.all endsValue = true) :
    rest.head?.any CharClass.digit.holds = false :=
  head?_any_eq_false hstop fun c hc => (holds_digit c).trans (isDecimal_of_endsValue hc)

variable {sign whole fraction exponent : List Char}

theorem exists_best_sign (h : NumeralParts Text.isDecimal sign whole fraction exponent)
    (hx : x.rest = sign ++ (whole ++ rest)) : ∃ y, (opt (lit "-")).Best x sign y := by
  rcases h.minus with rfl | rfl
  · obtain ⟨c, cs, rfl⟩ := List.exists_cons_of_ne_nil h.digits.ne_nil
    have hc := h.digits.digits c List.mem_cons_self
    refine ⟨x, best_opt_of_nil (ends_lit_eq_nil_of_ne rfl ?_)⟩
    rw [hx]
    rintro ⟨⟩
    exact absurd hc (by decide)
  · obtain ⟨y, hy⟩ := exists_best_lit (w := "-") hx
    exact ⟨y, hy.alt⟩

theorem exists_best_fraction (h : NumeralParts Text.isDecimal sign whole fraction exponent)
    (hx : x.rest = fraction ++ rest) (hdigit : rest.head?.any CharClass.digit.holds = false)
    (hpoint : rest.head? ≠ some '.') : ∃ y, (opt (lit "." ++ plus .digit)).Best x fraction y := by
  rcases h.point with rfl | ⟨ds, hds, rfl⟩
  · refine ⟨x, best_opt_of_nil (ends_append_eq_nil (ends_lit_eq_nil_of_ne rfl ?_))⟩
    rwa [hx]
  · obtain ⟨y, hy⟩ := exists_best_lit (w := ".") hx
    obtain ⟨z, hz⟩ := exists_best_many (hy.rest_eq hx)
      (fun c hc => by rw [holds_digit, hds.digits c hc])
      (List.length_pos_iff.mpr hds.ne_nil) hdigit
    exact ⟨z, (hy.append hz).alt⟩

theorem exists_best_exponent (h : NumeralParts Text.isDecimal sign whole fraction exponent)
    (hx : x.rest = exponent ++ rest) (hstop : rest.head?.all endsValue = true) :
    ∃ y, (opt (one (.among "eE") ++ opt (one (.among "+-")) ++ plus .digit)).Best x exponent y := by
  rcases h.power with rfl | ⟨e, plus, ds, he, hplus, hds, rfl⟩
  · -- what ends a value does not open an exponent
    have hnone : x.rest.head?.any (CharClass.among "eE").holds = false := by
      rw [hx]
      refine head?_any_eq_false hstop fun c hc => ?_
      rw [← Bool.not_eq_true, holds_letter]
      rintro (rfl | rfl) <;> exact absurd hc (by decide)
    exact ⟨x, best_opt_of_nil (ends_append_eq_nil (ends_append_eq_nil (ends_one_eq_nil hnone)))⟩
  · obtain ⟨y, hy⟩ := exists_best_one hx ((holds_letter e).mpr he)
    have hrest := hy.rest_eq hx
    rw [List.append_eq, List.append_assoc] at hrest
    -- a digit is not a sign, so an exponent without one has the empty match
    have hsign : ∃ z, (opt (one (.among "+-"))).Best y plus z := by
      rcases hplus with rfl | hplus
      · obtain ⟨c, cs, rfl⟩ := List.exists_cons_of_ne_nil hds.ne_nil
        refine ⟨y, best_opt_of_nil (ends_one_eq_nil ?_)⟩
        rw [hrest]
        show (CharClass.among "+-").holds c = false
        rw [← Bool.not_eq_true, holds_sign]
        have hc := hds.digits c List.mem_cons_self
        rintro (rfl | rfl) <;> exact absurd hc (by decide)
      · obtain ⟨c, rfl, hc⟩ : ∃ c, plus = [c] ∧ (c = '+' ∨ c = '-') := by
          rcases hplus with rfl | rfl
          · exact ⟨_, rfl, .inl rfl⟩
          · exact ⟨_, rfl, .inr rfl⟩
        obtain ⟨z, hz⟩ := exists_best_one hrest ((holds_sign c).mpr hc)
        exact ⟨z, hz.alt⟩
    obtain ⟨z, hz⟩ := hsign
    obtain ⟨u, hu⟩ := exists_best_many (hz.rest_eq hrest)
      (fun c hc => by rw [holds_digit, hds.digits c hc])
      (List.length_pos_iff.mpr hds.ne_nil) (head?_digit hstop)
    exact ⟨u, ((hy.append hz).append hu).alt⟩

/-- A number is found whole. -/
theorem exists_best_numeral (h : NumeralParts Text.isDecimal sign whole fraction exponent) {n : Nat}
    (hx : x.rest = sign ++ (whole ++ (fraction ++ exponent)) ++ rest)
    (hstop : rest.head?.all endsValue = true) :
    ∃ y, (numeral n).Best x (sign ++ (whole ++ (fraction ++ exponent))) y := by
  simp only [List.append_assoc] at hx
  -- no part can go on into the one behind it: that begins with a sign of its own
  have hpower : (exponent ++ rest).head?.any CharClass.digit.holds = false ∧
      (exponent ++ rest).head? ≠ some '.' := by
    rcases h.power with rfl | ⟨e, plus, ds, he, -, -, rfl⟩
    · exact ⟨head?_digit hstop, head?_ne_of_endsValue hstop (by decide)⟩
    · rcases he with rfl | rfl <;> exact ⟨rfl, by simp⟩
  have hpoint : (fraction ++ (exponent ++ rest)).head?.any CharClass.digit.holds = false := by
    rcases h.point with rfl | ⟨ds, -, rfl⟩
    · exact hpower.1
    · rfl
  obtain ⟨y₁, h₁⟩ := exists_best_sign h hx
  obtain ⟨y₂, h₂⟩ := exists_best_many (h₁.rest_eq hx)
    (fun c hc => by rw [holds_digit, h.digits.digits c hc])
    (List.length_pos_iff.mpr h.digits.ne_nil) hpoint
  have hrest := h₂.rest_eq (h₁.rest_eq hx)
  obtain ⟨y₃, h₃⟩ := exists_best_fraction h hrest hpower.1 hpower.2
  obtain ⟨y₄, h₄⟩ := exists_best_exponent h (h₃.rest_eq hrest) hstop
  have hbest := (((h₁.append h₂).append h₃).append h₄).capture n
  simp only [List.append_assoc] at hbest
  exact ⟨_, hbest⟩

/-- A scalar is found whole where a value may end behind it. -/
theorem Scalar.exists_best (v : Scalar) (hx : x.rest = v.chars ++ rest)
    (hstop : rest.head?.all endsValue = true) : ∃ y, v.sense.pattern.Best x v.chars y := by
  cases v with
  | number n =>
      obtain ⟨sign, whole, fraction, exponent, hparts, -, hchars⟩ := n.parts
      have hx : x.rest = n.chars ++ rest := hx
      rw [hchars] at hx
      obtain ⟨y, hy⟩ :=
        exists_best_numeral (n := 1) (hparts.mono isDecimal_of_isDigit) hx hstop
      rw [← hchars] at hy
      exact ⟨y, hy⟩
  | truth b =>
      cases b with
      | true =>
          obtain ⟨y, hy⟩ := exists_best_lit (w := "true") hx
          exact ⟨_, hy.alt.capture 1⟩
      | false =>
          obtain ⟨y, hy⟩ := exists_best_lit (w := "false") hx
          have htrue : "true".toList = 't' :: ['r', 'u', 'e'] := rfl
          have hnone : (lit "true").ends x = [] := by
            refine ends_lit_eq_nil_of_ne htrue ?_
            rw [hx]
            exact fun heq => absurd (Option.some.inj heq) (by decide)
          exact ⟨_, (hy.alt_of_nil hnone).capture 1⟩
  | null => exact exists_best_lit hx

/-! ## Sites -/

/-- Where a value is found: the number of its line, the column of the colon before it, and the value
itself. -/
structure Site where
  line : Nat
  column : Nat
  text : String
  deriving DecidableEq, Repr

/-- Whether a text ends where a site begins. -/
structure EndsAt (front : List Char) (s : Site) (above : List String) (lead : List Char) :
    Prop where
  text : front = Text.unlines above ++ lead
  unbroken : ∀ l ∈ above, '\n' ∉ l.toList
  unbroken_lead : '\n' ∉ lead
  line : s.line = above.length + 1
  column : s.column = lead.length

/-- Whether a member of a document has a scalar for its value, on the line of its colon, at a
site. -/
def MemberAt (ps : List Piece) (k : Sense) (s : Site) : Prop :=
  ∃ before gap v after above lead, ps = before ++ .colon :: .space gap :: .scalar v :: after ∧
    '\n' ∉ gap.chars ∧ v.sense = k ∧ s.text = String.ofList v.chars ∧
    EndsAt (spell before) s above lead

/-- Whether a text in quotes holds a colon and, behind blanks, what looks like a value, at a
site. -/
def MentionedAt (ps : List Piece) (k : Sense) (s : Site) : Prop :=
  ∃ before body after front gap w back above lead, ps = before ++ .text body :: after ∧
    body.chars = front ++ ':' :: (gap ++ (w ++ back)) ∧ (∀ c ∈ gap, Text.isBlank c = true) ∧
    k.Looks w ∧ s.text = String.ofList w ∧ EndsAt (spell before ++ '"' :: front) s above lead

/-- The sites of a sort of values in a document, from the first on: those of all members that have
such a value on the line of their colon, and those inside texts. -/
structure Lists (ps : List Piece) (k : Sense) (sites : List Site) : Prop where
  ordered : sites.Pairwise fun s t => s.line < t.line ∨ s.line = t.line ∧ s.column < t.column
  sound : ∀ s ∈ sites, MemberAt ps k s ∨ MentionedAt ps k s
  members : ∀ s, MemberAt ps k s → s ∈ sites
  mentions : ∀ s, MentionedAt ps k s → ∃ t ∈ sites, t.line = s.line ∧ t.column = s.column

/-- The site of a match. -/
def siteOf (line : Nat) (m : Match) : Site :=
  ⟨line, m.start, String.ofList ((m.text.drop 1).dropWhile Text.isBlank)⟩

/-- The sites that are found. -/
def sites (k : Sense) (lines : List String) : List Site :=
  scanLines (fun n line => ((colon ++ k.pattern).scan line).map (siteOf n)) lines

theorem takes_colon_append_iff :
    (colon ++ k.pattern).Takes cs parts ↔ ∃ gap w, (∀ c ∈ gap, Text.isBlank c = true) ∧
      k.Looks w ∧ cs = ':' :: (gap ++ w) ∧ parts = k.remembered w := by
  rw [takes_append_iff]
  simp only [colon, takes_append_silent_iff takes_blanks_iff, takes_lit_iff, takes_pattern_iff]
  constructor
  · rintro ⟨_, w, _, _, ⟨_, gap, ⟨rfl, rfl⟩, hgap, rfl⟩, ⟨hw, rfl⟩, rfl, rfl⟩
    exact ⟨gap, w, hgap, hw, rfl, List.append_nil _⟩
  · rintro ⟨gap, w, hgap, hw, rfl, rfl⟩
    exact ⟨_, w, _, _, ⟨_, gap, ⟨rfl, rfl⟩, hgap, rfl⟩, ⟨hw, rfl⟩, rfl, (List.append_nil _).symm⟩

theorem ledBy_colon (k : Sense) : (colon ++ k.pattern).LedBy ':' := by
  refine ⟨by cases k <;> rfl, fun htakes => ?_⟩
  obtain ⟨gap, w, hgap, hw, rfl, -⟩ := takes_colon_append_iff.mp htakes
  refine ⟨gap ++ w, rfl, fun hmem => ?_⟩
  rcases List.mem_append.mp hmem with hmem | hmem
  · exact absurd (hgap _ hmem) (by decide)
  · exact hw.not_mem (by decide) hmem

variable {content : String} {ps : List Piece} {s : Site} {above below : List String}
  {lead gap : List Char}

theorem siteOf_eq {m : Match} (htext : m.text = ':' :: (gap ++ w))
    (hgap : ∀ c ∈ gap, Text.isBlank c = true) (hw : k.Looks w) (n : Nat) :
    siteOf n m = ⟨n, m.start, String.ofList w⟩ := by
  obtain ⟨c, cs, rfl⟩ := List.exists_cons_of_ne_nil hw.solid.ne_nil
  have hc : ¬ Text.isBlank c = true := by
    rw [hw.solid.solid c List.mem_cons_self]
    exact Bool.false_ne_true
  rw [siteOf, htext, List.drop_one, List.tail_cons, List.dropWhile_append_of_pos hgap,
    List.dropWhile_cons_of_neg hc]

/-- What is found on a line is found behind a colon and blanks. -/
theorem exists_of_mem_sites (h : s ∈ sites k (Text.lines content)) :
    ∃ above line below lead gap w rest m, Text.lines content = above ++ line :: below ∧
      line.toList = lead ++ ':' :: (gap ++ (w ++ rest)) ∧ (∀ c ∈ gap, Text.isBlank c = true) ∧
      k.Looks w ∧ s = ⟨above.length + 1, lead.length, String.ofList w⟩ ∧
      (colon ++ k.pattern).matchAt? (.between lead (':' :: (gap ++ (w ++ rest)))) = some m ∧
      m.text = ':' :: (gap ++ w) := by
  obtain ⟨l, hl, hs⟩ := List.mem_flatMap.mp h
  obtain ⟨line, n⟩ := l
  obtain ⟨above, below, hlines, rfl⟩ := mem_zipIdx_iff_append.mp hl
  obtain ⟨m, hm, rfl⟩ := List.mem_map.mp hs
  obtain ⟨lead, after, hline, hmatch⟩ := mem_scan (ledBy_colon k).consumes hm
  obtain ⟨cs, rest, parts, htakes, hafter, rfl⟩ := exists_of_matchAt? (ledBy_colon k).plain hmatch
  obtain ⟨gap, w, hgap, hw, rfl, -⟩ := takes_colon_append_iff.mp htakes
  obtain rfl : after = ':' :: (gap ++ (w ++ rest)) := by
    rw [← List.append_assoc]
    exact hafter
  exact ⟨above, line, below, lead, gap, w, rest, _, hlines, hline, hgap, hw,
    siteOf_eq rfl hgap hw _, hmatch, rfl⟩

/-- A match on a line is found. -/
theorem siteOf_mem_sites {line : String} {m : Match}
    (hlines : Text.lines content = above ++ line :: below) (hline : line.toList = lead ++ rest)
    (hmatch : (colon ++ k.pattern).matchAt? (.between lead rest) = some m) :
    siteOf (above.length + 1) m ∈ sites k (Text.lines content) := by
  have hnumbered : (line, above.length + 1) ∈ (Text.lines content).zipIdx 1 :=
    mem_zipIdx_iff_append.mpr ⟨above, below, hlines, rfl⟩
  have hm : m ∈ (colon ++ k.pattern).scan line :=
    (ledBy_colon k).mem_scan_iff.mpr ⟨lead, rest, hline, hmatch⟩
  exact List.mem_flatMap.mpr ⟨_, hnumbered, List.mem_map_of_mem hm⟩

/-! ## Members and mentions are found -/

theorem isBlank_of_isSpace {c : Char} (h : isSpace c = true) : Text.isBlank c = true := by
  simp only [isSpace, Bool.or_eq_true, beq_iff_eq] at h
  rcases h with ((rfl | rfl) | rfl) | rfl <;> decide

theorem IsBody.lineFeed_not_mem (h : IsBody cs) : '\n' ∉ cs := by
  induction h with
  | nil => exact List.not_mem_nil
  | plain printable _ _ _ ih =>
      rintro (_ | ⟨_, hmem⟩)
      · exact absurd printable (by decide)
      · exact ih hmem
  | escape code _ ih =>
      intro hmem
      rcases List.mem_cons.mp hmem with heq | hmem
      · exact absurd heq (by decide)
      · rcases List.mem_cons.mp hmem with rfl | hmem
        · exact absurd code (by decide)
        · exact ih hmem
  | point _ hex _ ih =>
      intro hmem
      rcases List.mem_cons.mp hmem with heq | hmem
      · exact absurd heq (by decide)
      · rcases List.mem_cons.mp hmem with heq | hmem
        · exact absurd heq (by decide)
        · rcases List.mem_append.mp hmem with hmem | hmem
          · exact absurd (hex _ hmem) (by decide)
          · exact ih hmem

/-- Behind a colon and blanks a scalar is matched whole. -/
theorem Scalar.exists_match (v : Scalar) (hgap : ∀ c ∈ gap, Text.isBlank c = true)
    (hstop : rest.head?.all endsValue = true) (lead : List Char) :
    ∃ m, (colon ++ v.sense.pattern).matchAt? (.between lead (':' :: (gap ++ (v.chars ++ rest)))) =
      some m ∧ m.start = lead.length ∧ m.text = ':' :: (gap ++ v.chars) := by
  have hx : (Cursor.between lead (':' :: (gap ++ (v.chars ++ rest)))).rest =
      ":".toList ++ (gap ++ (v.chars ++ rest)) := rfl
  have hblank : (v.chars ++ rest).head?.any CharClass.blank.holds = false := by
    rw [funext holds_blank]
    exact v.looks.solid.head? rest
  obtain ⟨y₁, h₁⟩ := exists_best_lit hx
  obtain ⟨y₂, h₂⟩ := exists_best_many (h₁.rest_eq hx)
    (fun c hc => by rw [holds_blank, hgap c hc]) (Nat.zero_le _) hblank
  obtain ⟨y₃, h₃⟩ := v.exists_best (h₂.rest_eq (h₁.rest_eq hx)) hstop
  exact ⟨_, ((h₁.append h₂).append h₃).matchAt?, rfl, rfl⟩

theorem Follows.head?_of_append {tail back : List Char} (h : Follows ps)
    (hps : spell ps = tail ++ back) : tail.head?.all endsValue = true := by
  rw [Follows, hps] at h
  cases tail with
  | nil => rfl
  | cons c tail => exact h

theorem Site.eq_of_endsAt {front : List Char} (h : EndsAt front s above lead)
    (htext : s.text = String.ofList w) : s = ⟨above.length + 1, lead.length, String.ofList w⟩ := by
  rw [← h.line, ← h.column, ← htext]

theorem MemberAt.mem_sites (hcontent : content.toList = spell ps) (horderly : Orderly ps)
    (h : MemberAt ps k s) : s ∈ sites k (Text.lines content) := by
  obtain ⟨before, gap, v, after, above, lead, rfl, hunbroken, rfl, htext, hends⟩ := h
  have hgap : ∀ c ∈ gap.chars, Text.isBlank c = true := fun c hc =>
    isBlank_of_isSpace (gap.space c hc)
  have hsuffix : Orderly (.colon :: .space gap :: .scalar v :: after) := horderly.of_append
  have hfollows : Follows after := hsuffix.2.1
  have hline : '\n' ∉ lead ++ ':' :: (gap.chars ++ v.chars) := by
    simp [hends.unbroken_lead, hunbroken, v.looks.lineFeed_not_mem]
  have hparts : content.toList =
      Text.unlines above ++ ((lead ++ ':' :: (gap.chars ++ v.chars)) ++ spell after) := by
    rw [hcontent, spell_append, hends.text]
    simp [Piece.chars]
  obtain ⟨tail, back, below, hlines, hafter⟩ := Text.lines_of_unlines hends.unbroken hline hparts
  obtain ⟨m, hmatch, hstart, hm⟩ := v.exists_match hgap (hfollows.head?_of_append hafter) lead
  have hmem := siteOf_mem_sites hlines (by simp) hmatch
  rwa [siteOf_eq hm hgap v.looks, hstart, ← Site.eq_of_endsAt hends htext] at hmem

theorem MentionedAt.exists_site (hcontent : content.toList = spell ps) (h : MentionedAt ps k s) :
    ∃ t ∈ sites k (Text.lines content), t.line = s.line ∧ t.column = s.column := by
  obtain ⟨before, body, after, front, gap, w, back, above, lead, rfl, hbody, hgap, hw, -, hends⟩ :=
    h
  have hline : '\n' ∉ lead ++ ':' :: (gap ++ w) := by
    have hnone := body.body.lineFeed_not_mem
    rw [hbody] at hnone
    simp only [List.mem_append, List.mem_cons, not_or] at hnone
    simp [hends.unbroken_lead, hnone.2.2.1, hw.lineFeed_not_mem]
  have hparts : content.toList =
      Text.unlines above ++ ((lead ++ ':' :: (gap ++ w)) ++ (back ++ '"' :: spell after)) := by
    have hspell : spell before ++ '"' :: front = Text.unlines above ++ lead := hends.text
    calc content.toList
        = spell before ++ '"' :: front ++ ':' :: (gap ++ (w ++ (back ++ '"' :: spell after))) := by
          rw [hcontent, spell_append, spell_cons, Piece.chars, hbody]
          simp
      _ = Text.unlines above ++ ((lead ++ ':' :: (gap ++ w)) ++ (back ++ '"' :: spell after)) := by
          rw [hspell]
          simp
  obtain ⟨tail, -, below, hlines, -⟩ := Text.lines_of_unlines hends.unbroken hline hparts
  have htakes := takes_colon_append_iff.mpr ⟨gap, w, hgap, hw, rfl, rfl⟩
  have hx : (Cursor.between lead (':' :: (gap ++ w) ++ tail)).rest = ':' :: (gap ++ w) ++ tail :=
    rfl
  obtain ⟨m, hmatch⟩ := htakes.exists_matchAt? hx
  refine ⟨_, siteOf_mem_sites hlines (by simp) hmatch, hends.line.symm, ?_⟩
  rw [hends.column]
  exact start_of_matchAt? hmatch

/-! ## Nothing else is found -/

theorem Piece.head?_of_opens {p : Piece} (h : p.opens = true) (rest : List Char) :
    (p.chars ++ rest).head?.any Text.isBlank = false := by
  cases p with
  | space s => exact absurd h Bool.false_ne_true
  | colon => exact absurd h Bool.false_ne_true
  | text b => rfl
  | mark m =>
      cases m with
      | openArray => rfl
      | openObject => rfl
      | _ => exact absurd h Bool.false_ne_true
  | scalar v => exact v.looks.solid.head? rest

/-- A scalar does not go over the end of its line. -/
theorem Scalar.exists_tail (v : Scalar) {line back after : List Char}
    (hback : back = [] ∨ ∃ more, back = '\n' :: more) (h : line ++ back = v.chars ++ after) :
    ∃ tail, line = v.chars ++ tail ∧ after = tail ++ back := by
  rcases Nat.lt_or_ge line.length v.chars.length with hlt | hle
  · obtain ⟨c, d, hd, hrest⟩ := exists_cons_of_append_eq h.symm hlt
    rcases hback with rfl | ⟨more, rfl⟩
    · exact absurd hrest (by simp)
    · refine absurd ?_ v.looks.lineFeed_not_mem
      rw [hd, (List.cons.inj hrest).1]
      simp
  · exact exists_of_append_eq h hle

/-- The value behind the colon of a member is a scalar that is found whole. -/
theorem memberAt_of_colon {before after : List Piece} {back : List Char}
    (horderly : Orderly (before ++ .colon :: after)) (hgap : ∀ c ∈ gap, Text.isBlank c = true)
    (hw : k.Looks w) (hbreak : '\n' ∉ gap) (hback : back = [] ∨ ∃ more, back = '\n' :: more)
    (hafter : gap ++ (w ++ (rest ++ back)) = spell after) {m : Match}
    (hmatch : (colon ++ k.pattern).matchAt? (.between lead (':' :: (gap ++ (w ++ rest)))) = some m)
    (hm : m.text = ':' :: (gap ++ w)) (hends : EndsAt (spell before) s above lead)
    (htext : s.text = String.ofList w) : MemberAt (before ++ .colon :: after) k s := by
  have hsuffix : Orderly (.colon :: after) := horderly.of_append
  obtain ⟨⟨space, p, more, rfl, hopens⟩, hmore⟩ := hsuffix
  obtain ⟨rfl, hvalue⟩ := Text.run_unique hafter hgap
    (fun c hc => isBlank_of_isSpace (space.space c hc)) (hw.solid.head? _)
    (p.head?_of_opens hopens _)
  obtain ⟨v, rfl, rfl⟩ := hw.exists_scalar hopens hvalue
  have hfollows : Follows more := hmore.1
  rw [← List.append_assoc] at hvalue
  obtain ⟨tail, htail, hrest⟩ := v.exists_tail hback hvalue
  -- the whole scalar is matched at this place, and a place has one match
  obtain ⟨m', hmatch', -, hm'⟩ := v.exists_match hgap (hfollows.head?_of_append hrest) lead
  rw [← htail, hmatch] at hmatch'
  obtain rfl := Option.some.inj hmatch'
  obtain rfl : w = v.chars :=
    List.append_cancel_left (List.cons.inj (hm.symm.trans hm')).2
  exact ⟨before, space, v, more, above, lead, rfl, hbreak, rfl, htext, hends⟩

/-- What is found behind a colon inside a text in quotes lies inside as well. -/
theorem mentionedAt_of_text {before after : List Piece} {body : Body} {x y : List Char}
    (hchars : (Piece.text body).chars = x ++ ':' :: y) (hgap : ∀ c ∈ gap, Text.isBlank c = true)
    (hw : k.Looks w) (hafter : gap ++ (w ++ rest) = y ++ spell after)
    (hends : EndsAt (spell before ++ x) s above lead) (htext : s.text = String.ofList w) :
    MentionedAt (before ++ .text body :: after) k s := by
  have hchars : '"' :: (body.chars ++ ['"']) = x ++ ':' :: y := hchars
  cases x with
  | nil => exact absurd (List.cons.inj hchars).1 (by decide)
  | cons q x =>
      obtain ⟨rfl, hbody : body.chars ++ ['"'] = x ++ ':' :: y⟩ := List.cons.inj hchars
      rcases List.eq_nil_or_concat y with rfl | ⟨y, c, rfl⟩
      · exact absurd (List.append_inj' hbody rfl).2 (by decide)
      · rw [List.concat_eq_append, ← List.cons_append, ← List.append_assoc] at hbody
        obtain ⟨hinside, hquote⟩ := List.append_inj' hbody rfl
        obtain rfl := (List.cons.inj hquote).1
        rw [List.concat_eq_append, List.append_assoc, ← List.append_assoc] at hafter
        rcases Nat.lt_or_ge y.length (gap ++ w).length with hlt | hle
        · -- the closing quote would be a character of the blanks or of the value
          obtain ⟨c, d, hd, hrest⟩ := exists_cons_of_append_eq hafter hlt
          obtain rfl := (List.cons.inj hrest).1
          have hmem : '"' ∈ gap ++ w := by simp [hd]
          rcases List.mem_append.mp hmem with hmem | hmem
          · exact absurd (hgap _ hmem) (by decide)
          · exact absurd hmem (hw.not_mem (by decide))
        · obtain ⟨d, rfl, -⟩ := exists_of_append_eq hafter.symm hle
          rw [List.append_assoc] at hinside
          exact ⟨before, body, after, x, gap, w, d, above, lead, rfl, hinside, hgap, hw, htext,
            hends⟩

theorem sound_of_mem_sites (hcontent : content.toList = spell ps) (horderly : Orderly ps)
    (h : s ∈ sites k (Text.lines content)) : MemberAt ps k s ∨ MentionedAt ps k s := by
  obtain ⟨above, line, below, lead, gap, w, rest, m, hlines, hline, hgap, hw, rfl, hmatch, hm⟩ :=
    exists_of_mem_sites h
  obtain ⟨back, hback, hfeed⟩ := Text.toList_of_lines hlines
  have hunbroken : ∀ l ∈ Text.lines content, '\n' ∉ l.toList := fun l hl =>
    Text.not_mem_of_mem_splitAt hl
  rw [hlines] at hunbroken
  obtain ⟨habove, hthis⟩ := List.forall_mem_append.mp hunbroken
  have hbreak := hthis line List.mem_cons_self
  rw [hline] at hbreak hback
  simp only [List.mem_append, List.mem_cons, not_or] at hbreak
  have hends : EndsAt (Text.unlines above ++ lead)
      ⟨above.length + 1, lead.length, String.ofList w⟩ above lead :=
    ⟨rfl, habove, hbreak.1, rfl, rfl⟩
  have hspell :
      spell ps = (Text.unlines above ++ lead) ++ ':' :: (gap ++ (w ++ (rest ++ back))) := by
    rw [← hcontent, hback]
    simp
  -- the colon belongs to a piece, and only two sorts of pieces have one
  obtain ⟨before, p, after, x, y, rfl, hfront, hchars, hafter⟩ := exists_piece hspell
  rw [hfront] at hends
  cases p with
  | space sp =>
      have hmem : ':' ∈ sp.chars := by
        rw [show sp.chars = _ from hchars]
        simp
      exact absurd (sp.space _ hmem) (by decide)
  | mark mk =>
      have hmem : ':' ∈ [mk.char] := by
        rw [show [mk.char] = _ from hchars]
        simp
      exact absurd (List.mem_singleton.mp hmem) (by cases mk <;> decide)
  | colon =>
      obtain ⟨rfl, rfl⟩ : x = [] ∧ y = [] := by
        cases x with
        | nil => exact ⟨rfl, (List.cons.inj hchars).2.symm⟩
        | cons c x => exact absurd (List.cons.inj hchars).2 (by simp)
      rw [List.append_nil] at hends
      exact .inl (memberAt_of_colon horderly hgap hw hbreak.2.2.1 hfeed hafter hmatch hm hends rfl)
  | text body => exact .inr (mentionedAt_of_text hchars hgap hw hafter hends rfl)
  | scalar v =>
      have hmem : ':' ∈ v.chars := by
        rw [show v.chars = _ from hchars]
        simp
      exact absurd hmem (v.looks.not_mem (by decide))

/-! ## The sites of a document -/

theorem pairwise_sites (k : Sense) (lines : List String) :
    (sites k lines).Pairwise fun s t =>
      s.line < t.line ∨ s.line = t.line ∧ s.column < t.column := by
  refine pairwise_scanLines (fun n line => ?_) (fun m n line line' hlt s hs t ht => ?_) lines
  · rw [List.pairwise_map]
    exact (pairwise_start_scan (ledBy_colon k).consumes line).imp fun hlt => .inr ⟨rfl, hlt⟩
  · obtain ⟨_, -, rfl⟩ := List.mem_map.mp hs
    obtain ⟨_, -, rfl⟩ := List.mem_map.mp ht
    exact .inl hlt

theorem lists_sites (hcontent : content.toList = spell ps) (h : IsDocument ps) :
    Lists ps k (sites k (Text.lines content)) where
  ordered := pairwise_sites k _
  sound _ hs := sound_of_mem_sites hcontent h.orderly hs
  members _ hs := hs.mem_sites hcontent h.orderly
  mentions _ hs := hs.exists_site hcontent

/-- What ends at a place of a document is the same text. -/
theorem EndsAt.unique {front front' r r' lead' : List Char} {t : Site} {above' : List String}
    (h : EndsAt front s above lead) (h' : EndsAt front' t above' lead')
    (hspell : front ++ r = front' ++ r') (hline : s.line = t.line)
    (hcolumn : s.column = t.column) : front = front' := by
  have htext : (String.ofList (front ++ r)).toList = Text.unlines above ++ (lead ++ r) := by
    rw [String.toList_ofList, h.text, List.append_assoc]
  have htext' : (String.ofList (front ++ r)).toList = Text.unlines above' ++ (lead' ++ r') := by
    rw [String.toList_ofList, hspell, h'.text, List.append_assoc]
  obtain ⟨tail, -, below, hlines, -⟩ := Text.lines_of_unlines h.unbroken h.unbroken_lead htext
  obtain ⟨tail', -, below', hlines', -⟩ :=
    Text.lines_of_unlines h'.unbroken h'.unbroken_lead htext'
  have hcount : above.length = above'.length := by
    have := h.line
    have := h'.line
    omega
  obtain ⟨rfl, -⟩ := List.append_inj (hlines.symm.trans hlines') hcount
  have hlead : lead.length = lead'.length := by
    rw [← h.column, ← h'.column, hcolumn]
  refine (List.append_inj hspell ?_).1
  rw [h.text, h'.text, List.length_append, List.length_append, hlead]

/-- The colon of a member does not stand inside a text. -/
theorem MentionedAt.not_memberAt {k' : Sense} {t : Site} (h : MentionedAt ps k s)
    (h' : MemberAt ps k' t) (hline : t.line = s.line) : t.column ≠ s.column := by
  intro hcolumn
  obtain ⟨before, body, after, front, gap, w, back, above, lead, rfl, hbody, -, -, -, hends⟩ := h
  obtain ⟨before', gap', v, after', above', lead', hpieces, -, -, -, hends'⟩ := h'
  have hspell : spell before ++ '"' :: front ++ ':' :: (gap ++ (w ++ back)) ++ '"' :: spell after =
      spell before' ++ spell (.colon :: .space gap' :: .scalar v :: after') := by
    rw [← spell_append, ← hpieces, spell_append, spell_cons, Piece.chars, hbody]
    simp
  rw [List.append_assoc] at hspell
  -- the text of the mention reaches from before the place to behind it
  have hfront := hends.unique hends' hspell hline.symm hcolumn.symm
  refine spell_ne_of_inside hpieces (x := '"' :: front) (List.cons_ne_nil _ _) ?_
    (List.cons_ne_nil _ _) ?_
  · rw [Piece.chars, hbody]
    simp only [List.length_cons, List.length_append]
    omega
  · rw [← hfront, List.length_append]

/-- Where nothing is found but members, no text holds what looks like a value. -/
theorem Lists.forall_memberAt_iff {found : List Site} (h : Lists ps k found) :
    (∀ s ∈ found, MemberAt ps k s) ↔ ∀ s, ¬ MentionedAt ps k s := by
  constructor
  · intro hmembers s hs
    obtain ⟨t, ht, hline, hcolumn⟩ := h.mentions s hs
    exact hs.not_memberAt (hmembers t ht) hline hcolumn
  · intro hnone s hs
    exact (h.sound s hs).resolve_right (hnone s)

theorem Lists.forall_line_iff {found : List Site} (h : Lists ps k found) :
    (∀ s ∈ found, ∃ t, MemberAt ps k t ∧ t.line = s.line) ↔
      ∀ s, MentionedAt ps k s → ∃ t, MemberAt ps k t ∧ t.line = s.line := by
  constructor
  · intro hlines s hs
    obtain ⟨t, ht, hline, -⟩ := h.mentions s hs
    obtain ⟨u, hu, hsame⟩ := hlines t ht
    exact ⟨u, hu, hsame.trans hline⟩
  · intro hlines s hs
    rcases h.sound s hs with hmember | hmention
    · exact ⟨s, hmember, rfl⟩
    · exact hlines s hmention

/-! ## Value symbols -/

/-- The symbols of each sort that are found. -/
def readings (src : Source) (lines : List String) : List (String × List Symbol) :=
  [("object", scanLines (opening "object" "\x7b" src) lines),
   ("array", scanLines (opening "array" "[" src) lines),
   ("key", scanLines (JsonText.parts "key" key "\"" "\":" src) lines),
   ("string_value",
     scanLines (JsonText.parts "string_value" (colon ++ quotedText 1) "\"" "\"" src) lines),
   ("numeric_value",
     scanLines (JsonText.parts "numeric_value" (colon ++ numeral 1) "" "" src) lines),
   ("boolean_value", scanLines (JsonText.parts "boolean_value" (colon ++ truth 1) "" "" src) lines),
   ("null_value", scanLines (nulls src) lines)]

theorem findSymbols_eq (src : Source) (lines : List String) :
    findSymbols src lines = ((readings src lines).flatMap (·.2)).map .symbol := rfl

theorem kind_of_mem_opening {kind bracket line : String} {src : Source} {n : Nat} {s : Symbol}
    (h : s ∈ opening kind bracket src n line) : s.kind = kind := by
  rw [opening, List.mem_ite_nil_right] at h
  rw [List.mem_singleton.mp h.2]
  rfl

theorem kind_of_mem_parts {kind before after line : String} {p : Pattern} {src : Source} {n : Nat}
    {s : Symbol} (h : s ∈ JsonText.parts kind p before after src n line) : s.kind = kind := by
  obtain ⟨_, -, rfl⟩ := List.mem_map.mp h
  rfl

theorem kind_of_mem_nulls {line : String} {src : Source} {n : Nat} {s : Symbol}
    (h : s ∈ nulls src n line) : s.kind = "null_value" := by
  obtain ⟨_, -, rfl⟩ := List.mem_map.mp h
  rfl

theorem kind_of_mem_readings {src : Source} {lines : List String} :
    ∀ r ∈ readings src lines, ∀ s ∈ r.2, s.kind = r.1 := by
  simp only [readings, List.forall_mem_cons]
  refine ⟨forall_mem_scanLines (fun _ _ _ => kind_of_mem_opening) lines,
    forall_mem_scanLines (fun _ _ _ => kind_of_mem_opening) lines,
    forall_mem_scanLines (fun _ _ _ => kind_of_mem_parts) lines,
    forall_mem_scanLines (fun _ _ _ => kind_of_mem_parts) lines,
    forall_mem_scanLines (fun _ _ _ => kind_of_mem_parts) lines,
    forall_mem_scanLines (fun _ _ _ => kind_of_mem_parts) lines,
    forall_mem_scanLines (fun _ _ _ => kind_of_mem_nulls) lines, List.forall_mem_nil _⟩

theorem filter_kind_flatMap {rs : List (String × List Symbol)}
    (h : ∀ r ∈ rs, ∀ s ∈ r.2, s.kind = r.1) (kind : String) :
    (rs.flatMap (·.2)).filter (·.kind == kind) = (rs.filter (·.1 == kind)).flatMap (·.2) := by
  induction rs with
  | nil => rfl
  | cons r rs ih =>
      obtain ⟨hr, hrs⟩ := List.forall_mem_cons.mp h
      rw [List.flatMap_cons, List.filter_append, ih hrs]
      by_cases hkind : (r.1 == kind) = true
      · rw [List.filter_cons_of_pos (by exact hkind), List.flatMap_cons,
          List.filter_eq_self.mpr fun s hs => by rw [hr s hs, hkind]]
      · rw [List.filter_cons_of_neg (by exact hkind),
          List.filter_eq_nil_iff.mpr fun s hs => by rwa [hr s hs], List.nil_append]

/-- The symbols of a sort are what its reading gives. -/
theorem filter_findSymbols {src : Source} {lines : List String} {kind : String}
    {found : List Symbol} (h : (readings src lines).filter (·.1 == kind) = [(kind, found)]) :
    (Dialect.json.findSymbols src lines).filter (·.outline.kind == some kind) =
      found.map .symbol := by
  have hfound : Dialect.json.findSymbols src lines =
      ((readings src lines).flatMap (·.2)).map .symbol := findSymbols_eq src lines
  have hkinds : ∀ r ∈ readings src lines, ∀ s ∈ r.2, s.kind = r.1 := kind_of_mem_readings
  have hreading := filter_kind_flatMap hkinds kind
  rw [h, List.flatMap_singleton] at hreading
  rw [hfound, List.filter_map]
  exact congrArg (List.map Finding.symbol) hreading

/-- The part that is remembered of a match is its value. -/
theorem group_eq_text {line : String} {m : Match} (hm : m ∈ (colon ++ k.pattern).scan line)
    (hk : k ≠ .null) (n : Nat) : m.group 1 = (siteOf n m).text := by
  obtain ⟨lead, after, -, hmatch⟩ := mem_scan (ledBy_colon k).consumes hm
  obtain ⟨cs, rest, parts, htakes, -, rfl⟩ := exists_of_matchAt? (ledBy_colon k).plain hmatch
  obtain ⟨gap, w, hgap, hw, rfl, rfl⟩ := takes_colon_append_iff.mp htakes
  rw [siteOf_eq rfl hgap hw]
  refine Match.group_of_groups rfl ?_
  cases k with
  | number => rfl
  | truth => rfl
  | null => exact absurd rfl hk

theorem scanLines_parts (hk : k ≠ .null) (kind : String) (src : Source) (lines : List String) :
    scanLines (JsonText.parts kind (colon ++ k.pattern) "" "" src) lines =
      (sites k lines).map fun s => src.symbolOn s.line s.text kind s.text := by
  rw [sites, map_scanLines]
  congr 1
  funext n line
  rw [JsonText.parts, scanGroup, List.map_map, List.map_map]
  refine List.map_congr_left fun m hm => ?_
  simp only [Function.comp_apply, String.empty_append, String.append_empty, group_eq_text hm hk n]
  rfl

theorem filter_parts {kind : String} {src : Source} {lines : List String} (hk : k ≠ .null)
    (h : (readings src lines).filter (·.1 == kind) =
      [(kind, scanLines (JsonText.parts kind (colon ++ k.pattern) "" "" src) lines)]) :
    (Dialect.json.findSymbols src lines).filter (·.outline.kind == some kind) =
      (sites k lines).map fun s => .symbol (src.symbolOn s.line s.text kind s.text) := by
  rw [filter_findSymbols h, scanLines_parts hk, List.map_map]
  rfl

/-- The numbers of the lines with a null. -/
def nullLines (lines : List String) : List Nat :=
  scanLines (fun n line => ((colon ++ lit "null").search? line).toList.map fun _ => n) lines

theorem scanLines_nulls (src : Source) (lines : List String) :
    scanLines (nulls src) lines =
      (nullLines lines).map fun n => src.symbolOn n "null" "null_value" "null" := by
  rw [nullLines, map_scanLines]
  congr 1
  funext n line
  rw [nulls, List.map_map]
  rfl

theorem filter_nulls (src : Source) (lines : List String) :
    (Dialect.json.findSymbols src lines).filter (·.outline.kind == some "null_value") =
      (nullLines lines).map fun n => .symbol (src.symbolOn n "null" "null_value" "null") := by
  have hreading : (readings src lines).filter (·.1 == "null_value") =
      [("null_value", scanLines (nulls src) lines)] := by simp [readings]
  rw [filter_findSymbols hreading, scanLines_nulls, List.map_map]
  rfl

theorem pairwise_nullLines (lines : List String) : (nullLines lines).Pairwise (· < ·) := by
  refine pairwise_scanLines (fun n line => pairwise_toList_map _ _) ?_ lines
  intro m n line line' hlt a ha b hb
  obtain ⟨_, -, rfl⟩ := List.mem_map.mp ha
  obtain ⟨_, -, rfl⟩ := List.mem_map.mp hb
  exact hlt

theorem mem_nullLines_iff {lines : List String} {n : Nat} :
    n ∈ nullLines lines ↔ ∃ s ∈ sites .null lines, s.line = n := by
  simp only [nullLines, sites, scanLines, List.mem_flatMap, List.mem_map, Option.mem_toList,
    search?_eq]
  constructor
  · rintro ⟨l, hl, m, hm, rfl⟩
    exact ⟨_, ⟨l, hl, m, List.mem_of_head? hm, rfl⟩, rfl⟩
  · rintro ⟨_, ⟨l, hl, m, hm, rfl⟩, rfl⟩
    obtain ⟨first, hfirst⟩ := Option.isSome_iff_exists.mp
      (List.isSome_head?.mpr (List.ne_nil_of_mem hm))
    exact ⟨l, hl, first, hfirst, rfl⟩

/-- Where the value symbols of a document come from. Numbers and truth values have one symbol for
each site, and nulls one for each line; the sites are those of all members with such a value on the
line of their colon, and those inside texts. So the symbols come from members alone if and only if
no text holds a colon before what looks like a number or a truth value, and only lines with a null
for a member hold one inside a text. -/
theorem value_symbols_iff (src : Source) {ps : List Piece} (h : IsDocument ps) :
    ∃ (found : Sense → List Site) (lines : List Nat), (∀ k, Lists ps k (found k)) ∧
      (Dialect.json.findSymbols src (Text.lines (String.ofList (spell ps)))).filter
          (·.outline.kind == some "numeric_value") =
        (found .number).map (fun s =>
          .symbol (src.symbolOn s.line s.text "numeric_value" s.text)) ∧
      (Dialect.json.findSymbols src (Text.lines (String.ofList (spell ps)))).filter
          (·.outline.kind == some "boolean_value") =
        (found .truth).map (fun s =>
          .symbol (src.symbolOn s.line s.text "boolean_value" s.text)) ∧
      (Dialect.json.findSymbols src (Text.lines (String.ofList (spell ps)))).filter
          (·.outline.kind == some "null_value") =
        lines.map (fun n => .symbol (src.symbolOn n "null" "null_value" "null")) ∧
      lines.Pairwise (· < ·) ∧ (∀ n, n ∈ lines ↔ ∃ s ∈ found .null, s.line = n) ∧
      ((∀ s ∈ found .number, MemberAt ps .number s) ∧
          (∀ s ∈ found .truth, MemberAt ps .truth s) ∧
          (∀ n ∈ lines, ∃ t, MemberAt ps .null t ∧ t.line = n) ↔
        (∀ s, ¬ MentionedAt ps .number s) ∧ (∀ s, ¬ MentionedAt ps .truth s) ∧
          ∀ s, MentionedAt ps .null s → ∃ t, MemberAt ps .null t ∧ t.line = s.line) := by
  have hlists : ∀ k, Lists ps k (sites k (Text.lines (String.ofList (spell ps)))) := fun k =>
    lists_sites String.toList_ofList h
  refine ⟨fun k => sites k _, nullLines _, hlists, ?_, ?_, ?_, pairwise_nullLines _,
    fun n => mem_nullLines_iff, and_congr ?_ (and_congr ?_ ?_)⟩
  · exact filter_parts (by decide) (by simp [readings, Sense.pattern])
  · exact filter_parts (by decide) (by simp [readings, Sense.pattern])
  · exact filter_nulls src _
  · exact (hlists .number).forall_memberAt_iff
  · exact (hlists .truth).forall_memberAt_iff
  · rw [← (hlists .null).forall_line_iff]
    simp only [mem_nullLines_iff, forall_exists_index, and_imp, forall_apply_eq_imp_iff₂]

/-- The document `{"t": "12:30"}`. -/
def clock : List Piece :=
  [.space ⟨[], by simp⟩, .mark .openObject, .space ⟨[], by simp⟩,
   .text ⟨['t'], isBody_of_all (by decide)⟩, .space ⟨[], by simp⟩, .colon,
   .space ⟨[' '], List.forall_mem_singleton.mpr rfl⟩,
   .text ⟨"12:30".toList, isBody_of_all (by decide)⟩, .space ⟨[], by simp⟩,
   .mark .closeObject, .space ⟨[], by simp⟩]

theorem isDocument_clock : IsDocument clock :=
  ⟨_, _, _, .object (.member _ _ _ _ _ (.text _)), rfl⟩

/-- The number symbols of a document with a time of day are those of its sites. -/
theorem value_symbols_of_clock :
    IsDocument clock ∧ ∃ found : List Site, Lists clock .number found ∧
      (Dialect.json.findSymbols ⟨"a.json", "json"⟩
          (Text.lines (String.ofList (spell clock)))).filter
          (·.outline.kind == some "numeric_value") =
        found.map fun s =>
          .symbol (Source.symbolOn ⟨"a.json", "json"⟩ s.line s.text "numeric_value" s.text) := by
  obtain ⟨found, -, hlists, hnumbers, -⟩ := value_symbols_iff ⟨"a.json", "json"⟩ isDocument_clock
  exact ⟨isDocument_clock, found .number, hlists .number, hnumbers⟩

/-- The minutes of a time of day are taken for a number, though no member has one. -/
theorem minutes_count_as_number :
    IsDocument clock ∧ String.ofList (spell clock) = "\x7b\"t\": \"12:30\"\x7d" ∧
    (∀ k s, ¬ MemberAt clock k s) ∧
    (Dialect.json.findSymbols ⟨"a.json", "json"⟩
        (Text.lines "\x7b\"t\": \"12:30\"\x7d")).filter
        (·.outline.kind == some "numeric_value") =
      [.symbol (Source.symbolOn ⟨"a.json", "json"⟩ 1 "30" "numeric_value" "30")] := by
  refine ⟨isDocument_clock, by decide, ?_, by decide +kernel⟩
  rintro k s ⟨before, gap, v, after, -, -, hpieces, -⟩
  have hmem : Piece.scalar v ∈ clock := by simp [hpieces]
  simp [clock] at hmem

end SymbolAtlas.JsonText
