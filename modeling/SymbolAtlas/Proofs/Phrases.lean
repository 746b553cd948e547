/-
  SymbolAtlas.Proofs.Phrases: words at the start of a text, with blanks between them.

  A header begins with such words: modifiers, a keyword and a name, and a word and a name for each
  thing that is said of it. `Phrase` says which words a text begins with. Of two readings of a text
  one goes on where the other ends (`Phrase.isPrefix_total`), so that a reading is told by its
  length. The patterns of headers are those of words with blanks after them (`Spaced`) and a name.
-/

import SymbolAtlas.Proofs.FunctionHeaders

namespace SymbolAtlas

open Pattern Declarations

namespace Text

/-- One or more blanks. -/
structure IsGap (cs : List Char) : Prop where
  blank : ∀ c ∈ cs, isBlank c = true
  ne_nil : cs ≠ []

/-- Words, each with blanks after it. -/
inductive Spaced : List String → List Char → Prop
  | nil : Spaced [] []
  | cons {w : String} {ws : List String} {gap cs : List Char} (isName : IsName w.toList)
      (isGap : IsGap gap) (more : Spaced ws cs) : Spaced (w :: ws) (w.toList ++ (gap ++ cs))

/-- Whether a text begins with words that have blanks between them, the last of which ends there. -/
inductive Phrase : List String → List Char → Prop
  | last {w : String} {rest : List Char} (isName : IsName w.toList)
      (stops : rest.head?.any isWord = false) : Phrase [w] (w.toList ++ rest)
  | more {w : String} {ws : List String} {gap cs : List Char} (isName : IsName w.toList)
      (isGap : IsGap gap) (next : Phrase ws cs) : Phrase (w :: ws) (w.toList ++ (gap ++ cs))

variable {w : String} {ws vs : List String} {cs rest : List Char}

/-- A text without blanks at its ends is stripped already. -/
theorem strip_eq_self {s : String} (hhead : s.toList.head?.any isBlank = false)
    (hlast : s.toList.getLast?.any isBlank = false) : strip s = s := by
  have hdrop : ∀ cs : List Char, cs.head?.any isBlank = false → cs.dropWhile isBlank = cs := by
    intro cs hcs
    cases cs with
    | nil => rfl
    | cons c cs => exact List.dropWhile_cons_of_neg (Bool.eq_false_iff.mp hcs)
  rw [← List.head?_reverse] at hlast
  rw [strip, trim, trimLeft, hdrop _ hhead, trimRight, hdrop _ hlast, List.reverse_reverse,
    String.ofList_toList]

theorem IsName.getLast?_isBlank {cs : List Char} (h : IsName cs) (front : List Char) :
    (front ++ cs).getLast?.any isBlank = false := by
  rw [List.getLast?_append_of_ne_nil front h.1, List.getLast?_eq_some_getLast h.1]
  exact h.not_isBlank _ (List.getLast_mem h.1)

/-- A name has no blanks to lose at its ends. -/
theorem IsName.strip_eq (h : IsName w.toList) : strip w = w := by
  refine strip_eq_self ?_ (h.getLast?_isBlank [])
  have hhead := h.head?_isBlank []
  rwa [List.append_nil] at hhead

theorem IsGap.head?_isWord {gap : List Char} (h : IsGap gap) (rest : List Char) :
    (gap ++ rest).head?.any isWord = false :=
  head?_isWord_of_gap h.blank h.ne_nil rest

/-! ## Words with blanks after them -/

theorem spaced_singleton_iff :
    Spaced [w] cs ↔ IsName w.toList ∧ ∃ gap, IsGap gap ∧ cs = w.toList ++ gap := by
  constructor
  · intro h
    cases h with
    | cons hname hgap hmore =>
        cases hmore with
        | nil => exact ⟨hname, _, hgap, by rw [List.append_nil]⟩
  · rintro ⟨hname, gap, hgap, rfl⟩
    have hspaced := Spaced.cons hname hgap .nil
    rwa [List.append_nil] at hspaced

theorem spaced_append_iff :
    Spaced (ws ++ vs) cs ↔ ∃ as bs, Spaced ws as ∧ Spaced vs bs ∧ cs = as ++ bs := by
  constructor
  · intro h
    induction ws generalizing cs with
    | nil => exact ⟨[], cs, .nil, h, rfl⟩
    | cons w ws ih =>
        cases h with
        | cons hname hgap hmore =>
            obtain ⟨as, bs, has, hbs, rfl⟩ := ih hmore
            exact ⟨_, bs, .cons hname hgap has, hbs, by simp only [List.append_assoc]⟩
  · rintro ⟨as, bs, has, hbs, rfl⟩
    induction has with
    | nil => exact hbs
    | cons hname hgap _ ih =>
        simp only [List.append_assoc]
        exact .cons hname hgap ih

theorem spaced_cons_iff :
    Spaced (w :: ws) cs ↔ ∃ as bs, Spaced [w] as ∧ Spaced ws bs ∧ cs = as ++ bs := by
  rw [← spaced_append_iff, List.singleton_append]

/-! ## Readings -/

theorem Phrase.ne_nil (h : Phrase ws cs) : ws ≠ [] := by
  cases h with
  | last => exact List.cons_ne_nil _ _
  | more => exact List.cons_ne_nil _ _

/-- A reading begins with a name, which ends there. -/
theorem Phrase.exists_tail (h : Phrase (w :: ws) cs) :
    ∃ tail, cs = w.toList ++ tail ∧ IsName w.toList ∧ tail.head?.any isWord = false := by
  cases h with
  | last hname hstops => exact ⟨_, rfl, hname, hstops⟩
  | more hname hgap _ => exact ⟨_, rfl, hname, hgap.head?_isWord _⟩

theorem Phrase.head?_isBlank (h : Phrase ws cs) : cs.head?.any isBlank = false := by
  obtain ⟨w, ws, rfl⟩ := List.exists_cons_of_ne_nil h.ne_nil
  obtain ⟨tail, rfl, hname, -⟩ := h.exists_tail
  exact hname.head?_isBlank tail

theorem Phrase.isName (h : Phrase ws cs) : ∀ w ∈ ws, IsName w.toList := by
  induction h with
  | last hname => exact List.forall_mem_singleton.mpr hname
  | more hname _ _ ih => exact List.forall_mem_cons.mpr ⟨hname, ih⟩

/-- Two readings begin with the same word. -/
theorem Phrase.head_eq {v : String} (h : Phrase (w :: ws) cs) (h' : Phrase (v :: vs) cs) :
    w = v := by
  obtain ⟨tail, rfl, hname, hstops⟩ := h.exists_tail
  obtain ⟨tail', heq, hname', hstops'⟩ := h'.exists_tail
  exact String.toList_inj.mp (run_unique heq hname.2 hname'.2 hstops hstops').1

/-- Of two readings of a text one goes on where the other ends. -/
theorem Phrase.isPrefix_total (h : Phrase ws cs) (h' : Phrase vs cs) : ws <+: vs ∨ vs <+: ws := by
  induction h generalizing vs with
  | last hname hstops =>
      obtain ⟨v, vs, rfl⟩ := List.exists_cons_of_ne_nil h'.ne_nil
      rw [(Phrase.last hname hstops).head_eq h']
      exact .inl (List.prefix_append [v] vs)
  | @more w ws gap cs hname hgap hnext ih =>
      generalize htext : w.toList ++ (gap ++ cs) = text at h'
      cases h' with
      | @last v rest hname' hstops' =>
          have hword := run_unique htext hname.2 hname'.2 (hgap.head?_isWord cs) hstops'
          rw [String.toList_inj.mp hword.1]
          exact .inr (List.prefix_append [v] ws)
      | @more v vs gap' cs' hname' hgap' hnext' =>
          obtain ⟨hword, htail⟩ := run_unique htext hname.2 hname'.2 (hgap.head?_isWord cs)
            (hgap'.head?_isWord cs')
          obtain ⟨-, rfl⟩ := run_unique htail hgap.blank hgap'.blank hnext.head?_isBlank
            hnext'.head?_isBlank
          rw [String.toList_inj.mp hword]
          exact (ih hnext').imp (List.cons_prefix_cons.mpr ⟨rfl, ·⟩)
            (List.cons_prefix_cons.mpr ⟨rfl, ·⟩)

/-- A text has one reading of each length. -/
theorem Phrase.eq_of_length (h : Phrase ws cs) (h' : Phrase vs cs)
    (hlength : ws.length = vs.length) : ws = vs := by
  rcases h.isPrefix_total h' with hbegins | hbegins
  · exact hbegins.eq_of_length hlength
  · exact (hbegins.eq_of_length hlength.symm).symm

/-- What a text begins with, it begins with a part of. -/
theorem Phrase.of_append (h : Phrase (ws ++ vs) cs) (hne : ws ≠ []) : Phrase ws cs := by
  induction ws generalizing cs with
  | nil => exact absurd rfl hne
  | cons w ws ih =>
      obtain ⟨tail, rfl, hname, hstops⟩ := h.exists_tail
      cases ws with
      | nil => exact .last hname hstops
      | cons v ws =>
          rw [List.cons_append] at h
          generalize htext : w.toList ++ tail = text at h ⊢
          cases h with
          | more _ hgap hnext => exact .more hname hgap (ih hnext (List.cons_ne_nil v ws))

/-- Whether of words that may come before a name none are the beginning of others. -/
def PrefixFree (W : List String → Prop) : Prop := ∀ ⦃ws vs⦄, W ws → W vs → ws <+: vs → ws = vs

/-- Then a text has one name behind such words. -/
theorem PrefixFree.name_unique {W : List String → Prop} (hW : PrefixFree W) {v : String}
    (hws : W ws) (hvs : W vs) (h : Phrase (ws ++ [w]) cs) (h' : Phrase (vs ++ [v]) cs) : w = v := by
  wlog hle : ws.length ≤ vs.length generalizing ws vs w v
  · exact (this hvs hws h' h (Nat.le_of_not_le hle)).symm
  have hbegins : ws ++ [w] <+: vs ++ [v] := by
    rcases h.isPrefix_total h' with hp | hp
    · exact hp
    · exact hp.eq_of_length_le (by simpa using hle) ▸ List.prefix_rfl
  have hwords : ws <+: vs := List.prefix_of_prefix_length_le
    ((List.prefix_append ws [w]).trans hbegins) (List.prefix_append vs [v]) hle
  obtain rfl := hW hws hvs hwords
  exact List.singleton_inj.mp (List.append_cancel_left (h.eq_of_length h' (by simp)))

/-- Words with blanks after them and a name that ends there are read. -/
theorem Spaced.phrase {front : List Char} (h : Spaced ws front) (hname : IsName w.toList)
    (hstops : rest.head?.any isWord = false) :
    Phrase (ws ++ [w]) (front ++ (w.toList ++ rest)) := by
  induction h with
  | nil => exact .last hname hstops
  | cons hword hgap _ ih =>
      simp only [List.append_assoc]
      exact .more hword hgap ih

theorem Phrase.exists_spaced (h : Phrase (ws ++ [w]) cs) :
    ∃ front rest, Spaced ws front ∧ IsName w.toList ∧ cs = front ++ (w.toList ++ rest) := by
  induction ws generalizing cs with
  | nil =>
      obtain ⟨tail, rfl, hname, -⟩ := h.exists_tail
      exact ⟨[], tail, .nil, hname, rfl⟩
  | cons v ws ih =>
      rw [List.cons_append] at h
      generalize hwords : v :: (ws ++ [w]) = words at h
      cases h with
      | last => exact absurd (List.cons.inj hwords).2 (by simp)
      | more hname hgap hnext =>
          obtain ⟨rfl, rfl⟩ := List.cons.inj hwords
          obtain ⟨front, rest, hspaced, hlast, rfl⟩ := ih hnext
          exact ⟨_, rest, .cons hname hgap hspaced, hlast, by simp only [List.append_assoc]⟩

end Text

/-! ## Patterns of words -/

namespace Pattern

open Text

variable {p : Pattern} {n : Nat} {w head word s : String} {ws : List String} {cs : List Char}
  {parts : List (Nat × List Char)} {m : Match}

theorem takes_gap_iff_isGap : gap.Takes cs parts ↔ IsGap cs ∧ parts = [] := by
  rw [takes_gap_iff]
  exact and_congr_left' ⟨fun h => ⟨h.1, h.2⟩, fun h => ⟨h.blank, h.ne_nil⟩⟩

theorem takes_keyword_iff (hw : IsName w.toList) :
    (keyword w).Takes cs parts ↔ Spaced [w] cs ∧ parts = [] := by
  simp only [keyword, takes_append_silent_iff takes_gap_iff_isGap, takes_lit_iff,
    spaced_singleton_iff]
  constructor
  · rintro ⟨-, gap, ⟨rfl, rfl⟩, hgap, rfl⟩
    exact ⟨⟨hw, gap, hgap, rfl⟩, rfl⟩
  · rintro ⟨⟨-, gap, hgap, rfl⟩, rfl⟩
    exact ⟨_, gap, ⟨rfl, rfl⟩, hgap, rfl⟩

/-- Of keywords that may be missing, some are there in their order. -/
theorem takes_optKeywords_iff (hws : ∀ w ∈ ws, IsName w.toList) :
    (optKeywords ws).Takes cs parts ↔ (∃ ms, ms.Sublist ws ∧ Spaced ms cs) ∧ parts = [] := by
  induction ws generalizing cs parts with
  | nil =>
      simp only [optKeywords, List.sublist_nil]
      constructor
      · intro h
        cases h with
        | empty => exact ⟨⟨[], rfl, .nil⟩, rfl⟩
      · rintro ⟨⟨-, rfl, hspaced⟩, rfl⟩
        cases hspaced with
        | nil => exact .empty
  | cons w ws ih =>
      obtain ⟨hw, hws⟩ := List.forall_mem_cons.mp hws
      have hmore : ∀ {bs qs}, (optKeywords ws).Takes bs qs ↔
          (∃ ms, ms.Sublist ws ∧ Spaced ms bs) ∧ qs = [] := ih hws
      simp only [optKeywords, optKeyword, takes_append_silent_iff hmore,
        takes_opt_silent_iff (takes_keyword_iff hw)]
      constructor
      · -- a keyword is left out or taken, as a sublist leaves out its head or takes it
        rintro ⟨as, bs, ⟨rfl | has, rfl⟩, ⟨ms, hms, hbs⟩, rfl⟩
        · exact ⟨⟨ms, hms.cons w, hbs⟩, rfl⟩
        · exact ⟨⟨w :: ms, hms.cons_cons w, spaced_cons_iff.mpr ⟨as, bs, has, hbs, rfl⟩⟩, rfl⟩
      · rintro ⟨⟨ms, hms, hspaced⟩, rfl⟩
        cases hms with
        | cons _ hms => exact ⟨[], cs, ⟨.inl rfl, rfl⟩, ⟨ms, hms, hspaced⟩, rfl⟩
        | cons_cons _ hms =>
            obtain ⟨as, bs, has, hbs, rfl⟩ := spaced_cons_iff.mp hspaced
            exact ⟨as, bs, ⟨.inr has, rfl⟩, ⟨_, hms, hbs⟩, rfl⟩

/-- A keyword, a name and another word, each with blanks after it. -/
theorem takes_clause_iff (hhead : IsName head.toList) (hword : IsName word.toList) :
    (defined head ++ gap ++ keyword word).Takes cs parts ↔
      ∃ name : String, Spaced [head, name, word] cs ∧ parts = [(1, name.toList)] := by
  simp only [defined, takes_append_silent_iff (takes_keyword_iff hword),
    takes_append_silent_iff takes_gap_iff_isGap, takes_append_name_iff, takes_keyword_iff hhead]
  constructor
  · rintro ⟨-, bs, ⟨-, gap, ⟨as, name, -, ⟨has, rfl⟩, hname, rfl, rfl⟩, hgap, rfl⟩, hbs, rfl⟩
    obtain ⟨name, rfl⟩ : ∃ w : String, w.toList = name := ⟨_, String.toList_ofList⟩
    refine ⟨name, ?_, rfl⟩
    simp only [List.append_assoc]
    exact spaced_cons_iff.mpr ⟨as, _, has, .cons hname hgap hbs, rfl⟩
  · rintro ⟨name, hspaced, rfl⟩
    obtain ⟨as, bs, has, hmore, rfl⟩ := spaced_cons_iff.mp hspaced
    cases hmore with
    | cons hname hgap hbs =>
        exact ⟨_, _, ⟨_, _, ⟨as, _, [], ⟨has, rfl⟩, hname, rfl, rfl⟩, hgap, rfl⟩, hbs,
          by simp only [List.append_assoc]⟩

/-! ## Names behind words -/

/-- A match that ends with a name takes all of it. -/
theorem exists_name_of_matchStart? (hp : p.plain = true)
    (h : (p ++ name n).matchStart? s = some m) :
    ∃ front ps rest, ∃ w : String, p.Takes front ps ∧ IsName w.toList ∧
      rest.head?.any isWord = false ∧ s.toList = front ++ (w.toList ++ rest) ∧
      m.groups = (n, w.toList) :: ps := by
  obtain ⟨cs, rest, htakes, hs, hstops⟩ := exists_of_matchStart?_name hp h
  obtain ⟨front, w, ps, hfront, hname, rfl, hgroups⟩ := takes_append_name_iff.mp htakes
  rw [← String.toList_ofList (l := w)] at hname hs hgroups
  exact ⟨front, ps, rest, _, hfront, hname, hstops, by rw [hs, List.append_assoc], hgroups⟩

/-- Where words are laid out that a pattern takes, and a name comes next, there is a match. -/
theorem exists_matchStart?_of_phrase (h : Phrase (ws ++ [w]) s.toList)
    (htakes : ∀ {cs}, Spaced ws cs → ∃ ps, p.Takes cs ps) :
    ∃ m, (p ++ name n).matchStart? s = some m := by
  obtain ⟨front, rest, hspaced, hname, hs⟩ := h.exists_spaced
  obtain ⟨ps, hfront⟩ := htakes hspaced
  have hall : (p ++ name n).Takes (front ++ w.toList) ((n, w.toList) :: ps) :=
    takes_append_name_iff.mpr ⟨front, w.toList, ps, hfront, hname, rfl, rfl⟩
  exact hall.exists_matchStart? (hs.trans (List.append_assoc _ _ _).symm)

/-- A name is found behind words where a text begins with them and the name. -/
theorem matchStart?_name_iff (hp : p.plain = true) {W : List String → Prop}
    (htakes : ∀ {cs}, (∃ ps, p.Takes cs ps) ↔ ∃ ws, W ws ∧ Spaced ws cs) (hW : PrefixFree W) :
    ((p ++ name n).matchStart? s).map (·.group n) = some w ↔
      ∃ ws, W ws ∧ Phrase (ws ++ [w]) s.toList := by
  have hphrase : ∀ {m}, (p ++ name n).matchStart? s = some m →
      ∃ ws, W ws ∧ Phrase (ws ++ [m.group n]) s.toList := by
    intro m hm
    obtain ⟨front, ps, rest, v, hfront, hname, hstops, hs, hgroups⟩ :=
      exists_name_of_matchStart? hp hm
    obtain ⟨ws, hws, hspaced⟩ := htakes.mp ⟨ps, hfront⟩
    have hgroup : m.group n = String.ofList v.toList :=
      Match.group_of_groups hgroups (List.find?_cons_of_pos (beq_self_eq_true n))
    rw [hgroup, String.ofList_toList, hs]
    exact ⟨ws, hws, hspaced.phrase hname hstops⟩
  rw [Option.map_eq_some_iff]
  constructor
  · rintro ⟨m, hm, rfl⟩
    exact hphrase hm
  · rintro ⟨ws, hws, h⟩
    obtain ⟨m, hm⟩ := exists_matchStart?_of_phrase h fun hspaced => htakes.mpr ⟨ws, hws, hspaced⟩
    obtain ⟨vs, hvs, h'⟩ := hphrase hm
    exact ⟨m, hm, hW.name_unique hvs hws h' h⟩

/-- A header `head a word b` is found where a text begins with it. -/
theorem matchStart?_clause_iff (hhead : IsName head.toList) (hword : IsName word.toList)
    {a b : String} :
    (∃ m, (defined head ++ gap ++ keyword word ++ name 2).matchStart? s = some m ∧
      m.group 1 = a ∧ m.group 2 = b) ↔ Phrase [head, a, word, b] s.toList := by
  have hphrase : ∀ {m}, (defined head ++ gap ++ keyword word ++ name 2).matchStart? s = some m →
      Phrase [head, m.group 1, word, m.group 2] s.toList := by
    intro m hm
    obtain ⟨front, ps, rest, w, hfront, hname, hstops, hs, hgroups⟩ :=
      exists_name_of_matchStart? rfl hm
    obtain ⟨v, hspaced, rfl⟩ := (takes_clause_iff hhead hword).mp hfront
    have hfirst : m.group 1 = String.ofList v.toList := Match.group_of_groups hgroups rfl
    have hsecond : m.group 2 = String.ofList w.toList := Match.group_of_groups hgroups rfl
    rw [hfirst, hsecond, String.ofList_toList, String.ofList_toList, hs]
    exact hspaced.phrase hname hstops
  constructor
  · rintro ⟨m, hm, rfl, rfl⟩
    exact hphrase hm
  · intro h
    have hlast : Phrase ([head, a, word] ++ [b]) s.toList := h
    obtain ⟨m, hm⟩ := exists_matchStart?_of_phrase hlast fun hspaced =>
      ⟨_, (takes_clause_iff hhead hword).mpr ⟨a, hspaced, rfl⟩⟩
    -- some names are found, and the text has no other reading of this length
    have heq := (hphrase hm).eq_of_length h rfl
    simp only [List.cons.injEq, and_true, true_and] at heq
    exact ⟨m, hm, heq⟩

end Pattern

/-- What a rule for headers `head a word b` finds on a line, where `a` and `b` are the parts of the
header that have the numbers 1 and 2. -/
theorem HeaderRule.onLine_clause_iff {rule : HeaderRule} {head word : String}
    (hpattern : rule.pattern = defined head ++ gap ++ keyword word ++ name 2)
    (hhead : Text.IsName head.toList) (hword : Text.IsName word.toList)
    (howner : rule.owner ∈ [1, 2]) (htarget : rule.target ∈ [1, 2]) {n : Nat} {line : String}
    {e : String × Relation} :
    rule.onLine n line = some e ↔ ∃ part : Nat → String,
      Text.Phrase [head, part 1, word, part 2] (Text.strip line).toList ∧
        e = (part rule.owner, .link (rule.sort (part rule.target)).1 (part rule.target)
          (rule.sort (part rule.target)).2 n) := by
  have hmatch : rule.onLine n line = some e ↔ ∃ m, (defined head ++ gap ++ keyword word ++
      name 2).matchStart? (Text.strip line) = some m ∧
        (m.group rule.owner, .link (rule.sort (Text.strip (m.group rule.target))).1
          (Text.strip (m.group rule.target)) (rule.sort (Text.strip (m.group rule.target))).2 n)
            = e := by
    rw [onLine, hpattern]
    exact Option.map_eq_some_iff
  have hname : ∀ {part : Nat → String},
      Text.Phrase [head, part 1, word, part 2] (Text.strip line).toList →
        ∀ k ∈ [1, 2], Text.IsName (part k).toList := by
    intro part hphrase
    have hfirst := hphrase.isName (part 1) (by simp)
    have hsecond := hphrase.isName (part 2) (by simp)
    simp [hfirst, hsecond]
  rw [hmatch]
  constructor
  · rintro ⟨m, hm, rfl⟩
    have hphrase := (matchStart?_clause_iff hhead hword).mp ⟨m, hm, rfl, rfl⟩
    -- the target is stripped when it is filed, which changes no name
    exact ⟨m.group, hphrase, by rw [(hname hphrase _ htarget).strip_eq]⟩
  · rintro ⟨part, hphrase, rfl⟩
    obtain ⟨m, hm, hfirst, hsecond⟩ := (matchStart?_clause_iff hhead hword).mpr hphrase
    have hparts : ∀ k ∈ [1, 2], m.group k = part k := by simp [hfirst, hsecond]
    refine ⟨m, hm, ?_⟩
    rw [hparts _ howner, hparts _ htarget, (hname hphrase _ htarget).strip_eq]

end SymbolAtlas
