/-
  SymbolAtlas.Proofs.FunctionHeaders: headers of functions, taken for calls.

  The header of a function is a keyword, the name and its parameters, in one of three styles. A line
  has at most one (`HeaderForm.At.unique`), and a rule finds its name there
  (`HeaderForm.At.nameOn?`). A header that has the parameters right after the name looks
  like a call of the name. The line belongs to the function that it defines, so the function is said
  to call itself, unless its name is one that is never called.
-/

import SymbolAtlas.Proofs.CallSites

namespace SymbolAtlas

open Pattern Declarations

/-! ## Runs and ends -/

namespace Text

/-- A run of characters of a kind ends where a character of another kind comes next. -/
theorem run_unique {p : Char → Bool} {a b s t : List Char} (h : a ++ s = b ++ t)
    (ha : ∀ c ∈ a, p c = true) (hb : ∀ c ∈ b, p c = true) (hs : s.head?.any p = false)
    (ht : t.head?.any p = false) : a = b ∧ s = t := by
  induction a generalizing b with
  | nil =>
      cases b with
      | nil => exact ⟨rfl, h⟩
      | cons d b =>
          rw [show s = d :: (b ++ t) from h, List.head?_cons, Option.any_some,
            hb d List.mem_cons_self] at hs
          exact absurd hs (by decide)
  | cons c a ih =>
      cases b with
      | nil =>
          rw [show t = c :: (a ++ s) from h.symm, List.head?_cons, Option.any_some,
            ha c List.mem_cons_self] at ht
          exact absurd ht (by decide)
      | cons d b =>
          obtain ⟨rfl, htail⟩ := List.cons.inj h
          obtain ⟨rfl, hrest⟩ := ih htail (fun x hx => ha x (List.mem_cons_of_mem _ hx))
            fun x hx => hb x (List.mem_cons_of_mem _ hx)
          exact ⟨rfl, hrest⟩

theorem IsName.head?_isBlank {w : List Char} (h : IsName w) (rest : List Char) :
    (w ++ rest).head?.any isBlank = false := by
  obtain ⟨c, cs, rfl⟩ := List.exists_cons_of_ne_nil h.1
  exact h.not_isBlank c List.mem_cons_self

theorem head?_isWord_of_gap {gap : List Char} (hgap : ∀ c ∈ gap, isBlank c = true)
    (hne : gap ≠ []) (rest : List Char) : (gap ++ rest).head?.any isWord = false := by
  obtain ⟨c, cs, rfl⟩ := List.exists_cons_of_ne_nil hne
  exact isWord_of_isBlank (hgap c List.mem_cons_self)

/-- A text is what is left without the blanks at its ends, with blanks around it. -/
theorem exists_trim (cs : List Char) :
    ∃ pad rear, cs = pad ++ (trim cs ++ rear) ∧ ∀ c ∈ pad, isBlank c = true := by
  refine ⟨cs.takeWhile isBlank, ((trimLeft cs).reverse.takeWhile isBlank).reverse, ?_,
    List.all_eq_true.mp List.all_takeWhile⟩
  rw [trim, trimRight, ← List.reverse_append, List.takeWhile_append_dropWhile, List.reverse_reverse,
    trimLeft, List.takeWhile_append_dropWhile]

/-- What stands between two characters that are no blanks is left. -/
theorem trim_append {pad ink rest : List Char} {last : Char}
    (hpad : ∀ c ∈ pad, isBlank c = true)
    (hhead : (ink ++ [last] ++ rest).head?.any isBlank = false) (hlast : isBlank last = false) :
    ∃ rest', trim (pad ++ (ink ++ [last] ++ rest)) = ink ++ [last] ++ rest' := by
  have hleft : trimLeft (pad ++ (ink ++ [last] ++ rest)) = ink ++ [last] ++ rest := by
    rw [trimLeft, List.dropWhile_append_of_pos hpad]
    cases hcs : ink ++ [last] ++ rest with
    | nil => rfl
    | cons c cs =>
        rw [hcs] at hhead
        exact List.dropWhile_cons_of_neg (by simpa using hhead)
  rw [trim, hleft, trimRight, List.reverse_append, List.dropWhile_append]
  split
  · rw [List.reverse_append, List.reverse_singleton, List.singleton_append,
      List.dropWhile_cons_of_neg (by simp [hlast])]
    exact ⟨[], by simp⟩
  · rw [List.reverse_append, List.reverse_reverse]
    exact ⟨_, rfl⟩

/-- A receiver in parentheses and the blanks after it: two words, which may have stars. -/
def IsReceiver (cs : List Char) : Prop :=
  ∃ a v b t c gap, cs = '(' :: (a ++ v ++ b ++ t ++ c) ++ ')' :: gap ∧
    (∀ x ∈ a ++ b ++ c ++ gap, isBlank x = true) ∧ b ≠ [] ∧ gap ≠ [] ∧
    (∀ x ∈ v ++ t, (isWord x || x == '*') = true) ∧ v ≠ [] ∧ t ≠ []

/-- A receiver reaches to the first closing parenthesis, and blanks follow. -/
theorem IsReceiver.split {cs : List Char} (h : IsReceiver cs) :
    ∃ inner gap, cs = '(' :: inner ++ ')' :: gap ∧ (∀ c ∈ '(' :: inner, (c != ')') = true) ∧
      gap ≠ [] ∧ ∀ c ∈ gap, isBlank c = true := by
  obtain ⟨a, v, b, t, c, gap, rfl, hblank, -, hgap, hword, -⟩ := h
  refine ⟨a ++ v ++ b ++ t ++ c, gap, rfl, ?_, hgap, fun x hx => hblank x (by simp [hx])⟩
  -- a closing parenthesis is neither a blank nor part of a word
  have hparen : isBlank ')' = false ∧ (isWord ')' || ')' == '*') = false := by decide
  intro x hx
  rw [bne_iff_ne]
  rintro rfl
  have hcases : ')' ∈ a ++ b ++ c ++ gap ∨ ')' ∈ v ++ t := by
    simp only [List.mem_cons, List.mem_append] at hx ⊢
    rcases hx with hx | (((hx | hx) | hx) | hx) | hx
    · exact absurd hx (by decide)
    all_goals simp [hx]
  rcases hcases with hx | hx
  · exact absurd (hparen.1.symm.trans (hblank _ hx)) (by decide)
  · exact absurd (hparen.2.symm.trans (hword _ hx)) (by decide)

end Text

/-! ## Headers -/

/-- How a header goes on after its keyword: with the name and a parenthesis, with a receiver or none
before them, or with the name, a sign of equality, parameters and an arrow. -/
inductive HeaderStyle where
  | call | method | arrow
  deriving DecidableEq, Repr

/-- What comes after the name in a header. -/
def HeaderStyle.Sign : HeaderStyle → List Char → Prop
  | .arrow, sign => ∃ a b ps c,
      sign = a ++ '=' :: (b ++ '(' :: (ps ++ ')' :: (c ++ ['=', '>']))) ∧
      (∀ x ∈ a ++ b ++ c, Text.isBlank x = true) ∧ ')' ∉ ps
  | _, sign => ∃ a, sign = a ++ ['('] ∧ ∀ x ∈ a, Text.isBlank x = true

/-- The form of a header: its keyword and its style. -/
structure HeaderForm where
  word : String
  style : HeaderStyle := .call
  isName : Text.IsName word.toList

namespace HeaderForm

/-- The parts of a header after its keyword: blanks, what comes before the name, the name, and what
comes after it. -/
structure Fits (f : HeaderForm) (gap lead name sign : List Char) : Prop where
  gap_ne : gap ≠ []
  blank : ∀ c ∈ gap, Text.isBlank c = true
  lead : lead = [] ∨ f.style = .method ∧ Text.IsReceiver lead
  isName : Text.IsName name
  sign : f.style.Sign sign

/-- Whether a line begins with a header, after blanks or none, and the name stands at a place. -/
def At (f : HeaderForm) (line : String) (place : Nat) (name : String) : Prop :=
  ∃ pad gap lead sign rest, f.Fits gap lead name.toList sign ∧ (∀ c ∈ pad, Text.isBlank c = true) ∧
    line.toList = pad ++ (f.word.toList ++ (gap ++ (lead ++ (name.toList ++ (sign ++ rest))))) ∧
    place = (pad ++ (f.word.toList ++ (gap ++ lead))).length

/-- The pattern of a header. -/
def pattern (f : HeaderForm) : Pattern :=
  match f.style with
  | .call => definedCall f.word
  | .method =>
    keyword f.word ++
      opt (lit "(" ++ blanks ++ goWord ++ gap ++ goWord ++ blanks ++ lit ")" ++ gap) ++
      name 1 ++ blanks ++ lit "("
  | .arrow =>
    defined f.word ++ blanks ++ lit "=" ++ blanks ++ parens ++ blanks ++ lit "=>"

end HeaderForm

namespace HeaderStyle

variable {style : HeaderStyle} {sign : List Char}

/-- After the name come blanks or none and a character that is no part of a word. -/
theorem Sign.head?_isWord (h : style.Sign sign) (rest : List Char) :
    (sign ++ rest).head?.any Text.isWord = false := by
  obtain ⟨a, c, tail, rfl, ha, hc⟩ : ∃ a c tail, sign = a ++ c :: tail ∧
      (∀ x ∈ a, Text.isBlank x = true) ∧ Text.isWord c = false := by
    cases style with
    | arrow =>
        obtain ⟨a, b, ps, c, rfl, hblank, -⟩ := h
        exact ⟨a, '=', _, rfl, fun x hx => hblank x (by simp [hx]), by decide⟩
    | _ =>
        obtain ⟨a, rfl, ha⟩ := h
        exact ⟨a, '(', _, rfl, ha, by decide⟩
  cases a with
  | nil => exact hc
  | cons b a => exact Text.isWord_of_isBlank (ha b List.mem_cons_self)

theorem Sign.exists_last (h : style.Sign sign) :
    ∃ init last, sign = init ++ [last] ∧ Text.isBlank last = false := by
  cases style with
  | arrow =>
      obtain ⟨a, b, ps, c, rfl, -⟩ := h
      exact ⟨a ++ '=' :: (b ++ '(' :: (ps ++ ')' :: (c ++ ['=']))), '>', by simp, by decide⟩
  | _ =>
      obtain ⟨a, rfl, -⟩ := h
      exact ⟨a, '(', rfl, by decide⟩

end HeaderStyle

/-! ## One header on a line -/

namespace HeaderForm

variable {f f' : HeaderForm} {line g g' : String} {i j : Nat}
  {gap lead name sign gap' lead' name' sign' rest rest' : List Char}

theorem Fits.head?_isBlank (h : f.Fits gap lead name sign) (rest : List Char) :
    (lead ++ (name ++ rest)).head?.any Text.isBlank = false := by
  rcases h.lead with rfl | ⟨-, hreceiver⟩
  · exact h.isName.head?_isBlank rest
  · obtain ⟨inner, gap, rfl, -⟩ := hreceiver.split
    show Text.isBlank '(' = false
    decide

/-- No name begins like a receiver. -/
theorem not_receiver_of_isName (hname : Text.IsName name) (hlead : Text.IsReceiver lead)
    (h : name ++ rest = lead ++ rest') : False := by
  obtain ⟨inner, gap, rfl, -⟩ := hlead.split
  obtain ⟨c, cs, rfl⟩ := List.exists_cons_of_ne_nil hname.1
  have hword := hname.2 c List.mem_cons_self
  rw [(List.cons.inj h).1] at hword
  exact absurd hword (by decide)

/-- What comes before the name, and the name, are told by the text after the keyword. -/
theorem Fits.lead_eq_and_name_eq (h : f.Fits gap lead name sign)
    (h' : f'.Fits gap' lead' name' sign')
    (heq : lead ++ (name ++ (sign ++ rest)) = lead' ++ (name' ++ (sign' ++ rest'))) :
    lead = lead' ∧ name = name' := by
  have hnames : name ++ (sign ++ rest) = name' ++ (sign' ++ rest') → name = name' := fun heq =>
    (Text.run_unique heq h.isName.2 h'.isName.2 (h.sign.head?_isWord rest)
      (h'.sign.head?_isWord rest')).1
  rcases h.lead with rfl | ⟨-, hlead⟩
  · rcases h'.lead with rfl | ⟨-, hlead'⟩
    · exact ⟨rfl, hnames heq⟩
    · exact (not_receiver_of_isName h.isName hlead' heq).elim
  · rcases h'.lead with rfl | ⟨-, hlead'⟩
    · exact (not_receiver_of_isName h'.isName hlead heq.symm).elim
    · obtain ⟨inner, after, rfl, hinner, -, hafter⟩ := hlead.split
      obtain ⟨inner', after', rfl, hinner', -, hafter'⟩ := hlead'.split
      rw [List.append_assoc, List.append_assoc] at heq
      obtain ⟨hinners, hclosed⟩ := Text.run_unique heq hinner hinner' rfl rfl
      obtain ⟨hafters, hrest⟩ := Text.run_unique (List.cons.inj hclosed).2 hafter hafter'
        (h.isName.head?_isBlank _) (h'.isName.head?_isBlank _)
      exact ⟨by rw [hinners, hafters], hnames hrest⟩

/-- A line has at most one header, of whichever forms. -/
theorem At.unique (h : f.At line i g) (h' : f'.At line j g') : i = j ∧ g = g' := by
  obtain ⟨pad, gap, lead, sign, rest, hfits, hpad, hline, rfl⟩ := h
  obtain ⟨pad', gap', lead', sign', rest', hfits', hpad', hline', rfl⟩ := h'
  -- blanks, the keyword and blanks again: each run ends where a character of another kind comes
  obtain ⟨hpads, hheader⟩ := Text.run_unique (hline.symm.trans hline') hpad hpad'
    (f.isName.head?_isBlank _) (f'.isName.head?_isBlank _)
  obtain ⟨hwords, hafter⟩ := Text.run_unique hheader f.isName.2 f'.isName.2
    (Text.head?_isWord_of_gap hfits.blank hfits.gap_ne _)
    (Text.head?_isWord_of_gap hfits'.blank hfits'.gap_ne _)
  obtain ⟨hgaps, htail⟩ := Text.run_unique hafter hfits.blank hfits'.blank
    (hfits.head?_isBlank _) (hfits'.head?_isBlank _)
  obtain ⟨hleads, hnames⟩ := hfits.lead_eq_and_name_eq hfits' htail
  exact ⟨by rw [hpads, hwords, hgaps, hleads], String.toList_inj.mp hnames⟩

/-! ## Headers and calls -/

/-- A header with the parameters right after the name looks like a call of the name. -/
theorem At.callsAt (h : f.At line i g) (hstyle : f.style ≠ .arrow) : Text.CallsAt line i g := by
  obtain ⟨pad, gap, lead, sign, rest, hfits, hpad, hline, rfl⟩ := h
  refine ⟨pad ++ (f.word.toList ++ (gap ++ lead)), sign ++ rest, ?_, rfl, hfits.isName, ?_, ?_⟩
  · rw [hline]
    simp only [List.append_assoc]
  · -- before the name there is a blank
    obtain ⟨init, blanks, hsplit, hne, hblanks⟩ : ∃ init blanks,
        pad ++ (f.word.toList ++ (gap ++ lead)) = init ++ blanks ∧ blanks ≠ [] ∧
          ∀ c ∈ blanks, Text.isBlank c = true := by
      rcases hfits.lead with rfl | ⟨-, hlead⟩
      · exact ⟨pad ++ f.word.toList, gap, by simp, hfits.gap_ne, hfits.blank⟩
      · obtain ⟨inner, after, rfl, -, hne, hafter⟩ := hlead.split
        exact ⟨pad ++ (f.word.toList ++ (gap ++ ('(' :: inner ++ [')']))), after, by simp, hne,
          hafter⟩
    rw [hsplit, List.getLast?_append, List.getLast?_eq_some_getLast hne, Option.some_or,
      Option.any_some]
    exact Text.isWord_of_isBlank (hblanks _ (List.getLast_mem hne))
  · have hsign : ∃ a, sign = a ++ ['('] ∧ ∀ x ∈ a, Text.isBlank x = true := by
      have hsign := hfits.sign
      cases hs : f.style with
      | arrow => exact absurd hs hstyle
      | _ =>
          rw [hs] at hsign
          exact hsign
    obtain ⟨a, rfl, ha⟩ := hsign
    rw [List.append_assoc]
    exact Text.opensParen_append ha rest

/-- The name before an arrow function does not look like a call. -/
theorem At.not_callsAt (h : f.At line i g) (hstyle : f.style = .arrow) :
    ¬ Text.CallsAt line i g := by
  obtain ⟨pad, gap, lead, sign, rest, hfits, hpad, hline, rfl⟩ := h
  rintro ⟨before, after, hline', hlength, -, -, hparen⟩
  have hsign := hfits.sign
  rw [hstyle] at hsign
  obtain ⟨a, b, ps, c, rfl, hblank, -⟩ := hsign
  have heq : pad ++ (f.word.toList ++ (gap ++ lead)) ++ (g.toList ++
      ((a ++ '=' :: (b ++ '(' :: (ps ++ ')' :: (c ++ ['=', '>'])))) ++ rest)) =
        before ++ (g.toList ++ after) := by
    rw [← List.append_assoc before, ← hline', hline]
    simp only [List.append_assoc]
  obtain ⟨-, heq⟩ := List.append_inj heq hlength.symm
  obtain rfl := List.append_cancel_left heq
  obtain ⟨blanks, tail, hblanks, htail⟩ := Text.exists_of_opensParen hparen
  rw [List.append_assoc] at htail
  -- the first character that is no blank is a sign of equality, no parenthesis
  obtain ⟨-, hsame⟩ := Text.run_unique htail (fun x hx => hblank x (by simp [hx])) hblanks
    rfl rfl
  exact absurd (List.cons.inj hsame).1 (by decide)

end HeaderForm

/-! ## The rule of a header -/

namespace Pattern

variable {cs : List Char} {parts : List (Nat × List Char)}

theorem takes_goWord_iff :
    goWord.Takes cs parts ↔
      ((∀ c ∈ cs, (Text.isWord c || c == '*') = true) ∧ cs ≠ []) ∧ parts = [] := by
  have hholds : ∀ c, CharClass.holds ⟨[.word, .char '*'], false⟩ c =
      (Text.isWord c || c == '*') := by
    intro c
    simp [CharClass.holds, ClassItem.holds]
  rw [goWord, plus, takes_many_iff]
  simp only [hholds, Nat.one_le_iff_ne_zero, ne_eq, List.length_eq_zero_iff, and_assoc]

/-- Characters up to a closing parenthesis. -/
theorem takes_noParen_iff {least : Nat} :
    (many (.noneOf ")") least none).Takes cs parts ↔
      (')' ∉ cs ∧ least ≤ cs.length) ∧ parts = [] := by
  have hholds : ∀ c, CharClass.holds (.noneOf ")") c = true ↔ c ≠ ')' := by
    intro c
    simp [CharClass.holds, ClassItem.holds, CharClass.noneOf]
  rw [takes_many_iff, and_assoc]
  refine and_congr_left fun _ => ⟨fun h hmem => (hholds _).mp (h _ hmem) rfl, ?_⟩
  rintro h c hc
  exact (hholds c).mpr fun heq => h (heq ▸ hc)

theorem takes_parens_iff :
    parens.Takes cs parts ↔ (∃ ps, ')' ∉ ps ∧ cs = '(' :: (ps ++ [')'])) ∧ parts = [] := by
  simp only [parens, chars, takes_append_silent_iff takes_lit_iff,
    takes_append_silent_iff takes_noParen_iff, takes_lit_iff, Nat.zero_le, and_true]
  constructor
  · rintro ⟨-, -, ⟨-, ps, ⟨rfl, rfl⟩, hps, rfl⟩, rfl, rfl⟩
    exact ⟨⟨ps, hps, rfl⟩, rfl⟩
  · rintro ⟨⟨ps, hps, rfl⟩, rfl⟩
    exact ⟨_, _, ⟨_, ps, ⟨rfl, rfl⟩, hps, rfl⟩, rfl, rfl⟩

theorem takes_receiver_iff :
    (lit "(" ++ blanks ++ goWord ++ gap ++ goWord ++ blanks ++ lit ")" ++ gap).Takes cs parts ↔
      Text.IsReceiver cs ∧ parts = [] := by
  simp only [takes_append_silent_iff takes_gap_iff, takes_append_silent_iff takes_lit_iff,
    takes_append_silent_iff takes_blanks_iff, takes_append_silent_iff takes_goWord_iff,
    takes_lit_iff]
  constructor
  · rintro ⟨-, gap, ⟨-, -, ⟨-, c, ⟨-, t, ⟨-, b, ⟨-, v, ⟨-, a, ⟨rfl, rfl⟩, ha, rfl⟩, hv, rfl⟩, hb,
      rfl⟩, ht, rfl⟩, hc, rfl⟩, rfl, rfl⟩, hgap, rfl⟩
    refine ⟨⟨a, v, b, t, c, gap, by simp, ?_, hb.2, hgap.2, ?_, hv.2, ht.2⟩, rfl⟩
    · simp only [List.forall_mem_append]
      exact ⟨⟨⟨ha, hb.1⟩, hc⟩, hgap.1⟩
    · simp only [List.forall_mem_append]
      exact ⟨hv.1, ht.1⟩
  · rintro ⟨⟨a, v, b, t, c, gap, rfl, hblank, hb, hgap, hword, hv, ht⟩, rfl⟩
    simp only [List.forall_mem_append] at hblank hword
    exact ⟨_, gap, ⟨_, _, ⟨_, c, ⟨_, t, ⟨_, b, ⟨_, v, ⟨_, a, ⟨rfl, rfl⟩, hblank.1.1.1, rfl⟩,
      ⟨hword.1, hv⟩, rfl⟩, ⟨hblank.1.1.2, hb⟩, rfl⟩, ⟨hword.2, ht⟩, rfl⟩, hblank.1.2, rfl⟩, rfl,
      rfl⟩, ⟨hblank.2, hgap⟩, by simp⟩

end Pattern

/-- The name that a line defines by a rule that takes all names as they are. -/
theorem SymbolRule.nameOn?_eq {rule : SymbolRule} (hraw : rule.raw = false)
    (htrim : rule.trimName = false) (hexcluded : rule.excluded = []) (line : String) :
    rule.nameOn? line =
      (rule.pattern.matchStart? (Text.strip line)).map (·.group rule.part) := by
  simp only [nameOn?, hraw, htrim, hexcluded, Bool.false_eq_true, if_false, List.contains_nil]
  cases rule.pattern.matchStart? (Text.strip line) with
  | none => rfl
  | some m => rfl

theorem SymbolRule.nameOn?_of (kind : String) (p : Pattern) (line : String) :
    (SymbolRule.of kind p).nameOn? line = (p.matchStart? (Text.strip line)).map (·.group 1) :=
  nameOn?_eq rfl rfl rfl line

namespace HeaderForm

variable {f : HeaderForm} {line g : String} {cs : List Char} {parts : List (Nat × List Char)}

theorem takes_pattern_iff :
    f.pattern.Takes cs parts ↔ ∃ gap lead name sign, f.Fits gap lead name sign ∧
      cs = f.word.toList ++ (gap ++ (lead ++ (name ++ sign))) ∧ parts = [(1, name)] := by
  obtain ⟨word, style, hword⟩ := f
  -- the pieces of a text are those of the pattern, from right to left
  cases style with
  | call =>
      simp only [pattern, definedCall, defined, keyword, takes_append_silent_iff takes_lit_iff,
        takes_append_silent_iff takes_blanks_iff, takes_append_silent_iff takes_gap_iff,
        takes_append_name_iff, takes_lit_iff]
      constructor
      · rintro ⟨-, -, ⟨-, a, ⟨-, w, -, ⟨-, gap, ⟨rfl, rfl⟩, hgap, rfl⟩, hw, rfl, rfl⟩, ha, rfl⟩,
          rfl, rfl⟩
        exact ⟨gap, [], w, _, ⟨hgap.2, hgap.1, .inl rfl, hw, a, rfl, ha⟩, by simp, rfl⟩
      · rintro ⟨gap, lead, w, -, ⟨hne, hgap, hlead, hw, a, rfl, ha⟩, rfl, rfl⟩
        obtain rfl : lead = [] := hlead.resolve_right fun h => nomatch h.1
        exact ⟨_, _, ⟨_, a, ⟨_, w, _, ⟨_, gap, ⟨rfl, rfl⟩, ⟨hgap, hne⟩, rfl⟩, hw, rfl, rfl⟩, ha,
          rfl⟩, rfl, by simp⟩
  | method =>
      have hlead : ∀ {bs qs}, (opt (lit "(" ++ blanks ++ goWord ++ gap ++ goWord ++ blanks ++
          lit ")" ++ gap)).Takes bs qs ↔ (bs = [] ∨ Text.IsReceiver bs) ∧ qs = [] := by
        intro bs qs
        rw [takes_opt_iff, takes_receiver_iff, or_comm, or_and_right]
      simp only [pattern, keyword, takes_append_silent_iff takes_lit_iff,
        takes_append_silent_iff takes_blanks_iff, takes_append_silent_iff takes_gap_iff,
        takes_append_silent_iff hlead, takes_append_name_iff, takes_lit_iff]
      constructor
      · rintro ⟨-, -, ⟨-, a, ⟨-, w, -, ⟨-, lead, ⟨-, gap, ⟨rfl, rfl⟩, hgap, rfl⟩, hlead, rfl⟩, hw,
          rfl, rfl⟩, ha, rfl⟩, rfl, rfl⟩
        exact ⟨gap, lead, w, _, ⟨hgap.2, hgap.1, hlead.imp_right fun h => ⟨rfl, h⟩, hw, a, rfl, ha⟩,
          by simp, rfl⟩
      · rintro ⟨gap, lead, w, -, ⟨hne, hgap, hlead, hw, a, rfl, ha⟩, rfl, rfl⟩
        exact ⟨_, _, ⟨_, a, ⟨_, w, _, ⟨_, lead, ⟨_, gap, ⟨rfl, rfl⟩, ⟨hgap, hne⟩, rfl⟩,
          hlead.imp_right And.right, rfl⟩, hw, rfl, rfl⟩, ha, rfl⟩, rfl, by simp⟩
  | arrow =>
      simp only [pattern, defined, keyword, takes_append_silent_iff takes_lit_iff,
        takes_append_silent_iff takes_blanks_iff, takes_append_silent_iff takes_gap_iff,
        takes_append_silent_iff takes_parens_iff, takes_append_name_iff, takes_lit_iff]
      constructor
      · rintro ⟨-, -, ⟨-, c, ⟨-, -, ⟨-, b, ⟨-, -, ⟨-, a, ⟨-, w, -, ⟨-, gap, ⟨rfl, rfl⟩, hgap, rfl⟩,
          hw, rfl, rfl⟩, ha, rfl⟩, rfl, rfl⟩, hb, rfl⟩, ⟨ps, hps, rfl⟩, rfl⟩, hc, rfl⟩, rfl, rfl⟩
        refine ⟨gap, [], w, _, ⟨hgap.2, hgap.1, .inl rfl, hw, a, b, ps, c, rfl, ?_, hps⟩, by simp,
          rfl⟩
        simp only [List.forall_mem_append]
        exact ⟨⟨ha, hb⟩, hc⟩
      · rintro ⟨gap, lead, w, -, ⟨hne, hgap, hlead, hw, a, b, ps, c, rfl, hblank, hps⟩, rfl, rfl⟩
        obtain rfl : lead = [] := hlead.resolve_right fun h => nomatch h.1
        simp only [List.forall_mem_append] at hblank
        exact ⟨_, _, ⟨_, c, ⟨_, _, ⟨_, b, ⟨_, _, ⟨_, a, ⟨_, w, _, ⟨_, gap, ⟨rfl, rfl⟩, ⟨hgap, hne⟩,
          rfl⟩, hw, rfl, rfl⟩, hblank.1.1, rfl⟩, rfl, rfl⟩, hblank.1.2, rfl⟩, ⟨ps, hps, rfl⟩, rfl⟩,
          hblank.2, rfl⟩, rfl, by simp⟩

/-- The rule that finds the functions whose headers have a form. -/
def rule (f : HeaderForm) : SymbolRule := .of "function" f.pattern

theorem plain_pattern (f : HeaderForm) : f.pattern.plain = true := by
  obtain ⟨word, style, hword⟩ := f
  cases style with
  | _ => rfl

theorem exists_fits_of_nameOn? (h : f.rule.nameOn? line = some g) :
    ∃ gap lead sign rest, f.Fits gap lead g.toList sign ∧ (Text.strip line).toList =
      f.word.toList ++ (gap ++ (lead ++ (g.toList ++ (sign ++ rest)))) := by
  rw [rule, SymbolRule.nameOn?_of] at h
  obtain ⟨m, hm, rfl⟩ := Option.map_eq_some_iff.mp h
  obtain ⟨cs, rest, htakes, hstrip⟩ := exists_of_matchStart? f.plain_pattern hm
  obtain ⟨gap, lead, name, sign, hfits, rfl, hparts⟩ := takes_pattern_iff.mp htakes
  have hgroup : m.group 1 = String.ofList name := Match.group_of_groups hparts rfl
  rw [hgroup, String.toList_ofList]
  exact ⟨gap, lead, sign, rest, hfits, by rw [hstrip]; simp only [List.append_assoc]⟩

theorem exists_at_of_nameOn? (h : f.rule.nameOn? line = some g) : ∃ i, f.At line i g := by
  obtain ⟨gap, lead, sign, rest, hfits, hstrip⟩ := exists_fits_of_nameOn? h
  obtain ⟨pad, rear, hline, hpad⟩ := Text.exists_trim line.toList
  refine ⟨_, pad, gap, lead, sign, rest ++ rear, hfits, hpad, ?_, rfl⟩
  rw [hline, ← String.toList_ofList (l := Text.trim line.toList), ← Text.strip, hstrip]
  simp only [List.append_assoc]

/-- On a line with a header of a form, the rule for the form finds its name. -/
theorem At.nameOn? {i : Nat} (h : f.At line i g) : f.rule.nameOn? line = some g := by
  obtain ⟨pad, gap, lead, sign, rest, hfits, hpad, hline, -⟩ := id h
  obtain ⟨init, last, rfl, hlast⟩ := hfits.sign.exists_last
  have htakes : f.pattern.Takes
      (f.word.toList ++ (gap ++ (lead ++ (g.toList ++ init))) ++ [last]) [(1, g.toList)] :=
    takes_pattern_iff.mpr
      ⟨gap, lead, g.toList, init ++ [last], hfits, by simp only [List.append_assoc], rfl⟩
  have hsplit : line.toList =
      pad ++ (f.word.toList ++ (gap ++ (lead ++ (g.toList ++ init))) ++ [last] ++ rest) := by
    rw [hline]
    simp only [List.append_assoc]
  have hhead : (f.word.toList ++ (gap ++ (lead ++ (g.toList ++ init))) ++ [last] ++
      rest).head?.any Text.isBlank = false := by
    rw [List.append_assoc, List.append_assoc]
    exact f.isName.head?_isBlank _
  obtain ⟨rest', htrim⟩ := Text.trim_append hpad hhead hlast
  have hstrip : (Text.strip line).toList =
      f.word.toList ++ (gap ++ (lead ++ (g.toList ++ init))) ++ [last] ++ rest' := by
    rw [Text.strip, String.toList_ofList, hsplit, htrim]
  obtain ⟨m, hm⟩ := htakes.exists_matchStart? hstrip
  -- some name is found, and a line has no other header
  have hfound : f.rule.nameOn? line = some (m.group 1) := by
    rw [rule, SymbolRule.nameOn?_of, hm, Option.map_some]
  obtain ⟨j, hat⟩ := exists_at_of_nameOn? hfound
  rw [hfound, (hat.unique h).2]

end HeaderForm

/-- The symbols of a kind that are found on a line are those of the rules for this kind. -/
theorem LineRules.exists_symbolOn_iff (rules : LineRules) (src : Source) {lines : List String}
    {line kind name : String} {n : Nat} (hline : (line, n) ∈ lines.zipIdx 1) :
    (∃ s : Symbol, .symbol s ∈ rules.findSymbols src lines ∧ s.kind = kind ∧ s.first = n ∧
      s.name = name) ↔
        ∃ rule ∈ rules.symbols, rule.kind = kind ∧ rule.nameOn? line = some name := by
  constructor
  · rintro ⟨s, hs, rfl, hfirst, rfl⟩
    obtain ⟨s', hmem, heq⟩ := List.mem_map.mp hs
    obtain rfl := Finding.symbol.inj heq
    obtain ⟨rule, hrule, hscan⟩ := List.mem_flatMap.mp hmem
    obtain ⟨⟨line', n'⟩, hl, hon⟩ := List.mem_flatMap.mp hscan
    obtain ⟨name, hname, rfl⟩ := List.mem_map.mp hon
    obtain rfl : n' = n := Int.ofNat.inj hfirst
    obtain rfl := line_eq_of_mem_zipIdx hline hl
    exact ⟨rule, hrule, rfl, Option.mem_toList.mp hname⟩
  · rintro ⟨rule, hrule, rfl, hname⟩
    refine ⟨src.symbolOn n name rule.kind (Text.strip line), ?_, rfl, rfl, rfl⟩
    refine List.mem_map_of_mem (List.mem_flatMap.mpr ⟨rule, hrule, List.mem_flatMap.mpr
      ⟨(line, n), hline, ?_⟩⟩)
    rw [SymbolRule.onLine, hname]
    exact List.mem_singleton_self _

theorem LineRules.exists_symbolOn_iff_of_filter {rules : LineRules} {rule : SymbolRule}
    {kind : String} (h : rules.symbols.filter (·.kind == kind) = [rule]) (src : Source)
    {lines : List String} {line name : String} {n : Nat} (hline : (line, n) ∈ lines.zipIdx 1) :
    (∃ s : Symbol, .symbol s ∈ rules.findSymbols src lines ∧ s.kind = kind ∧ s.first = n ∧
      s.name = name) ↔ rule.nameOn? line = some name := by
  have hrule : ∀ r, r ∈ rules.symbols ∧ r.kind = kind ↔ r = rule := by
    intro r
    have hmem : r ∈ rules.symbols.filter (·.kind == kind) ↔ r = rule := by
      rw [h, List.mem_singleton]
    rwa [List.mem_filter, beq_iff_eq] at hmem
  rw [rules.exists_symbolOn_iff src hline]
  simp only [← and_assoc, hrule, exists_eq_left]

/-! ## Dialects -/

namespace Dialect

variable {d : Dialect} {line g : String} {i : Nat}

/-- The forms of function headers in a dialect. -/
def headerForms : Dialect → List HeaderForm
  | .python => [⟨"def", .call, .of_all (by decide)⟩]
  | .swift => [⟨"func", .call, .of_all (by decide)⟩]
  | .javascript =>
    [⟨"function", .call, .of_all (by decide)⟩, ⟨"const", .arrow, .of_all (by decide)⟩]
  | .go => [⟨"func", .method, .of_all (by decide)⟩]
  | .rust => [⟨"fn", .call, .of_all (by decide)⟩]
  | _ => []

/-- Whether a line is the header of a function, the name of which stands at a place. -/
def HeaderAt (d : Dialect) (line : String) (place : Nat) (name : String) : Prop :=
  ∃ f ∈ d.headerForms, f.At line place name

/-- The rules of such a dialect look for functions first, by the forms of their headers. -/
theorem exists_headerRules (hd : d ∈ [python, swift, javascript, go, rust]) :
    ∃ rules others, d.lineRules? = some rules ∧
      rules.symbols = d.headerForms.map HeaderForm.rule ++ others ∧
      (∀ rule ∈ others, rule.kind ≠ "function") ∧ rules.calls.targetKind = "function" := by
  simp only [List.mem_cons, List.not_mem_nil, or_false] at hd
  rcases hd with rfl | rfl | rfl | rfl | rfl
  · exact ⟨Declarations.python, Declarations.python.symbols.drop 1, rfl, rfl, by decide, rfl⟩
  · exact ⟨Declarations.swift, Declarations.swift.symbols.drop 1, rfl, rfl, by decide, rfl⟩
  · exact ⟨Declarations.javascript, Declarations.javascript.symbols.drop 2, rfl, rfl, by decide,
      rfl⟩
  · exact ⟨Declarations.go, Declarations.go.symbols.drop 1, rfl, rfl, by decide, rfl⟩
  · exact ⟨Declarations.rust, Declarations.rust.symbols.drop 1, rfl, rfl, by decide, rfl⟩

/-- The first name that is found on a header is the name of the function. -/
theorem HeaderAt.findSome?_nameOn? (h : d.HeaderAt line i g) (others : List SymbolRule) :
    (d.headerForms.map HeaderForm.rule ++ others).findSome? (·.nameOn? line) = some g := by
  obtain ⟨f, hf, hat⟩ := h
  rw [List.findSome?_append, List.findSome?_map]
  cases hfound : d.headerForms.findSome? ((·.nameOn? line) ∘ HeaderForm.rule) with
  | none =>
      have hnone : f.rule.nameOn? line = none := List.findSome?_eq_none_iff.mp hfound f hf
      exact absurd (hat.nameOn?.symm.trans hnone) (by simp)
  | some g' =>
      obtain ⟨f', -, hname⟩ := List.exists_of_findSome?_eq_some hfound
      obtain ⟨j, hat'⟩ := HeaderForm.exists_at_of_nameOn? hname
      rw [(hat'.unique hat).2]
      rfl

/-- The functions that are found on a line are those with a header there. -/
theorem exists_function_iff {rules : LineRules} {others : List SymbolRule}
    (hsymbols : rules.symbols = d.headerForms.map HeaderForm.rule ++ others)
    (hothers : ∀ rule ∈ others, rule.kind ≠ "function") (src : Source) {lines : List String}
    {n : Nat} (hline : (line, n) ∈ lines.zipIdx 1) :
    (∃ s : Symbol, .symbol s ∈ rules.findSymbols src lines ∧ s.kind = "function" ∧ s.first = n ∧
      s.name = g) ↔ ∃ i, d.HeaderAt line i g := by
  rw [rules.exists_symbolOn_iff src hline, hsymbols]
  constructor
  · rintro ⟨rule, hrule, hkind, hname⟩
    rcases List.mem_append.mp hrule with hrule | hrule
    · obtain ⟨f, hf, rfl⟩ := List.mem_map.mp hrule
      obtain ⟨i, hat⟩ := HeaderForm.exists_at_of_nameOn? hname
      exact ⟨i, f, hf, hat⟩
    · exact absurd hkind (hothers rule hrule)
  · rintro ⟨i, f, hf, hat⟩
    exact ⟨f.rule, List.mem_append_left _ (List.mem_map_of_mem hf), rfl, hat.nameOn?⟩

/-- Headers of functions are filed as calls. The functions found on a line are those with a header
there. A header that has a parenthesis right after the name is filed as a call of the function by
itself, unless its name is left out. So every call that is filed is at a place that is not the name
in a header exactly if each such name is called at another place of its line, too. -/
theorem headers_filed_as_calls (hd : d ∈ [python, swift, javascript, go, rust]) (src : Source)
    (content : String) :
    ∃ rules rs, d.lineRules? = some rules ∧
      d.findRelations content ((d.findSymbols src (Text.lines content)).map (·.outline)) = .ok rs ∧
      (∀ l ∈ (Text.lines content).zipIdx 1, ∀ g,
        (∃ s : Symbol, .symbol s ∈ d.findSymbols src (Text.lines content) ∧ s.kind = "function" ∧
          s.first = l.2 ∧ s.name = g) ↔ ∃ i, d.HeaderAt l.1 i g) ∧
      (∀ l ∈ (Text.lines content).zipIdx 1, ∀ f ∈ d.headerForms, ∀ i g, f.At l.1 i g →
        f.style ≠ .arrow → g ∉ rules.calls.excluded →
          .link "calls" g "function" l.2 ∈ rs.of g) ∧
      ((∀ owner g n, .link "calls" g "function" n ∈ rs.of owner →
          ∃ l ∈ (Text.lines content).zipIdx 1, l.2 = n ∧
            ∃ i, Text.CallsAt l.1 i g ∧ ¬ d.HeaderAt l.1 i g) ↔
        ∀ l ∈ (Text.lines content).zipIdx 1, ∀ f ∈ d.headerForms, ∀ i g, f.At l.1 i g →
          f.style ≠ .arrow → g ∉ rules.calls.excluded → ∃ j, j ≠ i ∧ Text.CallsAt l.1 j g) := by
  obtain ⟨rules, others, hrules, hsymbols, hothers, htarget⟩ := exists_headerRules hd
  have hfound := findSymbols_of_lineRules? hrules src (Text.lines content)
  obtain ⟨rs, hrs, hcalls⟩ := LineRules.exists_mem_of_iff (headersStateNoCall_of_lineRules? hrules)
    (rules.placed_findSymbols src _) (Text.lines content)
  rw [htarget] at hcalls
  have hself : ∀ l ∈ (Text.lines content).zipIdx 1, ∀ f ∈ d.headerForms, ∀ i g, f.At l.1 i g →
      f.style ≠ .arrow → g ∉ rules.calls.excluded → .link "calls" g "function" l.2 ∈ rs.of g := by
    rintro ⟨line, n⟩ hl f hf i g hat hstyle hkept
    refine (hcalls g g n).mpr ⟨?_, hkept, line, i, hl, hat.callsAt hstyle⟩
    rw [LineRules.firstOn_findSymbols rules src hl, hsymbols]
    exact HeaderAt.findSome?_nameOn? ⟨f, hf, hat⟩ others
  refine ⟨rules, rs, hrules, ?_, ?_, hself, ?_, ?_⟩
  · rw [hfound, findRelations_of_lineRules? hrules]
    exact hrs
  · rintro ⟨line, n⟩ hl g
    rw [hfound]
    exact exists_function_iff hsymbols hothers src hl
  · rintro hreal ⟨line, n⟩ hl f hf i g hat hstyle hkept
    obtain ⟨⟨line', n'⟩, hl', rfl, j, hcall, hno⟩ :=
      hreal g g n (hself _ hl f hf i g hat hstyle hkept)
    obtain rfl := line_eq_of_mem_zipIdx hl hl'
    refine ⟨j, ?_, hcall⟩
    rintro rfl
    exact hno ⟨f, hf, hat⟩
  · intro hother owner g n hmem
    obtain ⟨-, hkept, line, i, hl, hcall⟩ := (hcalls owner g n).mp hmem
    refine ⟨(line, n), hl, rfl, ?_⟩
    by_cases hheader : d.HeaderAt line i g
    · -- a header at a called place has another place, and no other header
      obtain ⟨f, hf, hat⟩ := hheader
      have hstyle : f.style ≠ .arrow := fun hstyle => hat.not_callsAt hstyle hcall
      obtain ⟨j, hne, hcall'⟩ := hother (line, n) hl f hf i g hat hstyle hkept
      refine ⟨j, hcall', ?_⟩
      rintro ⟨f', -, hat'⟩
      exact hne (hat'.unique hat).1
    · exact ⟨i, hcall, hheader⟩

/-- The name in a bare header stands behind the keyword. -/
theorem at_run : HeaderForm.At ⟨"def", .call, .of_all (by decide)⟩ "def run():" 4 "run" := by
  have hblank : ∀ c ∈ [' '], Text.isBlank c = true := by
    intro c hc
    rw [List.mem_singleton.mp hc]
    decide
  exact ⟨[], [' '], [], ['('], [')', ':'],
    ⟨by decide, hblank, .inl rfl, .of_all (by decide), [], rfl, nofun⟩, nofun, by decide, by decide⟩

theorem headers_filed_as_calls_run :
    ∃ rs, python.findRelations "def run():\n    pass\n"
        ((python.findSymbols ⟨"a.py", "python"⟩ (Text.lines "def run():\n    pass\n")).map
          (·.outline)) = .ok rs ∧
      .link "calls" "run" "function" 1 ∈ rs.of "run" := by
  obtain ⟨rules, rs, hrules, hrs, -, hself, -⟩ :=
    headers_filed_as_calls (d := python) (by decide) ⟨"a.py", "python"⟩ "def run():\n    pass\n"
  have hkept : "run" ∉ rules.calls.excluded := by
    rw [← Option.some.inj hrules]
    decide
  have hline : ("def run():", 1) ∈ (Text.lines "def run():\n    pass\n").zipIdx 1 := by
    decide +kernel
  exact ⟨rs, hrs, hself _ hline _ (List.mem_singleton_self _) 4 "run" at_run nofun hkept⟩

/-- A function with nothing on its line but the header is said to call itself. -/
theorem bare_header_calls_itself :
    python.findRelations "def run():\n    pass\n"
        ((python.findSymbols ⟨"a.py", "python"⟩ (Text.lines "def run():\n    pass\n")).map
          (·.outline)) = .ok ⟨[], [("run", .link "calls" "run" "function" 1)]⟩ ∧
      Text.called "def run():" = [(4, "run")] ∧ python.HeaderAt "def run():" 4 "run" :=
  ⟨by decide +kernel, by decide +kernel, _, List.mem_singleton_self _, at_run⟩

end Dialect

end SymbolAtlas
