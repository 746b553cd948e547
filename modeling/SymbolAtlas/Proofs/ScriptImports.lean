/-
  SymbolAtlas.Proofs.ScriptImports: the lines of the commands that read in other scripts.

  A command is a word behind blanks at the start of a line, and a path behind more blanks. All
  commands are found but those that another one takes for its path (`lists_commands`). A match
  begins at the first of the blank lines above its command (`exists_layout`), and the line of that
  place is the one that is filed (`lineAt_of_mem_scan`).
-/

import SymbolAtlas.Proofs.Expansions

namespace SymbolAtlas

/-! ## Runs -/

namespace Text

/-- A word without blanks ends where a blank comes next. -/
theorem solid_unique {a b s t : List Char} (h : a ++ s = b ++ t) (ha : Solid a) (hb : Solid b)
    (hs : s.head?.any (!isBlank ·) = false) (ht : t.head?.any (!isBlank ·) = false) :
    a = b ∧ s = t := by
  refine run_unique h (fun c hc => ?_) (fun c hc => ?_) hs ht
  · rw [ha.solid c hc]
    rfl
  · rw [hb.solid c hc]
    rfl

/-- Whether a line has nothing but blanks. -/
def isBlankLine (line : String) : Bool := line.toList.all isBlank

/-- How many blank lines there are right above a line. -/
def blanksAbove (lines : List String) (n : Nat) : Nat :=
  ((lines.take (n - 1)).reverse.takeWhile isBlankLine).length

end Text

namespace Shell

open Pattern

variable {content word : String} {m : Match} {front rest : List Char}

/-! ## Commands -/

/-- A command that reads in another script: the number of its line, and the places where its word
and its path begin. -/
structure Command where
  line : Nat
  place : Nat
  target : Nat
  path : String
  deriving DecidableEq, Repr

/-- The blanks before the word of a command, the blanks behind it, the path and what comes after
it. -/
structure Parts (indent gap path back : List Char) : Prop where
  blank : ∀ c ∈ indent, Text.isBlank c = true
  blank_gap : ∀ c ∈ gap, Text.isBlank c = true
  gap_ne : gap ≠ []
  solid : Text.Solid path
  ends : back.head?.any (!Text.isBlank ·) = false

/-- How a command lies in a script: lines above it, and its parts from the start of its line on. The
blanks behind the word may go over lines. -/
structure Command.Layout (content word : String) (c : Command) (above : List String)
    (indent gap back : List Char) : Prop where
  text : content.toList =
    Text.unlines above ++ (indent ++ (word.toList ++ (gap ++ (c.path.toList ++ back))))
  parts : Parts indent gap c.path.toList back
  unbroken : ∀ l ∈ above, '\n' ∉ l.toList
  unbroken_indent : '\n' ∉ indent
  line : c.line = above.length + 1
  place : c.place = (Text.unlines above ++ indent).length
  target : c.target = (Text.unlines above ++ (indent ++ (word.toList ++ gap))).length

/-- Whether a command stands in a script. -/
def ReadsIn (content word : String) (c : Command) : Prop :=
  ∃ above indent gap back, c.Layout content word above indent gap back

/-- The commands of a word, from the first on. What another one takes for its path is none. -/
structure Lists (content word : String) (commands : List Command) : Prop where
  ordered : commands.Pairwise (·.place < ·.place)
  sound : ∀ c ∈ commands, ReadsIn content word c
  all : ∀ c, ReadsIn content word c → c ∈ commands ∨ ∃ c' ∈ commands, c'.target = c.place

/-- The command of a match. -/
def commandOf (content : String) (m : Match) : Command where
  line := lineAt content (m.start + (m.text.takeWhile Text.isBlank).length)
  place := m.start + (m.text.takeWhile Text.isBlank).length
  target := m.stop - (m.group 1).toList.length
  path := m.group 1

/-- The commands that are found for a word. -/
def commands (content word : String) : List Command :=
  ((importPattern word).scan content).map (commandOf content)

/-! ## Matches -/

/-- A command without the start of its line. -/
def commandPattern (word : String) : Pattern :=
  blanks ++ lit word ++ gap ++ capture 1 (plus .nonBlank)

theorem matchAt?_importPattern (word : String) (x : Cursor) :
    (importPattern word).matchAt? x =
      if x.atLineStart then (commandPattern word).matchAt? x else none := by
  have hends : (importPattern word).ends x =
      ((((ends lineStart x).flatMap blanks.ends).flatMap (lit word).ends).flatMap gap.ends).flatMap
        (capture 1 (plus .nonBlank)).ends := rfl
  have hstart : ends lineStart x = if x.atLineStart then [x] else [] := rfl
  rw [matchAt?_eq, matchAt?_eq, hends, hstart]
  split
  · rw [List.flatMap_singleton]
    rfl
  · rfl

theorem holds_nonBlank (c : Char) : CharClass.nonBlank.holds c = !Text.isBlank c := by
  simp [CharClass.holds, CharClass.nonBlank, ClassItem.holds]

theorem takes_path_iff {n : Nat} {cs : List Char} {parts : List (Nat × List Char)} :
    (capture n (plus .nonBlank)).Takes cs parts ↔ Text.Solid cs ∧ parts = [(n, cs)] := by
  rw [takes_capture_iff]
  simp only [plus, takes_many_iff, holds_nonBlank, Bool.not_eq_true', Nat.one_le_iff_ne_zero, ne_eq,
    List.length_eq_zero_iff]
  constructor
  · rintro ⟨ps, ⟨hcs, hne, rfl⟩, rfl⟩
    exact ⟨⟨hne, hcs⟩, rfl⟩
  · rintro ⟨⟨hne, hcs⟩, rfl⟩
    exact ⟨[], ⟨hcs, hne, rfl⟩, rfl⟩

theorem takes_commandPattern_iff {cs : List Char} {parts : List (Nat × List Char)} :
    (commandPattern word).Takes cs parts ↔
      ∃ indent gap path, (∀ c ∈ indent, Text.isBlank c = true) ∧
        ((∀ c ∈ gap, Text.isBlank c = true) ∧ gap ≠ []) ∧ Text.Solid path ∧
        cs = indent ++ (word.toList ++ (gap ++ path)) ∧ parts = [(1, path)] := by
  rw [commandPattern, takes_append_iff]
  simp only [takes_append_silent_iff takes_gap_iff, takes_append_silent_iff takes_lit_iff,
    takes_blanks_iff, takes_path_iff]
  constructor
  · rintro ⟨_, path, _, _, ⟨_, gap, ⟨indent, _, ⟨hindent, rfl⟩, rfl, rfl⟩, hgap, rfl⟩,
      ⟨hpath, rfl⟩, rfl, rfl⟩
    refine ⟨indent, gap, path, hindent, hgap, hpath, ?_, rfl⟩
    rw [List.append_assoc, List.append_assoc]
  · rintro ⟨indent, gap, path, hindent, hgap, hpath, rfl, rfl⟩
    refine ⟨_, path, _, _, ⟨_, gap, ⟨indent, _, ⟨hindent, rfl⟩, rfl, rfl⟩, hgap, rfl⟩,
      ⟨hpath, rfl⟩, ?_, rfl⟩
    rw [List.append_assoc, List.append_assoc]

theorem atLineStart_unlines (above : List String) (rest : List Char) :
    (Cursor.between (Text.unlines above) rest).atLineStart = true := by
  rcases List.eq_nil_or_concat above with rfl | ⟨above, l, rfl⟩
  · rfl
  · rw [Cursor.atLineStart, Cursor.between, List.concat_eq_append, Text.getLast?_unlines]
    rfl

theorem exists_of_atLineStart (h : (Cursor.between front rest).atLineStart = true) :
    ∃ above, (∀ l ∈ above, '\n' ∉ l.toList) ∧ front = Text.unlines above := by
  obtain ⟨above, lead, habove, hlead, rfl⟩ := Text.exists_unlines front
  refine ⟨above, habove, ?_⟩
  rcases List.eq_nil_or_concat lead with rfl | ⟨lead, c, rfl⟩
  · exact List.append_nil _
  · have hlast : (Text.unlines above ++ lead.concat c).getLast? = some c := by
      rw [List.concat_eq_append, ← List.append_assoc]
      exact List.getLast?_concat
    rw [Cursor.atLineStart, Cursor.between, hlast] at h
    have hc : c = '\n' := by simpa using h
    exact absurd (hc ▸ (by simp : c ∈ lead.concat c)) hlead

/-- A match begins at the start of a line, and goes over blanks, the word and more blanks to the end
of a path. -/
theorem exists_of_matchAt?_import
    (h : (importPattern word).matchAt? (.between front rest) = some m) :
    ∃ above indent gap path back, (∀ l ∈ above, '\n' ∉ l.toList) ∧ front = Text.unlines above ∧
      Parts indent gap path back ∧ rest = indent ++ (word.toList ++ (gap ++ (path ++ back))) ∧
      m = ⟨front.length, front.length + (indent ++ (word.toList ++ (gap ++ path))).length,
        indent ++ (word.toList ++ (gap ++ path)), [(1, path)]⟩ := by
  rw [matchAt?_importPattern] at h
  split at h
  next hstart =>
    obtain ⟨above, habove, hfront⟩ := exists_of_atLineStart hstart
    obtain ⟨cs, back, parts, htakes, hrest, hback, hm⟩ := exists_of_matchAt?_run rfl h
    obtain ⟨indent, gap, path, hindent, ⟨hgap, hne⟩, hpath, rfl, rfl⟩ :=
      takes_commandPattern_iff.mp htakes
    rw [funext holds_nonBlank] at hback
    refine ⟨above, indent, gap, path, back, habove, hfront, ⟨hindent, hgap, hne, hpath, hback⟩, ?_,
      hm⟩
    have hrest : rest = _ := hrest
    rw [hrest, List.append_assoc, List.append_assoc, List.append_assoc]
  next => exact absurd h (by simp)

/-- Where the parts of a command come at the start of a line there is a match. -/
theorem Parts.exists_matchIn {indent gap path back : List Char} (h : Parts indent gap path back)
    {above : List String} (hcontent : content.toList =
      Text.unlines above ++ (indent ++ (word.toList ++ (gap ++ (path ++ back))))) :
    ∃ m, (importPattern word).MatchIn content m ∧ m.start = (Text.unlines above).length := by
  have htakes : (commandPattern word).Takes (indent ++ (word.toList ++ (gap ++ path)))
      [(1, path)] :=
    takes_commandPattern_iff.mpr
      ⟨indent, gap, path, h.blank, ⟨h.blank_gap, h.gap_ne⟩, h.solid, rfl, rfl⟩
  have hrest : (Cursor.between (Text.unlines above)
      (indent ++ (word.toList ++ (gap ++ (path ++ back))))).rest =
        indent ++ (word.toList ++ (gap ++ path)) ++ back := by
    rw [List.append_assoc, List.append_assoc, List.append_assoc]
    rfl
  obtain ⟨m, hm⟩ := htakes.exists_matchAt? hrest
  have hmatch : (importPattern word).matchAt? (.between (Text.unlines above)
      (indent ++ (word.toList ++ (gap ++ (path ++ back))))) = some m := by
    rw [matchAt?_importPattern, if_pos (atLineStart_unlines above _), hm]
  exact ⟨m, ⟨_, _, hcontent, hmatch⟩, start_of_matchAt? hmatch⟩

theorem consumes_importPattern (word : String) : (importPattern word).Consumes := by
  intro x m h
  rw [matchAt?_importPattern] at h
  split at h
  · refine consumes_of_takes rfl (fun htakes => ?_) x m h
    obtain ⟨indent, gap, path, -, ⟨-, hgap⟩, -, rfl, -⟩ := takes_commandPattern_iff.mp htakes
    simp [hgap]
  · exact absurd h (by simp)

/-! ## The commands that are found -/

section

variable {indent gap path back : List Char} {above : List String}

/-- Blanks and words without blanks take turns, so a text has its parts in one way only. -/
theorem Parts.unique {indent' gap' path' back' : List Char} (h : Parts indent gap path back)
    (h' : Parts indent' gap' path' back') {w : List Char} (hw : Text.Solid w)
    (heq : indent ++ (w ++ (gap ++ (path ++ back))) =
      indent' ++ (w ++ (gap' ++ (path' ++ back')))) :
    indent = indent' ∧ gap = gap' ∧ path = path' ∧ back = back' := by
  obtain ⟨hindent, hafter⟩ := Text.run_unique heq h.blank h'.blank (hw.head? _) (hw.head? _)
  obtain ⟨hgap, hpath⟩ := Text.run_unique (List.append_cancel_left hafter) h.blank_gap h'.blank_gap
    (h.solid.head? _) (h'.solid.head? _)
  exact ⟨hindent, hgap, Text.solid_unique hpath h.solid h'.solid h.ends h'.ends⟩

theorem commandOf_eq (hword : Text.Solid word.toList) (h : Parts indent gap path back)
    (start : Nat) :
    commandOf content ⟨start, start + (indent ++ (word.toList ++ (gap ++ path))).length,
        indent ++ (word.toList ++ (gap ++ path)), [(1, path)]⟩ =
      ⟨lineAt content (start + indent.length), start + indent.length,
        start + (indent ++ (word.toList ++ gap)).length, String.ofList path⟩ := by
  obtain ⟨c, cs, hc⟩ := List.exists_cons_of_ne_nil hword.ne_nil
  have hindent : (indent ++ (word.toList ++ (gap ++ path))).takeWhile Text.isBlank = indent := by
    rw [List.takeWhile_append_of_pos h.blank, hc, List.cons_append,
      List.takeWhile_cons_of_neg (by simp [hword.solid c (hc ▸ List.mem_cons_self)]),
      List.append_nil]
  have hgroup : Match.group ⟨start, start + (indent ++ (word.toList ++ (gap ++ path))).length,
      indent ++ (word.toList ++ (gap ++ path)), [(1, path)]⟩ 1 = String.ofList path :=
    Match.group_of_groups rfl rfl
  rw [commandOf, hindent, hgroup, String.toList_ofList]
  congr 1
  simp only [List.length_append]
  omega

/-- No blank line stands above a match that is found: there would be a match from that line on, and
the one that was found in its place would end among blanks. -/
theorem isBlankLine_eq_false {upper : List String} {l : String}
    (h : m ∈ (importPattern word).scan content) (hparts : Parts indent gap path back)
    (hcontent : content.toList = Text.unlines (upper ++ [l]) ++
      (indent ++ (word.toList ++ (gap ++ (path ++ back)))))
    (hstart : m.start = (Text.unlines (upper ++ [l])).length) : Text.isBlankLine l = false := by
  have hconsumes := consumes_importPattern word
  rw [← Bool.not_eq_true]
  intro hblank
  have hlast : Text.unlines (upper ++ [l]) = Text.unlines upper ++ (l.toList ++ ['\n']) := by
    rw [Text.unlines_append, Text.unlines_cons]
    rfl
  have hblanks : ∀ c ∈ l.toList ++ ['\n'], Text.isBlank c = true :=
    List.forall_mem_append.mpr ⟨List.all_eq_true.mp hblank, List.forall_mem_singleton.mpr rfl⟩
  have hlonger : Parts (l.toList ++ ['\n'] ++ indent) gap path back :=
    { hparts with blank := List.forall_mem_append.mpr ⟨hblanks, hparts.blank⟩ }
  have habove : content.toList = Text.unlines upper ++
      (l.toList ++ ['\n'] ++ indent ++ (word.toList ++ (gap ++ (path ++ back)))) := by
    rw [hcontent, hlast]
    simp only [List.append_assoc]
  obtain ⟨m₀, hm₀, hstart₀⟩ := hlonger.exists_matchIn habove
  obtain ⟨m', hm', hbefore, hinside⟩ := exists_mem_scan hconsumes hm₀
  rw [hstart₀] at hbefore hinside
  have hstop : m'.stop ≤ (Text.unlines (upper ++ [l])).length := by
    rw [← hstart]
    refine stop_le_of_mem_scan hconsumes hm' h ?_
    rw [hstart, hlast, List.length_append, List.length_append, List.length_singleton]
    omega
  -- the path of the other match ends between the start of the blank line and its end
  obtain ⟨front', rest', hcontent', hmatch'⟩ := mem_scan hconsumes hm'
  obtain ⟨-, indent', gap', path', back', -, -, hparts', rfl, rfl⟩ :=
    exists_of_matchAt?_import hmatch'
  have hcut : Text.unlines (upper ++ [l]) ++ (indent ++ (word.toList ++ (gap ++ (path ++ back)))) =
      (front' ++ (indent' ++ (word.toList ++ (gap' ++ path')))) ++ back' := by
    rw [← hcontent, hcontent']
    simp only [List.append_assoc]
  rw [← List.length_append] at hstop hinside
  obtain ⟨d, hd, -⟩ := exists_of_append_eq hcut hstop
  obtain ⟨e, he, hde⟩ := exists_of_append_eq (hd.symm.trans hlast) (Nat.le_of_lt hinside)
  obtain ⟨path', c, rfl⟩ := (List.eq_nil_or_concat path').resolve_left hparts'.solid.ne_nil
  rcases List.eq_nil_or_concat e with rfl | ⟨e, c', rfl⟩
  · rw [he, List.append_nil] at hinside
    exact absurd hinside (Nat.lt_irrefl _)
  · simp only [List.concat_eq_append, ← List.append_assoc] at he
    obtain rfl : c = c' := List.cons.inj (List.append_inj' he rfl).2 |>.1
    have hc : Text.isBlank c = true := hblanks c (hde ▸ by simp)
    rw [hparts'.solid.solid c (by simp)] at hc
    exact absurd hc Bool.false_ne_true

/-- What is found is a command. Its match begins at the first of the blank lines above it. -/
theorem exists_layout (hword : Text.Solid word.toList) (h : m ∈ (importPattern word).scan content) :
    ∃ upper blank indent gap back,
      (commandOf content m).Layout content word (upper ++ blank) indent gap back ∧
      (∀ l ∈ blank, Text.isBlankLine l = true) ∧
      (∀ l ∈ upper.getLast?, Text.isBlankLine l = false) ∧
      lineAt content m.start = upper.length + 1 := by
  obtain ⟨front, rest, hcontent, hmatch⟩ := mem_scan (consumes_importPattern word) h
  obtain ⟨upper, pad, gap, path, back, hupper, rfl, hparts, rfl, rfl⟩ :=
    exists_of_matchAt?_import hmatch
  -- the blanks before the word are some lines and the indent of its own
  obtain ⟨blank, indent, hblank, hindent, rfl⟩ := Text.exists_unlines pad
  have hunbroken : ∀ l ∈ upper ++ blank, '\n' ∉ l.toList :=
    List.forall_mem_append.mpr ⟨hupper, hblank⟩
  have htext : content.toList =
      Text.unlines (upper ++ blank) ++ (indent ++ (word.toList ++ (gap ++ (path ++ back)))) := by
    rw [hcontent, Text.unlines_append]
    simp only [List.append_assoc]
  have hplace : (Text.unlines upper).length + (Text.unlines blank ++ indent).length =
      (Text.unlines (upper ++ blank) ++ indent).length := by
    simp only [Text.unlines_append, List.length_append, Nat.add_assoc]
  rw [commandOf_eq hword hparts, hplace]
  refine ⟨upper, blank, indent, gap, back, ⟨?_, ?_, hunbroken, hindent, ?_, rfl, ?_⟩, ?_, ?_, ?_⟩
  · rw [String.toList_ofList]
    exact htext
  · rw [String.toList_ofList]
    exact ⟨fun c hc => hparts.blank c (List.mem_append_right _ hc), hparts.blank_gap,
      hparts.gap_ne, hparts.solid, hparts.ends⟩
  · exact Text.lineAt_unlines hunbroken hindent htext
  · simp only [Text.unlines_append, List.length_append, Nat.add_assoc]
  · intro l hl
    refine List.all_eq_true.mpr fun c hc => hparts.blank c (List.mem_append_left _ ?_)
    exact List.mem_flatMap.mpr ⟨l, hl, List.mem_append_left _ hc⟩
  · intro l hl
    obtain ⟨upper, rfl⟩ := List.getLast?_eq_some_iff.mp hl
    exact isBlankLine_eq_false h hparts hcontent rfl
  · have hline : lineAt content (Text.unlines upper ++ []).length = upper.length + 1 :=
      Text.lineAt_unlines hupper List.not_mem_nil hcontent
    rwa [List.append_nil] at hline

theorem readsIn_of_mem_scan (hword : Text.Solid word.toList)
    (h : m ∈ (importPattern word).scan content) : ReadsIn content word (commandOf content m) := by
  obtain ⟨upper, blank, indent, gap, back, hlayout, -⟩ := exists_layout hword h
  exact ⟨upper ++ blank, indent, gap, back, hlayout⟩

/-- The line that is filed comes before the blank lines above the command. -/
theorem lineAt_of_mem_scan (hword : Text.Solid word.toList)
    (h : m ∈ (importPattern word).scan content) :
    lineAt content m.start = (commandOf content m).line -
      Text.blanksAbove (Text.lines content) (commandOf content m).line := by
  obtain ⟨upper, blank, indent, gap, back, hlayout, hblank, hupper, hstart⟩ := exists_layout hword h
  obtain ⟨tail, rest, below, hlines, -⟩ :=
    Text.lines_of_unlines hlayout.unbroken hlayout.unbroken_indent hlayout.text
  have hnone : upper.reverse.takeWhile Text.isBlankLine = [] := by
    rcases List.eq_nil_or_concat upper with rfl | ⟨upper, l, rfl⟩
    · rfl
    · rw [List.concat_eq_append] at hupper ⊢
      have hl : ¬ Text.isBlankLine l = true := by
        rw [hupper l List.getLast?_concat]
        exact Bool.false_ne_true
      rw [List.reverse_append, List.reverse_singleton, List.singleton_append,
        List.takeWhile_cons_of_neg hl]
  have habove :
      Text.blanksAbove (Text.lines content) (commandOf content m).line = blank.length := by
    rw [Text.blanksAbove, hlayout.line, Nat.add_sub_cancel, hlines, List.take_left,
      List.reverse_append,
      List.takeWhile_append_of_pos fun l hl => hblank l (List.mem_reverse.mp hl), hnone,
      List.append_nil, List.length_reverse]
  rw [habove, hlayout.line, hstart, List.length_append]
  omega

/-- Two commands that share text are one, or the second is the path of the first: the start of its
line lies in the blanks of the first, since there are no line feeds elsewhere. -/
theorem Parts.eq_or_path {indent' gap' path' back' : List Char} (h : Parts indent gap path back)
    (h' : Parts indent' gap' path' back') {w d : List Char} (hw : Text.Solid w)
    (hd : ∀ x y, d = x ++ y → y ≠ [] → '\n' ∈ y)
    (heq : indent' ++ (w ++ (gap' ++ (path' ++ back'))) =
      d ++ (indent ++ (w ++ (gap ++ (path ++ back)))))
    (hlt : d.length < (indent' ++ (w ++ (gap' ++ path'))).length) :
    indent' = d ++ indent ∧ gap' = gap ∧ path' = path ∨ indent' ++ (w ++ gap') = d ++ indent := by
  have hsolid : ∀ {a b : List Char}, Text.Solid (a ++ b) → '\n' ∉ a := fun hs hmem =>
    absurd (hs.solid _ (List.mem_append_left _ hmem)) (by decide)
  -- by the part of the first command in which the line of the second starts
  rcases Nat.lt_or_ge indent'.length d.length with hindent | hindent
  · obtain ⟨e, rfl, hword⟩ := exists_of_append_eq heq.symm (Nat.le_of_lt hindent)
    rw [List.length_append] at hindent
    rcases Nat.lt_or_ge w.length e.length with hlong | hlong
    · obtain ⟨e, rfl, hgap⟩ := exists_of_append_eq hword.symm (Nat.le_of_lt hlong)
      rcases Nat.lt_or_ge gap'.length e.length with hpast | hpast
      · obtain ⟨e, rfl, hpath⟩ := exists_of_append_eq hgap.symm (Nat.le_of_lt hpast)
        simp only [List.length_append] at hpast hlt
        obtain ⟨p, rfl, -⟩ := exists_of_append_eq hpath (by omega)
        refine absurd (hd (indent' ++ (w ++ gap')) e (by simp only [List.append_assoc]) ?_)
          (hsolid h'.solid)
        exact List.length_pos_iff.mp (by omega)
      · -- the blanks behind the word go up to the second word, which is then the path
        obtain ⟨g, rfl, hpath⟩ := exists_of_append_eq hgap hpast
        obtain ⟨rfl, -⟩ := Text.run_unique hpath h.blank
          (fun c hc => h'.blank_gap c (List.mem_append_right _ hc)) (hw.head? _) (h'.solid.head? _)
        right
        simp only [List.append_assoc]
    · obtain ⟨w', rfl, -⟩ := exists_of_append_eq hword hlong
      exact absurd (hd indent' e rfl (List.length_pos_iff.mp (by omega))) (hsolid hw)
  · -- the blanks before the word: the same command, of which some blank lines are left out
    obtain ⟨e, rfl, hword⟩ := exists_of_append_eq heq hindent
    have hparts : Parts e gap' path' back' :=
      { h' with blank := fun c hc => h'.blank c (List.mem_append_right _ hc) }
    obtain ⟨rfl, rfl, rfl, -⟩ := h.unique hparts hw hword
    exact .inl ⟨rfl, rfl, rfl⟩

theorem place_lt_stop (hword : Text.Solid word.toList)
    (h : (importPattern word).MatchIn content m) : (commandOf content m).place < m.stop := by
  obtain ⟨front, rest, -, hmatch⟩ := h
  obtain ⟨-, indent, gap, path, back, -, -, hparts, -, rfl⟩ := exists_of_matchAt?_import hmatch
  have hpos := List.length_pos_iff.mpr hword.ne_nil
  rw [commandOf_eq hword hparts]
  simp only [List.length_append]
  omega

theorem lists_commands (hword : Text.Solid word.toList) (content : String) :
    Lists content word (commands content word) where
  ordered := by
    have hscan := pairwise_scan (consumes_importPattern word) content
    refine List.pairwise_map.mpr (hscan.imp_of_mem ?_)
    intro m m' hm _ hle
    have hlt := place_lt_stop hword (mem_scan (consumes_importPattern word) hm)
    exact Nat.lt_of_lt_of_le hlt (Nat.le_trans hle (Nat.le_add_right _ _))
  sound c hc := by
    obtain ⟨m, hm, rfl⟩ := List.mem_map.mp hc
    exact readsIn_of_mem_scan hword hm
  all c hc := by
    obtain ⟨above, indent, gap, back, hlayout⟩ := hc
    -- the start of its line lies inside a match that is found
    obtain ⟨m₀, hm₀, hstart₀⟩ := hlayout.parts.exists_matchIn hlayout.text
    obtain ⟨m, hm, hbefore, hinside⟩ := exists_mem_scan (consumes_importPattern word) hm₀
    obtain ⟨front, rest, hcontent, hmatch⟩ := mem_scan (consumes_importPattern word) hm
    have hmem := List.mem_map_of_mem (f := commandOf content) hm
    obtain ⟨above', indent', gap', path', back', -, rfl, hparts, rfl, rfl⟩ :=
      exists_of_matchAt?_import hmatch
    rw [hstart₀] at hbefore hinside
    obtain ⟨d, hd, hrest⟩ := exists_of_append_eq (hlayout.text.symm.trans hcontent) hbefore
    rw [commandOf_eq hword hparts] at hmem
    have hline : c.line = lineAt content c.place := by
      rw [hlayout.line, hlayout.place,
        Text.lineAt_unlines hlayout.unbroken hlayout.unbroken_indent hlayout.text]
    have hplace : (Text.unlines above').length + (d ++ indent).length = c.place := by
      rw [hlayout.place, hd, List.append_assoc, ← List.length_append]
    have hends : ∀ x y, d = x ++ y → y ≠ [] → '\n' ∈ y := by
      rintro x y rfl
      exact Text.lineFeed_mem_of_unlines (hd.trans (List.append_assoc _ x y).symm)
    have hlt : d.length < (indent' ++ (word.toList ++ (gap' ++ path'))).length := by
      rw [hd, List.length_append] at hinside
      exact Nat.lt_of_add_lt_add_left hinside
    rcases hlayout.parts.eq_or_path hparts hword hends hrest hlt with ⟨rfl, rfl, rfl⟩ | htarget
    · left
      rw [hplace, ← hline, String.ofList_toList] at hmem
      have htarget : (Text.unlines above').length + (d ++ indent ++ (word.toList ++ gap')).length =
          c.target := by
        rw [hlayout.target, hd]
        simp only [List.length_append, Nat.add_assoc]
      rwa [htarget] at hmem
    · exact .inr ⟨_, hmem, by rw [htarget]; exact hplace⟩

end

/-! ## Imports -/

theorem imports_eq (hword : Text.Solid word.toList) (content : String) :
    imports content word = (commands content word).map fun c =>
      .shellImport (Text.stripChars ['"', '\x27'] c.path)
        (c.line - Text.blanksAbove (Text.lines content) c.line) := by
  rw [imports, commands, List.map_map]
  refine List.map_congr_left fun m hm => ?_
  rw [lineAt_of_mem_scan hword hm]
  rfl

/-- The scripts that are read in by a word are those behind the commands of the word, in their
order, quotes at the ends of their paths taken away. Each is filed as many lines above its command
as there are blank lines right above it. So all of them are filed on the lines of their commands if
and only if no command has a blank line right above it. -/
theorem import_lines_iff (content : String) {outlines : List Outline}
    (h : ∀ o ∈ outlines, o.Labelled) :
    ∃ (rs : Relations) (commands : String → List Command),
      Dialect.shell.findRelations content outlines = .ok rs ∧
      (∀ word ∈ ["source", "."], Lists content word (commands word)) ∧
      rs.of "imports" = (["source", "."].flatMap fun word => (commands word).map fun c =>
        .shellImport (Text.stripChars ['"', '\x27'] c.path)
          (c.line - Text.blanksAbove (Text.lines content) c.line)) ∧
      (rs.of "imports" = (["source", "."].flatMap fun word => (commands word).map fun c =>
          .shellImport (Text.stripChars ['"', '\x27'] c.path) c.line) ↔
        ∀ word ∈ ["source", "."], ∀ c ∈ commands word,
          Text.blanksAbove (Text.lines content) c.line = 0) := by
  have hwords : ∀ word ∈ ["source", "."], Text.Solid word.toList :=
    List.forall_mem_cons.mpr
      ⟨.of_all (by decide), List.forall_mem_singleton.mpr (.of_all (by decide))⟩
  have hlists : ∀ word ∈ ["source", "."], Lists content word (commands content word) :=
    fun word hword => lists_commands (hwords word hword) content
  obtain ⟨rs, hfound, -, himports⟩ := exists_findRelations h content
  have hfiled : rs.of "imports" = ["source", "."].flatMap (imports content) := by
    rw [himports, List.flatMap_cons, List.flatMap_singleton]
  rw [List.flatMap_congr fun word hword => imports_eq (hwords word hword) content] at hfiled
  refine ⟨rs, commands content, hfound, hlists, hfiled, ?_⟩
  rw [hfiled, ← List.map_flatMap, ← List.map_flatMap, List.map_inj_left]
  constructor
  · intro hsame word hword c hc
    -- a command stands on a positive line, so the blanks above it change the number
    have hline := (Relation.shellImport.inj (hsame c (List.mem_flatMap.mpr ⟨word, hword, hc⟩))).2
    obtain ⟨above, _, _, _, hlayout⟩ := (hlists word hword).sound c hc
    have hpos := hlayout.line
    omega
  · intro hnone c hc
    obtain ⟨word, hword, hc⟩ := List.mem_flatMap.mp hc
    rw [hnone word hword c hc, Nat.sub_zero]

theorem import_below_text :
    ∃ (rs : Relations) (commands : String → List Command),
      Dialect.shell.findRelations "x=1\n\n  . lib.sh\n"
        [⟨some "x", some "variable", none, none⟩] = .ok rs ∧
      (∀ word ∈ ["source", "."], Lists "x=1\n\n  . lib.sh\n" word (commands word)) ∧
      rs.of "imports" = (["source", "."].flatMap fun word => (commands word).map fun c =>
        .shellImport (Text.stripChars ['"', '\x27'] c.path)
          (c.line - Text.blanksAbove (Text.lines "x=1\n\n  . lib.sh\n") c.line)) := by
  have hlabelled : ∀ o ∈ [(⟨some "x", some "variable", none, none⟩ : Outline)], o.Labelled :=
    List.forall_mem_singleton.mpr ⟨rfl, rfl⟩
  obtain ⟨rs, commands, hfound, hlists, himports, -⟩ :=
    import_lines_iff "x=1\n\n  . lib.sh\n" hlabelled
  exact ⟨rs, commands, hfound, hlists, himports⟩

/-- A command on the third line, below two blank ones, is filed on the first. -/
theorem import_below_blank_lines :
    Dialect.shell.findRelations "\n\nsource a.sh\n" [] =
      .ok { categories := ["calls", "uses", "defines", "imports"]
            entries := [("imports", .shellImport "a.sh" 1)] } ∧
    ReadsIn "\n\nsource a.sh\n" "source" ⟨3, 2, 9, "a.sh"⟩ := by
  refine ⟨by decide +kernel, ["", ""], [], [' '], ['\n'], ?_⟩
  exact ⟨by decide, ⟨by simp, List.forall_mem_singleton.mpr rfl, by simp, .of_all (by decide), rfl⟩,
    by simp, by simp, rfl, rfl, rfl⟩

end Shell

end SymbolAtlas
