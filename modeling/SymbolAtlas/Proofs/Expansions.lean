/-
  SymbolAtlas.Proofs.Expansions: which expansions in a script count as uses of a variable.

  A use is filed for every dollar sign after which the name of the variable comes, with an opening
  brace between them or without one. What comes after the name is not looked at. So the uses of a
  variable are all places where its name is shown (`shows_scan`), and they are its own expansions
  unless one of a longer name begins with it or is never closed (`Shows.forall_expands_iff`).
-/

import SymbolAtlas.Proofs.FunctionHeaders
import SymbolAtlas.Proofs.Places

namespace SymbolAtlas

/-- Whether a symbol has a name and a kind. -/
structure Outline.Labelled (o : Outline) : Prop where
  name : o.name.isSome = true
  kind : o.kind.isSome = true

namespace Shell

variable {content : String} {outlines : List Outline} {brace back w w' : List Char} {place : Nat}

/-! ## Relations of a script -/

/-- The names of the symbols of a kind. -/
def named (kind : String) (outlines : List Outline) : List String :=
  (outlines.filter (·.kind == some kind)).filterMap (·.name)

theorem ofKind_eq (h : ∀ o ∈ outlines, o.kind.isSome = true) (kind : String) :
    ofKind kind outlines = .ok (outlines.filter (·.kind == some kind)) := by
  induction outlines with
  | nil => rfl
  | cons o rest ih =>
      obtain ⟨ho, hrest⟩ := List.forall_mem_cons.mp h
      obtain ⟨k, hk⟩ := Option.isSome_iff_exists.mp ho
      have hread : o.getKind = .ok k := by rw [Outline.getKind, hk]; rfl
      rw [ofKind, hread, ih hrest]
      show Except.ok (if k = kind then _ else _) = _
      rw [List.filter_cons, hk]
      by_cases heq : k = kind
      · rw [if_pos heq, if_pos (by rw [heq]; exact beq_self_eq_true _)]
      · rw [if_neg heq, if_neg (by simpa using heq)]

/-- What the patterns of some names show in a script. -/
def showings (content : String) (pattern : String → Pattern) (relation : String → Nat → Relation)
    (names : List String) : List Relation :=
  names.flatMap fun name =>
    ((pattern name).scan content).map fun m => relation name (lineAt content m.start)

theorem places_eq (h : ∀ o ∈ outlines, o.name.isSome = true) (content : String)
    (pattern : String → Pattern) (relation : String → Nat → Relation) :
    places content pattern relation outlines =
      .ok (showings content pattern relation (outlines.filterMap (·.name))) := by
  induction outlines with
  | nil => rfl
  | cons o rest ih =>
      obtain ⟨ho, hrest⟩ := List.forall_mem_cons.mp h
      obtain ⟨name, hname⟩ := Option.isSome_iff_exists.mp ho
      have hread : o.getName = .ok name := by rw [Outline.getName, hname]; rfl
      rw [places, hread, ih hrest, List.filterMap_cons_some hname]
      rfl

theorem findRelations_eq (h : ∀ o ∈ outlines, o.Labelled) (content : String) :
    findRelations content outlines = .ok
      { categories := ["calls", "uses", "defines", "imports"]
        entries :=
          (showings content wordPattern .shellCall (named "function" outlines)).map
            (("calls", ·)) ++
          (showings content expansionPattern .shellUse (named "variable" outlines)).map
            (("uses", ·)) ++
          (imports content "source" ++ imports content ".").map (("imports", ·)) } := by
  have hkinds : ∀ o ∈ outlines, o.kind.isSome = true := fun o ho => (h o ho).kind
  have hplaces : ∀ kind pattern relation,
      places content pattern relation (outlines.filter (·.kind == some kind)) =
        .ok (showings content pattern relation (named kind outlines)) :=
    fun _ => places_eq (fun o ho => (h o (List.mem_filter.mp ho).1).name) content
  rw [findRelations, ofKind_eq hkinds, ofKind_eq hkinds]
  show (places _ _ _ _ >>= fun _ => places _ _ _ _ >>= _) = _
  rw [hplaces, hplaces]
  rfl

theorem exists_findRelations (h : ∀ o ∈ outlines, o.Labelled) (content : String) :
    ∃ rs, Dialect.shell.findRelations content outlines = .ok rs ∧
      rs.of "uses" = showings content expansionPattern .shellUse (named "variable" outlines) ∧
      rs.of "imports" = imports content "source" ++ imports content "." := by
  refine ⟨_, findRelations_eq h content, ?_, ?_⟩
  · simp [Relations.of, List.filter_map, Function.comp_def]
  · simp [Relations.of, List.filter_map, Function.comp_def]

/-! ## Expansions -/

/-- A name that can be expanded: letters, digits and underscores, a digit not first. -/
def IsIdentifier (w : List Char) : Prop :=
  w.head?.any CharClass.nameHead.holds = true ∧ ∀ c ∈ w, CharClass.nameTail.holds c = true

/-- A dollar sign at a place, an opening brace behind it or none, and what comes then. -/
structure SignAt (content : String) (place : Nat) (brace after : List Char) : Prop where
  text : ∃ front, content.toList = front ++ '$' :: (brace ++ after) ∧ front.length = place
  brace : brace = [] ∨ brace = ['\x7b']

/-- Whether a text comes after a dollar sign and an opening brace or none. -/
def ShownAt (content : String) (w : List Char) (place : Nat) : Prop :=
  ∃ brace back, SignAt content place brace (w ++ back)

/-- An expansion that begins at a place, with the whole of its name and what comes after it. -/
structure Begins (content : String) (place : Nat) (brace w back : List Char) : Prop where
  sign : SignAt content place brace (w ++ back)
  identifier : IsIdentifier w
  whole : back.head?.any CharClass.nameTail.holds = false

/-- Whether a name is expanded at a place. A brace that is opened is closed later. -/
def Expands (content : String) (w : List Char) (place : Nat) : Prop :=
  ∃ brace back, Begins content place brace w back ∧ (brace = [] ∨ '\x7d' ∈ back)

theorem IsIdentifier.exists_cons (h : IsIdentifier w) :
    ∃ c cs, w = c :: cs ∧ CharClass.nameHead.holds c = true := by
  cases w with
  | nil => exact absurd h.1 Bool.false_ne_true
  | cons c cs => exact ⟨c, cs, rfl, h.1⟩

theorem IsIdentifier.dollar_not_mem (h : IsIdentifier w) : '$' ∉ w := by
  intro hmem
  exact absurd (h.2 _ hmem) (by decide)

/-- No name begins with a brace, so what comes after the sign tells whether there is one. -/
theorem brace_unique {after after' : List Char} (hb : brace = [] ∨ brace = ['\x7b'])
    {brace' : List Char} (hb' : brace' = [] ∨ brace' = ['\x7b'])
    (h : brace ++ (w ++ after) = brace' ++ (w' ++ after')) (hw : IsIdentifier w)
    (hw' : IsIdentifier w') : brace = brace' ∧ w ++ after = w' ++ after' := by
  have hno : CharClass.nameHead.holds '\x7b' ≠ true := by decide
  obtain ⟨c, cs, rfl, hc⟩ := hw.exists_cons
  obtain ⟨c', cs', rfl, hc'⟩ := hw'.exists_cons
  rcases hb with rfl | rfl
  · rcases hb' with rfl | rfl
    · exact ⟨rfl, h⟩
    · exact absurd ((List.cons.inj h).1 ▸ hc) hno
  · rcases hb' with rfl | rfl
    · exact absurd ((List.cons.inj h).1 ▸ hc') hno
    · exact ⟨rfl, (List.cons.inj h).2⟩

/-- One expansion at most begins at a place. -/
theorem Begins.unique {brace' back' : List Char} (h : Begins content place brace w back)
    (h' : Begins content place brace' w' back') : brace = brace' ∧ w = w' ∧ back = back' := by
  obtain ⟨front, hcontent, hfront⟩ := h.sign.text
  obtain ⟨front', hcontent', hfront'⟩ := h'.sign.text
  have hrest := List.append_inj_right (hcontent.symm.trans hcontent') (hfront.trans hfront'.symm)
  obtain ⟨hbrace, hafter⟩ := brace_unique h.sign.brace h'.sign.brace (List.cons.inj hrest).2
    h.identifier h'.identifier
  exact ⟨hbrace, Text.run_unique hafter h.identifier.2 h'.identifier.2 h.whole h'.whole⟩

/-- Where a name is shown, an expansion of it or of a longer name begins. -/
theorem SignAt.exists_begins (h : SignAt content place brace (w ++ back)) (hw : IsIdentifier w) :
    ∃ more rest, Begins content place brace (w ++ more) rest ∧ back = more ++ rest := by
  refine ⟨back.takeWhile CharClass.nameTail.holds, back.dropWhile CharClass.nameTail.holds,
    ⟨?_, ⟨?_, ?_⟩, ?_⟩, List.takeWhile_append_dropWhile.symm⟩
  · rw [List.append_assoc, List.takeWhile_append_dropWhile]
    exact h
  · obtain ⟨c, cs, rfl, hc⟩ := hw.exists_cons
    exact hc
  · intro c hc
    rcases List.mem_append.mp hc with hc | hc
    · exact hw.2 c hc
    · exact List.all_eq_true.mp List.all_takeWhile c hc
  · cases hrest : back.dropWhile CharClass.nameTail.holds with
    | nil => rfl
    | cons c rest =>
        have hc := List.head?_dropWhile_not CharClass.nameTail.holds back
        rw [hrest] at hc
        exact hc

/-! ## Where a name is shown -/

/-- The places where a name is shown, from the first on. Only a name with a dollar sign in it can be
shown at a place that belongs to an earlier showing. -/
structure Shows (content : String) (w : List Char) (places : List Nat) : Prop where
  ordered : places.Pairwise (· < ·)
  shown : ∀ i ∈ places, ShownAt content w i
  all : ∀ i, ShownAt content w i → i ∈ places ∨ '$' ∈ w ∧ ∃ j ∈ places, j < i

open Pattern in
theorem takes_expansionPattern_iff {name : String} {cs : List Char}
    {parts : List (Nat × List Char)} :
    (expansionPattern name).Takes cs parts ↔
      ∃ brace close, (brace = [] ∨ brace = ['\x7b']) ∧ (close = [] ∨ close = ['\x7d']) ∧
        cs = '$' :: (brace ++ (name.toList ++ close)) ∧ parts = [] := by
  rw [expansionPattern, takes_append_silent_iff (takes_opt_silent_iff takes_lit_iff)]
  simp only [takes_append_silent_iff takes_lit_iff,
    takes_append_silent_iff (takes_opt_silent_iff takes_lit_iff), takes_lit_iff]
  constructor
  · rintro ⟨_, close, ⟨_, _, ⟨_, brace, ⟨rfl, rfl⟩, hbrace, rfl⟩, rfl, rfl⟩, hclose, rfl⟩
    refine ⟨brace, close, hbrace, hclose, ?_, rfl⟩
    rw [List.append_assoc, List.append_assoc]
    rfl
  · rintro ⟨brace, close, hbrace, hclose, rfl, rfl⟩
    refine ⟨_, close, ⟨_, _, ⟨_, brace, ⟨rfl, rfl⟩, hbrace, rfl⟩, rfl, rfl⟩, hclose, ?_⟩
    rw [List.append_assoc, List.append_assoc]
    rfl

theorem plain_expansionPattern (name : String) : (expansionPattern name).plain = true := rfl

theorem consumes_expansionPattern (name : String) : (expansionPattern name).Consumes := by
  refine Pattern.consumes_of_takes (plain_expansionPattern name) fun htakes => ?_
  obtain ⟨brace, close, -, -, rfl, -⟩ := takes_expansionPattern_iff.mp htakes
  exact List.cons_ne_nil _ _

theorem ledBy_expansionPattern {name : String} (h : '$' ∉ name.toList) :
    (expansionPattern name).LedBy '$' := by
  refine ⟨plain_expansionPattern name, fun htakes => ?_⟩
  obtain ⟨brace, close, hbrace, hclose, rfl, -⟩ := takes_expansionPattern_iff.mp htakes
  refine ⟨_, rfl, ?_⟩
  rcases hbrace with rfl | rfl <;> rcases hclose with rfl | rfl <;> simp [h]

theorem shownAt_of_matchIn {name : String} {m : Match}
    (h : (expansionPattern name).MatchIn content m) : ShownAt content name.toList m.start := by
  obtain ⟨front, rest, hcontent, hmatch⟩ := h
  obtain ⟨cs, rest', parts, htakes, hrest, rfl⟩ :=
    Pattern.exists_of_matchAt? (plain_expansionPattern name) hmatch
  obtain ⟨brace, close, hbrace, -, rfl, -⟩ := takes_expansionPattern_iff.mp htakes
  refine ⟨brace, close ++ rest', ⟨front, ?_, rfl⟩, hbrace⟩
  rw [hcontent, show rest = _ from hrest, List.cons_append, List.append_assoc, List.append_assoc]

theorem ShownAt.exists_matchIn {name : String} (h : ShownAt content name.toList place) :
    ∃ m, (expansionPattern name).MatchIn content m ∧ m.start = place := by
  obtain ⟨brace, back, ⟨front, hcontent, rfl⟩, hbrace⟩ := h
  have htakes : (expansionPattern name).Takes ('$' :: (brace ++ (name.toList ++ []))) [] :=
    takes_expansionPattern_iff.mpr ⟨brace, [], hbrace, .inl rfl, rfl, rfl⟩
  rw [List.append_nil] at htakes
  have hrest : (Cursor.between front ('$' :: (brace ++ (name.toList ++ back)))).rest =
      '$' :: (brace ++ name.toList) ++ back := by
    rw [List.cons_append, List.append_assoc]
    rfl
  obtain ⟨m, hm⟩ := htakes.exists_matchAt? hrest
  exact ⟨m, ⟨front, _, hcontent, hm⟩, Pattern.start_of_matchAt? hm⟩

theorem shows_scan (content name : String) :
    Shows content name.toList (((expansionPattern name).scan content).map (·.start)) where
  ordered := List.pairwise_map.mpr
    (Pattern.pairwise_start_scan (consumes_expansionPattern name) content)
  shown i hi := by
    obtain ⟨m, hm, rfl⟩ := List.mem_map.mp hi
    exact shownAt_of_matchIn (Pattern.mem_scan (consumes_expansionPattern name) hm)
  all i hi := by
    obtain ⟨m, hm, rfl⟩ := hi.exists_matchIn
    by_cases hdollar : '$' ∈ name.toList
    · obtain ⟨m', hm', hle, -⟩ := Pattern.exists_mem_scan (consumes_expansionPattern name) hm
      rcases Nat.lt_or_eq_of_le hle with hlt | heq
      · exact .inr ⟨hdollar, _, List.mem_map_of_mem hm', hlt⟩
      · exact .inl (heq ▸ List.mem_map_of_mem hm')
    · exact .inl (List.mem_map_of_mem ((ledBy_expansionPattern hdollar).mem_scan_iff.mpr hm))

namespace Shows

variable {places : List Nat}

theorem ne_nil (h : Shows content w places) (hw : ShownAt content w place) : places ≠ [] := by
  rcases h.all place hw with hmem | ⟨-, j, hj, -⟩
  · exact List.ne_nil_of_mem hmem
  · exact List.ne_nil_of_mem hj

/-- All places of a name are expansions of it if and only if it can be expanded, unless it is shown
nowhere, and every expansion of a name that begins with it is closed and has that name itself. -/
theorem forall_expands_iff (h : Shows content w places) :
    (∀ i ∈ places, Expands content w i) ↔
      ((∃ i, ShownAt content w i) → IsIdentifier w) ∧
        ∀ i brace w' back, Begins content i brace w' back → w <+: w' →
          w' = w ∧ (brace = [] ∨ '\x7d' ∈ back) := by
  have hshown : ∀ {i brace back more}, Begins content i brace (w ++ more) back →
      ShownAt content w i := fun hbegins =>
    ⟨_, _, by rw [← List.append_assoc]; exact hbegins.sign⟩
  constructor
  · intro hall
    have hidentifier : (∃ i, ShownAt content w i) → IsIdentifier w := by
      rintro ⟨i, hi⟩
      obtain ⟨j, hj⟩ := List.exists_mem_of_ne_nil _ (h.ne_nil hi)
      obtain ⟨brace, back, hbegins, -⟩ := hall j hj
      exact hbegins.identifier
    refine ⟨hidentifier, ?_⟩
    rintro i brace _ back hbegins ⟨more, rfl⟩
    have hw := hidentifier ⟨i, hshown hbegins⟩
    -- a name that can be expanded has no dollar sign, so no place of it is passed over
    have hmem : i ∈ places :=
      (h.all i (hshown hbegins)).resolve_right fun hdollar => hw.dollar_not_mem hdollar.1
    obtain ⟨brace', back', hbegins', hclosed⟩ := hall i hmem
    obtain ⟨rfl, hname, rfl⟩ := hbegins.unique hbegins'
    exact ⟨hname, hclosed⟩
  · rintro ⟨hidentifier, hnone⟩ i hi
    obtain ⟨brace, back, hsign⟩ := h.shown i hi
    have hw : IsIdentifier w := hidentifier ⟨i, brace, back, hsign⟩
    obtain ⟨more, rest, hbegins, rfl⟩ := hsign.exists_begins hw
    obtain ⟨hname, hclosed⟩ := hnone i brace _ rest hbegins (List.prefix_append w more)
    rw [hname] at hbegins
    exact ⟨brace, rest, hbegins, hclosed⟩

end Shows

/-- The uses of a variable are filed for the places where its name comes after a dollar sign and an
opening brace or none, each with the line on which it lies. They all are expansions of the variable
itself if and only if, for every variable that is listed, what is shown can be expanded, and no
expansion begins with the variable's name and has a longer one or is never closed. -/
theorem uses_expand_iff (content : String) {outlines : List Outline}
    (h : ∀ o ∈ outlines, o.Labelled) :
    ∃ (rs : Relations) (places : String → List Nat),
      Dialect.shell.findRelations content outlines = .ok rs ∧
      (∀ v, Shows content v.toList (places v)) ∧
      (∀ v, ∀ i ∈ places v, ∃ line column,
        Text.LiesOn content i line (lineAt content i) column) ∧
      rs.of "uses" = ((named "variable" outlines).flatMap fun v =>
        (places v).map fun i => .shellUse v (lineAt content i)) ∧
      ((∀ v ∈ named "variable" outlines, ∀ i ∈ places v, Expands content v.toList i) ↔
        ∀ v ∈ named "variable" outlines,
          ((∃ i, ShownAt content v.toList i) → IsIdentifier v.toList) ∧
          ∀ i brace w back, Begins content i brace w back → v.toList <+: w →
            w = v.toList ∧ (brace = [] ∨ '\x7d' ∈ back)) := by
  obtain ⟨rs, hfound, huses, -⟩ := exists_findRelations h content
  refine ⟨rs, fun v => ((expansionPattern v).scan content).map (·.start), hfound,
    shows_scan content, ?_, ?_, ?_⟩
  · intro v i hi
    obtain ⟨brace, back, ⟨front, hcontent, rfl⟩, -⟩ := (shows_scan content v).shown i hi
    exact Text.liesOn_lineAt hcontent
  · rw [huses, showings]
    simp only [List.map_map, Function.comp_def]
  · exact forall_congr' fun v => forall_congr' fun _ => (shows_scan content v).forall_expands_iff

theorem uses_of_braced_variable :
    ∃ (rs : Relations) (places : String → List Nat),
      Dialect.shell.findRelations "x=1\necho $\x7bx\x7d$x\n"
        [⟨some "x", some "variable", none, none⟩] = .ok rs ∧
      Shows "x=1\necho $\x7bx\x7d$x\n" "x".toList (places "x") ∧
      rs.of "uses" = (["x"].flatMap fun v =>
        (places v).map fun i => .shellUse v (lineAt "x=1\necho $\x7bx\x7d$x\n" i)) := by
  have hlabelled : ∀ o ∈ [(⟨some "x", some "variable", none, none⟩ : Outline)], o.Labelled :=
    List.forall_mem_singleton.mpr ⟨rfl, rfl⟩
  obtain ⟨rs, places, hfound, hshows, -, huses, -⟩ :=
    uses_expand_iff "x=1\necho $\x7bx\x7d$x\n" hlabelled
  exact ⟨rs, places, hfound, hshows "x", huses⟩

/-- The expansion of a longer name is filed as a use of a variable that is expanded nowhere. -/
theorem longer_name_counts_as_use :
    Dialect.shell.findRelations "echo $ab\n" [⟨some "a", some "variable", none, none⟩] =
      .ok { categories := ["calls", "uses", "defines", "imports"]
            entries := [("uses", .shellUse "a" 1)] } ∧
    ¬ ∃ i, Expands "echo $ab\n" ['a'] i := by
  refine ⟨by decide +kernel, ?_⟩
  rintro ⟨i, brace, back, hbegins, -⟩
  have hplaces : ((expansionPattern "a").scan "echo $ab\n").map (·.start) = [5] := by
    decide +kernel
  have hall := (shows_scan "echo $ab\n" "a").all i ⟨brace, back, hbegins.sign⟩
  rw [hplaces] at hall
  have hi : i = 5 := List.mem_singleton.mp
    (hall.resolve_right fun hdollar => absurd hdollar.1 (by decide))
  have hlonger : Begins "echo $ab\n" 5 [] ['a', 'b'] ['\n'] :=
    ⟨⟨⟨"echo ".toList, by decide, rfl⟩, .inl rfl⟩,
      ⟨by decide, List.all_eq_true.mp (by decide)⟩, by decide⟩
  exact absurd ((hi ▸ hbegins).unique hlonger).2.1 (by decide)

end Shell

end SymbolAtlas
