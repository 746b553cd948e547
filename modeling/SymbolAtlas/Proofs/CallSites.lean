/-
  SymbolAtlas.Proofs.CallSites: which calls a text has, and under which symbol each is filed.

  A word is called where a parenthesis opens after it, with blanks between or none (`CallsAt`).
  Scanning a line finds each such place once, from left to right (`scan_callPattern`): a match ends
  at a parenthesis, so it never reaches into the next word, and where no match starts inside a word
  none was missed before it. The rules drop the words that are no calls and file every other one
  under the first symbol over its line.
-/

import SymbolAtlas.Proofs.Owners
import SymbolAtlas.Proofs.PatternText

namespace SymbolAtlas

namespace Text

/-! ## Called words -/

/-- Whether a parenthesis opens next, after blanks or none. -/
def opensParen (cs : List Char) : Bool := (cs.dropWhile isBlank).head? == some '('

/-- Whether a word stands at a place of a text and is called there: it is no part of a longer word,
and a parenthesis opens after it. -/
def CallsAt (s : String) (place : Nat) (word : String) : Prop :=
  ∃ before after, s.toList = before ++ word.toList ++ after ∧ before.length = place ∧
    IsName word.toList ∧ before.getLast?.any isWord = false ∧ opensParen after = true

/-- The called words of a text with their places; `inside` says whether a word character comes
before. -/
def calledFrom (inside : Bool) (place : Nat) : List Char → List (Nat × String)
  | [] => []
  | c :: rest =>
    let more := calledFrom (isWord c) (place + 1) rest
    if !inside && isWord c && opensParen (rest.dropWhile isWord) then
      (place, String.ofList (c :: rest.takeWhile isWord)) :: more
    else more

/-- The called words of a text with their places, from left to right. -/
def called (s : String) : List (Nat × String) := calledFrom false 0 s.toList

variable {w gap after rest : List Char} {inside : Bool} {place : Nat}

theorem IsName.of_all (h : (!w.isEmpty && w.all isWord) = true) : IsName w := by
  obtain ⟨hne, hall⟩ := (Bool.and_eq_true _ _).mp h
  exact ⟨by simpa using hne, List.all_eq_true.mp hall⟩

theorem opensParen_append (h : ∀ c ∈ gap, isBlank c = true) (rest : List Char) :
    opensParen (gap ++ '(' :: rest) = true := by
  rw [opensParen, List.dropWhile_append_of_pos h]
  rfl

theorem exists_of_opensParen (h : opensParen after = true) :
    ∃ gap rest, (∀ c ∈ gap, isBlank c = true) ∧ after = gap ++ '(' :: rest := by
  obtain ⟨rest, hrest⟩ := List.head?_eq_some_iff.mp (beq_iff_eq.mp h)
  refine ⟨after.takeWhile isBlank, rest, ?_, ?_⟩
  · exact List.all_eq_true.mp List.all_takeWhile
  · rw [← hrest, List.takeWhile_append_dropWhile]

/-- What a parenthesis follows does not begin with a word character. -/
theorem isWord_of_opensParen {c : Char} (h : opensParen (c :: rest) = true) : isWord c = false := by
  obtain ⟨gap, tail, hgap, heq⟩ := exists_of_opensParen h
  cases gap with
  | nil =>
      rw [(List.cons.inj heq).1]
      decide
  | cons b bs =>
      rw [(List.cons.inj heq).1]
      exact isWord_of_isBlank (hgap b List.mem_cons_self)

theorem takeWhile_isWord (hw : ∀ c ∈ w, isWord c = true) (h : opensParen after = true) :
    (w ++ after).takeWhile isWord = w := by
  rw [List.takeWhile_append_of_pos hw]
  cases after with
  | nil => rw [List.takeWhile_nil, List.append_nil]
  | cons c rest =>
      rw [List.takeWhile_cons_of_neg (by simp [isWord_of_opensParen h]), List.append_nil]

theorem dropWhile_isWord (hw : ∀ c ∈ w, isWord c = true) (h : opensParen after = true) :
    (w ++ after).dropWhile isWord = after := by
  rw [List.dropWhile_append_of_pos hw]
  cases after with
  | nil => rfl
  | cons c rest => rw [List.dropWhile_cons_of_neg (by simp [isWord_of_opensParen h])]

theorem mem_calledFrom_cons {c : Char} {i : Nat} {word : String} :
    (i, word) ∈ calledFrom inside place (c :: rest) ↔
      (inside = false ∧ isWord c = true ∧ opensParen (rest.dropWhile isWord) = true ∧
        i = place ∧ word = String.ofList (c :: rest.takeWhile isWord)) ∨
      (i, word) ∈ calledFrom (isWord c) (place + 1) rest := by
  rw [calledFrom]
  split
  next hhere =>
    simp only [Bool.and_eq_true, Bool.not_eq_true'] at hhere
    rw [List.mem_cons, Prod.mk.injEq]
    simp only [hhere.1.1, hhere.1.2, hhere.2, true_and]
  next hhere =>
    refine ⟨.inr, fun h => h.resolve_left ?_⟩
    rintro ⟨hinside, hword, hparen, -⟩
    exact hhere (by rw [hinside, hword, hparen]; rfl)

/-- The word characters that come next, where a parenthesis opens after them, are the one word that
is called there. -/
theorem eq_takeWhile_iff {c : Char} {word : String} :
    (isWord c = true ∧ opensParen (rest.dropWhile isWord) = true ∧
      word = String.ofList (c :: rest.takeWhile isWord)) ↔
      ∃ after, c :: rest = word.toList ++ after ∧ IsName word.toList ∧ opensParen after = true := by
  constructor
  · rintro ⟨hword, hparen, rfl⟩
    refine ⟨rest.dropWhile isWord, ?_, ?_, hparen⟩
    · rw [String.toList_ofList, List.cons_append, List.takeWhile_append_dropWhile]
    · rw [String.toList_ofList]
      refine ⟨List.cons_ne_nil _ _, List.forall_mem_cons.mpr ⟨hword, ?_⟩⟩
      exact List.all_eq_true.mp List.all_takeWhile
  · rintro ⟨after, hcs, hname, hparen⟩
    obtain ⟨d, ds, hds⟩ := List.exists_cons_of_ne_nil hname.1
    rw [hds] at hname
    rw [hds, List.cons_append] at hcs
    obtain ⟨rfl, rfl⟩ := List.cons.inj hcs
    obtain ⟨hc, hword⟩ := List.forall_mem_cons.mp hname.2
    rw [takeWhile_isWord hword hparen, dropWhile_isWord hword hparen, ← hds, String.ofList_toList]
    exact ⟨hc, hparen, rfl⟩

/-- The called words are those that stand so, `inside` telling of the character before the text. -/
theorem mem_calledFrom_iff {cs : List Char} {i : Nat} {word : String} :
    (i, word) ∈ calledFrom inside place cs ↔
      ∃ before after, cs = before ++ word.toList ++ after ∧ i = place + before.length ∧
        IsName word.toList ∧ (before.getLast?.map isWord).getD inside = false ∧
        opensParen after = true := by
  induction cs generalizing inside place with
  | nil =>
      refine ⟨fun h => absurd h List.not_mem_nil, ?_⟩
      rintro ⟨before, after, hcs, -, hname, -⟩
      have hnil := List.append_eq_nil_iff.mp (List.append_eq_nil_iff.mp hcs.symm).1
      exact absurd hnil.2 hname.1
  | cons c rest ih =>
      -- a place further on, as seen from the whole list: the first sign comes before it
      have hmore : (i, word) ∈ calledFrom (isWord c) (place + 1) rest ↔
          ∃ before after, c :: rest = (c :: before) ++ word.toList ++ after ∧
            i = place + (c :: before).length ∧ IsName word.toList ∧
            ((c :: before).getLast?.map isWord).getD inside = false ∧ opensParen after = true := by
        rw [ih]
        simp only [List.cons_append, List.cons.injEq, true_and, List.length_cons,
          List.getLast?_cons, Option.map_some, Option.getD_some, Option.getD_map, Nat.add_assoc,
          Nat.add_comm 1]
      rw [mem_calledFrom_cons]
      constructor
      · rintro (⟨hinside, hword, hparen, hi, heq⟩ | hmem)
        · obtain ⟨after, hcs, hname, hafter⟩ := eq_takeWhile_iff.mp ⟨hword, hparen, heq⟩
          exact ⟨[], after, hcs, hi, hname, hinside, hafter⟩
        · obtain ⟨before, after, hspec⟩ := hmore.mp hmem
          exact ⟨c :: before, after, hspec⟩
      · rintro ⟨before, after, hcs, hi, hname, hbefore, hafter⟩
        cases before with
        | nil =>
            obtain ⟨hword, hparen, heq⟩ := eq_takeWhile_iff.mpr ⟨after, hcs, hname, hafter⟩
            exact .inl ⟨hbefore, hword, hparen, hi, heq⟩
        | cons d before =>
            obtain rfl : c = d := (List.cons.inj hcs).1
            exact .inr (hmore.mpr ⟨before, after, hcs, hi, hname, hbefore, hafter⟩)

theorem mem_called_iff {s : String} {i : Nat} {word : String} :
    (i, word) ∈ called s ↔ CallsAt s i word := by
  have hlast : ∀ c : Option Char, (c.map isWord).getD false = c.any isWord := by
    intro c
    cases c with
    | none => rfl
    | some c => rfl
  rw [called, mem_calledFrom_iff, CallsAt]
  simp only [hlast, Nat.zero_add, eq_comm (a := i)]

theorem pairwise_calledFrom (inside : Bool) (place : Nat) (cs : List Char) :
    (calledFrom inside place cs).Pairwise fun a b => a.1 < b.1 := by
  induction cs generalizing inside place with
  | nil => exact .nil
  | cons c rest ih =>
      rw [calledFrom]
      split
      · refine List.pairwise_cons.mpr ⟨?_, ih _ _⟩
        rintro ⟨i, word⟩ hmem
        obtain ⟨before, -, -, hi, -⟩ := mem_calledFrom_iff.mp hmem
        show place < i
        omega
      · exact ih _ _

/-! ## Passing over what is no call -/

theorem calledFrom_of_word (hw : ∀ c ∈ w, isWord c = true) (rest : List Char) :
    calledFrom true place (w ++ rest) = calledFrom true (place + w.length) rest := by
  induction w generalizing place with
  | nil => rfl
  | cons c w ih =>
      obtain ⟨hc, hw⟩ := List.forall_mem_cons.mp hw
      rw [List.cons_append, calledFrom, hc]
      show calledFrom true (place + 1) (w ++ rest) = _
      rw [ih hw, List.length_cons]
      congr 1
      omega

theorem calledFrom_of_not_isWord {u : List Char} (hu : ∀ c ∈ u, isWord c = false) (hne : u ≠ [])
    (rest : List Char) :
    calledFrom inside place (u ++ rest) = calledFrom false (place + u.length) rest := by
  induction u generalizing inside place with
  | nil => exact absurd rfl hne
  | cons c u ih =>
      obtain ⟨hc, hu⟩ := List.forall_mem_cons.mp hu
      rw [List.cons_append, calledFrom, hc, Bool.and_false, Bool.false_and]
      show calledFrom false (place + 1) (u ++ rest) = _
      cases u with
      | nil => rfl
      | cons d u =>
          rw [ih hu (List.cons_ne_nil d u), List.length_cons (a := c)]
          congr 1
          omega

/-- A called word that begins with `c`: its other characters `w`, a sign that opens a parenthesis,
and the rest. -/
structure CallSpan (c : Char) (w sign rest : List Char) : Prop where
  head : isWord c = true
  word : ∀ d ∈ w, isWord d = true
  paren : opensParen (sign ++ rest) = true
  sign_ne : sign ≠ []
  sign : ∀ d ∈ sign, isWord d = false

theorem CallSpan.calledFrom_eq {c : Char} {sign : List Char} (h : CallSpan c w sign rest)
    (place : Nat) :
    calledFrom false place (c :: (w ++ sign ++ rest)) =
      (place, String.ofList (c :: w)) ::
        calledFrom false (place + 1 + (w ++ sign).length) rest := by
  have hmore : calledFrom true (place + 1) (w ++ sign ++ rest) =
      calledFrom false (place + 1 + (w ++ sign).length) rest := by
    rw [List.append_assoc, calledFrom_of_word h.word, calledFrom_of_not_isWord h.sign h.sign_ne,
      List.length_append, Nat.add_assoc (place + 1)]
  rw [calledFrom, h.head, hmore, List.append_assoc, dropWhile_isWord h.word h.paren,
    takeWhile_isWord h.word h.paren, h.paren]
  rfl

end Text

/-! ## Scanning -/

namespace Pattern

variable {p : Pattern} {x : Cursor} {cs : List Char} {parts : List (Nat × List Char)}

theorem scanFrom_of_none {before : Option Char} {c : Char} {r : List Char} {offset : Nat}
    (h : p.matchAt? ⟨before, c :: r, offset, []⟩ = none) :
    scanFrom p before (c :: r) offset offset =
      scanFrom p (some c) r (offset + 1) (offset + 1) := by
  rw [scanFrom, if_neg (Nat.lt_irrefl offset)]
  dsimp only
  rw [h]

/-- Behind a match that is not empty, scanning goes on where the match stops. -/
theorem scanFrom_of_some {before : Option Char} {c : Char} {r : List Char} {offset : Nat}
    {m : Match} (h : p.matchAt? ⟨before, c :: r, offset, []⟩ = some m) (hstop : m.stop ≠ offset) :
    scanFrom p before (c :: r) offset offset =
      m :: scanFrom p (some c) r (offset + 1) m.stop := by
  rw [scanFrom, if_neg (Nat.lt_irrefl offset)]
  dsimp only
  rw [h]
  exact if_neg hstop

/-- Places before the one where scanning resumes are passed over. -/
theorem scanFrom_append (p : Pattern) (before : Option Char) (u v : List Char) (offset : Nat) :
    ∃ last, scanFrom p before (u ++ v) offset (offset + u.length) =
      scanFrom p last v (offset + u.length) (offset + u.length) := by
  induction u generalizing before offset with
  | nil => exact ⟨before, rfl⟩
  | cons c u ih =>
      obtain ⟨last, hlast⟩ := ih (some c) (offset + 1)
      refine ⟨last, ?_⟩
      have hlength : offset + (c :: u).length = offset + 1 + u.length := by
        rw [List.length_cons]
        omega
      rw [hlength, ← hlast, List.cons_append, scanFrom, if_pos (by omega)]

theorem takes_callPattern_iff :
    callPattern.Takes cs parts ↔ ∃ w gap, Text.IsName w ∧ (∀ c ∈ gap, Text.isBlank c = true) ∧
      cs = w ++ gap ++ ['('] ∧ parts = [(1, w)] := by
  simp only [callPattern, takes_append_silent_iff takes_lit_iff,
    takes_append_silent_iff takes_blanks_iff, takes_name_iff]
  constructor
  · rintro ⟨-, -, ⟨w, gap, ⟨hw, rfl⟩, hgap, rfl⟩, rfl, rfl⟩
    exact ⟨w, gap, hw, hgap, rfl, rfl⟩
  · rintro ⟨w, gap, hw, hgap, rfl, rfl⟩
    exact ⟨_, _, ⟨w, gap, ⟨hw, rfl⟩, hgap, rfl⟩, rfl, rfl⟩

/-- Where word characters come next and then a parenthesis, there is a match. -/
theorem exists_matchAt?_callPattern {c : Char} {r : List Char} (hx : x.rest = c :: r)
    (hc : Text.isWord c = true) (hparen : Text.opensParen (r.dropWhile Text.isWord) = true) :
    ∃ m, callPattern.matchAt? x = some m := by
  obtain ⟨gap, rest, hgap, hafter⟩ := Text.exists_of_opensParen hparen
  have hname : Text.IsName (c :: r.takeWhile Text.isWord) :=
    ⟨List.cons_ne_nil _ _,
      List.forall_mem_cons.mpr ⟨hc, List.all_eq_true.mp List.all_takeWhile⟩⟩
  have hrest : x.rest = c :: r.takeWhile Text.isWord ++ gap ++ ['('] ++ rest := by
    calc x.rest
        = c :: (r.takeWhile Text.isWord ++ r.dropWhile Text.isWord) := by
          rw [List.takeWhile_append_dropWhile, hx]
      _ = c :: r.takeWhile Text.isWord ++ gap ++ ['('] ++ rest := by simp [hafter]
  exact (takes_callPattern_iff.mpr ⟨_, gap, hname, hgap, rfl, rfl⟩).exists_matchAt? hrest

/-- A match is of a called word: it starts there, remembers the word and stops behind the sign. -/
theorem exists_of_matchAt?_callPattern {before : Option Char} {c : Char} {r : List Char}
    {offset : Nat} {m : Match}
    (h : callPattern.matchAt? ⟨before, c :: r, offset, []⟩ = some m) :
    ∃ w sign rest, Text.CallSpan c w sign rest ∧ r = w ++ sign ++ rest ∧ m.start = offset ∧
      m.stop = offset + 1 + (w ++ sign).length ∧ m.group 1 = String.ofList (c :: w) := by
  obtain ⟨taken, rest, parts, htakes, hrest, rfl⟩ := exists_of_matchAt? (by decide) h
  obtain ⟨w, gap, hname, hgap, rfl, rfl⟩ := takes_callPattern_iff.mp htakes
  obtain ⟨d, w, rfl⟩ := List.exists_cons_of_ne_nil hname.1
  obtain ⟨hd, hw⟩ := List.forall_mem_cons.mp hname.2
  obtain ⟨rfl, hr⟩ : c = d ∧ r = w ++ (gap ++ ['(']) ++ rest := by simpa using hrest
  refine ⟨w, gap ++ ['('], rest, ⟨hd, hw, ?_, by simp, ?_⟩, hr, rfl, ?_, rfl⟩
  · rw [List.append_assoc]
    exact Text.opensParen_append hgap rest
  · intro b hb
    rcases List.mem_append.mp hb with hb | hb
    · exact Text.isWord_of_isBlank (hgap b hb)
    · rw [List.mem_singleton.mp hb]
      decide
  · simp only [List.length_append, List.length_cons]
    omega

/-- Scanning finds the called words. Inside a word the scan goes on only if the word is not called,
for otherwise it would have been found where it starts. -/
theorem scanFrom_callPattern (before : Option Char) (inside : Bool) (cs : List Char) (offset : Nat)
    (hinside : inside = true → Text.opensParen (cs.dropWhile Text.isWord) = false) :
    (scanFrom callPattern before cs offset offset).map (fun m => (m.start, m.group 1)) =
      Text.calledFrom inside offset cs := by
  -- after a match the scan goes on behind it, so the induction is on the length
  induction hn : cs.length using Nat.strongRecOn generalizing before inside cs offset with
  | ind n ih =>
      cases cs with
      | nil =>
          rw [scanFrom, if_neg (Nat.lt_irrefl offset), Text.calledFrom]
          cases hm : callPattern.matchAt? ⟨before, [], offset, []⟩ with
          | none => rfl
          | some m =>
              obtain ⟨taken, rest, parts, htakes, heq, -⟩ := exists_of_matchAt? (by decide) hm
              obtain ⟨w, gap, -, -, rfl, -⟩ := takes_callPattern_iff.mp htakes
              exact absurd heq (by simp)
      | cons c r =>
          rw [List.length_cons] at hn
          cases hm : callPattern.matchAt? ⟨before, c :: r, offset, []⟩ with
          | none =>
              have hno : Text.isWord c = true →
                  Text.opensParen (r.dropWhile Text.isWord) = false := by
                intro hc
                rw [Bool.eq_false_iff]
                intro hparen
                obtain ⟨m, hsome⟩ := exists_matchAt?_callPattern
                  (x := ⟨before, c :: r, offset, []⟩) rfl hc hparen
                exact absurd (hm.symm.trans hsome) (by simp)
              have hhere : (!inside && Text.isWord c &&
                  Text.opensParen (r.dropWhile Text.isWord)) = false := by
                cases hc : Text.isWord c with
                | false => simp
                | true => rw [hno hc, Bool.and_false]
              rw [scanFrom_of_none hm, Text.calledFrom, hhere]
              exact ih r.length (by omega) (some c) (Text.isWord c) r (offset + 1) hno rfl
          | some m =>
              obtain ⟨w, sign, rest, hcall, rfl, hstart, hstop, hgroup⟩ :=
                exists_of_matchAt?_callPattern hm
              have hout : inside = false := by
                rw [Bool.eq_false_iff]
                intro hin
                have hclosed := hinside hin
                rw [List.append_assoc, ← List.cons_append, Text.dropWhile_isWord
                  (List.forall_mem_cons.mpr ⟨hcall.head, hcall.word⟩) hcall.paren,
                  hcall.paren] at hclosed
                exact absurd hclosed (by decide)
              obtain ⟨last, hlast⟩ :=
                scanFrom_append callPattern (some c) (w ++ sign) rest (offset + 1)
              have hlt : rest.length < n := by
                rw [List.length_append] at hn
                omega
              have hmore := ih rest.length hlt last false rest
                (offset + 1 + (w ++ sign).length) (by simp) rfl
              rw [scanFrom_of_some hm (by omega), List.map_cons, hstart, hgroup, hstop, hlast,
                hmore, hout, hcall.calledFrom_eq]

/-- Scanning a text for calls finds each called word once, from left to right. -/
theorem scan_callPattern (s : String) :
    (callPattern.scan s).map (fun m => (m.start, m.group 1)) = Text.called s :=
  scanFrom_callPattern none false s.toList 0 (by simp)

theorem scanGroup_callPattern (s : String) :
    callPattern.scanGroup 1 s = (Text.called s).map (·.2) := by
  rw [scanGroup, ← scan_callPattern, List.map_map]
  rfl

end Pattern

/-! ## Places of calls -/

/-- A place in a text where a word is called. -/
structure CallSite where
  line : Nat
  place : Nat
  word : String
  deriving DecidableEq, Repr

/-- The order of the lines, and from left to right in a line. -/
def CallSite.Before (a b : CallSite) : Prop :=
  a.line < b.line ∨ a.line = b.line ∧ a.place < b.place

namespace CallRule

variable {rule : CallRule} {lines : List String}

/-- The places of all called words but those that the rule leaves out. -/
def places (rule : CallRule) (lines : List String) : List CallSite :=
  scanLines (fun n line =>
    ((Text.called line).filter fun c => !rule.excluded.contains c.2).map fun c => ⟨n, c.1, c.2⟩)
    lines

theorem sites_eq (rule : CallRule) (lines : List String) :
    rule.sites lines = (rule.places lines).map fun c => (c.line, c.word) := by
  rw [sites, places, scanLines, scanLines, List.map_flatMap]
  congr 1
  funext l
  rw [onLine, Pattern.scanGroup_callPattern, List.filter_map, List.map_map, List.map_map]
  rfl

theorem mem_places_iff {c : CallSite} :
    c ∈ rule.places lines ↔ ∃ line, (line, c.line) ∈ lines.zipIdx 1 ∧
      Text.CallsAt line c.place c.word ∧ c.word ∉ rule.excluded := by
  rw [places, scanLines, List.mem_flatMap]
  constructor
  · rintro ⟨⟨line, n⟩, hl, hc⟩
    obtain ⟨⟨i, word⟩, hcalled, rfl⟩ := List.mem_map.mp hc
    obtain ⟨hcalled, hkept⟩ := List.mem_filter.mp hcalled
    exact ⟨line, hl, Text.mem_called_iff.mp hcalled, by simpa using hkept⟩
  · rintro ⟨line, hl, hcalled, hkept⟩
    refine ⟨(line, c.line), hl, List.mem_map.mpr ⟨(c.place, c.word), ?_, rfl⟩⟩
    exact List.mem_filter.mpr ⟨Text.mem_called_iff.mpr hcalled, by simpa using hkept⟩

theorem pairwise_places (rule : CallRule) (lines : List String) :
    (rule.places lines).Pairwise CallSite.Before := by
  refine pairwise_scanLines (fun n line => ?_) (fun m n line line' hlt a ha b hb => ?_) lines
  · rw [List.pairwise_map]
    exact ((Text.pairwise_calledFrom false 0 line.toList).filter _).imp fun hlt => .inr ⟨rfl, hlt⟩
  · obtain ⟨_, -, rfl⟩ := List.mem_map.mp ha
    obtain ⟨_, -, rfl⟩ := List.mem_map.mp hb
    exact .inl hlt

end CallRule

/-! ## Filing -/

namespace LineRules

variable {rules : LineRules} {outlines : List Outline}

/-- The calls of one owner, in the order of the text. -/
theorem calls_of (hheaders : rules.HeadersStateNoCall) (h : ∀ o ∈ outlines, o.Placed)
    (lines : List String) :
    ∃ rs, rules.findRelations outlines lines = .ok rs ∧
      ∀ name, (rs.of name).filter (·.kind == "calls") =
        ((rules.calls.places lines).filter fun c =>
          Outline.firstOn c.line outlines == some name).map
            fun c => rules.calls.relation c.line c.word := by
  refine ⟨_, findRelations_eq h, ?_⟩
  intro name
  have hnone : (((headerRelations rules.headers lines).filter (·.1 == name)).map (·.2)).filter
      (·.kind == "calls") = [] := by
    rw [List.filter_eq_nil_iff]
    intro r hr
    obtain ⟨e, he, rfl⟩ := List.mem_map.mp hr
    simpa using kind_of_mem_headerRelations hheaders (List.mem_of_mem_filter he)
  rw [Relations.of, List.filter_append, List.map_append, List.filter_append, hnone,
    List.append_nil, CallRule.filed_under, List.filter_eq_self.mpr]
  · rw [CallRule.sites_eq, List.filter_map, List.map_map]
    rfl
  · intro r hr
    obtain ⟨c, -, rfl⟩ := List.mem_map.mp hr
    rfl

/-- A call is filed under an owner if the word is called on a line of this owner's. -/
theorem exists_mem_of_iff (hheaders : rules.HeadersStateNoCall)
    (h : ∀ o ∈ outlines, o.Placed) (lines : List String) :
    ∃ rs, rules.findRelations outlines lines = .ok rs ∧
      ∀ owner word n, .link "calls" word rules.calls.targetKind n ∈ rs.of owner ↔
        Outline.firstOn n outlines = some owner ∧ word ∉ rules.calls.excluded ∧
          ∃ line i, (line, n) ∈ lines.zipIdx 1 ∧ Text.CallsAt line i word := by
  obtain ⟨rs, hrs, hcalls⟩ := calls_of hheaders h lines
  refine ⟨rs, hrs, fun owner word n => ?_⟩
  have hfilter : .link "calls" word rules.calls.targetKind n ∈ rs.of owner ↔
      .link "calls" word rules.calls.targetKind n ∈ (rs.of owner).filter (·.kind == "calls") :=
    ⟨fun hmem => List.mem_filter.mpr ⟨hmem, rfl⟩, List.mem_of_mem_filter⟩
  rw [hfilter, hcalls, List.mem_map]
  constructor
  · rintro ⟨c, hc, heq⟩
    obtain ⟨-, rfl, -, rfl⟩ := Relation.link.inj heq
    obtain ⟨hplace, howner⟩ := List.mem_filter.mp hc
    obtain ⟨line, hline, hat, hkept⟩ := CallRule.mem_places_iff.mp hplace
    exact ⟨beq_iff_eq.mp howner, hkept, line, c.place, hline, hat⟩
  · rintro ⟨howner, hkept, line, i, hline, hat⟩
    refine ⟨⟨n, i, word⟩, List.mem_filter.mpr ⟨?_, beq_iff_eq.mpr howner⟩, rfl⟩
    exact CallRule.mem_places_iff.mpr ⟨line, hline, hat, hkept⟩

end LineRules

/-! ## The finders -/

/-- What looks for relations by line rules: a dialect that has them, and the rules for any other
language. -/
inductive RelationFinder : LineRules →
    (String → List Outline → Except MissingField Relations) → Prop
  | ofDialect {d : Dialect} {rules : LineRules} (h : d.lineRules? = some rules) :
      RelationFinder rules d.findRelations
  | generic : RelationFinder Declarations.generic fun content outlines =>
      Declarations.generic.findRelations outlines (Text.lines content)

namespace RelationFinder

variable {rules : LineRules} {find : String → List Outline → Except MissingField Relations}

theorem find_eq (h : RelationFinder rules find) (content : String) (outlines : List Outline) :
    find content outlines = rules.findRelations outlines (Text.lines content) := by
  cases h with
  | ofDialect h => exact Dialect.findRelations_of_lineRules? h content outlines
  | generic => rfl

theorem headersStateNoCall (h : RelationFinder rules find) : rules.HeadersStateNoCall := by
  cases h with
  | ofDialect h => exact headersStateNoCall_of_lineRules? h
  | generic => exact fun rule hrule => absurd hrule List.not_mem_nil

/-- Every call is filed exactly once: the calls under a name are those places of called words, from
first to last and each of them once, whose word is not left out and whose line has a symbol on it,
the first such symbol having that name. -/
theorem calls_filed_once (h : RelationFinder rules find) (content : String)
    {outlines : List Outline} (hplaced : ∀ o ∈ outlines, o.Placed) :
    ∃ (rs : Relations) (sites : List CallSite), find content outlines = .ok rs ∧
      sites.Pairwise CallSite.Before ∧
      (∀ c, c ∈ sites ↔ ∃ line, (line, c.line) ∈ (Text.lines content).zipIdx 1 ∧
        Text.CallsAt line c.place c.word ∧ c.word ∉ rules.calls.excluded) ∧
      ∀ name, (rs.of name).filter (·.kind == "calls") =
        (sites.filter fun c => (outlines.find? (·.liesOn c.line)).bind (·.name) == some name).map
          fun c => .link "calls" c.word rules.calls.targetKind c.line := by
  obtain ⟨rs, hrs, hcalls⟩ := LineRules.calls_of h.headersStateNoCall hplaced (Text.lines content)
  refine ⟨rs, rules.calls.places (Text.lines content), ?_, CallRule.pairwise_places _ _, ?_, hcalls⟩
  · rw [h.find_eq, hrs]
  · exact fun c => CallRule.mem_places_iff

/-- Two symbols of which the first lies on the first line and the second on both. -/
def overlapping : List Outline :=
  [{ name := some "a", first := some 1, last := some 1 },
   { name := some "b", first := some 1, last := some 2 }]

theorem calls_filed_once_overlapping :
    ∃ rs, Dialect.python.findRelations "f(g(1))\nz ()" overlapping = .ok rs ∧
      Relation.link "calls" "g" "function" 1 ∈ rs.of "a" := by
  have hplaced : ∀ o ∈ overlapping, o.Placed := by
    intro o ho
    rcases List.mem_pair.mp ho with rfl | rfl
    · exact ⟨rfl, rfl, rfl⟩
    · exact ⟨rfl, rfl, rfl⟩
  obtain ⟨rs, sites, hrs, -, hsites, hcalls⟩ :=
    calls_filed_once (.ofDialect (d := .python) rfl) "f(g(1))\nz ()" hplaced
  have hsite : ⟨1, 2, "g"⟩ ∈ sites := by
    refine (hsites _).mpr ⟨"f(g(1))", by decide +kernel, ?_, by decide⟩
    exact ⟨['f', '('], ['(', '1', ')', ')'], by decide, rfl, .of_all (by decide), by decide,
      by decide⟩
  refine ⟨rs, hrs, List.mem_of_mem_filter (p := (·.kind == "calls")) ?_⟩
  rw [hcalls "a"]
  exact List.mem_map.mpr ⟨_, List.mem_filter.mpr ⟨hsite, by decide⟩, rfl⟩

end RelationFinder

end SymbolAtlas
