/-
  SymbolAtlas.Proofs.Places: where the matches of a pattern stand in a text.

  Scanning a text takes the first match, goes on behind it, and so on. For a pattern whose matches
  are never empty this means three things: what is found is a match at its place (`mem_scan`), a
  place that has a match is inside one that is found (`exists_mem_scan`), and one ends before the
  next begins (`pairwise_scan`). Where matches begin with a sign that does not come again in them,
  none can hide another and all are found (`LedBy.mem_scan_iff`).

  The line of a place is counted by the line feeds before it. It is the line on which the place
  lies (`liesOn_lineAt`).
-/

import SymbolAtlas.Proofs.LineLocality
import SymbolAtlas.Proofs.PatternText

namespace SymbolAtlas

/-- Of two ways to cut a text the one that cuts later has the front of the other and some more. -/
theorem exists_of_append_eq {α : Type} {f r f' r' : List α} (h : f ++ r = f' ++ r')
    (hle : f'.length ≤ f.length) : ∃ d, f = f' ++ d ∧ r' = d ++ r := by
  obtain ⟨d, rfl⟩ := List.prefix_of_prefix_length_le ⟨r', h.symm⟩ ⟨r, rfl⟩ hle
  rw [List.append_assoc] at h
  exact ⟨d, rfl, (List.append_cancel_left h).symm⟩

theorem exists_cons_of_append_eq {α : Type} {f r f' r' : List α} (h : f ++ r = f' ++ r')
    (hlt : f'.length < f.length) : ∃ c d, f = f' ++ c :: d ∧ r' = c :: (d ++ r) := by
  obtain ⟨d, rfl, rfl⟩ := exists_of_append_eq h (Nat.le_of_lt hlt)
  cases d with
  | nil => exact absurd hlt (by simp)
  | cons c d => exact ⟨c, d, rfl, rfl⟩

/-- A numbered member of a list has as many before it as its number says. -/
theorem mem_zipIdx_iff_append {α : Type} {l : List α} {a : α} {k n : Nat} :
    (a, n) ∈ l.zipIdx k ↔ ∃ before after, l = before ++ a :: after ∧ n = before.length + k := by
  constructor
  · intro h
    induction l generalizing k with
    | nil => exact absurd h List.not_mem_nil
    | cons b l ih =>
        rcases List.mem_cons.mp h with heq | h
        · obtain ⟨rfl, rfl⟩ := Prod.mk.inj heq
          exact ⟨[], l, rfl, (Nat.zero_add n).symm⟩
        · obtain ⟨before, after, rfl, rfl⟩ := ih h
          exact ⟨b :: before, after, rfl, by rw [List.length_cons]; omega⟩
  · rintro ⟨before, after, rfl, rfl⟩
    rw [List.zipIdx_append, List.zipIdx_cons, Nat.add_comm k]
    exact List.mem_append_right _ List.mem_cons_self

/-- The place between two parts of a text. -/
def Cursor.between (front rest : List Char) : Cursor := ⟨front.getLast?, rest, front.length, []⟩

namespace Pattern

variable {p : Pattern} {m m' : Match} {x : Cursor} {s : String} {front rest cs : List Char}
  {parts : List (Nat × List Char)} {resume : Nat} {sign : Char}

/-! ## Matches at places -/

/-- Whether every match of a pattern takes a character. -/
def Consumes (p : Pattern) : Prop := ∀ x m, p.matchAt? x = some m → x.offset < m.stop

/-- Whether a pattern has a match somewhere in a text. -/
def MatchIn (p : Pattern) (s : String) (m : Match) : Prop :=
  ∃ front rest, s.toList = front ++ rest ∧ p.matchAt? (.between front rest) = some m

theorem start_of_matchAt? (h : p.matchAt? x = some m) : m.start = x.offset := by
  rw [matchAt?_eq] at h
  obtain ⟨y, -, rfl⟩ := Option.map_eq_some_iff.mp h
  rfl

/-- A pattern without anchors whose texts are not empty takes a character. -/
theorem consumes_of_takes (hp : p.plain = true)
    (hne : ∀ {cs parts}, p.Takes cs parts → cs ≠ []) : p.Consumes := by
  intro x m h
  obtain ⟨cs, rest, parts, htakes, -, rfl⟩ := exists_of_matchAt? hp h
  have hpos := List.length_pos_iff.mpr (hne htakes)
  show x.offset < x.offset + cs.length
  omega

/-! ## Steps of a scan -/

theorem scanFrom_of_lt {before : Option Char} {c : Char} {r : List Char} {offset : Nat}
    (h : offset < resume) :
    scanFrom p before (c :: r) offset resume = scanFrom p (some c) r (offset + 1) resume := by
  rw [scanFrom, if_pos h]

theorem scanFrom_of_match (hp : p.Consumes) {before : Option Char} {c : Char} {r : List Char}
    {offset : Nat} (hresume : ¬ offset < resume)
    (h : p.matchAt? ⟨before, c :: r, offset, []⟩ = some m) :
    scanFrom p before (c :: r) offset resume =
      m :: scanFrom p (some c) r (offset + 1) m.stop := by
  have hstop : m.stop ≠ offset := Nat.ne_of_gt (hp _ _ h)
  rw [scanFrom, if_neg hresume]
  dsimp only
  rw [h]
  exact if_neg hstop

theorem scanFrom_of_no_match {before : Option Char} {c : Char} {r : List Char} {offset : Nat}
    (hresume : ¬ offset < resume) (h : p.matchAt? ⟨before, c :: r, offset, []⟩ = none) :
    scanFrom p before (c :: r) offset resume =
      scanFrom p (some c) r (offset + 1) (offset + 1) := by
  rw [scanFrom, if_neg hresume]
  dsimp only
  rw [h]

/-! ## What is found -/

/-- What is found is a match at its place, which does not lie before the place where the scan
resumes. -/
theorem exists_of_mem_scanFrom (hp : p.Consumes)
    (h : m ∈ scanFrom p front.getLast? rest front.length resume) :
    ∃ f r, front ++ rest = f ++ r ∧ resume ≤ f.length ∧ front.length ≤ f.length ∧
      p.matchAt? (.between f r) = some m := by
  induction rest generalizing front resume with
  | nil =>
      rw [scanFrom] at h
      split at h
      · exact absurd h List.not_mem_nil
      next hresume =>
        exact ⟨front, [], rfl, Nat.not_lt.mp hresume, Nat.le_refl _, Option.mem_toList.mp h⟩
  | cons c r ih =>
      -- what is found behind `c` is found in the whole text, wherever the scan resumes
      have hstep : ∀ {resume'}, resume ≤ resume' ∨ resume ≤ front.length →
          m ∈ scanFrom p (some c) r (front.length + 1) resume' →
          ∃ f r', front ++ c :: r = f ++ r' ∧ resume ≤ f.length ∧ front.length ≤ f.length ∧
            p.matchAt? (.between f r') = some m := by
        intro resume' hle hmem
        rw [← List.getLast?_concat (l := front), ← List.length_singleton (a := c),
          ← List.length_append] at hmem
        obtain ⟨f, r', heq, hresume, hfront, hmatch⟩ := ih hmem
        rw [List.length_append, List.length_singleton] at hfront
        exact ⟨f, r', by rw [← heq, List.append_assoc]; rfl, by omega, by omega, hmatch⟩
      by_cases hresume : front.length < resume
      · rw [scanFrom_of_lt hresume] at h
        exact hstep (.inl (Nat.le_refl _)) h
      · cases hmatch : p.matchAt? ⟨front.getLast?, c :: r, front.length, []⟩ with
        | none =>
            rw [scanFrom_of_no_match hresume hmatch] at h
            exact hstep (.inr (Nat.not_lt.mp hresume)) h
        | some m' =>
            rw [scanFrom_of_match hp hresume hmatch] at h
            rcases List.mem_cons.mp h with rfl | h
            · exact ⟨front, c :: r, rfl, Nat.not_lt.mp hresume, Nat.le_refl _, hmatch⟩
            · exact hstep (.inr (Nat.not_lt.mp hresume)) h

/-- A place with a match that the scan does not pass over is inside a match that is found. -/
theorem exists_mem_scanFrom (hp : p.Consumes) {f r : List Char} (heq : front ++ rest = f ++ r)
    (hresume : resume ≤ f.length) (hfront : front.length ≤ f.length)
    (h : p.matchAt? (.between f r) = some m) :
    ∃ m' ∈ scanFrom p front.getLast? rest front.length resume,
      m'.start ≤ f.length ∧ f.length < m'.stop := by
  induction rest generalizing front resume with
  | nil =>
      rw [List.append_nil] at heq
      obtain rfl : r = [] := List.length_eq_zero_iff.mp (by
        rw [heq, List.length_append] at hfront
        omega)
      rw [List.append_nil] at heq
      subst heq
      refine ⟨m, ?_, Nat.le_of_eq (start_of_matchAt? h), hp _ _ h⟩
      rw [scanFrom, if_neg (Nat.not_lt.mpr hresume)]
      exact Option.mem_toList.mpr h
  | cons c rest ih =>
      -- the scan goes on behind `c`, unless the place is the one before it
      have hstep : ∀ resume', resume' ≤ f.length → front.length < f.length →
          ∃ m' ∈ scanFrom p (some c) rest (front.length + 1) resume',
            m'.start ≤ f.length ∧ f.length < m'.stop := by
        intro resume' hle hlt
        have hfound := @ih (front ++ [c]) _ (by rw [← heq, List.append_assoc]; rfl) hle
          (by rw [List.length_append, List.length_singleton]; omega)
        rwa [List.getLast?_concat, List.length_append, List.length_singleton] at hfound
      have hhere : f.length = front.length → f = front ∧ r = c :: rest := fun hlength =>
        List.append_inj heq.symm hlength
      by_cases hlt : front.length < resume
      · rw [scanFrom_of_lt hlt]
        exact hstep resume hresume (by omega)
      · cases hmatch : p.matchAt? ⟨front.getLast?, c :: rest, front.length, []⟩ with
        | none =>
            rw [scanFrom_of_no_match hlt hmatch]
            have hne : f.length ≠ front.length := by
              intro hlength
              obtain ⟨rfl, rfl⟩ := hhere hlength
              exact absurd (hmatch.symm.trans h) (by simp)
            exact hstep _ (by omega) (by omega)
        | some m' =>
            rw [scanFrom_of_match hp hlt hmatch]
            have hstart : m'.start = front.length := start_of_matchAt? hmatch
            have hstop : front.length < m'.stop := hp _ _ hmatch
            by_cases hinside : f.length < m'.stop
            · exact ⟨m', List.mem_cons_self, by omega, hinside⟩
            · obtain ⟨m'', hmem, hcover⟩ := hstep m'.stop (by omega) (by omega)
              exact ⟨m'', List.mem_cons_of_mem _ hmem, hcover⟩

theorem pairwise_scanFrom (hp : p.Consumes) (front rest : List Char) (resume : Nat) :
    (scanFrom p front.getLast? rest front.length resume).Pairwise (·.stop ≤ ·.start) := by
  induction rest generalizing front resume with
  | nil =>
      rw [scanFrom]
      split
      · exact .nil
      · cases p.matchAt? ⟨front.getLast?, [], front.length, []⟩ with
        | none => exact .nil
        | some m => exact List.pairwise_singleton _ m
  | cons c rest ih =>
      have hstep : ∀ resume', (scanFrom p (some c) rest (front.length + 1) resume').Pairwise
          (·.stop ≤ ·.start) := by
        intro resume'
        have hmore := ih (front ++ [c]) resume'
        rwa [List.getLast?_concat, List.length_append, List.length_singleton] at hmore
      -- a match that has begun is passed over, and what follows it begins where it has ended
      by_cases hlt : front.length < resume
      · rw [scanFrom_of_lt hlt]
        exact hstep resume
      · cases hmatch : p.matchAt? ⟨front.getLast?, c :: rest, front.length, []⟩ with
        | none =>
            rw [scanFrom_of_no_match hlt hmatch]
            exact hstep _
        | some m =>
            rw [scanFrom_of_match hp hlt hmatch]
            refine List.pairwise_cons.mpr ⟨fun m' hmem => ?_, hstep m.stop⟩
            rw [← List.getLast?_concat (l := front), ← List.length_singleton (a := c),
              ← List.length_append] at hmem
            obtain ⟨f, r, -, hresume, -, hmatch'⟩ := exists_of_mem_scanFrom hp hmem
            exact (start_of_matchAt? hmatch').symm ▸ hresume

theorem mem_scan (hp : p.Consumes) (h : m ∈ p.scan s) : p.MatchIn s m := by
  have hmem : m ∈ scanFrom p ([] : List Char).getLast? s.toList 0 0 := h
  obtain ⟨f, r, heq, -, -, hmatch⟩ := exists_of_mem_scanFrom hp hmem
  exact ⟨f, r, heq, hmatch⟩

theorem exists_mem_scan (hp : p.Consumes) (h : p.MatchIn s m) :
    ∃ m' ∈ p.scan s, m'.start ≤ m.start ∧ m.start < m'.stop := by
  obtain ⟨f, r, heq, hmatch⟩ := h
  have hall : [] ++ s.toList = f ++ r := heq
  rw [start_of_matchAt? hmatch]
  exact exists_mem_scanFrom hp hall (Nat.zero_le _) (Nat.zero_le _) hmatch

theorem pairwise_scan (hp : p.Consumes) (s : String) : (p.scan s).Pairwise (·.stop ≤ ·.start) :=
  pairwise_scanFrom hp [] s.toList 0

/-- Of two matches that are found, the one that begins first ends before the other begins. -/
theorem stop_le_of_mem_scan (hp : p.Consumes) (hm : m ∈ p.scan s) (hm' : m' ∈ p.scan s)
    (hlt : m.start < m'.start) : m.stop ≤ m'.start := by
  obtain ⟨before, after, hscan⟩ := List.append_of_mem hm'
  have hordered := pairwise_scan hp s
  rw [hscan] at hm hordered
  obtain ⟨-, hafter, hbefore⟩ := List.pairwise_append.mp hordered
  rcases List.mem_append.mp hm with hm | hm
  · exact hbefore m hm m' List.mem_cons_self
  · rcases List.mem_cons.mp hm with rfl | hm
    · exact absurd hlt (Nat.lt_irrefl _)
    · have hle := (List.pairwise_cons.mp hafter).1 m hm
      obtain ⟨f, r, -, hmatch⟩ := mem_scan hp hm'
      have hstart := start_of_matchAt? hmatch
      have hstop := hp _ _ hmatch
      omega

/-- The matches that are found begin one after the other. -/
theorem pairwise_start_scan (hp : p.Consumes) (s : String) :
    (p.scan s).Pairwise (·.start < ·.start) := by
  refine (pairwise_scan hp s).imp_of_mem ?_
  intro m m' hm _ hle
  obtain ⟨f, r, -, hmatch⟩ := mem_scan hp hm
  exact Nat.lt_of_lt_of_le ((start_of_matchAt? hmatch) ▸ hp _ _ hmatch) hle

theorem searchFrom?_eq (p : Pattern) (before : Option Char) (rest : List Char)
    {offset : Nat} (h : ¬ offset < resume) :
    searchFrom? p before rest offset = (scanFrom p before rest offset resume).head? := by
  induction rest generalizing before offset resume with
  | nil =>
      rw [searchFrom?, scanFrom, if_neg h]
      cases p.matchAt? ⟨before, [], offset, []⟩ with
      | none => rfl
      | some m => rfl
  | cons c rest ih =>
      rw [searchFrom?, scanFrom, if_neg h]
      dsimp only
      cases p.matchAt? ⟨before, c :: rest, offset, []⟩ with
      | none => exact ih _ (Nat.lt_irrefl _)
      | some m =>
          dsimp only
          split
          · split <;> rfl
          · rfl

/-- The first match in a text is the first one that a scan finds. -/
theorem search?_eq (p : Pattern) (s : String) : p.search? s = (p.scan s).head? :=
  searchFrom?_eq p none s.toList (Nat.lt_irrefl 0)

/-! ## Signs that come once -/

/-- Whether the texts of a pattern begin with a sign that does not come again in them. -/
structure LedBy (p : Pattern) (sign : Char) : Prop where
  plain : p.plain = true
  once : ∀ {cs parts}, p.Takes cs parts → ∃ tail, cs = sign :: tail ∧ sign ∉ tail

theorem LedBy.consumes (h : p.LedBy sign) : p.Consumes := by
  refine consumes_of_takes h.plain fun htakes => ?_
  obtain ⟨tail, rfl, -⟩ := h.once htakes
  exact List.cons_ne_nil _ _

/-- All matches are found. -/
theorem LedBy.mem_scan_iff (h : p.LedBy sign) : m ∈ p.scan s ↔ p.MatchIn s m := by
  refine ⟨mem_scan h.consumes, fun hmatch => ?_⟩
  obtain ⟨m', hmem, hstart, hstop⟩ := exists_mem_scan h.consumes hmatch
  obtain ⟨f, r, hs, hat⟩ := hmatch
  obtain ⟨f', r', hs', hat'⟩ := mem_scan h.consumes hmem
  rw [start_of_matchAt? hat, start_of_matchAt? hat'] at hstart
  rw [start_of_matchAt? hat] at hstop
  obtain ⟨cs, rest, parts, htakes, hr, hm⟩ := exists_of_matchAt? h.plain hat
  obtain ⟨cs', rest', parts', htakes', hr', hm'⟩ := exists_of_matchAt? h.plain hat'
  obtain ⟨tail, rfl, -⟩ := h.once htakes
  obtain ⟨tail', rfl, honce⟩ := h.once htakes'
  obtain ⟨d, rfl, hd⟩ := exists_of_append_eq (hs.symm.trans hs') hstart
  cases d with
  | nil =>
      obtain rfl : r' = r := hd
      rw [List.append_nil] at hat
      rwa [Option.some.inj (hat.symm.trans hat')]
  | cons c d =>
      -- the place would be inside the match that is found, and the sign would come again there
      have hlt : (c :: d).length < (sign :: tail').length := by
        rw [hm'] at hstop
        have hinside : (f' ++ c :: d).length < f'.length + (sign :: tail').length := hstop
        rw [List.length_append] at hinside
        omega
      have hlonger : (sign :: tail') ++ rest' = (c :: d) ++ r := hr'.symm.trans hd
      obtain ⟨c', e, he, hre⟩ := exists_cons_of_append_eq hlonger hlt
      have hhead : sign :: tail ++ rest = c' :: e ++ rest' := hr.symm.trans hre
      refine absurd ?_ honce
      rw [(List.cons.inj he).2, (List.cons.inj hhead).1]
      exact List.mem_append_right _ List.mem_cons_self

end Pattern

namespace Text

/-! ## Words -/

/-- A text without blanks that is not empty. -/
structure Solid (w : List Char) : Prop where
  ne_nil : w ≠ []
  solid : ∀ c ∈ w, isBlank c = false

theorem Solid.of_all {w : List Char}
    (h : (w != [] && w.all (!isBlank ·)) = true) : Solid w := by
  obtain ⟨hne, hall⟩ := (Bool.and_eq_true _ _).mp h
  exact ⟨bne_iff_ne.mp hne, fun c hc => by simpa using List.all_eq_true.mp hall c hc⟩

theorem Solid.head? {w : List Char} (h : Solid w) (rest : List Char) :
    (w ++ rest).head?.any isBlank = false := by
  obtain ⟨c, cs, rfl⟩ := List.exists_cons_of_ne_nil h.ne_nil
  exact h.solid c List.mem_cons_self

/-! ## Lines -/

variable {content : String} {lead rest : List Char} {above : List String}

/-- Lines with a line feed after each. -/
def unlines (above : List String) : List Char := above.flatMap (·.toList ++ ['\n'])

/-- Whether a place of a text lies on a line, which is given with its number, in a column. -/
def LiesOn (content : String) (place : Nat) (line : String) (n column : Nat) : Prop :=
  ∃ above below, lines content = above ++ line :: below ∧ n = above.length + 1 ∧
    column ≤ line.toList.length ∧ place = (unlines above).length + column

theorem unlines_cons (l : String) (above : List String) :
    unlines (l :: above) = l.toList ++ '\n' :: unlines above := by
  rw [unlines, List.flatMap_cons, List.append_assoc]
  rfl

theorem unlines_append (above below : List String) :
    unlines (above ++ below) = unlines above ++ unlines below :=
  List.flatMap_append

theorem getLast?_unlines (above : List String) (l : String) :
    (unlines (above ++ [l])).getLast? = some '\n' := by
  rw [unlines_append, unlines_cons, ← List.append_assoc]
  exact List.getLast?_concat

/-- The end of lines that are over is the end of a line. -/
theorem lineFeed_mem_of_unlines {x y : List Char} (h : unlines above = x ++ y) (hne : y ≠ []) :
    '\n' ∈ y := by
  rcases List.eq_nil_or_concat above with rfl | ⟨above, l, rfl⟩
  · exact absurd (List.append_eq_nil_iff.mp h.symm).2 hne
  · have hlast := getLast?_unlines above l
    rw [← List.concat_eq_append, h, List.getLast?_append_of_ne_nil x hne] at hlast
    exact List.mem_of_getLast? hlast

/-- Every text is made of lines that are over and the beginning of one. -/
theorem exists_unlines (front : List Char) :
    ∃ above lead, (∀ l ∈ above, '\n' ∉ l.toList) ∧ '\n' ∉ lead ∧
      front = unlines above ++ lead := by
  induction front with
  | nil => exact ⟨[], [], by simp, by simp, rfl⟩
  | cons c front ih =>
      obtain ⟨above, lead, habove, hlead, rfl⟩ := ih
      by_cases hc : c = '\n'
      · refine ⟨"" :: above, lead, ?_, hlead, by rw [hc, unlines_cons]; rfl⟩
        exact List.forall_mem_cons.mpr ⟨by simp, habove⟩
      · cases above with
        | nil => exact ⟨[], c :: lead, by simp, by simp [hlead, Ne.symm hc], rfl⟩
        | cons l above =>
            obtain ⟨hl, hmore⟩ := List.forall_mem_cons.mp habove
            refine ⟨String.ofList (c :: l.toList) :: above, lead, ?_, hlead, ?_⟩
            · refine List.forall_mem_cons.mpr ⟨?_, hmore⟩
              rw [String.toList_ofList]
              simp [hl, Ne.symm hc]
            · rw [unlines_cons, unlines_cons, String.toList_ofList]
              rfl

theorem splitChar_unlines (h : ∀ l ∈ above, '\n' ∉ l.toList) (rest : List Char) :
    splitChar '\n' (unlines above ++ rest) = above.map String.toList ++ splitChar '\n' rest := by
  induction above with
  | nil => rfl
  | cons l above ih =>
      obtain ⟨hl, habove⟩ := List.forall_mem_cons.mp h
      rw [unlines_cons, List.append_assoc, List.cons_append, splitChar_append hl, ih habove]
      rfl

theorem exists_line_end (rest : List Char) :
    ∃ tail back, rest = tail ++ back ∧ '\n' ∉ tail ∧ (back = [] ∨ ∃ more, back = '\n' :: more) := by
  induction rest with
  | nil => exact ⟨[], [], rfl, List.not_mem_nil, .inl rfl⟩
  | cons c rest ih =>
      by_cases hc : c = '\n'
      · exact ⟨[], c :: rest, rfl, List.not_mem_nil, .inr ⟨rest, by rw [hc]⟩⟩
      · obtain ⟨tail, back, rfl, htail, hback⟩ := ih
        exact ⟨c :: tail, back, rfl, by simp [htail, Ne.symm hc], hback⟩

/-- The lines that are over are lines of the text, and the next one goes on with what comes after
them. -/
theorem lines_of_unlines (h : ∀ l ∈ above, '\n' ∉ l.toList) (hlead : '\n' ∉ lead)
    (hcontent : content.toList = unlines above ++ (lead ++ rest)) :
    ∃ tail back below, lines content = above ++ String.ofList (lead ++ tail) :: below ∧
      rest = tail ++ back := by
  obtain ⟨tail, back, rfl, htail, hback⟩ := exists_line_end rest
  have hline : '\n' ∉ lead ++ tail := by simp [hlead, htail]
  have hlines : ∃ pieces, splitChar '\n' (lead ++ (tail ++ back)) = (lead ++ tail) :: pieces := by
    rw [← List.append_assoc]
    rcases hback with rfl | ⟨more, rfl⟩
    · exact ⟨[], by rw [List.append_nil, splitChar_of_not_mem hline]⟩
    · exact ⟨_, splitChar_append hline more⟩
  obtain ⟨pieces, hpieces⟩ := hlines
  refine ⟨tail, back, pieces.map String.ofList, ?_, rfl⟩
  rw [lines, splitAt, hcontent, splitChar_unlines h, hpieces, List.map_append, List.map_map,
    List.map_cons]
  congr 1
  exact List.map_id'' (fun l => String.ofList_toList) above

theorem unlines_lines (content : String) : unlines (lines content) = content.toList ++ ['\n'] := by
  obtain ⟨above, lead, habove, hlead, hcontent⟩ := exists_unlines content.toList
  rw [lines, splitAt, hcontent, splitChar_unlines habove, splitChar_of_not_mem hlead,
    List.map_append, List.map_map, unlines_append, List.append_assoc]
  congr 1
  · exact congrArg unlines (List.map_id'' (fun l => String.ofList_toList) above)
  · rw [List.map_singleton, unlines_cons, String.toList_ofList]
    rfl

/-- Behind a line comes the end of the text or a line feed. -/
theorem toList_of_lines {line : String} {below : List String}
    (h : lines content = above ++ line :: below) :
    ∃ back, content.toList = unlines above ++ (line.toList ++ back) ∧
      (back = [] ∨ ∃ more, back = '\n' :: more) := by
  have hall := unlines_lines content
  rw [h, unlines_append, unlines_cons] at hall
  rcases List.eq_nil_or_concat below with rfl | ⟨below, l, rfl⟩
  · refine ⟨[], ?_, .inl rfl⟩
    rw [List.append_nil]
    refine (List.append_cancel_right (hall.symm.trans ?_) : _ = _)
    rw [List.append_assoc]
    rfl
  · refine ⟨'\n' :: (unlines below ++ l.toList), ?_, .inr ⟨_, rfl⟩⟩
    refine (List.append_cancel_right (hall.symm.trans ?_) : _ = _)
    rw [List.concat_eq_append, unlines_append, unlines_cons]
    simp [unlines]

theorem filter_unlines (h : ∀ l ∈ above, '\n' ∉ l.toList) :
    ((unlines above).filter (· == '\n')).length = above.length := by
  induction above with
  | nil => rfl
  | cons l above ih =>
      obtain ⟨hl, habove⟩ := List.forall_mem_cons.mp h
      have hnone : l.toList.filter (· == '\n') = [] :=
        List.filter_eq_nil_iff.mpr fun c hc heq => hl (beq_iff_eq.mp heq ▸ hc)
      rw [unlines_cons, List.filter_append, hnone, List.nil_append,
        List.filter_cons_of_pos (by exact beq_self_eq_true '\n'), List.length_cons, ih habove,
        List.length_cons]

/-- The line of a place comes after the lines that are over. -/
theorem lineAt_unlines (h : ∀ l ∈ above, '\n' ∉ l.toList) (hlead : '\n' ∉ lead)
    (hcontent : content.toList = unlines above ++ (lead ++ rest)) :
    Shell.lineAt content (unlines above ++ lead).length = above.length + 1 := by
  have hnone : lead.filter (· == '\n') = [] :=
    List.filter_eq_nil_iff.mpr fun c hc heq => hlead (beq_iff_eq.mp heq ▸ hc)
  rw [Shell.lineAt, hcontent, ← List.append_assoc, List.take_left, List.filter_append, hnone,
    List.append_nil, filter_unlines h]

/-- The line that is counted for a place is the one on which it lies. -/
theorem liesOn_lineAt {front : List Char} (hcontent : content.toList = front ++ rest) :
    ∃ line column, LiesOn content front.length line (Shell.lineAt content front.length) column := by
  obtain ⟨above, lead, habove, hlead, rfl⟩ := exists_unlines front
  rw [List.append_assoc] at hcontent
  obtain ⟨tail, back, below, hlines, -⟩ := lines_of_unlines habove hlead hcontent
  refine ⟨_, lead.length, above, below, hlines, lineAt_unlines habove hlead hcontent, ?_,
    List.length_append⟩
  rw [String.toList_ofList, List.length_append]
  exact Nat.le_add_right _ _

end Text

end SymbolAtlas
