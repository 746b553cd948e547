/-
  SymbolAtlas.Proofs.CleanTexts: the form in which texts are embedded.

  A clean text is tidy: its only blanks are single spaces between other characters. There is one
  tidy text with given words (`joinWords_wordLists`, `wordLists_joinWords`), and a clean text is
  this one or, if it is too long, its beginning with points. The points follow a space if the text
  is cut there, so that the cut text is tidy again, and cutting it once more changes nothing. Texts
  of this form are exactly those that cleaning leaves as they are (`clean_eq_self_iff`).
-/

import SymbolAtlas.Proofs.DefinitionNames
import SymbolAtlas.Proofs.Vectors

namespace SymbolAtlas

namespace Text

/-- Whether all blanks of a text are single spaces between characters that are no blanks. -/
def Tidy (cs : List Char) : Prop :=
  ∀ before c after, cs = before ++ c :: after → isBlank c = true →
    c = ' ' ∧ before.getLast?.any (!isBlank ·) = true ∧ after.head?.any (!isBlank ·) = true

/-- Whether words are not empty and have no blanks. -/
def AreWords (ws : List (List Char)) : Prop :=
  ∀ w ∈ ws, w ≠ [] ∧ ∀ c ∈ w, isBlank c = false

variable {w cs rest : List Char} {ws : List (List Char)}

/-! ## Words -/

theorem splitWords_append (hw : ∀ c ∈ w, isBlank c = false) (rest : List Char) :
    splitWords (w ++ rest) = (w ++ (splitWords rest).1, (splitWords rest).2) := by
  induction w with
  | nil => rfl
  | cons c w ih =>
      obtain ⟨hc, hw⟩ := List.forall_mem_cons.mp hw
      simp [splitWords, ih hw, hc]

theorem wordLists_append (hne : w ≠ []) (hw : ∀ c ∈ w, isBlank c = false)
    (hrest : rest.head?.all isBlank = true) : wordLists (w ++ rest) = w :: wordLists rest := by
  have hfirst : (splitWords rest).1 = [] :=
    splitWords_fst_append (fun _ hc => absurd hc List.not_mem_nil) hrest
  simp [wordLists, splitWords_append hw, hfirst, hne]

theorem areWords_ite (hw : ∀ c ∈ w, isBlank c = false) (hws : AreWords ws) :
    AreWords (if w.isEmpty then ws else w :: ws) := by
  split
  next => exact hws
  next hne => exact List.forall_mem_cons.mpr ⟨⟨fun h => hne (h ▸ rfl), hw⟩, hws⟩

/-- The word that touches the start has no blanks, and the later words are words. -/
theorem areWords_splitWords (cs : List Char) :
    (∀ c ∈ (splitWords cs).1, isBlank c = false) ∧ AreWords (splitWords cs).2 := by
  induction cs with
  | nil => simp [splitWords, AreWords]
  | cons c cs ih =>
      obtain ⟨hfirst, hmore⟩ := ih
      cases hc : isBlank c with
      | true =>
          have hsplit : splitWords (c :: cs) = ([], wordLists cs) := by
            simp [splitWords, wordLists, hc]
          rw [hsplit]
          exact ⟨fun _ hd => absurd hd List.not_mem_nil, areWords_ite hfirst hmore⟩
      | false =>
          have hsplit : splitWords (c :: cs) = (c :: (splitWords cs).1, (splitWords cs).2) := by
            simp [splitWords, hc]
          rw [hsplit]
          exact ⟨List.forall_mem_cons.mpr ⟨hc, hfirst⟩, hmore⟩

/-- The words of a text are words. -/
theorem areWords_wordLists (cs : List Char) : AreWords (wordLists cs) :=
  areWords_ite (areWords_splitWords cs).1 (areWords_splitWords cs).2

/-! ## Tidy texts -/

theorem tidy_of_not_isBlank (hw : ∀ c ∈ w, isBlank c = false) : Tidy w := by
  intro before c after heq hc
  have hink := hw c (heq ▸ List.mem_append_right before List.mem_cons_self)
  exact absurd (hc.symm.trans hink) (by decide)

theorem getLast?_any_append {p : Char → Bool} (h : rest.getLast?.any p = true) (cs : List Char) :
    (cs ++ rest).getLast?.any p = true := by
  rw [List.getLast?_append]
  cases hlast : rest.getLast? with
  | none => simp [hlast] at h
  | some d => rwa [hlast] at h

/-- A word, a space and a tidy text that does not begin with a blank are a tidy text. -/
theorem Tidy.word_append (hne : w ≠ []) (hw : ∀ c ∈ w, isBlank c = false) (h : Tidy cs)
    (hhead : cs.head?.any (!isBlank ·) = true) : Tidy (w ++ ' ' :: cs) := by
  have hlast : w.getLast?.any (!isBlank ·) = true := by
    simp [List.getLast?_eq_some_getLast hne, hw _ (List.getLast_mem hne)]
  intro before c after heq hc
  -- the blank is in the word, or it is the space, or it is in the text
  rcases List.append_eq_append_iff.mp heq with ⟨front, rfl, hspace⟩ | ⟨rear, rfl, hrear⟩
  · cases front with
    | nil =>
        obtain ⟨rfl, rfl⟩ := List.cons.inj hspace
        rw [List.append_nil]
        exact ⟨rfl, hlast, hhead⟩
    | cons d front =>
        obtain ⟨rfl, hcs⟩ := List.cons.inj hspace
        obtain ⟨hsingle, hbefore, hafter⟩ := h front c after hcs hc
        refine ⟨hsingle, ?_, hafter⟩
        rw [List.append_cons]
        exact getLast?_any_append hbefore _
  · cases rear with
    | nil =>
        obtain ⟨rfl, rfl⟩ := List.cons.inj hrear
        rw [List.append_nil] at hlast
        exact ⟨rfl, hlast, hhead⟩
    | cons d rear =>
        obtain ⟨rfl, -⟩ := List.cons.inj hrear
        exact absurd (hc.symm.trans (hw c (by simp))) (by decide)

/-- A tidy text has no blanks at its ends. -/
theorem Tidy.not_isBlank_ends (h : Tidy cs) :
    cs.head?.any isBlank = false ∧ cs.getLast?.any isBlank = false := by
  constructor
  · cases cs with
    | nil => rfl
    | cons c cs =>
        refine Bool.eq_false_iff.mpr fun hc => ?_
        exact absurd (h [] c cs rfl hc).2.1 (by simp)
  · cases hlast : cs.getLast? with
    | none => rfl
    | some c =>
        obtain ⟨front, rfl⟩ := List.getLast?_eq_some_iff.mp hlast
        refine Bool.eq_false_iff.mpr fun hc => ?_
        exact absurd (h front c [] rfl hc).2.2 (by simp)

/-- A tidy text begins with a word. -/
theorem Tidy.exists_word (h : Tidy cs) (hne : cs ≠ []) :
    ∃ w rest, cs = w ++ rest ∧ w ≠ [] ∧ (∀ c ∈ w, isBlank c = false) ∧
      rest.head?.all isBlank = true := by
  obtain ⟨rest, hcs, hrest⟩ := exists_append_splitWords cs
  refine ⟨_, rest, hcs, ?_, (areWords_splitWords cs).1, hrest⟩
  obtain ⟨c, cs, rfl⟩ := List.exists_cons_of_ne_nil hne
  cases hc : isBlank c with
  | true => exact absurd (h [] c cs rfl hc).2.1 (by simp)
  | false => simp [splitWords, hc]

/-- What comes after a space in a tidy text is tidy. -/
theorem Tidy.of_word_append {b : Char} (h : Tidy (w ++ b :: cs)) (hb : isBlank b = true) :
    Tidy cs := by
  obtain ⟨-, -, hhead⟩ := h w b cs rfl hb
  intro before c after heq hc
  have hsplit : w ++ b :: cs = (w ++ b :: before) ++ c :: after := by simp [heq]
  obtain ⟨hsingle, hbefore, hafter⟩ := h _ c after hsplit hc
  refine ⟨hsingle, ?_, hafter⟩
  -- the text does not begin with a blank, so something comes before this one
  cases hlast : before.getLast? with
  | none =>
      obtain rfl := List.getLast?_eq_none_iff.mp hlast
      rw [heq] at hhead
      simp [hc] at hhead
  | some d =>
      rw [List.append_cons, List.getLast?_append, hlast] at hbefore
      exact hbefore

/-- A tidy text with something after it that has no blanks is tidy, wherever it is cut. -/
theorem Tidy.take_append (h : Tidy cs) (n : Nat) (hne : w ≠ [])
    (hw : ∀ c ∈ w, isBlank c = false) : Tidy (cs.take n ++ w) := by
  intro before c after heq hc
  rcases List.append_eq_append_iff.mp heq with ⟨front, rfl, hrear⟩ | ⟨rear, htake, hrear⟩
  · -- the blank would be in what comes after
    exact absurd (hc.symm.trans (hw c (by simp [hrear]))) (by decide)
  · cases rear with
    | nil =>
        rw [List.nil_append] at hrear
        exact absurd (hc.symm.trans (hw c (by simp [← hrear]))) (by decide)
    | cons d rear =>
        obtain ⟨rfl, rfl⟩ := List.cons.inj hrear
        have hsplit : cs = before ++ c :: (rear ++ cs.drop n) := by
          rw [← List.cons_append, ← List.append_assoc, ← htake, List.take_append_drop]
        obtain ⟨hsingle, hbefore, hafter⟩ := h before c _ hsplit hc
        refine ⟨hsingle, hbefore, ?_⟩
        cases rear with
        | nil =>
            obtain ⟨e, w, rfl⟩ := List.exists_cons_of_ne_nil hne
            simp [hw e List.mem_cons_self]
        | cons e rear => exact hafter

end Text

/-! ## Words with spaces between them -/

namespace Embedding

open Text

variable {w cs ds : List Char} {ws : List (List Char)}

theorem joinWords_cons (hne : ws ≠ []) : joinWords (w :: ws) = w ++ ' ' :: joinWords ws := by
  cases ws with
  | nil => exact absurd rfl hne
  | cons v ws => rfl

/-- Words with single spaces between them are the words of the text. -/
theorem wordLists_joinWords (h : AreWords ws) : wordLists (joinWords ws) = ws := by
  induction ws with
  | nil => rfl
  | cons w ws ih =>
      obtain ⟨⟨hne, hw⟩, hmore⟩ := List.forall_mem_cons.mp h
      cases ws with
      | nil =>
          have hone : wordLists (w ++ []) = [w] := wordLists_append hne hw rfl
          rwa [List.append_nil] at hone
      | cons v ws =>
          rw [joinWords_cons (List.cons_ne_nil v ws), wordLists_append hne hw rfl,
            wordLists_cons_of_isBlank rfl, ih hmore]

theorem head?_joinWords (h : AreWords ws) (hne : ws ≠ []) :
    (joinWords ws).head?.any (!isBlank ·) = true := by
  obtain ⟨w, ws, rfl⟩ := List.exists_cons_of_ne_nil hne
  obtain ⟨⟨hword, hw⟩, -⟩ := List.forall_mem_cons.mp h
  obtain ⟨c, w, rfl⟩ := List.exists_cons_of_ne_nil hword
  have hc := hw c List.mem_cons_self
  cases ws with
  | nil => simp [joinWords, hc]
  | cons v ws => simp [joinWords, hc]

/-- Words with single spaces between them are a tidy text. -/
theorem tidy_joinWords (h : AreWords ws) : Tidy (joinWords ws) := by
  induction ws with
  | nil => exact tidy_of_not_isBlank fun _ hc => absurd hc List.not_mem_nil
  | cons w ws ih =>
      obtain ⟨⟨hne, hw⟩, hmore⟩ := List.forall_mem_cons.mp h
      cases ws with
      | nil => exact tidy_of_not_isBlank hw
      | cons v ws =>
          rw [joinWords_cons (List.cons_ne_nil v ws)]
          exact (ih hmore).word_append hne hw (head?_joinWords hmore (List.cons_ne_nil v ws))

/-- A tidy text is its words with single spaces between them. -/
theorem joinWords_wordLists (h : Tidy cs) : joinWords (wordLists cs) = cs := by
  induction hwords : wordLists cs generalizing cs with
  | nil =>
      cases cs with
      | nil => rfl
      | cons c cs =>
          obtain ⟨w, rest, hcs, hne, hw, hrest⟩ := h.exists_word (List.cons_ne_nil c cs)
          rw [hcs, wordLists_append hne hw hrest] at hwords
          exact absurd hwords (List.cons_ne_nil _ _)
  | cons w ws ih =>
      have hne : cs ≠ [] := by
        rintro rfl
        exact absurd hwords.symm (List.cons_ne_nil _ _)
      obtain ⟨v, rest, rfl, hne, hv, hrest⟩ := h.exists_word hne
      rw [wordLists_append hne hv hrest] at hwords
      obtain ⟨rfl, hmore⟩ := List.cons.inj hwords
      cases rest with
      | nil =>
          obtain rfl : [] = ws := hmore
          rw [List.append_nil, joinWords]
      | cons b rest =>
          -- a single space and the words after it
          have hb : isBlank b = true := hrest
          obtain ⟨rfl, -, hhead⟩ := h v b rest rfl hb
          rw [wordLists_cons_of_isBlank hb] at hmore
          have hjoin := ih (h.of_word_append hb) hmore
          have hws : ws ≠ [] := by
            rintro rfl
            rw [← hjoin] at hhead
            exact absurd hhead (by simp [joinWords])
          rw [joinWords_cons hws, hjoin]

/-! ## Cutting -/

/-- Whether a text is short enough to be kept whole, or is one that was cut. -/
def Settled (cs : List Char) : Prop :=
  cs.length ≤ maxLength ∨ ∃ front, front.length = maxLength ∧ cs = front ++ ['.', '.', '.']

theorem settled_cut (cs : List Char) : Settled (cut cs) := by
  rw [cut]
  split
  next hlong =>
    exact .inr ⟨cs.take maxLength, List.length_take_of_le (Nat.le_of_lt hlong), rfl⟩
  next hshort => exact .inl (Nat.le_of_not_lt hshort)

theorem cut_append (hcs : cs.length = maxLength) (hne : ds ≠ []) :
    cut (cs ++ ds) = cs ++ ['.', '.', '.'] := by
  have hlong : (cs ++ ds).length > maxLength := by
    rw [List.length_append, hcs]
    exact Nat.lt_add_of_pos_right (List.length_pos_iff.mpr hne)
  rw [cut, if_pos hlong, ← hcs, List.take_left]

/-- Cutting keeps what is settled. -/
theorem cut_eq_self (h : Settled cs) : cut cs = cs := by
  rcases h with hshort | ⟨front, hfront, rfl⟩
  · exact if_neg (Nat.not_lt.mpr hshort)
  · exact cut_append hfront (List.cons_ne_nil _ _)

theorem Settled.length_le (h : Settled cs) : cs.length ≤ maxLength + 3 := by
  rcases h with hshort | ⟨front, hfront, rfl⟩
  · exact Nat.le_add_right_of_le hshort
  · simp [hfront]

theorem tidy_cut (h : Tidy cs) : Tidy (cut cs) := by
  rw [cut]
  split
  next =>
    have hpoints : ['.', '.', '.'].all (!isBlank ·) = true := by decide
    refine h.take_append maxLength (List.cons_ne_nil _ _) fun c hc => ?_
    simpa using List.all_eq_true.mp hpoints c hc
  next => exact h

/-! ## Cleaning -/

variable {t : String}

theorem toList_clean (t : String) :
    (clean t).toList = cut (joinWords (wordLists t.toList)) := String.toList_ofList

theorem tidy_clean (t : String) : Tidy (clean t).toList := by
  rw [toList_clean]
  exact tidy_cut (tidy_joinWords (areWords_wordLists t.toList))

theorem settled_clean (t : String) : Settled (clean t).toList := by
  rw [toList_clean]
  exact settled_cut _

/-- Cleaning keeps exactly the texts that are tidy and settled. -/
theorem clean_eq_self_iff : clean t = t ↔ Tidy t.toList ∧ Settled t.toList := by
  constructor
  · intro h
    rw [← h]
    exact ⟨tidy_clean t, settled_clean t⟩
  · rintro ⟨htidy, hsettled⟩
    rw [clean, joinWords_wordLists htidy, cut_eq_self hsettled, String.ofList_toList]

/-! ## Texts that a model is given -/

variable {m : Model}

theorem untilFailure_eq_self (hm : m.Total) (texts : List String) :
    untilFailure m texts = texts := by
  induction texts with
  | nil => rfl
  | cons text rest ih => rw [untilFailure, hm text, if_pos rfl, ih]

theorem chunkSeen_eq (m : Model) (texts : List String) :
    chunkSeen m (texts.map some) = untilFailure m (texts.map clean) := by
  have hall : (texts.map some).mapM (fun item => item.map clean) = some (texts.map clean) := by
    induction texts with
    | nil => rfl
    | cons text rest ih =>
        rw [List.map_cons, List.mapM_cons, ih]
        rfl
  rw [chunkSeen, hall]

/-- A model that never fails is given the clean texts of a batch, in their order. -/
theorem batchSeen_eq_map (hm : m.Total) (texts : List String) :
    batchSeen m texts = texts.map clean := by
  have hchunk : ∀ ts : List String, chunkSeen m (ts.map some) = ts.map clean := by
    intro ts
    rw [chunkSeen_eq, untilFailure_eq_self hm]
  rw [batchSeen, batchItemsSeen]
  split
  next =>
    rw [← map_chunksOf, List.flatMap_map, funext hchunk, List.flatMap_def, ← List.map_flatten,
      flatten_chunksOf]
  next => exact hchunk texts

/-- A clean text is the tidy text with the same words, or its first thousand characters and three
points if it is longer. So it has no blanks but single spaces between other characters, and cleaning
it again changes nothing: the texts that cleaning keeps are those that are tidy and settled. What
the model is given for a symbol is the same clean text, in a batch and alone. -/
theorem clean_normal_form :
    (∀ t : String,
      (∃ spaced, Tidy spaced ∧ wordLists spaced = wordLists t.toList ∧ (clean t).toList =
        if spaced.length ≤ 1000 then spaced else spaced.take 1000 ++ ['.', '.', '.']) ∧
      clean (clean t) = clean t ∧ (clean t).toList.length ≤ 1003 ∧
      (clean t).toList.head?.any isBlank = false ∧
      (clean t).toList.getLast?.any isBlank = false ∧ Tidy (clean t).toList ∧
      (clean t = t ↔ Tidy t.toList ∧ Settled t.toList)) ∧
    (∀ (m : Model) (s : Symbol), Indexer.textsSeen (some m) [s] = [clean (Indexer.textOf s)] ∧
      ofSymbol m s.kind s.name s.snippet = single m (clean (Indexer.textOf s))) ∧
    ∀ (m : Model) (symbols : List Symbol), m.Total →
      Indexer.textsSeen (some m) symbols = symbols.map (fun s => clean (Indexer.textOf s)) ∧
      Indexer.vectors (some m) symbols =
        symbols.map fun s => some (ofSymbol m s.kind s.name s.snippet) := by
  refine ⟨fun t => ?_, fun m s => ⟨?_, rfl⟩, fun m symbols hm => ⟨?_, ?_⟩⟩
  · -- the tidy text is that of the words with single spaces between them
    have hwords := areWords_wordLists t.toList
    obtain ⟨hhead, hlast⟩ := (tidy_clean t).not_isBlank_ends
    refine ⟨⟨joinWords (wordLists t.toList), tidy_joinWords hwords, wordLists_joinWords hwords, ?_⟩,
      clean_eq_self_iff.mpr ⟨tidy_clean t, settled_clean t⟩, (settled_clean t).length_le, hhead,
      hlast, tidy_clean t, clean_eq_self_iff⟩
    rw [toList_clean, cut]
    split
    next hlong => exact (if_neg (Nat.not_le.mpr hlong)).symm
    next hshort => exact (if_pos (Nat.le_of_not_lt hshort)).symm
  · -- the model sees the one text even if it fails on it
    have hone : Indexer.textsSeen (some m) [s] = untilFailure m [clean (Indexer.textOf s)] :=
      chunkSeen_eq m [Indexer.textOf s]
    rw [hone, untilFailure]
    split
    next => rfl
    next => rfl
  · rw [Indexer.textsSeen, batchSeen_eq_map hm, List.map_map]
    rfl
  · rw [Indexer.vectors, batch_eq_map hm, List.map_map, List.map_map]
    rfl

/-- A symbol whose text is cut at a space. -/
theorem clean_normal_form_cut_at_space :
    let s := { Indexer.functionOn "a.py" 1 with
      snippet := String.ofList (List.replicate 988 'a' ++ [' ', 'b']) }
    Indexer.echo.Total ∧
      (Indexer.textsSeen (some Indexer.echo) [s]).map (·.toList) =
        ["function f ".toList ++ List.replicate 988 'a' ++ [' '] ++ ['.', '.', '.']] := by
  -- the length of the long word matters, and its characters only in that they are no blanks
  have hclean : ∀ word : List Char, word.length = 988 → (∀ c ∈ word, isBlank c = false) →
      (clean (Indexer.textOf { Indexer.functionOn "a.py" 1 with
        snippet := String.ofList (word ++ [' ', 'b']) })).toList =
          "function f ".toList ++ word ++ [' '] ++ ['.', '.', '.'] := by
    intro word hlength hword
    have hne : word ≠ [] := List.length_pos_iff.mp (by omega)
    have hwords : AreWords ["function".toList, "f".toList, word, ['b']] := by
      have hshort : ∀ {w : List Char}, (!w.isEmpty && w.all (!isBlank ·)) = true →
          w ≠ [] ∧ ∀ c ∈ w, isBlank c = false := by
        intro w hw
        simpa using hw
      exact List.forall_mem_cons.mpr ⟨hshort (by decide), List.forall_mem_cons.mpr
        ⟨hshort (by decide), List.forall_mem_cons.mpr ⟨⟨hne, hword⟩,
          List.forall_mem_singleton.mpr (hshort (by decide))⟩⟩⟩
    have htext : (Indexer.textOf { Indexer.functionOn "a.py" 1 with
        snippet := String.ofList (word ++ [' ', 'b']) }).toList =
          joinWords ["function".toList, "f".toList, word, ['b']] := by
      simp [Indexer.textOf, symbolText, Indexer.functionOn, joinWords]
    have hjoin : joinWords ["function".toList, "f".toList, word, ['b']] =
        "function f ".toList ++ word ++ [' '] ++ ['b'] := by
      simp [joinWords]
    rw [toList_clean, htext, wordLists_joinWords hwords, hjoin]
    exact cut_append (by simp [hlength, maxLength]) (List.cons_ne_nil _ _)
  have htotal : Indexer.echo.Total := fun _ => rfl
  refine ⟨htotal, ?_⟩
  rw [(clean_normal_form.2.2 Indexer.echo _ htotal).1, List.map_singleton, List.map_singleton,
    hclean _ List.length_replicate]
  intro c hc
  rw [List.eq_of_mem_replicate hc]
  decide

end Embedding

end SymbolAtlas
