/-
  SymbolAtlas.Proofs.JsonGrammar: JSON documents, written as rows of pieces.

  A document is a row of pieces: space, marks, colons, texts in quotes and scalars. The grammar
  says which rows are documents (`IsDocument`). Two rules about neighbours follow from it: behind a
  colon come space and the beginning of a value, and behind a scalar comes space, a comma, a closing
  bracket or nothing (`IsDocument.orderly`). Every character of a document belongs to one of its
  pieces (`exists_piece`).
-/

import SymbolAtlas.Dialect.DataFormat

namespace SymbolAtlas.JsonText

/-! ## Pieces -/

/-- Blanks that may stand between the pieces of a document. -/
def isSpace (c : Char) : Bool := c == ' ' || c == '\t' || c == '\n' || c == '\r'

/-- Any number of such blanks. -/
structure Space where
  chars : List Char
  space : ∀ c ∈ chars, isSpace c = true

/-- One or more digits. -/
structure Digits (digit : Char → Bool) (cs : List Char) : Prop where
  ne_nil : cs ≠ []
  digits : ∀ c ∈ cs, digit c = true

/-- The parts of a number: a minus sign, digits, a fraction and an exponent. All but the digits may
be missing. -/
structure NumeralParts (digit : Char → Bool) (sign whole fraction exponent : List Char) : Prop where
  minus : sign = [] ∨ sign = ['-']
  digits : Digits digit whole
  point : fraction = [] ∨ ∃ ds, Digits digit ds ∧ fraction = '.' :: ds
  power : exponent = [] ∨ ∃ e plus ds, (e = 'e' ∨ e = 'E') ∧
    (plus = [] ∨ plus = ['+'] ∨ plus = ['-']) ∧ Digits digit ds ∧ exponent = e :: (plus ++ ds)

/-- A number, written without needless zeros in front. -/
structure Number where
  chars : List Char
  parts : ∃ sign whole fraction exponent,
    NumeralParts Char.isDigit sign whole fraction exponent ∧
    (whole.head? = some '0' → whole = ['0']) ∧ chars = sign ++ (whole ++ (fraction ++ exponent))

/-- The inside of a text in quotes. Quotes and backslashes are escaped, and control characters have
to be. -/
inductive IsBody : List Char → Prop
  | nil : IsBody []
  | plain {c : Char} {cs : List Char} (printable : 32 ≤ c.toNat) (quote : c ≠ '"')
      (backslash : c ≠ '\\') (rest : IsBody cs) : IsBody (c :: cs)
  | escape {c : Char} {cs : List Char} (code : c ∈ ['"', '\\', '/', 'b', 'f', 'n', 'r', 't'])
      (rest : IsBody cs) : IsBody ('\\' :: c :: cs)
  | point {ds cs : List Char} (four : ds.length = 4)
      (hex : ∀ d ∈ ds, (d.isDigit || ('a' ≤ d && d ≤ 'f') || ('A' ≤ d && d ≤ 'F')) = true)
      (rest : IsBody cs) : IsBody ('\\' :: 'u' :: (ds ++ cs))

/-- A text without quotes, backslashes and control characters needs no escapes. -/
theorem isBody_of_all {cs : List Char}
    (h : cs.all (fun c => 32 ≤ c.toNat && c != '"' && c != '\\') = true) : IsBody cs := by
  induction cs with
  | nil => exact .nil
  | cons c cs ih =>
      simp only [List.all_cons, Bool.and_eq_true, decide_eq_true_eq, bne_iff_ne] at h
      exact .plain h.1.1.1 h.1.1.2 h.1.2 (ih h.2)

/-- The inside of a text in quotes. -/
structure Body where
  chars : List Char
  body : IsBody chars

/-- A value without values inside and without quotes. -/
inductive Scalar where
  | number (n : Number)
  | truth (b : Bool)
  | null

/-- The characters of a scalar. -/
def Scalar.chars : Scalar → List Char
  | .number n => n.chars
  | .truth true => "true".toList
  | .truth false => "false".toList
  | .null => "null".toList

/-- The marks between values and around them, but for the colon. -/
inductive Mark where
  | openArray | closeArray | openObject | closeObject | comma
  deriving DecidableEq, Repr

/-- The character of a mark. -/
def Mark.char : Mark → Char
  | .openArray => '['
  | .closeArray => ']'
  | .openObject => '\x7b'
  | .closeObject => '\x7d'
  | .comma => ','

/-- A piece of a document. -/
inductive Piece where
  | space (s : Space)
  | mark (m : Mark)
  | colon
  | text (b : Body)
  | scalar (v : Scalar)

/-- The characters of a piece. -/
def Piece.chars : Piece → List Char
  | .space s => s.chars
  | .mark m => [m.char]
  | .colon => [':']
  | .text b => '"' :: (b.chars ++ ['"'])
  | .scalar v => v.chars

/-- The characters of a row of pieces. -/
def spell (ps : List Piece) : List Char := ps.flatMap Piece.chars

@[simp] theorem spell_nil : spell [] = [] := rfl

@[simp] theorem spell_cons (p : Piece) (ps : List Piece) : spell (p :: ps) = p.chars ++ spell ps :=
  rfl

@[simp] theorem spell_append (ps qs : List Piece) : spell (ps ++ qs) = spell ps ++ spell qs :=
  List.flatMap_append

/-! ## Documents -/

/-- What a row of pieces can be: a value, or one or more items of an array or members of an
object, with the space around them. -/
inductive Form where
  | value | items | members
  deriving DecidableEq, Repr

/-- The grammar of JSON. -/
inductive Derives : Form → List Piece → Prop
  | scalar (v : Scalar) : Derives .value [.scalar v]
  | text (b : Body) : Derives .value [.text b]
  | emptyArray (s : Space) : Derives .value [.mark .openArray, .space s, .mark .closeArray]
  | array {ps : List Piece} (items : Derives .items ps) :
      Derives .value (.mark .openArray :: (ps ++ [.mark .closeArray]))
  | emptyObject (s : Space) : Derives .value [.mark .openObject, .space s, .mark .closeObject]
  | object {ps : List Piece} (members : Derives .members ps) :
      Derives .value (.mark .openObject :: (ps ++ [.mark .closeObject]))
  | item {ps : List Piece} (before after : Space) (value : Derives .value ps) :
      Derives .items (.space before :: (ps ++ [.space after]))
  | items {ps qs : List Piece} (first : Derives .items ps) (more : Derives .items qs) :
      Derives .items (ps ++ .mark .comma :: qs)
  | member {ps : List Piece} (before : Space) (key : Body) (afterKey beforeValue after : Space)
      (value : Derives .value ps) :
      Derives .members (.space before :: .text key :: .space afterKey :: .colon ::
        .space beforeValue :: (ps ++ [.space after]))
  | members {ps qs : List Piece} (first : Derives .members ps) (more : Derives .members qs) :
      Derives .members (ps ++ .mark .comma :: qs)

/-- A value with space around it. -/
def IsDocument (ps : List Piece) : Prop :=
  ∃ before value after, Derives .value value ∧ ps = .space before :: (value ++ [.space after])

/-! ## Neighbours -/

/-- Whether a value may begin with a piece. -/
def Piece.opens : Piece → Bool
  | .text _ | .scalar _ | .mark .openArray | .mark .openObject => true
  | _ => false

/-- Whether a character may come right behind a value. -/
def endsValue (c : Char) : Bool := isSpace c || c == ',' || c == ']' || c == '\x7d'

/-- Whether a value may come right before a row of pieces. -/
def Follows (ps : List Piece) : Prop := (spell ps).head?.all endsValue = true

/-- Whether every colon has space and the beginning of a value behind it, and every scalar what may
come behind a value. -/
def Orderly : List Piece → Prop
  | [] => True
  | .colon :: ps => (∃ s p rest, ps = .space s :: p :: rest ∧ p.opens = true) ∧ Orderly ps
  | .scalar _ :: ps => Follows ps ∧ Orderly ps
  | _ :: ps => Orderly ps

variable {ps qs : List Piece} {form : Form}

theorem Orderly.of_append (h : Orderly (ps ++ qs)) : Orderly qs := by
  induction ps with
  | nil => exact h
  | cons p ps ih =>
      cases p with
      | colon => exact ih h.2
      | scalar v => exact ih h.2
      | _ => exact ih h

theorem follows_space (s : Space) (h : Follows ps) : Follows (.space s :: ps) := by
  obtain ⟨cs, hcs⟩ := s
  cases cs with
  | nil => exact h
  | cons c cs =>
      show endsValue c = true
      rw [endsValue, hcs c List.mem_cons_self]
      rfl

/-- A value begins as a value may. -/
theorem Derives.exists_opens (h : Derives .value ps) :
    ∃ p rest, ps = p :: rest ∧ p.opens = true := by
  cases h with
  | _ => exact ⟨_, _, rfl, rfl⟩

/-- What is derived can be put before everything that a value may come before. -/
theorem Derives.orderly (h : Derives form ps) {rest : List Piece} (hrest : Orderly rest)
    (hfollows : Follows rest) : Orderly (ps ++ rest) := by
  induction h generalizing rest with
  | scalar v => exact ⟨hfollows, hrest⟩
  | text b => exact hrest
  | emptyArray s => exact hrest
  | array _ ih =>
      rw [List.cons_append, List.append_assoc]
      exact ih hrest rfl
  | emptyObject s => exact hrest
  | object _ ih =>
      rw [List.cons_append, List.append_assoc]
      exact ih hrest rfl
  | item before after _ ih =>
      rw [List.cons_append, List.append_assoc]
      exact ih hrest (follows_space after hfollows)
  | items _ _ ihfirst ihmore =>
      rw [List.append_assoc]
      exact ihfirst (ihmore hrest hfollows) rfl
  | member before key afterKey beforeValue after value ih =>
      -- after a colon the next piece has to open a value
      obtain ⟨p, more, rfl, hopens⟩ := value.exists_opens
      refine ⟨⟨beforeValue, p, _, rfl, hopens⟩, ?_⟩
      have hvalue : Orderly (p :: more ++ .space after :: rest) :=
        ih hrest (follows_space after hfollows)
      show Orderly (p :: more ++ [.space after] ++ rest)
      rw [List.append_assoc]
      exact hvalue
  | members _ _ ihfirst ihmore =>
      rw [List.append_assoc]
      exact ihfirst (ihmore hrest hfollows) rfl

theorem IsDocument.orderly (h : IsDocument ps) : Orderly ps := by
  obtain ⟨before, value, after, hvalue, rfl⟩ := h
  have hafter : Follows [.space after] := follows_space after rfl
  exact hvalue.orderly trivial hafter

/-! ## Places in a document -/

/-- A character of a row of pieces belongs to one of them. -/
theorem exists_piece {front rest : List Char} {c : Char} (h : spell ps = front ++ c :: rest) :
    ∃ before p after x y, ps = before ++ p :: after ∧ front = spell before ++ x ∧
      p.chars = x ++ c :: y ∧ rest = y ++ spell after := by
  induction ps generalizing front with
  | nil => exact absurd h (by simp)
  | cons p ps ih =>
      -- a place behind the first piece is a place in the others
      have hlater : ∀ {a}, front = p.chars ++ a → spell ps = a ++ c :: rest →
          ∃ before q after x y, p :: ps = before ++ q :: after ∧ front = spell before ++ x ∧
            q.chars = x ++ c :: y ∧ rest = y ++ spell after := by
        intro a hfront ha
        obtain ⟨before, q, after, x, y, rfl, rfl, hq, hrest⟩ := ih ha
        refine ⟨p :: before, q, after, x, y, rfl, ?_, hq, hrest⟩
        rw [hfront, spell_cons, List.append_assoc]
      rcases List.append_eq_append_iff.mp h with ⟨a, hfront, ha⟩ | ⟨a, hp, ha⟩
      · exact hlater hfront ha
      · cases a with
        | nil => exact @hlater [] (by rw [hp, List.append_nil, List.append_nil]) ha.symm
        | cons d y =>
            obtain ⟨rfl, hrest⟩ := List.cons.inj ha
            exact ⟨[], p, ps, front, y, rfl, rfl, hp, hrest⟩

/-- A character inside a piece does not begin another one. -/
theorem spell_ne_of_inside {before before' after after' : List Piece} {p q : Piece}
    (h : before ++ p :: after = before' ++ q :: after') {x : List Char} (hx : x ≠ [])
    (hlt : x.length < p.chars.length) (hq : q.chars ≠ []) :
    (spell before').length ≠ (spell before).length + x.length := by
  have hpos := List.length_pos_iff.mpr hx
  have hqpos := List.length_pos_iff.mpr hq
  -- between the two pieces lie whole pieces, the earlier of the two among them
  rcases List.append_eq_append_iff.mp h with ⟨a, rfl, ha⟩ | ⟨a, rfl, ha⟩
  · cases a with
    | nil =>
        rw [List.append_nil]
        omega
    | cons r a =>
        obtain ⟨rfl, -⟩ := List.cons.inj ha
        rw [spell_append, spell_cons, List.length_append, List.length_append]
        omega
  · cases a with
    | nil =>
        rw [List.append_nil]
        omega
    | cons r a =>
        obtain ⟨rfl, -⟩ := List.cons.inj ha
        rw [spell_append, spell_cons, List.length_append, List.length_append]
        omega

end SymbolAtlas.JsonText
