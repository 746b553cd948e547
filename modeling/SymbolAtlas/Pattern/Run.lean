/-
  SymbolAtlas.Pattern.Run: matching a pattern at a place of a text.

  `Pattern.ends` lists every way to match at a place, in order of preference. `Pattern.run` looks
  for the first of them that a continuation accepts, without building the list.

    run_eq_findSome?   both say the same
-/

import SymbolAtlas.Pattern.Basic

namespace SymbolAtlas

/-- A part of a text: what follows its start, and its length. -/
structure Stretch where
  rest : List Char
  length : Nat
  deriving DecidableEq, Repr

/-- The characters of a part. -/
def Stretch.chars (s : Stretch) : List Char := s.rest.take s.length

/-- A place in a text, with the parts remembered on the way to it. -/
structure Cursor where
  before : Option Char
  rest : List Char
  offset : Nat
  groups : List (Nat × Stretch)
  deriving DecidableEq, Repr

namespace Cursor

/-- The start of a text. -/
def start (cs : List Char) : Cursor := ⟨none, cs, 0, []⟩

/-- One character further: past `c`, with `r` to come. -/
def next (x : Cursor) (c : Char) (r : List Char) : Cursor :=
  { x with before := some c, rest := r, offset := x.offset + 1 }

/-- Past the characters `cs`, if they come next. -/
def skip? (x : Cursor) : List Char → Option Cursor
  | [] => some x
  | d :: ds =>
    match x.rest with
    | c :: r => if c = d then (x.next c r).skip? ds else none
    | [] => none

/-- The text remembered as part `n` most recently. -/
def group? (x : Cursor) (n : Nat) : Option (List Char) :=
  (x.groups.find? (·.1 == n)).map (·.2.chars)

/-- Remembers what lies between `x` and `y` as part `n`. -/
def record (x y : Cursor) (n : Nat) : Cursor :=
  { y with groups := (n, ⟨x.rest, y.offset - x.offset⟩) :: y.groups }

/-- Whether the text ends here, a line feed at its end not counted. -/
def atEnd (x : Cursor) : Bool := x.rest == [] || x.rest == ['\n']

/-- Whether a line starts here. -/
def atLineStart (x : Cursor) : Bool := x.before == none || x.before == some '\n'

/-- Whether exactly one of the neighbours is a word character. -/
def atWordEdge (x : Cursor) : Bool := x.before.any Text.isWord != x.rest.head?.any Text.isWord

end Cursor

namespace Pattern

/-! ## All ends, in order of preference -/

/-- The ends of a run of at least `least` and at most `most` characters of `s`, longest first; the
list is the text that follows `x`. -/
def endsMany (s : CharClass) :
    List Char → (least : Nat) → (most : Option Nat) → Cursor → List Cursor
  | [], least, _, x => if least = 0 then [x] else []
  | c :: r, least, most, x =>
    (if s.holds c && most != some 0 then
      endsMany s r (least - 1) (most.map (· - 1)) (x.next c r) else []) ++
      (if least = 0 then [x] else [])

/-- Every place where a match that starts at `x` may end, best first. -/
def ends : Pattern → Cursor → List Cursor
  | .empty, x => [x]
  | .text cs, x => (x.skip? cs).toList
  | .many s least most, x => endsMany s x.rest least most x
  | .seq p q, x => (ends p x).flatMap (ends q)
  | .alt p q, x => ends p x ++ ends q x
  | .capture n p, x => (ends p x).map fun y => x.record y n
  | .again n, x => match x.group? n with
    | some cs => (x.skip? cs).toList
    | none => []
  | .textStart, x => if x.before.isNone then [x] else []
  | .textEnd, x => if x.atEnd then [x] else []
  | .lineStart, x => if x.atLineStart then [x] else []
  | .wordEdge, x => if x.atWordEdge then [x] else []

/-! ## The first accepted end -/

variable {α : Type}

/-- Looks through the ends of a run for the first that `k` accepts. -/
def runMany (s : CharClass) (k : Cursor → Option α) :
    List Char → (least : Nat) → (most : Option Nat) → Cursor → Option α
  | [], least, _, x => if least = 0 then k x else none
  | c :: r, least, most, x =>
    (if s.holds c && most != some 0 then
      runMany s k r (least - 1) (most.map (· - 1)) (x.next c r) else none) <|>
      (if least = 0 then k x else none)

/-- The answer of `k` at the first end of a match from `x` that `k` accepts. -/
def run : Pattern → Cursor → (Cursor → Option α) → Option α
  | .empty, x, k => k x
  | .text cs, x, k => match x.skip? cs with
    | some y => k y
    | none => none
  | .many s least most, x, k => runMany s k x.rest least most x
  | .seq p q, x, k => run p x fun y => run q y k
  | .alt p q, x, k => run p x k <|> run q x k
  | .capture n p, x, k => run p x fun y => k (x.record y n)
  | .again n, x, k => match x.group? n with
    | some cs => match x.skip? cs with
      | some y => k y
      | none => none
    | none => none
  | .textStart, x, k => if x.before.isNone then k x else none
  | .textEnd, x, k => if x.atEnd then k x else none
  | .lineStart, x, k => if x.atLineStart then k x else none
  | .wordEdge, x, k => if x.atWordEdge then k x else none

/-! ## Both agree -/

theorem runMany_eq_findSome? (s : CharClass) (k : Cursor → Option α) (xs : List Char)
    (least : Nat) (most : Option Nat) (x : Cursor) :
    runMany s k xs least most x = (endsMany s xs least most x).findSome? k := by
  induction xs generalizing least most x with
  | nil => by_cases h : least = 0 <;> simp [runMany, endsMany, h]
  | cons c r ih =>
    simp only [runMany, endsMany, List.findSome?_append, Option.orElse_eq_orElse,
      Option.orElse_eq_or]
    by_cases hs : (s.holds c && most != some 0) = true <;> by_cases h : least = 0 <;>
      simp only [hs, h, ih] <;> simp

theorem run_eq_findSome? (p : Pattern) (x : Cursor) (k : Cursor → Option α) :
    p.run x k = (p.ends x).findSome? k := by
  induction p generalizing x k with
  | empty => simp [run, ends]
  | text cs => cases h : x.skip? cs <;> simp [run, ends, h]
  | many s least most => simp [run, ends, runMany_eq_findSome?]
  | seq p q ihp ihq =>
    simp only [run, ends, ihp, ihq]
    induction p.ends x with
    | nil => rfl
    | cons y ys ih => simp [List.findSome?_append, Option.or]; split <;> simp_all
  | alt p q ihp ihq =>
    simp [run, ends, ihp, ihq, List.findSome?_append]
  | capture n p ih => simp [run, ends, ih, List.findSome?_map, Function.comp_def]
  | again n =>
    cases h : x.group? n with
    | none => simp [run, ends, h]
    | some cs => cases h' : x.skip? cs <;> simp [run, ends, h, h']
  | textStart => by_cases h : x.before.isNone = true <;> simp [run, ends, h]
  | textEnd => by_cases h : x.atEnd = true <;> simp [run, ends, h]
  | lineStart => by_cases h : x.atLineStart = true <;> simp [run, ends, h]
  | wordEdge => by_cases h : x.atWordEdge = true <;> simp [run, ends, h]

end Pattern

end SymbolAtlas
