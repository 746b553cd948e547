/-
  SymbolAtlas.Pattern.Scan: matches of a pattern in a text.

  A match at the start (`matchStart?`), the first match anywhere (`search?`), and all matches from
  left to right that do not overlap (`scan`). After an empty match the next one at the same place
  must not be empty.
-/

import SymbolAtlas.Pattern.Run

namespace SymbolAtlas

/-- A stretch of text that matches a pattern, with the parts remembered. -/
structure Match where
  start : Nat
  stop : Nat
  text : List Char
  groups : List (Nat × List Char)
  deriving DecidableEq, Repr

namespace Match

/-- The text remembered as part `n`. -/
def group? (m : Match) (n : Nat) : Option String :=
  (m.groups.find? (·.1 == n)).map fun g => String.ofList g.2

/-- The text remembered as part `n`, empty when there is none. -/
def group (m : Match) (n : Nat) : String := (m.group? n).getD ""

/-- The whole text of the match. -/
def whole (m : Match) : String := String.ofList m.text

end Match

namespace Pattern

/-- The match between two places. -/
def toMatch (x y : Cursor) : Match :=
  ⟨x.offset, y.offset, x.rest.take (y.offset - x.offset), y.groups.map fun g => (g.1, g.2.chars)⟩

/-- The best match at a place. -/
def matchAt? (p : Pattern) (x : Cursor) : Option Match :=
  p.run x fun y => some (toMatch x y)

/-- The best match at a place that is not empty. -/
def matchAtNonempty? (p : Pattern) (x : Cursor) : Option Match :=
  p.run x fun y => if y.offset = x.offset then none else some (toMatch x y)

/-- The best match at the start of a text. -/
def matchStart? (p : Pattern) (s : String) : Option Match := p.matchAt? (.start s.toList)

/-- All matches from a place on, given as the character before it and what follows; places before
`resume` are passed over. -/
def scanFrom (p : Pattern) (before : Option Char) :
    (rest : List Char) → (offset resume : Nat) → List Match
  | [], offset, resume =>
    if offset < resume then [] else (p.matchAt? ⟨before, [], offset, []⟩).toList
  | c :: r, offset, resume =>
    if offset < resume then scanFrom p (some c) r (offset + 1) resume
    else
      let x : Cursor := ⟨before, c :: r, offset, []⟩
      match p.matchAt? x with
      | none => scanFrom p (some c) r (offset + 1) (offset + 1)
      | some m =>
        if m.stop = offset then
          match p.matchAtNonempty? x with
          | some m' => m :: m' :: scanFrom p (some c) r (offset + 1) m'.stop
          | none => m :: scanFrom p (some c) r (offset + 1) (offset + 1)
        else m :: scanFrom p (some c) r (offset + 1) m.stop

/-- All matches in a text, from left to right. -/
def scan (p : Pattern) (s : String) : List Match := scanFrom p none s.toList 0 0

/-- The first match from a place on. -/
def searchFrom? (p : Pattern) (before : Option Char) :
    (rest : List Char) → (offset : Nat) → Option Match
  | [], offset => p.matchAt? ⟨before, [], offset, []⟩
  | c :: r, offset =>
    match p.matchAt? ⟨before, c :: r, offset, []⟩ with
    | some m => some m
    | none => searchFrom? p (some c) r (offset + 1)

/-- The first match in a text. -/
def search? (p : Pattern) (s : String) : Option Match := searchFrom? p none s.toList 0

/-- Part `n` of every match in a text. -/
def scanGroup (p : Pattern) (n : Nat) (s : String) : List String :=
  (p.scan s).map (·.group n)

end Pattern

end SymbolAtlas
