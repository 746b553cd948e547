/-
  SymbolAtlas.Repository.Glob: patterns of paths.

  A glob is a list of parts. Each part says what may remain of a text after it, and a text is
  covered when nothing remains after the last part. The slash divides names: only the parts `deep`
  and `dirs` reach across it.
-/

namespace SymbolAtlas

/-- A part of a glob. -/
inductive GlobPart where
  | char (c : Char)
  /-- one character of a name -/
  | one
  /-- one character of a name that lies in one of the ranges, or in none of them -/
  | set (negated : Bool) (ranges : List (Char × Char))
  /-- any characters of a name -/
  | run
  /-- any characters -/
  | deep
  /-- any directories, each with its slash -/
  | dirs
  deriving DecidableEq, Repr

/-- A pattern of paths. -/
abbrev Glob := List GlobPart

namespace GlobPart

/-- What remains after each run of characters of a name. -/
def restsWithin : List Char → List (List Char)
  | [] => [[]]
  | c :: cs => (c :: cs) :: if c = '/' then [] else restsWithin cs

/-- What remains after each run of characters. -/
def restsAnywhere : List Char → List (List Char)
  | [] => [[]]
  | c :: cs => (c :: cs) :: restsAnywhere cs

/-- What remains after each slash. -/
def restsAfterSlash : List Char → List (List Char)
  | [] => []
  | c :: cs => if c = '/' then cs :: restsAfterSlash cs else restsAfterSlash cs

/-- What remains after one character that passes a test. -/
def restsAfterOne (test : Char → Bool) : List Char → List (List Char)
  | [] => []
  | c :: cs => if test c then [cs] else []

/-- What may remain of a text after a part. -/
def rests : GlobPart → List Char → List (List Char)
  | .char c => restsAfterOne (· == c)
  | .one => restsAfterOne (· != '/')
  | .set negated ranges => restsAfterOne fun c =>
      c != '/' && (ranges.any fun r => r.1 ≤ c && c ≤ r.2) != negated
  | .run => restsWithin
  | .deep => restsAnywhere
  | .dirs => fun cs => cs :: restsAfterSlash cs

end GlobPart

namespace Glob

/-- Whether a glob covers a whole text. -/
def covers : Glob → List Char → Bool
  | [], cs => cs.isEmpty
  | p :: ps, cs => (p.rests cs).any fun rest => covers ps rest

/-! ## Reading -/

/-- The ranges of a set up to its closing bracket, and what follows it. -/
def readRanges : List Char → Option (List (Char × Char) × List Char)
  | [] => none
  | ']' :: rest => some ([], rest)
  | '\\' :: c :: rest => (readRanges rest).map fun r => ((c, c) :: r.1, r.2)
  | lo :: '-' :: hi :: rest =>
    if hi = ']' then some ([(lo, lo), ('-', '-')], rest)
    else (readRanges rest).map fun r => ((lo, hi) :: r.1, r.2)
  | c :: rest => (readRanges rest).map fun r => ((c, c) :: r.1, r.2)

/-- A set after its opening bracket. A closing bracket that comes first is a member. -/
def readSet (cs : List Char) : Option (GlobPart × List Char) :=
  let (negated, cs) := match cs with
    | '!' :: rest | '^' :: rest => (true, rest)
    | _ => (false, cs)
  match cs with
  | ']' :: rest => (readRanges rest).map fun r => (.set negated ((']', ']') :: r.1), r.2)
  | _ => (readRanges cs).map fun r => (.set negated r.1, r.2)

/-- The parts of a pattern; `fresh` says that a name begins here. Two stars that stand for a whole
name reach across slashes. A set that is not closed covers nothing. -/
def readParts (fuel : Nat) (fresh : Bool) (cs : List Char) : Glob :=
  match fuel, cs with
  | 0, _ | _, [] => []
  | fuel + 1, '*' :: '*' :: '/' :: rest =>
    if fresh then .dirs :: readParts fuel true rest
    else .run :: .char '/' :: readParts fuel true rest
  | _ + 1, ['*', '*'] => [if fresh then .deep else .run]
  | fuel + 1, '*' :: rest => .run :: readParts fuel false rest
  | fuel + 1, '?' :: rest => .one :: readParts fuel false rest
  | fuel + 1, '\\' :: c :: rest => .char c :: readParts fuel false rest
  | fuel + 1, '[' :: rest =>
    match readSet rest with
    | some (p, rest) => p :: readParts fuel false rest
    | none => [.set false []]
  | fuel + 1, c :: rest => .char c :: readParts fuel (c == '/') rest

/-- Reads a pattern. -/
def read (cs : List Char) : Glob := readParts cs.length true cs

end Glob

end SymbolAtlas
