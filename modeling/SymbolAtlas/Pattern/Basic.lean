/-
  SymbolAtlas.Pattern.Basic: text patterns, as data.

  A pattern describes a stretch of text and numbers parts of it. Repetition is over single
  characters of a class and takes as much as it can; alternatives are tried in their order.
-/

import SymbolAtlas.Pattern.Class

namespace SymbolAtlas

/-- A pattern of text. -/
inductive Pattern where
  /-- nothing -/
  | empty
  /-- these characters -/
  | text (cs : List Char)
  /-- a run of `least` or more (at most `most`) characters of a class, longest first -/
  | many (s : CharClass) (least : Nat) (most : Option Nat)
  | seq (p q : Pattern)
  /-- `p`, and if that leads nowhere `q` -/
  | alt (p q : Pattern)
  /-- `p`, remembered as part `n` -/
  | capture (n : Nat) (p : Pattern)
  /-- the text remembered as part `n` -/
  | again (n : Nat)
  | textStart
  /-- the end of the text, also before a line feed that ends it -/
  | textEnd
  /-- the start of the text or of a line -/
  | lineStart
  /-- between a word character and none -/
  | wordEdge
  deriving DecidableEq, Repr

namespace Pattern

instance : Append Pattern := ⟨seq⟩

/-- These characters. -/
def lit (s : String) : Pattern := text s.toList

/-- One character of a class. -/
def one (s : CharClass) : Pattern := many s 1 (some 1)

/-- Any number of characters of a class. -/
def chars (s : CharClass) : Pattern := many s 0 none

/-- One or more characters of a class. -/
def plus (s : CharClass) : Pattern := many s 1 none

/-- `p`, or else nothing. -/
def opt (p : Pattern) : Pattern := alt p empty

/-- The first of the patterns that leads to a match. -/
def oneOf : List Pattern → Pattern
  | [] => alt empty empty
  | [p] => p
  | p :: ps => alt p (oneOf ps)

/-- The first of the texts that leads to a match. -/
def anyOf (ss : List String) : Pattern := oneOf (ss.map lit)

/-- Any number of blanks. -/
def blanks : Pattern := chars .blank

/-- One or more blanks. -/
def gap : Pattern := plus .blank

/-- A run of word characters. -/
def ident : Pattern := plus .word

/-- A run of word characters, remembered as part `n`. -/
def name (n : Nat) : Pattern := capture n ident

/-- A keyword and the blanks after it. -/
def keyword (s : String) : Pattern := lit s ++ gap

/-- A keyword with the blanks after it, or nothing. -/
def optKeyword (s : String) : Pattern := opt (keyword s)

/-- Parentheses around anything but a closing parenthesis. -/
def parens : Pattern := lit "(" ++ chars (.noneOf ")") ++ lit ")"

end Pattern

end SymbolAtlas
