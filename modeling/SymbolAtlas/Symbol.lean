/-
  SymbolAtlas.Symbol: what is found in source text.

  A `Symbol` has a place, a kind and the text of its definition. Some languages only yield a
  `Mention`: a name on a line, under other attribute names and without a span or a text. Relations
  are looked up against an `Outline`, the part of either that says where a symbol lies; any of its
  attributes may be missing.
-/

import SymbolAtlas.Value.Basic

namespace SymbolAtlas

/-- A definition found in a file, from its first to its last line. -/
structure Symbol where
  name : String
  kind : String
  first : Int
  last : Int
  snippet : String
  language : String
  file : String
  /-- the digest of the file; symbols of line rules have none before they are indexed -/
  digest : Option String := none
  deriving DecidableEq, Repr

/-- A name found on a line. -/
structure Mention where
  name : String
  kind : String
  line : Nat
  file : String
  language : String
  scope : Option String := none
  deriving DecidableEq, Repr

/-- Something found in source text. -/
inductive Finding where
  | symbol (s : Symbol)
  | mention (m : Mention)
  deriving DecidableEq, Repr

namespace Finding

/-- The name of a finding. -/
def name : Finding → String
  | .symbol s => s.name
  | .mention m => m.name

/-- The attributes of a finding under their public names. -/
def fields : Finding → List (String × Value)
  | .symbol s =>
    [("name", .text s.name), ("symbol_type", .text s.kind), ("line_start", .int s.first),
     ("line_end", .int s.last), ("code_snippet", .text s.snippet), ("language", .text s.language),
     ("file_path", .text s.file)] ++ s.digest.toList.map fun d => ("file_hash", .text d)
  | .mention m =>
    [("name", .text m.name), ("type", .text m.kind), ("line", .ofNat m.line),
     ("file", .text m.file), ("language", .text m.language)] ++
      m.scope.toList.map fun s => ("scope", .text s)

end Finding

/-! ## Outlines -/

/-- An attribute that was read and is not there, by its public name. -/
structure MissingField where
  key : String
  deriving DecidableEq, Repr

/-- Where a symbol lies, as far as it is known. -/
structure Outline where
  name : Option String
  kind : Option String := none
  first : Option Int := none
  last : Option Int := none
  deriving DecidableEq, Repr

namespace Outline

/-- Reads an attribute that must be there. -/
def require (key : String) : Option α → Except MissingField α
  | some a => .ok a
  | none => .error ⟨key⟩

/-- The name, which must be there. -/
def getName (o : Outline) : Except MissingField String := require "name" o.name

/-- The kind, which must be there. -/
def getKind (o : Outline) : Except MissingField String := require "symbol_type" o.kind

/-- The first line, which must be there. -/
def getFirst (o : Outline) : Except MissingField Int := require "line_start" o.first

/-- The last line, which must be there. -/
def getLast (o : Outline) : Except MissingField Int := require "line_end" o.last

/-- Whether the symbol covers a line; the last line is only read when the first one is not below. -/
def covers (o : Outline) (line : Int) : Except MissingField Bool := do
  if (← o.getFirst) ≤ line then return line ≤ (← o.getLast) else return false

end Outline

/-- The outline of a finding: a mention has a name only. -/
def Finding.outline : Finding → Outline
  | .symbol s => ⟨some s.name, some s.kind, some s.first, some s.last⟩
  | .mention m => ⟨some m.name, none, none, none⟩

/-- The name of the first symbol that covers a line. -/
def ownerAt (line : Int) : List Outline → Except MissingField (Option String)
  | [] => .ok none
  | o :: rest => do
    if ← o.covers line then return some (← o.getName) else ownerAt line rest

/-- The names of all symbols that cover a line. -/
def ownersAt (line : Int) : List Outline → Except MissingField (List String)
  | [] => .ok []
  | o :: rest => do
    if ← o.covers line then
      let name ← o.getName
      return name :: (← ownersAt line rest)
    else ownersAt line rest

end SymbolAtlas
