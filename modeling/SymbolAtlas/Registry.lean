/-
  SymbolAtlas.Registry: which dialect reads which language.

  A registry can be extended at any time. The `code` dialect comes with a table of its own, which
  goes before the registry.
-/

import SymbolAtlas.Dialect.Basic

namespace SymbolAtlas

/-- Languages with their dialects, in the order of their registration. -/
structure Registry where
  entries : List (String × Dialect)
  deriving DecidableEq, Repr

namespace Registry

/-- The dialect of a language. -/
def get? (r : Registry) (language : String) : Option Dialect :=
  (r.entries.find? (·.1 == language)).map (·.2)

/-- Registers a dialect: in place of the language's dialect, otherwise at the end. -/
def putEntry (language : String) (d : Dialect) : List (String × Dialect) → List (String × Dialect)
  | [] => [(language, d)]
  | (l, d') :: rest => if l = language then (l, d) :: rest else (l, d') :: putEntry language d rest

/-- Registers a dialect for a language. -/
def register (r : Registry) (language : String) (d : Dialect) : Registry :=
  ⟨putEntry language d r.entries⟩

/-- All languages, in the order of their registration. -/
def languages (r : Registry) : List String := r.entries.map (·.1)

/-- The languages that are known from the start. -/
def standard : Registry where
  entries :=
    [("python", .python), ("swift", .swift), ("bash", .shell), ("javascript", .javascript),
     ("typescript", .javascript), ("tsx", .javascript), ("java", .java), ("c", .cpp),
     ("cpp", .cpp), ("c_sharp", .csharp), ("go", .go), ("rust", .rust), ("ruby", .ruby),
     ("php", .php), ("kotlin", .kotlin), ("scala", .scala), ("lua", .lua), ("html", .html),
     ("css", .css), ("vue", .vue), ("solidity", .solidity), ("zig", .zig), ("elixir", .elixir),
     ("ocaml", .ocaml), ("elisp", .elisp), ("systemrdl", .systemrdl), ("tlaplus", .tlaplus)]

/-- The table of the `code` dialect: all of the standard languages and four data formats. -/
def builtin : Registry where
  entries := standard.entries ++
    [("json", .json), ("yaml", .yaml), ("toml", .toml), ("markdown", .markdown)]

end Registry

namespace Dialect

/-- The dialect that reads a language for `d`. -/
def delegate? (d : Dialect) (registry : Registry) (language : String) : Option Dialect :=
  match d with
  | .code => Registry.builtin.get? language <|> registry.get? language
  | _ => registry.get? language

/-- Whether relations are looked for: the `code` dialect leaves that to the language's dialect. -/
def wantsRelations (d : Dialect) (registry : Registry) (language : String) : Bool :=
  match d with
  | .code => ((d.delegate? registry language).map hasRelations).getD true
  | _ => d.hasRelations

end Dialect

end SymbolAtlas
