/-
  SymbolAtlas.Dialect.Extension: the language of a file by the ending of its name.
-/

import SymbolAtlas.Path

namespace SymbolAtlas.Extension

/-- Endings with their languages. -/
abbrev Table := List (String × String)

/-- All endings of one language. -/
def all (language : String) (endings : List String) : Table := endings.map fun e => (e, language)

def python : Table := all "python" [".py", ".pyx", ".pyi"]

def swift : Table := all "swift" [".swift"]

def shell : Table := all "bash" [".sh", ".bash", ".zsh", ".ksh"]

def json : Table := all "json" [".json", ".jsonc"]

def markdown : Table :=
  all "markdown" [".md", ".markdown", ".mdown", ".mkd", ".mkdn", ".mdwn", ".mdtxt", ".mdtext"]

def yaml : Table := all "yaml" [".yml", ".yaml"]

def toml : Table := all "toml" [".toml"]

/-- The endings of all languages that a code base is searched for. -/
def catalog : Table :=
  python ++ all "javascript" [".js", ".jsx"] ++ all "typescript" [".ts"] ++ all "tsx" [".tsx"] ++
  all "java" [".java"] ++ all "c" [".c", ".h"] ++ all "cpp" [".cpp", ".cc", ".cxx", ".hpp"] ++
  all "c_sharp" [".cs"] ++ all "go" [".go"] ++ all "rust" [".rs"] ++ all "ruby" [".rb", ".erb"] ++
  all "php" [".php"] ++ swift ++ all "kotlin" [".kt", ".kts"] ++ all "scala" [".scala"] ++
  all "lua" [".lua"] ++ all "html" [".html", ".htm"] ++ all "css" [".css"] ++
  all "json" [".json"] ++ yaml ++ toml ++ all "vue" [".vue"] ++ all "solidity" [".sol"] ++
  all "zig" [".zig"] ++ all "elixir" [".ex", ".exs"] ++ all "ocaml" [".ml", ".mli"] ++
  all "elm" [".elm"] ++ shell ++ all "elisp" [".el"] ++ all "systemrdl" [".rdl"] ++
  all "tlaplus" [".tla"] ++ all "ql" [".ql"] ++ all "rescript" [".re", ".resi"]

/-- A letter in lower case, as far as that is an ASCII letter: the Kelvin sign is a `k` too. -/
def lowerChar (c : Char) : Char := if c == '\u212a' then 'k' else c.toLower

/-- An ending in lower case. -/
def lower (s : String) : String := String.ofList (s.toList.map lowerChar)

/-- The language of a file. -/
def languageOf? (table : Table) (p : Path) : Option String :=
  (table.find? (·.1 == lower p.suffix)).map (·.2)

end SymbolAtlas.Extension
