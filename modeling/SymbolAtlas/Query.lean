/-
  SymbolAtlas.Query: the queries and the grammars of languages, and their caches.

  A query that was read once is never read again, and neither is a grammar; a failed attempt leaves
  no trace.
-/

import SymbolAtlas.Path
import SymbolAtlas.Text.Blank
import SymbolAtlas.Text.Parts

namespace SymbolAtlas

namespace Query

/-- The languages that a query comes with. -/
def bundled : List String :=
  ["bash", "c", "c-sharp", "cpp", "css", "elisp", "elixir", "embedded_template", "go", "html",
   "java", "javascript", "json", "kotlin", "lua", "markdown", "ocaml", "php", "python", "ruby",
   "rust", "scala", "solidity", "swift", "systemrdl", "tlaplus", "toml", "tsx", "typescript", "vue",
   "zig"]

/-- The query in a file, if the file is there and can be read. -/
def ofFile? (file : Option ByteArray) : Option String := do
  return Text.strip (← Text.decode? (← file))

/-- The path of a language's query, below the directory of queries. -/
def pathOf (language : String) : Path := .parse (language ++ ".scm")

end Query

/-- The queries that have been read. -/
structure QueryCache where
  loaded : List (String × String) := []
  deriving DecidableEq, Repr

namespace QueryCache

/-- The query of a language that has been read. -/
def get? (c : QueryCache) (language : String) : Option String :=
  (c.loaded.find? (·.1 == language)).map (·.2)

/-- The query of a language, from the cache or else from its file, and the cache afterwards. -/
def load (c : QueryCache) (language : String) (file : Option ByteArray) :
    Option String × QueryCache :=
  match c.get? language with
  | some q => (some q, c)
  | none =>
    match Query.ofFile? file with
    | some q => (some q, ⟨c.loaded ++ [(language, q)]⟩)
    | none => (none, c)

end QueryCache

/-! ## A directory of queries -/

/-- What happens to the queries of a session: a file is written, or a query is asked for. -/
inductive QueryStep where
  | write (language : String) (bytes : ByteArray)
  | load (language : String)

/-- The files of a query directory, the last one written first, and what has been read from them. -/
structure QueryDirectory where
  root : Path := .parse "queries_scm"
  files : List (Path × ByteArray) := []
  cache : QueryCache := {}

namespace QueryDirectory

/-- The place of a language's query. -/
def place (d : QueryDirectory) (language : String) : Path := d.root.append (Query.pathOf language)

/-- The file of a language, as written last. -/
def file? (d : QueryDirectory) (language : String) : Option ByteArray :=
  (d.files.find? (·.1 == d.place language)).map (·.2)

/-- One step; a load answers with the query or nothing. -/
def step (d : QueryDirectory) : QueryStep → Option (Option String) × QueryDirectory
  | .write language bytes => (none, { d with files := (d.place language, bytes) :: d.files })
  | .load language =>
    let (q, cache) := d.cache.load language (d.file? language)
    (some q, { d with cache })

/-- The answers of all loads, in order. -/
def run (d : QueryDirectory) : List QueryStep → List (Option String)
  | [] => []
  | s :: rest =>
    let (answer, d') := d.step s
    answer.toList ++ run d' rest

end QueryDirectory

/-! ## Grammars -/

/-- The package that the grammar of a language comes in. -/
inductive Package where
  | absent
  | broken
  | working
  deriving DecidableEq, Repr

/-- The languages whose grammars have been loaded. -/
structure GrammarCache where
  loaded : List String := []
  deriving DecidableEq, Repr

namespace GrammarCache

/-- Whether the grammar of a language is there, from the cache or else from its package, and the
cache afterwards. -/
def load (c : GrammarCache) (language : String) (package : Package) : Bool × GrammarCache :=
  if c.loaded.contains language then (true, c)
  else match package with
    | .working => (true, ⟨c.loaded ++ [language]⟩)
    | .absent | .broken => (false, c)

/-- What the grammar of a language is given to read for a text; none when it cannot be loaded. -/
def input? (c : GrammarCache) (language : String) (package : Package) (text : String) :
    Option ByteArray :=
  if (c.load language package).1 then some text.toUTF8 else none

end GrammarCache

end SymbolAtlas
