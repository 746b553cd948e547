/-
  SymbolAtlas.Indexer.Basic: what an indexer works with, and how it tells what it does.
-/

import SymbolAtlas.Analyzer
import SymbolAtlas.Embedding

namespace SymbolAtlas

/-- Something that is told while work goes on. -/
inductive Event where
  | info (text : String)
  /-- how much is done, of a hundred -/
  | progress (percent : Nat)
  deriving DecidableEq, Repr

/-- What an indexer works with. -/
structure Indexer where
  /-- the language of a file, by its path -/
  languageOf? : String → Option String
  /-- what is found in a file, by its path and its bytes -/
  parse : String → Option ByteArray → List Parsed
  /-- whether relations of a language are stored; the language may be unknown -/
  wantsRelations : Option String → Bool
  /-- the model that gives embeddings, if there is one -/
  model : Option Model

namespace Indexer

/-- The indexer that reads files with an analyzer. -/
def ofAnalyzer (a : Analyzer) (model : Option Model) : Indexer where
  languageOf? path := a.dialect.languageOf? (.parse path)
  parse := a.parseFile
  wantsRelations
    | some language => a.dialect.wantsRelations a.registry language
    | none => true
  model

end Indexer

end SymbolAtlas
