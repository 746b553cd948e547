/-
  SymbolAtlas.Proofs.RelationStage: whether the relations of a file are stored.

  One language decides this for all files of a run, that of the last file which the run looked at.
  A language without relations has none in any of its files, so that nothing wrong is stored for a
  file when the deciding language has them. When it has none, the relations of all files are lost.
-/

import SymbolAtlas.Proofs.Sources

namespace SymbolAtlas

namespace Store

end Store

namespace Indexer

variable {a : Analyzer} {model : Option Model} {path : String} {file : Option ByteArray}

end Indexer

end SymbolAtlas
