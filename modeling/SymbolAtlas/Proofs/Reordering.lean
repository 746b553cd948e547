/-
  SymbolAtlas.Proofs.Reordering: files in another order, or more than once.

  The work on a file replaces the symbols of that file and leaves all others alone, so that what is
  stored in the end depends on which files were worked on, and neither on their order nor on how
  often each of them came. That is said of the symbols of a whole project, as they are without
  their ids. Where the table of embeddings is missing it takes that no embedding is stored: a file
  that has symbols cannot be cleared without the table, and the embedding of a symbol of another
  file makes the table again.
-/

import SymbolAtlas.Proofs.History

namespace SymbolAtlas

open SymbolData

namespace Store

/-- The symbols of a project, without their ids. -/
def dataIn (st : Store) (project : String) : List SymbolData :=
  (st.symbols.filter fun r => r.project == project).map (·.toSymbolData)

/-- How often a symbol is stored can be counted in its own file. -/
theorem count_dataIn (st : Store) (project : String) (d : SymbolData) :
    (st.dataIn project).count d = (st.dataOf project d.file).count d := by
  simp only [dataIn, dataOf, rowsOf, List.count, List.countP_map, List.countP_filter]
  apply List.countP_congr
  intro r _
  simp only [Function.comp_apply, Bool.and_eq_true, beq_iff_eq]
  constructor
  · rintro ⟨rfl, hproject⟩
    exact ⟨rfl, hproject, rfl⟩
  · rintro ⟨rfl, hproject, -⟩
    exact ⟨rfl, hproject⟩

theorem dataIn_perm {st st' : Store} {project : String}
    (h : ∀ file, st.dataOf project file = st'.dataOf project file) :
    (st.dataIn project).Perm (st'.dataIn project) := by
  rw [List.perm_iff_count]
  intro d
  rw [count_dataIn, count_dataIn, h d.file]

end Store

namespace Indexer

variable {x : Indexer} {tree : FileTree} {project digest : String} {language : Option String}
  {db : Database}

/-- Two lists with the same files lead to the same symbols of the project, in whatever order the
files come and however often, whatever is stored or fails before, and whichever embeddings a model
gives in the one case and in the other. -/
theorem processFiles_symbols_perm (a : Analyzer) (model model' : Option Model) (tree : FileTree)
    (project : String) (language language' : Option String) (files files' : List String)
    (db : Database) (hdb : Table.embeddings ∉ db.dropped ∨ model = none ∧ model' = none)
    (hsame : ∀ file, file ∈ files ↔ file ∈ files') :
    let first := (ofAnalyzer a model).processFiles tree project ⟨files, language⟩ { db }
    let second := (ofAnalyzer a model').processFiles tree project ⟨files', language'⟩ { db }
    (first.db.store.dataIn project).Perm (second.db.store.dataIn project) := by
  intro first second
  apply Store.dataIn_perm
  intro file
  have hsteady : (ofAnalyzer a model).Steady db :=
    ⟨ofAnalyzer_lawful a model, hdb.imp_right And.left⟩
  have hsteady' : (ofAnalyzer a model').Steady db :=
    ⟨ofAnalyzer_lawful a model', hdb.imp_right And.right⟩
  have hfirst : first.db.store.dataOf project file = _ :=
    (congrArg (·.store.dataOf project file)
      (processFiles_db _ tree project ⟨files, language⟩ _)).trans
      (hsteady.indexFiles_dataOf files file)
  have hsecond : second.db.store.dataOf project file = _ :=
    (congrArg (·.store.dataOf project file)
      (processFiles_db _ tree project ⟨files', language'⟩ _)).trans
      (hsteady'.indexFiles_dataOf files' file)
  -- both indexers read alike, so that only the lists differ
  have hread : (ofAnalyzer a model').storable project file
      = (ofAnalyzer a model).storable project file := rfl
  rw [hfirst, hsecond, hread]
  simp only [hsame file]

/-- A model that gives every text the same vector. -/
def constantModel : Model :=
  { name := "constant", embed := fun _ => some [.int 0], vectors := none, vocabulary := 0
    pipeline := [] }

/-- Files that are worked on in turn, one of them twice, leave what they leave in turn backwards,
with embeddings in the one case and without in the other. -/
theorem processFiles_symbols_perm_backwards :
    let tree := (twoFiles "[new]\n" "[other]\n").workspace.tree
    let db := (ofAnalyzer settings none).history [twoFiles "[old]\n" "[kept]\n"]
    let first := (ofAnalyzer settings none).processFiles tree "p"
      ⟨["a.toml", "b.toml", "a.toml"], none⟩ { db }
    let second := (ofAnalyzer settings (some constantModel)).processFiles tree "p"
      ⟨["b.toml", "a.toml"], none⟩ { db }
    (first.db.store.dataIn "p").map (·.name) = ["other", "new"] ∧
      (first.db.store.dataIn "p").Perm (second.db.store.dataIn "p") := by
  refine ⟨by decide +kernel, ?_⟩
  apply processFiles_symbols_perm
  · exact .inl (by decide +kernel)
  · intro file
    simp only [List.mem_cons, List.not_mem_nil, or_false]
    grind

/-- Without the table of embeddings an edited file keeps its old symbols when it comes first, and
gets its new ones when it comes once more after the embedding of another file. -/
theorem processFiles_symbols_differ :
    let x := ofAnalyzer settings (some constantModel)
    let tree := (twoFiles "[new]\n" "[other]\n").workspace.tree
    let db := (x.history [twoFiles "[old]\n" ""]).without .embeddings
    let once := x.processFiles tree "p" ⟨["a.toml", "b.toml"], none⟩ { db }
    let twice := x.processFiles tree "p" ⟨["a.toml", "b.toml", "a.toml"], none⟩ { db }
    (once.db.store.dataIn "p").map (·.name) = ["old", "other"] ∧
      (twice.db.store.dataIn "p").map (·.name) = ["other", "new"] := by
  decide +kernel

end Indexer

end SymbolAtlas
