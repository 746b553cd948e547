/-
  SymbolAtlas.Proofs.Actions: whatever is done to a database that was empty.

  Operations come in any order with runs over directories, each run with an analyzer and a model of
  its own. The databases that are reached have no faults, and their tables hold no two rows that
  exclude each other (`regular_reached`): each operation and each work of a run keeps it so.
-/

import Mathlib.Data.List.Induction
import SymbolAtlas.Proofs.Arrows
import SymbolAtlas.Proofs.Embedded

namespace SymbolAtlas

namespace Store

variable {st : Store}

/-- A store whose symbols and relationships are consistent, with its embeddings in the order of
their ids. -/
structure Tidy (st : Store) : Prop where
  keyed : st.Keyed
  embeddingIds : st.embeddings.Pairwise (·.id < ·.id)

theorem tidy_empty : Tidy {} := ⟨keyed_empty, List.Pairwise.nil⟩

/-! ## Embeddings in order -/

theorem embeddingIds_insertEmbedded (h : st.embeddings.Pairwise (·.id < ·.id)) (d : SymbolData)
    (vector : Option Value) :
    (st.insertEmbedded d vector).embeddings.Pairwise (·.id < ·.id) := by
  cases vector with
  | none => exact h
  | some v => exact pairwise_putRow h _

theorem embeddingIds_insertAllEmbedded (h : st.embeddings.Pairwise (·.id < ·.id))
    (items : List (SymbolData × Option Value)) :
    (st.insertAllEmbedded items).embeddings.Pairwise (·.id < ·.id) := by
  induction items generalizing st with
  | nil => exact h
  | cons item rest ih => exact ih (embeddingIds_insertEmbedded h item.1 item.2)

/-! ## Writes to tidy tables -/

theorem Tidy.removeSymbols (h : st.Tidy) (pick : SymbolRow → Bool) :
    (st.removeSymbols pick).Tidy :=
  ⟨Consistent.removeSymbols h.keyed pick, h.embeddingIds.sublist List.filter_sublist⟩

theorem Tidy.removeAtOnce (h : st.Tidy) (pick : SymbolRow → Bool) :
    (st.removeAtOnce pick).Tidy := by
  rcases st.removeAtOnce_cases pick with heq | heq
  · rw [heq]
    exact h.removeSymbols pick
  · rw [heq]
    exact h

/-- One write. -/
theorem Tidy.write (h : st.Tidy) (w : Write) : (st.write w).Tidy := by
  cases w with
  | putSymbol d => exact ⟨Consistent.insertSymbol h.keyed d, h.embeddingIds⟩
  | putRelation d => exact ⟨Consistent.insertRelation h.keyed d, h.embeddingIds⟩
  | putEmbedding id vector => exact ⟨h.keyed, pairwise_putRow h.embeddingIds _⟩
  | removeFile file project => exact h.removeAtOnce _
  | removeProject project => exact h.removeAtOnce _
  | removeRelations symbol project =>
      exact ⟨Consistent.removeRelations h.keyed symbol project, h.embeddingIds⟩
  | nothing => exact h
  | putProject d => exact ⟨h.keyed, h.embeddingIds⟩
  | noteScan project commit branch => exact ⟨h.keyed, h.embeddingIds⟩

end Store

/-- Something that is done to a database. -/
inductive Action where
  | operation (op : Database.Operation)
  /-- a directory is indexed -/
  | index (a : Analyzer) (model : Option Model) (v : Visit)

namespace Database

variable {db : Database}

/-- The database after an action. -/
def act (db : Database) : Action → Database
  | .operation op => db.perform op
  | .index a model v => (Indexer.ofAnalyzer a model).visit db v

/-- The database that actions lead to, from an empty one on. -/
def reached (actions : List Action) : Database := actions.foldl act {}

theorem reached_concat (actions : List Action) (action : Action) :
    reached (actions ++ [action]) = (reached actions).act action := by
  rw [reached, List.foldl_append]
  rfl

theorem reached_operations (ops : List Operation) :
    reached (ops.map .operation) = performAll {} ops := by
  rw [reached, List.foldl_map]
  rfl

/-- A database without faults whose tables are tidy. -/
structure Regular (db : Database) : Prop where
  eq_intact : db = intact db.store
  tidy : db.store.Tidy

theorem regular_empty : Regular {} := ⟨rfl, Store.tidy_empty⟩

theorem Regular.sound (h : db.Regular) : db.Sound := by
  rw [h.eq_intact]
  exact ⟨rfl, rfl, h.tidy.keyed.shared_eq, fun _ _ => Iff.rfl, id⟩

theorem Regular.perform (h : db.Regular) (op : Operation) : (db.perform op).Regular := by
  rw [h.eq_intact, perform_intact]
  exact ⟨rfl, h.tidy.write op.write⟩

theorem Regular.withProjects (h : db.Regular) (projects : List ProjectRow) :
    (db.withProjects projects).Regular := by
  refine ⟨?_, h.tidy.keyed, h.tidy.embeddingIds⟩
  rw [Database.withProjects, h.eq_intact]
  rfl

end Database

namespace Indexer

variable {x : Indexer} {db : Database} {w : Work}

/-- The work on a file in a regular database, up to its relationships: the file has too many symbols
and nothing changes, or it is cleared and what is found in it is stored. -/
theorem outcome_regular (hx : x.Lawful) (h : w.before.Regular) :
    (¬ w.before.Fits w.project w.path ∧ (x.outcome w).db = w.before) ∨
      w.before.Fits w.project w.path ∧ ∃ relations, (x.outcome w).db
        = .intact { (w.before.store.removeFile w.path w.project).insertAllEmbedded
            (x.embedded w.project w.path w.file) with relations } := by
  by_cases hfits : w.before.Fits w.project w.path
  · refine .inr ⟨hfits, ?_⟩
    rw [h.eq_intact] at hfits
    rw [outcome, h.eq_intact]
    exact indexFile_intact hx hfits w.language w.file
  · refine .inl ⟨hfits, ?_⟩
    rw [outcome, indexFile_crowded h.sound.clearable hfits]

theorem regular_outcome (hx : x.Lawful) (h : w.before.Regular) : (x.outcome w).db.Regular := by
  rcases outcome_regular hx h with ⟨-, hsame⟩ | ⟨-, relations, hdb⟩
  · rw [hsame]
    exact h
  · have hkeyed : (x.outcome w).db.store.Keyed := keyed_indexFile hx h.tidy.keyed _ _ _ _
    rw [hdb] at hkeyed ⊢
    refine ⟨rfl, hkeyed, ?_⟩
    exact Store.embeddingIds_insertAllEmbedded (h.tidy.removeSymbols _).embeddingIds _

/-- A run keeps a database regular, at each of its works and after it. -/
theorem regular_visit (hx : x.Lawful) (h : db.Regular) (v : Visit) :
    (∀ w ∈ x.works v db, w.before.Regular) ∧ (x.visit db v).Regular :=
  visit_induction (fun _ projects h => h.withProjects projects) h
    fun _ _ hw => regular_outcome hx hw

end Indexer

namespace Database

/-- Whatever is done to a database that was empty, it is regular. -/
theorem regular_reached (actions : List Action) : (reached actions).Regular := by
  induction actions using List.reverseRecOn with
  | nil => exact regular_empty
  | append_singleton done action ih =>
      rw [reached_concat]
      cases action with
      | operation op => exact ih.perform op
      | index a model v =>
          exact (Indexer.regular_visit (Indexer.ofAnalyzer_lawful a model) ih v).2

end Database

end SymbolAtlas
