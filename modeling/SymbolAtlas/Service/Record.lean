/-
  SymbolAtlas.Service.Record: stored rows as records of answers.

  The kind of a symbol is looked at before the other fields of its record.
-/

import SymbolAtlas.Database.View
import SymbolAtlas.Service.Basic

namespace SymbolAtlas

namespace SymbolRow

/-- The fields of a symbol's record that are the same everywhere. -/
def recordFields (r : SymbolRow) (kind : Value) : List (String × Value) :=
  [("name", .text r.name), ("symbol_type", kind), ("language", .text r.language),
   ("file_path", .text r.file), ("line_start", r.first.toValue), ("line_end", r.last.toValue),
   ("code_snippet", .text r.snippet)]

/-- A symbol that was searched for, with what else is known of it. -/
def found (extra : List (String × Value)) (r : SymbolRow) : Answer Value := do
  let kind ← Answer.member Schema.symbolType r.kind
  Answer.record Schema.symbol
    ([("id", .int r.id), ("project_id", .text r.project)] ++ r.recordFields kind ++ extra)

/-- A symbol without its id and its project. -/
def described (r : SymbolRow) : Answer Value := do
  Answer.record Schema.symbol (r.recordFields (← Answer.member Schema.symbolType r.kind))

/-- The name, kind and place of a symbol as some record. -/
def placed (record : Record) (extra : List (String × Value)) (r : SymbolRow) : Answer Value := do
  let kind ← Answer.member Schema.symbolType r.kind
  Answer.record record
    ([("name", .text r.name), ("type", kind), ("file", .text r.file),
      ("line", r.first.toValue)] ++ extra)

/-- The name and place of a symbol as some record. -/
def named (record : Record) (r : SymbolRow) : Answer Value :=
  Answer.record record
    [("name", .text r.name), ("file", .text r.file), ("line", r.first.toValue)]

end SymbolRow

namespace Edge

/-- A relationship into a symbol: the record of its source, the record of its target and the record
that holds the two. -/
def recordInto (e : Edge) (source target both : Record) (sourceKey targetKey : String)
    (project : Option String) : Answer Value := do
  let from' ← e.source.placed source [("code", .text e.source.snippet)]
  let to' ← e.target.named target
  Answer.record both
    [(sourceKey, from'), (targetKey, to'),
     ("project_id", .text ((project.bind Store.filterOf).getD "all"))]

/-- A caller and what it calls. -/
def callerRecord (e : Edge) (project : Option String) : Answer Value :=
  e.recordInto Schema.caller Schema.function Schema.callerInfo "caller" "function" project

/-- An implementation and its interface. -/
def implementationRecord (e : Edge) (project : Option String) : Answer Value :=
  e.recordInto Schema.implementation Schema.interface Schema.implementationInfo
    "implementation" "interface" project

/-- The end that is told as related to a symbol: the source when the relationship starts at the
symbol, otherwise the target. -/
def related (e : Edge) (symbol : Cell) : SymbolRow :=
  if e.directionFrom symbol = "outgoing" then e.source else e.target

/-- A relationship of a symbol. -/
def relationshipRecord (e : Edge) (symbol : SymbolRow) : Answer Value := do
  let id := Cell.int symbol.id
  let self ← symbol.described
  let kind ← Answer.member Schema.relationshipType e.relation.kind
  let relationship ← Answer.record Schema.relationship
    [("type", kind), ("direction", .text (e.directionFrom id)),
     ("data", .ofText? e.relation.data)]
  let other ← (e.related id).placed Schema.relatedSymbol []
  Answer.record Schema.symbolRelationship
    [("symbol", self), ("relationship", relationship), ("related_symbol", other)]

end Edge

/-- A node of the dependency graph as a record, which asks for a line that nodes do not have. -/
def SymbolRow.nodeRecord (r : SymbolRow) : Answer Value := do
  let _ ← Answer.member Schema.symbolType r.kind
  .error (.missingKey "line")

namespace Indexer.Report

/-- The report as a record. -/
def fields (r : Report) : List (String × Value) :=
  [("success", .bool r.success), ("project_id", .text r.project),
   ("is_git_repo", .bool r.isRepository), ("current_commit_hash", .ofText? r.commit),
   ("current_branch", .ofText? r.branch), ("last_commit_hash", .ofText? r.lastCommit),
   ("last_branch", .ofText? r.lastBranch), ("processed_files", .ofNat r.processed),
   ("total_symbols_added", .ofNat r.added), ("errors", .texts r.errors),
   ("database_stats", (r.stats.getD .none).record), ("error", .ofText? r.error)]

end Indexer.Report

end SymbolAtlas
