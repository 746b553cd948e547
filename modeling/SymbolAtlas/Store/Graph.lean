/-
  SymbolAtlas.Store.Graph: relationships between stored symbols.

  A relationship one of whose ends is not stored does not show.
-/

import SymbolAtlas.Store.Basic

namespace SymbolAtlas

/-- A relationship with its two ends. -/
structure Edge where
  relation : RelationRow
  source : SymbolRow
  target : SymbolRow
  deriving DecidableEq, Repr

/-- Which end of a relationship a symbol is. -/
inductive Direction where
  | outgoing | incoming | both
  deriving DecidableEq, Repr

namespace Direction

/-- The direction of a name. -/
def ofName? : String → Option Direction
  | "outgoing" => some .outgoing
  | "incoming" => some .incoming
  | "both" => some .both
  | _ => none

/-- The name of a direction. -/
def name : Direction → String
  | .outgoing => "outgoing"
  | .incoming => "incoming"
  | .both => "both"

/-- Whether a relationship has the symbol at this end. -/
def picks (d : Direction) (symbol : Cell) (r : RelationRow) : Bool :=
  match d with
  | .outgoing => r.source == symbol
  | .incoming => r.target == symbol
  | .both => r.source == symbol || r.target == symbol

end Direction

namespace Store

/-- The symbol of an id. -/
def symbol? (st : Store) (id : Cell) : Option SymbolRow :=
  st.symbols.find? fun r => Cell.int r.id == id

/-- A relationship with its ends, if both are stored. -/
def edge? (st : Store) (r : RelationRow) : Option Edge := do
  return ⟨r, ← st.symbol? r.source, ← st.symbol? r.target⟩

/-- All relationships whose ends are stored. -/
def edges (st : Store) : List Edge := st.relations.filterMap st.edge?

/-! ## One symbol -/

/-- The order of relationships: by kind, by the names of the ends, by id. -/
def edgeKey (e : Edge) : List Cell :=
  [.text e.relation.kind, .text e.source.name, .text e.target.name, .int e.relation.id]

/-- The relationships of a symbol. -/
def relationsOf (st : Store) (symbol : Cell) (kind : Option String) (direction : Direction)
    (project : Option String) : List Edge :=
  sortByKey edgeKey (st.edges.filter fun e =>
    direction.picks symbol e.relation && passes kind e.relation.kind &&
      passes project e.relation.project)

/-! ## Callers and implementations -/

/-- The ids of symbols of some kinds by name. -/
def idsNamed (st : Store) (name : String) (kinds : List String) (project : Option String) :
    List Int :=
  (st.symbols.filter fun r => r.name == name && kinds.contains r.kind &&
    passes project r.project).map (·.id)

/-- The order of callers: by place, by id, then by the place of the other end. -/
def callerKey (e : Edge) : List Cell :=
  [.text e.source.file, e.source.first, .int e.source.id, .text e.target.file, e.target.first]

/-- The relationships of some kinds that end at one of the ids. -/
def edgesInto (st : Store) (ids : List Int) (kinds : List String) (project : Option String) :
    List Edge :=
  sortByKey callerKey (st.edges.filter fun e =>
    ids.contains e.target.id && kinds.contains e.relation.kind &&
      passes project e.relation.project)

/-- Kinds of symbols that are called. -/
def callableKinds : List String := ["function", "method"]

/-- Kinds of symbols that are implemented. -/
def abstractKinds : List String := ["interface", "protocol", "class"]

/-- Kinds of relationships from an implementation. -/
def implementingKinds : List String := ["implements", "extends", "inherits"]

/-- The callers of the functions of a name. -/
def callers (st : Store) (name : String) (project : Option String) : List Edge :=
  st.edgesInto (st.idsNamed name callableKinds project) ["calls"] project

/-- The implementations of the interfaces of a name. -/
def implementations (st : Store) (name : String) (project : Option String) : List Edge :=
  st.edgesInto (st.idsNamed name abstractKinds project) implementingKinds project

/-! ## The dependency graph -/

/-- What a symbol is called in the graph. -/
def nodeName (r : SymbolRow) : String := r.file ++ ":" ++ r.name

/-- The order of the graph's edges. -/
def graphKey (project : Option String) (e : Edge) : List Cell :=
  [.text e.relation.kind, .text e.source.name, .text e.target.name] ++
    if project.isSome then [.int e.source.id, .int e.target.id] else [.int e.relation.id]

/-- The edges of the graph. -/
def graphEdges (st : Store) (project : Option String) : List Edge :=
  sortByKey (graphKey project) (st.edges.filter fun e => passes project e.relation.project)

/-- Keeps the first symbol of each name. -/
def distinctNodes : List SymbolRow → List SymbolRow → List SymbolRow
  | seen, [] => seen
  | seen, r :: rest =>
    if seen.any fun s => nodeName s == nodeName r then distinctNodes seen rest
    else distinctNodes (seen ++ [r]) rest

/-- The nodes of the graph, in the order in which the edges reach them. -/
def graphNodes (st : Store) (project : Option String) : List SymbolRow :=
  distinctNodes [] ((st.graphEdges project).flatMap fun e => [e.source, e.target])

end Store

end SymbolAtlas
