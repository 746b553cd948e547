/-
  SymbolAtlas.Relation: how symbols relate to each other.

  The relations of a text are kept as one list of (owner, relation) in the order of their discovery;
  what belongs to an owner is read off by filtering.
-/

import SymbolAtlas.Value.Basic

namespace SymbolAtlas

/-- A relation that starts at its owner. -/
inductive Relation where
  /-- from the owner to a named target of a kind: calls, inherits, implements, has_value, ... -/
  | link (kind target targetKind : String) (line : Nat)
  /-- a link in a document -/
  | hyperlink (target text : String) (line : Nat)
  /-- a fenced block in a section, from its opening to its closing fence -/
  | codeBlock (first last : Nat)
  /-- a list item in a section -/
  | listItem (target : String) (line : Int)
  /-- between two names, filed under a category -/
  | edge (source target kind : String) (line : Nat)
  /-- a shell function is mentioned -/
  | shellCall (callee : String) (line : Nat)
  /-- a shell variable is expanded -/
  | shellUse (used : String) (line : Nat)
  /-- a shell script is read in -/
  | shellImport (imported : String) (line : Nat)
  deriving DecidableEq, Repr

namespace Relation

/-- The kind of a relation. -/
def kind : Relation → String
  | .link kind .. => kind
  | .hyperlink .. => "link"
  | .codeBlock .. => "contains_code_block"
  | .listItem .. => "contains_list_item"
  | .edge _ _ kind _ => kind
  | .shellCall .. => "function_call"
  | .shellUse .. => "variable_usage"
  | .shellImport .. => "source"

/-- The target of a relation that names it as its target. -/
def target? : Relation → Option String
  | .link _ target _ _ => some target
  | .hyperlink target _ _ => some target
  | .codeBlock first last => some s!"code_block_lines_{first}_{last}"
  | .listItem target _ => some target
  | _ => none

/-- The line of a relation that lies on one line. -/
def line? : Relation → Option Int
  | .link _ _ _ line | .hyperlink _ _ line | .edge _ _ _ line | .shellCall _ line
  | .shellUse _ line | .shellImport _ line => some line
  | .listItem _ line => some line
  | .codeBlock .. => none

/-- The attributes of a relation under their public names. -/
def fields : Relation → List (String × Value)
  | .link kind target targetKind line =>
    [("type", .text kind), ("target", .text target), ("target_type", .text targetKind),
     ("line", .ofNat line)]
  | .hyperlink target text line =>
    [("type", "link"), ("target", .text target), ("text", .text text), ("line", .ofNat line)]
  | .codeBlock first last =>
    [("type", "contains_code_block"), ("target", .text s!"code_block_lines_{first}_{last}"),
     ("line_start", .ofNat first), ("line_end", .ofNat last)]
  | .listItem target line =>
    [("type", "contains_list_item"), ("target", .text target), ("line", .int line)]
  | .edge source target kind line =>
    [("from", .text source), ("to", .text target), ("line", .ofNat line), ("type", .text kind)]
  | .shellCall callee line =>
    [("caller", "unknown"), ("callee", .text callee), ("line", .ofNat line),
     ("type", "function_call")]
  | .shellUse used line =>
    [("user", "unknown"), ("used", .text used), ("line", .ofNat line),
     ("type", "variable_usage")]
  | .shellImport imported line =>
    [("importer", "current_file"), ("imported", .text imported), ("line", .ofNat line),
     ("type", "source")]

end Relation

/-- The relations found in a text. -/
structure Relations where
  /-- owners that are listed even when they have no relation -/
  categories : List String := []
  /-- owner and relation, in the order of discovery -/
  entries : List (String × Relation) := []
  deriving DecidableEq, Repr

namespace Relations

/-- The relations of one owner. -/
def of (r : Relations) (owner : String) : List Relation :=
  (r.entries.filter (·.1 == owner)).map (·.2)

/-- All owners, in the order of their first appearance. -/
def owners (r : Relations) : List String := (r.categories ++ r.entries.map (·.1)).eraseDups

/-- Owner by owner. -/
def grouped (r : Relations) : List (String × List Relation) :=
  r.owners.map fun o => (o, r.of o)

/-- The grouped relations as an object. -/
def toValue (r : Relations) : Value :=
  .object (r.grouped.map fun g => (g.1, .list (g.2.map fun rel => .object rel.fields)))

end Relations

end SymbolAtlas
