/-
  SymbolAtlas.Dialect.Kinds: which kind of symbol the name of a capture stands for.
-/

import SymbolAtlas.Text.Parts

namespace SymbolAtlas

/-- The kinds that a dialect gives to captures. -/
structure CaptureKinds where
  /-- captures that are called like their kind -/
  alike : List String
  /-- captures with a kind of another name -/
  renamed : List (String × String)
  /-- whether `definition.x` has the kind `x` -/
  definitions : Bool
  deriving DecidableEq, Repr

namespace CaptureKinds

/-- The kind of a capture: what follows the first point of a definition, otherwise by the table. -/
def kindOf? (kinds : CaptureKinds) (capture : String) : Option String :=
  if kinds.definitions && Text.hasPrefix "definition." capture then
    (Text.splitAt '.' capture)[1]?
  else match kinds.renamed.find? (·.1 == capture) with
    | some (_, kind) => some kind
    | none => if kinds.alike.contains capture then some capture else none

/-- Kinds of definitions that most languages know. -/
def definitionKinds : List String :=
  ["function", "method", "class", "interface", "variable", "constant", "enum", "struct", "trait",
   "protocol", "module", "namespace", "property"]

/-- Kinds of members. -/
def memberKinds : List String :=
  ["initializer", "deinitializer", "subscript", "computed_property", "type_alias",
   "protocol_property", "protocol_method", "static_method", "convenience_initializer"]

/-- A bare name is taken for a variable. -/
def bareName : List (String × String) := [("name", "variable")]

def common : CaptureKinds := ⟨definitionKinds ++ memberKinds ++ ["identifier"], bareName, true⟩

def python : CaptureKinds := ⟨definitionKinds ++ ["identifier"], bareName, true⟩

def swift : CaptureKinds where
  alike := definitionKinds ++ memberKinds ++ ["identifier"]
  renamed :=
    [("class_name", "class"), ("struct_name", "struct"), ("enum_name", "enum"),
     ("actor_name", "actor"), ("extension_type_name", "extension"), ("protocol_name", "protocol"),
     ("function_name", "function"), ("initializer_name", "initializer"),
     ("deinitializer_name", "deinitializer"), ("property_name", "property"),
     ("subscript_param_name", "subscript"), ("type_alias_name", "type_alias"),
     ("attribute_name", "attribute")] ++ bareName
  definitions := true

/-- The captures of one kind. -/
def all (kind : String) (captures : List String) : List (String × String) :=
  captures.map fun c => (c, kind)

def shell : CaptureKinds where
  alike := ["number", "comment", "array", "subscript", "identifier", "regex"]
  renamed :=
    all "function" ["function.name", "function.full_name"] ++
    all "variable" ["variable.name", "command.env_var", "special_variable.name", "array.name",
      "variable.expansion", "expansion"] ++
    all "command" ["command.name", "command.substitution", "process.substitution", "unset.command",
      "declaration.command", "test.command", "pipeline", "list", "negated.command"] ++
    all "string" ["string.content", "string.raw", "raw.string", "translated.string",
      "ansi.string"] ++
    all "directive" ["shebang"] ++ all "argument" ["command.argument"] ++
    all "expression" ["arithmetic.expansion", "binary.expression", "unary.expression",
      "ternary.expression", "postfix.expression", "parenthesized.expression", "brace.expression",
      "concatenation"] ++
    all "redirect" ["file.redirect", "heredoc.redirect", "herestring.redirect"] ++
    all "statement" ["redirected.statement", "compound.statement", "subshell", "if.statement",
      "elif.clause", "else.clause", "for.statement", "c.for.statement", "while.statement",
      "case.statement", "case.item", "do.group"] ++
    all "descriptor" ["file.descriptor"] ++ all "operator" ["test.operator"] ++
    all "pattern" ["extglob.pattern"]
  definitions := false

def json : CaptureKinds where
  alike :=
    ["object", "array", "string", "number", "boolean", "null", "pair", "key", "value", "document",
     "literal", "comment", "escape_sequence", "string_content", "nested_object", "nested_array",
     "array_element", "empty_object", "empty_array", "single_element_array", "multi_element_array",
     "text_content", "numeric_value", "boolean_true", "boolean_false", "schema_property",
     "config_property", "string_list", "number_list", "object_list", "required_field",
     "optional_field", "metadata", "version_info", "object_key", "string_value", "boolean_value",
     "null_value", "root_object", "root_array", "root_string", "root_number", "root_boolean",
     "root_null"]
  renamed := bareName
  definitions := true

def markdown : CaptureKinds where
  alike :=
    ["heading", "list", "list_item", "code_block", "table", "blockquote", "paragraph", "inline",
     "thematic_break", "html_block", "link_reference", "metadata", "escape", "language",
     "block_continuation", "document", "section"]
  renamed := bareName
  definitions := true

def yaml : CaptureKinds where
  alike :=
    ["document", "mapping", "sequence", "scalar", "key", "value", "anchor", "alias", "tag",
     "comment", "directive"]
  renamed := bareName
  definitions := true

def toml : CaptureKinds where
  alike :=
    ["document", "table", "array_of_tables", "key_value", "key", "value", "string", "number",
     "boolean", "date_time", "array", "inline_table", "comment"]
  renamed := bareName
  definitions := true

end CaptureKinds

end SymbolAtlas
