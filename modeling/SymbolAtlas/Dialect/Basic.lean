/-
  SymbolAtlas.Dialect.Basic: the kinds of source text and what each of them can read.

  Three dialects stand for no language: `bare` knows nothing of its own, `catalog` knows the endings
  of all languages, and `code` also knows a dialect for most of them. They find nothing themselves.
-/

import SymbolAtlas.Dialect.DataFormat
import SymbolAtlas.Dialect.Declarations
import SymbolAtlas.Dialect.Extension
import SymbolAtlas.Dialect.Kinds
import SymbolAtlas.Dialect.Kotlin
import SymbolAtlas.Dialect.Markdown
import SymbolAtlas.Dialect.Shell

namespace SymbolAtlas

/-- A kind of source text. -/
inductive Dialect where
  | bare | catalog | code
  | python | swift | javascript | java | cpp | csharp | go | rust | kotlin
  | shell | json | markdown | yaml | toml
  | ruby | php | scala | lua | html | css | vue | solidity | zig | elixir | ocaml | elisp
  | systemrdl | tlaplus
  deriving DecidableEq, Repr, Inhabited

namespace Dialect

/-- The endings of file names that the dialect knows. -/
def extensions : Dialect → Extension.Table
  | .catalog | .code => Extension.catalog
  | .python => Extension.python
  | .swift => Extension.swift
  | .shell => Extension.shell
  | .json => Extension.json
  | .markdown => Extension.markdown
  | .yaml => Extension.yaml
  | .toml => Extension.toml
  | _ => []

/-- The language of a file, by its name. -/
def languageOf? (d : Dialect) (p : Path) : Option String := Extension.languageOf? d.extensions p

/-- The kinds of captures. -/
def captureKinds : Dialect → CaptureKinds
  | .python => .python
  | .swift => .swift
  | .shell => .shell
  | .json => .json
  | .markdown => .markdown
  | .yaml => .yaml
  | .toml => .toml
  | _ => .common

/-- The kind that a capture stands for. -/
def kindOf? (d : Dialect) (capture : String) : Option String := d.captureKinds.kindOf? capture

/-- Whether symbols of the dialect have relations worth looking for. -/
def hasRelations : Dialect → Bool
  | .shell | .json | .markdown | .yaml | .toml | .html | .css => false
  | _ => true

/-- Whether the dialect reads text itself. -/
def reads : Dialect → Bool
  | .bare | .catalog | .code => false
  | _ => true

/-- The line rules of a dialect that has them. -/
def lineRules? : Dialect → Option LineRules
  | .python => some Declarations.python
  | .swift => some Declarations.swift
  | .javascript => some Declarations.javascript
  | .java => some Declarations.java
  | .cpp => some Declarations.cpp
  | .csharp => some Declarations.csharp
  | .go => some Declarations.go
  | .rust => some Declarations.rust
  | _ => none

/-- The findings in the lines of a file. -/
def findSymbols (d : Dialect) (src : Source) (lines : List String) : List Finding :=
  match d.lineRules? with
  | some rules => rules.findSymbols src lines
  | none =>
    match d with
    | .kotlin => Kotlin.findSymbols src lines
    | .shell => Shell.findSymbols src lines
    | .json => JsonText.findSymbols src lines
    | .markdown => Markdown.findSymbols src lines
    | .yaml => (symbolsByRules YamlText.rules src lines).map .symbol
    | .toml => (symbolsByRules TomlText.rules src lines).map .symbol
    | _ => []

/-- The relations in a text whose symbols are known. -/
def findRelations (d : Dialect) (content : String) (symbols : List Outline) :
    Except MissingField Relations :=
  let lines := Text.lines content
  match d.lineRules? with
  | some rules => rules.findRelations symbols lines
  | none =>
    match d with
    | .kotlin => Kotlin.findRelations symbols lines
    | .shell => Shell.findRelations content symbols
    | .json => .ok (JsonText.findRelations lines)
    | .markdown => Markdown.findRelations symbols lines
    | _ => .ok {}

/-- The name in the text of a captured definition. -/
def definitionName (d : Dialect) (hash : TextHash) (capture text : String) : Option String :=
  match d with
  | .python => Declarations.pythonName.read text
  | .swift => Declarations.swiftName text
  | .javascript => Declarations.javascriptName.read text
  | .java => Declarations.javaName.read text
  | .cpp => Declarations.cppName.read text
  | .csharp => Declarations.csharpName.read text
  | .go => Declarations.goName.read text
  | .rust => Declarations.rustName.read text
  | .kotlin => some text
  | .shell => Shell.definitionName capture text
  | .json => JsonText.definitionName hash capture text
  | .markdown => some (Text.strip text)
  | .yaml | .toml => if text = "" then none else some text
  | _ => none

end Dialect

end SymbolAtlas
