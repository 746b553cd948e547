/-
  SymbolAtlas.Scaffold: stubs for dialects that are still to be written.
-/

import SymbolAtlas.FileTree

namespace SymbolAtlas.Scaffold

/-- A stub: the name of its file, of its class, and of the language. -/
structure Stub where
  file : String
  label : String
  language : String
  deriving DecidableEq, Repr

/-- All stubs, in the order in which they are written. -/
def stubs : List Stub :=
  [⟨"csharp", "CSharpParser", "C#"⟩, ⟨"go", "GoParser", "Go"⟩, ⟨"rust", "RustParser", "Rust"⟩,
   ⟨"ruby", "RubyParser", "Ruby"⟩, ⟨"php", "PhpParser", "PHP"⟩,
   ⟨"kotlin", "KotlinParser", "Kotlin"⟩, ⟨"scala", "ScalaParser", "Scala"⟩,
   ⟨"lua", "LuaParser", "Lua"⟩, ⟨"html", "HtmlParser", "HTML"⟩, ⟨"css", "CssParser", "CSS"⟩,
   ⟨"vue", "VueParser", "Vue"⟩, ⟨"solidity", "SolidityParser", "Solidity"⟩,
   ⟨"zig", "ZigParser", "Zig"⟩, ⟨"elixir", "ElixirParser", "Elixir"⟩,
   ⟨"ocaml", "OcamlParser", "OCaml"⟩, ⟨"elisp", "ElispParser", "Elisp"⟩,
   ⟨"systemrdl", "SystemRdlParser", "SystemRDL"⟩, ⟨"tlaplus", "TlaplusParser", "TLA+"⟩]

namespace Stub

/-- One method: its header, what its comment tells, what is still to be written, and what it
returns. -/
def method (header about todo result : String) : String :=
  "\n    def " ++ header ++ "\n        \"\"\"" ++ about ++ "\"\"\"\n        # TODO: Implement " ++
    todo ++ "\n        return " ++ result ++ "\n"

/-- The text of a stub. -/
def text (s : Stub) : String :=
  "from typing import List, Dict, Optional\nfrom .base_parser import BaseParser\n\nclass " ++
  s.label ++ "(BaseParser):\n    \"\"\"" ++ s.language ++
  "-specific parser for extracting symbols and relationships.\"\"\"\n" ++
  method ("extract_symbols_regex(self, lines: List[str], file_path: str, language: str) " ++
      "-> List[Dict]:")
    ("Extract " ++ s.language ++ " symbols using regex patterns.")
    (s.language ++ "-specific symbol extraction") "[]" ++
  method ("extract_relationships(self, content: str, symbols: List[Dict]) " ++
      "-> Dict[str, List[Dict]]:")
    ("Extract " ++ s.language ++ " relationships using regex patterns.")
    (s.language ++ "-specific relationship extraction") "\x7b\x7d" ++
  method ("extract_symbol_name_from_definition(self, name: str, capture_name: str) " ++
      "-> Optional[str]:")
    ("Extract symbol name from " ++ s.language ++ " definition.")
    (s.language ++ "-specific name extraction") "None"

/-- Where a stub is written. -/
def place (s : Stub) : List String := ["parsers", s.file ++ "_parser.py"]

end Stub

/-- Why the stubs could not all be written. -/
inductive Failure where
  | fileInTheWay
  | directoryInTheWay
  deriving DecidableEq, Repr

/-- Writes stubs one after another, as far as no directory is in the way. -/
def writeStubs (t : FileTree) : List Stub → FileTree × Option Failure
  | [] => (t, none)
  | s :: rest =>
    if ((t.get? s.place).map (·.isDir)).getD false then (t, some .directoryInTheWay)
    else match t.put? s.place (.file s.text.toUTF8) with
      | some t' => writeStubs t' rest
      | none => (t, some .fileInTheWay)

/-- Writes all stubs. -/
def generate (t : FileTree) : FileTree × Option Failure :=
  match t.get? ["parsers"] with
  | some (.file _) => (t, some .fileInTheWay)
  | _ => writeStubs t stubs

/-- What is printed in the end. -/
def done : String := "All parser stubs generated!\n"

end SymbolAtlas.Scaffold
