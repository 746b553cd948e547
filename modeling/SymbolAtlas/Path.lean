/-
  SymbolAtlas.Path: paths of files and directories.

  A path is a root and the names below it. Empty names and single points are no names, so that equal
  places are written alike; double points stay.
-/

import SymbolAtlas.Text.Parts

namespace SymbolAtlas

/-- A path. The root is empty for a path that starts at the working directory. -/
structure Path where
  root : String
  names : List String
  deriving DecidableEq, Repr, Inhabited

namespace Path

/-- One leading slash, or more than two, are the root; exactly two are a root of their own. -/
def rootOf (s : String) : String :=
  match (s.toList.takeWhile (· == '/')).length with
  | 0 => ""
  | 2 => "//"
  | _ => "/"

/-- Reads a path. -/
def parse (s : String) : Path :=
  ⟨rootOf s, (Text.splitAt '/' s).filter fun p => p != "" && p != "."⟩

/-- Writes a path; the working directory is a single point. -/
def toString (p : Path) : String :=
  if p.root == "" && p.names.isEmpty then "." else p.root ++ Text.join "/" p.names

/-- A path below another one; a path with a root of its own stands for itself. -/
def append (p q : Path) : Path :=
  if q.root == "" then ⟨p.root, p.names ++ q.names⟩ else q

/-- The path of an entry of a directory. -/
def child (p : Path) (name : String) : Path := ⟨p.root, p.names ++ [name]⟩

/-- The root, if there is one, and the names. -/
def parts (p : Path) : List String := if p.root == "" then p.names else p.root :: p.names

/-- The last name. -/
def name (p : Path) : String := p.names.getLastD ""

/-- What a name ends with from its last point on. A point at either end begins no ending. -/
def endingOf (name : List Char) : List Char :=
  let tail := name.reverse.takeWhile (· != '.')
  if tail.isEmpty || tail.length + 1 ≥ name.length then [] else '.' :: tail.reverse

/-- The ending of the last name. -/
def suffix (p : Path) : String := String.ofList (endingOf p.name.toList)

/-- Names of directories and files that are made by tools. -/
def generatedNames : List String :=
  ["__pycache__", "node_modules", "build", "target", "bin", "obj", "Thumbs.db", "dist", "out",
   "coverage", "logs", "tmp", "temp"]

/-- Whether a path is passed over: one of its parts begins with a point or is made by tools. -/
def isHidden (p : Path) : Bool :=
  p.parts.any fun s => Text.hasPrefix "." s || generatedNames.contains s

end Path

end SymbolAtlas
