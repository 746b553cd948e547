/-
  SymbolAtlas.Repository.Ignore: files that a repository passes over.

  Every directory may hold a list of rules for what lies below it. The last rule of the deepest
  list that covers a path decides, and what lies in an ignored directory is ignored whatever other
  rules say.
-/

import SymbolAtlas.FileTree
import SymbolAtlas.Repository.Glob

namespace SymbolAtlas

/-- A rule of an ignore list. -/
structure IgnoreRule where
  /-- whether the rule lets a path in again -/
  negated : Bool
  directoriesOnly : Bool
  /-- whether only the last name is looked at -/
  byName : Bool
  glob : Glob
  deriving DecidableEq, Repr

namespace IgnoreRule

/-- Bytes as characters; paths are compared byte by byte. -/
def bytesOf (b : ByteArray) : List Char := b.toList.map fun b => Char.ofNat b.toNat

/-- Drops trailing spaces, up to one after a backslash; the line is given last character first. -/
def dropSpaces : List Char → List Char
  | ' ' :: '\\' :: rest => ' ' :: '\\' :: rest
  | ' ' :: rest => dropSpaces rest
  | cs => cs

/-- A line without its line end and its trailing spaces. -/
def content (line : List Char) : List Char :=
  let back := line.reverse
  (dropSpaces (match back with | '\r' :: rest => rest | _ => back)).reverse

/-- The rule of a pattern that does not begin with an exclamation mark. -/
def ofPattern (negated : Bool) (pattern : List Char) : IgnoreRule :=
  let directoriesOnly := pattern.getLast? == some '/'
  let body := if directoriesOnly then pattern.dropLast else pattern
  { negated, directoriesOnly
    byName := !body.contains '/'
    glob := Glob.read (match body with | '/' :: rest => rest | _ => body) }

/-- The rule of a line; blank lines and comments have none. -/
def ofLine? (line : List Char) : Option IgnoreRule :=
  match content line with
  | [] | '#' :: _ => none
  | '!' :: pattern => if pattern.isEmpty then none else some (ofPattern true pattern)
  | pattern => some (ofPattern false pattern)

/-- The rules of an ignore list. -/
def ofBytes (bytes : ByteArray) : List IgnoreRule :=
  let cs := match bytesOf bytes with | '\xef' :: '\xbb' :: '\xbf' :: rest => rest | cs => cs
  (Text.splitChar '\n' cs).filterMap ofLine?

/-- Whether the rule covers a path below the directory of its list. -/
def covers (r : IgnoreRule) (names : List String) (isDir : Bool) : Bool :=
  (isDir || !r.directoriesOnly) &&
    r.glob.covers (bytesOf (if r.byName then names.getLastD "" else Text.join "/" names).toUTF8)

end IgnoreRule

/-- The rules of a directory, which stands `depth` names below the working tree. -/
structure IgnoreList where
  depth : Nat
  rules : List IgnoreRule

namespace IgnoreList

/-- The name of the file that holds the rules. -/
def fileName : String := ".gitignore"

/-- The name of the directory in which a repository keeps its own data. -/
def repositoryName : String := ".git"

/-- The list of a directory. -/
def ofEntries (depth : Nat) (es : List (String × FileTree)) : IgnoreList :=
  let bytes := (FileTree.named? fileName es).bind FileTree.bytes?
  ⟨depth, IgnoreRule.ofBytes (bytes.getD ByteArray.empty)⟩

/-- What a list decides on a path: true to ignore it. -/
def verdict? (l : IgnoreList) (names : List String) (isDir : Bool) : Option Bool :=
  (l.rules.reverse.find? fun r => r.covers (names.drop l.depth) isDir).map fun r => !r.negated

/-- Whether a path is ignored; the lists are given deepest first. -/
def ignores (lists : List IgnoreList) (names : List String) (isDir : Bool) : Bool :=
  (lists.findSome? fun l => l.verdict? names isDir).getD false

end IgnoreList

namespace FileTree

mutual

/-- The files that are not ignored, with their names below the working tree. -/
def unignored (lists : List IgnoreList) (names : List String) :
    FileTree → List (List String × ByteArray)
  | .file b => [(names, b)]
  | .dir es => unignoredEntries (IgnoreList.ofEntries names.length es :: lists) names es

/-- The files below some entries that are not ignored. -/
def unignoredEntries (lists : List IgnoreList) (names : List String) :
    List (String × FileTree) → List (List String × ByteArray)
  | [] => []
  | (n, t) :: rest =>
    let here := names ++ [n]
    let below :=
      if n = IgnoreList.repositoryName || IgnoreList.ignores lists here t.isDir then []
      else t.unignored lists here
    below ++ unignoredEntries lists names rest

end

end FileTree

end SymbolAtlas
