/-
  SymbolAtlas.FileTree: files and directories.

  The entries of a directory are kept in the order of their names.
-/

import SymbolAtlas.Path

namespace SymbolAtlas

/-- A file or a directory. -/
inductive FileTree where
  | file (bytes : ByteArray)
  | dir (entries : List (String × FileTree))
  deriving Inhabited

namespace FileTree

/-- An empty directory. -/
def empty : FileTree := .dir []

/-- The entries of a directory; a file has none. -/
def entries : FileTree → List (String × FileTree)
  | .file _ => []
  | .dir es => es

/-- Whether this is a directory. -/
def isDir : FileTree → Bool
  | .file _ => false
  | .dir _ => true

/-- The bytes of a file. -/
def bytes? : FileTree → Option ByteArray
  | .file b => some b
  | .dir _ => none

/-- The entry of a name. -/
def named? (name : String) (es : List (String × FileTree)) : Option FileTree :=
  (es.find? (·.1 == name)).map (·.2)

/-- Puts an entry in its place. -/
def putEntry (name : String) (t : FileTree) : List (String × FileTree) → List (String × FileTree)
  | [] => [(name, t)]
  | (m, u) :: rest =>
    if name = m then (name, t) :: rest
    else if name < m then (name, t) :: (m, u) :: rest
    else (m, u) :: putEntry name t rest

/-- What stands at a place. -/
def get? (t : FileTree) : List String → Option FileTree
  | [] => some t
  | n :: rest => (named? n t.entries).bind fun u => u.get? rest

/-- Puts something at a place and makes the directories above it. None when a file is in the way. -/
def put? (t : FileTree) (names : List String) (new : FileTree) : Option FileTree :=
  match names, t with
  | [], _ => some new
  | _ :: _, .file _ => none
  | n :: rest, .dir es => do
    let below ← put? ((named? n es).getD empty) rest new
    return .dir (putEntry n below es)

/-- Removes what stands at a place. -/
def erase (t : FileTree) : List String → FileTree
  | [] => empty
  | [n] => match t with
    | .file _ => t
    | .dir es => .dir (es.filter (·.1 != n))
  | n :: rest => match t with
    | .file _ => t
    | .dir es => match named? n es with
      | some u => .dir (putEntry n (u.erase rest) es)
      | none => t

/-! ## Paths -/

/-- Names without double points. `above` are the names passed so far, last one first; only a
directory can be left upwards, and the tree itself cannot. -/
def resolveFrom (t : FileTree) (above : List String) : List String → Option (List String)
  | [] => some above.reverse
  | n :: rest =>
    if n = ".." then
      match above with
      | [] => none
      | _ :: up =>
        if ((t.get? above.reverse).map isDir).getD false then t.resolveFrom up rest else none
    else t.resolveFrom (n :: above) rest

/-- The place that a path names. A path from the root of the system names none. -/
def resolve? (t : FileTree) (p : Path) : Option (List String) :=
  if p.root = "" then t.resolveFrom [] p.names else none

/-- What a path names. -/
def find? (t : FileTree) (p : Path) : Option FileTree := (t.resolve? p).bind t.get?

/-- The bytes of the file that a path names. -/
def read? (t : FileTree) (p : Path) : Option ByteArray := (t.find? p).bind bytes?

/-- The bytes of the file at a path as it is written. What ends in a slash or a single point is a
directory and no file. -/
def readAt? (t : FileTree) (path : String) : Option ByteArray :=
  if ["", "."].contains ((Text.splitAt '/' path).getLastD "") then none else t.read? (.parse path)

/-! ## Walks -/

mutual

/-- Everything below a directory: its entries first, then the entries of each directory among them
in turn. -/
def walk (p : Path) : FileTree → List (Path × FileTree)
  | .file _ => []
  | .dir es => es.map (fun e => (p.child e.1, e.2)) ++ walkEntries p es

/-- Everything below some entries. -/
def walkEntries (p : Path) : List (String × FileTree) → List (Path × FileTree)
  | [] => []
  | (n, t) :: rest => t.walk (p.child n) ++ walkEntries p rest

end

/-- The files below a directory, in the order of a walk. -/
def filesBelow (p : Path) (t : FileTree) : List (Path × ByteArray) :=
  (t.walk p).filterMap fun (q, u) => u.bytes?.map fun b => (q, b)

end FileTree

end SymbolAtlas
