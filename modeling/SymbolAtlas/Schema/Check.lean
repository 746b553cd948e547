/-
  SymbolAtlas.Schema.Check: building a record from given fields.

  All issues are gathered, in the order of the declared fields. Unknown fields are ignored.
-/

import SymbolAtlas.Schema.Convert

namespace SymbolAtlas

namespace Schema

/-! ## Pairs -/

/-- The two items of a value that is read as a pair. -/
def pair? : Value → Option (Value × Value)
  | .list [a, b] => some (a, b)
  | .text s =>
    match s.toList with
    | [a, b] => some (.text (String.singleton a), .text (String.singleton b))
    | _ => none
  | .object [(a, _), (b, _)] => some (.text a, .text b)
  | _ => none

/-- Whether a value can be a key. -/
def isKey : Value → Bool
  | .list _ | .object _ => false
  | _ => true

/-- Whether two keys are the same; numbers and truth values are compared as numbers. -/
def sameKey : Value → Value → Bool
  | .text a, .text b => a == b
  | .null, .null => true
  | .int a, .int b => a == b
  | .bool a, .bool b => a == b
  | .int a, .bool b | .bool b, .int a => a == if b then 1 else 0
  | .float a, .float b => a == b
  | .float a, .int b | .int b, .float a =>
    match Binary.ofFloat? a with
    | some (negative, x) => x.fraction.1 % x.fraction.2 == 0 && wholePart negative x == b
    | none => false
  | .float a, .bool b | .bool b, .float a => a == if b then 1.0 else 0.0
  | _, _ => false

/-- Puts a pair: a key that is there keeps its place. -/
def putPair (k v : Value) : List (Value × Value) → List (Value × Value)
  | [] => [(k, v)]
  | (k', v') :: rest => if sameKey k' k then (k', v) :: rest else (k', v') :: putPair k v rest

/-- A value as pairs of key and value: an object, or a list of pairs, or nothing at all. -/
def pairs? : Value → Option (List (Value × Value))
  | .object fs => some (fs.map fun f => (.text f.1, f.2))
  | .text s => if s = "" then some [] else none
  | .list vs => do
    let ps ← vs.mapM pair?
    if ps.all fun p => isKey p.1 then some (ps.foldl (fun acc p => putPair p.1 p.2 acc) [])
    else none
  | _ => none

/-- The name that no field of a record may have. -/
def reservedName : String := "__pydantic_self__"

/-- Whether a field has the reserved name. -/
def usesReserved (given : List (String × Value)) : Bool := given.any fun f => f.1 == reservedName

/-- A value as named fields. -/
def named (v : Value) : Except Cause (List (String × Value)) :=
  match pairs? v with
  | none => .error .notDict
  | some ps =>
    match ps.mapM fun p => match p.1 with | .text k => some (k, p.2) | _ => none with
    | some fs => if usesReserved fs then .error .reserved else .ok fs
    | none => .error .keysNotText

/-! ## Results -/

/-- Issues, or a result when there are none. -/
abbrev Checked (α : Type) := Except (List Issue) α

/-- One issue at a place. -/
def issue {α : Type} (path : List String) (c : Cause) : Checked α := .error [⟨path, c⟩]

/-- A conversion at a place. -/
def asValue {α : Type} (path : List String) (wrap : α → Value) : Except Cause α → Checked Value
  | .ok a => .ok (wrap a)
  | .error c => issue path c

/-- Two results one after another; the issues of both are gathered. -/
def both {α β : Type} : Checked α → Checked β → Checked (α × β)
  | .ok a, .ok b => .ok (a, b)
  | .ok _, .error e => .error e
  | .error e, .ok _ => .error e
  | .error e, .error e' => .error (e ++ e')

/-- A list of results; all issues are gathered. -/
def gather {α : Type} : List (Checked α) → Checked (List α)
  | [] => .ok []
  | c :: cs => (both c (gather cs)).map fun p => p.1 :: p.2

/-! ## Dictionaries -/

/-- A key as a text. -/
def keyText (path : List String) (k : Value) : Checked String :=
  if k.isNull then issue (path ++ ["__key__"]) .null
  else match toText k with
    | .ok s => .ok s
    | .error c => issue (path ++ ["__key__"]) c

/-- A count under its key. -/
def countEntry (path : List String) (entry : Value × Value) : Checked (String × Value) := do
  let k ← keyText path entry.1
  let here := path ++ [Display.plain entry.1]
  let v ← if entry.2.isNull then issue here .null else asValue here .int (toInt entry.2)
  return (k, v)

/-- Any value under its key. -/
def dataEntry (path : List String) (entry : Value × Value) : Checked (String × Value) := do
  return (← keyText path entry.1, entry.2)

/-- A dictionary whose entries are checked one by one. -/
def dictionary (path : List String) (entry : Value × Value → Checked (String × Value))
    (v : Value) : Checked Value :=
  match pairs? v with
  | none => issue path .notDict
  | some ps => (gather (ps.map entry)).map fun fs => .object (Value.putFields fs)

/-! ## Fields and records -/

mutual

/-- Checks a value that is not null. -/
def checkValue (path : List String) : FieldType → Value → Checked Value
  | .text, v => asValue path .text (toText v)
  | .int, v => asValue path .int (toInt v)
  | .float, v => asValue path .float (toFloat v)
  | .bool, v => asValue path .bool (toBool v)
  | .choice e, v =>
    match e.member? v with
    | some s => .ok (.text s)
    | none => issue path (.notMember e)
  | .choiceOrText e, v =>
    match e.member? v, toText v with
    | some s, _ => .ok (.text s)
    | none, .ok s => .ok (.text s)
    | none, .error c => .error [⟨path, .notMember e⟩, ⟨path, c⟩]
  | .counts, v => dictionary path (countEntry path) v
  | .data, v => dictionary path (dataEntry path) v
  | .list t, .list vs =>
    (gather ((vs.zipIdx).map fun (item, i) =>
      let here := path ++ [toString i]
      if item.isNull then issue here .null else checkValue here t item)).map .list
  | .list _, _ => issue path .notList
  | .record _ fields, v =>
    match named v with
    | .error c => issue path c
    | .ok given => (checkFields path given fields).map .object

/-- Checks the given fields against the declared ones. -/
def checkFields (path : List String) (given : List (String × Value)) :
    Fields → Checked (List (String × Value))
  | [] => .ok []
  | (name, presence, t) :: rest =>
    let here := path ++ [name]
    let value : Checked Value :=
      match Value.field? name given, presence with
      | none, .required => issue here .missing
      | none, .optional => .ok .null
      | none, .default v => .ok v
      | some .null, .optional => .ok .null
      | some .null, _ => issue here .null
      | some v, _ => checkValue here t v
    (both value (checkFields path given rest)).map fun p => (name, p.1) :: p.2

end

/-- A number that does not fit ends the check at once. -/
def overflow? (issues : List Issue) : Option String :=
  issues.findSome? fun i => match i.cause with
    | .overflow text => some text
    | _ => none

end Schema

/-- Builds a record from given fields. -/
def Record.build (r : Record) (given : List (String × Value)) :
    Except Schema.Refusal (List (String × Value)) :=
  if Schema.usesReserved given then .error .reserved
  else
    match Schema.checkFields [] given r.fields with
    | .ok fields => .ok fields
    | .error issues =>
      match Schema.overflow? issues with
      | some text => .error (.overflow text)
      | none => .error (.invalid r.name issues)

end SymbolAtlas
