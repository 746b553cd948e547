/-
  SymbolAtlas.Schema.Basic: descriptions of records, what can be wrong with one, and how one is
  printed.
-/

import SymbolAtlas.Text.Parts
import SymbolAtlas.Value.Display

namespace SymbolAtlas

/-- A fixed set of texts under a name. -/
structure Enumeration where
  name : String
  members : List String
  deriving DecidableEq, Repr

namespace Enumeration

/-- A member as messages show it. -/
def shown (e : Enumeration) (member : String) : String :=
  "<" ++ e.name ++ "." ++ member.toUpper ++ ": " ++ Display.quote member ++ ">"

/-- The member that a value is. -/
def member? (e : Enumeration) : Value → Option String
  | .text s => if e.members.contains s then some s else none
  | _ => none

/-- What is said of a value that is no member. -/
def refusal (e : Enumeration) (v : Value) : String :=
  Display.inner v ++ " is not a valid " ++ e.name

end Enumeration

/-- Whether a field must be given. -/
inductive Presence where
  | required
  /-- may be left out or null -/
  | optional
  /-- may be left out, but not null -/
  | default (v : Value)
  deriving Repr

/-- What a field may hold. -/
inductive FieldType where
  | text | int | float | bool
  | choice (e : Enumeration)
  /-- a member, or any text -/
  | choiceOrText (e : Enumeration)
  /-- whole numbers by name -/
  | counts
  /-- any values by name -/
  | data
  | list (item : FieldType)
  | record (name : String) (fields : List (String × Presence × FieldType))
  deriving Repr

/-- The fields of a record, in order. -/
abbrev Fields := List (String × Presence × FieldType)

/-- A kind of record. -/
structure Record where
  name : String
  fields : Fields
  deriving Repr

namespace Record

/-- The record as the type of a field. -/
def type (r : Record) : FieldType := .record r.name r.fields

end Record

namespace Schema

/-- A field that must be given. -/
def need (name : String) (type : FieldType) : String × Presence × FieldType :=
  (name, .required, type)

/-- A field that may be left out or null. -/
def may (name : String) (type : FieldType) : String × Presence × FieldType :=
  (name, .optional, type)

/-- A field that is `v` when it is left out. -/
def preset (name : String) (type : FieldType) (v : Value) : String × Presence × FieldType :=
  (name, .default v, type)

/-- What is wrong with a value. -/
inductive Cause where
  | missing | null | notText | notInt | notFloat | notBool
  | notMember (e : Enumeration)
  | notDict | notList
  /-- a record from pairs whose keys are not all texts -/
  | keysNotText
  /-- a record with a field of a name that is taken -/
  | reserved
  /-- a number that does not fit its type; it ends the check at once -/
  | overflow (text : String)
  deriving DecidableEq, Repr

namespace Cause

/-- What is said of a field of a name that is taken. -/
def reservedText : String :=
  "BaseModel.__init__() got multiple values for argument '__pydantic_self__'"

/-- The wording of a cause. -/
def message : Cause → String
  | .missing => "field required (type=value_error.missing)"
  | .null => "none is not an allowed value (type=type_error.none.not_allowed)"
  | .notText => "str type expected (type=type_error.str)"
  | .notInt => "value is not a valid integer (type=type_error.integer)"
  | .notFloat => "value is not a valid float (type=type_error.float)"
  | .notBool => "value could not be parsed to a boolean (type=type_error.bool)"
  | .notMember e =>
    "value is not a valid enumeration member; permitted: " ++
      Text.join ", " (e.members.map Display.quote) ++ " (type=type_error.enum; enum_values=[" ++
      Text.join ", " (e.members.map e.shown) ++ "])"
  | .notDict => "value is not a valid dict (type=type_error.dict)"
  | .notList => "value is not a valid list (type=type_error.list)"
  | .keysNotText => "keywords must be strings (type=type_error)"
  | .reserved => reservedText ++ " (type=type_error)"
  | .overflow text => text

end Cause

/-- A cause and where it arises. -/
structure Issue where
  path : List String
  cause : Cause
  deriving DecidableEq, Repr

/-- Why a record was refused. -/
inductive Refusal where
  | invalid (record : String) (issues : List Issue)
  | overflow (text : String)
  | reserved
  deriving DecidableEq, Repr

namespace Refusal

/-- One issue as two lines. -/
def issueText (i : Issue) : String := "\n" ++ Text.join " -> " i.path ++ "\n  " ++ i.cause.message

/-- The wording of a refusal. -/
def message : Refusal → String
  | .invalid record issues =>
    toString issues.length ++ " validation error" ++ (if issues.length = 1 then "" else "s") ++
      " for " ++ record ++ String.join (issues.map issueText)
  | .overflow text => text
  | .reserved => Cause.reservedText

end Refusal

end Schema

/-! ## Printed records -/

namespace Schema

mutual

/-- A field's value; a record inside another one shows its name. -/
def showValue : FieldType → Value → String
  | .record name fields, .object given =>
    name ++ "(" ++ Text.join ", " (showFields given fields) ++ ")"
  | .list t, .list vs => "[" ++ Text.join ", " (vs.map fun v => showValue t v) ++ "]"
  | .choice e, .text s => e.shown s
  | _, v => Display.inner v

/-- The fields of a record. -/
def showFields (given : List (String × Value)) : Fields → List String
  | [] => []
  | (name, _, t) :: rest =>
    (name ++ "=" ++ showValue t ((Value.field? name given).getD .null)) :: showFields given rest

end

end Schema

/-- A record on its own: its fields with blanks between them. -/
def Record.show (r : Record) (given : List (String × Value)) : String :=
  Text.join " " (Schema.showFields given r.fields)

end SymbolAtlas
