/-
  SymbolAtlas.Value.Basic: data whose shape is only known when it arrives.

  Arguments of requests, stored extra data and validated records are values. An object keeps its
  fields in the order in which they were put there.
-/

namespace SymbolAtlas

/-- A value of dynamic shape. -/
inductive Value where
  | null
  | bool (b : Bool)
  | int (n : Int)
  | float (x : Float)
  | text (s : String)
  | list (vs : List Value)
  | object (fields : List (String × Value))
  deriving Repr, Inhabited

namespace Value

instance : Coe String Value := ⟨.text⟩

/-- A text or null. -/
def ofText? : Option String → Value
  | some s => .text s
  | none => .null

/-- A natural number. -/
def ofNat (n : Nat) : Value := .int n

/-- A list of texts. -/
def texts (ss : List String) : Value := .list (ss.map .text)

/-- The last field with the name `k`. -/
def field? (k : String) (fields : List (String × Value)) : Option Value :=
  (fields.reverse.find? (·.1 == k)).map (·.2)

/-- Puts a field: in place of the field of that name, otherwise at the end. -/
def putField (k : String) (v : Value) : List (String × Value) → List (String × Value)
  | [] => [(k, v)]
  | (k', v') :: rest => if k' = k then (k, v) :: rest else (k', v') :: putField k v rest

/-- Fields put one after another. -/
def putFields (fields : List (String × Value)) : List (String × Value) :=
  fields.foldl (fun acc f => putField f.1 f.2 acc) []

/-- Whether a condition on the value holds: null, false, zero and everything empty fail it. -/
def truthy : Value → Bool
  | .null => false
  | .bool b => b
  | .int n => n != 0
  | .float x => !(x == 0.0)
  | .text s => s != ""
  | .list vs => !vs.isEmpty
  | .object fs => !fs.isEmpty

/-- Whether the value is null. -/
def isNull : Value → Bool
  | .null => true
  | _ => false

end Value

end SymbolAtlas
