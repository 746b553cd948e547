/-
  SymbolAtlas.Embedding: vectors for texts, of a fixed length, from a model that may fail.

  A text is cleaned before it is embedded: its words with single blanks between them, cut to a
  bounded length. A batch is embedded in chunks; when the model fails on one text, its whole chunk
  has zero vectors. Beside each function stands the list of texts that the model is given by it.
-/

import SymbolAtlas.Text.Blank
import SymbolAtlas.Text.Parts
import SymbolAtlas.Value.Basic

namespace SymbolAtlas

/-- A model of language. -/
structure Model where
  name : String
  /-- the vector of a text; none when the model fails on it -/
  embed : String → Option (List Value)
  /-- number of vectors in the vocabulary; none when it has no table of vectors -/
  vectors : Option Nat
  vocabulary : Nat
  pipeline : List String

namespace Embedding

/-- The length of all vectors. -/
def dimensions : Nat := 300

/-- The vector of a text that could not be embedded. -/
def zero : List Value := List.replicate dimensions (.float 0.0)

/-- Brings a vector to the fixed length: filled up with zeros or cut. -/
def fit (v : List Value) : List Value :=
  (v ++ List.replicate (dimensions - v.length) (Value.float 0.0)).take dimensions

/-! ## Cleaning -/

/-- The longest text that is kept whole. -/
def maxLength : Nat := 1000

/-- Cuts a text that is too long and marks the cut. -/
def cut (cs : List Char) : List Char :=
  if cs.length > maxLength then cs.take maxLength ++ ['.', '.', '.'] else cs

/-- Words with single blanks between them. -/
def joinWords : List (List Char) → List Char
  | [] => []
  | [w] => w
  | w :: ws => w ++ ' ' :: joinWords ws

/-- A text in the form in which it is embedded. -/
def clean (text : String) : String :=
  String.ofList (cut (joinWords (Text.wordLists text.toList)))

/-- The text that stands for a symbol. -/
def symbolText (kind name snippet : String) : String := kind ++ " " ++ name ++ " " ++ snippet

/-! ## Single texts -/

/-- The vector of a text as it is. -/
def single (m : Model) (text : String) : List Value :=
  match m.embed text with
  | some v => fit v
  | none => zero

/-- The vector of a symbol. -/
def ofSymbol (m : Model) (kind name snippet : String) : List Value :=
  single m (clean (symbolText kind name snippet))

/-! ## Batches -/

/-- The largest chunk. -/
def chunkSize : Nat := 50

/-- Cuts a list into chunks of `n + 1` items, the last one maybe shorter. -/
def chunksOf {α : Type} (n : Nat) (xs : List α) : List (List α) :=
  match xs with
  | [] => []
  | x :: rest => (x :: rest.take n) :: chunksOf n (rest.drop n)
  termination_by xs.length
  decreasing_by simp only [List.length_drop, List.length_cons]; omega

/-- The vectors of a chunk. An item that is no text makes the chunk fail. -/
def chunk (m : Model) (items : List (Option String)) : List (List Value) :=
  match items.mapM fun item => item.bind fun text => m.embed (clean text) with
  | some vs => vs.map fit
  | none => items.map fun _ => zero

/-- The vectors of a batch. -/
def batchItems (m : Model) (items : List (Option String)) : List (List Value) :=
  if items.length > chunkSize then (chunksOf (chunkSize - 1) items).flatMap (chunk m)
  else chunk m items

/-- The vectors of a batch of texts. -/
def batch (m : Model) (texts : List String) : List (List Value) := batchItems m (texts.map some)

/-! ## What the model is given -/

/-- Texts up to the first one on which the model fails. -/
def untilFailure (m : Model) : List String → List String
  | [] => []
  | t :: rest => t :: if (m.embed t).isSome then untilFailure m rest else []

/-- The texts that a chunk hands to the model: none when an item is no text. -/
def chunkSeen (m : Model) (items : List (Option String)) : List String :=
  match items.mapM fun item => item.map clean with
  | some texts => untilFailure m texts
  | none => []

/-- The texts that a batch hands to the model. -/
def batchItemsSeen (m : Model) (items : List (Option String)) : List String :=
  if items.length > chunkSize then (chunksOf (chunkSize - 1) items).flatMap (chunkSeen m)
  else chunkSeen m items

/-- The texts that a batch of texts hands to the model. -/
def batchSeen (m : Model) (texts : List String) : List String :=
  batchItemsSeen m (texts.map some)

/-! ## About the model -/

/-- Why there is no information or no vector. -/
inductive Failure where
  | notLoaded
  | noVectorTable
  | notInstalled (name : String)
  deriving DecidableEq, Repr

/-- The wording of a failure. -/
def Failure.message : Failure → String
  | .notLoaded => "SpaCy model not loaded"
  | .noVectorTable => "object of type 'NoneType' has no len()"
  | .notInstalled name => "no such model: " ++ name

/-- The name of the model that is loaded unless another one is asked for. -/
def defaultModel : String := "en_core_web_lg"

/-- Loads a model by its name if it is installed. -/
def load (installed : List String) (name : String) : Except Failure String :=
  if installed.contains name then .ok name else .error (.notInstalled name)

/-- What is known about the model. -/
def info : Option Model → Except Failure (List (String × Value))
  | none => .ok [("error", "Model not loaded")]
  | some m =>
    match m.vectors with
    | some n => .ok [("model_name", .text m.name), ("vector_dimensions", .ofNat n),
        ("vocab_size", .ofNat m.vocabulary), ("pipeline", .texts m.pipeline)]
    | none => .error .noVectorTable

end Embedding

end SymbolAtlas
