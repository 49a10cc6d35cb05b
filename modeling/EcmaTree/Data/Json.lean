import EcmaTree.Data.Value

/-!
# JSON documents

A document as a JSON library holds it after reading.  Of the numbers nothing is
assumed but that each of them can be asked for as a signed integer and as a
double, and that both requests may be in vain.  `Numeral` is one such type of
numbers.
-/

namespace EcmaTree

/-- A type of numbers that documents are made of. -/
class JsonNumber (ν : Type) where
  /-- The number as a signed integer, if it is one and fits. -/
  toInt64? : ν → Option Int64
  /-- The number as a double, if it can be had as one. -/
  toBinary64? : ν → Option Binary64

/-- A number that remembers how it was read. -/
inductive Numeral where
  | signed (i : Int64)
  | unsigned (n : UInt64)
  | double (x : Binary64)
  deriving DecidableEq, Repr

instance : JsonNumber Numeral where
  toInt64?
    | .signed i => some i
    | .unsigned n => if n.toNat ≤ Int64.maxValue.toInt then some n.toInt64 else none
    | .double _ => none
  toBinary64?
    | .signed i => some (Binary64.ofInt64 i)
    | .unsigned n => some (Binary64.ofNat n.toNat)
    | .double x => some x

/-- A JSON document with numbers of a given type. -/
inductive Json (ν : Type) where
  | null
  | bool (b : Bool)
  | number (n : ν)
  | text (s : String)
  | array (items : List (Json ν))
  | object (members : List (String × Json ν))
  deriving Inhabited, Repr

variable {ν : Type} [JsonNumber ν]

mutual

/-- The value of a document, in which numbers that fit are integers and all
others are doubles; what cannot be had as a double either is a NaN. -/
def Value.ofJson : Json ν → Value
  | .null => .null
  | .bool b => .bool b
  | .number n =>
    match JsonNumber.toInt64? n with
    | some i => .int i
    | none => .float ((JsonNumber.toBinary64? n).getD .nan)
  | .text s => .text s
  | .array items => .array (Value.ofJsonItems items)
  | .object members => .object (Value.ofJsonMembers members)

def Value.ofJsonItems : List (Json ν) → List Value
  | [] => []
  | j :: js => Value.ofJson j :: Value.ofJsonItems js

def Value.ofJsonMembers : List (String × Json ν) → List (String × Value)
  | [] => []
  | (name, j) :: rest => (name, Value.ofJson j) :: Value.ofJsonMembers rest

end

end EcmaTree
