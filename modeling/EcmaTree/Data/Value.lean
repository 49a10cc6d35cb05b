import EcmaTree.Number.Binary64

/-!
# Structured values

A value is a scalar, a list of values, or a list of named values.  Members keep
their order, and one name may occur several times.
-/

namespace EcmaTree

/-- A structured value held in memory. -/
inductive Value where
  | null
  | bool (b : Bool)
  | int (i : Int64)
  | float (x : Binary64)
  | text (s : String)
  | array (items : List Value)
  | object (members : List (String × Value))
  deriving Inhabited, Repr

namespace Value

mutual

/-- Equality of values in which numbers are compared numerically. -/
def eq : Value → Value → Bool
  | .null, .null => true
  | .bool a, .bool b => a == b
  | .int i, .int j => i == j
  | .float x, .float y => x.eq y
  | .text s, .text t => s == t
  | .array xs, .array ys => eqItems xs ys
  | .object xs, .object ys => eqMembers xs ys
  | _, _ => false

def eqItems : List Value → List Value → Bool
  | [], [] => true
  | x :: xs, y :: ys => x.eq y && eqItems xs ys
  | _, _ => false

def eqMembers : List (String × Value) → List (String × Value) → Bool
  | [], [] => true
  | (m, x) :: xs, (n, y) :: ys => m == n && x.eq y && eqMembers xs ys
  | _, _ => false

end

mutual

/-- The number of containers around the innermost place inside a value. -/
def depth : Value → Nat
  | .array items => depthItems items + 1
  | .object members => depthMembers members + 1
  | _ => 0

def depthItems : List Value → Nat
  | [] => 0
  | v :: vs => max v.depth (depthItems vs)

def depthMembers : List (String × Value) → Nat
  | [] => 0
  | (_, v) :: rest => max v.depth (depthMembers rest)

end

mutual

/-- A value with null in place of every infinity and every NaN. -/
def normalize : Value → Value
  | .float x => if x.isFinite then .float x else .null
  | .array items => .array (normalizeItems items)
  | .object members => .object (normalizeMembers members)
  | v => v

def normalizeItems : List Value → List Value
  | [] => []
  | v :: vs => v.normalize :: normalizeItems vs

def normalizeMembers : List (String × Value) → List (String × Value)
  | [] => []
  | (name, v) :: rest => (name, v.normalize) :: normalizeMembers rest

end

end Value

end EcmaTree
