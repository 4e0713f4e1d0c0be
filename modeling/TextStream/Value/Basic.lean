import TextStream.Value.Members

/-!
# Trees of values

The value type that documents are read into: scalars, lists of values and
objects. Comparison follows IEEE 754 on numbers, so it is not an equivalence:
a NaN differs from itself and the two zeros are equal.
-/

namespace TextStream

inductive Value where
  | null
  | boolean (b : Bool)
  | number (x : Float)
  | string (s : String)
  | array (items : List Value)
  | object (members : List (String × Value))

inductive Kind where
  | null
  | boolean
  | number
  | string
  | array
  | object
deriving DecidableEq, Repr

def Kind.name : Kind → String
  | null => "null"
  | boolean => "boolean"
  | number => "number"
  | string => "string"
  | array => "array"
  | object => "object"

namespace Value

def kind : Value → Kind
  | null => .null
  | boolean _ => .boolean
  | number _ => .number
  | string _ => .string
  | array _ => .array
  | object _ => .object

def isNull (v : Value) : Bool := v.kind == .null

def isArray (v : Value) : Bool := v.kind == .array

def isObject (v : Value) : Bool := v.kind == .object

def isScalar (v : Value) : Bool := !v.isArray && !v.isObject

mutual
/-- Equality of trees with IEEE 754 equality at the numbers. -/
def beq : Value → Value → Bool
  | null, null => true
  | boolean a, boolean b => a == b
  | number x, number y => x == y
  | string s, string t => s == t
  | array xs, array ys => beqItems xs ys
  | object ms, object ns => beqMembers ms ns
  | _, _ => false

def beqItems : List Value → List Value → Bool
  | [], [] => true
  | x :: xs, y :: ys => beq x y && beqItems xs ys
  | _, _ => false

def beqMembers : List (String × Value) → List (String × Value) → Bool
  | [], [] => true
  | (k, x) :: xs, (l, y) :: ys => k == l && beq x y && beqMembers xs ys
  | _, _ => false
end

instance : BEq Value := ⟨beq⟩

end Value

end TextStream
