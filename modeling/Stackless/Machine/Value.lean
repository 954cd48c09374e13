import Stackless.Number.Basic

/-!
# Values

What a slot holds when code runs. Operations of the target accept every value: a value that is
not a number counts as 0 where a number is expected, and one that is not an array has no items.
-/

namespace Stackless

inductive Value where
  | number (x : Number)
  | entity (id : Nat)
  | array (items : List Value)

namespace Value

/-- What an unset slot reads as. -/
def zero : Value := .number .zero

instance : Inhabited Value := ⟨zero⟩

def toNumber : Value → Number
  | .number x => x
  | _ => .zero

def items? : Value → Option (List Value)
  | .array items => some items
  | _ => none

/-- The items of an array; a value that is not an array has none. -/
def items (v : Value) : List Value := v.items?.getD []

/-- The items of an array; any other value counts as its own single item. -/
def spread : Value → List Value
  | .array items => items
  | v => [v]

/-- The items of an array as numbers. -/
def numbers (v : Value) : List Number := v.items.map toNumber

def typeName : Value → String
  | .number _ => "number"
  | .entity _ => "entity"
  | .array _ => "array"

mutual

/-- Equality with numbers compared numerically, so a NaN makes values differ. -/
def equal : Value → Value → Bool
  | .number x, .number y => x.equal y
  | .entity i, .entity j => i == j
  | .array xs, .array ys => equalItems xs ys
  | _, _ => false

/-- Itemwise equality of two lists of values. -/
def equalItems : List Value → List Value → Bool
  | [], [] => true
  | x :: xs, y :: ys => x.equal y && equalItems xs ys
  | _, _ => false

end

/-- Put an item at an index, filling up with zeros; a value that is not an array counts as an
empty one. -/
def setItem (v : Value) (i : Nat) (item : Value) : Value :=
  .array ((v.items ++ List.replicate (i + 1 - v.items.length) zero).set i item)

end Value

end Stackless
