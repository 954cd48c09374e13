import Stackless.Machine.Slot
import Stackless.Number.Decimal

/-!
# Code

Code is a list of actions that store the values of terms in slots. Terms only read. The text of
an action is the form in which the target takes it.
-/

namespace Stackless

/-- Code that computes a value. -/
inductive Term where
  | number (x : Number)
  | entity (id : Nat)
  /-- The entity that the running event is about. -/
  | eventEntity
  | emptyArray
  | array (items : List Term)
  | global (slot : Slot)
  /-- A slot of the entity that `owner` evaluates to. -/
  | entitySlot (owner : Term) (slot : Slot)
  | item (array index : Term)
  | last (array : Term)
  | count (array : Term)
  | slice (array start length : Term)
  /-- The items of both arguments; an argument that is not an array counts as one item. -/
  | append (left right : Term)
  | add (left right : Term)
  | subtract (left right : Term)

namespace Term

instance : Inhabited Term := ⟨.eventEntity⟩

def ofNat (n : Nat) : Term := .number (.ofNat n)

mutual

def text : Term → String
  | .number x => x.text
  | .entity id => "Entity(" ++ toString id ++ ")"
  | .eventEntity => "Event Entity"
  | .emptyArray => "Empty Array"
  | .array items => "Array(" ++ textList items ++ ")"
  | .global slot => "Global." ++ slot.text
  | .entitySlot owner slot => owner.text ++ "." ++ slot.text
  | .item a i => "Value In Array(" ++ a.text ++ ", " ++ i.text ++ ")"
  | .last a => "Last Of(" ++ a.text ++ ")"
  | .count a => "Count Of(" ++ a.text ++ ")"
  | .slice a i n => "Array Slice(" ++ a.text ++ ", " ++ i.text ++ ", " ++ n.text ++ ")"
  | .append a b => "Append To Array(" ++ a.text ++ ", " ++ b.text ++ ")"
  | .add a b => "Add(" ++ a.text ++ ", " ++ b.text ++ ")"
  | .subtract a b => "Subtract(" ++ a.text ++ ", " ++ b.text ++ ")"

/-- The texts of terms with commas between them. -/
def textList : List Term → String
  | [] => ""
  | [t] => t.text
  | t :: ts => t.text ++ ", " ++ textList ts

end

mutual

/-- Equality of terms with numbers compared by `Number.same`. -/
def same : Term → Term → Bool
  | .number x, .number y => x.same y
  | .entity i, .entity j => i == j
  | .eventEntity, .eventEntity => true
  | .emptyArray, .emptyArray => true
  | .array xs, .array ys => sameList xs ys
  | .global s, .global t => s == t
  | .entitySlot x s, .entitySlot y t => x.same y && s == t
  | .item a i, .item b j => a.same b && i.same j
  | .last a, .last b => a.same b
  | .count a, .count b => a.same b
  | .slice a i n, .slice b j m => a.same b && i.same j && n.same m
  | .append a b, .append c d => a.same c && b.same d
  | .add a b, .add c d => a.same c && b.same d
  | .subtract a b, .subtract c d => a.same c && b.same d
  | _, _ => false

def sameList : List Term → List Term → Bool
  | [], [] => true
  | x :: xs, y :: ys => x.same y && sameList xs ys
  | _, _ => false

end

end Term

/-- A slot to store in. -/
inductive Place where
  | global (slot : Slot)
  | entity (owner : Term) (slot : Slot)

namespace Place

def slot : Place → Slot
  | .global slot | .entity _ slot => slot

/-- The term that reads the place. -/
def read : Place → Term
  | .global slot => .global slot
  | .entity owner slot => .entitySlot owner slot

/-- The name of the storing action for this kind of place. -/
def actionName : Place → String
  | .global _ => "Set Global Variable"
  | .entity .. => "Set Entity Variable"

/-- The place as the first arguments of a storing action. -/
def arguments : Place → String
  | .global slot => slot.text
  | .entity owner slot => owner.text ++ ", " ++ slot.text

end Place

inductive Action where
  /-- Replace the value of a slot. -/
  | store (place : Place) (value : Term)
  /-- Replace one item of the array in a slot. -/
  | storeAt (place : Place) (index value : Term)

namespace Action

def place : Action → Place
  | .store place _ | .storeAt place .. => place

def slot (a : Action) : Slot := a.place.slot

def text : Action → String
  | .store place value => place.actionName ++ "(" ++ place.arguments ++ ", " ++ value.text ++ ");"
  | .storeAt place index value =>
    place.actionName ++ " At Index(" ++ place.arguments ++ ", " ++ index.text ++ ", " ++
      value.text ++ ");"

end Action

/-- A list of actions, in the order in which they run. -/
abbrev Code := List Action

/-- The text of code: each action on a line of its own. -/
def Code.text : Code → String
  | [] => ""
  | a :: rest => a.text ++ "\n" ++ Code.text rest

end Stackless
