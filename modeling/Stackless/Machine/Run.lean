import Stackless.Dict
import Stackless.Machine.Code
import Stackless.Machine.Value

/-!
# Running code

A machine holds the values of all slots, the entity of the running event, and the number of
items an array can hold. Code never fails: a slot that was never stored reads as 0, and so does
an item outside an array; storing an item outside the range that the capacity allows changes
nothing, and neither does storing in a slot of something that is not an entity.
-/

namespace Stackless

/-- Where a value is kept. -/
inductive Cell where
  | global (slot : Slot)
  | entity (id : Nat) (slot : Slot)
  deriving DecidableEq

/-- The values of the cells that were stored so far. -/
abbrev Memory := Dict Cell Value

namespace Memory

def read (m : Memory) (c : Cell) : Value := (m.get? c).getD .zero

def write (m : Memory) (c : Cell) (v : Value) : Memory := m.put c v

/-- The same cells are stored, with equal values. -/
def equal (m m' : Memory) : Bool :=
  m.size == m'.size &&
    m.entries.all fun (c, v) => (m'.get? c).any (v.equal ·)

@[simp] theorem read_write_self (m : Memory) (c : Cell) (v : Value) :
    (m.write c v).read c = v := by
  simp [read, write]

theorem read_write_of_ne (m : Memory) {c c' : Cell} (v : Value) (h : c ≠ c') :
    (m.write c v).read c' = m.read c' := by
  simp [read, write, Dict.get?_put_of_ne _ _ h]

end Memory

structure Machine where
  memory : Memory := {}
  /-- The entity of the running event. -/
  event : Nat
  /-- The number of items that an array can hold. -/
  capacity : Nat := 1000

namespace Machine

mutual

def eval (m : Machine) : Term → Value
  | .number x => .number x
  | .entity id => .entity id
  | .eventEntity => .entity m.event
  | .emptyArray => .array []
  | .array items => .array (evalList m items)
  | .global slot => m.memory.read (.global slot)
  | .entitySlot owner slot =>
    match m.eval owner with
    | .entity id => m.memory.read (.entity id slot)
    | _ => .zero
  | .item array index =>
    match (m.eval index).toNumber.floor? with
    | some i => (m.eval array).items[i]?.getD .zero
    | none => .zero
  | .last array => (m.eval array).items.getLast?.getD .zero
  | .count array => .number (.ofNat (m.eval array).items.length)
  | .slice array start length =>
    .array (((m.eval array).items.drop (m.eval start).toNumber.toWord).take
      (m.eval length).toNumber.toWord)
  | .append left right => .array ((m.eval left).spread ++ (m.eval right).spread)
  | .add left right => .number ((m.eval left).toNumber.add (m.eval right).toNumber)
  | .subtract left right => .number ((m.eval left).toNumber.sub (m.eval right).toNumber)

def evalList (m : Machine) : List Term → List Value
  | [] => []
  | t :: ts => m.eval t :: evalList m ts

end

/-- The cell of a place, unless its owner is not an entity. -/
def cell? (m : Machine) : Place → Option Cell
  | .global slot => some (.global slot)
  | .entity owner slot =>
    match m.eval owner with
    | .entity id => some (.entity id slot)
    | _ => none

/-- Replace the value of a cell. -/
def write (m : Machine) (c : Cell) (v : Value) : Machine :=
  { m with memory := m.memory.write c v }

/-- The value with one item replaced, if the index is in the range that the capacity allows. -/
def setItem? (m : Machine) (v : Value) (index : Number) (item : Value) : Option Value :=
  match index.floor? with
  | some i => if i < m.capacity then some (v.setItem i item) else none
  | none => none

def exec (m : Machine) : Action → Machine
  | .store place value =>
    match m.cell? place with
    | some c => m.write c (m.eval value)
    | none => m
  | .storeAt place index value =>
    match m.cell? place with
    | some c =>
      match m.setItem? (m.memory.read c) (m.eval index).toNumber (m.eval value) with
      | some v => m.write c v
      | none => m
    | none => m

/-- Run actions in order. -/
def run (m : Machine) (code : Code) : Machine := code.foldl exec m

end Machine

end Stackless
