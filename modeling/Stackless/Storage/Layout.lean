import Stackless.Options
import Stackless.Storage.Variable

/-!
# Layout

A layout hands out the slots of the target in order and never takes one back. A packed layout
fills the array of a slot before it opens the next slot; otherwise each variable gets a slot of
its own. The scratch slot is passed over among the global slots. The two domains are laid out
independently of each other.
-/

namespace Stackless

/-- How far the slots of one domain are handed out. -/
structure Cursor where
  /-- The number of slot positions that are passed. -/
  passed : Nat := 0
  /-- The slot that is being packed, with the number of its items in use. -/
  filling : Option (Slot × Nat) := none
  deriving DecidableEq

/-- Options restricted to one domain: the slots it has, and the position to pass over. -/
structure Region where
  domain : Domain
  slots : Nat
  reserved : Option Nat
  capacity : Nat
  packing : Packing
  deriving DecidableEq

namespace Options

def region (o : Options) (d : Domain) : Region where
  domain := d
  slots := o.slots
  reserved :=
    match d with
    | .global => some o.scratch.position.val
    | .entity => none
  capacity := o.capacity
  packing := o.packing

end Options

namespace Region

/-- The number of slots that can be handed out. -/
def usable (r : Region) : Nat :=
  match r.reserved with
  | some p => if p < r.slots then r.slots - 1 else r.slots
  | none => r.slots

/-- The next position that is not reserved. -/
def advance (r : Region) (p : Nat) : Nat :=
  if r.reserved = some p ∧ p < r.slots then p + 1 else p

/-- Hand out the next slot. -/
def takeSlot (r : Region) : EStateM Fault Cursor Slot := fun c =>
  let p := r.advance c.passed
  if r.slots ≤ p then
    .error (.slotsExhausted r.domain r.usable) { c with passed := p }
  else
    match Slot.ofPosition? p with
    | some s => .ok s { c with passed := p + 1 }
    | none =>
      .error (.internal ("slot position " ++ toString p ++ " has no name"))
        { c with passed := p + 1 }

/-- Hand out the first item of a fresh slot. -/
def openSlot (r : Region) : EStateM Fault Cursor Location := fun c =>
  match r.takeSlot c with
  | .ok s c' => .ok ⟨r.domain, s, some 0⟩ { c' with filling := some (s, 1) }
  | .error f c' =>
    match f, c.filling with
    | .slotsExhausted .., some (s, _) => .error (.arrayFull r.domain s r.capacity) c'
    | f, _ => .error f c'

/-- Hand out the location for one more variable. -/
def takeLocation (r : Region) : EStateM Fault Cursor Location := fun c =>
  match r.packing with
  | .wholeSlot =>
    match r.takeSlot c with
    | .ok s c' => .ok ⟨r.domain, s, none⟩ c'
    | .error f c' => .error f c'
  | .packed =>
    match c.filling with
    | some (s, n) =>
      if n < r.capacity then .ok ⟨r.domain, s, some n⟩ { c with filling := some (s, n + 1) }
      else r.openSlot c
    | none => r.openSlot c

end Region

/-- The storage handed out so far, and the variables that got it. -/
structure Layout where
  options : Options
  globals : Cursor := {}
  entities : Cursor := {}
  /-- The variables in the order in which they were created. -/
  table : Array Variable := #[]

namespace Layout

def cursor (l : Layout) : Domain → Cursor
  | .global => l.globals
  | .entity => l.entities

def setCursor (l : Layout) (d : Domain) (c : Cursor) : Layout :=
  match d with
  | .global => { l with globals := c }
  | .entity => { l with entities := c }

/-- Run a step on the cursor of a domain. -/
def onCursor {α : Type} (d : Domain) (step : EStateM Fault Cursor α) : EStateM Fault Layout α :=
  fun l =>
    match step (l.cursor d) with
    | .ok a c => .ok a (l.setCursor d c)
    | .error f c => .error f (l.setCursor d c)

def takeSlot (d : Domain) : EStateM Fault Layout Slot := fun l =>
  onCursor d (l.options.region d).takeSlot l

def takeLocation (d : Domain) : EStateM Fault Layout Location := fun l =>
  onCursor d (l.options.region d).takeLocation l

def usable (l : Layout) (d : Domain) : Nat := (l.options.region d).usable

def get? (l : Layout) (id : VariableId) : Option Variable := l.table[id.index]?

/-- The first variable of a name. -/
def named? (l : Layout) (name : String) : Option Variable :=
  l.table.find? (·.name == name)

/-- The id of the variable that is created next. -/
def nextId (l : Layout) : VariableId := ⟨l.table.size⟩

def push (l : Layout) (v : Variable) : Layout := { l with table := l.table.push v }

/-- Let a variable hold frames instead of one value. -/
def stack (l : Layout) (id : VariableId) : Layout :=
  { l with table := l.table.modify id.index fun v => { v with stacked := true } }

/-- Create a variable that no scope binds. -/
def addInternal (name : String) (d : Domain) : EStateM Fault Layout VariableId := fun l =>
  match takeLocation d l with
  | .ok location l' => .ok l'.nextId (l'.push { id := l'.nextId, name, location })
  | .error f l' => .error f l'

end Layout

end Stackless
