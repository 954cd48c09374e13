import Stackless.Id
import Stackless.Machine.Code
import Stackless.Script.Span

/-!
# Variables

A variable lives in a slot, either alone or as one item of the array in the slot. Code reads and
writes it only through `Variable.read` and `Variable.write`.
-/

namespace Stackless

/-- A slot, or one item of the array in a slot. -/
structure Location where
  domain : Domain
  slot : Slot
  /-- The item that is used; the whole slot if there is none. -/
  index : Option Nat := none
  deriving DecidableEq

namespace Location

/-- The slot of a location, on the given entity if slots of entities are meant. -/
def place (l : Location) (entity : Term) : Place :=
  match l.domain with
  | .global => .global l.slot
  | .entity => .entity entity l.slot

def read (l : Location) (entity : Term) : Term :=
  match l.index with
  | some i => .item (l.place entity).read (.ofNat i)
  | none => (l.place entity).read

def write (l : Location) (entity value : Term) : Action :=
  match l.index with
  | some i => .storeAt (l.place entity) (.ofNat i) value
  | none => .store (l.place entity) value

/-- The bound up to which the items after a replaced one are kept. -/
def keptItems : Nat := 9999

/-- An array with the item at `index` replaced, put together from what is before and after it. -/
def splice (array index value : Term) : Term :=
  .append (.append (.slice array (.ofNat 0) index) value)
    (.slice array (.add index (.ofNat 1)) (.ofNat keptItems))

/-- Replace one item of the array at a location. An array that is itself an item of a slot is
rebuilt and stored as a whole. -/
def writeItem (l : Location) (entity index value : Term) : Action :=
  match l.index with
  | some _ => l.write entity (splice (l.read entity) index value)
  | none => .storeAt (l.place entity) index value

def text (l : Location) : String :=
  let slot := l.domain.text ++ " " ++ l.slot.text
  match l.index with
  | some i => slot ++ "[" ++ toString i ++ "]"
  | none => slot

end Location

/-- How a variable came to be. -/
inductive VariableKind where
  /-- Made by the compiler. -/
  | plain
  | declared
  | parameter
  deriving DecidableEq

def VariableKind.text : VariableKind → String
  | .plain => "plain"
  | .declared => "declared"
  | .parameter => "parameter"

structure Variable where
  id : VariableId
  name : String
  location : Location
  kind : VariableKind := .plain
  /-- The scope that binds the name. -/
  scope : Option ScopeId := none
  span : Span := {}
  /-- The location holds the array of all live frames instead of one value. -/
  stacked : Bool := false
  deriving DecidableEq

namespace Variable

/-- The term that reads the variable, for the entity of the event if none is given. -/
def read (v : Variable) (entity : Option Term) : Term :=
  v.location.read (entity.getD .eventEntity)

/-- The action that writes the variable, or one item of the array in it. -/
def write (v : Variable) (value : Term) (entity index : Option Term) : Action :=
  match index with
  | none => v.location.write (entity.getD .eventEntity) value
  | some i => v.location.writeItem (entity.getD .eventEntity) i value

def text (v : Variable) : String := v.name ++ " @ " ++ v.location.text

end Variable

end Stackless
