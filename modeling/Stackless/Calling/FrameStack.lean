import Stackless.Fault
import Stackless.Storage.Variable

/-!
# Frame stacks

The target has no call stack. A parameter of a function that calls itself keeps the values of
all live calls in its location, as an array with the innermost call last. Adding or replacing a
frame takes several actions: the stack is copied to the scratch slot, changed there, and stored
back.
-/

namespace Stackless

/-- A parameter whose location holds frames. -/
structure FrameStack where
  parameter : Variable
  scratch : Slot

namespace FrameStack

def ofVariable (v : Variable) (scratch : Slot) : Except Fault FrameStack :=
  if v.stacked then .ok ⟨v, scratch⟩
  else .error (.internal ("'" ++ v.name ++ "' is not stack-emulated"))

/-- All frames, as an array. -/
def frames (s : FrameStack) (entity : Option Term) : Term := s.parameter.read entity

/-- The innermost frame. -/
def top (s : FrameStack) (entity : Option Term) : Term := .last (s.frames entity)

/-- The number of live frames. -/
def depth (s : FrameStack) (entity : Option Term) : Term := .count (s.frames entity)

/-- Change one item of the frames in the scratch slot. -/
def edit (s : FrameStack) (index value : Term) (entity : Option Term) : Code :=
  [ .store (.global s.scratch) (s.frames entity),
    .storeAt (.global s.scratch) index value,
    s.parameter.write (.global s.scratch) entity none ]

/-- Add a frame. -/
def push (s : FrameStack) (value : Term) (entity : Option Term) : Code :=
  s.edit (.count (.global s.scratch)) value entity

/-- Replace the innermost frame. -/
def replaceTop (s : FrameStack) (value : Term) (entity : Option Term) : Code :=
  s.edit (.subtract (.count (.global s.scratch)) (.ofNat 1)) value entity

/-- Drop the innermost frame. -/
def pop (s : FrameStack) (entity : Option Term) : Code :=
  [ s.parameter.write
      (.slice (s.frames entity) (.ofNat 0) (.subtract (.count (s.frames entity)) (.ofNat 1)))
      entity none ]

end FrameStack

/-- The way in which code uses a variable. -/
inductive Access where
  | direct (v : Variable)
  | stack (frames : FrameStack)

namespace Access

def ofVariable (v : Variable) (scratch : Slot) : Access :=
  if v.stacked then .stack ⟨v, scratch⟩ else .direct v

def toVariable : Access → Variable
  | .direct v => v
  | .stack s => s.parameter

def read (a : Access) (entity : Option Term) : Term :=
  match a with
  | .direct v => v.read entity
  | .stack s => s.top entity

/-- The code that writes the variable, or one item of the array in it. -/
def write (a : Access) (value : Term) (entity index : Option Term) : Except Fault Code :=
  match a, index with
  | .direct v, _ => .ok [v.write value entity index]
  | .stack s, none => .ok (s.replaceTop value entity)
  | .stack s, some _ =>
    .error (.internal ("indexed write to stack-emulated parameter '" ++ s.parameter.name ++ "'"))

end Access

end Stackless
