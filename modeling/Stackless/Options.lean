import Stackless.Fault

/-!
# Options

What the target offers and how variables are laid out in it.
-/

namespace Stackless

/-- How variables share slots. -/
inductive Packing where
  /-- Variables are items of an array in a slot. -/
  | packed
  /-- Every variable has a slot of its own. -/
  | wholeSlot
  deriving DecidableEq

structure Options where
  /-- The number of slots in each domain. -/
  slots : Nat := 26
  /-- The number of items that an array can hold. -/
  capacity : Nat := 1000
  packing : Packing := .packed
  /-- The global slot that no variable gets, because emitted code computes in it. -/
  scratch : Slot := ⟨1⟩
  deriving DecidableEq

/-- Check that the options describe a target that can be used. -/
def Options.validate (o : Options) : Except Fault Unit :=
  if o.slots = 0 ∨ 26 < o.slots then
    .error (.invalidOptions
      ("slots_per_domain must be between 1 and 26, got " ++ toString o.slots))
  else if o.capacity = 0 then
    .error (.invalidOptions "array_capacity must be at least 1")
  else if o.slots ≤ o.scratch.position.val then
    .error (.invalidOptions ("scratch slot " ++ o.scratch.text ++ " is outside the " ++
      toString o.slots ++ " available slot(s)"))
  else .ok ()

end Stackless
