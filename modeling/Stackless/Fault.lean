import Stackless.Machine.Slot

/-!
# Faults

A fault ends a compilation: the target has too few slots, the options make no sense, or an
operation was used on something that does not exist.
-/

namespace Stackless

inductive Fault where
  /-- Every usable slot of the domain is taken. -/
  | slotsExhausted (domain : Domain) (usable : Nat)
  /-- The last usable slot of the domain holds as many elements as an array can. -/
  | arrayFull (domain : Domain) (slot : Slot) (capacity : Nat)
  | invalidOptions (reason : String)
  | internal (reason : String)
  deriving DecidableEq

namespace Fault

def message : Fault → String
  | .slotsExhausted domain usable =>
    "out of " ++ domain.text ++ " slots: all " ++ toString usable ++ " usable slot(s) are in use"
  | .arrayFull domain slot capacity =>
    domain.text ++ " slot " ++ slot.text ++ " cannot hold more than " ++ toString capacity ++
      " element(s)"
  | .invalidOptions reason => "invalid compile options: " ++ reason
  | .internal reason => "internal compiler error: " ++ reason

/-- The target is too small for the script. -/
def isExhaustion : Fault → Bool
  | .slotsExhausted .. | .arrayFull .. => true
  | .invalidOptions _ | .internal _ => false

end Fault

end Stackless
