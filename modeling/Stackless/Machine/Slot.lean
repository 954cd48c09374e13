/-!
# Slots

The target offers 26 named slots in each of two domains: the global slots, and the slots that
every entity owns.
-/

namespace Stackless

/-- One of the slots `A` to `Z`. -/
structure Slot where
  position : Fin 26
  deriving DecidableEq, Repr

namespace Slot

/-- The slot at a position, counted from `A` as 0. -/
def ofPosition? (n : Nat) : Option Slot := if h : n < 26 then some ⟨n, h⟩ else none

def text (s : Slot) : String := String.singleton (Char.ofNat (65 + s.position.val))

/-- The slot named by a text of one letter. -/
def ofText? (t : String) : Option Slot :=
  match t.toList with
  | [c] => if 65 ≤ c.toNat then ofPosition? (c.toNat - 65) else none
  | _ => none

end Slot

/-- Who owns a slot. -/
inductive Domain where
  | global
  | entity
  deriving DecidableEq, Repr

def Domain.text : Domain → String
  | .global => "global"
  | .entity => "entity"

end Stackless
