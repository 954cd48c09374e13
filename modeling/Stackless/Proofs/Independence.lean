import Stackless.Proofs.Calls

/-!
# Variables as memory cells

On a named entity every location has a cell, which depends on nothing but the location and the
entity (`Machine.cell?_place`). So the variables of a compiled program are memory cells of their
own: a write gives the variable its value and leaves every other variable alone, and the same
variable on every other entity.
-/

namespace Stackless

/-- The cell of a location, for the given owner if slots of entities are meant. -/
def Location.cell (l : Location) (owner : Nat) : Cell :=
  match l.domain with
  | .global => .global l.slot
  | .entity => .entity owner l.slot

theorem Location.cell_ne {l : Location} (hd : l.domain ≠ .global) {owner owner' : Nat}
    (hne : owner ≠ owner') : l.cell owner ≠ l.cell owner' := by
  cases h : l.domain with
  | global => exact absurd h hd
  | entity =>
    simp only [cell, h]
    intro he
    exact hne (Cell.entity.inj he).1

namespace Machine

variable {m : Machine} {l : Location}

theorem cell?_place (m : Machine) (l : Location) (entity : Option Nat) :
    m.cell? (l.place ((entity.map .entity).getD .eventEntity)) =
      some (l.cell (entity.getD m.event)) := by
  cases h : l.domain with
  | global => simp [Location.place, Location.cell, h, cell?]
  | entity => cases entity <;> simp [Location.place, Location.cell, h, cell?, eval]

/-- A location of entities that is written for one of them keeps its value for the others. -/
theorem eval_read_exec_write_of_ne (hm : m.capacity ≤ Number.twoPow 53) (hl : l.Within m.capacity)
    (hd : l.domain ≠ .global) {e e' : Option Nat} (hne : e.getD m.event ≠ e'.getD m.event)
    (t : Term) :
    (m.exec (l.write ((e.map .entity).getD .eventEntity) t)).eval
        (l.read ((e'.map .entity).getD .eventEntity)) =
      m.eval (l.read ((e'.map .entity).getD .eventEntity)) := by
  rw [exec_write hm hl (cell?_place m l e), eval_read (by simpa using hm) (by simpa using hl),
    eval_read hm hl, cell?_place, cell?_place, write_event]
  simp only [Option.map_some, Option.getD_some]
  rw [read_write_of_ne _ _ (Location.cell_ne hd hne)]

end Machine

namespace Program

/-- On a machine with the capacity it was compiled for, the variables of a compiled program are
independent cells. A written variable reads as the value that was written, as it was before the
write. Every variable reads as before, for whichever entity, except the written one where it is
global or read for the entity that it was written for. -/
theorem write_changes_one_cell {script : Script} {o : Options} {p : Program}
    (h : compile script o = .ok p) (hword : o.capacity < Number.twoPow 32) {m : Machine}
    (hm : m.capacity = p.options.capacity) {id id' : VariableId} {x y : Variable}
    (hx : p.layout.get? id = some x) (hy : p.layout.get? id' = some y) (value : Term)
    (e e' : Option Nat) :
    (m.exec (x.write value (e.map .entity) none)).eval (x.read (e.map .entity)) = m.eval value ∧
    (¬(y = x ∧ (x.location.domain = .global ∨ e.getD m.event = e'.getD m.event)) →
      (m.exec (x.write value (e.map .entity) none)).eval (y.read (e'.map .entity)) =
        m.eval (y.read (e'.map .entity))) := by
  have R := RunsOn.of_compile h hword hm
  refine ⟨?_, fun hother => ?_⟩
  · exact Machine.eval_read_exec_write_self R.exact (R.within hx) (Term.isNamed_getD e)
      (m.cell?_place x.location e) value
  · by_cases hid : id = id'
    · subst hid
      cases hx.symm.trans hy
      obtain ⟨hglobal, hentity⟩ := not_or.mp fun hor => hother ⟨rfl, hor⟩
      exact Machine.eval_read_exec_write_of_ne R.exact (R.within hx) hglobal hentity value
    · exact R.eval_read_write hx hy hid (Term.isNamed_getD e') value _ none

end Program

/-! ## A program with two variables in one slot -/

def Script.stats : Script where
  items := [.variableItem { domain := .entity, name := ⟨"hp", .point 1 1⟩, span := .point 1 1 },
    .variableItem { domain := .entity, name := ⟨"mp", .point 2 1⟩, span := .point 2 1 }]

namespace Program

/-- The variables are items of one array. -/
theorem compile_stats : ∃ p x y, compile .stats {} = .ok p ∧ p.options = {} ∧
    p.layout.get? ⟨0⟩ = some x ∧ x.location = ⟨.entity, ⟨0⟩, some 0⟩ ∧
    p.layout.get? ⟨1⟩ = some y ∧ y.location = ⟨.entity, ⟨0⟩, some 1⟩ := by
  have hok : (compile .stats {}).toOption.map (fun p => (p.options,
      (p.layout.get? ⟨0⟩).map (·.location), (p.layout.get? ⟨1⟩).map (·.location))) =
      some ({}, some ⟨.entity, ⟨0⟩, some 0⟩, some ⟨.entity, ⟨0⟩, some 1⟩) := by decide +kernel
  generalize compile .stats {} = r at hok
  cases r with
  | error _ => cases hok
  | ok p =>
    obtain ⟨hoptions, hlocations⟩ := Prod.mk.inj (Option.some.inj hok)
    obtain ⟨hfirst, hsecond⟩ := Prod.mk.inj hlocations
    obtain ⟨x, hx, hx'⟩ := Option.map_eq_some_iff.mp hfirst
    obtain ⟨y, hy, hy'⟩ := Option.map_eq_some_iff.mp hsecond
    exact ⟨p, x, y, rfl, hoptions, hx, hx', hy, hy'⟩

/-- Before the write, the slot of the entity holds a plain number where the program expects an
array. -/
theorem write_changes_one_cell_stats : ∃ p x y, compile .stats {} = .ok p ∧
    p.layout.get? ⟨0⟩ = some x ∧ p.layout.get? ⟨1⟩ = some y ∧ ∃ m : Machine,
      m.event = 1 ∧ m.memory.read (.entity 1 ⟨0⟩) = .number (.ofNat 5) ∧
      (m.exec (x.write (.ofNat 7) none none)).eval (x.read none) = m.eval (.ofNat 7) ∧
      (m.exec (x.write (.ofNat 7) none none)).eval (y.read (some (.entity 1))) =
        m.eval (y.read (some (.entity 1))) ∧
      (m.exec (x.write (.ofNat 7) none none)).eval (x.read (some (.entity 2))) =
        m.eval (x.read (some (.entity 2))) := by
  obtain ⟨p, x, y, hp, hoptions, hx, hlocation, hy, hlocation'⟩ := compile_stats
  let m : Machine :=
    { event := 1, memory := Memory.write {} (.entity 1 ⟨0⟩) (.number (.ofNat 5)) }
  have hm : m.capacity = p.options.capacity := by rw [hoptions]
  have hne : y ≠ x := by
    intro h
    rw [h, hlocation] at hlocation'
    exact absurd hlocation' (by decide)
  obtain ⟨hself, hother⟩ :=
    write_changes_one_cell hp (by decide) hm hx hy (.ofNat 7) none (some 1)
  obtain ⟨_, hentity⟩ :=
    write_changes_one_cell hp (by decide) hm hx hx (.ofNat 7) none (some 2)
  refine ⟨p, x, y, hp, hx, hy, m, rfl, Memory.read_write_self .., hself,
    hother fun h => hne h.1, hentity ?_⟩
  rw [hlocation]
  exact fun h => absurd h.2 (by decide)

end Program

end Stackless
