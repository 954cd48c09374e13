import Stackless.Machine.Run
import Stackless.Proofs.Count
import Stackless.Storage.Variable

/-!
# Locations as memory cells

A location is one cell of memory, or one item of the array in a cell. `Location.select` and
`Location.update` say this for the value of the cell alone. Reading a location selects from its
cell (`Machine.eval_read`), writing it updates its cell (`Machine.exec_write`), and so a write to
a location or to an item of it (`Machine.touched_exec_write`, `Machine.touched_exec_writeItem`)
leaves every location that is disjoint from it alone (`Machine.Touched.eval_read`), whatever the
cell held before.

The index of an item is a number of the target. The lemmas ask that it lies below the capacity
of the machine and that the capacity is at most `2 ^ 53`, where numbers are exact.
-/

namespace Stackless

namespace Value

@[simp] theorem items_array (xs : List Value) : (Value.array xs).items = xs := rfl

@[simp] theorem items_zero : zero.items = [] := rfl

/-- The item at an index, 0 outside the array. -/
def at? (v : Value) (i : Nat) : Value := v.items[i]?.getD .zero

theorem at?_setItem (v : Value) (i j : Nat) (x : Value) :
    (v.setItem i x).at? j = if i = j then x else v.at? j := by
  simp only [at?, setItem, items_array, List.getElem?_set, List.length_append,
    List.length_replicate]
  split
  · rw [if_pos (by omega), Option.getD_some]
  · rw [List.getElem?_append]
    split
    · rfl
    · rename_i hj
      have hnone : v.items[j]? = none := by simp; omega
      rw [hnone, List.getElem?_replicate]
      split <;> rfl

end Value

namespace Location

/-- Two locations share no storage. -/
def Disjoint (l l' : Location) : Prop :=
  l.domain = l'.domain → l.slot = l'.slot → ∃ i j, l.index = some i ∧ l'.index = some j ∧ i ≠ j

theorem Disjoint.symm {l l' : Location} (h : l.Disjoint l') : l'.Disjoint l := by
  intro hd hs
  obtain ⟨i, j, hi, hj, hne⟩ := h hd.symm hs.symm
  exact ⟨j, i, hj, hi, hne.symm⟩

/-- The item that is used, if any, is one of the first `n`. -/
def Within (l : Location) (n : Nat) : Prop := ∀ i, l.index = some i → i < n

/-- The part of a cell's value that the location stands for. -/
def select (l : Location) (v : Value) : Value :=
  match l.index with
  | some i => v.at? i
  | none => v

/-- The value of a cell after the location in it was replaced. -/
def update (l : Location) (v x : Value) : Value :=
  match l.index with
  | some i => v.setItem i x
  | none => x

@[simp] theorem select_update_self (l : Location) (v x : Value) : l.select (l.update v x) = x := by
  cases h : l.index with
  | none => simp [select, update, h]
  | some i => simp [select, update, h, Value.at?_setItem]

theorem select_update_of_ne {l l' : Location} {i j : Nat} (hi : l.index = some i)
    (hj : l'.index = some j) (hne : i ≠ j) (v x : Value) :
    l'.select (l.update v x) = l'.select v := by
  simp [select, update, hi, hj, Value.at?_setItem, hne]

theorem select_zero (l : Location) : l.select .zero = .zero := by
  cases h : l.index <;> simp [select, h, Value.at?]

end Location

namespace Machine

variable {m : Machine} {l l' : Location} {e e' : Term}

@[simp] theorem write_capacity (m : Machine) (c : Cell) (v : Value) :
    (m.write c v).capacity = m.capacity := rfl

@[simp] theorem write_event (m : Machine) (c : Cell) (v : Value) :
    (m.write c v).event = m.event := rfl

@[simp] theorem read_write_self (m : Machine) (c : Cell) (v : Value) :
    (m.write c v).memory.read c = v := Memory.read_write_self ..

theorem read_write_of_ne (m : Machine) {c c' : Cell} (v : Value) (h : c ≠ c') :
    (m.write c v).memory.read c' = m.memory.read c' := Memory.read_write_of_ne _ _ h

theorem exec_capacity (m : Machine) (a : Action) : (m.exec a).capacity = m.capacity := by
  cases a with
  | store place value => simp only [exec]; split <;> rfl
  | storeAt place index value =>
    simp only [exec]
    split
    · split <;> rfl
    · rfl

@[simp] theorem run_nil (m : Machine) : m.run [] = m := rfl

@[simp] theorem run_cons (m : Machine) (a : Action) (code : Code) :
    m.run (a :: code) = (m.exec a).run code := rfl

theorem run_append (m : Machine) (code code' : Code) :
    m.run (code ++ code') = (m.run code).run code' := List.foldl_append

@[simp] theorem run_capacity (m : Machine) (code : Code) : (m.run code).capacity = m.capacity := by
  induction code generalizing m with
  | nil => rfl
  | cons a code ih => rw [run_cons, ih, exec_capacity]

theorem eval_place_read (m : Machine) (p : Place) :
    m.eval p.read = ((m.cell? p).map m.memory.read).getD .zero := by
  cases p with
  | global slot => simp [Place.read, eval, cell?]
  | entity owner slot =>
    simp only [Place.read, eval, cell?]
    split <;> simp

-- Closed by rewriting: `rfl` would make the kernel compute with the rounding of `Number.ofNat`.
theorem toNumber_eval_ofNat (m : Machine) (i : Nat) : (m.eval (.ofNat i)).toNumber = .ofNat i := by
  rw [Term.ofNat, eval, Value.toNumber]

theorem eval_item_ofNat (m : Machine) (t : Term) {i : Nat} (hi : i ≤ Number.twoPow 53) :
    m.eval (.item t (.ofNat i)) = (m.eval t).at? i := by
  rw [eval, toNumber_eval_ofNat, Number.floor?_ofNat hi, Value.at?]

/-- Reading a location selects its part of the cell. -/
theorem eval_read (hm : m.capacity ≤ Number.twoPow 53) (hl : l.Within m.capacity) (e : Term) :
    m.eval (l.read e) = ((m.cell? (l.place e)).map (l.select <| m.memory.read ·)).getD .zero := by
  cases h : l.index with
  | none => simp [Location.read, Location.select, h, eval_place_read]
  | some i =>
    have hi : i ≤ Number.twoPow 53 := Nat.le_trans (Nat.le_of_lt (hl i h)) hm
    simp only [Location.read, Location.select, h]
    rw [eval_item_ofNat m _ hi, eval_place_read]
    cases m.cell? (l.place e) <;> rfl

theorem setItem?_ofNat {i : Nat} (hi : i ≤ Number.twoPow 53) (v x : Value) :
    m.setItem? v (.ofNat i) x = if i < m.capacity then some (v.setItem i x) else none := by
  rw [setItem?, Number.floor?_ofNat hi]

theorem exec_storeAt {p : Place} {c : Cell} (hc : m.cell? p = some c) (i t : Term) :
    m.exec (.storeAt p i t) =
      ((m.setItem? (m.memory.read c) (m.eval i).toNumber (m.eval t)).map (m.write c)).getD m := by
  simp only [exec, hc]
  split <;> simp [*]

/-- Writing a location updates its part of the cell. -/
theorem exec_write {c : Cell} (hm : m.capacity ≤ Number.twoPow 53) (hl : l.Within m.capacity)
    (hc : m.cell? (l.place e) = some c) (t : Term) :
    m.exec (l.write e t) = m.write c (l.update (m.memory.read c) (m.eval t)) := by
  cases h : l.index with
  | none => simp [Location.write, Location.update, h, exec, hc]
  | some i =>
    have hi : i ≤ Number.twoPow 53 := Nat.le_trans (Nat.le_of_lt (hl i h)) hm
    simp only [Location.write, Location.update, h]
    rw [exec_storeAt hc, toNumber_eval_ofNat, setItem?_ofNat hi, if_pos (hl i h), Option.map_some,
      Option.getD_some]

theorem exec_write_of_no_cell (hc : m.cell? (l.place e) = none) (t : Term) :
    m.exec (l.write e t) = m := by
  cases h : l.index <;> simp [Location.write, h, exec, hc]

/-- The machine is as before, or some value was written to a location. -/
inductive Touched (m : Machine) (l : Location) (e : Term) : Machine → Prop where
  | none : Touched m l e m
  | some {c : Cell} (hc : m.cell? (l.place e) = some c) (x : Value) :
    Touched m l e (m.write c (l.update (m.memory.read c) x))

theorem touched_exec_write (hm : m.capacity ≤ Number.twoPow 53) (hl : l.Within m.capacity)
    (e t : Term) : m.Touched l e (m.exec (l.write e t)) := by
  cases hc : m.cell? (l.place e) with
  | none => rw [exec_write_of_no_cell hc]; exact .none
  | some c => rw [exec_write hm hl hc]; exact .some hc _

theorem touched_exec_writeItem (hm : m.capacity ≤ Number.twoPow 53) (hl : l.Within m.capacity)
    (e i t : Term) : m.Touched l e (m.exec (l.writeItem e i t)) := by
  cases h : l.index with
  | some j => simp only [Location.writeItem, h]; exact touched_exec_write hm hl ..
  | none =>
    simp only [Location.writeItem, h, exec]
    split
    · rename_i c hc
      split
      · rename_i v _
        have hv : v = l.update (m.memory.read c) v := by simp [Location.update, h]
        rw [hv]
        exact .some hc v
      · exact .none
    · exact .none

end Machine

namespace Term

/-- An entity that is named outright: by its number, or as the entity of the event. -/
inductive IsNamed : Term → Prop where
  | entity (id : Nat) : IsNamed (.entity id)
  | event : IsNamed .eventEntity

theorem isNamed_getD (id : Option Nat) : IsNamed ((id.map Term.entity).getD .eventEntity) := by
  cases id with
  | none => exact .event
  | some id => exact .entity id

end Term

namespace Machine

variable {m : Machine} {l l' : Location} {e e' : Term}

/-- The cell of a place on a named entity does not depend on memory. -/
theorem cell?_write (he : e.IsNamed) (l : Location) (c : Cell) (v : Value) :
    (m.write c v).cell? (l.place e) = m.cell? (l.place e) := by
  cases hd : l.domain with
  | global => simp [Location.place, hd, cell?]
  | entity => cases he <;> simp [Location.place, hd, cell?, eval]

theorem cell?_global (hd : l.domain = .global) (e : Term) :
    m.cell? (l.place e) = some (.global l.slot) := by
  simp [Location.place, hd, cell?]

/-- Only locations of one domain and one slot share a cell. -/
theorem domain_slot_of_cell? {c : Cell} (h : m.cell? (l.place e) = some c)
    (h' : m.cell? (l'.place e') = some c) : l.domain = l'.domain ∧ l.slot = l'.slot := by
  cases hd : l.domain <;> cases hd' : l'.domain <;>
    simp only [Location.place, hd, hd', cell?, Option.some.injEq] at h h'
  · exact ⟨rfl, Cell.global.inj (h.trans h'.symm)⟩
  · split at h' <;> simp at h'
    simp [← h] at h'
  · split at h <;> simp at h
    simp [← h'] at h
  · split at h <;> simp at h
    split at h' <;> simp at h'
    exact ⟨rfl, (Cell.entity.inj (h.trans h'.symm)).2⟩

/-- A write to a location leaves a disjoint location alone. -/
theorem Touched.eval_read {m' : Machine} (h : m.Touched l e m')
    (hm : m.capacity ≤ Number.twoPow 53) (hd : l.Disjoint l') (hl' : l'.Within m.capacity)
    (he' : e'.IsNamed) : m'.eval (l'.read e') = m.eval (l'.read e') := by
  cases h with
  | none => rfl
  | @some c hc x =>
    rw [Machine.eval_read hm hl', Machine.eval_read (by simpa using hm) (by simpa using hl'),
      cell?_write he']
    cases hc' : m.cell? (l'.place e') with
    | none => rfl
    | some c' =>
      simp only [Option.map_some, Option.getD_some]
      by_cases hcc : c = c'
      · subst hcc
        obtain ⟨hdom, hslot⟩ := domain_slot_of_cell? hc hc'
        obtain ⟨i, j, hi, hj, hne⟩ := hd hdom hslot
        rw [read_write_self, Location.select_update_of_ne hi hj hne]
      · rw [read_write_of_ne _ _ hcc]

/-- A written location on a named entity reads as what was written. -/
theorem eval_read_exec_write_self {c : Cell} (hm : m.capacity ≤ Number.twoPow 53)
    (hl : l.Within m.capacity) (he : e.IsNamed) (hc : m.cell? (l.place e) = some c) (t : Term) :
    (m.exec (l.write e t)).eval (l.read e) = m.eval t := by
  rw [exec_write hm hl hc, Machine.eval_read (by simpa using hm) (by simpa using hl),
    cell?_write he, hc]
  simp

end Machine

end Stackless
