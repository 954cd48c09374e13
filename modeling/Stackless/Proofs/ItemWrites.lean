import Stackless.Proofs.Independence

/-!
# Writing one item of an array

A variable that has a slot of its own writes one item of its array in place (`Value.setItem`). A
variable that is itself an item of a slot has its array put together again from the items before
and after the written one (`Value.splice`). The two agree exactly where no gap is left before the
written item, few enough items follow it, and what is written is not itself an array
(`Value.splice_eq_setItem_iff`).
-/

namespace Stackless

/-! ## Indices -/

namespace Number

variable {x : Number} {i : Nat}

/-- A number that is a natural number is that many units of one; zero may have a sign. -/
theorem units_of_toInt? (h : x.toInt? = some (i : Int)) :
    ∃ negative units representable, x = .finite negative units representable ∧
      units = i * one ∧ (negative = true → i = 0) := by
  cases x with
  | nan => cases h
  | infinite => cases h
  | finite negative units representable =>
    simp only [toInt?] at h
    split at h
    · rename_i hmod
      have hunits : units = units / one * one :=
        (Nat.div_mul_cancel (Nat.dvd_of_mod_eq_zero hmod)).symm
      refine ⟨negative, units, representable, rfl, ?_⟩
      rw [hunits]
      generalize units / one = q at h
      simp only [Option.some.injEq, signed] at h
      cases negative with
      | false =>
        rw [if_neg Bool.false_ne_true] at h
        rw [Int.ofNat.inj h]
        exact ⟨rfl, fun h => absurd h Bool.false_ne_true⟩
      | true =>
        rw [if_pos rfl] at h
        have hzero : q = 0 ∧ i = 0 := by omega
        rw [hzero.1, hzero.2]
        exact ⟨rfl, fun _ => rfl⟩
    · cases h

theorem floor?_of_toInt? (h : x.toInt? = some (i : Int)) : x.floor? = some i := by
  obtain ⟨negative, units, representable, rfl, hunits, hsign⟩ := units_of_toInt? h
  have hdiv : units / one = i := by rw [hunits, Nat.mul_div_cancel _ one_pos]
  cases negative with
  | false => simp only [floor?, Bool.false_and, Bool.false_eq_true, if_false, hdiv]
  | true =>
    have hzero : (units != 0) = false := by rw [hunits, hsign rfl, Nat.zero_mul]; rfl
    simp only [floor?, hdiv, hzero, Bool.and_false, Bool.false_eq_true, if_false]

theorem toWord_of_toInt? (h : x.toInt? = some (i : Int)) (hi : i ≤ twoPow 53) : x.toWord = i := by
  have hfloor := floor?_of_toInt? h
  have hword : twoPow 53 < twoPow 64 := twoPow_lt_twoPow (by decide)
  obtain ⟨negative, units, representable, rfl, _⟩ := units_of_toInt? h
  simp only [toWord, hfloor, Option.getD_some]
  omega

/-- The successor of an index is exact. -/
theorem add_one_of_toInt? (h : x.toInt? = some (i : Int)) (hi : i + 1 ≤ twoPow 53) :
    x.add (ofNat 1) = ofNat (i + 1) := by
  obtain ⟨negative, units, representable, rfl, hunits, hsign⟩ := units_of_toInt? h
  have hsum : signed negative units + signed false (1 * one) = (((i + 1) * one : Nat) : Int) := by
    have hnext : (i + 1) * one = units + 1 * one := by rw [hunits, Nat.add_mul]
    rw [hnext]
    cases negative with
    | false => rfl
    | true =>
      rw [hunits, hsign rfl]
      simp only [signed, Bool.false_eq_true, if_false, if_true, Nat.zero_mul, Nat.zero_add]
      omega
  have hpos : (i + 1) * one ≠ 0 := Nat.mul_ne_zero (Nat.succ_ne_zero i) one_ne_zero
  have hplus : decide ((((i + 1) * one : Nat) : Int) < 0) = false := decide_eq_false (by omega)
  rw [ofNat_eq (n := 1) Nat.one_le_two_pow]
  simp only [add, hsum]
  rw [if_neg (by exact_mod_cast hpos), hplus, Int.natAbs_natCast,
    ofUnits_of_representable (representable_mul_one hi), ofNat_eq hi]

theorem toInt?_ofNat (h : i ≤ twoPow 53) : (ofNat i).toInt? = some (i : Int) := by
  rw [ofNat_eq h, toInt?, Nat.mul_mod_left, if_pos rfl, Nat.mul_div_cancel _ one_pos]
  rfl

end Number

/-! ## Arrays that are put together again -/

namespace Value

variable {c w : Value} {i : Nat}

/-- The array of a value, put together from the items before an index, the new item and the items
after the index. -/
def splice (c : Value) (i : Nat) (w : Value) : Value :=
  .array (c.items.take i ++ w.spread ++ (c.items.drop (i + 1)).take Location.keptItems)

/-- The array of a value, put together where the index is any number: what comes before is cut to
the index, and what comes after starts at its successor. -/
def resplice (c : Value) (x : Number) (w : Value) : Value :=
  .array (c.items.take x.toWord ++ w.spread ++
    (c.items.drop (x.add (.ofNat 1)).toWord).take Location.keptItems)

/-- No array is an item of itself. -/
theorem array_not_mem (ws : List Value) : Value.array ws ∉ ws := by
  intro h
  have hlt := List.sizeOf_lt_of_mem h
  simp only [array.sizeOf_spec] at hlt
  omega

theorem getElem?_setItem_self (c w : Value) (i : Nat) : (c.setItem i w).items[i]? = some w := by
  have hlt : i < (c.items ++ List.replicate (i + 1 - c.items.length) zero).length := by
    rw [List.length_append, List.length_replicate]
    omega
  rw [setItem, items_array, List.getElem?_set_self hlt]

theorem length_items_setItem (c w : Value) (i : Nat) :
    (c.setItem i w).items.length = max c.items.length (i + 1) := by
  rw [setItem, items_array, List.length_set, List.length_append, List.length_replicate]
  omega

/-- At an index that is a natural number, the item at the index is replaced. -/
theorem resplice_eq_splice {x : Number} (hx : x.toInt? = some (i : Int))
    (hexact : i + 1 ≤ Number.twoPow 53) (c w : Value) : c.resplice x w = c.splice i w := by
  rw [resplice, splice, Number.toWord_of_toInt? hx (Nat.le_of_succ_le hexact),
    Number.add_one_of_toInt? hx hexact, Number.toWord_ofNat hexact]

theorem length_items_splice (c w : Value) (i : Nat) : (c.splice i w).items.length =
    min i c.items.length + w.spread.length + min Location.keptItems (c.items.length - (i + 1)) := by
  rw [splice, items_array, List.length_append, List.length_append, List.length_take,
    List.length_take, List.length_drop]

/-- The items of an array that is written are spread over the others, so the array itself does not
get to its index. -/
theorem splice_array_ne (c : Value) (i : Nat) (ws : List Value) :
    c.splice i (.array ws) ≠ c.setItem i (.array ws) := by
  intro h
  have hlength := congrArg (·.items.length) h
  simp only [length_items_splice, length_items_setItem, spread] at hlength
  have hself := getElem?_setItem_self c (.array ws) i
  have hnot := array_not_mem ws
  rw [← h, splice, items_array, List.append_assoc, spread] at hself
  -- the item at the index is the first one that was written, or one behind a gap
  have hbefore : (c.items.take i).length ≤ i := List.length_take_le i c.items
  rw [List.getElem?_append_right hbefore, List.length_take] at hself
  have hamong : i - min i c.items.length < ws.length := by omega
  rw [List.getElem?_append_left hamong] at hself
  exact hnot (List.mem_of_getElem? hself)

theorem splice_of_le (hw : w.items? = none) (hi : i ≤ c.items.length)
    (hn : c.items.length ≤ i + 1 + Location.keptItems) : c.splice i w = c.setItem i w := by
  have hspread : w.spread = [w] := by
    cases w with
    | number | entity => rfl
    | array => cases hw
  have hafter : ((c.items.drop (i + 1)).take Location.keptItems) = c.items.drop (i + 1) := by
    refine List.take_of_length_le ?_
    rw [List.length_drop]
    omega
  rw [splice, setItem, hspread, hafter, List.append_assoc, List.singleton_append]
  congr 1
  rcases Nat.lt_or_eq_of_le hi with hlt | rfl
  · have hnone : i + 1 - c.items.length = 0 := by omega
    rw [hnone, List.replicate_zero, List.append_nil, List.set_eq_take_append_cons_drop, if_pos hlt]
  · rw [List.take_length, List.drop_eq_nil_of_le (Nat.le_succ _), Nat.add_sub_cancel_left,
      List.set_append_right _ _ (Nat.le_refl _), Nat.sub_self]
    rfl

/-- Putting an array together again is the same as writing its item in place exactly if the new
item is no array, no gap is left before it, and few enough items follow. -/
theorem splice_eq_setItem_iff (c w : Value) (i : Nat) : c.splice i w = c.setItem i w ↔
    w.items? = none ∧ i ≤ c.items.length ∧ c.items.length ≤ i + 1 + Location.keptItems := by
  constructor
  · intro h
    cases w with
    | array ws => exact absurd h (splice_array_ne c i ws)
    | number | entity =>
      have hlength := congrArg (·.items.length) h
      simp only [length_items_splice, length_items_setItem, spread, List.length_singleton] at hlength
      refine ⟨rfl, ?_, ?_⟩ <;> omega
  · rintro ⟨hw, hi, hn⟩
    exact splice_of_le hw hi hn

end Value

/-! ## Variables -/

namespace Machine

variable {m : Machine} {i : Nat} {index : Term}

theorem eval_resplice (m : Machine) (array index value : Term) :
    m.eval (Location.splice array index value) =
      (m.eval array).resplice (m.eval index).toNumber (m.eval value) := by
  have hstart : (Number.ofNat 0).toWord = 0 := Number.toWord_ofNat (Nat.zero_le _)
  have hkept : (Number.ofNat Location.keptItems).toWord = Location.keptItems :=
    Number.toWord_ofNat (by decide)
  have hspread : ∀ xs : List Value, (Value.array xs).spread = xs := fun _ => rfl
  simp only [Location.splice, eval, hspread]
  rw [toNumber_eval_ofNat, toNumber_eval_ofNat, toNumber_eval_ofNat, hstart, hkept, Value.toNumber,
    List.drop_zero]
  rfl

theorem eval_splice (hi : (m.eval index).toNumber.toInt? = some (i : Int))
    (hexact : i + 1 ≤ Number.twoPow 53) (array value : Term) :
    m.eval (Location.splice array index value) = (m.eval array).splice i (m.eval value) := by
  rw [eval_resplice, Value.resplice_eq_splice hi hexact]

/-- The value that a variable with a slot of its own holds after one of its items was written. -/
theorem eval_read_exec_writeItem_whole {l : Location} (hl : l.index = none)
    (hi : (m.eval index).toNumber.toInt? = some (i : Int)) (hlt : i < m.capacity) (e : Option Nat)
    (value : Term) :
    (m.exec (l.writeItem ((e.map .entity).getD .eventEntity) index value)).eval
        (l.read ((e.map .entity).getD .eventEntity)) =
      (m.eval (l.read ((e.map .entity).getD .eventEntity))).setItem i (m.eval value) := by
  have hcell := m.cell?_place l e
  have hread : ∀ m' : Machine, m'.event = m.event →
      m'.eval (l.read ((e.map .entity).getD .eventEntity)) =
        m'.memory.read (l.cell (e.getD m.event)) := by
    intro m' hevent
    rw [Location.read, hl, eval_place_read, cell?_place, hevent]
    rfl
  have hset : m.setItem? (m.memory.read (l.cell (e.getD m.event))) (m.eval index).toNumber
      (m.eval value) = some ((m.memory.read (l.cell (e.getD m.event))).setItem i (m.eval value)) := by
    rw [setItem?, Number.floor?_of_toInt? hi]
    exact if_pos hlt
  rw [hread m rfl, Location.writeItem, hl]
  simp only
  rw [exec_storeAt hcell, hset, Option.map_some, Option.getD_some, hread _ (write_event ..),
    read_write_self]

/-- A write to one item of a slot leaves the other items of the slot alone, on every entity. -/
theorem eval_sibling_write {l : Location} {j k : Nat} (hl : l.index = some j) (hne : k ≠ j)
    (hk : k ≤ Number.twoPow 53) (e : Option Nat) (owner : Nat) (v : Value) :
    (m.write (l.cell owner) (l.update (m.memory.read (l.cell owner)) v)).eval
        (({ l with index := some k } : Location).read ((e.map .entity).getD .eventEntity)) =
      m.eval (({ l with index := some k } : Location).read ((e.map .entity).getD .eventEntity)) := by
  have hread : ∀ m' : Machine, m'.event = m.event →
      m'.eval (({ l with index := some k } : Location).read ((e.map .entity).getD .eventEntity)) =
        (m'.memory.read (l.cell (e.getD m.event))).at? k := by
    intro m' hevent
    rw [Location.read, eval_item_ofNat _ _ hk, eval_place_read, cell?_place, hevent]
    rfl
  rw [hread _ (write_event ..), hread m rfl]
  by_cases hcell : l.cell owner = l.cell (e.getD m.event)
  · rw [← hcell, read_write_self, Location.update, hl]
    exact (Value.at?_setItem ..).trans (if_neg (Ne.symm hne))
  · rw [read_write_of_ne _ _ hcell]

end Machine

namespace Variable

/-- One item of a variable that is itself an item of a slot is written, at an index within the
capacity. Then the variable reads as a variable with a slot of its own does after the same write
exactly if what was written is no array, the index leaves no gap, and at most 9999 items follow.
The other items of the slot read as before in any case. -/
theorem write_item_agrees_iff {m : Machine} (hm : m.capacity ≤ Number.twoPow 53) {x : Variable}
    {j : Nat} (hx : x.location.index = some j) (hj : j < m.capacity) {index : Term} {i : Nat}
    (hi : (m.eval index).toNumber.toInt? = some (i : Int)) (hlt : i < m.capacity) (value : Term)
    (e : Option Nat) :
    let c := m.eval (x.read (e.map .entity))
    let w := m.eval value
    let m' := m.exec (x.write value (e.map .entity) (some index))
    (m'.eval (x.read (e.map .entity)) = c.setItem i w ↔
        w.items? = none ∧ i ≤ c.items.length ∧ c.items.length ≤ i + 10000) ∧
      (∀ (y : Variable) (m₀ : Machine), y.location.index = none → m₀.capacity = m.capacity →
        m₀.eval (y.read (e.map .entity)) = c → m₀.eval index = m.eval index → m₀.eval value = w →
        (m₀.exec (y.write value (e.map .entity) (some index))).eval (y.read (e.map .entity)) =
          c.setItem i w) ∧
      ∀ k ≤ Number.twoPow 53, k ≠ j → ∀ e' : Option Nat,
        m'.eval (({ x.location with index := some k } : Location).read
            ((e'.map .entity).getD .eventEntity)) =
          m.eval (({ x.location with index := some k } : Location).read
            ((e'.map .entity).getD .eventEntity)) := by
  intro c w m'
  have hwithin : x.location.Within m.capacity := by
    intro k hk
    cases hx.symm.trans hk
    exact hj
  have hcell := m.cell?_place x.location e
  have hwrite : m' = m.exec (x.location.write ((e.map .entity).getD .eventEntity)
      (Location.splice (x.read (e.map .entity)) index value)) := by
    simp only [m', Variable.write, Location.writeItem, hx]
    rfl
  have hexact : i + 1 ≤ Number.twoPow 53 := Nat.le_trans hlt hm
  refine ⟨?_, fun y m₀ hy hcap hc hindex hvalue => ?_, fun k hk hne e' => ?_⟩
  · have hread : m'.eval (x.read (e.map .entity)) = c.splice i w := by
      rw [hwrite]
      refine (Machine.eval_read_exec_write_self hm hwithin (Term.isNamed_getD e) hcell _).trans ?_
      exact Machine.eval_splice hi hexact ..
    have hkept : i + 1 + Location.keptItems = i + 10000 := by
      unfold Location.keptItems
      omega
    rw [hread, Value.splice_eq_setItem_iff, hkept]
  · have hwhole := Machine.eval_read_exec_writeItem_whole (l := y.location) hy (hindex ▸ hi)
      (hcap ▸ hlt) e value
    rw [hvalue] at hwhole
    exact hwhole.trans (congrArg (Value.setItem · i w) hc)
  · rw [hwrite, Machine.exec_write hm hwithin hcell]
    exact Machine.eval_sibling_write hx hne hk ..

/-- The first variable of an entity's slot holds an array of two items. Writing its item 2 extends
the array, writing item 3 would leave a gap, and an array is not stored as one item. -/
theorem write_item_agrees_iff_boundary : ∃ (m : Machine) (x : Variable),
    m.capacity = 1000 ∧ x.location.index = some 0 ∧ (m.eval (x.read none)).items.length = 2 ∧
      (m.exec (x.write (.ofNat 7) none (some (.ofNat 2)))).eval (x.read none) =
        (m.eval (x.read none)).setItem 2 (m.eval (.ofNat 7)) ∧
      (m.exec (x.write (.ofNat 7) none (some (.ofNat 3)))).eval (x.read none) ≠
        (m.eval (x.read none)).setItem 3 (m.eval (.ofNat 7)) ∧
      (m.exec (x.write .emptyArray none (some (.ofNat 1)))).eval (x.read none) ≠
        (m.eval (x.read none)).setItem 1 (m.eval .emptyArray) ∧
      (∃ (y : Variable) (m₀ : Machine), y.location.index = none ∧
        m₀.eval (y.read none) = m.eval (x.read none) ∧
        (m₀.exec (y.write (.ofNat 7) none (some (.ofNat 2)))).eval (y.read none) =
          (m.eval (x.read none)).setItem 2 (m.eval (.ofNat 7))) ∧
      (m.exec (x.write (.ofNat 7) none (some (.ofNat 2)))).eval
          (({ x.location with index := some 1 } : Location).read .eventEntity) =
        m.eval (({ x.location with index := some 1 } : Location).read .eventEntity) := by
  let items : List Value := [.entity 4, .entity 5]
  let m : Machine :=
    { event := 1, memory := Memory.write {} (.entity 1 ⟨0⟩) (.array [.array items, .entity 6]) }
  let x : Variable := { id := ⟨0⟩, name := "x", location := ⟨.entity, ⟨0⟩, some 0⟩ }
  let y : Variable := { id := ⟨0⟩, name := "y", location := ⟨.entity, ⟨0⟩, none⟩ }
  let m₀ : Machine := { event := 1, memory := Memory.write {} (.entity 1 ⟨0⟩) (.array items) }
  have hm : m.capacity ≤ Number.twoPow 53 := by decide
  have hslot : m.eval (Place.entity .eventEntity ⟨0⟩).read = .array [.array items, .entity 6] :=
    Memory.read_write_self ..
  have hheld : m.eval (x.read none) = .array items :=
    (m.eval_item_ofNat _ (Nat.zero_le _)).trans (congrArg (Value.at? · 0) hslot)
  have hindex : ∀ {i : Nat}, i ≤ Number.twoPow 53 →
      (m.eval (.ofNat i)).toNumber.toInt? = some (i : Int) := by
    intro i hi
    rw [Machine.toNumber_eval_ofNat, Number.toInt?_ofNat hi]
  have hlength : (m.eval (x.read none)).items.length = 2 := by rw [hheld]; rfl
  obtain ⟨hend, hwhole, hother⟩ := write_item_agrees_iff (x := x) hm rfl (by decide)
    (hindex (i := 2) (by decide)) (by decide) (.ofNat 7) none
  obtain ⟨hgap, -, -⟩ := write_item_agrees_iff (x := x) hm rfl (by decide)
    (hindex (i := 3) (by decide)) (by decide) (.ofNat 7) none
  obtain ⟨hnested, -, -⟩ := write_item_agrees_iff (x := x) hm rfl (by decide)
    (hindex (i := 1) (by decide)) (by decide) .emptyArray none
  have heval : ∀ (m' : Machine) (i : Nat), m'.eval (.ofNat i) = .number (.ofNat i) := by
    intro m' i
    rw [Term.ofNat, Machine.eval]
  refine ⟨m, x, rfl, rfl, hlength, hend.mpr ⟨?_, ?_, ?_⟩, fun h => ?_, fun h => ?_,
    ⟨y, m₀, rfl, ?_, hwhole y m₀ rfl rfl ?_ ?_ ?_⟩, hother 1 (by decide) (by decide) none⟩
  · rw [heval]
    rfl
  · exact Nat.le_of_eq hlength.symm
  · exact Nat.le_trans (Nat.le_of_eq hlength) (by decide)
  · have hle := (hgap.mp h).2.1
    exact absurd (hlength ▸ hle) (by decide)
  · have hitems := (hnested.mp h).1
    cases hitems
  · exact (Memory.read_write_self ..).trans hheld.symm
  · exact (Memory.read_write_self ..).trans hheld.symm
  · rw [heval, heval]
  · rw [heval, heval]

end Variable

end Stackless
