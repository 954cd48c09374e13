import Stackless.Proofs.ItemWrites

/-!
# Writing an item that an array cannot have

The machine ignores a write to an item at an index that is not a number, is below zero or is not
below the capacity. A variable with a slot of its own passes its index on to the machine, so such a
write does nothing. A variable that is itself an item of a slot has its array put together again
instead, with both bounds cut to what the array has, and there the write is not ignored: an index
that is too low puts the new item in front of the others, and one that is too high puts it behind
them (`Value.resplice_of_low`, `Value.resplice_of_high`).
-/

namespace Stackless

namespace Number

variable {x : Number} {k n : Nat}

/-! ## Rounding -/

/-- Rounding does not cross a power of two upwards. -/
theorem round_le_twoPow (h : n ≤ twoPow k) : round n ≤ twoPow k := by
  rcases Nat.eq_or_lt_of_le h with rfl | hlt
  · refine Nat.le_of_eq (round_of_dvd ?_)
    have hone := spacing_dvd (m := 1) (k := k) (twoPow_lt_twoPow (by decide : 0 < 53))
    rwa [Nat.one_mul] at hone
  · have hpos : 0 < spacing n := twoPow_pos _
    have hdvd : spacing n ∣ twoPow k := by
      refine twoPow_dvd_twoPow ?_
      by_cases hn : n = 0
      · subst hn
        exact Nat.zero_le _
      · have hlog := (Nat.log2_lt hn).mpr hlt
        omega
    -- the next multiple of the spacing is still at most the power
    have hnext : (n / spacing n + 1) * spacing n ≤ twoPow k := by
      obtain ⟨c, hc⟩ := hdvd
      have hquot : n / spacing n < c := by
        rw [Nat.div_lt_iff_lt_mul hpos, Nat.mul_comm, ← hc]
        exact hlt
      rw [hc, Nat.mul_comm (spacing n)]
      exact Nat.mul_le_mul_right _ hquot
    simp only [round]
    split
    · exact Nat.le_trans (Nat.mul_le_mul_right _ (Nat.le_succ _)) hnext
    · exact hnext

/-- Rounding does not cross a representable magnitude downwards. -/
theorem Representable.le_round (hk : Representable k) (h : k ≤ n) : k ≤ round n := by
  obtain ⟨-, a, e, ha, rfl⟩ := hk
  rcases Nat.lt_or_ge e (n.log2 - 52) with hlt | hle
  · -- the spacing is so wide that the magnitude lies below the leading bit
    have hn : n ≠ 0 := by
      rintro rfl
      exact Nat.not_lt_zero _ hlt
    have hlead : a * twoPow e ≤ twoPow n.log2 := by
      refine Nat.le_trans (Nat.mul_le_mul_right _ (Nat.le_of_lt ha)) ?_
      rw [← twoPow_add]
      exact twoPow_le_twoPow (by omega)
    exact Nat.le_trans hlead (twoPow_le_round (Nat.log2_self_le hn))
  · obtain ⟨c, hc⟩ : spacing n ∣ a * twoPow e :=
      Nat.dvd_trans (twoPow_dvd_twoPow hle) (Nat.dvd_mul_left ..)
    have hquot : c ≤ n / spacing n := by
      rw [Nat.le_div_iff_mul_le (show 0 < spacing n from twoPow_pos _), Nat.mul_comm, ← hc]
      exact h
    have hdown : a * twoPow e ≤ n / spacing n * spacing n := by
      rw [hc, Nat.mul_comm]
      exact Nat.mul_le_mul_right _ hquot
    refine Nat.le_trans hdown ?_
    simp only [round]
    split
    · exact Nat.le_refl _
    · exact Nat.mul_le_mul_right _ (Nat.le_succ _)

/-! ## Numbers that are no index -/

/-- Not a number, or below zero. -/
inductive IsLow : Number → Prop where
  | nan : IsLow .nan
  | infinite : IsLow (.infinite true)
  | finite {negative units representable} (h : signed negative units < 0) :
    IsLow (.finite negative units representable)

/-- Not below a bound. -/
inductive IsHigh (bound : Nat) : Number → Prop where
  | infinite : IsHigh bound (.infinite false)
  | finite {negative units representable} (h : (bound * one : Nat) ≤ signed negative units) :
    IsHigh bound (.finite negative units representable)

theorem IsLow.floor? (h : x.IsLow) : x.floor? = none := by
  cases h with
  | nan => rfl
  | infinite => rfl
  | @finite negative units representable h =>
    cases negative with
    | false =>
      rw [signed, if_neg Bool.false_ne_true] at h
      omega
    | true =>
      rw [signed, if_pos rfl] at h
      have hunits : units ≠ 0 := by omega
      simp only [Number.floor?, Bool.true_and, bne_iff_ne, ne_eq, hunits, not_false_eq_true, if_true]

theorem IsLow.toWord (h : x.IsLow) : x.toWord = 0 := by
  have hfloor := h.floor?
  cases h with
  | nan => rfl
  | infinite => rfl
  | finite h => simp only [Number.toWord, hfloor, Option.getD_none, Nat.zero_min]

theorem IsHigh.le_floor? {bound i : Nat} (h : x.IsHigh bound) (hi : x.floor? = some i) :
    bound ≤ i := by
  cases h with
  | infinite => cases hi
  | @finite negative units representable h =>
    have hunits : bound * one ≤ units := by
      simp only [signed] at h
      split at h <;> omega
    simp only [Number.floor?] at hi
    split at hi
    · cases hi
    · cases hi
      exact (Nat.le_div_iff_mul_le one_pos).mpr hunits

/-- The number of items that are lost where an index is too low: none, unless the index is so close
to zero that its successor rounds to one. -/
def lost (x : Number) : Nat := if x.add (ofNat 1) = ofNat 1 then 1 else 0

theorem ofNat_one_eq : ofNat 1 = .finite false one representable_one := by
  rw [ofNat_eq (n := 1) Nat.one_le_two_pow]
  simp only [Nat.one_mul]

theorem lost_of_ne (h : x.add (ofNat 1) ≠ ofNat 1) : x.lost = 0 := if_neg h

theorem ofUnits_eq (negative : Bool) (n : Nat) :
    (∃ h, ofUnits negative n = .finite negative (round n) h) ∨
      ofUnits negative n = .infinite negative := by
  rw [ofUnits]
  split
  · rename_i h
    exact .inl ⟨⟨h, round_significant n⟩, rfl⟩
  · exact .inr rfl

theorem toWord_ofUnits_negative (n : Nat) : (ofUnits true n).toWord = 0 := by
  rcases ofUnits_eq true n with ⟨h, heq⟩ | heq <;> rw [heq]
  · simp only [toWord, floor?, Bool.true_and]
    split
    · rfl
    · rename_i hzero
      simp only [bne_iff_ne, ne_eq, Decidable.not_not] at hzero
      simp only [hzero, Nat.zero_div, Option.getD_some, Nat.zero_min]
  · rfl

theorem ofUnits_negative_ne (n : Nat) : ofUnits true n ≠ ofNat 1 := by
  intro hone
  rw [ofNat_one_eq] at hone
  rcases ofUnits_eq true n with ⟨h, heq⟩ | heq
  · rw [heq] at hone
    injection hone with hsign
    cases hsign
  · rw [heq] at hone
    injection hone

/-- Between zero and one, rounding goes up to one or stays below it. -/
theorem toWord_ofUnits_of_lt (h : n < one) :
    (ofUnits false n).toWord = if ofUnits false n = ofNat 1 then 1 else 0 := by
  have hle : round n ≤ one := round_le_twoPow (Nat.le_of_lt h)
  have hlimit : round n < limit := Nat.lt_of_le_of_lt hle representable_one.1
  have hword : 1 ≤ twoPow 64 - 1 := by decide
  have hunits : ofUnits false n = .finite false (round n) ⟨hlimit, round_significant n⟩ :=
    dif_pos hlimit
  rw [hunits, ofNat_one_eq]
  by_cases heq : round n = one
  · rw [if_pos (by simp only [heq])]
    simp only [toWord, floor?, Bool.false_and, Bool.false_eq_true, if_false, Option.getD_some]
    rw [heq, Nat.div_self one_pos, Nat.min_eq_left hword]
  · rw [if_neg fun h => heq (by injection h)]
    simp only [toWord, floor?, Bool.false_and, Bool.false_eq_true, if_false, Option.getD_some]
    rw [Nat.div_eq_of_lt (Nat.lt_of_le_of_ne hle heq), Nat.zero_min]

theorem finite_add_one (negative : Bool) (units : Nat) (representable : Representable units) :
    (Number.finite negative units representable).add (ofNat 1) =
      if signed negative units + one = 0 then signedZero (negative && false)
      else ofUnits (signed negative units + one < 0) (signed negative units + one).natAbs := by
  rw [ofNat_one_eq]
  rfl

theorem signedZero_ne_ofNat_one : signedZero false ≠ ofNat 1 := by
  rw [ofNat_one_eq, signedZero]
  intro heq
  injection heq with _ hunits
  exact one_ne_zero hunits.symm

/-- Nothing is lost from minus one downwards. -/
theorem lost_of_nonpos {negative : Bool} {units : Nat} (representable : Representable units)
    (h : signed negative units + one ≤ 0) : (finite negative units representable).lost = 0 := by
  refine lost_of_ne ?_
  rw [finite_add_one, Bool.and_false]
  split
  · exact signedZero_ne_ofNat_one
  · rename_i hne
    rw [decide_eq_true (by omega)]
    exact ofUnits_negative_ne _

/-- The items after an index that is too low start with the first one or, where the successor of the
index rounds to one, with the second one. -/
theorem IsLow.toWord_add_one (h : x.IsLow) : (x.add (ofNat 1)).toWord = x.lost := by
  cases h with
  | nan =>
    rw [lost_of_ne] <;> rw [ofNat_one_eq]
    · rfl
    · simp [add]
  | infinite =>
    rw [lost_of_ne] <;> rw [ofNat_one_eq]
    · rfl
    · simp [add]
  | @finite negative units representable h =>
    have hadd := finite_add_one negative units representable
    rcases Int.lt_trichotomy (signed negative units + one) 0 with hneg | hzero | hpos
    · rw [if_neg (Int.ne_of_lt hneg), decide_eq_true hneg] at hadd
      rw [lost_of_nonpos _ (Int.le_of_lt hneg), hadd, toWord_ofUnits_negative]
    · rw [if_pos hzero, Bool.and_false] at hadd
      change _ = zero at hadd
      rw [lost_of_nonpos _ (Int.le_of_eq hzero), hadd, ← ofNat_zero, toWord_ofNat (Nat.zero_le _)]
    · have hsign : decide (signed negative units + one < 0) = false := decide_eq_false (by omega)
      rw [if_neg (Int.ne_of_gt hpos), hsign] at hadd
      rw [lost, hadd]
      exact toWord_ofUnits_of_lt (by omega)

theorem IsHigh.le_toWord {bound : Nat} (h : x.IsHigh bound) (hb : bound ≤ twoPow 53) :
    bound ≤ x.toWord := by
  have hword : twoPow 53 < twoPow 64 := twoPow_lt_twoPow (by decide)
  have hle := fun i => h.le_floor? (i := i)
  cases h with
  | infinite =>
    simp only [toWord]
    omega
  | @finite negative units representable h =>
    have hsome : (Number.finite negative units representable).floor? = some (units / one) := by
      refine if_neg fun hnone => ?_
      simp only [Bool.and_eq_true, bne_iff_ne] at hnone
      rw [signed, if_pos hnone.1] at h
      omega
    have hle := hle _ hsome
    simp only [toWord, hsome, Option.getD_some]
    omega

theorem isHigh_ofUnits {a : Nat} (ha : a ≤ twoPow 53) (h : a * one ≤ n) :
    (ofUnits false n).IsHigh a := by
  have hround := (representable_mul_one ha).le_round h
  rcases ofUnits_eq false n with ⟨h, heq⟩ | heq <;> rw [heq]
  · refine .finite ?_
    rw [signed, if_neg Bool.false_ne_true]
    exact Int.ofNat_le.mpr hround
  · exact .infinite

theorem not_isHigh_ofNat_one : ¬ (ofNat 1).IsHigh 2 := by
  have hone := one_pos
  rw [ofNat_one_eq]
  intro h
  cases h with
  | finite h =>
    rw [signed, if_neg Bool.false_ne_true] at h
    omega

/-- The successor of an index that is too high is at least as high. -/
theorem IsHigh.add_one {a bound : Nat} (h : x.IsHigh bound) (ha : a ≤ bound + 1)
    (hexact : a ≤ twoPow 53) : (x.add (ofNat 1)).IsHigh a := by
  cases h with
  | infinite =>
    rw [ofNat_one_eq]
    exact .infinite
  | @finite negative units representable h =>
    have hsum : ((a * one : Nat) : Int) ≤ signed negative units + one := by
      have hle := Nat.mul_le_mul_right one ha
      rw [Nat.succ_mul] at hle
      omega
    have hpos : 0 < signed negative units + one := by
      have hone := one_pos
      omega
    have hadd := finite_add_one negative units representable
    rw [if_neg (Int.ne_of_gt hpos), decide_eq_false (Int.not_lt.mpr (Int.le_of_lt hpos))] at hadd
    rw [hadd]
    exact isHigh_ofUnits hexact (by omega)

theorem IsHigh.lost {bound : Nat} (h : x.IsHigh bound) (hb : 0 < bound) : x.lost = 0 := by
  refine lost_of_ne fun heq => not_isHigh_ofNat_one ?_
  rw [← heq]
  exact h.add_one (Nat.succ_le_succ hb) (by decide)

end Number

/-! ## Arrays -/

namespace Value

variable {c w : Value} {x : Number} {bound : Nat}

theorem resplice_of_low (h : x.IsLow) (c w : Value) : c.resplice x w =
    .array (w.spread ++ (c.items.drop x.lost).take Location.keptItems) := by
  rw [resplice, h.toWord, h.toWord_add_one, List.take_zero, List.nil_append]

theorem resplice_of_high (h : x.IsHigh bound) (hb : bound ≤ Number.twoPow 53)
    (hc : c.items.length ≤ bound) (w : Value) : c.resplice x w = .array (c.items ++ w.spread) := by
  have hnext := (h.add_one (Nat.le_succ bound) hb).le_toWord hb
  rw [resplice, List.take_of_length_le (Nat.le_trans hc (h.le_toWord hb)),
    List.drop_eq_nil_of_le (Nat.le_trans hc hnext), List.take_nil, List.append_nil]

/-- An array of a usual length stays as it is exactly if what is written is what gets lost. -/
theorem resplice_eq_self_iff (h : x.IsLow ∨ x.IsHigh bound) (hpos : 0 < bound)
    (hb : bound ≤ Number.twoPow 53) (hc : c.items.length ≤ bound)
    (hkept : c.items.length ≤ Location.keptItems) (w : Value) :
    c.resplice x w = c ↔ c = .array c.items ∧ w.spread = c.items.take x.lost := by
  have heq (xs : List Value) : .array xs = c ↔ c = .array c.items ∧ xs = c.items := by
    constructor
    · rintro rfl
      exact ⟨rfl, rfl⟩
    · rintro ⟨hc, rfl⟩
      exact hc.symm
  rcases h with h | h
  · have hafter : (c.items.drop x.lost).take Location.keptItems = c.items.drop x.lost :=
      List.take_of_length_le (Nat.le_trans (by rw [List.length_drop]; omega) hkept)
    have hcancel : w.spread ++ c.items.drop x.lost = c.items ↔ w.spread = c.items.take x.lost := by
      constructor
      · intro h
        exact List.append_cancel_right (h.trans (List.take_append_drop x.lost c.items).symm)
      · intro h
        rw [h, List.take_append_drop]
    rw [resplice_of_low h, hafter, heq, hcancel]
  · rw [resplice_of_high h hb hc, heq, h.lost hpos, List.take_zero, List.append_right_eq_self]

end Value

/-! ## Machines -/

namespace Machine

variable {m : Machine} {l : Location} {e : Term} {c : Cell} {x : Number}

/-- The machine itself ignores an index that is too low or too high. -/
theorem setItem?_of_out_of_range (h : x.IsLow ∨ x.IsHigh m.capacity) (v w : Value) :
    m.setItem? v x w = none := by
  rw [setItem?]
  split
  · rename_i i hi
    rcases h with h | h
    · cases h.floor?.symm.trans hi
    · exact if_neg (Nat.not_lt.mpr (h.le_floor? hi))
  · rfl

theorem exec_writeItem_of_whole {index : Term} (hl : l.index = none)
    (h : (m.eval index).toNumber.IsLow ∨ (m.eval index).toNumber.IsHigh m.capacity)
    (e value : Term) : m.exec (l.writeItem e index value) = m := by
  simp only [Location.writeItem, hl]
  cases hc : m.cell? (l.place e) with
  | none => simp only [exec, hc]
  | some c => rw [exec_storeAt hc, setItem?_of_out_of_range h, Option.map_none, Option.getD_none]

theorem exec_writeItem_of_item {j : Nat} (hm : m.capacity ≤ Number.twoPow 53)
    (hl : l.Within m.capacity) (hj : l.index = some j) (hc : m.cell? (l.place e) = some c)
    (index value : Term) : m.exec (l.writeItem e index value) =
      m.write c (l.update (m.memory.read c)
        ((m.eval (l.read e)).resplice (m.eval index).toNumber (m.eval value))) := by
  simp only [Location.writeItem, hj]
  rw [exec_write hm hl hc, eval_resplice]

theorem eval_read_update (hm : m.capacity ≤ Number.twoPow 53) (hl : l.Within m.capacity) {v : Value}
    (hc : (m.write c (l.update (m.memory.read c) v)).cell? (l.place e) = some c) :
    (m.write c (l.update (m.memory.read c) v)).eval (l.read e) = v := by
  rw [eval_read (by rwa [write_capacity]) (by rwa [write_capacity]), hc, Option.map_some,
    Option.getD_some, read_write_self, Location.select_update_self]

end Machine

namespace Variable

/-- One item of a variable is written at an index that is not a number, is below zero or is not
below the capacity. A variable with a slot of its own, or on something that is not an entity, stays
as it is, and so does every other variable. But a variable that is itself an item of a slot is put
together again: what is written comes before all its items where the index is too low, and after them
where it is too high. Such a variable stays as it is only if that adds nothing, or, where the index is
so little below zero that its successor rounds to one, if its first item is written again. -/
theorem write_item_out_of_range {m : Machine} (hm : m.capacity ≤ Number.twoPow 53) {x : Variable}
    (hx : x.location.Within m.capacity) {index : Term}
    (hindex : (m.eval index).toNumber.IsLow ∨ (m.eval index).toNumber.IsHigh m.capacity)
    (value : Term) (entity : Option Term) :
    let place := x.location.place (entity.getD .eventEntity)
    let i := (m.eval index).toNumber
    let c := m.eval (x.read entity)
    let w := m.eval value
    let m' := m.exec (x.write value entity (some index))
    (x.location.index = none ∨ m.cell? place = none → m' = m) ∧
      (∀ y : Variable, x.location.Disjoint y.location → y.location.Within m.capacity →
        ∀ e : Option Nat, m'.eval (y.read (e.map .entity)) = m.eval (y.read (e.map .entity))) ∧
      ∀ j cell, x.location.index = some j → m.cell? place = some cell → m'.cell? place = some cell →
        m'.eval (x.read entity) = c.resplice i w ∧
        (i.IsLow → m'.eval (x.read entity) =
          .array (w.spread ++ (c.items.drop i.lost).take 9999)) ∧
        (i.IsHigh m.capacity → c.items.length ≤ m.capacity →
          m'.eval (x.read entity) = .array (c.items ++ w.spread)) ∧
        (c.items.length ≤ min m.capacity 9999 → (m'.eval (x.read entity) = c ↔
          c = .array c.items ∧ w.spread = c.items.take i.lost)) := by
  intro place i c w m'
  refine ⟨fun h => ?_, fun y hdisjoint hy e => ?_, fun j cell hj hcell hcell' => ?_⟩
  · rcases h with hwhole | hnone
    · exact Machine.exec_writeItem_of_whole hwhole hindex ..
    · cases hl : x.location.index with
      | none => exact Machine.exec_writeItem_of_whole hl hindex ..
      | some j =>
        simp only [m', Variable.write, Location.writeItem, hl]
        exact Machine.exec_write_of_no_cell hnone _
  · exact (Machine.touched_exec_writeItem hm hx ..).eval_read hm hdisjoint hy (Term.isNamed_getD e)
  · have hexec : m' = _ := Machine.exec_writeItem_of_item hm hx hj hcell index value
    have hread : m'.eval (x.read entity) = c.resplice i w := by
      rw [hexec] at hcell' ⊢
      exact Machine.eval_read_update hm hx hcell'
    rw [hread]
    refine ⟨rfl, fun hlow => Value.resplice_of_low hlow c w,
      fun hhigh hc => Value.resplice_of_high hhigh hm hc w, fun hc => ?_⟩
    exact Value.resplice_eq_self_iff hindex (Nat.zero_lt_of_lt (hx j hj)) hm
      (Nat.le_trans hc (Nat.min_le_left ..)) (Nat.le_trans hc (Nat.min_le_right ..)) w

/-- Two variables, one with a slot of its own and one packed, are written at the index that is the
capacity. Only the first one ignores it. -/
theorem write_item_out_of_range_at_capacity : ∃ (m : Machine) (x y : Variable),
    m.capacity = 1000 ∧ x.location.index = some 0 ∧ y.location.index = none ∧
      (m.eval (.ofNat 1000)).toNumber.IsHigh m.capacity ∧
      m.eval (x.read none) = .array [.entity 1, .entity 2] ∧
      (m.exec (x.write (.entity 7) none (some (.ofNat 1000)))).eval (x.read none) =
        .array [.entity 1, .entity 2, .entity 7] ∧
      (m.exec (x.write (.entity 7) none (some (.ofNat 1000)))).eval (y.read none) =
        m.eval (y.read none) ∧
      m.exec (y.write (.entity 7) none (some (.ofNat 1000))) = m := by
  let items : List Value := [.entity 1, .entity 2]
  let m : Machine := { event := 1, memory := Memory.write {} (.global ⟨0⟩) (.array [.array items]) }
  let x : Variable := { id := ⟨0⟩, name := "x", location := ⟨.global, ⟨0⟩, some 0⟩ }
  let y : Variable := { id := ⟨1⟩, name := "y", location := ⟨.global, ⟨1⟩, none⟩ }
  have hm : m.capacity ≤ Number.twoPow 53 := by decide
  have hx : x.location.Within m.capacity := by
    rintro i ⟨⟩
    decide
  have hy : y.location.Within m.capacity := by
    intro i hi
    cases hi
  have hhigh : (m.eval (.ofNat 1000)).toNumber.IsHigh m.capacity := by
    rw [Machine.toNumber_eval_ofNat, Number.ofNat_eq (by decide : 1000 ≤ Number.twoPow 53)]
    exact .finite (Int.le_refl _)
  have hheld : m.eval (x.read none) = .array items :=
    (m.eval_item_ofNat _ (Nat.zero_le _)).trans
      (congrArg (Value.at? · 0) (Memory.read_write_self ..))
  obtain ⟨-, hother, hitem⟩ := write_item_out_of_range hm hx (.inr hhigh) (.entity 7) none
  obtain ⟨hwhole, -, -⟩ := write_item_out_of_range hm hy (.inr hhigh) (.entity 7) none
  obtain ⟨-, -, hbehind, -⟩ := hitem 0 _ rfl (Machine.cell?_global rfl _) (Machine.cell?_global rfl _)
  refine ⟨m, x, y, rfl, rfl, rfl, hhigh, hheld, ?_, hother y ?_ hy none, hwhole (.inl rfl)⟩
  · rw [hheld] at hbehind
    exact hbehind hhigh (by decide)
  · intro _ hslot
    cases hslot

/-- A packed variable of two items has a third one after a write at the index `-1`. -/
theorem write_item_below_zero_inserts : ∃ (m : Machine) (x : Variable),
    m.capacity = 1000 ∧ x.location = ⟨.global, ⟨⟨0, by decide⟩⟩, some 0⟩ ∧
      (m.eval (.number (.neg (.ofNat 1)))).toNumber.IsLow ∧
      m.eval (x.read none) = .array [.number (.ofNat 1), .number (.ofNat 2)] ∧
      (m.exec (x.write (.ofNat 77) none (some (.number (.neg (.ofNat 1)))))).eval (x.read none) =
        .array [.number (.ofNat 77), .number (.ofNat 1), .number (.ofNat 2)] := by
  let items : List Value := [.number (.ofNat 1), .number (.ofNat 2)]
  let m : Machine := { event := 1, memory := Memory.write {} (.global ⟨0⟩) (.array [.array items]) }
  let x : Variable := { id := ⟨0⟩, name := "x", location := ⟨.global, ⟨0⟩, some 0⟩ }
  have hm : m.capacity ≤ Number.twoPow 53 := by decide
  have hx : x.location.Within m.capacity := by
    rintro i ⟨⟩
    decide
  have hlow : (Number.neg (.ofNat 1)).IsLow := by
    have hone := Number.one_pos
    rw [Number.neg_ofNat_one]
    refine .finite ?_
    rw [Number.signed, if_pos rfl]
    omega
  have hlost : (Number.neg (.ofNat 1)).lost = 0 := by
    rw [Number.neg_ofNat_one]
    refine Number.lost_of_nonpos _ ?_
    rw [Number.signed, if_pos rfl]
    omega
  have hheld : m.eval (x.read none) = .array items :=
    (m.eval_item_ofNat _ (Nat.zero_le _)).trans
      (congrArg (Value.at? · 0) (Memory.read_write_self ..))
  have hindex : (m.eval (.number (.neg (.ofNat 1)))).toNumber = .neg (.ofNat 1) := by
    rw [Machine.eval, Value.toNumber]
  have hvalue : m.eval (.ofNat 77) = .number (.ofNat 77) := by rw [Term.ofNat, Machine.eval]
  have hwrite := Machine.exec_writeItem_of_item hm hx rfl (Machine.cell?_global rfl .eventEntity)
    (.number (.neg (.ofNat 1))) (.ofNat 77)
  refine ⟨m, x, rfl, rfl, by rwa [hindex], hheld, ?_⟩
  refine (congrArg (Machine.eval · (x.read none)) hwrite).trans ?_
  refine (Machine.eval_read_update hm hx (Machine.cell?_global rfl _)).trans ?_
  rw [show m.eval (x.location.read .eventEntity) = .array items from hheld, hindex, hvalue,
    Value.resplice_of_low hlow, hlost]
  rfl

end Variable

end Stackless
