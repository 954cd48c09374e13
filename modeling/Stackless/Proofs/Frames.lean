import Stackless.Calling.FrameStack
import Stackless.Proofs.Locations

/-!
# Frame stacks are stacks

The frames of a parameter are the items of the array in its location. Each operation copies this
array to the scratch slot, changes it there and stores it back; seen through `FrameStack.live` it
is the operation of a list with its top at the end (`FrameStack.live_push`, `live_pop`,
`live_replaceTop`), and it leaves every location that is disjoint from that of the parameter alone
(`FrameStack.eval_read_edit`, `eval_read_pop`).
-/

namespace Stackless

/-! ## Terms that do not read a slot -/

mutual

/-- The term reads the global slot somewhere. -/
def Term.mentions (s : Slot) : Term → Bool
  | .number _ | .entity _ | .eventEntity | .emptyArray => false
  | .array items => mentionsIn s items
  | .global slot => slot == s
  | .entitySlot owner _ => owner.mentions s
  | .item a i => a.mentions s || i.mentions s
  | .last a | .count a => a.mentions s
  | .slice a i n => a.mentions s || i.mentions s || n.mentions s
  | .append a b | .add a b | .subtract a b => a.mentions s || b.mentions s

def Term.mentionsIn (s : Slot) : List Term → Bool
  | [] => false
  | t :: ts => t.mentions s || mentionsIn s ts

end

namespace Machine

/-- The machines differ at most in one global slot. -/
structure AgreeOff (slot : Slot) (m m' : Machine) : Prop where
  event : m'.event = m.event
  capacity : m'.capacity = m.capacity
  read : ∀ c, c ≠ .global slot → m'.memory.read c = m.memory.read c

variable {m m' : Machine} {slot : Slot}

theorem AgreeOff.refl (slot : Slot) (m : Machine) : AgreeOff slot m m := ⟨rfl, rfl, fun _ _ => rfl⟩

theorem AgreeOff.write (h : AgreeOff slot m m') (v : Value) :
    AgreeOff slot m (m'.write (.global slot) v) :=
  ⟨h.event, h.capacity, fun c hc => (read_write_of_ne _ _ hc.symm).trans (h.read c hc)⟩

mutual

theorem AgreeOff.eval (h : AgreeOff slot m m') :
    (t : Term) → t.mentions slot = false → m'.eval t = m.eval t
  | .number _, _ | .entity _, _ | .emptyArray, _ => by simp only [Machine.eval]
  | .eventEntity, _ => by simp only [Machine.eval, h.event]
  | .array items, ht => by
    simp only [Term.mentions] at ht
    simp only [Machine.eval, h.evalList items ht]
  | .global s, ht => by
    simp only [Term.mentions, beq_eq_false_iff_ne] at ht
    simp only [Machine.eval]
    exact h.read _ fun he => ht (Cell.global.inj he)
  | .entitySlot owner s, ht => by
    simp only [Term.mentions] at ht
    simp only [Machine.eval, h.eval owner ht]
    split
    · exact h.read _ (by simp)
    · rfl
  | .item a i, ht => by
    simp only [Term.mentions, Bool.or_eq_false_iff] at ht
    simp only [Machine.eval, h.eval a ht.1, h.eval i ht.2]
  | .last a, ht | .count a, ht => by
    simp only [Term.mentions] at ht
    simp only [Machine.eval, h.eval a ht]
  | .slice a i n, ht => by
    simp only [Term.mentions, Bool.or_eq_false_iff] at ht
    simp only [Machine.eval, h.eval a ht.1.1, h.eval i ht.1.2, h.eval n ht.2]
  | .append a b, ht | .add a b, ht | .subtract a b, ht => by
    simp only [Term.mentions, Bool.or_eq_false_iff] at ht
    simp only [Machine.eval, h.eval a ht.1, h.eval b ht.2]

theorem AgreeOff.evalList (h : AgreeOff slot m m') :
    (ts : List Term) → Term.mentionsIn slot ts = false → m'.evalList ts = m.evalList ts
  | [], _ => by simp only [Machine.evalList]
  | t :: ts, ht => by
    simp only [Term.mentionsIn, Bool.or_eq_false_iff] at ht
    simp only [Machine.evalList, h.eval t ht.1, h.evalList ts ht.2]

end

end Machine

theorem Term.IsNamed.mentions {e : Term} (h : e.IsNamed) (slot : Slot) :
    e.mentions slot = false := by
  cases h <;> simp [Term.mentions]

/-- A location outside a slot is read without reading the slot. -/
theorem Location.mentions_read {l : Location} {slot : Slot} {e : Term}
    (h : l.domain = .global → l.slot ≠ slot) (he : e.IsNamed) :
    (l.read e).mentions slot = false := by
  have hplace : (l.place e).read.mentions slot = false := by
    cases hd : l.domain with
    | global => simp [Location.place, hd, Place.read, Term.mentions, h hd]
    | entity => simp [Location.place, hd, Place.read, Term.mentions, he.mentions]
  cases hi : l.index with
  | none => simp only [Location.read, hi, hplace]
  | some i => simp only [Location.read, hi, Term.ofNat, Term.mentions, hplace, Bool.or_false]

/-! ## The items of edited arrays -/

namespace Value

theorem items_setItem_length (v x : Value) :
    (v.setItem v.items.length x).items = v.items ++ [x] := by
  have hpad : v.items.length + 1 - v.items.length = 1 := by omega
  simp [setItem, hpad]

theorem items_setItem_pred {v : Value} {n : Nat} (h : v.items.length = n + 1) (x : Value) :
    (v.setItem n x).items = v.items.dropLast ++ [x] := by
  have hne : v.items ≠ [] := by intro he; simp [he] at h
  have hlen : v.items.dropLast.length = n := by simp [h]
  have hpad : n + 1 - (n + 1) = 0 := by omega
  simp only [setItem, items_array, h, hpad, List.replicate_zero, List.append_nil]
  conv => lhs; rw [← List.dropLast_concat_getLast hne, ← hlen]
  simp

end Value

namespace Machine

-- These go by rewriting, like `toNumber_eval_ofNat`.
theorem toNumber_eval_count (m : Machine) (t : Term) :
    (m.eval (.count t)).toNumber = .ofNat (m.eval t).items.length := by
  rw [eval, Value.toNumber]

theorem toNumber_eval_subtract (m : Machine) (a b : Term) :
    (m.eval (.subtract a b)).toNumber = (m.eval a).toNumber.sub (m.eval b).toNumber := by
  rw [eval, Value.toNumber]

theorem toNumber_eval_count_pred (m : Machine) (t : Term) :
    (m.eval (.subtract (.count t) (.ofNat 1))).toNumber =
      (Number.ofNat (m.eval t).items.length).sub (.ofNat 1) := by
  rw [toNumber_eval_subtract, toNumber_eval_count, toNumber_eval_ofNat]

/-- The item before the end is replaced if the capacity allows, however long the array is. -/
theorem setItem?_pred {m : Machine} (hm : m.capacity ≤ Number.twoPow 52) (n : Nat) (v x : Value) :
    m.setItem? v ((Number.ofNat (n + 1)).sub (.ofNat 1)) x =
      if n < m.capacity then some (v.setItem n x) else none := by
  by_cases hn : n + 1 ≤ Number.twoPow 53
  · rw [Number.ofNat_sub_one hn, setItem?_ofNat (Nat.le_of_succ_le hn)]
  · have hle : Number.twoPow 52 ≤ Number.twoPow 53 := Number.twoPow_le_twoPow (by decide)
    rw [if_neg (by omega), setItem?]
    split
    · rename_i i hi
      have := Number.twoPow_le_floor?_sub_one (by omega) hi
      rw [if_neg (by omega)]
    · rfl

end Machine

/-! ## Operations -/

namespace FrameStack

/-- The live frames, the innermost last. -/
def live (s : FrameStack) (m : Machine) : List Value := (m.eval (s.frames none)).items

/-- The parameter has a location of its own that the machine can use. -/
structure Fits (s : FrameStack) (m : Machine) : Prop where
  global : s.parameter.location.domain = .global
  within : s.parameter.location.Within m.capacity
  apart : s.parameter.location.slot ≠ s.scratch
  small : m.capacity ≤ Number.twoPow 52

variable {s : FrameStack} {m m' : Machine} {e : Option Term} {i t : Term}

theorem Fits.congr (S : s.Fits m) (h : m'.capacity = m.capacity) : s.Fits m' :=
  ⟨S.global, h ▸ S.within, S.apart, h ▸ S.small⟩

theorem Fits.exact (S : s.Fits m) : m.capacity ≤ Number.twoPow 53 :=
  Nat.le_trans S.small (Number.twoPow_le_twoPow (by decide))

/-- A global location is the same for all entities. -/
theorem frames_entity (S : s.Fits m) (e : Option Term) : s.frames e = s.frames none := by
  simp [frames, Variable.read, Location.read, Location.place, S.global]

theorem frames_mentions (S : s.Fits m) : (s.frames none).mentions s.scratch = false :=
  Location.mentions_read (fun _ => S.apart) .event

/-- The frames in the location after it was written. -/
theorem eval_frames_write (S : s.Fits m) (e : Option Term) (t : Term) :
    (m.exec (s.parameter.write t e none)).eval (s.frames none) = m.eval t := by
  have hc : ∀ e, m.cell? (s.parameter.location.place e) = some (.global s.parameter.location.slot) :=
    Machine.cell?_global S.global
  have hwrite : s.parameter.write t e none = s.parameter.location.write .eventEntity t := by
    simp [Variable.write, Location.write, Location.place, S.global]
  rw [hwrite]
  exact Machine.eval_read_exec_write_self S.exact S.within .event (hc _) t

/-- The scratch slot after the middle action of an edit. -/
theorem agreeOff_storeAt (h : Machine.AgreeOff slot m m') (i t : Term) :
    Machine.AgreeOff slot m (m'.exec (.storeAt (.global slot) i t)) := by
  rw [Machine.exec_storeAt (by rfl : m'.cell? (.global slot) = some (.global slot))]
  cases m'.setItem? (m'.memory.read (.global slot)) (m'.eval i).toNumber (m'.eval t) with
  | none => exact h
  | some v => exact h.write v

theorem read_storeAt (m : Machine) (slot : Slot) (i t : Term) :
    (m.exec (.storeAt (.global slot) i t)).memory.read (.global slot) =
      (m.setItem? (m.memory.read (.global slot)) (m.eval i).toNumber (m.eval t)).getD
        (m.memory.read (.global slot)) := by
  rw [Machine.exec_storeAt (by rfl : m.cell? (.global slot) = some (.global slot))]
  cases m.setItem? (m.memory.read (.global slot)) (m.eval i).toNumber (m.eval t) with
  | none => rfl
  | some v => simp

/-- The machine whose scratch slot holds the frames. -/
def copied (s : FrameStack) (m : Machine) : Machine :=
  m.write (.global s.scratch) (m.eval (s.frames none))

theorem agreeOff_copied (s : FrameStack) (m : Machine) :
    Machine.AgreeOff s.scratch m (s.copied m) :=
  (Machine.AgreeOff.refl _ m).write _

theorem eval_scratch_copied (s : FrameStack) (m : Machine) :
    (s.copied m).eval (.global s.scratch) = m.eval (s.frames none) := by
  rw [Machine.eval, copied, Machine.read_write_self]

theorem setItem?_copied (s : FrameStack) (m : Machine) (v : Value) (x : Number) (y : Value) :
    (s.copied m).setItem? v x y = m.setItem? v x y := rfl

/-- An edit runs as a change of one item in the scratch slot and a write of the result. -/
theorem run_edit (S : s.Fits m) (i t : Term) (e : Option Term) :
    ∃ m', Machine.AgreeOff s.scratch m m' ∧
      m.run (s.edit i t e) = m'.exec (s.parameter.write (.global s.scratch) e none) ∧
      m'.eval (.global s.scratch) =
        ((s.copied m).setItem? (m.eval (s.frames none)) ((s.copied m).eval i).toNumber
          ((s.copied m).eval t)).getD (m.eval (s.frames none)) := by
  refine ⟨(s.copied m).exec (.storeAt (.global s.scratch) i t),
    agreeOff_storeAt (agreeOff_copied s m) i t, ?_, ?_⟩
  · rw [edit, frames_entity S e]
    rfl
  · rw [Machine.eval, read_storeAt, copied, Machine.read_write_self]

theorem eval_frames_edit (S : s.Fits m) (i t : Term) (e : Option Term) :
    (m.run (s.edit i t e)).eval (s.frames none) =
      ((s.copied m).setItem? (m.eval (s.frames none)) ((s.copied m).eval i).toNumber
        ((s.copied m).eval t)).getD (m.eval (s.frames none)) := by
  obtain ⟨m', hagree, hrun, hval⟩ := run_edit S i t e
  rw [hrun, eval_frames_write (S.congr hagree.capacity), hval]

/-- A pushed frame is the value before the push. -/
theorem live_push (S : s.Fits m) (ht : t.mentions s.scratch = false)
    (hlen : (s.live m).length < m.capacity) :
    s.live (m.run (s.push t e)) = s.live m ++ [m.eval t] := by
  have hexact : (s.live m).length ≤ Number.twoPow 53 := Nat.le_trans (Nat.le_of_lt hlen) S.exact
  rw [live] at hlen hexact
  rw [live, push, eval_frames_edit S, Machine.toNumber_eval_count, eval_scratch_copied,
    (agreeOff_copied s m).eval t ht, setItem?_copied, Machine.setItem?_ofNat hexact,
    if_pos hlen, Option.getD_some]
  exact Value.items_setItem_length ..

/-- Replacing the top of an empty stack does nothing. -/
theorem live_replaceTop_nil (S : s.Fits m) (h : s.live m = []) (t : Term) :
    s.live (m.run (s.replaceTop t e)) = [] := by
  have hlen : (m.eval (s.frames none)).items.length = 0 := by rw [← live, h]; rfl
  rw [live, replaceTop, eval_frames_edit S, Machine.toNumber_eval_count_pred, eval_scratch_copied,
    hlen, Number.zero_sub_one, Machine.setItem?, Number.floor?_neg_one, Option.getD_none]
  exact h

theorem eval_frames_replaceTop (S : s.Fits m) {n : Nat} (h : (s.live m).length = n + 1)
    (t : Term) : (m.run (s.replaceTop t e)).eval (s.frames none) =
      if n < m.capacity then (m.eval (s.frames none)).setItem n ((s.copied m).eval t)
      else m.eval (s.frames none) := by
  have hlen : (m.eval (s.frames none)).items.length = n + 1 := h
  rw [replaceTop, eval_frames_edit S, Machine.toNumber_eval_count_pred, eval_scratch_copied, hlen,
    setItem?_copied, Machine.setItem?_pred S.small]
  split <;> rfl

theorem live_replaceTop (S : s.Fits m) (ht : t.mentions s.scratch = false) (hne : s.live m ≠ [])
    (hlen : (s.live m).length ≤ m.capacity) :
    s.live (m.run (s.replaceTop t e)) = (s.live m).dropLast ++ [m.eval t] := by
  obtain ⟨n, hn⟩ := Nat.exists_eq_succ_of_ne_zero (mt List.length_eq_zero_iff.mp hne)
  rw [hn] at hlen
  rw [live, eval_frames_replaceTop S hn, if_pos (Nat.lt_of_succ_le hlen),
    (agreeOff_copied s m).eval t ht]
  exact Value.items_setItem_pred hn _

/-- The top of a stack beyond the capacity cannot be replaced. -/
theorem live_replaceTop_of_lt (S : s.Fits m) (hlen : m.capacity < (s.live m).length) (t : Term) :
    s.live (m.run (s.replaceTop t e)) = s.live m := by
  obtain ⟨n, hn⟩ := Nat.exists_eq_succ_of_ne_zero (Nat.ne_of_gt (Nat.zero_lt_of_lt hlen))
  rw [live, eval_frames_replaceTop S hn, if_neg (by omega)]
  rfl

/-- Replacing the top changes no other frame, whatever the value reads. -/
theorem live_replaceTop_any (S : s.Fits m) (t : Term) :
    (s.live (m.run (s.replaceTop t e))).dropLast = (s.live m).dropLast ∧
      (s.live (m.run (s.replaceTop t e))).length = (s.live m).length := by
  cases hn : (s.live m).length with
  | zero =>
    have hnil := List.length_eq_zero_iff.mp hn
    rw [live_replaceTop_nil S hnil, hnil]
    exact ⟨rfl, rfl⟩
  | succ n =>
    rw [live, eval_frames_replaceTop S hn]
    split
    · rw [Value.items_setItem_pred hn]
      have : (s.live m).dropLast.length = n := by simp [hn]
      rw [live] at this
      simp [live, this]
    · exact ⟨rfl, hn⟩

theorem live_pop (S : s.Fits m) (hlen : (s.live m).length ≤ Number.twoPow 53) :
    s.live (m.run (s.pop e)) = (s.live m).dropLast := by
  have hword : ((Number.ofNat (s.live m).length).sub (.ofNat 1)).toWord = (s.live m).length - 1 := by
    cases hn : (s.live m).length with
    | zero => rw [Number.zero_sub_one, Number.toWord_neg_one]
    | succ n =>
      rw [hn] at hlen
      rw [Number.ofNat_sub_one hlen, Number.toWord_ofNat (Nat.le_of_succ_le hlen)]
      rfl
  rw [live, pop, frames_entity S, Machine.run_cons, Machine.run_nil, eval_frames_write S,
    Machine.eval, Value.items_array, Machine.toNumber_eval_count_pred, Machine.toNumber_eval_ofNat,
    Number.toWord_ofNat (Nat.zero_le _), List.drop_zero, List.dropLast_eq_take, ← live, hword]

/-! ## What the operations leave alone -/

variable {l : Location} {e' : Term}

/-- The location belongs to neither the parameter nor the scratch slot. -/
structure Spares (s : FrameStack) (m : Machine) (l : Location) : Prop where
  disjoint : s.parameter.location.Disjoint l
  apart : l.domain = .global → l.slot ≠ s.scratch
  within : l.Within m.capacity

theorem eval_read_write (S : s.Fits m) (D : s.Spares m l) (he' : e'.IsNamed) (t : Term)
    (e : Option Term) :
    (m.exec (s.parameter.write t e none)).eval (l.read e') = m.eval (l.read e') :=
  (Machine.touched_exec_write S.exact S.within ..).eval_read S.exact D.disjoint D.within he'

theorem eval_read_edit (S : s.Fits m) (D : s.Spares m l) (he' : e'.IsNamed) (i t : Term)
    (e : Option Term) : (m.run (s.edit i t e)).eval (l.read e') = m.eval (l.read e') := by
  obtain ⟨m', hagree, hrun, _⟩ := run_edit S i t e
  have D' : s.Spares m' l := ⟨D.disjoint, D.apart, hagree.capacity ▸ D.within⟩
  rw [hrun, eval_read_write (S.congr hagree.capacity) D' he',
    hagree.eval _ (Location.mentions_read D.apart he')]

theorem eval_read_pop (S : s.Fits m) (D : s.Spares m l) (he' : e'.IsNamed) (e : Option Term) :
    (m.run (s.pop e)).eval (l.read e') = m.eval (l.read e') :=
  eval_read_write S D he' _ e

end FrameStack

end Stackless
