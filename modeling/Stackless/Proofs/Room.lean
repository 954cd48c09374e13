import Stackless.Proofs.Layout
import Stackless.Proofs.Outline

/-!
# How much room a target has

A cursor hands out locations one by one until all the room of its domain is used up, and no
sooner: how many it handed out can be told from where it stands (`Region.Filled`), and there is a
next location exactly while that number is below the room of the domain (`Region.takeLocation_of_lt`,
`Region.takeLocation_of_full`).
-/

namespace Stackless

/-- The number of variables of a domain that the target has room for. -/
def Options.room (o : Options) (d : Domain) : Nat :=
  (match d with
    | .global => o.slots - 1
    | .entity => o.slots) *
  (match o.packing with
    | .packed => o.capacity
    | .wholeSlot => 1)

namespace Region

/-- The target can be used: every slot has a name and holds something. -/
structure Valid (r : Region) : Prop where
  slots : r.slots ≤ 26
  capacity : 0 < r.capacity

/-- The number of positions below one that are not reserved. -/
def free (r : Region) (p : Nat) : Nat :=
  match r.reserved with
  | some q => if q < p then p - 1 else p
  | none => p

/-- The number of locations in a slot. -/
def perSlot (r : Region) : Nat :=
  match r.packing with
  | .packed => r.capacity
  | .wholeSlot => 1

/-- The number of locations that the cursor handed out. -/
inductive Filled (r : Region) (c : Cursor) : Nat → Prop where
  | whole (packing : r.packing = .wholeSlot) (filling : c.filling = none)
      (passed : c.passed ≤ r.slots) : Filled r c (r.free c.passed)
  | start (packing : r.packing = .packed) (filling : c.filling = none) (passed : c.passed = 0) :
    Filled r c 0
  | packed {s : Slot} {n k : Nat} (packing : r.packing = .packed)
      (filling : c.filling = some (s, k)) (passed : c.passed ≤ r.slots)
      (opened : r.free c.passed = n + 1) (pos : 0 < k) (le : k ≤ r.capacity) :
    Filled r c (n * r.capacity + k)

variable {r : Region} {c c' : Cursor} {p n : Nat}

theorem free_slots (r : Region) : r.free r.slots = r.usable := rfl

theorem free_zero (r : Region) : r.free 0 = 0 := by
  simp only [free]
  split <;> simp

theorem free_mono (r : Region) {p q : Nat} (h : p ≤ q) : r.free p ≤ r.free q := by
  simp only [free]
  split
  · split <;> split <;> omega
  · exact h

/-- Passing over the reserved position does not count. -/
theorem free_advance_succ (h : r.advance p < r.slots) : r.free (r.advance p + 1) = r.free p + 1 := by
  have hne := advance_not_reserved h
  simp only [advance] at h hne ⊢
  simp only [free]
  cases hr : r.reserved with
  | none => simp
  | some q =>
    simp only [hr, Option.some.injEq] at h hne ⊢
    by_cases hq : q = p
    · subst hq
      by_cases hlt : q < r.slots
      · simp only [hlt, and_self, if_true]
        rw [if_pos (by omega), if_neg (Nat.lt_irrefl q)]
        rfl
      · simp [hlt] at h
    · simp only [hq, false_and, if_false] at hne ⊢
      split <;> split <;> omega

theorem free_of_advance (hp : p ≤ r.slots) (h : r.slots ≤ r.advance p) : r.free p = r.usable := by
  rw [← free_slots]
  simp only [advance] at h
  simp only [free]
  cases hr : r.reserved with
  | none =>
    simp only [hr] at h ⊢
    simp at h
    omega
  | some q =>
    simp only [hr, Option.some.injEq] at h ⊢
    split at h
    · split <;> split <;> omega
    · have : p = r.slots := by omega
      rw [this]

/-! ## Slots -/

theorem takeSlot_of_lt (V : r.Valid) (hp : c.passed ≤ r.slots) (h : r.free c.passed < r.usable) :
    ∃ s c', r.takeSlot c = .ok s c' ∧ c'.filling = c.filling ∧ c'.passed ≤ r.slots ∧
      r.free c'.passed = r.free c.passed + 1 := by
  have hlt : r.advance c.passed < r.slots := by
    refine Nat.lt_of_not_le fun hge => ?_
    have := free_of_advance hp hge
    omega
  have hname : r.advance c.passed < 26 := Nat.lt_of_lt_of_le hlt V.slots
  refine ⟨⟨⟨r.advance c.passed, hname⟩⟩, { c with passed := r.advance c.passed + 1 }, ?_, rfl, hlt,
    free_advance_succ hlt⟩
  simp only [takeSlot, if_neg (Nat.not_le.mpr hlt), Slot.ofPosition?, dif_pos hname]

theorem takeSlot_of_full (h : r.usable ≤ r.free c.passed) :
    ∃ f c', r.takeSlot c = .error f c' := by
  have hge : r.slots ≤ r.advance c.passed := by
    refine Nat.le_of_not_lt fun hlt => ?_
    have hmono := r.free_mono (Nat.succ_le_of_lt hlt)
    rw [free_advance_succ hlt, free_slots] at hmono
    omega
  exact ⟨_, _, if_pos hge⟩

/-! ## Locations -/

theorem openSlot_of_lt (V : r.Valid) (hpacking : r.packing = .packed) (hp : c.passed ≤ r.slots)
    (h : r.free c.passed < r.usable) :
    ∃ l c', r.openSlot c = .ok l c' ∧ r.Filled c' (r.free c.passed * r.capacity + 1) := by
  obtain ⟨s, c', htake, _, hp', hfree⟩ := takeSlot_of_lt V hp h
  refine ⟨⟨r.domain, s, some 0⟩, { c' with filling := some (s, 1) }, ?_, ?_⟩
  · simp only [openSlot, htake]
  · exact .packed (c := { c' with filling := some (s, 1) }) hpacking rfl hp' hfree Nat.one_pos
      V.capacity

theorem openSlot_of_full (h : r.usable ≤ r.free c.passed) :
    ∃ f c', r.openSlot c = .error f c' := by
  obtain ⟨f, c', htake⟩ := takeSlot_of_full h
  simp only [openSlot, htake]
  split <;> exact ⟨_, _, rfl⟩

/-- While there is room, one more location is handed out. -/
theorem takeLocation_of_lt (V : r.Valid) (F : r.Filled c n) (h : n < r.usable * r.perSlot) :
    ∃ l c', r.takeLocation c = .ok l c' ∧ r.Filled c' (n + 1) := by
  cases F with
  | whole packing filling passed =>
    simp only [perSlot, packing, Nat.mul_one] at h
    obtain ⟨s, c', htake, hfilling, hp', hfree⟩ := takeSlot_of_lt V passed h
    refine ⟨⟨r.domain, s, none⟩, c', ?_, ?_⟩
    · simp only [takeLocation, packing, htake]
    · rw [← hfree]
      exact .whole packing (hfilling.trans filling) hp'
  | start packing filling passed =>
    simp only [perSlot, packing] at h
    have hfree : r.free c.passed = 0 := passed ▸ r.free_zero
    have husable : r.free c.passed < r.usable := by
      rw [hfree]
      exact Nat.pos_of_mul_pos_right h
    obtain ⟨l, c', hopen, F'⟩ := openSlot_of_lt V packing (passed ▸ Nat.zero_le _) husable
    rw [hfree, Nat.zero_mul] at F'
    exact ⟨l, c', by simp only [takeLocation, packing, filling, hopen], F'⟩
  | @packed s m k packing filling passed opened pos le =>
    simp only [perSlot, packing] at h
    by_cases hk : k < r.capacity
    · refine ⟨⟨r.domain, s, some k⟩, { c with filling := some (s, k + 1) }, ?_, ?_⟩
      · simp only [takeLocation, packing, filling, if_pos hk]
      · exact .packed (c := { c with filling := some (s, k + 1) }) packing rfl passed opened
          (Nat.succ_pos k) hk
    · have hfull : k = r.capacity := Nat.le_antisymm le (Nat.not_lt.mp hk)
      have hnext : m * r.capacity + k = r.free c.passed * r.capacity := by
        rw [hfull, opened, Nat.succ_mul]
      have husable : r.free c.passed < r.usable := by
        rw [hnext] at h
        exact Nat.lt_of_mul_lt_mul_right h
      obtain ⟨l, c', hopen, F'⟩ := openSlot_of_lt V packing passed husable
      rw [← hnext] at F'
      exact ⟨l, c', by simp only [takeLocation, packing, filling, if_neg hk, hopen], F'⟩

/-- When the room is used up, no location is handed out. -/
theorem takeLocation_of_full (V : r.Valid) (F : r.Filled c n) (h : r.usable * r.perSlot ≤ n) :
    ∃ f c', r.takeLocation c = .error f c' := by
  cases F with
  | whole packing filling passed =>
    simp only [perSlot, packing, Nat.mul_one] at h
    obtain ⟨f, c', htake⟩ := takeSlot_of_full h
    exact ⟨f, c', by simp only [takeLocation, packing, htake]⟩
  | start packing filling passed =>
    simp only [perSlot, packing] at h
    have hnone : r.usable = 0 :=
      (Nat.mul_eq_zero.mp (Nat.le_zero.mp h)).resolve_right (Nat.ne_of_gt V.capacity)
    obtain ⟨f, c', hopen⟩ := openSlot_of_full (c := c) (hnone ▸ Nat.zero_le _)
    exact ⟨f, c', by simp only [takeLocation, packing, filling, hopen]⟩
  | @packed s m k packing filling passed opened pos le =>
    simp only [perSlot, packing] at h
    have hopened : m + 1 ≤ r.usable := opened ▸ free_slots r ▸ r.free_mono passed
    have hall : (m + 1) * r.capacity ≤ m * r.capacity + k :=
      Nat.le_trans (Nat.mul_le_mul_right _ hopened) h
    have hk : ¬ k < r.capacity := by
      rw [Nat.succ_mul] at hall
      omega
    have hfull : r.usable ≤ r.free c.passed := by
      rw [opened]
      refine Nat.le_of_mul_le_mul_right (Nat.le_trans h ?_) V.capacity
      rw [Nat.succ_mul]
      omega
    obtain ⟨f, c', hopen⟩ := openSlot_of_full hfull
    exact ⟨f, c', by simp only [takeLocation, packing, filling, if_neg hk, hopen]⟩

/-- No more locations are handed out than there is room for. -/
theorem Filled.le (F : r.Filled c n) : n ≤ r.usable * r.perSlot := by
  cases F with
  | whole packing filling passed =>
    simp only [perSlot, packing, Nat.mul_one]
    exact free_slots r ▸ r.free_mono passed
  | start packing filling passed => exact Nat.zero_le _
  | @packed s m k packing filling passed opened pos le =>
    simp only [perSlot, packing]
    have hopened : m + 1 ≤ r.usable := opened ▸ free_slots r ▸ r.free_mono passed
    refine Nat.le_trans ?_ (Nat.mul_le_mul_right _ hopened)
    rw [Nat.succ_mul]
    omega

end Region

/-! ## Layouts -/

namespace Options

variable {o : Options}

theorem validate_ok (h : o.validate = .ok ()) :
    o.slots ≤ 26 ∧ 0 < o.capacity ∧ o.scratch.position.val < o.slots := by
  simp only [validate] at h
  split at h
  · cases h
  · split at h
    · cases h
    · split at h
      · cases h
      · omega

theorem region_valid (h : o.validate = .ok ()) (d : Domain) : (o.region d).Valid :=
  ⟨(validate_ok h).1, (validate_ok h).2.1⟩

theorem room_eq (h : o.validate = .ok ()) (d : Domain) :
    o.room d = (o.region d).usable * (o.region d).perSlot := by
  have hscratch := (validate_ok h).2.2
  cases d with
  | global =>
    have husable : (o.region .global).usable = o.slots - 1 := if_pos hscratch
    rw [husable]
    rfl
  | entity => rfl

end Options

namespace Layout

/-- The number of variables of a domain. -/
def count (l : Layout) (d : Domain) : Nat := l.table.toList.countP (·.location.domain = d)

/-- Every location that was handed out belongs to a variable. -/
def Filled (l : Layout) : Prop :=
  ∀ d, (l.options.region d).Filled (l.cursor d) (l.count d)

variable {l l' : Layout} {d : Domain} {v : Variable} {id : VariableId}

theorem filled_ofOptions (o : Options) : ({ options := o } : Layout).Filled := by
  intro d
  have hstart : (o.region d).Filled {} 0 := by
    cases hpacking : o.packing with
    | packed => exact .start hpacking rfl rfl
    | wholeSlot =>
      have hwhole : (o.region d).Filled {} ((o.region d).free 0) :=
        .whole (c := {}) hpacking rfl (Nat.zero_le _)
      rwa [Region.free_zero] at hwhole
  cases d <;> exact hstart

theorem count_push (l : Layout) (v : Variable) (d : Domain) :
    (l.push v).count d = l.count d + if v.location.domain = d then 1 else 0 := by
  simp only [count, Layout.push, Array.toList_push, List.countP_append, List.countP_singleton,
    decide_eq_true_eq]

theorem count_stack (l : Layout) (id : VariableId) (d : Domain) :
    (l.stack id).count d = l.count d := by
  have hmodify : ∀ (vs : List Variable) (i : Nat),
      (vs.modify i fun v => { v with stacked := true }).countP (·.location.domain = d) =
        vs.countP (·.location.domain = d) := by
    intro vs
    induction vs with
    | nil => intro i; rw [List.modify_nil]
    | cons v vs ih =>
      intro i
      cases i with
      | zero => rfl
      | succ i => rw [List.modify_succ_cons, List.countP_cons, List.countP_cons, ih]
  simp only [count, stack, Array.toList_modify, hmodify]

theorem Filled.stack (F : l.Filled) (id : VariableId) : (l.stack id).Filled := by
  intro d
  rw [count_stack]
  exact F d

theorem Filled.le_room (F : l.Filled) (V : l.options.validate = .ok ()) (d : Domain) :
    l.count d ≤ l.options.room d := by
  rw [Options.room_eq V]
  exact (F d).le

/-- While there is room for a variable, it gets a location. -/
theorem Filled.exists_location (F : l.Filled) (V : l.options.validate = .ok ())
    (h : l.count d < l.options.room d) : ∃ location l', takeLocation d l = .ok location l' ∧
      location.domain = d ∧ l'.table = l.table ∧ l'.options = l.options ∧
      ∀ v : Variable, v.location = location → (l'.push v).Filled := by
  rw [Options.room_eq V] at h
  obtain ⟨location, c, htake, F'⟩ := Region.takeLocation_of_lt (Options.region_valid V d) (F d) h
  have hdomain : location.domain = d := Region.takeLocation_domain htake
  refine ⟨location, l.setCursor d c, ?_, hdomain, setCursor_table .., setCursor_options .., ?_⟩
  · simp only [takeLocation, onCursor, htake]
  · intro v hv d'
    have hcount : (l.setCursor d c).count d' = l.count d' := by simp only [count, setCursor_table]
    rw [count_push, hcount, hv, hdomain]
    change ((l.setCursor d c).options.region d').Filled ((l.setCursor d c).cursor d') _
    rw [setCursor_options, cursor_setCursor]
    by_cases hd : d = d'
    · subst hd
      rw [if_pos rfl, if_pos rfl]
      exact F'
    · rw [if_neg hd, if_neg hd]
      exact F d'

theorem Filled.exhausts (F : l.Filled) (V : l.options.validate = .ok ())
    (h : l.options.room d ≤ l.count d) :
    ∃ f l', takeLocation d l = .error f l' ∧ f.isExhaustion = true := by
  rw [Options.room_eq V] at h
  obtain ⟨f, c, htake⟩ := Region.takeLocation_of_full (Options.region_valid V d) (F d) h
  have hlayout : takeLocation d l = .error f (l.setCursor d c) := by
    simp only [takeLocation, onCursor, htake]
  refine ⟨f, _, hlayout, ?_⟩
  obtain ⟨d', hexhausts⟩ := takeLocation_tolerated hlayout (Options.validate_ok V).1
  cases hexhausts <;> rfl

end Layout

end Stackless
