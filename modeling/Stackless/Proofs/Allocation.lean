import Mathlib.Data.List.Basic
import Stackless.Proofs.Room

/-!
# The order in which storage is handed out

What a cursor can still hand out is a list of locations (`Region.rest`): the items left in the
slot that is being packed, then the items of the slots ahead. Each request takes the first of them,
and once there is none left every request ends in the same fault. So the answer to the `k`-th
request of a domain is known in advance, whatever is requested of the other domain in between
(`Layout.takeAll_answers`).
-/

namespace Stackless

namespace Options

/-- The slots of a domain that variables can get, in order. -/
def usableSlots (o : Options) (d : Domain) : List Slot :=
  ((List.range o.slots).filter fun p => ¬ (d = .global ∧ p = o.scratch.position.val)).filterMap
    Slot.ofPosition?

end Options

/-- The answers to requests for locations of the given domains, one after the other. -/
def Layout.takeAll : List Domain → Layout → List (Except Fault Location)
  | [], _ => []
  | d :: ds, l =>
    match Layout.takeLocation d l with
    | .ok p l' => .ok p :: takeAll ds l'
    | .error f l' => .error f :: takeAll ds l'

namespace Region

variable {r : Region} {c c' : Cursor} {p n k : Nat} {s : Slot} {l : Location} {ls : List Location}

/-! ## Slots -/

/-- The slots from a position on that can be handed out. -/
def ahead (r : Region) (p : Nat) : List Slot :=
  ((List.range' p (r.slots - p)).filter fun q => r.reserved ≠ some q).filterMap Slot.ofPosition?

theorem ahead_of_le (h : r.slots ≤ p) : r.ahead p = [] := by
  simp only [ahead, Nat.sub_eq_zero_of_le h, List.range'_zero, List.filter_nil, List.filterMap_nil]

theorem ahead_of_reserved (h : r.reserved = some p) : r.ahead p = r.ahead (p + 1) := by
  rcases Nat.lt_or_ge p r.slots with hlt | hge
  · have hsub : r.slots - p = (r.slots - (p + 1)) + 1 := by omega
    simp only [ahead, hsub, List.range'_succ]
    rw [List.filter_cons_of_neg (by simp [h])]
  · rw [ahead_of_le hge, ahead_of_le (Nat.le_succ_of_le hge)]

theorem ahead_of_lt (V : r.Valid) (hlt : p < r.slots) (h : r.reserved ≠ some p) :
    r.ahead p = ⟨⟨p, Nat.lt_of_lt_of_le hlt V.slots⟩⟩ :: r.ahead (p + 1) := by
  have hsub : r.slots - p = (r.slots - (p + 1)) + 1 := by omega
  simp only [ahead, hsub, List.range'_succ]
  rw [List.filter_cons_of_pos (by simpa using h), List.filterMap_cons_some]
  exact dif_pos (Nat.lt_of_lt_of_le hlt V.slots)

theorem ahead_advance (r : Region) (p : Nat) : r.ahead (r.advance p) = r.ahead p := by
  simp only [advance]
  split
  · rename_i h
    exact (ahead_of_reserved h.1).symm
  · rfl

theorem length_ahead {p : Nat} (V : r.Valid) (h : p ≤ r.slots) :
    (r.ahead p).length + r.free p = r.usable := by
  have hle := r.le_advance p
  rw [← ahead_advance]
  rcases Nat.lt_or_ge (r.advance p) r.slots with hlt | hge
  · have ih : (r.ahead (r.advance p + 1)).length + r.free (r.advance p + 1) = r.usable :=
      length_ahead V hlt
    rw [free_advance_succ hlt] at ih
    rw [ahead_of_lt V hlt (advance_not_reserved hlt), List.length_cons]
    omega
  · rw [ahead_of_le hge, free_of_advance h hge, List.length_nil, Nat.zero_add]
termination_by r.slots - p

theorem length_ahead_zero (V : r.Valid) : (r.ahead 0).length = r.usable := by
  have h := length_ahead V (Nat.zero_le _)
  rwa [free_zero, Nat.add_zero] at h

/-- A slot is handed out from the front of those ahead. -/
theorem takeSlot_of_cons {ss : List Slot} (V : r.Valid) (h : r.ahead c.passed = s :: ss) :
    ∃ c', r.takeSlot c = .ok s c' ∧ c'.filling = c.filling ∧ r.ahead c'.passed = ss := by
  rw [← ahead_advance] at h
  rcases Nat.lt_or_ge (r.advance c.passed) r.slots with hlt | hge
  · rw [ahead_of_lt V hlt (advance_not_reserved hlt)] at h
    cases h
    refine ⟨{ c with passed := r.advance c.passed + 1 }, ?_, rfl, rfl⟩
    simp only [takeSlot, if_neg (Nat.not_le.mpr hlt), Slot.ofPosition?,
      dif_pos (Nat.lt_of_lt_of_le hlt V.slots)]
  · rw [ahead_of_le hge] at h
    cases h

theorem takeSlot_of_nil (V : r.Valid) (h : r.ahead c.passed = []) :
    ∃ c', r.takeSlot c = .error (.slotsExhausted r.domain r.usable) c' ∧
      c'.filling = c.filling ∧ r.ahead c'.passed = r.ahead c.passed := by
  refine ⟨{ c with passed := r.advance c.passed }, if_pos ?_, rfl, r.ahead_advance _⟩
  refine Nat.le_of_not_lt fun hlt => ?_
  rw [← ahead_advance, ahead_of_lt V hlt (advance_not_reserved hlt)] at h
  cases h

/-! ## Locations -/

/-- The items of a slot from one on. -/
def items (r : Region) (n : Nat) (s : Slot) : List Location :=
  (List.range' n (r.capacity - n)).map fun i => ⟨r.domain, s, some i⟩

theorem items_of_lt (h : n < r.capacity) :
    r.items n s = ⟨r.domain, s, some n⟩ :: r.items (n + 1) s := by
  have hsub : r.capacity - n = (r.capacity - (n + 1)) + 1 := by omega
  simp only [items, hsub, List.range'_succ, List.map_cons]

theorem items_of_le (h : r.capacity ≤ n) : r.items n s = [] := by
  simp only [items, Nat.sub_eq_zero_of_le h, List.range'_zero, List.map_nil]

/-- What can still be handed out, in order. -/
def rest (r : Region) (c : Cursor) : List Location :=
  match r.packing with
  | .wholeSlot => (r.ahead c.passed).map fun s => ⟨r.domain, s, none⟩
  | .packed =>
    (match c.filling with
      | some (s, n) => r.items n s
      | none => []) ++ (r.ahead c.passed).flatMap (r.items 0)

theorem rest_whole (h : r.packing = .wholeSlot) :
    r.rest c = (r.ahead c.passed).map fun s => ⟨r.domain, s, none⟩ := by
  simp only [rest, h]

theorem rest_start (h : r.packing = .packed) (hf : c.filling = none) :
    r.rest c = (r.ahead c.passed).flatMap (r.items 0) := by
  simp only [rest, h, hf, List.nil_append]

theorem rest_filling (h : r.packing = .packed) (hf : c.filling = some (s, n)) :
    r.rest c = r.items n s ++ (r.ahead c.passed).flatMap (r.items 0) := by
  simp only [rest, h, hf]

/-- How a request ends when nothing is left. -/
def refusal (r : Region) (c : Cursor) : Fault :=
  match r.packing, c.filling with
  | .packed, some (s, _) => .arrayFull r.domain s r.capacity
  | _, _ => .slotsExhausted r.domain r.usable

theorem rest_congr (hf : c'.filling = c.filling) (ha : r.ahead c'.passed = r.ahead c.passed) :
    r.rest c' = r.rest c := by
  simp only [rest, hf, ha]

theorem ahead_of_rest_nil (V : r.Valid) (h : r.rest c = []) : r.ahead c.passed = [] := by
  cases packing : r.packing with
  | wholeSlot =>
    rw [rest_whole packing] at h
    exact List.map_eq_nil_iff.mp h
  | packed =>
    simp only [rest, packing] at h
    have hitems := (List.append_eq_nil_iff.mp h).2
    cases hahead : r.ahead c.passed with
    | nil => rfl
    | cons s ss =>
      rw [hahead, List.flatMap_cons, items_of_lt V.capacity] at hitems
      cases hitems

/-- The slot that is being packed comes right before the slots ahead. -/
inductive Follows (r : Region) (c : Cursor) : Prop where
  | whole (packing : r.packing = .wholeSlot)
  | start (packing : r.packing = .packed) (filling : c.filling = none)
      (ahead : r.ahead c.passed = r.ahead 0)
  | filling {s : Slot} {n : Nat} (front : List Slot) (packing : r.packing = .packed)
      (filling : c.filling = some (s, n)) (ahead : r.ahead 0 = front ++ s :: r.ahead c.passed)

theorem Follows.empty (r : Region) : r.Follows {} := by
  cases h : r.packing with
  | packed => exact .start h rfl rfl
  | wholeSlot => exact .whole h

theorem Follows.congr (F : r.Follows c) (hf : c'.filling = c.filling)
    (ha : r.ahead c'.passed = r.ahead c.passed) : r.Follows c' := by
  cases F with
  | whole packing => exact .whole packing
  | start packing filling ahead => exact .start packing (hf.trans filling) (ha.trans ahead)
  | filling front packing filling ahead =>
    exact .filling front packing (hf.trans filling) (ha.symm ▸ ahead)

/-- The slot that is opened is the first of those ahead. -/
theorem openSlot_of_cons (V : r.Valid) (hpacking : r.packing = .packed)
    (h : (r.ahead c.passed).flatMap (r.items 0) = l :: ls) :
    ∃ s c', r.openSlot c = .ok l c' ∧ c'.filling = some (s, 1) ∧ r.rest c' = ls ∧
      r.ahead c.passed = s :: r.ahead c'.passed := by
  cases hahead : r.ahead c.passed with
  | nil =>
    rw [hahead] at h
    cases h
  | cons s ss =>
    obtain ⟨c', htake, -, hss⟩ := takeSlot_of_cons V hahead
    rw [hahead, List.flatMap_cons, items_of_lt V.capacity] at h
    cases h
    refine ⟨s, { c' with filling := some (s, 1) }, by simp only [openSlot, htake], rfl, ?_, ?_⟩
    · rw [rest_filling hpacking rfl, hss]
      rfl
    · rw [hss]

/-- A request takes the first of the locations that are left. -/
theorem takeLocation_of_cons (V : r.Valid) (h : r.rest c = l :: ls) :
    ∃ c', r.takeLocation c = .ok l c' ∧ r.rest c' = ls ∧ (r.Follows c → r.Follows c') := by
  cases packing : r.packing with
  | wholeSlot =>
    rw [rest_whole packing] at h
    obtain ⟨s, ss, hahead, rfl, rfl⟩ := List.map_eq_cons_iff.mp h
    obtain ⟨c', htake, -, hss⟩ := takeSlot_of_cons V hahead
    refine ⟨c', by simp only [takeLocation, packing, htake], ?_, fun _ => .whole packing⟩
    rw [rest_whole packing, hss]
  | packed =>
    cases filling : c.filling with
    | none =>
      rw [rest_start packing filling] at h
      obtain ⟨s, c', hopen, hfilling, hrest, hss⟩ := openSlot_of_cons V packing h
      refine ⟨c', by simp only [takeLocation, packing, filling, hopen], hrest, fun F => ?_⟩
      cases F with
      | whole whole => cases packing.symm.trans whole
      | start _ _ ahead => exact .filling [] packing hfilling (ahead.symm.trans hss)
      | filling _ _ some => cases filling.symm.trans some
    | some opened =>
      obtain ⟨s, n⟩ := opened
      rw [rest_filling packing filling] at h
      rcases Nat.lt_or_ge n r.capacity with hlt | hge
      · rw [items_of_lt hlt] at h
        cases h
        refine ⟨{ c with filling := some (s, n + 1) }, ?_, rest_filling packing rfl, fun F => ?_⟩
        · simp only [takeLocation, packing, filling, if_pos hlt]
        · cases F with
          | whole whole => cases packing.symm.trans whole
          | start _ none => cases filling.symm.trans none
          | filling front _ same ahead =>
            cases filling.symm.trans same
            exact .filling front packing rfl ahead
      · rw [items_of_le hge] at h
        obtain ⟨s', c', hopen, hfilling, hrest, hss⟩ := openSlot_of_cons V packing h
        refine ⟨c', ?_, hrest, fun F => ?_⟩
        · simp only [takeLocation, packing, filling, if_neg (Nat.not_lt.mpr hge), hopen]
        · cases F with
          | whole whole => cases packing.symm.trans whole
          | start _ none => cases filling.symm.trans none
          | filling front _ same ahead =>
            cases filling.symm.trans same
            refine .filling (front ++ [s]) packing hfilling ?_
            rw [ahead, hss, List.append_assoc]
            rfl

/-- Once nothing is left, nothing is handed out any more. -/
theorem takeLocation_of_nil (V : r.Valid) (h : r.rest c = []) :
    ∃ c', r.takeLocation c = .error (r.refusal c) c' ∧ c'.filling = c.filling ∧
      r.ahead c'.passed = r.ahead c.passed := by
  obtain ⟨c', htake, hfilling, hahead⟩ := takeSlot_of_nil V (ahead_of_rest_nil V h)
  refine ⟨c', ?_, hfilling, hahead⟩
  cases packing : r.packing with
  | wholeSlot => simp only [takeLocation, refusal, packing, htake]
  | packed =>
    cases filling : c.filling with
    | none => simp only [takeLocation, openSlot, refusal, packing, filling, htake]
    | some opened =>
      obtain ⟨s, n⟩ := opened
      have hfull : ¬ n < r.capacity := by
        intro hlt
        rw [rest_filling packing filling, items_of_lt hlt] at h
        cases h
      simp only [takeLocation, openSlot, refusal, packing, filling, htake, if_neg hfull]

/-- All that is handed out, in order. -/
def locations (r : Region) : List Location := r.rest {}

/-- The fault of a region that is used up does not depend on when that happened. -/
def exhaustion (r : Region) : Fault :=
  match r.packing, (r.ahead 0).getLast? with
  | .packed, some s => .arrayFull r.domain s r.capacity
  | _, _ => .slotsExhausted r.domain r.usable

theorem refusal_of_nil (V : r.Valid) (F : r.Follows c) (h : r.rest c = []) :
    r.refusal c = r.exhaustion := by
  have hahead := ahead_of_rest_nil V h
  cases F with
  | whole packing => simp only [refusal, exhaustion, packing]
  | start packing filling ahead =>
    simp only [refusal, exhaustion, packing, filling, ← ahead, hahead, List.getLast?_nil]
  | @filling s n front packing filling ahead =>
    have hlast : (r.ahead 0).getLast? = some s := by rw [ahead, hahead, List.getLast?_concat]
    simp only [refusal, exhaustion, packing, filling, hlast]

/-- The cursor after `k` requests. -/
structure Served (r : Region) (k : Nat) (c : Cursor) : Prop where
  follows : r.Follows c
  rest : r.rest c = r.locations.drop k

theorem Served.empty (r : Region) : r.Served 0 {} := ⟨.empty r, rfl⟩

/-- The answer to the request that comes after `k` others. -/
def answer (r : Region) (k : Nat) : Except Fault Location :=
  match r.locations[k]? with
  | some l => .ok l
  | none => .error r.exhaustion

/-- The answer and the cursor of a request. -/
theorem Served.takeLocation (V : r.Valid) (S : r.Served k c) : ∃ c', r.Served (k + 1) c' ∧
    ((∃ l, r.answer k = .ok l ∧ r.takeLocation c = .ok l c') ∨
      ∃ f, r.answer k = .error f ∧ r.takeLocation c = .error f c') := by
  cases hk : r.locations[k]? with
  | some l =>
    have hrest := S.rest
    rw [List.drop_eq_getElem?_toList_append, hk] at hrest
    obtain ⟨c', htake, hrest', F⟩ := takeLocation_of_cons V hrest
    exact ⟨c', ⟨F S.follows, hrest'⟩, .inl ⟨l, by simp only [answer, hk], htake⟩⟩
  | none =>
    have hlength : r.locations.length ≤ k := List.getElem?_eq_none_iff.mp hk
    have hrest : r.rest c = [] := S.rest.trans (List.drop_eq_nil_of_le hlength)
    obtain ⟨c', htake, hf, ha⟩ := takeLocation_of_nil V hrest
    rw [refusal_of_nil V S.follows hrest] at htake
    refine ⟨c', ⟨S.follows.congr hf ha, ?_⟩, .inr ⟨_, by simp only [answer, hk], htake⟩⟩
    rw [rest_congr hf ha, hrest, List.drop_eq_nil_of_le (Nat.le_succ_of_le hlength)]

/-! ## The closed form -/

theorem length_items (r : Region) (s : Slot) : (r.items 0 s).length = r.capacity := by
  simp only [items, List.length_map, List.length_range', Nat.sub_zero]

/-- The items of slots that are filled one after the other. -/
theorem getElem?_flatMap_items (V : r.Valid) (ss : List Slot) (k : Nat) :
    (ss.flatMap (r.items 0))[k]? =
      ss[k / r.capacity]?.map fun s => ⟨r.domain, s, some (k % r.capacity)⟩ := by
  have hcapacity := V.capacity
  induction ss generalizing k with
  | nil => rfl
  | cons s ss ih =>
    rw [List.flatMap_cons]
    rcases Nat.lt_or_ge k r.capacity with hlt | hge
    · rw [List.getElem?_append_left (by rwa [length_items]), Nat.div_eq_of_lt hlt,
        Nat.mod_eq_of_lt hlt]
      simp only [items, Nat.sub_zero, List.getElem?_map, List.getElem?_range' hlt,
        List.getElem?_cons_zero, Option.map_some, Nat.zero_add, Nat.one_mul]
    · rw [List.getElem?_append_right (by rwa [length_items]), length_items, ih,
        Nat.div_eq_sub_div hcapacity hge, List.getElem?_cons_succ, Nat.mod_eq_sub_mod hge]

theorem locations_packed (V : r.Valid) (h : r.packing = .packed) (k : Nat) : r.locations[k]? =
    (r.ahead 0)[k / r.capacity]?.map fun s => ⟨r.domain, s, some (k % r.capacity)⟩ := by
  rw [locations, rest_start h rfl, getElem?_flatMap_items V]

theorem locations_whole (h : r.packing = .wholeSlot) (k : Nat) :
    r.locations[k]? = (r.ahead 0)[k]?.map fun s => ⟨r.domain, s, none⟩ := by
  rw [locations, rest_whole h, List.getElem?_map]

/-! ### Answers -/

theorem answer_of_packed (V : r.Valid) (h : r.packing = .packed)
    (hs : (r.ahead 0)[k / r.capacity]? = some s) :
    r.answer k = .ok ⟨r.domain, s, some (k % r.capacity)⟩ := by
  simp only [answer, locations_packed V h, hs, Option.map_some]

theorem answer_of_whole (h : r.packing = .wholeSlot) (hs : (r.ahead 0)[k]? = some s) :
    r.answer k = .ok ⟨r.domain, s, none⟩ := by
  simp only [answer, locations_whole h, hs, Option.map_some]

theorem answer_of_packed_full (V : r.Valid) (h : r.packing = .packed)
    (hk : (r.ahead 0).length * r.capacity ≤ k) (hs : (r.ahead 0).getLast? = some s) :
    r.answer k = .error (.arrayFull r.domain s r.capacity) := by
  have hdiv : (r.ahead 0).length ≤ k / r.capacity := (Nat.le_div_iff_mul_le V.capacity).mpr hk
  simp only [answer, locations_packed V h, List.getElem?_eq_none hdiv, Option.map_none, exhaustion,
    h, hs]

theorem answer_of_whole_full (V : r.Valid) (h : r.packing = .wholeSlot)
    (hk : (r.ahead 0).length ≤ k) :
    r.answer k = .error (.slotsExhausted r.domain (r.ahead 0).length) := by
  simp only [answer, locations_whole h, List.getElem?_eq_none hk, Option.map_none, exhaustion, h,
    length_ahead_zero V]

theorem answer_of_nil (V : r.Valid) (hnil : r.ahead 0 = []) :
    r.answer k = .error (.slotsExhausted r.domain 0) := by
  have husable : r.usable = 0 := by rw [← length_ahead_zero V, hnil, List.length_nil]
  cases h : r.packing with
  | packed =>
    simp only [answer, locations_packed V h, exhaustion, h, hnil, List.getElem?_nil,
      Option.map_none, List.getLast?_nil, husable]
  | wholeSlot =>
    simp only [answer, locations_whole h, exhaustion, h, hnil, List.getElem?_nil, Option.map_none,
      husable]

end Region

namespace Options

variable {o : Options}

theorem usableSlots_eq (o : Options) (d : Domain) : o.usableSlots d = (o.region d).ahead 0 := by
  simp only [usableSlots, Region.ahead, List.range_eq_range', Nat.sub_zero]
  congr 2
  funext p
  cases d <;> simp [region, eq_comm]

/-- Every position of a target that can be used has a slot. -/
theorem positions_usableSlots (h : o.validate = .ok ()) (d : Domain) :
    (o.usableSlots d).map (·.position.val) =
      (List.range o.slots).filter fun p => ¬ (d = .global ∧ p = o.scratch.position.val) := by
  have hslots := (validate_ok h).1
  rw [usableSlots, List.map_filterMap]
  refine (List.filterMap_congr fun p hp => ?_).trans List.filterMap_some
  have hp : p < 26 :=
    Nat.lt_of_lt_of_le (List.mem_range.mp (List.mem_of_mem_filter hp)) hslots
  simp only [Slot.ofPosition?, dif_pos hp, Option.map_some]

end Options

namespace Layout

variable {l : Layout}

/-- Every domain was asked for a number of locations. -/
def Served (l : Layout) (n : Domain → Nat) : Prop :=
  ∀ d, (l.options.region d).Served (n d) (l.cursor d)

theorem served_ofOptions (o : Options) : ({ options := o } : Layout).Served fun _ => 0 := by
  intro d
  cases d <;> exact .empty _

/-- A request moves the cursor of its own domain only. -/
theorem Served.takeLocation {n : Domain → Nat} (V : l.options.validate = .ok ()) (S : l.Served n)
    (d : Domain) : ∃ l', l'.options = l.options ∧
      l'.Served (fun d' => n d' + if d = d' then 1 else 0) ∧
      ((∃ p, (l.options.region d).answer (n d) = .ok p ∧ Layout.takeLocation d l = .ok p l') ∨
        ∃ f, (l.options.region d).answer (n d) = .error f ∧
          Layout.takeLocation d l = .error f l') := by
  obtain ⟨c, hc, htake⟩ := (S d).takeLocation (Options.region_valid V d)
  refine ⟨l.setCursor d c, setCursor_options .., fun d' => ?_, ?_⟩
  · change ((l.setCursor d c).options.region d').Served (n d' + if d = d' then 1 else 0) _
    rw [setCursor_options, cursor_setCursor]
    by_cases hd : d = d'
    · subst hd
      rw [if_pos rfl, if_pos rfl]
      exact hc
    · rw [if_neg hd, if_neg hd]
      exact S d'
  · rcases htake with ⟨p, hp, htake⟩ | ⟨f, hf, htake⟩
    · exact .inl ⟨p, hp, by simp only [Layout.takeLocation, onCursor, htake]⟩
    · exact .inr ⟨f, hf, by simp only [Layout.takeLocation, onCursor, htake]⟩

/-- Whatever was requested of the other domain, the answer depends only on the number of requests
that came before for the same domain. -/
theorem Served.takeAll {n : Domain → Nat} (V : l.options.validate = .ok ()) (S : l.Served n)
    (ds : List Domain) {i : Nat} {d : Domain} (hd : ds[i]? = some d) :
    (Layout.takeAll ds l)[i]? =
      some ((l.options.region d).answer (n d + (ds.take i).count d)) := by
  induction ds generalizing l n i with
  | nil => cases hd
  | cons e ds ih =>
    obtain ⟨l', hoptions, S', htake⟩ := S.takeLocation V e
    have hall : Layout.takeAll (e :: ds) l =
        (l.options.region e).answer (n e) :: Layout.takeAll ds l' := by
      rcases htake with ⟨p, hp, htake⟩ | ⟨f, hf, htake⟩
      · simp only [Layout.takeAll, htake, hp]
      · simp only [Layout.takeAll, htake, hf]
    rw [hall]
    cases i with
    | zero =>
      cases hd
      rfl
    | succ i =>
      have h := ih (hoptions ▸ V) S' hd
      rw [List.getElem?_cons_succ, h, hoptions, List.take_succ_cons, List.count_cons]
      simp only [beq_iff_eq]
      congr 2
      omega

/-- Requests for locations of a new layout, in any order: the `k`-th one for a domain is given the
item `k % capacity` of the usable slot `k / capacity` of that domain, or the `k`-th usable slot where
every variable has its own, until the usable slots are used up. From then on every request for the
domain ends in the same fault. -/
theorem takeAll_answers {o : Options} (V : o.validate = .ok ()) (ds : List Domain) (i : Nat)
    (d : Domain) (hd : ds[i]? = some d) :
    let u := o.usableSlots d
    let k := (ds.take i).count d
    let answer := (takeAll ds { options := o })[i]?
    u.map (·.position.val) =
        ((List.range o.slots).filter fun p => ¬ (d = .global ∧ p = o.scratch.position.val)) ∧
      (o.packing = .packed → k < u.length * o.capacity →
        ∃ s, u[k / o.capacity]? = some s ∧ answer = some (.ok ⟨d, s, some (k % o.capacity)⟩)) ∧
      (o.packing = .wholeSlot → k < u.length →
        ∃ s, u[k]? = some s ∧ answer = some (.ok ⟨d, s, none⟩)) ∧
      (o.packing = .packed → u.length * o.capacity ≤ k →
        ∀ s, u.getLast? = some s → answer = some (.error (.arrayFull d s o.capacity))) ∧
      (o.packing = .wholeSlot → u.length ≤ k →
        answer = some (.error (.slotsExhausted d u.length))) ∧
      (u = [] → answer = some (.error (.slotsExhausted d 0))) := by
  intro u k answer
  have hr := Options.region_valid V d
  have hu : u = (o.region d).ahead 0 := o.usableSlots_eq d
  have hanswer : answer = some ((o.region d).answer k) := by
    have h := (served_ofOptions o).takeAll V ds hd
    rwa [Nat.zero_add] at h
  rw [hanswer]
  refine ⟨Options.positions_usableSlots V d, fun hp hk => ?_, fun hp hk => ?_,
    fun hp hk s hs => ?_, fun hp hk => ?_, fun hnil => ?_⟩
  · have hlt : k / o.capacity < u.length := Nat.div_lt_of_lt_mul (Nat.mul_comm _ _ ▸ hk)
    obtain ⟨s, hs⟩ : ∃ s, u[k / o.capacity]? = some s := ⟨_, List.getElem?_eq_getElem hlt⟩
    exact ⟨s, hs, congrArg some (Region.answer_of_packed hr hp (hu ▸ hs))⟩
  · obtain ⟨s, hs⟩ : ∃ s, u[k]? = some s := ⟨_, List.getElem?_eq_getElem hk⟩
    exact ⟨s, hs, congrArg some (Region.answer_of_whole hp (hu ▸ hs))⟩
  · rw [hu] at hk hs
    exact congrArg some (Region.answer_of_packed_full hr hp hk hs)
  · rw [hu] at hk ⊢
    exact congrArg some (Region.answer_of_whole_full hr hp hk)
  · exact congrArg some (Region.answer_of_nil hr (hu ▸ hnil))

/-- Three slots with the scratch slot in the middle hold four items: the third request opens the
slot behind it, and the fifth one fails. -/
theorem takeAll_answers_around_scratch :
    let o : Options := { slots := 3, capacity := 2 }
    let ds : List Domain :=
      [.global, .entity, .global, .global, .entity, .global, .entity, .global, .global]
    let s : Slot := ⟨⟨2, by decide⟩⟩
    o.validate = .ok () ∧ ds[3]? = some .global ∧ ds[8]? = some .global ∧
      (takeAll ds { options := o })[3]? = some (.ok ⟨.global, s, some 0⟩) ∧
      (takeAll ds { options := o })[8]? = some (.error (.arrayFull .global s 2)) := by
  intro o ds s
  have V : o.validate = .ok () := rfl
  obtain ⟨-, hthird, -⟩ := takeAll_answers V ds 3 .global rfl
  obtain ⟨-, -, -, hlast, -⟩ := takeAll_answers V ds 8 .global rfl
  obtain ⟨s', hs', hanswer⟩ := hthird rfl (by decide)
  have hs : s = s' := Option.some.inj ((by decide : some s = _).trans hs')
  have hitem : (ds.take 3).count .global % o.capacity = 0 := by decide
  rw [hitem, ← hs] at hanswer
  exact ⟨V, rfl, rfl, hanswer, hlast rfl (by decide) s (by decide)⟩

end Layout

end Stackless
