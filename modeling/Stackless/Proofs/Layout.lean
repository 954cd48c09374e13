import Stackless.Proofs.Locations
import Stackless.Storage.Layout

/-!
# Storage is handed out once

A location that was handed out stays behind the cursor of its domain (`Cursor.Holds`): its slot is
passed, and if the slot is still being packed, its item is among those in use. The next location
is ahead of the cursor, so it is disjoint from all that were handed out before
(`Region.takeLocation_ok`). Lifted to layouts this is the invariant `Layout.Inv`: the variables of
the table are numbered in order and their locations are pairwise disjoint.
-/

namespace Stackless

/-! ## One domain -/

namespace Cursor

/-- A location was handed out before the cursor got to where it is. -/
structure Holds (c : Cursor) (r : Region) (l : Location) : Prop where
  domain : l.domain = r.domain
  passed : l.slot.position.val < c.passed
  slots : l.slot.position.val < r.slots
  notReserved : r.reserved ≠ some l.slot.position.val
  within : l.Within (max r.capacity 1)
  filled : ∀ {s n}, c.filling = some (s, n) → l.slot = s → ∃ i, l.index = some i ∧ i < n

/-- The slot that is being packed is passed. -/
structure WF (c : Cursor) (r : Region) : Prop where
  passed : ∀ {s n}, c.filling = some (s, n) → s.position.val < c.passed
  slots : ∀ {s n}, c.filling = some (s, n) → s.position.val < r.slots
  notReserved : ∀ {s n}, c.filling = some (s, n) → r.reserved ≠ some s.position.val

theorem WF.empty (r : Region) : ({} : Cursor).WF r where
  passed h := by cases h
  slots h := by cases h
  notReserved h := by cases h

variable {r : Region} {c c' : Cursor} {l : Location}

/-- Moving on without handing anything out keeps what was handed out. -/
theorem Holds.mono (H : c.Holds r l) (hp : c.passed ≤ c'.passed)
    (hf : c'.filling = c.filling) : c'.Holds r l :=
  { H with passed := Nat.lt_of_lt_of_le H.passed hp, filled := fun h => H.filled (hf ▸ h) }

theorem WF.mono (H : c.WF r) (hp : c.passed ≤ c'.passed) (hf : c'.filling = c.filling) :
    c'.WF r where
  passed h := Nat.lt_of_lt_of_le (H.passed (hf ▸ h)) hp
  slots h := H.slots (hf ▸ h)
  notReserved h := H.notReserved (hf ▸ h)

end Cursor

namespace Region

variable {r : Region} {c c' : Cursor} {s : Slot} {f : Fault} {l : Location}

theorem le_advance (r : Region) (p : Nat) : p ≤ r.advance p := by
  simp only [advance]
  split <;> omega

theorem advance_not_reserved (h : r.advance p < r.slots) : r.reserved ≠ some (r.advance p) := by
  simp only [advance] at h ⊢
  split at h
  · rename_i hr
    rw [if_pos hr, hr.1]
    simp
  · rename_i hr
    rw [if_neg hr]
    exact fun he => hr ⟨he, h⟩

theorem takeSlot_ok (h : r.takeSlot c = .ok s c') :
    c.passed ≤ s.position.val ∧ s.position.val < r.slots ∧
      r.reserved ≠ some s.position.val ∧ c' = { c with passed := s.position.val + 1 } := by
  simp only [takeSlot] at h
  split at h
  · cases h
  · rename_i hlt
    split at h
    · rename_i t ht
      cases h
      simp only [Slot.ofPosition?] at ht
      split at ht
      · cases ht
        exact ⟨le_advance .., by simpa using hlt, advance_not_reserved (by simpa using hlt), rfl⟩
      · cases ht
    · cases h

theorem takeSlot_error (h : r.takeSlot c = .error f c') :
    c.passed ≤ c'.passed ∧ c'.filling = c.filling := by
  have hle := le_advance r c.passed
  simp only [takeSlot] at h
  split at h
  · cases h
    exact ⟨hle, rfl⟩
  · split at h
    · cases h
    · cases h
      exact ⟨Nat.le_succ_of_le hle, rfl⟩

/-- What a step that hands out `l` does to what was handed out before. -/
structure Gives (r : Region) (c : Cursor) (l : Location) (c' : Cursor) : Prop where
  wf : c'.WF r
  held : c'.Holds r l
  keeps : ∀ {l₀}, c.Holds r l₀ → c'.Holds r l₀
  disjoint : ∀ {l₀}, c.Holds r l₀ → l₀.Disjoint l

/-- A slot ahead of the cursor is no slot that was handed out. -/
theorem ne_of_ahead {l₀ : Location} (H : c.Holds r l₀) (hs : c.passed ≤ s.position.val) :
    l₀.slot ≠ s := by
  rintro rfl
  exact Nat.not_lt.mpr hs H.passed

theorem takeSlot_gives (H : c.WF r) (h : r.takeSlot c = .ok s c') :
    r.Gives c ⟨r.domain, s, none⟩ c' := by
  obtain ⟨hge, hlt, hres, rfl⟩ := takeSlot_ok h
  have hp : c.passed ≤ s.position.val + 1 := Nat.le_succ_of_le hge
  refine ⟨H.mono hp rfl, ⟨rfl, Nat.lt_succ_self _, hlt, hres, by simp [Location.Within], ?_⟩,
    fun H₀ => H₀.mono hp rfl, fun H₀ _ hs => absurd hs (ne_of_ahead H₀ hge)⟩
  -- the packed slot was passed before, so it is not the fresh one
  intro t n ht hst
  have := H.passed ht
  simp only at hst
  subst hst
  omega

theorem openSlot_gives (h : r.openSlot c = .ok l c') : r.Gives c l c' := by
  simp only [openSlot] at h
  split at h
  · rename_i s c₁ hs
    cases h
    obtain ⟨hge, hlt, hres, rfl⟩ := takeSlot_ok hs
    refine ⟨⟨?_, ?_, ?_⟩, ⟨rfl, Nat.lt_succ_self _, hlt, hres, ?_, ?_⟩, fun H₀ => ?_,
      fun H₀ _ hs => absurd hs (ne_of_ahead H₀ hge)⟩
    · rintro t n ⟨⟩; exact Nat.lt_succ_self _
    · rintro t n ⟨⟩; exact hlt
    · rintro t n ⟨⟩; exact hres
    · rintro i ⟨⟩; omega
    · rintro t n ⟨⟩ -; exact ⟨0, rfl, Nat.zero_lt_one⟩
    · refine { H₀ with passed := ?_, filled := ?_ }
      · have := H₀.passed; simp only; omega
      · rintro t n ⟨⟩ ht
        exact absurd ht (ne_of_ahead H₀ hge)
  · split at h <;> cases h

theorem openSlot_error (h : r.openSlot c = .error f c') :
    c.passed ≤ c'.passed ∧ c'.filling = c.filling := by
  simp only [openSlot] at h
  split at h
  · cases h
  · rename_i f₁ c₁ hs
    have := takeSlot_error hs
    split at h <;> cases h <;> exact this

/-- The next location is disjoint from all that were handed out before. -/
theorem takeLocation_gives (H : c.WF r) (h : r.takeLocation c = .ok l c') : r.Gives c l c' := by
  simp only [takeLocation] at h
  split at h
  · split at h
    · rename_i s c₁ hs
      cases h
      exact takeSlot_gives H hs
    · cases h
  · split at h
    · rename_i s n hf
      split at h
      · rename_i hn
        cases h
        have hp := H.passed hf
        refine ⟨⟨?_, ?_, ?_⟩, ⟨rfl, hp, H.slots hf, H.notReserved hf, ?_, ?_⟩, fun H₀ => ?_, ?_⟩
        · rintro t k ⟨⟩; exact hp
        · rintro t k ⟨⟩; exact H.slots hf
        · rintro t k ⟨⟩; exact H.notReserved hf
        · rintro i ⟨⟩; omega
        · rintro t k ⟨⟩ -; exact ⟨n, rfl, Nat.lt_succ_self n⟩
        · refine { H₀ with filled := ?_ }
          rintro t k ⟨⟩ ht
          obtain ⟨i, hi, hlt⟩ := H₀.filled hf ht
          exact ⟨i, hi, Nat.lt_succ_of_lt hlt⟩
        · intro l₀ H₀ _ ht
          obtain ⟨i, hi, hlt⟩ := H₀.filled hf ht
          exact ⟨i, n, hi, rfl, Nat.ne_of_lt hlt⟩
      · exact openSlot_gives h
    · exact openSlot_gives h

theorem takeLocation_domain (h : r.takeLocation c = .ok l c') : l.domain = r.domain := by
  simp only [takeLocation] at h
  split at h
  · split at h <;> cases h
    rfl
  · split at h
    · split at h
      · cases h
        rfl
      · exact (openSlot_gives h).held.domain
    · exact (openSlot_gives h).held.domain

theorem takeLocation_error (h : r.takeLocation c = .error f c') :
    c.passed ≤ c'.passed ∧ c'.filling = c.filling := by
  simp only [takeLocation] at h
  split at h
  · split at h
    · cases h
    · rename_i f₁ c₁ hs
      cases h
      exact takeSlot_error hs
  · split at h
    · split at h
      · cases h
      · exact openSlot_error h
    · exact openSlot_error h

end Region

/-! ## Layouts -/

namespace Layout

/-- The variables of the table are numbered in order, and no two of them share storage. -/
structure Inv (l : Layout) : Prop where
  cursors : ∀ d, (l.cursor d).WF (l.options.region d)
  ids : ∀ {id v}, l.get? id = some v → v.id = id
  held : ∀ {id v}, l.get? id = some v →
    (l.cursor v.location.domain).Holds (l.options.region v.location.domain) v.location
  disjoint : ∀ {id id' v w}, l.get? id = some v → l.get? id' = some w → id ≠ id' →
    v.location.Disjoint w.location

theorem Inv.ofOptions (o : Options) : ({ options := o } : Layout).Inv where
  cursors d := by cases d <;> exact .empty _
  ids h := by simp [get?] at h
  held h := by simp [get?] at h
  disjoint h := by simp [get?] at h

variable {l l' : Layout} {d : Domain} {location : Location} {f : Fault} {id : VariableId}
  {v : Variable}

theorem get?_congr (h : l'.table = l.table) (id : VariableId) : l'.get? id = l.get? id := by
  simp only [get?, h]

theorem get?_push (l : Layout) (v : Variable) (id : VariableId) :
    (l.push v).get? id = if id = l.nextId then some v else l.get? id := by
  obtain ⟨i⟩ := id
  simp only [get?, Layout.push, Array.getElem?_push, nextId, VariableId.mk.injEq]

theorem get?_stack (l : Layout) (id id' : VariableId) :
    (l.stack id).get? id' =
      if id = id' then (l.get? id').map ({ · with stacked := true }) else l.get? id' := by
  obtain ⟨i⟩ := id
  obtain ⟨j⟩ := id'
  simp only [get?, Layout.stack, Array.getElem?_modify, VariableId.mk.injEq]

@[simp] theorem cursor_setCursor (l : Layout) (d d' : Domain) (c : Cursor) :
    (l.setCursor d c).cursor d' = if d = d' then c else l.cursor d' := by
  cases d <;> cases d' <;> rfl

@[simp] theorem setCursor_table (l : Layout) (d : Domain) (c : Cursor) :
    (l.setCursor d c).table = l.table := by cases d <;> rfl

@[simp] theorem setCursor_options (l : Layout) (d : Domain) (c : Cursor) :
    (l.setCursor d c).options = l.options := by cases d <;> rfl

/-- A step on the cursor of one domain keeps the invariant if it keeps what was handed out. -/
theorem Inv.setCursor (H : l.Inv) {c : Cursor} (hc : c.WF (l.options.region d))
    (hkeeps : ∀ {l₀}, (l.cursor d).Holds (l.options.region d) l₀ →
      c.Holds (l.options.region d) l₀) : (l.setCursor d c).Inv where
  cursors d' := by
    rw [cursor_setCursor, setCursor_options]
    split
    · rename_i hd; exact hd ▸ hc
    · exact H.cursors d'
  ids h := by rw [get?_congr (setCursor_table ..)] at h; exact H.ids h
  held h := by
    rw [get?_congr (setCursor_table ..)] at h
    rw [cursor_setCursor, setCursor_options]
    split
    · rename_i hd
      have := H.held h
      rw [← hd] at this ⊢
      exact hkeeps this
    · exact H.held h
  disjoint h h' hne := by
    rw [get?_congr (setCursor_table ..)] at h h'
    exact H.disjoint h h' hne

/-- What handing out a location does to a layout. -/
structure Takes (l : Layout) (d : Domain) (location : Location) (l' : Layout) : Prop where
  inv : l'.Inv
  table : l'.table = l.table
  options : l'.options = l.options
  domain : location.domain = d
  held : (l'.cursor d).Holds (l'.options.region d) location
  disjoint : ∀ {id v}, l.get? id = some v → v.location.Disjoint location

theorem takeLocation_table (h : takeLocation d l = .ok location l') : l'.table = l.table := by
  simp only [takeLocation, onCursor] at h
  split at h
  · cases h
    exact setCursor_table ..
  · cases h

theorem takeLocation_domain (h : takeLocation d l = .ok location l') : location.domain = d := by
  simp only [takeLocation, onCursor] at h
  split at h
  · rename_i hcursor
    cases h
    exact Region.takeLocation_domain hcursor
  · cases h

theorem takeLocation_ok (H : l.Inv) (h : takeLocation d l = .ok location l') :
    l.Takes d location l' := by
  simp only [takeLocation, onCursor] at h
  split at h
  · rename_i a c hc
    cases h
    have G := Region.takeLocation_gives (H.cursors d) hc
    refine ⟨H.setCursor G.wf G.keeps, setCursor_table .., setCursor_options .., G.held.domain,
      by simpa using G.held, ?_⟩
    intro id v hv
    by_cases hd : v.location.domain = d
    · exact G.disjoint (hd ▸ H.held hv)
    · exact fun he => absurd (he.trans G.held.domain) hd
  · cases h

/-- A variable that got the location handed out last can be added to the table. -/
theorem Takes.push (T : l.Takes d location l') (hid : v.id = l'.nextId)
    (hloc : v.location = location) : (l'.push v).Inv where
  cursors := T.inv.cursors
  ids h := by
    rw [get?_push] at h
    split at h
    · rename_i he; cases h; exact hid.trans he.symm
    · exact T.inv.ids h
  held h := by
    rw [get?_push] at h
    split at h
    · cases h
      have := T.held
      rw [← T.domain, ← hloc] at this
      exact this
    · exact T.inv.held h
  disjoint h h' hne := by
    rw [get?_push] at h h'
    split at h <;> split at h'
    · rename_i he he'; exact absurd (he.trans he'.symm) hne
    · cases h
      rw [get?_congr T.table] at h'
      exact hloc ▸ (T.disjoint h').symm
    · cases h'
      rw [get?_congr T.table] at h
      exact hloc ▸ T.disjoint h
    · exact T.inv.disjoint h h' hne

/-- Letting a variable hold frames changes nothing else about it. -/
theorem get?_of_stack {id' : VariableId} (h : (l.stack id').get? id = some v) :
    ∃ w b, l.get? id = some w ∧ v = { w with stacked := b } := by
  rw [get?_stack] at h
  split at h
  · obtain ⟨w, hw, rfl⟩ := Option.map_eq_some_iff.mp h
    exact ⟨w, true, hw, rfl⟩
  · exact ⟨v, v.stacked, h, rfl⟩

theorem Inv.stack (H : l.Inv) (id : VariableId) : (l.stack id).Inv where
  cursors := H.cursors
  ids h := by
    obtain ⟨w, b, hw, rfl⟩ := get?_of_stack h
    exact (H.ids hw : w.id = _)
  held h := by
    obtain ⟨w, b, hw, rfl⟩ := get?_of_stack h
    have := H.held hw
    exact this
  disjoint h h' hne := by
    obtain ⟨w, b, hw, rfl⟩ := get?_of_stack h
    obtain ⟨w', b', hw', rfl⟩ := get?_of_stack h'
    exact (H.disjoint hw hw' hne : w.location.Disjoint w'.location)

theorem Inv.within (H : l.Inv) (hcap : l.options.capacity ≠ 0) (hv : l.get? id = some v) :
    v.location.Within l.options.capacity := by
  intro j hj
  have := (H.held hv).within j hj
  simp only [Options.region] at this
  omega

/-- No variable lives in the scratch slot. -/
theorem Inv.slot_ne_scratch (H : l.Inv) (hv : l.get? id = some v)
    (hd : v.location.domain = .global) : v.location.slot ≠ l.options.scratch := by
  intro hs
  have := (H.held hv).notReserved
  rw [hd] at this
  simp [Options.region, hs] at this

end Layout

end Stackless
