import Stackless.Compile.Workspace
import Stackless.Proofs.Layout

/-!
# Runs of requests for storage

A layout serves requests for whole slots, for locations and for variables, in any order and under
any options. Whether a request is granted or not, the layout keeps holding everything it handed
out, and what it hands out next is disjoint from all of that (`Layout.Serves`). So no two pieces of
storage that a run of requests was given share anything, however many requests were refused in
between (`StorageRequest.serveAll_disjoint`).
-/

namespace Stackless

/-! ## Counters -/

/-- The state that a step ends with, also when it fails. -/
def stateAfter {ε σ α : Type} : EStateM.Result ε σ α → σ
  | .ok _ s | .error _ s => s

/-- No counter is past the number of what it counts. -/
structure Cursor.Bounded (c : Cursor) (r : Region) : Prop where
  passed : c.passed ≤ r.slots
  filled : ∀ {s n}, c.filling = some (s, n) → n ≤ max r.capacity 1

theorem Cursor.Bounded.empty (r : Region) : ({} : Cursor).Bounded r :=
  ⟨Nat.zero_le _, fun h => by cases h⟩

namespace Region

variable {r : Region} {c : Cursor}

theorem advance_le {n : Nat} (h : n ≤ r.slots) : r.advance n ≤ r.slots := by
  simp only [advance]
  split <;> omega

theorem takeSlot_bounded (H : c.Bounded r) : (stateAfter (r.takeSlot c)).Bounded r := by
  have hle := advance_le H.passed
  simp only [takeSlot]
  split
  · exact ⟨hle, H.filled⟩
  · rename_i hlt
    split <;> exact ⟨Nat.not_le.mp hlt, H.filled⟩

theorem openSlot_bounded (H : c.Bounded r) : (stateAfter (r.openSlot c)).Bounded r := by
  have hslot := takeSlot_bounded H
  simp only [openSlot]
  split
  · rename_i s c' hs
    rw [hs] at hslot
    refine ⟨hslot.passed, fun hf => ?_⟩
    cases hf
    omega
  · rename_i f c' hs
    rw [hs] at hslot
    split <;> exact hslot

theorem takeLocation_bounded (H : c.Bounded r) : (stateAfter (r.takeLocation c)).Bounded r := by
  simp only [takeLocation]
  split
  · have hslot := takeSlot_bounded H
    split <;> rename_i hs <;> rw [hs] at hslot <;> exact hslot
  · split
    · split
      · refine ⟨H.passed, fun hf => ?_⟩
        cases hf
        omega
      · exact openSlot_bounded H
    · exact openSlot_bounded H

end Region

/-- The scratch slot is taken from the usable ones only where it is one of the slots. -/
theorem Options.usable_add_scratch (o : Options) (d : Domain) :
    (o.region d).usable + (if d = .global ∧ o.scratch.position.val < o.slots then 1 else 0) =
      o.slots := by
  cases d with
  | entity => simp [Region.usable, Options.region]
  | global =>
    have husable : (o.region .global).usable =
        if o.scratch.position.val < o.slots then o.slots - 1 else o.slots := rfl
    simp only [husable, true_and]
    split <;> omega

/-! ## Layouts -/

namespace Layout

variable {l l' l'' : Layout} {d : Domain} {given given' : List Location} {p : Location}
  {s : Slot} {f : Fault} {c : Cursor}

/-- Both cursors are where handing out storage in order can bring them. -/
structure Sound (l : Layout) : Prop where
  wf : ∀ d, (l.cursor d).WF (l.options.region d)
  bounded : ∀ d, (l.cursor d).Bounded (l.options.region d)

theorem Sound.ofOptions (o : Options) : ({ options := o } : Layout).Sound where
  wf d := by cases d <;> exact .empty _
  bounded d := by cases d <;> exact .empty _

/-- The location was handed out before. -/
def Holds (l : Layout) (p : Location) : Prop :=
  (l.cursor p.domain).Holds (l.options.region p.domain) p

/-- From one layout to a later one, the locations in `given` are handed out. They are disjoint
from each other and from all that were handed out before. -/
structure Serves (l : Layout) (given : List Location) (l' : Layout) : Prop where
  options : l'.options = l.options
  sound : l'.Sound
  keeps : ∀ {q}, l.Holds q → l'.Holds q
  held : ∀ {p}, p ∈ given → l'.Holds p
  apart : ∀ {p q}, p ∈ given → l.Holds q → q.Disjoint p
  pairwise : given.Pairwise Location.Disjoint
  table : ∀ {v}, v ∈ l'.table → v ∈ l.table ∨ v.location ∈ given

theorem Serves.refl (S : l.Sound) : l.Serves [] l :=
  ⟨rfl, S, fun hq => hq, by simp, by simp, .nil, .inl⟩

theorem Serves.trans (H : l.Serves given l') (H' : l'.Serves given' l'') :
    l.Serves (given ++ given') l'' where
  options := H'.options.trans H.options
  sound := H'.sound
  keeps hq := H'.keeps (H.keeps hq)
  held hp := by
    rcases List.mem_append.mp hp with hp | hp
    · exact H'.keeps (H.held hp)
    · exact H'.held hp
  apart hp hq := by
    rcases List.mem_append.mp hp with hp | hp
    · exact H.apart hp hq
    · exact H'.apart hp (H.keeps hq)
  pairwise := by
    apply List.pairwise_append.mpr
    exact ⟨H.pairwise, H'.pairwise, fun q hq p hp => H'.apart hp (H.held hq)⟩
  table hv := by
    rcases H'.table hv with hv | hv
    · exact (H.table hv).imp_right fun h => List.mem_append_left _ h
    · exact .inr (List.mem_append_right _ hv)

/-- A location can be handed out and lost. -/
theorem Serves.lose (H : l.Serves given l') (htable : l'.table = l.table) : l.Serves [] l' where
  options := H.options
  sound := H.sound
  keeps := H.keeps
  held := by simp
  apart := by simp
  pairwise := .nil
  table hv := .inl (htable ▸ hv)

/-- Entering a variable in the table hands out nothing more than its location. -/
theorem Serves.push (H : l.Serves given l') {v : Variable} (hv : v.location ∈ given) :
    l.Serves given (l'.push v) := by
  refine ⟨H.options, ⟨H.sound.wf, H.sound.bounded⟩, H.keeps, H.held, H.apart, H.pairwise,
    fun {u} hu => ?_⟩
  rcases Array.mem_push.mp hu with hu | rfl
  · exact H.table hu
  · exact .inr hv

theorem Sound.setCursor (S : l.Sound) (hwf : c.WF (l.options.region d))
    (hbounded : c.Bounded (l.options.region d)) : (l.setCursor d c).Sound := by
  constructor <;> intro d' <;> rw [cursor_setCursor, setCursor_options] <;> split <;>
    rename_i hd
  · exact hd ▸ hwf
  · exact S.wf d'
  · exact hd ▸ hbounded
  · exact S.bounded d'

theorem Holds.setCursor {q : Location} (H : l.Holds q)
    (hkeeps : (l.cursor d).Holds (l.options.region d) q → c.Holds (l.options.region d) q) :
    (l.setCursor d c).Holds q := by
  rw [Holds, cursor_setCursor, setCursor_options]
  split
  · rename_i hd
    rw [Holds, ← hd] at H
    exact hd ▸ hkeeps H
  · exact H

/-- A cursor that moves on without handing out anything. -/
theorem Sound.serves_refused (S : l.Sound) (hbounded : c.Bounded (l.options.region d))
    (hmoved : (l.cursor d).passed ≤ c.passed ∧ c.filling = (l.cursor d).filling) :
    l.Serves [] (l.setCursor d c) where
  options := setCursor_options ..
  sound := S.setCursor ((S.wf d).mono hmoved.1 hmoved.2) hbounded
  keeps hq := hq.setCursor fun hq => hq.mono hmoved.1 hmoved.2
  held := by simp
  apart := by simp
  pairwise := .nil
  table hv := .inl (setCursor_table l d c ▸ hv)

theorem Sound.serves_granted (S : l.Sound) (G : (l.options.region d).Gives (l.cursor d) p c)
    (hbounded : c.Bounded (l.options.region d)) : l.Serves [p] (l.setCursor d c) where
  options := setCursor_options ..
  sound := S.setCursor G.wf hbounded
  keeps hq := hq.setCursor G.keeps
  held hp := by
    cases List.mem_singleton.mp hp
    have hd : d = p.domain := G.held.domain.symm
    rw [Holds, cursor_setCursor, setCursor_options, if_pos hd, ← hd]
    exact G.held
  apart hp hq := by
    cases List.mem_singleton.mp hp
    intro he
    rw [Holds, he, G.held.domain] at hq
    exact G.disjoint hq he
  pairwise := List.pairwise_singleton ..
  table hv := .inl (setCursor_table l d c ▸ hv)

theorem takeSlot_serves (S : l.Sound) (h : takeSlot d l = .ok s l') :
    l.Serves [⟨d, s, none⟩] l' := by
  have hbounded := Region.takeSlot_bounded (S.bounded d)
  simp only [takeSlot, onCursor] at h
  split at h
  · rename_i hc
    rw [hc] at hbounded
    cases h
    exact S.serves_granted (Region.takeSlot_gives (S.wf d) hc) hbounded
  · cases h

theorem takeSlot_refuses (S : l.Sound) (h : takeSlot d l = .error f l') : l.Serves [] l' := by
  have hbounded := Region.takeSlot_bounded (S.bounded d)
  simp only [takeSlot, onCursor] at h
  split at h
  · cases h
  · rename_i hc
    rw [hc] at hbounded
    cases h
    exact S.serves_refused hbounded (Region.takeSlot_error hc)

theorem takeLocation_serves (S : l.Sound) (h : takeLocation d l = .ok p l') :
    l.Serves [p] l' := by
  have hbounded := Region.takeLocation_bounded (S.bounded d)
  simp only [takeLocation, onCursor] at h
  split at h
  · rename_i hc
    rw [hc] at hbounded
    cases h
    exact S.serves_granted (Region.takeLocation_gives (S.wf d) hc) hbounded
  · cases h

theorem takeLocation_refuses (S : l.Sound) (h : takeLocation d l = .error f l') :
    l.Serves [] l' := by
  have hbounded := Region.takeLocation_bounded (S.bounded d)
  simp only [takeLocation, onCursor] at h
  split at h
  · cases h
  · rename_i hc
    rw [hc] at hbounded
    cases h
    exact S.serves_refused hbounded (Region.takeLocation_error hc)

end Layout

namespace Workspace

variable {w w' : Workspace} {scope : ScopeId} {name : String} {domain : Domain}
  {kind : VariableKind} {span : Span}

theorem declareVariable_serves {id : VariableId} (S : w.layout.Sound)
    (h : declareVariable scope name domain kind span w = .ok id w') :
    ∃ v, w'.layout.get? id = some v ∧ w.layout.Serves [v.location] w'.layout := by
  simp only [declareVariable] at h
  split at h
  · cases h
  · split at h
    · cases h
    · rename_i location layout htake
      split at h
      · cases h
      · cases h
        refine ⟨_, by rw [Layout.get?_push, if_pos rfl], ?_⟩
        exact (Layout.takeLocation_serves S htake).push (List.mem_singleton_self _)

/-- A declaration can be refused before it gets a location, for want of one, or after it. -/
theorem declareVariable_refuses {r : Refusal} (S : w.layout.Sound)
    (h : declareVariable scope name domain kind span w = .error r w') :
    w.layout.Serves [] w'.layout := by
  simp only [declareVariable] at h
  split at h
  · cases h
    exact .refl S
  · split at h
    · rename_i f layout htake
      cases h
      exact Layout.takeLocation_refuses S htake
    · rename_i location layout htake
      split at h
      · cases h
        exact (Layout.takeLocation_serves S htake).lose (Layout.takeLocation_table htake)
      · cases h

end Workspace

/-! ## Requests -/

/-- A request for storage. The declaration of a variable comes with the symbols of the moment. -/
inductive StorageRequest where
  | slot (domain : Domain)
  | location (domain : Domain)
  | internal (name : String) (domain : Domain)
  | declaration (symbols : Symbols) (scope : ScopeId) (name : String) (domain : Domain)
      (kind : VariableKind) (span : Span)

namespace StorageRequest

/-- What a request is given, nothing if it is refused, and the layout after it. -/
def serve (r : StorageRequest) (l : Layout) : List Location × Layout :=
  match r with
  | .slot d =>
    match Layout.takeSlot d l with
    | .ok s l' => ([⟨d, s, none⟩], l')
    | .error _ l' => ([], l')
  | .location d =>
    match Layout.takeLocation d l with
    | .ok p l' => ([p], l')
    | .error _ l' => ([], l')
  | .internal name d =>
    match Layout.addInternal name d l with
    | .ok id l' => ((l'.get? id).toList.map (·.location), l')
    | .error _ l' => ([], l')
  | .declaration symbols scope name d kind span =>
    match Workspace.declareVariable scope name d kind span { symbols, layout := l } with
    | .ok id w => ((w.layout.get? id).toList.map (·.location), w.layout)
    | .error _ w => ([], w.layout)

/-- All that a run of requests is given, in order, and the layout after it. -/
def serveAll : List StorageRequest → Layout → List Location × Layout
  | [], l => ([], l)
  | r :: rs, l =>
    let (given, l') := r.serve l
    let (rest, l'') := serveAll rs l'
    (given ++ rest, l'')

variable {l : Layout}

/-- Each kind of request moves one cursor; the last two enter what was granted in the table. -/
theorem serve_serves (S : l.Sound) (r : StorageRequest) :
    l.Serves (r.serve l).1 (r.serve l).2 := by
  cases r with
  | slot d =>
    simp only [serve]
    split
    · rename_i h; exact Layout.takeSlot_serves S h
    · rename_i h; exact Layout.takeSlot_refuses S h
  | location d =>
    simp only [serve]
    split
    · rename_i h; exact Layout.takeLocation_serves S h
    · rename_i h; exact Layout.takeLocation_refuses S h
  | internal name d =>
    simp only [serve, Layout.addInternal]
    cases h : Layout.takeLocation d l with
    | error f l' => exact Layout.takeLocation_refuses S h
    | ok p l' =>
      simp only [Layout.get?_push, if_true, Option.toList_some, List.map_cons, List.map_nil]
      exact (Layout.takeLocation_serves S h).push (List.mem_singleton_self _)
  | declaration symbols scope name d kind span =>
    simp only [serve]
    split
    · rename_i h
      obtain ⟨v, hv, H⟩ := Workspace.declareVariable_serves S h
      rw [hv]
      exact H
    · rename_i h
      exact Workspace.declareVariable_refuses S h

theorem serveAll_serves (S : l.Sound) (rs : List StorageRequest) :
    l.Serves (serveAll rs l).1 (serveAll rs l).2 := by
  induction rs generalizing l with
  | nil => exact .refl S
  | cons r rs ih =>
    have H := serve_serves S r
    exact H.trans (ih H.sound)

/-- Whatever is requested of a new layout, in whatever order and under whatever options, the pieces
of storage that it hands out are pairwise disjoint, the locations of all its variables are among
them, and each lies in a slot of the target that is not the scratch slot, at an item that an array
can hold. No counter passes the number of slots or of items, and the number of usable slots is
never taken from zero. -/
theorem serveAll_disjoint (o : Options) (rs : List StorageRequest) :
    let given := (serveAll rs { options := o }).1
    let l := (serveAll rs { options := o }).2
    given.Pairwise Location.Disjoint ∧ (∀ v ∈ l.table, v.location ∈ given) ∧
    (∀ p ∈ given, (p.domain = .global → p.slot ≠ o.scratch) ∧ p.slot.position.val < o.slots ∧
      ∀ i, p.index = some i → i < max o.capacity 1) ∧
    ∀ d, (l.cursor d).passed ≤ o.slots ∧
      (∀ s n, (l.cursor d).filling = some (s, n) → n ≤ max o.capacity 1) ∧
      l.usable d + (if d = .global ∧ o.scratch.position.val < o.slots then 1 else 0) = o.slots := by
  intro given l
  have H : Layout.Serves { options := o } given l := serveAll_serves (.ofOptions o) rs
  have hoptions : l.options = o := H.options
  refine ⟨H.pairwise, fun v hv => ?_, fun p hp => ?_, fun d => ?_⟩
  · exact (H.table hv).resolve_left (by simp)
  · have held := H.held hp
    rw [Layout.Holds, hoptions] at held
    refine ⟨fun hd hs => held.notReserved ?_, held.slots, held.within⟩
    rw [hd, hs]
    rfl
  · have hbounded := H.sound.bounded d
    rw [hoptions] at hbounded
    refine ⟨hbounded.passed, fun s n => hbounded.filled, ?_⟩
    rw [Layout.usable, hoptions]
    exact o.usable_add_scratch d

-- A whole slot between two locations does not disturb the packing, and the scratch slot is left out.
example : (serveAll [.location .global, .slot .global, .location .global, .location .global]
    { options := { slots := 4, capacity := 2 } }).1 =
    [⟨.global, ⟨0⟩, some 0⟩, ⟨.global, ⟨2⟩, none⟩, ⟨.global, ⟨0⟩, some 1⟩,
      ⟨.global, ⟨3⟩, some 0⟩] := by
  decide

end StorageRequest

end Stackless
