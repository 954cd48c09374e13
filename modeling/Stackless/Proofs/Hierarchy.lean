import Mathlib.Data.List.Chain
import Mathlib.Data.List.Nodup
import Mathlib.Logic.Relation
import Stackless.Compile.Inheritance

/-!
# The order in which classes are completed

Each class points to at most one other class. Classes are completed one after the other; a class is
completed after the one that it points to, unless the way from there leads back to it and none of
the classes on that way is completed yet: then the class is cut off (`Completions`). What follows
from this order alone is proved here. Of every cycle exactly one class is cut off, the first one
that is completed (`Completions.exists_cut`, `Completions.cut_unique`), and the classes that are
extended form no cycle (`Completions.exists_chain`).
-/

namespace Stackless

/-! ## Cycles of a relation -/

section Cycles

variable {α : Type} {R : α → α → Prop} {a b z : α} {l : List α}

/-- Each of two nodes can be reached from the other in at least one step. -/
def OnCycle (R : α → α → Prop) (a b : α) : Prop :=
  Relation.TransGen R a b ∧ Relation.TransGen R b a

theorem OnCycle.symm (h : OnCycle R a b) : OnCycle R b a := ⟨h.2, h.1⟩

theorem OnCycle.trans (h : OnCycle R a b) (h' : OnCycle R b z) : OnCycle R a z :=
  ⟨h.1.trans h'.1, h'.2.trans h.2⟩

theorem transGen_of_isChain (h : (a :: l).IsChain R) (hz : l.getLast? = some z) :
    Relation.TransGen R a z := by
  induction l generalizing a with
  | nil => cases hz
  | cons b l ih =>
    obtain ⟨hab, hrest⟩ := List.isChain_cons_cons.mp h
    cases l with
    | nil =>
      cases hz
      exact .single hab
    | cons c l => exact .head hab (ih hrest hz)

/-- In a chain every node but the last has its successor in the chain. -/
theorem exists_next (h : (a :: l).IsChain R) (hz : l.getLast? = some z) {k : α}
    (hk : k ∈ a :: l) : k = z ∨ ∃ k' ∈ l, R k k' := by
  induction l generalizing a with
  | nil => cases hz
  | cons b l ih =>
    obtain ⟨hab, hrest⟩ := List.isChain_cons_cons.mp h
    rcases List.mem_cons.mp hk with rfl | hk
    · exact .inr ⟨b, List.mem_cons_self, hab⟩
    · cases l with
      | nil =>
        cases hz
        exact .inl (List.mem_singleton.mp hk)
      | cons c l =>
        refine (ih hrest hz hk).imp_right fun ⟨k', hk', hstep⟩ => ?_
        exact ⟨k', List.mem_cons_of_mem _ hk', hstep⟩

/-- Where every node has at most one successor, nothing leads out of a closed chain. -/
theorem mem_of_isChain (hR : Relator.RightUnique R) (h : (a :: l).IsChain R)
    (hz : l.getLast? = some a) {k : α} (hk : Relation.ReflTransGen R a k) : k ∈ l := by
  induction hk with
  | refl => exact List.mem_of_getLast? hz
  | @tail k k' _ hstep ih =>
    have hnext : ∃ k'' ∈ l, R k k'' := by
      rcases exists_next h hz (List.mem_cons_of_mem _ ih) with rfl | hnext
      · cases l with
        | nil => cases hz
        | cons b l => exact ⟨b, List.mem_cons_self, (List.isChain_cons_cons.mp h).1⟩
      · exact hnext
    obtain ⟨k'', hmem, hstep'⟩ := hnext
    exact hR hstep hstep' ▸ hmem

end Cycles

/-! ## Begun and completed classes -/

/-- A class that was begun, with the generic parameters that were registered for it. -/
structure Begun where
  source : ClassDef
  generics : List Generic

namespace Begun

def key (x : Begun) : Key := x.source.key

/-- The `extends` clause names another class that is known at the root. -/
def PointsTo (roots : String → Option Key) (x : Begun) (b : Key) : Prop :=
  ∃ ref, x.source.base = some ref ∧ Generic.isAmong x.generics ref.name.name = false ∧
    roots ref.name.name = some b ∧ b ≠ x.key

theorem PointsTo.unique {roots : String → Option Key} {x : Begun} {b b' : Key}
    (h : x.PointsTo roots b) (h' : x.PointsTo roots b') : b = b' := by
  obtain ⟨ref, href, _, hb, _⟩ := h
  obtain ⟨ref', href', _, hb', _⟩ := h'
  cases href.symm.trans href'
  exact Option.some.inj (hb.symm.trans hb')

/-- One of the classes has the key `a` and points to `b`. -/
def Follows (roots : String → Option Key) (xs : List Begun) (a b : Key) : Prop :=
  ∃ x ∈ xs, x.key = a ∧ x.PointsTo roots b

theorem Follows.rightUnique {roots : String → Option Key} {xs : List Begun}
    (hnd : (xs.map key).Nodup) : Relator.RightUnique (Follows roots xs) := by
  rintro a b b' ⟨x, hx, rfl, h⟩ ⟨x', hx', he, h'⟩
  cases List.inj_on_of_nodup_map hnd hx hx' he.symm
  exact h.unique h'

end Begun

/-- A class that is complete, with what it extends and the scopes of its members. -/
structure Completed extends Begun where
  base : Option Key
  scopes : MemberScopes

/-- The classes in `done` were completed, the last one first, and those in `cut` were cut off.
`R` is the relation along the `extends` clauses, and `F x y` says that nothing else keeps `x` from
extending `y`. -/
inductive Completions (R : Key → Key → Prop) (F : Begun → Begun → Prop) :
    List Completed → List Completed → Prop where
  | nil : Completions R F [] []
  | free {x : Completed} {done cut : List Completed} (rest : Completions R F done cut)
      (fresh : x.key ∉ done.map (·.key)) (before : ∀ b, R x.key b → b ∈ done.map (·.key))
      (base : ∀ b, x.base = some b ↔
        R x.key b ∧ ∃ y ∈ done, y.key = b ∧ F x.toBegun y.toBegun) :
    Completions R F (x :: done) cut
  | cut {x : Completed} {done cut : List Completed} {cycle : List Key}
      (rest : Completions R F done cut) (fresh : x.key ∉ done.map (·.key))
      (chain : (x.key :: cycle).IsChain R) (closed : cycle.getLast? = some x.key)
      (pending : ∀ k ∈ cycle, k ∉ done.map (·.key)) (base : x.base = none) :
    Completions R F (x :: done) (x :: cut)

namespace Completions

variable {R R' : Key → Key → Prop} {F : Begun → Begun → Prop} {done cut : List Completed}
  {x y : Completed} {a b : Key}

theorem nodup (H : Completions R F done cut) : (done.map (·.key)).Nodup := by
  induction H with
  | nil => exact .nil
  | free _ fresh _ _ ih => exact List.nodup_cons.mpr ⟨fresh, ih⟩
  | cut _ fresh _ _ _ _ ih => exact List.nodup_cons.mpr ⟨fresh, ih⟩

theorem cut_sublist (H : Completions R F done cut) : cut.Sublist done := by
  induction H with
  | nil => exact .slnil
  | free _ _ _ _ ih => exact ih.cons _
  | cut _ _ _ _ _ _ ih => exact ih.cons_cons _

theorem cut_subset (H : Completions R F done cut) (hx : x ∈ cut) : x ∈ done := H.cut_sublist.mem hx

/-- The relation can grow at classes that are not complete. -/
theorem mono (H : Completions R F done cut) (hle : ∀ {a b}, R a b → R' a b)
    (hsame : ∀ {a b}, a ∈ done.map (·.key) → R' a b → R a b) : Completions R' F done cut := by
  induction H with
  | nil => exact .nil
  | @free x done cut _ fresh before base ih =>
    have hx : ∀ b, R' x.key b ↔ R x.key b := fun b => ⟨hsame List.mem_cons_self, hle⟩
    refine .free (ih fun ha => hsame (List.mem_cons_of_mem _ ha)) fresh ?_ ?_
    · exact fun b h => before b ((hx b).mp h)
    · exact fun b => by rw [hx, base b]
  | cut _ fresh chain closed pending base ih =>
    exact .cut (ih fun ha => hsame (List.mem_cons_of_mem _ ha)) fresh (chain.imp fun _ _ h => hle h)
      closed pending base

/-- A class that is not cut off was completed after the one that it points to. -/
theorem mem_of_follows (H : Completions R F done cut) (hx : x ∈ done) (hcut : x ∉ cut)
    (hstep : R x.key b) : b ∈ done.map (·.key) := by
  induction H with
  | nil => cases hx
  | free _ _ before _ ih =>
    apply List.mem_cons_of_mem
    rcases List.mem_cons.mp hx with rfl | hx
    · exact before b hstep
    · exact ih hx hcut
  | cut _ _ _ _ _ _ ih =>
    apply List.mem_cons_of_mem
    rcases List.mem_cons.mp hx with rfl | hx
    · exact absurd List.mem_cons_self hcut
    · exact ih hx fun h => hcut (List.mem_cons_of_mem _ h)

theorem exists_mem_cons_iff {P : Completed → Prop} (fresh : x.key ∉ done.map (·.key))
    (hb : b ∈ done.map (·.key)) :
    (∃ y ∈ x :: done, y.key = b ∧ P y) ↔ ∃ y ∈ done, y.key = b ∧ P y := by
  constructor
  · intro ⟨y, hy, hkey, hP⟩
    rcases List.mem_cons.mp hy with rfl | hy
    · exact absurd (hkey ▸ hb) fresh
    · exact ⟨y, hy, hkey, hP⟩
  · intro ⟨y, hy, hrest⟩
    exact ⟨y, List.mem_cons_of_mem _ hy, hrest⟩

/-- What a class extends was settled when it was completed: later classes make no difference. -/
theorem base_iff (H : Completions R F done cut) (hx : x ∈ done) :
    x.base = some b ↔
      R x.key b ∧ x ∉ cut ∧ ∃ y ∈ done, y.key = b ∧ F x.toBegun y.toBegun := by
  induction H with
  | nil => cases hx
  | @free z done cut rest fresh before base ih =>
    rcases List.mem_cons.mp hx with rfl | hx
    · have hcut : x ∉ cut := fun h => fresh (List.mem_map_of_mem (rest.cut_subset h))
      rw [base b]
      refine and_congr_right fun hstep => ?_
      rw [exists_mem_cons_iff fresh (before b hstep), and_iff_right hcut]
    · rw [ih hx]
      refine and_congr_right fun hstep => and_congr_right fun hcut => ?_
      rw [exists_mem_cons_iff fresh (rest.mem_of_follows hx hcut hstep)]
  | @cut z done cut cycle rest fresh chain closed pending base ih =>
    rcases List.mem_cons.mp hx with rfl | hx
    · rw [base]
      exact iff_of_false nofun fun h => h.2.1 List.mem_cons_self
    · have hne : x ≠ z := fun h => fresh (h ▸ List.mem_map_of_mem hx)
      have hcuts : x ∉ z :: cut ↔ x ∉ cut := by simp [hne]
      rw [ih hx, hcuts]
      refine and_congr_right fun hstep => and_congr_right fun hcut => ?_
      rw [exists_mem_cons_iff fresh (rest.mem_of_follows hx hcut hstep)]

/-- From each class the extended classes lead, without repeating, to one that extends nothing. -/
theorem exists_chain (H : Completions R F done cut) (hx : x ∈ done) :
    ∃ chain : List Completed, (x :: chain).IsChain (fun y z => y.base = some z.key) ∧
      ((x :: chain).map (·.key)).Nodup ∧ x :: chain ⊆ done ∧
      ∀ y, (x :: chain).getLast? = some y → y.base = none := by
  -- a class that extends nothing is a chain of its own
  have hsingle : ∀ {z : Completed} {done : List Completed}, z.base = none →
      ∃ chain : List Completed, (z :: chain).IsChain (fun y z => y.base = some z.key) ∧
        ((z :: chain).map (·.key)).Nodup ∧ z :: chain ⊆ z :: done ∧
        ∀ y, (z :: chain).getLast? = some y → y.base = none := by
    intro z done hbase
    refine ⟨[], .singleton z, List.nodup_singleton _, by simp, fun y hy => ?_⟩
    cases hy
    exact hbase
  induction H generalizing x with
  | nil => cases hx
  | @free z done cut rest fresh before base ih =>
    rcases List.mem_cons.mp hx with rfl | hx
    · cases hbase : x.base with
      | none => exact hsingle hbase
      | some b =>
        obtain ⟨_, y, hy, hkey, _⟩ := (base b).mp hbase
        obtain ⟨chain, hchain, hnd, hmem, hlast⟩ := ih hy
        have hnew : x.key ∉ (y :: chain).map (·.key) := fun h => fresh (List.map_subset _ hmem h)
        exact ⟨y :: chain, .cons_cons (hkey ▸ hbase) hchain, List.nodup_cons.mpr ⟨hnew, hnd⟩,
          List.cons_subset_cons _ hmem, hlast⟩
    · obtain ⟨chain, hchain, hnd, hmem, hlast⟩ := ih hx
      exact ⟨chain, hchain, hnd, List.subset_cons_of_subset _ hmem, hlast⟩
  | @cut z done cut cycle rest fresh chain closed pending base ih =>
    rcases List.mem_cons.mp hx with rfl | hx
    · exact hsingle base
    · obtain ⟨chain, hchain, hnd, hmem, hlast⟩ := ih hx
      exact ⟨chain, hchain, hnd, List.subset_cons_of_subset _ hmem, hlast⟩

/-! ## One cut for each cycle -/

theorem onCycle_of_cut (H : Completions R F done cut) (hx : x ∈ cut) : OnCycle R x.key x.key := by
  induction H with
  | nil => cases hx
  | free _ _ _ _ ih => exact ih hx
  | cut _ _ chain closed _ _ ih =>
    rcases List.mem_cons.mp hx with rfl | hx
    · have hcycle := transGen_of_isChain chain closed
      exact ⟨hcycle, hcycle⟩
    · exact ih hx

/-- A cycle that has a class among the completed ones was cut: its first completed class cannot
have come after the class that it points to. -/
theorem exists_cut (H : Completions R F done cut) (hb : b ∈ done.map (·.key))
    (hab : OnCycle R a b) : ∃ x ∈ cut, OnCycle R a x.key := by
  induction H generalizing b with
  | nil => cases hb
  | @free z done cut _ _ before _ ih =>
    rcases List.mem_cons.mp hb with rfl | hb
    · obtain ⟨c, hstep, hback⟩ := Relation.TransGen.head'_iff.mp hab.2
      exact ih (before c hstep) ⟨hab.1.tail hstep, .trans_right hback (hab.1.trans hab.2)⟩
    · exact ih hb hab
  | @cut z done cut _ _ _ _ _ _ _ ih =>
    rcases List.mem_cons.mp hb with rfl | hb
    · exact ⟨z, List.mem_cons_self, hab⟩
    · obtain ⟨x, hx, hax⟩ := ih hb hab
      exact ⟨x, List.mem_cons_of_mem _ hx, hax⟩

/-- No cycle is cut twice: when a class is cut off, no class of its cycle is complete yet. -/
theorem cut_unique (hR : Relator.RightUnique R) (H : Completions R F done cut) (hx : x ∈ cut)
    (hy : y ∈ cut) (hxy : OnCycle R x.key y.key) : x = y := by
  induction H with
  | nil => cases hx
  | free _ _ _ _ ih => exact ih hx hy
  | @cut z done cut cycle rest _ chain closed pending _ ih =>
    have hother : ∀ {w : Completed}, w ∈ cut → Relation.TransGen R z.key w.key → False := by
      intro w hw hreach
      exact pending w.key (mem_of_isChain hR chain closed hreach.to_reflTransGen)
        (List.mem_map_of_mem (rest.cut_subset hw))
    rcases List.mem_cons.mp hx with rfl | hx'
    · rcases List.mem_cons.mp hy with rfl | hy'
      · rfl
      · exact (hother hy' hxy.1).elim
    · rcases List.mem_cons.mp hy with rfl | hy'
      · exact (hother hx' hxy.2).elim
      · exact ih hx' hy'

end Completions

end Stackless
