import Stackless.Proofs.TypeTable

/-!
# Completing the classes

While classes are completed, some of them wait, some are open, and some are done. The open ones
form a path along the `extends` clauses, the newest first, and the order in which classes are done
is the one of `Completions` (`Outline.Completing`). Beginning a class puts it on the path, closing
it takes it off and makes it the next that is done.
-/

namespace Stackless

/-- The classes that are open or done. -/
def begun (opens : List Begun) (done : List Completed) : List Begun :=
  opens ++ done.map (·.toBegun)

theorem mem_keys_begun {opens : List Begun} {done : List Completed} {k : Key} :
    k ∈ (begun opens done).map (·.key) ↔ k ∈ opens.map (·.key) ∨ k ∈ done.map (·.key) := by
  simp only [begun, List.map_append, List.map_map, List.mem_append]
  rfl

theorem begun_perm (x : Completed) (opens : List Begun) (done : List Completed) :
    (begun opens (x :: done)).Perm (begun (x.toBegun :: opens) done) := List.perm_middle

/-- The cycle that is reported for a class that is cut off. -/
def Completed.Reports (x : Completed) (p : Problem) : Prop :=
  ∃ ref, x.source.base = some ref ∧
    p = .circularInheritance x.source.name.name ref.span

/-- The class that is extended according to a clause. -/
def BaseClause.base? : BaseClause → Option Key
  | .accepted base => some base.key
  | .absent | .refused _ => none

/-- The problems with a clause. -/
def BaseClause.problems : BaseClause → List Problem
  | .refused problems => problems
  | .absent | .accepted _ => []

namespace Outline

/-- The state of completing `classes`: those in `opens` are open and those in `done` are done, the
newest of each first, and those in `cut` were cut off to end a cycle. -/
structure Completing (g : Outline) (classes : List ClassDef) (opens : List Begun)
    (done cut : List Completed) : Prop where
  keys : g.keys.Nodup
  registered : ∀ {k t}, g.type? k = some t → t.isClass = true → k ∈ classes.map (·.key)
  bound : ∀ {name k}, g.roots name = some k → k ∈ classes.map (·.key)
  names : ∀ c ∈ classes, g.roots c.name.name = some c.key
  sources : ∀ x ∈ begun opens done, x.source ∈ classes
  distinct : ((begun opens done).map (·.key)).Nodup
  waiting : ∀ c ∈ classes, c.key ∉ (begun opens done).map (·.key) → g.type? c.key = some c.entry
  opened : ∀ x ∈ opens, g.type? x.key = some x.entry
  closed : ∀ x ∈ done, g.type? x.key = some x.entry
  generics : ∀ x ∈ begun opens done, x.Registered g.keys
  parameters : ∀ x ∈ begun opens done, g.parameters x.key = x.generics.map (·.name.name)
  unowned : ∀ k, k ∉ (begun opens done).map (·.key) → g.parameters k = []
  path : opens.IsChain fun inner outer => outer.PointsTo g.roots inner.key
  order : Completions (Begun.Follows g.roots (begun opens done)) (Begun.Fits g.roots) done cut
  scopes : ∀ x ∈ done, x.scopes.static.index < g.size ∧ x.scopes.object.index < g.size
  cycles : List.Forall₂ Completed.Reports cut g.circular.reverse
  blamed : ∀ x ∈ done, x.base = none → ∀ ref, x.source.base = some ref →
    ∃ p ∈ g.reported, x.source.Blames ref p

namespace Completing

variable {g : Outline} {classes : List ClassDef} {opens : List Begun} {done cut : List Completed}
  {x : Begun}

theorem follows_iff (C : g.Completing classes opens done cut) (hx : x ∈ begun opens done)
    {b : Key} : Begun.Follows g.roots (begun opens done) x.key b ↔ x.PointsTo g.roots b := by
  constructor
  · intro ⟨y, hy, hkey, hpoints⟩
    cases List.inj_on_of_nodup_map C.distinct hy hx hkey
    exact hpoints
  · intro hpoints
    exact ⟨x, hx, rfl, hpoints⟩

theorem mem_of_pointsTo (C : g.Completing classes opens done cut) {b : Key}
    (h : x.PointsTo g.roots b) : b ∈ classes.map (·.key) := by
  obtain ⟨_, _, _, hroot, _⟩ := h
  exact C.bound hroot

/-- A class that waits, and that the newest open class points to if there is one, is begun. -/
theorem begin (C : g.Completing classes opens done cut) (hx : x.source ∈ classes)
    (hnew : x.key ∉ (begun opens done).map (·.key))
    (hpath : ∀ y ∈ opens.head?, y.PointsTo g.roots x.key) (hkeys : (g.begin x).keys.Nodup)
    (hgenerics : x.Registered (g.begin x).keys) :
    (g.begin x).Completing classes (x :: opens) done cut := by
  have hne : ∀ {y : Begun}, y ∈ begun opens done → y.key ≠ x.key :=
    fun hy h => hnew (h ▸ List.mem_map_of_mem hy)
  have hold : ∀ {k}, k ∉ (begun (x :: opens) done).map (·.key) →
      k ≠ x.key ∧ k ∉ (begun opens done).map (·.key) := by
    intro k hk
    exact ⟨fun h => hk (h ▸ List.mem_cons_self), fun h => hk (List.mem_cons_of_mem _ h)⟩
  refine
    { keys := hkeys
      registered := ?_
      bound := C.bound
      names := C.names
      sources := ?_
      distinct := List.nodup_cons.mpr ⟨hnew, C.distinct⟩
      waiting := ?_
      opened := ?_
      closed := ?_
      generics := ?_
      parameters := ?_
      unowned := ?_
      path := List.isChain_cons.mpr ⟨hpath, C.path⟩
      order := ?_
      scopes := C.scopes
      cycles := C.cycles
      blamed := C.blamed }
  · intro k t ht hclass
    obtain ⟨t', ht', hclass'⟩ := of_type?_begin ht hclass
    exact C.registered ht' hclass'
  · intro y hy
    rcases List.mem_cons.mp hy with rfl | hy
    · exact hx
    · exact C.sources y hy
  · intro c hc hwaits
    exact type?_begin_of_ne (C.waiting c hc (hold hwaits).2) (hold hwaits).1
  · intro y hy
    rcases List.mem_cons.mp hy with rfl | hy
    · have hwaits : g.type? y.key = some y.source.entry := C.waiting y.source hx hnew
      rw [type?_begin y hwaits, if_pos rfl]
      rfl
    · exact type?_begin_of_ne (C.opened y hy) (hne (List.mem_append_left _ hy))
  · intro y hy
    exact type?_begin_of_ne (C.closed y hy) (hne (List.mem_append_right _ (List.mem_map_of_mem hy)))
  · intro y hy
    rcases List.mem_cons.mp hy with rfl | hy
    · exact hgenerics
    · exact (C.generics y hy).mono (keys_begin x)
  · intro y hy
    rw [parameters_begin]
    rcases List.mem_cons.mp hy with rfl | hy
    · rw [if_pos rfl, C.unowned _ hnew, List.nil_append]
    · rw [if_neg (hne hy), C.parameters y hy, List.append_nil]
  · intro k hk
    rw [parameters_begin, if_neg (hold hk).1, C.unowned k (hold hk).2, List.append_nil]
  · apply C.order.mono
    · intro a b ⟨y, hy, hrest⟩
      exact ⟨y, List.mem_cons_of_mem _ hy, hrest⟩
    · intro a b ha ⟨y, hy, hkey, hpoints⟩
      rcases List.mem_cons.mp hy with rfl | hy
      · exact absurd (mem_keys_begun.mpr (.inr (hkey ▸ ha))) hnew
      · exact ⟨y, hy, hkey, hpoints⟩

/-! ### Closing a class -/

/-- The way from an open class through the path back to the newest open class. -/
theorem exists_cycle (C : g.Completing classes (x :: opens) done cut) {b : Key}
    (hpoints : x.PointsTo g.roots b) (hb : b ∈ opens.map (·.key)) :
    ∃ cycle : List Key,
      (x.key :: cycle).IsChain (Begun.Follows g.roots (begun (x :: opens) done)) ∧
      cycle.getLast? = some x.key ∧ ∀ k ∈ cycle, k ∉ done.map (·.key) := by
  obtain ⟨y, hy, rfl⟩ := List.mem_map.mp hb
  obtain ⟨inner, outer, rfl⟩ := List.append_of_mem hy
  -- the path from `x` outwards to `y`, walked backwards
  have hsplit : x :: (inner ++ y :: outer) = (x :: (inner ++ [y])) ++ outer := by simp
  have hpath : (x :: (inner ++ [y])).IsChain fun inner outer => outer.PointsTo g.roots inner.key :=
    (List.isChain_append.mp (hsplit ▸ C.path)).1
  have hopen : ∀ z ∈ x :: (inner ++ [y]), z ∈ x :: (inner ++ y :: outer) := by
    intro z hz
    rw [hsplit]
    exact List.mem_append_left _ hz
  refine ⟨((x :: (inner ++ [y])).map (·.key)).reverse, ?_, ?_, ?_⟩
  · rw [List.isChain_cons, List.isChain_reverse, List.isChain_map]
    constructor
    · intro k hk
      rw [List.head?_reverse, List.map_cons, List.map_append, List.map_singleton,
        ← List.cons_append, List.getLast?_concat] at hk
      cases hk
      exact ⟨x, List.mem_cons_self, rfl, hpoints⟩
    · refine hpath.imp_of_mem_imp fun z w _ hw h => ?_
      exact ⟨w, List.mem_append_left _ (hopen w hw), rfl, h⟩
  · rw [List.getLast?_reverse]
    rfl
  · intro k hk hdone
    obtain ⟨z, hz, rfl⟩ := List.mem_map.mp (List.mem_reverse.mp hk)
    have hdistinct := C.distinct
    rw [begun, List.map_append, List.nodup_append] at hdistinct
    refine hdistinct.2.2 _ (List.mem_map_of_mem (hopen z hz)) z.key ?_ rfl
    rw [List.map_map]
    exact hdone

/-- When a class is closed, it is the next in the order. -/
theorem order_close {x : Completed} (C : g.Completing classes (x.toBegun :: opens) done cut)
    {clause : BaseClause} (V : x.Verdict g.roots (opens.map (·.key)) done clause)
    (hbase : x.base = clause.base?) :
    ∃ cut', Completions (Begun.Follows g.roots (begun opens (x :: done))) (Begun.Fits g.roots)
        (x :: done) cut' ∧
      List.Forall₂ Completed.Reports cut' (g.report clause.problems).circular.reverse := by
  have hperm := begun_perm x opens done
  have hfollows : Begun.Follows g.roots (begun opens (x :: done)) =
      Begun.Follows g.roots (begun (x.toBegun :: opens) done) := by
    funext a b
    simp only [Begun.Follows, hperm.mem_iff]
  have hpoints : ∀ {b}, Begun.Follows g.roots (begun opens (x :: done)) x.key b ↔
      x.PointsTo g.roots b := by
    intro b
    rw [hfollows, C.follows_iff List.mem_cons_self]
  have hold : Completions (Begun.Follows g.roots (begun opens (x :: done)))
      (Begun.Fits g.roots) done cut := hfollows ▸ C.order
  have hfresh : x.key ∉ done.map (·.key) :=
    fun h => (List.nodup_cons.mp C.distinct).1 (mem_keys_begun.mpr (.inr h))
  have hcycles : ∀ {ps : List Problem}, (∀ p ∈ ps, p.isCircularInheritance = false) →
      List.Forall₂ Completed.Reports cut (g.report ps).circular.reverse := by
    intro ps hps
    have hnone : ps.filter (·.isCircularInheritance) = [] :=
      List.filter_eq_nil_iff.mpr fun p hp => by simp [hps p hp]
    rw [report, hnone, List.append_nil]
    exact C.cycles
  cases V with
  | absent hnone =>
    have hno : ∀ b, ¬ x.PointsTo g.roots b := by
      rintro b ⟨ref, href, _⟩
      cases hnone.symm.trans href
    refine ⟨cut, .free hold hfresh (fun b h => absurd (hpoints.mp h) (hno b)) fun b => ?_,
      hcycles (by simp [BaseClause.problems])⟩
    rw [hbase]
    exact iff_of_false (by simp [BaseClause.base?]) fun h => hno b (hpoints.mp h.1)
  | refused href blames unfit =>
    refine ⟨cut, .free hold hfresh (fun b h => ?_) fun b => ?_, hcycles fun p hp => (blames p hp).2⟩
    · obtain ⟨y, hy, rfl, _⟩ := unfit b (hpoints.mp h)
      exact List.mem_map_of_mem hy
    · rw [hbase]
      refine iff_of_false (by simp [BaseClause.base?]) fun h => ?_
      obtain ⟨hstep, z, hz, hkey, hfits⟩ := h
      obtain ⟨y, hy, rfl, hunfit⟩ := unfit b (hpoints.mp hstep)
      cases List.inj_on_of_nodup_map C.order.nodup hz hy hkey
      exact hunfit hfits
  | @circular ref b href points isPending =>
    obtain ⟨cycle, hchain, hclosed, hpending⟩ := C.exists_cycle points isPending
    refine ⟨x :: cut, .cut hold hfresh (hfollows ▸ hchain) hclosed hpending hbase, ?_⟩
    have hcircular : (g.report [.circularInheritance x.source.name.name ref.span]).circular =
      g.circular ++ [.circularInheritance x.source.name.name ref.span] := rfl
    rw [BaseClause.problems, hcircular, List.reverse_append]
    exact .cons ⟨ref, href, rfl⟩ C.cycles
  | @accepted y points isDone fits =>
    refine ⟨cut, .free hold hfresh (fun b h => ?_) fun b => ?_,
      hcycles (by simp [BaseClause.problems])⟩
    · cases points.unique (hpoints.mp h)
      exact List.mem_map_of_mem isDone
    · rw [hbase]
      constructor
      · intro h
        obtain rfl : y.key = b := Option.some.inj h
        exact ⟨hpoints.mpr points, y, isDone, rfl, fits⟩
      · intro h
        exact congrArg some (points.unique (hpoints.mp h.1))

/-- If a class with an `extends` clause extends nothing, some problem is about the clause. -/
theorem blamed_close {x : Completed} {pending : List Key} {clause : BaseClause}
    (V : x.Verdict g.roots pending done clause) (hbase : clause.base? = none) {ref : TypeRef}
    (href : x.source.base = some ref) : ∃ p ∈ clause.problems, x.source.Blames ref p := by
  cases V with
  | absent hnone => cases hnone.symm.trans href
  | refused href' blames _ =>
    cases href'.symm.trans href
    exact ⟨_, List.mem_cons_self, (blames _ List.mem_cons_self).1⟩
  | circular href' _ _ =>
    cases href'.symm.trans href
    exact ⟨_, List.mem_singleton_self _, .circular⟩
  | accepted _ _ _ => cases hbase

/-- The newest open class gets its scopes and what it extends, and is done. -/
theorem close {x : Completed} (C : g.Completing classes (x.toBegun :: opens) done cut)
    {clause : BaseClause} (V : x.Verdict g.roots (opens.map (·.key)) done clause)
    (hbase : x.base = clause.base?) (hstatic : g.size ≤ x.scopes.static.index)
    (hobject : x.scopes.static.index < x.scopes.object.index) :
    ∃ cut', ((((g.report clause.problems).upTo x.scopes.static).upTo x.scopes.object).close
      x).Completing classes opens (x :: done) cut' := by
  have hperm := begun_perm x opens done
  have hkeys := hperm.map (·.key)
  have hne : ∀ {y : Begun}, y ∈ begun opens done → y.key ≠ x.key := by
    intro y hy h
    exact (List.nodup_cons.mp C.distinct).1 (List.mem_map.mpr ⟨y, hy, h⟩)
  have hsize : ∀ {y : Completed}, y ∈ done → y.scopes.static.index < x.scopes.object.index + 1 ∧
      y.scopes.object.index < x.scopes.object.index + 1 := by
    intro y hy
    have := C.scopes y hy
    omega
  obtain ⟨cut', horder, hcycles⟩ := C.order_close V hbase
  refine ⟨cut',
    { keys := ?_
      registered := ?_
      bound := C.bound
      names := C.names
      sources := fun y hy => C.sources y (hperm.mem_iff.mp hy)
      distinct := hkeys.nodup_iff.mpr C.distinct
      waiting := ?_
      opened := ?_
      closed := ?_
      generics := ?_
      parameters := ?_
      unowned := ?_
      path := (List.isChain_cons.mp C.path).2
      order := horder
      scopes := ?_
      cycles := hcycles
      blamed := ?_ }⟩
  · rw [keys_close]
    exact C.keys
  · intro k t ht hclass
    obtain ⟨t', ht', hclass'⟩ := of_type?_close ht hclass
    exact C.registered ht' hclass'
  · intro c hc hwaits
    rw [hkeys.mem_iff] at hwaits
    refine type?_close_of_ne (C.waiting c hc hwaits) fun h => hwaits (h ▸ List.mem_cons_self)
  · intro y hy
    exact type?_close_of_ne (C.opened y (List.mem_cons_of_mem _ hy))
      (hne (List.mem_append_left _ hy))
  · intro y hy
    rcases List.mem_cons.mp hy with rfl | hy
    · exact type?_close_self (C.opened y.toBegun List.mem_cons_self)
    · exact type?_close_of_ne (C.closed y hy)
        (hne (List.mem_append_right _ (List.mem_map_of_mem hy)))
  · intro y hy
    rw [keys_close]
    exact C.generics y (hperm.mem_iff.mp hy)
  · intro y hy
    rw [parameters_close]
    exact C.parameters y (hperm.mem_iff.mp hy)
  · intro k hk
    rw [parameters_close]
    exact C.unowned k fun h => hk (hkeys.mem_iff.mpr h)
  · intro y hy
    rcases List.mem_cons.mp hy with rfl | hy
    · exact ⟨Nat.lt_succ_of_lt hobject, Nat.lt_succ_self _⟩
    · exact hsize hy
  · intro y hy hnone ref href
    rcases List.mem_cons.mp hy with rfl | hy
    · obtain ⟨p, hp, hblames⟩ := blamed_close V (hbase ▸ hnone) href
      exact ⟨p, List.mem_append_right _ hp, hblames⟩
    · obtain ⟨p, hp, hblames⟩ := C.blamed y hy hnone ref href
      exact ⟨p, List.mem_append_left _ hp, hblames⟩

end Completing

end Outline

end Stackless
