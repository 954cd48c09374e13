import Stackless.Proofs.Inheritance

/-!
# Resolving a script

What the pass that declares a script does to its classes, step by step: it registers the first
class of each key (`Declare.guards_names`), completes them in an order in which every class comes
after the one that it extends (`Declare.complete_outcome`), and then leaves them alone. It fails
only for want of storage (`Declare.guards_script`).
-/

namespace Stackless

namespace Declare

variable {g : Outline} {classes : List ClassDef} {opens : List Begun} {done cut : List Completed}
  {c : ClassDef} {gs : List Generic}

/-! ## Closing a class -/

/-- The clause is judged, and what is extended was completed before the class. -/
theorem guards_extended (C : g.Completing classes (⟨c, gs⟩ :: opens) done cut)
    (hnext : ∀ b, Begun.PointsTo g.roots ⟨c, gs⟩ b →
      b ∈ opens.map (·.key) ∨ b ∈ done.map (·.key)) :
    Guards g.Kept g.options.Tolerates (extended c gs) fun base s => ∃ clause,
      (g.report clause.problems).Kept s ∧
        Begun.Verdict g.roots (opens.map (·.key)) done ⟨c, gs⟩ clause ∧
        base.map (·.1) = clause.base? ∧ ∀ b ∈ base, ∃ y ∈ done, b = (y.key, y.scopes) := by
  refine Pass.guards_symbols.bind fun symbols => ?_
  refine Guards.strengthen (P := fun s => g.Kept s ∧ ∃ clause,
    c.baseClause symbols gs = .ok clause ∧
      Begun.Verdict g.roots (opens.map (·.key)) done ⟨c, gs⟩ clause) (Guards.assume ?_) ?_
  · intro ⟨clause, hclause, V⟩
    rw [hclause]
    cases V with
    | absent hnone =>
      refine .pure fun s K => ⟨.absent, ?_, .absent hnone, rfl, nofun⟩
      exact (g.report_nil).symm ▸ K
    | refused href blames unfit =>
      refine (Outline.guards_addProblems _).bind fun _ => .pure fun s K => ?_
      exact ⟨.refused _, K, .refused href blames unfit, rfl, nofun⟩
    | circular href points isPending =>
      refine (Outline.guards_addProblems _).bind fun _ => .pure fun s K => ?_
      exact ⟨.refused _, K, .circular href points isPending, rfl, nofun⟩
    | @accepted y points isDone fits =>
      refine .pure fun s K => ⟨.accepted y.entry, ?_, .accepted points isDone fits, rfl, ?_⟩
      · exact (g.report_nil).symm ▸ K
      · intro b hb
        cases hb
        exact ⟨y, isDone, rfl⟩
  · intro s hs
    rw [hs.2]
    exact ⟨hs.1, Begun.judged (x := ⟨c, gs⟩) hs.1
      (fun y hy => C.opened y (List.mem_cons_of_mem _ hy)) C.closed hnext⟩

theorem keeps_inheritFrom {m : MemberScopes} {base : Option MemberScopes} {n : Nat}
    (hstatic : n ≤ m.static.index) (hobject : n ≤ m.object.index)
    (hs : m.static.index < g.size) (ho : m.object.index < g.size)
    (hbase : ∀ b ∈ base, b.static.index < n ∧ b.object.index < n) :
    g.Keeps (inheritFrom m base) := by
  have hmerge : ∀ {target source : ScopeId}, n ≤ target.index → target.index < g.size →
      source.index < n → g.Keeps (Pass.lift (Workspace.merge target source) : Declare Nat) := by
    intro target source hle hlt hlt'
    refine Outline.keeps_merge ?_ hlt (by omega)
    rintro rfl
    omega
  cases base with
  | none => exact Outline.keeps_pure ()
  | some b =>
    obtain ⟨hbs, hbo⟩ := hbase b rfl
    exact (hmerge hstatic hs hbs).bind fun _ => (hmerge hobject ho hbo).bind fun _ =>
      Outline.keeps_pure ()

/-- The stage of a pass from `g` on in which the classes in `opens` are open and those in `done` are
done. -/
def Reached (g : Outline) (classes : List ClassDef) (opens : List Begun) (done : List Completed)
    (s : Stage Declarations) : Prop :=
  ∃ (g' : Outline) (cut : List Completed), g'.Kept s ∧ g'.Completing classes opens done cut ∧
    g'.options = g.options ∧ g'.roots = g.roots

/-- The newest open class is done. -/
theorem guards_closeClass (C : g.Completing classes (⟨c, gs⟩ :: opens) done cut)
    (hnext : ∀ b, Begun.PointsTo g.roots ⟨c, gs⟩ b →
      b ∈ opens.map (·.key) ∨ b ∈ done.map (·.key)) :
    Guards g.Kept g.options.Tolerates (closeClass c gs) fun _ s =>
      ∃ x : Completed, x.toBegun = ⟨c, gs⟩ ∧ Reached g classes opens (x :: done) s := by
  refine (guards_extended C hnext).bind fun base => Guards.exists_elim fun clause => ?_
  refine Guards.assume fun ⟨V, hbase, hscopes⟩ => ?_
  refine (Outline.guards_newScope ..).bind fun static => Guards.assume fun hstatic => ?_
  refine (Outline.guards_newScope ..).bind fun object => Guards.assume fun hobject => ?_
  change g.size ≤ static.index at hstatic
  change static.index < object.index at hobject
  let x : Completed := ⟨⟨c, gs⟩, base.map (·.1), ⟨static, object⟩⟩
  let g₂ : Outline := ((g.report clause.problems).upTo static).upTo object
  let g₃ : Outline := g₂.updateType c.key fun t =>
    { t with base := x.base, members := some x.scopes, generics := gs.map (·.key) }
  have hpos : 0 < static.index := Nat.lt_of_lt_of_le g.rooted hstatic
  have hs : static.index < object.index + 1 := Nat.lt_succ_of_lt hobject
  have ho : object.index < object.index + 1 := Nat.lt_succ_self _
  have hentry : g₂.type? c.key = some (Begun.mk c gs).entry := C.opened ⟨c, gs⟩ List.mem_cons_self
  have hentry' : ∃ t, g₃.type? c.key = some t := by
    rw [Outline.type?_updateType (.content ..), hentry]
    exact ⟨_, rfl⟩
  obtain ⟨t, hentry'⟩ := hentry'
  have hend : Guards g₃.Kept g.options.Tolerates
      (updateType c.key (fun t => { t with progress := .resolved }) >>= fun _ =>
        Pass.note fun d => { d with typeCount := d.typeCount + 1 })
      fun _ s => ∃ x : Completed, x.toBegun = ⟨c, gs⟩ ∧ Reached g classes opens (x :: done) s := by
    obtain ⟨cut', hdone⟩ := C.close (x := x) V hbase hstatic hobject
    refine ((guards_updateType hentry' _).bind fun _ =>
      Outline.keeps_note (g := g₂.close x) _).weaken fun _ s K => ?_
    exact ⟨x, rfl, g₂.close x, cut', K, hdone, rfl, rfl⟩
  refine Guards.bind (keeps_inheritFrom (g := g₂) hstatic
    (Nat.le_trans hstatic (Nat.le_of_lt hobject)) hs ho ?_) fun _ => ?_
  · intro b hb
    obtain ⟨b', hb', rfl⟩ := Option.map_eq_some_iff.mp hb
    obtain ⟨y, hy, rfl⟩ := hscopes b' hb'
    exact C.scopes y hy
  refine Guards.bind (keeps_bindGenerics (g := g₂) hpos (Nat.lt_trans hpos hobject) hs ho gs)
    fun _ => ?_
  refine Guards.bind (guards_updateType (g := g₂) hentry _) fun _ => ?_
  refine Guards.bind (keeps_members (g := g₃) hs ho c c.members) fun _ => ?_
  dsimp only
  split
  · exact Guards.bind (keeps_constructor (g := g₃) _) fun _ => hend
  · exact hend

/-! ## The order of completion -/

theorem classOf_eq_ok {key : Key} (h : key ∈ classes.map (·.key)) :
    ∃ c ∈ classes, classOf classes key = .ok c ∧ c.key = key := by
  obtain ⟨c', hc', hkey⟩ := List.mem_map.mp h
  cases hfind : classes.find? (·.key = key) with
  | none => exact absurd (List.find?_eq_none.mp hfind c' hc') (by simpa using hkey)
  | some c =>
    have hclass : classOf classes key = .ok c := by simp only [classOf, hfind]
    exact ⟨c, List.mem_of_find?_eq_some hfind, hclass, key_of_classOf hclass⟩

/-- Either the class was begun before, or it is put on the path. -/
theorem guards_beginClass {key : Key} (C : g.Completing classes opens done cut)
    (hkey : key ∈ classes.map (·.key)) (hpath : ∀ y ∈ opens.head?, y.PointsTo g.roots key) :
    Guards g.Kept g.options.Tolerates (beginClass classes key) fun r s =>
      (r = none → g.Kept s ∧ (key ∈ opens.map (·.key) ∨ key ∈ done.map (·.key))) ∧
      ∀ c gs, r = some (c, gs) → c.key = key ∧ (g.begin ⟨c, gs⟩).Kept s ∧
        (g.begin ⟨c, gs⟩).Completing classes (⟨c, gs⟩ :: opens) done cut := by
  refine Pass.guards_symbols.bind fun symbols => ?_
  refine Guards.strengthen (P := fun s => g.Kept s ∧ symbols.type? key = g.type? key)
    (Guards.assume fun htype => ?_) fun s hs => ⟨hs.1, hs.2 ▸ hs.1.type? key⟩
  rw [htype]
  by_cases hbegun : key ∈ (begun opens done).map (·.key)
  · have hold : ∃ t, g.type? key = some t ∧ t.progress ≠ .unresolved := by
      rcases mem_keys_begun.mp hbegun with h | h
      · obtain ⟨y, hy, rfl⟩ := List.mem_map.mp h
        exact ⟨_, C.opened y hy, nofun⟩
      · obtain ⟨y, hy, rfl⟩ := List.mem_map.mp h
        exact ⟨_, C.closed y hy, nofun⟩
    obtain ⟨t, ht, hprogress⟩ := hold
    simp only [ht, if_neg hprogress]
    exact .pure fun s K => ⟨fun _ => ⟨K, mem_keys_begun.mp hbegun⟩, nofun⟩
  · obtain ⟨c, hc, hclass, rfl⟩ := classOf_eq_ok hkey
    have hentry := C.waiting c hc hbegun
    have hprogress : c.entry.progress = .unresolved := rfl
    simp only [hentry, if_pos hprogress, hclass]
    refine (guards_openClass C.keys hentry).bind fun gs => .pure fun s K => ⟨nofun, ?_⟩
    intro c' gs' hr
    cases hr
    exact ⟨rfl, K.1, C.begin hc hbegun hpath K.2.1 K.2.2⟩

/-- A class is begun if it was not begun before. -/
theorem beginClass_ok {key : Key} {r : Option (ClassDef × List Generic)} {s s' : Stage Declarations}
    (h : beginClass classes key s = .ok r s') :
    (r = none ∧ s' = s) ∨
      ∃ c gs, r = some (c, gs) ∧ c ∈ classes ∧ openClass c s = .ok gs s' ∧
        ∃ t, s.work.symbols.type? c.key = some t ∧ t.progress = .unresolved := by
  obtain ⟨symbols, s₁, hsymbols, h⟩ := exists_of_bind h
  cases hsymbols
  cases ht : s.work.symbols.type? key with
  | none =>
    rw [ht] at h
    cases h
  | some t =>
    rw [ht] at h
    dsimp only at h
    split at h
    · rename_i hprogress
      cases hclass : classOf classes key with
      | error f =>
        rw [hclass] at h
        cases h
      | ok c =>
        rw [hclass] at h
        obtain ⟨gs, s₂, hopen, h⟩ := exists_of_bind h
        cases h
        cases key_of_classOf hclass
        refine .inr ⟨c, gs, rfl, ?_, hopen, t, ht, hprogress⟩
        simp only [classOf] at hclass
        split at hclass
        · rename_i hfind
          cases hclass
          exact List.mem_of_find?_eq_some hfind
        · cases hclass
    · cases h
      exact .inl ⟨rfl, rfl⟩

/-- The stages that beginning and closing classes leads to from a first one, with the classes that
are open and those that are closed, the newest first. -/
inductive Advances (classes : List ClassDef) (start : Stage Declarations) :
    List Begun → List Completed → Stage Declarations → Prop where
  | refl : Advances classes start [] [] start
  | begin {g : Outline} {opens : List Begun} {done cut : List Completed} {x : Begun}
      {s s' : Stage Declarations} (before : Advances classes start opens done s) (kept : g.Kept s)
      (completing : g.Completing classes opens done cut) (listed : x.source ∈ classes)
      (fresh : x.key ∉ (begun opens done).map (·.key))
      (step : openClass x.source s = .ok x.generics s') :
    Advances classes start (x :: opens) done s'
  | close {g : Outline} {opens : List Begun} {done cut : List Completed} {x : Completed} {u : Unit}
      {s s' : Stage Declarations} (before : Advances classes start (x.toBegun :: opens) done s)
      (kept : g.Kept s) (completing : g.Completing classes (x.toBegun :: opens) done cut)
      (next : ∀ b, x.PointsTo g.roots b → b ∈ opens.map (·.key) ∨ b ∈ done.map (·.key))
      (step : closeClass x.source x.generics s = .ok u s')
      (entry : s'.work.symbols.type? x.key = some x.entry) :
    Advances classes start opens (x :: done) s'

/-- Beginning a class is one more step of the way. -/
theorem Advances.beginClass {start s s' : Stage Declarations} {key : Key}
    (before : Advances classes start opens done s) (K : g.Kept s)
    (C : g.Completing classes opens done cut)
    (h : Declare.beginClass classes key s = .ok (some (c, gs)) s') :
    Advances classes start (⟨c, gs⟩ :: opens) done s' := by
  rcases beginClass_ok h with ⟨hnone, _⟩ | ⟨c', gs', hsome, hc, hopen, t, ht, hprogress⟩
  · cases hnone
  · cases hsome
    refine .begin before K C hc (fun hbegun => ?_) hopen
    rw [K.type?] at ht
    rcases mem_keys_begun.mp hbegun with hbegun | hbegun
    · obtain ⟨y, hy, hkey⟩ := List.mem_map.mp hbegun
      have hentry := hkey ▸ C.opened y hy
      cases ht.symm.trans hentry
      cases hprogress
    · obtain ⟨y, hy, hkey⟩ := List.mem_map.mp hbegun
      have hentry := hkey ▸ C.closed y hy
      cases ht.symm.trans hentry
      cases hprogress

/-- Closing the newest open class is one more step of the way. -/
theorem Advances.closeClass {start s s' : Stage Declarations} {u : Unit}
    (before : Advances classes start (⟨c, gs⟩ :: opens) done s) (K : g.Kept s)
    (C : g.Completing classes (⟨c, gs⟩ :: opens) done cut)
    (hnext : ∀ b, Begun.PointsTo g.roots ⟨c, gs⟩ b →
      b ∈ opens.map (·.key) ∨ b ∈ done.map (·.key))
    (h : Declare.closeClass c gs s = .ok u s') :
    ∃ x : Completed, x.key = c.key ∧ Reached g classes opens (x :: done) s' ∧
      Advances classes start opens (x :: done) s' := by
  obtain ⟨x, hx, g', cut', K', C', hrest⟩ := (guards_closeClass C hnext).ensures K h
  obtain rfl : c = x.source := congrArg Begun.source hx.symm
  obtain rfl : gs = x.generics := congrArg Begun.generics hx.symm
  have hentry := (K'.type? x.key).trans (C'.closed x List.mem_cons_self)
  exact ⟨x, rfl, ⟨g', cut', K', C', hrest⟩, .close before K C hnext h hentry⟩

theorem head_points {x : Begun} {roots : String → Option Key} {key : Key}
    (h : x.PointsTo roots key) : ∀ y ∈ (x :: opens).head?, y.PointsTo roots key := by
  intro y hy
  cases hy
  exact h

/-- A class does not point to itself, so the class that it points to, once begun, is not the newest
one on the path. -/
theorem mem_of_pointsTo_newest {x : Begun} {roots : String → Option Key} {base b : Key}
    (hbase : x.PointsTo roots base)
    (hbegun : base ∈ (x :: opens).map (·.key) ∨ base ∈ done.map (·.key))
    (hb : x.PointsTo roots b) : b ∈ opens.map (·.key) ∨ b ∈ done.map (·.key) := by
  cases hbase.unique hb
  obtain ⟨_, _, _, _, hself⟩ := hb
  rcases hbegun with h | h
  · rcases List.mem_cons.mp h with h | h
    · exact absurd h hself
    · exact .inl h
  · exact .inr h

/-- Completing a class leaves the path as it was. Afterwards the class is on the path or done. -/
theorem complete_outcome {start : Stage Declarations} (key : Key) (s : Stage Declarations)
    {g : Outline} {opens : List Begun} {done cut : List Completed} (K : g.Kept s)
    (C : g.Completing classes opens done cut) (A : Advances classes start opens done s)
    (hkey : key ∈ classes.map (·.key)) (hpath : ∀ y ∈ opens.head?, y.PointsTo g.roots key) :
    (∀ a s', complete classes key s = .ok a s' → ∃ done', Reached g classes opens done' s' ∧
      Advances classes start opens done' s' ∧
      (key ∈ opens.map (·.key) ∨ key ∈ done'.map (·.key)) ∧ done ⊆ done') ∧
    ∀ f s', complete classes key s = .error f s' → g.options.Tolerates f := by
  fun_induction complete classes key s generalizing g opens done cut with
  | case1 key s f s₁ hbegin =>
    refine ⟨nofun, fun f' s' h => ?_⟩
    cases h
    exact (guards_beginClass C hkey hpath).faults K hbegin
  | case2 key s s₁ hbegin =>
    refine ⟨fun a s' h => ?_, nofun⟩
    cases h
    obtain ⟨K', hbegun⟩ := ((guards_beginClass C hkey hpath).ensures K hbegin).1 rfl
    rcases beginClass_ok hbegin with ⟨_, rfl⟩ | ⟨_, _, hsome, _⟩
    · exact ⟨done, ⟨g, cut, K', C, rfl, rfl⟩, A, hbegun, fun _ h => h⟩
    · cases hsome
  | case3 key s c gs s₁ hbegin hpoints =>
    obtain ⟨rfl, K₁, C₁⟩ := ((guards_beginClass C hkey hpath).ensures K hbegin).2 c gs rfl
    have hnext : ∀ b, ¬ Begun.PointsTo g.roots ⟨c, gs⟩ b := by
      intro b hb
      cases hpoints.symm.trans ((ClassDef.pointsTo_eq_some K₁).mpr hb)
    have hnext' : ∀ b, Begun.PointsTo g.roots ⟨c, gs⟩ b →
        b ∈ opens.map (·.key) ∨ b ∈ done.map (·.key) := fun b hb => absurd hb (hnext b)
    refine ⟨fun a s' h => ?_, fun f s' h => (guards_closeClass C₁ hnext').faults K₁ h⟩
    obtain ⟨x, hx, hreached, A'⟩ := (A.beginClass K C hbegin).closeClass K₁ C₁ hnext' h
    exact ⟨x :: done, hreached, A', .inr (hx ▸ List.mem_cons_self), List.subset_cons_self ..⟩
  | case4 key s c gs s₁ hbegin base hpoints f s₂ hbase ih =>
    obtain ⟨rfl, K₁, C₁⟩ := ((guards_beginClass C hkey hpath).ensures K hbegin).2 c gs rfl
    have hpoints' := (ClassDef.pointsTo_eq_some K₁).mp hpoints
    refine ⟨nofun, fun f' s' h => ?_⟩
    cases h
    exact (ih K₁ C₁ (A.beginClass K C hbegin) (C₁.mem_of_pointsTo hpoints') (head_points hpoints')).2 f s₂
      hbase
  | case5 key s c gs s₁ hbegin base hpoints u s₂ hbase ih =>
    obtain ⟨rfl, K₁, C₁⟩ := ((guards_beginClass C hkey hpath).ensures K hbegin).2 c gs rfl
    have hpoints' := (ClassDef.pointsTo_eq_some K₁).mp hpoints
    obtain ⟨done₂, ⟨g₂, cut₂, K₂, C₂, hoptions, hroots⟩, A₂, hbegun, hmore⟩ :=
      (ih K₁ C₁ (A.beginClass K C hbegin) (C₁.mem_of_pointsTo hpoints') (head_points hpoints')).1 u s₂ hbase
    change g₂.options = g.options at hoptions
    change g₂.roots = g.roots at hroots
    have hnext : ∀ b, Begun.PointsTo g₂.roots ⟨c, gs⟩ b →
        b ∈ opens.map (·.key) ∨ b ∈ done₂.map (·.key) :=
      fun b hb => mem_of_pointsTo_newest hpoints' hbegun (hroots ▸ hb)
    refine ⟨fun a s' h => ?_, fun f s' h => hoptions ▸ (guards_closeClass C₂ hnext).faults K₂ h⟩
    obtain ⟨x, hx, ⟨g', cut', K', C', hoptions', hroots'⟩, A'⟩ := A₂.closeClass K₂ C₂ hnext h
    exact ⟨x :: done₂, ⟨g', cut', K', C', hoptions'.trans hoptions, hroots'.trans hroots⟩, A',
      .inr (hx ▸ List.mem_cons_self), List.subset_cons_of_subset _ hmore⟩

variable {start : Stage Declarations}

/-- Away from other classes, completing one leaves no class open. -/
theorem guards_complete (C : g.Completing classes [] done cut) (hc : c ∈ classes) :
    Guards (fun s => g.Kept s ∧ Advances classes start [] done s) g.options.Tolerates
      (complete classes c.key) fun _ s => ∃ done', Reached g classes [] done' s ∧
        Advances classes start [] done' s ∧ c.key ∈ done'.map (·.key) ∧ done ⊆ done' := by
  have houtcome := fun s K (A : Advances classes start [] done s) =>
    complete_outcome c.key s K C A (List.mem_map_of_mem hc) nofun
  constructor
  · intro s ⟨K, A⟩ a s' h
    obtain ⟨done', hreached, A', hdone, hmore⟩ := (houtcome s K A).1 a s' h
    exact ⟨done', hreached, A', hdone.resolve_left List.not_mem_nil, hmore⟩
  · intro s ⟨K, A⟩ f s' h
    exact (houtcome s K A).2 f s' h

theorem guards_completeAll {todo : List ClassDef} (htodo : todo ⊆ classes)
    (C : g.Completing classes [] done cut) :
    Guards (fun s => g.Kept s ∧ Advances classes start [] done s) g.options.Tolerates
      (completeAll classes todo) fun _ s => ∃ done', Reached g classes [] done' s ∧
        Advances classes start [] done' s ∧ (∀ c ∈ todo, c.key ∈ done'.map (·.key)) ∧
        done ⊆ done' := by
  induction todo generalizing g done cut with
  | nil =>
    exact .pure fun s ⟨K, A⟩ => ⟨done, ⟨g, cut, K, C, rfl, rfl⟩, A, nofun, fun _ h => h⟩
  | cons c rest ih =>
    obtain ⟨hc, hrest⟩ := List.cons_subset.mp htodo
    refine (guards_complete C hc).bind fun _ => Guards.exists_elim fun done₁ => ?_
    refine Guards.strengthen (P := fun s => ∃ (g₁ : Outline) (cut₁ : List Completed),
      (g₁.Kept s ∧ Advances classes start [] done₁ s) ∧ g₁.Completing classes [] done₁ cut₁ ∧
        g₁.options = g.options ∧ g₁.roots = g.roots ∧ c.key ∈ done₁.map (·.key) ∧
        done ⊆ done₁) ?_ ?_
    · refine Guards.exists_elim fun g₁ => Guards.exists_elim fun cut₁ => ?_
      refine Guards.assume fun ⟨C₁, hoptions, hroots, hdone, hmore⟩ => ?_
      rw [← hoptions]
      refine (ih hrest C₁).weaken fun _ s ⟨done₂, hreached, A₂, hall, hmore₂⟩ => ?_
      obtain ⟨g₂, cut₂, K₂, C₂, hoptions₂, hroots₂⟩ := hreached
      refine ⟨done₂, ⟨g₂, cut₂, K₂, C₂, hoptions₂.trans hoptions, hroots₂.trans hroots⟩, A₂, ?_,
        fun _ h => hmore₂ (hmore h)⟩
      intro c' hc'
      rcases List.mem_cons.mp hc' with rfl | hc'
      · exact List.map_subset _ hmore₂ hdone
      · exact hall c' hc'
    · intro s ⟨⟨g₁, cut₁, K₁, C₁, hoptions, hroots⟩, A₁, hdone, hmore⟩
      exact ⟨g₁, cut₁, ⟨K₁, A₁⟩, C₁, hoptions, hroots, hdone, hmore⟩

end Declare

/-! ## Declaring the classes -/

def Item.toClass? : Item → Option ClassDef
  | .classItem c => some c
  | .functionItem _ | .variableItem _ => none

/-- The script has the class, and no class before it has the same key. -/
def Script.Registers (s : Script) (c : ClassDef) : Prop :=
  (s.items.filterMap Item.toClass?).find? (·.key = c.key) = some c

namespace Outline

/-- All that is known so far are the entries of these classes. -/
structure Named (g : Outline) (classes : List ClassDef) : Prop where
  types : g.types = classes.map (·.entry)
  keys : (classes.map (·.key)).Nodup
  bound : ∀ {name k}, g.roots name = some k → k ∈ classes.map (·.key) ∧ k = .type name
  names : ∀ c ∈ classes, g.roots c.name.name = some c.key
  circular : g.circular = []

variable {g : Outline} {classes : List ClassDef}

theorem Named.keys_eq (N : g.Named classes) : g.keys = classes.map (·.key) := by
  rw [Outline.keys, N.types, List.map_map]
  rfl

theorem Named.completing (N : g.Named classes) : g.Completing classes [] [] [] where
  keys := N.keys_eq ▸ N.keys
  registered := by
    intro k t ht _
    rw [← key_of_type? ht, ← N.keys_eq]
    exact List.mem_map_of_mem (List.mem_of_find?_eq_some ht)
  bound := fun h => (N.bound h).1
  names := N.names
  sources := nofun
  distinct := .nil
  waiting := by
    intro c hc _
    have hmem : c.entry ∈ g.types := N.types ▸ List.mem_map_of_mem hc
    exact type?_of_mem (N.keys_eq ▸ N.keys) hmem
  opened := nofun
  closed := nofun
  generics := nofun
  parameters := nofun
  unowned := by
    intro k _
    rw [Outline.parameters, N.types, List.filter_eq_nil_iff.mpr]
    · rfl
    · intro t ht
      obtain ⟨c, _, rfl⟩ := List.mem_map.mp ht
      simp [ClassDef.entry, TypeEntry.ofClass]
  path := .nil
  order := .nil
  scopes := nofun
  cycles := by
    rw [N.circular]
    exact .nil
  blamed := nofun

end Outline

namespace Declare

variable {g : Outline} {classes : List ClassDef}

theorem guards_bindRoot {name : String} (hfree : g.roots name = none) (key : Key) (span : Span) :
    Guards g.Kept g.options.Tolerates
      (Pass.attempt (Workspace.onScopes fun s => s.declareType .root name key span) :
        Declare (Option Unit))
      fun _ => ({ g with
        roots := fun name' => if name = name' then some key else g.roots name' } : Outline).Kept := by
  apply Pass.guards_attempt_onSymbols
  · intro s K symbols h
    split at h
    · rename_i scopes hscopes
      cases h
      obtain ⟨hparent, hsize, htypes⟩ := Scopes.declareType_root hscopes
      exact { K with
        parent := hparent.trans K.parent
        roots := fun name' => (htypes name').trans (by rw [K.roots])
        size := Nat.le_trans K.size (Nat.le_of_eq hsize.symm) }
    · cases h
  · intro s K p h
    split at h
    · cases h
    · rename_i hscopes
      cases h
      exact absurd ((K.roots name).trans hfree) (Scopes.declareType_problem hscopes)
  · intro s K f h
    split at h
    · cases h
    · rename_i hscopes
      cases h
      exact absurd hscopes (Scopes.declareType_ne_fault (Nat.lt_of_lt_of_le g.rooted K.size))

theorem guards_className (N : g.Named classes) (c : ClassDef) :
    Guards g.Kept g.options.Tolerates (className c) fun isNew s =>
      ∃ g' : Outline, g'.Kept s ∧ g'.Named (if isNew then classes ++ [c] else classes) ∧
        g'.options = g.options ∧ (isNew = true ↔ c.key ∉ classes.map (·.key)) := by
  refine (guards_addType c.entry).bind fun added => ?_
  cases added with
  | none =>
    refine .pure fun s h => ⟨g, (h.1 rfl).1, N, rfl, iff_of_false nofun fun hnew => hnew ?_⟩
    rw [← N.keys_eq]
    exact (h.1 rfl).2
  | some _ =>
    refine Guards.strengthen (Guards.assume fun hnew => ?_) fun s h => h.2 rfl
    rw [N.keys_eq] at hnew
    have hfree : g.roots c.name.name = none := by
      refine Option.eq_none_iff_forall_ne_some.mpr fun k hk => hnew ?_
      obtain ⟨hmem, rfl⟩ := N.bound hk
      exact hmem
    refine (guards_bindRoot (g := g.withTypes (g.types ++ [c.entry])) hfree ..).bind fun _ => ?_
    refine .pure fun s K => ⟨_, K, ?_, rfl, iff_of_true rfl hnew⟩
    rw [if_pos rfl]
    refine ⟨?_, ?_, ?_, ?_, N.circular⟩
    · rw [List.map_append, ← N.types]
      rfl
    · rw [List.map_append]
      exact List.nodup_append_comm.mp (List.nodup_cons.mpr ⟨hnew, N.keys⟩)
    · intro name k hk
      simp only at hk
      rw [List.map_append]
      split at hk
      · rename_i hname
        cases hk
        exact ⟨List.mem_append_right _ (List.mem_singleton_self _), hname ▸ rfl⟩
      · exact ⟨List.mem_append_left _ (N.bound hk).1, (N.bound hk).2⟩
    · intro c' hc'
      rcases List.mem_append.mp hc' with hc' | hc'
      · have hne : c.name.name ≠ c'.name.name := by
          intro h
          cases (h ▸ hfree).symm.trans (N.names c' hc')
        simp only [if_neg hne]
        exact N.names c' hc'
      · cases List.mem_singleton.mp hc'
        exact if_pos rfl

theorem find?_toClass? (c c' : ClassDef) (rest : List Item) :
    ((Item.classItem c :: rest).filterMap Item.toClass?).find? (·.key = c'.key) = some c' ↔
      if c.key = c'.key then c = c'
      else (rest.filterMap Item.toClass?).find? (·.key = c'.key) = some c' := by
  have hmap : (Item.classItem c :: rest).filterMap Item.toClass? =
      c :: rest.filterMap Item.toClass? := rfl
  rw [hmap]
  by_cases h : c.key = c'.key
  · have hfirst : decide (c.key = c'.key) = true := decide_eq_true h
    rw [if_pos h, List.find?_cons_of_pos (p := fun x : ClassDef => x.key = c'.key) hfirst,
      Option.some.injEq]
  · have hlater : ¬ decide (c.key = c'.key) = true := fun h' => h (of_decide_eq_true h')
    rw [if_neg h, List.find?_cons_of_neg (p := fun x : ClassDef => x.key = c'.key) hlater]

/-- The first class with each key is declared, and no other. -/
theorem guards_names (N : g.Named classes) (items : List Item) :
    Guards g.Kept g.options.Tolerates (names items) fun more s =>
      ∃ g' : Outline, g'.Kept s ∧ g'.Named (classes ++ more) ∧ g'.options = g.options ∧
        ∀ c, c ∈ more ↔ c.key ∉ classes.map (·.key) ∧
          (items.filterMap Item.toClass?).find? (·.key = c.key) = some c := by
  induction items generalizing g classes with
  | nil => exact .pure fun s K => ⟨g, K, by rw [List.append_nil]; exact N, rfl, by simp⟩
  | cons item rest ih =>
    cases item with
    | classItem c =>
      refine (guards_className N c).bind fun isNew => Guards.exists_elim fun g₁ => ?_
      refine Guards.assume fun ⟨N₁, hoptions, hnew⟩ => ?_
      rw [← hoptions]
      refine (ih N₁).bind fun more => .pure fun s ⟨g₂, K₂, N₂, hoptions₂, hmore⟩ => ?_
      cases isNew with
      | true =>
        refine ⟨g₂, K₂, ?_, hoptions₂, fun c' => ?_⟩
        · rw [if_pos rfl, List.append_cons]
          exact N₂
        · have hc : c.key ∉ classes.map (·.key) := hnew.mp rfl
          rw [if_pos rfl, List.mem_cons, hmore, if_pos rfl, find?_toClass?, List.map_append,
            List.mem_append, not_or, List.map_singleton, List.mem_singleton]
          by_cases h : c.key = c'.key
          · rw [if_pos h]
            constructor
            · rintro (rfl | ⟨⟨_, hne⟩, _⟩)
              · exact ⟨hc, rfl⟩
              · exact absurd h.symm hne
            · intro ⟨_, he⟩
              exact .inl he.symm
          · rw [if_neg h]
            constructor
            · rintro (rfl | ⟨⟨hold, _⟩, hfind⟩)
              · exact absurd rfl h
              · exact ⟨hold, hfind⟩
            · intro ⟨hold, hfind⟩
              exact .inr ⟨⟨hold, fun he => h he.symm⟩, hfind⟩
      | false =>
        refine ⟨g₂, K₂, N₂, hoptions₂, fun c' => ?_⟩
        rw [find?_toClass?]
        have hold : c.key ∈ classes.map (·.key) := Decidable.not_not.mp fun h => nomatch hnew.mpr h
        refine (hmore c').trans (and_congr_right fun hc' => ?_)
        rw [if_neg]
        exact fun h => hc' (h ▸ hold)
    | functionItem f =>
      exact (keeps_function g.rooted f).bind fun _ => ih N
    | variableItem _ => exact ih N

end Declare

/-! ## The whole pass -/

namespace Outline

/-- All classes that a script registers are done. -/
structure Finished (g : Outline) (s : Script) (classes : List ClassDef) (done cut : List Completed) :
    Prop extends g.Completing classes [] done cut where
  registers : ∀ {c}, c ∈ classes ↔ s.Registers c
  all : ∀ c ∈ classes, c.key ∈ done.map (·.key)

/-- The outline of a compilation that has not begun. -/
def start (o : Options) : Outline where
  options := o
  types := []
  roots _ := none
  size := 1
  rooted := Nat.one_pos

theorem kept_start {ρ : Type} (l : Layout) (report : ρ) :
    (start l.options).Kept { work := { layout := l }, report } where
  options := rfl
  types := rfl
  parent := rfl
  roots _ := rfl
  size := Nat.le_refl 1
  functions := nofun
  reported := nofun
  circular := rfl

theorem named_start (o : Options) : (start o).Named [] :=
  ⟨rfl, .nil, nofun, nofun, rfl⟩

end Outline

namespace Declare

variable {g : Outline}

theorem guards_script (N : g.Named []) (s : Script) :
    Guards g.Kept g.options.Tolerates (Declare.script s) fun _ stage =>
      ∃ (g' : Outline) (classes : List ClassDef) (done cut : List Completed), g'.Kept stage ∧
        g'.Finished s classes done cut ∧ g'.options = g.options := by
  refine (guards_names N s.items).bind fun classes => Guards.exists_elim fun g₁ => ?_
  refine Guards.assume fun ⟨N₁, hoptions₁, hclasses⟩ => ?_
  rw [← hoptions₁]
  refine Guards.strengthen (P := fun s => ∃ start, g₁.Kept s ∧ Advances classes start [] [] s)
    (Guards.exists_elim fun start => ?_) fun s K => ⟨s, K, .refl⟩
  refine (guards_completeAll (List.Subset.refl classes) N₁.completing).bind fun _ => ?_
  refine Guards.exists_elim fun done => ?_
  refine Guards.strengthen (P := fun s => Reached g₁ classes [] done s ∧
    ∀ c ∈ classes, c.key ∈ done.map (·.key)) (Guards.assume fun hall => ?_)
    fun s h => ⟨h.1, h.2.2.1⟩
  refine Guards.exists_elim fun g₂ => Guards.exists_elim fun cut => ?_
  refine Guards.assume fun ⟨C, hoptions₂, _⟩ => ?_
  have hregisters : ∀ {c}, c ∈ classes ↔ s.Registers c := fun {c} =>
    (hclasses c).trans (and_iff_right List.not_mem_nil)
  rw [← hoptions₂]
  refine (keeps_globals s.items).bind fun _ => Guards.get.bind fun stage => ?_
  refine ((keeps_linkBodies _).strengthen fun _ h => h.1).bind fun _ => ?_
  refine (keeps_linkInitializers _).weaken fun _ s' K => ?_
  exact ⟨g₂, classes, done, cut, K, ⟨C, hregisters, hall⟩, rfl⟩

end Declare

end Stackless
