import Stackless.Proofs.Linking
import Stackless.Proofs.ScopeFrames

/-!
# The passes create a tree of scopes

A pass creates scopes as `Symbols.Unfolds` says, whether it succeeds or not (`Pass.UnfoldsAt`): the
scopes of a class are created and given to it by steps none of which can fail. So whatever a
compilation leaves behind, its scopes form a tree in which names can be looked up
(`Workspace.passes_leave_tree`).
-/

namespace Stackless

open Pass

namespace Pass

variable {ρ α β : Type} {x : Pass ρ α} {f : α → Pass ρ β} {s : Stage ρ}

/-- What the step does to the symbols, also if it fails, only creates scopes as it should. -/
def UnfoldsAt (x : Pass ρ α) (s : Stage ρ) : Prop :=
  s.work.symbols.Unfolds (leaves x s).work.symbols

theorem KeepsFrame.unfoldsAt (h : KeepsFrame x) (s : Stage ρ) : UnfoldsAt x s :=
  .same .refl (h.same s)

theorem Stepwise.unfoldsAt (h : Stepwise InPlace x) (s : Stage ρ) : UnfoldsAt x s :=
  h.keepsFrame.unfoldsAt s

theorem UnfoldsAt.bind (hx : UnfoldsAt x s)
    (hf : ∀ a s', x s = .ok a s' → s.work.symbols.Unfolds s'.work.symbols → UnfoldsAt (f a) s') :
    UnfoldsAt (x >>= f) s := by
  rw [UnfoldsAt] at hx ⊢
  cases hres : x s with
  | ok a s' =>
    rw [leaves_of_ok hres] at hx
    rw [leaves_bind_of_ok hres]
    exact hx.trans (hf a s' hres hx)
  | error e s' =>
    rw [leaves_of_error hres] at hx
    rw [leaves_bind_of_error hres]
    exact hx

end Pass

namespace Declare

variable {s s' : Stage Declarations} {f : FunctionEntry} {owner : ScopeId} {source : FunctionDef}
  {kind : ScopeKind} {p : Option ScopeId} {isNamed : Bool}

/-! ### Functions -/

theorem Binds.sameFrame {symbols : Symbols} {scopes : Scopes} {problems : List Problem}
    (B : Binds f owner symbols.scopes isNamed scopes problems) :
    symbols.SameFrame { symbols with scopes } := by
  cases B with
  | unnamed | taken => exact .refl _
  | bound h => exact .ofChanges (Scopes.declare_ok h).1

theorem Adds.unfolds (A : Adds f owner source isNamed s s')
    (lies : s.work.symbols.scopes.Has owner kind p)
    (place : kind = .root ∨ kind = .static ∨ kind = .object) :
    s.work.symbols.Unfolds s'.work.symbols := by
  cases A with
  | refused => exact .refl
  | @added scopes problems fresh B =>
    have hsame := B.sameFrame
    refine .body (.same .refl hsame) ((hsame.scopes ..).mpr lies) place rfl rfl ?_
    exact List.filterMap_append

theorem exists_ok_addFunction (f : FunctionEntry) (s : Stage Declarations) :
    ∃ r s', Pass.attempt (Workspace.addFunction f) s = .ok r s' := by
  refine Pass.exists_ok_attempt fun fault w h => ?_
  simp only [Workspace.addFunction, Workspace.onSymbols] at h
  cases hadd : s.work.symbols.addFunction f <;> rw [hadd] at h <;> cases h

theorem unfoldsAt_function (f : FunctionEntry) (source : FunctionDef)
    (lies : s.work.symbols.scopes.Has owner kind p)
    (place : kind = .root ∨ kind = .static ∨ kind = .object) :
    UnfoldsAt (function f owner source) s := by
  have hok : ∃ u s', function f owner source s = .ok u s' := by
    refine exists_ok_bind (exists_ok_addFunction f s) fun r s₁ hadd => ?_
    rcases attempt_addFunction hadd with ⟨rfl, _, rfl⟩ | ⟨rfl, _, rfl⟩
    · exact ⟨_, _, rfl⟩
    · refine exists_ok_bind (Pass.exists_ok_onScopes fun fault => ?_) fun _ _ _ => ⟨_, _, rfl⟩
      exact Scopes.declare_ne_fault lies.lt
  obtain ⟨u, s', h⟩ := hok
  rw [UnfoldsAt, leaves_of_ok h]
  exact (adds_of_function h).unfolds lies place

theorem unfoldsAt_constructor (f : FunctionEntry) (source : FunctionDef)
    (lies : s.work.symbols.scopes.Has owner kind p)
    (place : kind = .root ∨ kind = .static ∨ kind = .object) :
    UnfoldsAt (constructor f owner source) s := by
  have hok : ∃ u s', constructor f owner source s = .ok u s' := by
    refine exists_ok_bind (exists_ok_addFunction f s) fun r s₁ _ => ?_
    cases r <;> exact ⟨_, _, rfl⟩
  obtain ⟨u, s', h⟩ := hok
  rw [UnfoldsAt, leaves_of_ok h]
  exact (adds_of_constructor h).unfolds lies place

theorem unfoldsAt_names (items : List Item) (hroot : s.work.symbols.scopes.Has .root .root none) :
    UnfoldsAt (names items) s := by
  induction items generalizing s with
  | nil => exact (KeepsFrame.pure _).unfoldsAt s
  | cons item rest ih =>
    cases item with
    | classItem c =>
      refine ((stepwise_className c).unfoldsAt s).bind fun isNew s₁ _ U => ?_
      exact (ih (U.has hroot)).bind fun _ s₂ _ _ => (KeepsFrame.pure _).unfoldsAt s₂
    | functionItem f =>
      exact (unfoldsAt_function _ f hroot (.inl rfl)).bind fun _ s₁ _ U => ih (U.has hroot)
    | variableItem v => exact ih hroot

/-! ### Classes -/

theorem unfoldsAt_members (c : ClassDef) {m : MemberScopes} (ys : List Member)
    (hstatic : s.work.symbols.scopes.Has m.static .static (some .root))
    (hobject : s.work.symbols.scopes.Has m.object .object (some m.static)) :
    UnfoldsAt (members c m ys) s := by
  induction ys generalizing s with
  | nil => exact (KeepsFrame.pure ()).unfoldsAt s
  | cons y rest ih =>
    refine UnfoldsAt.bind ?_ fun _ s₁ _ U => ih (U.has hstatic) (U.has hobject)
    cases y with
    | method f =>
      simp only [member]
      split
      · exact unfoldsAt_function _ f hstatic (.inr (.inl rfl))
      · exact unfoldsAt_function _ f hobject (.inr (.inr rfl))
    | constructor f => exact unfoldsAt_constructor _ f hobject (.inr (.inr rfl))
    | field v => exact (stepwise_variableDef _ v).unfoldsAt s

theorem exists_ok_inheritFrom {m : MemberScopes} {base : Option MemberScopes} {n : Nat}
    (hn : n ≤ m.static.index) (hstatic : m.static.index < m.object.index)
    (hobject : m.object.index < s.work.symbols.scopes.size)
    (hbase : ∀ b ∈ base, b.static.index < n ∧ b.object.index < n) :
    ∃ u s', inheritFrom m base s = .ok u s' := by
  have hmerge : ∀ {target source : ScopeId} {s : Stage Declarations}, n ≤ target.index →
      target.index < s.work.symbols.scopes.size → source.index < n →
      ∃ k s', (Pass.lift (Workspace.merge target source) : Declare Nat) s = .ok k s' := by
    intro target source s hle hlt hlt'
    have hne : target ≠ source := by
      rintro rfl
      omega
    simp only [Pass.lift, Workspace.merge]
    cases hmerge : s.work.symbols.scopes.merge target source with
    | ok r => exact ⟨_, _, rfl⟩
    | error f => exact absurd hmerge (Scopes.merge_ne_error hne hlt (by omega))
  cases base with
  | none => exact ⟨_, _, rfl⟩
  | some b =>
    obtain ⟨hbs, hbo⟩ := hbase b rfl
    refine exists_ok_bind (hmerge hn (by omega) hbs) fun _ s₁ h => ?_
    refine exists_ok_bind (hmerge (by omega) ?_ hbo) fun _ s₂ _ => ⟨_, _, rfl⟩
    obtain ⟨scopes, hscopes, rfl⟩ := lift_merge_ok h
    exact (Scopes.merge_ok hscopes).size ▸ hobject

theorem types_of_inheritFrom {m : MemberScopes} {base : Option MemberScopes} {u : Unit}
    (h : inheritFrom m base s = .ok u s') : s'.work.symbols.types = s.work.symbols.types := by
  cases base with
  | none =>
    cases h
    rfl
  | some b =>
    obtain ⟨_, s₁, hstatic, h⟩ := exists_of_bind h
    obtain ⟨_, s₂, hobject, h⟩ := exists_of_bind h
    cases h
    obtain ⟨scopes, _, rfl⟩ := lift_merge_ok hstatic
    obtain ⟨scopes', _, rfl⟩ := lift_merge_ok hobject
    rfl

theorem exists_ok_bindGenerics {m : MemberScopes} {gs : List Generic} {kind' : ScopeKind}
    {p' : Option ScopeId} (hstatic : s.work.symbols.scopes.Has m.static kind p)
    (hobject : s.work.symbols.scopes.Has m.object kind' p') :
    ∃ u s', bindGenerics m gs s = .ok u s' := by
  have hbind : ∀ {scope : ScopeId} {s : Stage Declarations} (x : Generic),
      scope.index < s.work.symbols.scopes.size → ∃ u s', bindGeneric scope x s = .ok u s' := by
    intro scope s x hlt
    refine exists_ok_bind (Pass.exists_ok_onScopes fun f => ?_) fun _ _ _ => ⟨_, _, rfl⟩
    exact Scopes.declareType_ne_fault hlt
  induction gs generalizing s with
  | nil => exact ⟨_, _, rfl⟩
  | cons x rest ih =>
    refine exists_ok_bind (hbind x hstatic.lt) fun _ s₁ h₁ => ?_
    have H₁ := (stepwise_bindGeneric ..).keepsFrame.of_ok h₁
    refine exists_ok_bind (hbind x ((H₁.scopes ..).mpr hobject).lt) fun _ s₂ h₂ => ?_
    have H₂ := H₁.trans ((stepwise_bindGeneric ..).keepsFrame.of_ok h₂)
    exact ih ((H₂.scopes ..).mpr hstatic) ((H₂.scopes ..).mpr hobject)

/-- The new scopes of a class take over members and get the generic parameters without a fault. -/
theorem exists_ok_furnish {m : MemberScopes} {base : Option MemberScopes} {n : Nat}
    {kind' : ScopeKind} {p' : Option ScopeId} (gs : List Generic)
    (hstatic : s.work.symbols.scopes.Has m.static kind p)
    (hobject : s.work.symbols.scopes.Has m.object kind' p')
    (hn : n ≤ m.static.index) (hlt : m.static.index < m.object.index)
    (hbase : ∀ b ∈ base, b.static.index < n ∧ b.object.index < n) :
    ∃ u₁ s₁ u₂ s₂, inheritFrom m base s = .ok u₁ s₁ ∧ bindGenerics m gs s₁ = .ok u₂ s₂ ∧
      s.work.symbols.SameFrame s₂.work.symbols ∧
      s₂.work.symbols.types = s.work.symbols.types := by
  obtain ⟨u₁, s₁, hinherit⟩ := exists_ok_inheritFrom hn hlt hobject.lt hbase
  have H₁ := (stepwise_inheritFrom ..).keepsFrame.of_ok hinherit
  obtain ⟨u₂, s₂, hgenerics⟩ : ∃ u s', bindGenerics m gs s₁ = .ok u s' :=
    exists_ok_bindGenerics ((H₁.scopes ..).mpr hstatic) ((H₁.scopes ..).mpr hobject)
  refine ⟨u₁, s₁, u₂, s₂, hinherit, hgenerics, ?_, ?_⟩
  · exact H₁.trans ((stepwise_bindGenerics ..).keepsFrame.of_ok hgenerics)
  · rw [types_of_bindGenerics hgenerics, types_of_inheritFrom hinherit]

end Declare

/-- A class that had no scopes gets some. -/
theorem Symbols.classScopes_updateType {s : Symbols} {key : Key} {t : TypeEntry} {m : MemberScopes}
    {g : TypeEntry → TypeEntry} (hkeys : (s.types.map (·.key)).Nodup) (ht : s.type? key = some t)
    (hnone : t.members = none) (hg : (g t).members = some m) :
    (s.updateType key g).classScopes.Perm (m :: s.classScopes) := by
  obtain ⟨hkey, before, after, htypes, _⟩ := List.find?_eq_some_iff_append.mp ht
  simp only [decide_eq_true_eq] at hkey
  rw [htypes, List.map_append, List.map_cons] at hkeys
  obtain ⟨_, hafter, hapart⟩ := List.nodup_append.mp hkeys
  have hothers : ∀ ts : List TypeEntry, (∀ u ∈ ts, u.key ≠ key) →
      (ts.map fun u => if u.key = key then g u else u) = ts := by
    intro ts hts
    refine (List.map_congr_left fun u hu => if_neg (hts u hu)).trans (List.map_id ts)
  have hbefore' : ∀ u ∈ before, u.key ≠ key := by
    intro u hu he
    exact hapart u.key (List.mem_map_of_mem hu) t.key List.mem_cons_self (he.trans hkey.symm)
  have hafter' : ∀ u ∈ after, u.key ≠ key := by
    intro u hu he
    refine (List.nodup_cons.mp hafter).1 ?_
    rw [hkey, ← he]
    exact List.mem_map_of_mem hu
  simp only [classScopes, updateType, htypes, List.map_append, List.map_cons, hothers _ hbefore',
    hothers _ hafter', hkey, if_true, List.filterMap_append, List.filterMap_cons, hnone, hg]
  exact List.perm_middle

namespace Declare

variable {g : Outline} {classes : List ClassDef} {opens : List Begun} {done cut : List Completed}
  {c : ClassDef} {gs : List Generic} {s : Stage Declarations}

/-- Once a class has its scopes, its members are declared in them. -/
theorem unfoldsAt_fill {m : MemberScopes}
    (hstatic : s.work.symbols.scopes.Has m.static .static (some .root))
    (hobject : s.work.symbols.scopes.Has m.object .object (some m.static)) :
    UnfoldsAt (do
      members c m c.members
      if !c.members.any (·.isConstructor) then
        constructor (.ofConstructorDef c (defaultConstructor c) true) m.object (defaultConstructor c)
      updateType c.key fun t => { t with progress := .resolved }
      Pass.note fun d => { d with typeCount := d.typeCount + 1 }) s := by
  have hend := (stepwise_finishClass c).unfoldsAt
  refine (unfoldsAt_members c c.members hstatic hobject).bind fun _ s₁ _ U => ?_
  dsimp only
  split
  · exact (unfoldsAt_constructor _ _ (U.has hobject) (.inr (.inr rfl))).bind fun _ s₂ _ _ => hend s₂
  · exact hend s₁

/-- The scopes of a class are created and given to the class, then its members are declared. -/
theorem unfoldsAt_closeClass (K : g.Kept s)
    (C : g.Completing classes (⟨c, gs⟩ :: opens) done cut)
    (hnext : ∀ b, Begun.PointsTo g.roots ⟨c, gs⟩ b →
      b ∈ opens.map (·.key) ∨ b ∈ done.map (·.key)) : UnfoldsAt (closeClass c gs) s := by
  refine ((stepwise_extended c gs).unfoldsAt s).bind fun base s₁ hextended _ => ?_
  obtain ⟨clause, y, _, rfl, _, hy, _, rfl⟩ := extended_ok K C hnext hextended
  -- none of the steps from here until the class has its scopes can fail
  let m : MemberScopes := newScopes s.work.symbols.scopes c.name.name
  let first : Scopes := s.work.symbols.scopes.child .root .static c.name.name
  let both : Scopes := first.child m.static .object c.name.name
  let stage (scopes : Scopes) : Stage Declarations := { s with
    work := { s.work with symbols := { s.work.symbols with scopes } }
    problems := s.problems ++ clause.problems }
  have hstatic : both.Has m.static .static (some .root) := (Scopes.has_child ..).child ..
  have hobject : both.Has m.object .object (some m.static) := Scopes.has_child ..
  have hfirst : Pass.newScope .root .static c.name.name
      (stage s.work.symbols.scopes) = .ok m.static (stage first) := rfl
  have hboth : Pass.newScope m.static .object c.name.name (stage first) =
      .ok m.object (stage both) := rfl
  have hlt : m.static.index < m.object.index := by
    change s.work.symbols.scopes.size < first.size
    rw [Scopes.size_child]
    exact Nat.lt_succ_self _
  have hbase : ∀ b ∈ (y.map fun z => (z.key, z.scopes)).map (·.2),
      b.static.index < g.size ∧ b.object.index < g.size := by
    intro b hb
    rw [Option.map_map] at hb
    obtain ⟨z, hz, rfl⟩ := Option.map_eq_some_iff.mp hb
    exact C.scopes z (hy z hz)
  obtain ⟨u₃, s₃, u₄, s₄, hinherit, hgenerics, H, htypes⟩ :=
    exists_ok_furnish (s := stage both) gs hstatic hobject K.size hlt hbase
  replace htypes : s₄.work.symbols.types = s.work.symbols.types := htypes
  have hopen : s.work.symbols.type? c.key = some (Begun.mk c gs).entry :=
    (K.type? c.key).trans (C.opened ⟨c, gs⟩ List.mem_cons_self)
  have hentry : s₄.work.symbols.type? c.key = some (Begun.mk c gs).entry := by
    rw [← hopen, Symbols.type?, htypes]
    rfl
  rw [UnfoldsAt, leaves_bind_of_ok hfirst, leaves_bind_of_ok hboth, leaves_bind_of_ok hinherit,
    leaves_bind_of_ok hgenerics, leaves_bind_of_ok (updateType_eq hentry _)]
  have hkeys : (s₄.work.symbols.types.map (·.key)).Nodup := by
    rw [htypes, K.types]
    exact C.keys
  let filled : Symbols := s₄.work.symbols.updateType c.key fun t =>
    { t with
      base := (y.map fun z => (z.key, z.scopes)).map (·.1)
      members := some m
      generics := gs.map (·.key) }
  have hclasses : filled.classScopes.Perm (m :: s.work.symbols.classScopes) :=
    H.classes ▸ Symbols.classScopes_updateType hkeys hentry rfl rfl
  have U : s.work.symbols.Unfolds filled :=
    .members .refl rfl rfl (fun _ _ _ => H.scopes ..) hclasses H.bodies
  exact U.trans (unfoldsAt_fill (c := c) (m := m)
    (s := { s₄ with work := { s₄.work with symbols := filled } })
    ((H.scopes ..).mpr hstatic) ((H.scopes ..).mpr hobject))

theorem unfoldsAt_complete {start : Stage Declarations} (key : Key) (s : Stage Declarations)
    {g : Outline} {opens : List Begun} {done cut : List Completed} (K : g.Kept s)
    (C : g.Completing classes opens done cut) (A : Advances classes start opens done s)
    (hkey : key ∈ classes.map (·.key)) (hpath : ∀ y ∈ opens.head?, y.PointsTo g.roots key) :
    UnfoldsAt (complete classes key) s := by
  have hbegun := (stepwise_beginClass classes key).unfoldsAt s
  rw [UnfoldsAt, leaves] at hbegun ⊢
  fun_induction complete classes key s generalizing g opens done cut with
  | case1 key s f s₁ hbegin =>
    rw [hbegin] at hbegun
    exact hbegun
  | case2 key s s₁ hbegin =>
    rw [hbegin] at hbegun
    exact hbegun
  | case3 key s c gs s₁ hbegin hpoints =>
    rw [hbegin] at hbegun
    obtain ⟨rfl, K₁, C₁⟩ := ((guards_beginClass C hkey hpath).ensures K hbegin).2 c gs rfl
    have hnext : ∀ b, ¬ Begun.PointsTo g.roots ⟨c, gs⟩ b := by
      intro b hb
      cases hpoints.symm.trans ((ClassDef.pointsTo_eq_some K₁).mpr hb)
    exact hbegun.trans (unfoldsAt_closeClass K₁ C₁ fun b hb => absurd hb (hnext b))
  | case4 key s c gs s₁ hbegin base hpoints f s₂ hbase ih =>
    rw [hbegin] at hbegun
    obtain ⟨rfl, K₁, C₁⟩ := ((guards_beginClass C hkey hpath).ensures K hbegin).2 c gs rfl
    have hpoints' := (ClassDef.pointsTo_eq_some K₁).mp hpoints
    have U := ih K₁ C₁ (A.beginClass K C hbegin) (C₁.mem_of_pointsTo hpoints') (head_points hpoints')
      ((stepwise_beginClass classes base).unfoldsAt s₁)
    rw [hbase] at U
    exact hbegun.trans U
  | case5 key s c gs s₁ hbegin base hpoints u s₂ hbase ih =>
    rw [hbegin] at hbegun
    obtain ⟨rfl, K₁, C₁⟩ := ((guards_beginClass C hkey hpath).ensures K hbegin).2 c gs rfl
    have hpoints' := (ClassDef.pointsTo_eq_some K₁).mp hpoints
    have U := ih K₁ C₁ (A.beginClass K C hbegin) (C₁.mem_of_pointsTo hpoints') (head_points hpoints')
      ((stepwise_beginClass classes base).unfoldsAt s₁)
    rw [hbase] at U
    obtain ⟨done₂, ⟨g₂, cut₂, K₂, C₂, _, hroots⟩, _, hdone, _⟩ :=
      (complete_outcome base s₁ K₁ C₁ (A.beginClass K C hbegin) (C₁.mem_of_pointsTo hpoints')
        (head_points hpoints')).1 u s₂ hbase
    change g₂.roots = g.roots at hroots
    refine (hbegun.trans U).trans (unfoldsAt_closeClass K₂ C₂ fun b hb => ?_)
    exact mem_of_pointsTo_newest hpoints' hdone (hroots ▸ hb)

theorem unfoldsAt_completeAll {start : Stage Declarations} {todo : List ClassDef}
    (htodo : todo ⊆ classes) (K : g.Kept s) (C : g.Completing classes [] done cut)
    (A : Advances classes start [] done s) : UnfoldsAt (completeAll classes todo) s := by
  induction todo generalizing g done cut s with
  | nil => exact (KeepsFrame.pure ()).unfoldsAt s
  | cons c rest ih =>
    obtain ⟨hc, hrest⟩ := List.cons_subset.mp htodo
    refine UnfoldsAt.bind ?_ fun u s₁ hcomplete _ => ?_
    · exact unfoldsAt_complete c.key s K C A (List.mem_map_of_mem hc) fun _ h =>
        absurd h (Option.not_mem_none _)
    · obtain ⟨done₁, ⟨g₁, cut₁, K₁, C₁, _⟩, A₁, _⟩ := (guards_complete C hc).ensures ⟨K, A⟩ hcomplete
      exact ih hrest K₁ C₁ A₁

theorem unfoldsAt_script (script : Script) (o : Options) :
    UnfoldsAt (Declare.script script) { work := .ofOptions o, report := {} } := by
  have hroot : ({} : Scopes).Has .root .root none := ⟨_, rfl, rfl, rfl⟩
  refine (unfoldsAt_names script.items hroot).bind fun classes s₁ hnames _ => ?_
  obtain ⟨g, K, N, _⟩ := (guards_names (Outline.named_start o) script.items).ensures
    (Outline.kept_start { options := o } _) hnames
  refine (unfoldsAt_completeAll (List.Subset.refl classes) K N.completing .refl).bind
    fun _ s₂ _ _ => ?_
  refine ((stepwise_globals script.items).unfoldsAt s₂).bind fun _ s₃ _ _ => ?_
  exact stepwise_links.unfoldsAt s₃

end Declare

/-! ### Blocks -/

namespace Use

variable {s : Stage Usage} {scope : ScopeId} {kind : ScopeKind} {p : Option ScopeId}

theorem has_newScope {s₁ : Stage Usage} {inner : ScopeId} {name : String}
    (h : Pass.newScope scope kind name s = .ok inner s₁) :
    s₁.work.symbols.scopes.Has inner kind (some scope) := by
  cases h
  exact Scopes.has_child ..

/-- A block is created in the scope of a function or in another block. -/
theorem unfoldsAt_block {ss : List Stmt} (lies : s.work.symbols.scopes.Has scope kind p)
    (place : kind = .function ∨ kind = .block)
    (hstmts : ∀ {s : Stage Usage} {inner : ScopeId},
      s.work.symbols.scopes.Has inner .block (some scope) → UnfoldsAt (stmts inner ss) s) :
    UnfoldsAt (Pass.newScope scope .block "block" >>= fun inner => stmts inner ss) s :=
  .bind (.block .refl lies place _) fun _ _ h _ => hstmts (has_newScope h)

mutual

theorem unfoldsAt_stmt (st : Stmt) {s : Stage Usage} {scope : ScopeId} {kind : ScopeKind}
    {p : Option ScopeId} (lies : s.work.symbols.scopes.Has scope kind p)
    (place : kind = .function ∨ kind = .block) : UnfoldsAt (stmt scope st) s := by
  cases st with
  | expr _ e => exact (stepwise_expr scope e).unfoldsAt s
  | declare v => exact (stepwise_declare scope v).unfoldsAt s
  | ret _ value => exact (stepwise_expr? scope value).unfoldsAt s
  | block _ body => exact unfoldsAt_block lies place fun h => unfoldsAt_stmts body h (.inr rfl)
  | ifThen _ condition _ body =>
    refine ((stepwise_expr scope condition).unfoldsAt s).bind fun _ s₁ _ U => ?_
    exact unfoldsAt_block (U.has lies) place fun h => unfoldsAt_stmts body h (.inr rfl)
  | ifElse _ condition _ body _ other =>
    refine ((stepwise_expr scope condition).unfoldsAt s).bind fun _ s₁ _ U => ?_
    refine UnfoldsAt.bind (.block .refl (U.has lies) place _) fun inner s₂ h U₂ => ?_
    refine (unfoldsAt_stmts body (has_newScope h) (.inr rfl)).bind fun _ s₃ _ U₃ => ?_
    exact unfoldsAt_block (U₃.has (U₂.has (U.has lies))) place fun h =>
      unfoldsAt_stmts other h (.inr rfl)
  | loop _ condition _ body =>
    refine ((stepwise_expr scope condition).unfoldsAt s).bind fun _ s₁ _ U => ?_
    exact unfoldsAt_block (U.has lies) place fun h => unfoldsAt_stmts body h (.inr rfl)

theorem unfoldsAt_stmts (ss : List Stmt) {s : Stage Usage} {scope : ScopeId} {kind : ScopeKind}
    {p : Option ScopeId} (lies : s.work.symbols.scopes.Has scope kind p)
    (place : kind = .function ∨ kind = .block) : UnfoldsAt (stmts scope ss) s := by
  cases ss with
  | nil => exact (KeepsFrame.pure ()).unfoldsAt s
  | cons st rest =>
    exact (unfoldsAt_stmt st lies place).bind fun _ s₁ _ U => unfoldsAt_stmts rest (U.has lies) place

end

theorem unfoldsAt_body {b : Body} (lies : s.work.symbols.scopes.Has b.scope .function p) :
    UnfoldsAt (body b) s := by
  refine (KeepsFrame.symbols.unfoldsAt s).bind fun symbols s₁ _ U₁ => ?_
  split
  · exact (KeepsFrame.throw _).unfoldsAt s₁
  · refine ((stepwise_params ..).unfoldsAt s₁).bind fun ids s₂ _ U₂ => ?_
    refine ((Stepwise.step (.note _)).unfoldsAt s₂).bind fun _ s₃ _ U₃ => ?_
    have hkeep : KeepsFrame (Pass.modifySymbols (·.updateFunction b.function fun f =>
        { f with parameters := ids }) : Use Unit) := by
      refine .modifySymbols fun symbols => .mapFunctions fun f => ?_
      split <;> rfl
    refine (hkeep.unfoldsAt s₃).bind fun _ s₄ _ U₄ => ?_
    split
    · exact unfoldsAt_stmts _ (U₄.has (U₃.has (U₂.has (U₁.has lies)))) (.inl rfl)
    · exact (KeepsFrame.pure ()).unfoldsAt s₄

theorem unfoldsAt_bodies {bs : List Body}
    (lies : ∀ b ∈ bs, ∃ p, s.work.symbols.scopes.Has b.scope .function p) :
    UnfoldsAt (bodies bs) s := by
  induction bs generalizing s with
  | nil => exact (KeepsFrame.pure ()).unfoldsAt s
  | cons b rest ih =>
    obtain ⟨⟨p, hb⟩, hrest⟩ := List.forall_mem_cons.mp lies
    refine (unfoldsAt_body hb).bind fun _ s₁ _ U => ih fun b' hb' => ?_
    exact (hrest b' hb').imp fun _ h => U.has h

theorem unfoldsAt_declarations {d : Declarations}
    (lies : ∀ b ∈ d.bodies, ∃ p, s.work.symbols.scopes.Has b.scope .function p) :
    UnfoldsAt (declarations d) s := by
  refine ((stepwise_initializers _).unfoldsAt s).bind fun _ s₁ _ U => ?_
  refine (unfoldsAt_bodies fun b hb => (lies b hb).imp fun _ h => U.has h).bind fun _ s₂ _ _ => ?_
  exact stepwise_staging.unfoldsAt s₂

end Use

/-! ## The whole compilation -/

namespace Workspace

variable {w : Workspace}

theorem sameFrame_checkRecursion (w : Workspace) :
    w.symbols.SameFrame (leaves checkRecursion w).symbols := by
  refine .mapFunctions fun f => ?_
  split <;> rfl

/-- Bodies are used in the scopes of their functions. -/
theorem lies_of_declare {script : Script} {o : Options} {d : Declarations} {problems : List Problem}
    (h : Workspace.declare script (.ofOptions o) = .ok (d, problems) w) (T : w.symbols.ScopeTree) :
    ∀ b ∈ d.bodies, ∃ p, w.symbols.scopes.Has b.scope .function p := by
  obtain ⟨_, _, _, _, _, _, _, S, _⟩ := declare_settled h
  intro b hb
  obtain ⟨f, hf, hmatch⟩ := exists_of_forall₂_right S.entries hb
  exact T.bodies b.scope (List.mem_filterMap.mpr ⟨f, hf, hmatch.scope⟩)

/-- Whatever the passes leave behind, also if they end by a fault, its scopes form a tree, and names
can be looked up from everywhere in it. -/
theorem passes_leave_tree (s : Script) (o : Options) :
    (leaves (declare s) (ofOptions o)).symbols.Searchable ∧
      (leaves (declare s >>= fun _ => checkRecursion) (ofOptions o)).symbols.Searchable ∧
      (leaves (Program.build s) (ofOptions o)).symbols.Searchable := by
  have T₁ : (leaves (declare s) (ofOptions o)).symbols.ScopeTree := by
    rw [declare, Pass.leaves_run]
    exact Symbols.ScopeTree.start.unfolds (Declare.unfoldsAt_script s o)
  have hchecked : ∀ {w : Workspace}, w.symbols.ScopeTree →
      (leaves checkRecursion w).symbols.ScopeTree := fun T => T.same (sameFrame_checkRecursion _)
  refine ⟨T₁.searchable, ?_, ?_⟩
  · have T₂ := leaves_bind (P := fun w : Workspace => w.symbols.ScopeTree)
      (f := fun _ => checkRecursion) T₁ hchecked
    exact T₂.searchable
  · refine Symbols.ScopeTree.searchable ?_
    rw [Program.build]
    cases hdeclare : declare s (ofOptions o) with
    | error f w =>
      rw [leaves_of_error hdeclare] at T₁
      rw [leaves_bind_of_error hdeclare]
      exact T₁
    | ok r w =>
      obtain ⟨d, problems⟩ := r
      rw [leaves_of_ok hdeclare] at T₁
      have hcheck : checkRecursion w = .ok w.symbols.checkRecursion.1 (leaves checkRecursion w) := rfl
      rw [leaves_bind_of_ok hdeclare, leaves_bind_of_ok hcheck]
      have T₂ := hchecked T₁
      refine leaves_bind (P := fun w : Workspace => w.symbols.ScopeTree) ?_ fun T => T
      rw [use, Pass.leaves_run]
      have U : UnfoldsAt (Use.declarations d) { work := leaves checkRecursion w, report := {} } := by
        refine Use.unfoldsAt_declarations fun b hb => ?_
        exact (lies_of_declare hdeclare T₁ b hb).imp fun _ h =>
          ((sameFrame_checkRecursion w).scopes ..).mpr h
      exact T₂.unfolds U

end Workspace

end Stackless
