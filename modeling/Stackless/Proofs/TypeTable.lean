import Stackless.Proofs.ExtendsClause

/-!
# The table of types

Beginning a class marks its entry and registers its generic parameters; completing it fills in the
rest of the entry. No step changes the key, the name or the owner of an entry.
-/

namespace Stackless

/-- A change to an entry that keeps what it is known by. -/
structure TypeEntry.Retains (f : TypeEntry → TypeEntry) : Prop where
  key : ∀ t, (f t).key = t.key
  name : ∀ t, (f t).name = t.name
  owner : ∀ t, (f t).owner = t.owner

theorem TypeEntry.Retains.progress (p : Progress) : Retains fun t => { t with progress := p } :=
  ⟨fun _ => rfl, fun _ => rfl, fun _ => rfl⟩

theorem TypeEntry.Retains.content (base : Option Key) (members : Option MemberScopes)
    (generics : List Key) : Retains fun t => { t with base, members, generics } :=
  ⟨fun _ => rfl, fun _ => rfl, fun _ => rfl⟩

/-- The parameters of a class that are registered are those whose keys were free. -/
structure Begun.Registered (x : Begun) (keys : List Key) : Prop where
  sublist : (x.generics.map (·.name)).Sublist x.source.generics
  keyed : ∀ y ∈ x.generics, y.key = .genericParameter x.key y.name.name
  taken : ∀ name ∈ x.source.generics, .genericParameter x.key name.name ∈ keys

theorem Begun.Registered.mono {x : Begun} {keys keys' : List Key} (R : x.Registered keys)
    (h : keys ⊆ keys') : x.Registered keys' :=
  { R with taken := fun name hname => h (R.taken name hname) }

/-- The entry of a generic parameter. -/
def Generic.entry (owner : Key) (x : Generic) : TypeEntry :=
  .ofGeneric owner x.name.name x.name.span

namespace Outline

variable {g : Outline} {key k : Key} {f : TypeEntry → TypeEntry} {t : TypeEntry}

def keys (g : Outline) : List Key := g.types.map (·.key)

/-- The names of the generic parameters that are registered for a class. -/
def parameters (g : Outline) (owner : Key) : List String :=
  (g.types.filter (·.owner = some owner)).map (·.name)

theorem type?_eq_none : g.type? k = none ↔ k ∉ g.keys := by
  simp [type?, keys]

theorem key_of_type? (h : g.type? k = some t) : t.key = k :=
  of_decide_eq_true (List.find?_some h :)

theorem type?_of_mem (hkeys : g.keys.Nodup) (h : t ∈ g.types) : g.type? t.key = some t := by
  obtain ⟨t', ht'⟩ := Option.ne_none_iff_exists'.mp fun hnone =>
    type?_eq_none.mp hnone (List.mem_map_of_mem h)
  cases List.inj_on_of_nodup_map hkeys (List.mem_of_find?_eq_some ht') h (key_of_type? ht')
  exact ht'

/-! ## Changing an entry -/

def updateType (g : Outline) (key : Key) (f : TypeEntry → TypeEntry) : Outline :=
  g.withTypes (g.types.map fun t => if t.key = key then f t else t)

theorem type?_updateType (hf : TypeEntry.Retains f) (key k : Key) :
    (g.updateType key f).type? k = (g.type? k).map fun t => if k = key then f t else t := by
  have hkey : ∀ t : TypeEntry, (if t.key = key then f t else t).key = t.key := by
    intro t
    split
    · exact hf.key t
    · rfl
  simp only [type?, updateType, withTypes, List.find?_map, Function.comp_def, hkey]
  refine Option.map_congr fun t ht => ?_
  rw [of_decide_eq_true (List.find?_some ht :)]

theorem keys_updateType (hf : TypeEntry.Retains f) (key : Key) :
    (g.updateType key f).keys = g.keys := by
  simp only [keys, updateType, withTypes, List.map_map]
  refine List.map_congr_left fun t _ => ?_
  simp only [Function.comp_apply]
  split
  · exact hf.key t
  · rfl

theorem parameters_updateType (hf : TypeEntry.Retains f) (key owner : Key) :
    (g.updateType key f).parameters owner = g.parameters owner := by
  have howner : ∀ t : TypeEntry, (if t.key = key then f t else t).owner = t.owner := by
    intro t
    split
    · exact hf.owner t
    · rfl
  simp only [parameters, updateType, withTypes, List.filter_map, Function.comp_def, howner,
    List.map_map]
  refine List.map_congr_left fun t _ => ?_
  split
  · exact hf.name t
  · rfl

/-! ## Adding generic parameters -/

def addGenerics (g : Outline) (owner : Key) (gs : List Generic) : Outline :=
  g.withTypes (g.types ++ gs.map (·.entry owner))

theorem addGenerics_nil (g : Outline) (owner : Key) : g.addGenerics owner [] = g := by
  simp [addGenerics, withTypes]

theorem addGenerics_cons (g : Outline) (owner : Key) (x : Generic) (gs : List Generic) :
    g.addGenerics owner (x :: gs) = (g.addGenerics owner [x]).addGenerics owner gs := by
  simp [addGenerics, withTypes]

theorem keys_addGenerics (g : Outline) (owner : Key) (gs : List Generic) :
    g.keys ⊆ (g.addGenerics owner gs).keys := by
  simp only [keys, addGenerics, withTypes, List.map_append]
  exact List.subset_append_left ..

theorem type?_addGenerics (h : g.type? k = some t) (owner : Key) (gs : List Generic) :
    (g.addGenerics owner gs).type? k = some t := by
  rw [type?] at h
  simp only [type?, addGenerics, withTypes, List.find?_append, h, Option.some_or]

/-- Only parameters are added. -/
theorem of_type?_addGenerics {owner : Key} {gs : List Generic}
    (h : (g.addGenerics owner gs).type? k = some t) :
    g.type? k = some t ∨ t.owner = some owner := by
  simp only [type?, addGenerics, withTypes, List.find?_append, Option.or_eq_some_iff] at h
  rcases h with h | ⟨_, h⟩
  · exact .inl h
  · obtain ⟨x, _, rfl⟩ := List.mem_map.mp (List.mem_of_find?_eq_some h)
    exact .inr rfl

theorem parameters_addGenerics (owner : Key) (gs : List Generic) :
    (g.addGenerics owner gs).parameters k =
      g.parameters k ++ if k = owner then gs.map (·.name.name) else [] := by
  simp only [parameters, addGenerics, withTypes, List.filter_append, List.map_append]
  congr 1
  split
  · rename_i h
    subst h
    rw [List.filter_eq_self.mpr, List.map_map]
    · rfl
    · intro t ht
      obtain ⟨x, _, rfl⟩ := List.mem_map.mp ht
      exact decide_eq_true rfl
  · rename_i h
    rw [List.map_eq_nil_iff, List.filter_eq_nil_iff]
    intro t ht
    obtain ⟨x, _, rfl⟩ := List.mem_map.mp ht
    intro hk
    cases (of_decide_eq_true hk : some owner = some k)
    exact h rfl

/-! ## Beginning a class -/

/-- The outline once a class is begun. -/
def begin (g : Outline) (x : Begun) : Outline :=
  (g.updateType x.key fun t => { t with progress := .inProgress }).addGenerics x.key x.generics

theorem type?_begin (x : Begun) (h : g.type? k = some t) :
    (g.begin x).type? k = some (if k = x.key then { t with progress := .inProgress } else t) := by
  refine type?_addGenerics ?_ x.key x.generics
  rw [type?_updateType (.progress _), h, Option.map_some]

theorem type?_begin_of_ne {x : Begun} (h : g.type? k = some t) (hne : k ≠ x.key) :
    (g.begin x).type? k = some t := by
  rw [type?_begin x h, if_neg hne]

theorem of_type?_begin {x : Begun} (h : (g.begin x).type? k = some t) (ht : t.isClass = true) :
    ∃ t', g.type? k = some t' ∧ t'.isClass = true := by
  rcases of_type?_addGenerics h with h | h
  · rw [type?_updateType (.progress _)] at h
    obtain ⟨t', ht', rfl⟩ := Option.map_eq_some_iff.mp h
    refine ⟨t', ht', ?_⟩
    split at ht
    · exact ht
    · exact ht
  · rw [TypeEntry.isClass, h] at ht
    cases ht

theorem keys_begin (x : Begun) : g.keys ⊆ (g.begin x).keys := by
  rw [← keys_updateType (.progress .inProgress) x.key]
  exact keys_addGenerics ..

theorem parameters_begin (x : Begun) : (g.begin x).parameters k =
    g.parameters k ++ if k = x.key then x.generics.map (·.name.name) else [] := by
  rw [begin, parameters_addGenerics, parameters_updateType (.progress _)]

/-! ## Completing a class -/

/-- The outline once the entry of a class is complete. -/
def close (g : Outline) (x : Completed) : Outline :=
  (g.updateType x.key fun t =>
    { t with base := x.base, members := some x.scopes, generics := x.generics.map (·.key) }
  ).updateType x.key fun t => { t with progress := .resolved }

theorem type?_close (x : Completed) : (g.close x).type? k = (g.type? k).map fun t =>
    if k = x.key then
      { t with
        base := x.base, members := some x.scopes, generics := x.generics.map (·.key),
        progress := .resolved }
    else t := by
  rw [close, type?_updateType (.progress _), type?_updateType (.content ..), Option.map_map]
  refine Option.map_congr fun t _ => ?_
  simp only [Function.comp_apply]
  split <;> rfl

theorem type?_close_of_ne {x : Completed} (h : g.type? k = some t) (hne : k ≠ x.key) :
    (g.close x).type? k = some t := by
  rw [type?_close, h, Option.map_some, if_neg hne]

theorem type?_close_self {x : Completed} (h : g.type? x.key = some x.toBegun.entry) :
    (g.close x).type? x.key = some x.entry := by
  rw [type?_close, h, Option.map_some, if_pos rfl]
  rfl

theorem of_type?_close {x : Completed} (h : (g.close x).type? k = some t)
    (ht : t.isClass = true) : ∃ t', g.type? k = some t' ∧ t'.isClass = true := by
  rw [type?_close] at h
  obtain ⟨t', ht', rfl⟩ := Option.map_eq_some_iff.mp h
  refine ⟨t', ht', ?_⟩
  split at ht
  · exact ht
  · exact ht

theorem keys_close (x : Completed) : (g.close x).keys = g.keys := by
  rw [close, keys_updateType (.progress _), keys_updateType (.content ..)]

theorem parameters_close (x : Completed) : (g.close x).parameters k = g.parameters k := by
  rw [close, parameters_updateType (.progress _), parameters_updateType (.content ..)]

end Outline

/-! ## The steps -/

namespace Declare

variable {g : Outline}

theorem guards_addType (t : TypeEntry) :
    Guards g.Kept g.options.Tolerates (Pass.attempt (Workspace.addType t) : Declare (Option Unit))
      fun added s =>
        (added = none → g.Kept s ∧ t.key ∈ g.keys) ∧
        (added.isSome = true → (g.withTypes (g.types ++ [t])).Kept s ∧ t.key ∉ g.keys) := by
  have hnone : ∀ {s : Stage Declarations}, g.Kept s →
      (s.work.symbols.type? t.key = none ↔ t.key ∉ g.keys) := fun K => by
    rw [K.type?, Outline.type?_eq_none]
  apply Pass.guards_attempt_onSymbols
  · intro s K symbols h
    refine ⟨by simp, fun _ => ?_⟩
    simp only [Symbols.addType] at h
    split at h
    · cases h
    · rename_i hfree
      cases h
      exact ⟨{ K with types := congrArg (· ++ [t]) K.types }, (hnone K).mp hfree⟩
  · intro s K p h
    refine ⟨fun _ => ?_, by simp⟩
    simp only [Symbols.addType] at h
    split at h
    · rename_i t' htaken
      cases h
      refine ⟨K.addOthers fun p hp => List.mem_singleton.mp hp ▸ rfl, ?_⟩
      refine Decidable.not_not.mp fun hfree => ?_
      cases htaken.symm.trans ((hnone K).mpr hfree)
    · cases h
  · intro s K p h
    simp only [Symbols.addType] at h
    split at h <;> cases h

theorem guards_updateType {key : Key} {t : TypeEntry} (h : g.type? key = some t)
    (f : TypeEntry → TypeEntry) :
    Guards g.Kept g.options.Tolerates (updateType key f) fun _ => (g.updateType key f).Kept := by
  have hsome : ∀ {s : Stage Declarations}, g.Kept s → s.work.symbols.type? key = some t :=
    fun K => (K.type? key).trans h
  constructor
  · intro s K a s' hs'
    rw [updateType_eq (hsome K)] at hs'
    cases hs'
    refine { K with types := ?_ }
    simp only [Symbols.updateType, K.types]
    rfl
  · intro s K e s' hs'
    rw [updateType_eq (hsome K)] at hs'
    cases hs'

theorem guards_generics (hkeys : g.keys.Nodup) (c : ClassDef) (names : List Ident) :
    Guards g.Kept g.options.Tolerates (generics c names) fun gs s =>
      (g.addGenerics c.key gs).Kept s ∧ (g.addGenerics c.key gs).keys.Nodup ∧
        (gs.map (·.name)).Sublist names ∧
        (∀ y ∈ gs, y.key = .genericParameter c.key y.name.name) ∧
        ∀ name ∈ names, .genericParameter c.key name.name ∈ (g.addGenerics c.key gs).keys := by
  induction names generalizing g with
  | nil =>
    refine .pure fun s K => ?_
    rw [Outline.addGenerics_nil]
    exact ⟨K, hkeys, .slnil, nofun, nofun⟩
  | cons name rest ih =>
    refine (guards_addType _).bind fun added => ?_
    cases added with
    | none =>
      refine Guards.strengthen (Guards.assume fun htaken => ?_) fun s h => h.1 rfl
      refine (ih hkeys).bind fun others => .pure fun s ⟨K, hnodup, hsub, hgs, hall⟩ => ?_
      refine ⟨K, hnodup, hsub.cons _, hgs, fun name' hname' => ?_⟩
      rcases List.mem_cons.mp hname' with rfl | hname'
      · exact Outline.keys_addGenerics g c.key others htaken
      · exact hall name' hname'
    | some u =>
      let x : Generic := ⟨name, .genericParameter c.key name.name⟩
      refine Guards.strengthen (P := fun s => (g.addGenerics c.key [x]).Kept s ∧ x.key ∉ g.keys)
        (Guards.assume fun hx => ?_) fun s h => h.2 rfl
      have hkeys' : (g.addGenerics c.key [x]).keys = g.keys ++ [x.key] := by
        simp only [Outline.keys, Outline.addGenerics, Outline.withTypes, List.map_append]
        rfl
      have hnodup' : (g.addGenerics c.key [x]).keys.Nodup := by
        rw [hkeys']
        exact List.nodup_append_comm.mp (List.nodup_cons.mpr ⟨hx, hkeys⟩)
      refine (ih hnodup').bind fun others => .pure fun s h => ?_
      rw [← Outline.addGenerics_cons] at h
      obtain ⟨K, hnodup, hsub, hgs, hall⟩ := h
      refine ⟨K, hnodup, hsub.cons_cons _, List.forall_mem_cons.mpr ⟨rfl, hgs⟩,
        fun name' hname' => ?_⟩
      rcases List.mem_cons.mp hname' with rfl | hname'
      · have hx' : x.key ∈ (g.addGenerics c.key [x]).keys := by
          rw [hkeys']
          exact List.mem_append_right _ (List.mem_singleton_self _)
        have hkept := Outline.keys_addGenerics (g.addGenerics c.key [x]) c.key others hx'
        rw [← Outline.addGenerics_cons] at hkept
        exact hkept
      · exact hall name' hname'

theorem guards_openClass (hkeys : g.keys.Nodup) {c : ClassDef} {t : TypeEntry}
    (h : g.type? c.key = some t) :
    Guards g.Kept g.options.Tolerates (openClass c) fun gs s =>
      (g.begin ⟨c, gs⟩).Kept s ∧ (g.begin ⟨c, gs⟩).keys.Nodup ∧
        Begun.Registered ⟨c, gs⟩ (g.begin ⟨c, gs⟩).keys := by
  refine (guards_updateType h _).bind fun _ => (guards_generics ?_ c c.generics).weaken ?_
  · rw [Outline.keys_updateType (.progress _)]
    exact hkeys
  · intro gs s ⟨K, hnodup, hsub, hgs, hall⟩
    exact ⟨K, hnodup, hsub, hgs, hall⟩

end Declare

end Stackless
