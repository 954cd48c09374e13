import Mathlib.Data.List.Nodup
import Mathlib.Data.List.Perm.Basic
import Stackless.Proofs.Additions
import Stackless.Proofs.MemberScopes
import Stackless.Proofs.Steps

/-!
# Scopes and the variable table

However a pass ends, the scopes and the table of variables fit together: what a scope binds itself
are the variables that live in it, each under its own name, and all other variables that it binds
were taken over (`Workspace.Coherent`). Every basic step keeps that, also one that fails, so it
holds of every state that a compilation can leave behind.
-/

namespace Stackless

/-! ## Entries of dictionaries -/

namespace Dict

variable {κ ν : Type} [DecidableEq κ] {d : Dict κ ν} {k : κ} {v : ν}

/-- No key has two entries. -/
def Distinct (d : Dict κ ν) : Prop := (d.entries.map (·.1)).Nodup

theorem keys_replace (k : κ) (v : ν) (entries : List (κ × ν)) :
    (replace k v entries).map (·.1) =
      if k ∈ entries.map (·.1) then entries.map (·.1) else entries.map (·.1) ++ [k] := by
  induction entries with
  | nil => rfl
  | cons head rest ih =>
    obtain ⟨k', v'⟩ := head
    simp only [replace]
    split
    · rename_i h
      simp [h]
    · rename_i h
      simp only [List.map_cons, ih, List.mem_cons, Ne.symm h, false_or]
      split <;> rfl

theorem replace_of_not_mem {entries : List (κ × ν)} (h : k ∉ entries.map (·.1)) (v : ν) :
    replace k v entries = entries ++ [(k, v)] := by
  induction entries with
  | nil => rfl
  | cons head rest ih =>
    obtain ⟨hne, hrest⟩ := not_or.mp (h ∘ List.mem_cons.mpr)
    rw [replace, if_neg (Ne.symm hne), ih hrest, List.cons_append]

theorem Distinct.put (h : d.Distinct) (k : κ) (v : ν) : (d.put k v).Distinct := by
  rw [Distinct, Dict.put, keys_replace]
  split
  · exact h
  · rename_i hnew
    exact List.nodup_append.mpr ⟨h, List.nodup_singleton k, fun a ha b hb he =>
      hnew (List.mem_singleton.mp hb ▸ he ▸ ha)⟩

theorem Distinct.mem_iff (h : d.Distinct) : (k, v) ∈ d.entries ↔ d.get? k = some v := by
  obtain ⟨entries⟩ := d
  rw [Distinct] at h
  simp only [get?]
  induction entries with
  | nil => simp [find]
  | cons head rest ih =>
    obtain ⟨k', v'⟩ := head
    obtain ⟨hnew, hrest⟩ := List.nodup_cons.mp h
    simp only [find, List.mem_cons, Prod.mk.injEq]
    split
    · rename_i hk
      subst hk
      have hnone : (k', v) ∉ rest := fun hmem => hnew (List.mem_map.mpr ⟨_, hmem, rfl⟩)
      simp [hnone, eq_comm]
    · rename_i hk
      rw [ih hrest, or_iff_right fun he => hk he.1.symm]

end Dict

theorem Scope.distinct_inherit {scope : Scope} (h : scope.bindings.Distinct)
    (bs : List (String × Binding)) : (scope.inherit bs).bindings.Distinct := by
  induction bs generalizing scope with
  | nil => exact h
  | cons b bs ih =>
    simp only [Scope.inherit]
    split
    · exact ih h
    · exact ih (h.put _ _)

/-! ## Specification -/

/-- The entries of a scope. -/
def Scopes.entriesOf (s : Scopes) (id : ScopeId) : List (ScopeId × String × Binding) :=
  match s.get? id with
  | some scope => scope.bindings.entries.map fun e => (id, e.1, e.2)
  | none => []

/-- All entries of all scopes. -/
def Scopes.entries (s : Scopes) : List (ScopeId × String × Binding) :=
  (List.range s.size).flatMap fun i => s.entriesOf ⟨i⟩

namespace Workspace

/-- The variables that scopes bind and did not take over, with their scopes and names. -/
def ownVariables (w : Workspace) : List (ScopeId × String × VariableId) :=
  w.symbols.scopes.entries.filterMap fun e =>
    if e.2.2.inherited then none else e.2.2.symbol.toVariable?.map (e.1, e.2.1, ·)

/-- The variables of the table that have a scope, with their scopes and names. -/
def scopedVariables (w : Workspace) : List (ScopeId × String × VariableId) :=
  w.layout.table.toList.filterMap fun v => v.scope.map (·, v.name, v.id)

/-- The scopes and the table of variables fit together. -/
structure Consistent (w : Workspace) : Prop where
  /-- Variables are numbered in order. -/
  numbered : ∀ {i : Nat} {v : Variable}, w.layout.table[i]? = some v → v.id = ⟨i⟩
  /-- A variable that a scope binds is in the table, declared at the same place. -/
  known : ∀ {scope name b id}, (scope, name, b) ∈ w.symbols.scopes.entries →
    b.symbol = .ofVariable id → ∃ v, w.layout.get? id = some v ∧ v.name = name ∧ v.span = b.span
  /-- What scopes bind themselves and what the table says about scopes is the same. -/
  correspondence : w.ownVariables.Perm w.scopedVariables
  /-- A function that a scope binds is registered. -/
  functions : ∀ {scope name b key}, (scope, name, b) ∈ w.symbols.scopes.entries →
    b.symbol = .ofFunction key → ∃ f, w.symbols.function? key = some f

end Workspace

/-- The state that a step leaves behind, whether it succeeds or not. -/
def leaves {ε σ α : Type} (x : EStateM ε σ α) (s : σ) : σ :=
  match x s with
  | .ok _ s' | .error _ s' => s'

/-! ## The invariant -/

namespace Workspace

/-- The same seen from a name in a scope. -/
structure Coherent (w : Workspace) : Prop where
  ids : ∀ {id v}, w.layout.get? id = some v → v.id = id
  distinct : ∀ {id scope}, w.symbols.scopes.get? id = some scope → scope.bindings.Distinct
  bound : ∀ {scope name b id}, w.symbols.scopes.binding? scope name = some b →
    b.symbol = .ofVariable id → ∃ v, w.layout.get? id = some v ∧ v.name = name ∧ v.span = b.span ∧
      (b.inherited = false → v.scope = some scope)
  placed : ∀ {id v scope}, w.layout.get? id = some v → v.scope = some scope →
    w.symbols.scopes.binding? scope v.name = some { symbol := .ofVariable id, span := v.span }
  registered : ∀ {scope name b key}, w.symbols.scopes.binding? scope name = some b →
    b.symbol = .ofFunction key → key ∈ w.symbols.functions.map (·.key)

variable {w w' : Workspace}

theorem coherent_ofOptions (o : Options) : (ofOptions o).Coherent where
  ids h := by simp [ofOptions, Layout.get?] at h
  distinct {id scope} h := by
    obtain ⟨i⟩ := id
    cases i with
    | zero => cases h; exact .nil
    | succ i => cases h
  bound {scope name b id} h := by cases (Scopes.start_empty scope name).1.symm.trans h
  placed h := by simp [ofOptions, Layout.get?] at h
  registered {scope name b key} h := by cases (Scopes.start_empty scope name).1.symm.trans h

namespace Coherent

/-- Only bindings, variables and the keys of functions count. -/
theorem congr (H : w.Coherent) (htable : w'.layout.table = w.layout.table)
    (hdistinct : ∀ {id scope}, w'.symbols.scopes.get? id = some scope → scope.bindings.Distinct)
    (hbindings : ∀ id name, w'.symbols.scopes.binding? id name = w.symbols.scopes.binding? id name)
    (hkeys : w.symbols.functions.map (·.key) ⊆ w'.symbols.functions.map (·.key)) :
    w'.Coherent where
  ids h := H.ids ((Layout.get?_congr htable _).symm.trans h)
  distinct := hdistinct
  bound h hsymbol := by
    obtain ⟨v, hv, hrest⟩ := H.bound ((hbindings ..).symm.trans h) hsymbol
    exact ⟨v, (Layout.get?_congr htable _).trans hv, hrest⟩
  placed h hscope := by
    rw [hbindings]
    exact H.placed ((Layout.get?_congr htable _).symm.trans h) hscope
  registered h hsymbol := hkeys (H.registered ((hbindings ..).symm.trans h) hsymbol)

/-- Nothing but the locations of variables can have changed. -/
theorem withLayout (H : w.Coherent) {layout : Layout} (htable : layout.table = w.layout.table) :
    ({ w with layout } : Workspace).Coherent :=
  H.congr htable H.distinct (fun _ _ => rfl) (List.Subset.refl _)

theorem withTypes (H : w.Coherent) (types : List TypeEntry) (calls : Calls) :
    ({ w with symbols := { w.symbols with types, calls } } : Workspace).Coherent :=
  H.congr rfl H.distinct (fun _ _ => rfl) (List.Subset.refl _)

theorem withFunctions (H : w.Coherent) {functions : List FunctionEntry} (calls : Calls)
    (hkeys : w.symbols.functions.map (·.key) ⊆ functions.map (·.key)) :
    ({ w with symbols := { w.symbols with functions, calls } } : Workspace).Coherent :=
  H.congr rfl H.distinct (fun _ _ => rfl) hkeys

theorem mapFunctions (H : w.Coherent) {g : FunctionEntry → FunctionEntry}
    (hg : ∀ f, (g f).key = f.key) : ({ w with symbols := { w.symbols with
      functions := w.symbols.functions.map g } } : Workspace).Coherent := by
  have hkeys : (w.symbols.functions.map g).map (·.key) = w.symbols.functions.map (·.key) := by
    rw [List.map_map]
    exact List.map_congr_left fun f _ => hg f
  exact H.withFunctions _ (hkeys ▸ List.Subset.refl _)

theorem child (H : w.Coherent) (parent : ScopeId) (kind : ScopeKind) (name : String) :
    ({ w with symbols := { w.symbols with
      scopes := w.symbols.scopes.child parent kind name } } : Workspace).Coherent := by
  refine H.congr rfl (fun {id scope} h => ?_) (fun id name' => Scopes.binding?_child ..)
    (List.Subset.refl _)
  rw [Scopes.get?_child] at h
  split at h
  · cases h
    exact .nil
  · exact H.distinct h

theorem declareType (H : w.Coherent) {id : ScopeId} {name : String} {key : Key} {span : Span}
    {scopes : Scopes} (h : w.symbols.scopes.declareType id name key span = .ok scopes) :
    ({ w with symbols := { w.symbols with scopes } } : Workspace).Coherent := by
  refine H.congr rfl (fun {id' scope'} hget => ?_) (Scopes.binding?_declareType h)
    (List.Subset.refl _)
  obtain ⟨scope, hscope, rfl⟩ := Scopes.declareType_eq h
  by_cases hid : id = id'
  · subst hid
    cases (Scopes.get?_replace_self hscope _).symm.trans hget
    exact (H.distinct hscope : scope.bindings.Distinct)
  · exact H.distinct ((Scopes.get?_replace_of_ne hid _).symm.trans hget)

theorem distinct_merge (H : w.Coherent) {target source : ScopeId} {n : Nat} {scopes : Scopes}
    (h : w.symbols.scopes.merge target source = .ok (n, scopes)) {id : ScopeId} {scope : Scope}
    (hget : scopes.get? id = some scope) : scope.bindings.Distinct := by
  simp only [Scopes.merge] at h
  split at h
  · cases h
  · split at h
    · cases h
    · cases h
    · rename_i giver taker hgiver htaker
      cases h
      by_cases hid : target = id
      · subst hid
        cases (Scopes.get?_replace_self htaker _).symm.trans hget
        exact Scope.distinct_inherit (H.distinct htaker) _
      · exact H.distinct ((Scopes.get?_replace_of_ne hid _).symm.trans hget)

/-- What is taken over is marked so, and what a scope declared itself stays. -/
theorem merge (H : w.Coherent) {target source : ScopeId} {n : Nat} {scopes : Scopes}
    (h : w.symbols.scopes.merge target source = .ok (n, scopes)) :
    ({ w with symbols := { w.symbols with scopes } } : Workspace).Coherent := by
  have hcases : ∀ {id name b}, scopes.binding? id name = some b →
      w.symbols.scopes.binding? id name = some b ∨
        ∃ b', w.symbols.scopes.binding? source name = some b' ∧ b = b'.handedDown := by
    intro id name b hb
    rw [Scopes.merge_bindings h] at hb
    split at hb
    · rename_i hid
      rcases Option.or_eq_some_iff.mp hb with hb | ⟨_, hb⟩
      · exact .inl (hid ▸ hb)
      · obtain ⟨b', hb', rfl⟩ := Option.map_eq_some_iff.mp hb
        exact .inr ⟨b', hb', rfl⟩
    · exact .inl hb
  refine ⟨H.ids, H.distinct_merge h, fun hb hsymbol => ?_, fun {id v scope} hv hscope => ?_,
    fun hb hsymbol => ?_⟩
  · rcases hcases hb with hb | ⟨b', hb', rfl⟩
    · exact H.bound hb hsymbol
    · obtain ⟨v, hv, hname, hspan, _⟩ := H.bound hb' hsymbol
      exact ⟨v, hv, hname, hspan, fun hown => by cases hown⟩
  · have hold := H.placed hv hscope
    change scopes.binding? scope v.name = _
    rw [Scopes.merge_bindings h]
    split
    · rename_i hid
      rw [hid, hold, Option.some_or]
    · exact hold
  · rcases hcases hb with hb | ⟨b', hb', rfl⟩
    · exact H.registered hb hsymbol
    · exact H.registered hb' hsymbol

theorem distinct_declare (H : w.Coherent) {id : ScopeId} {name : String} {symbol : Symbol}
    {span : Span} {scopes : Scopes}
    (h : w.symbols.scopes.declare id name symbol span = .ok scopes) {id' : ScopeId} {scope' : Scope}
    (hget : scopes.get? id' = some scope') : scope'.bindings.Distinct := by
  obtain ⟨scope, hscope, rfl, _⟩ := Scopes.declare_eq h
  by_cases hid : id = id'
  · subst hid
    cases (Scopes.get?_replace_self hscope _).symm.trans hget
    exact (H.distinct hscope).put _ _
  · exact H.distinct ((Scopes.get?_replace_of_ne hid _).symm.trans hget)

/-- A variable keeps its name when another one is declared. -/
theorem placed_declare (H : w.Coherent) {id : ScopeId} {name : String} {symbol : Symbol}
    {span : Span} {scopes : Scopes}
    (h : w.symbols.scopes.declare id name symbol span = .ok scopes) {x : VariableId} {v : Variable}
    {scope : ScopeId} (hv : w.layout.get? x = some v) (hscope : v.scope = some scope) :
    scopes.binding? scope v.name = some { symbol := .ofVariable x, span := v.span } := by
  obtain ⟨_, hinherited, hbind⟩ := Scopes.declare_ok h
  have hold := H.placed hv hscope
  rw [hbind, if_neg, hold]
  rintro ⟨rfl, rfl⟩
  cases hinherited _ hold

theorem declareFunction (H : w.Coherent) {id : ScopeId} {name : String} {key : Key} {span : Span}
    {scopes : Scopes} (hkey : key ∈ w.symbols.functions.map (·.key))
    (h : w.symbols.scopes.declare id name (.ofFunction key) span = .ok scopes) :
    ({ w with symbols := { w.symbols with scopes } } : Workspace).Coherent := by
  have hbind := (Scopes.declare_ok h).2.2
  refine ⟨H.ids, H.distinct_declare h, fun hb hsymbol => ?_, H.placed_declare h,
    fun hb hsymbol => ?_⟩
  · replace hb := (hbind ..).symm.trans hb
    split at hb
    · cases hb
      cases hsymbol
    · exact H.bound hb hsymbol
  · replace hb := (hbind ..).symm.trans hb
    split at hb
    · cases hb
      cases hsymbol
      exact hkey
    · exact H.registered hb hsymbol

/-- A new variable is put into the table and bound in its scope. -/
theorem declareVariable (H : w.Coherent) {layout : Layout} {scopes : Scopes} {v : Variable}
    {scope : ScopeId} (htable : layout.table = w.layout.table) (hid : v.id = layout.nextId)
    (hscope : v.scope = some scope)
    (h : w.symbols.scopes.declare scope v.name (.ofVariable v.id) v.span = .ok scopes) :
    ({ symbols := { w.symbols with scopes }, layout := layout.push v } : Workspace).Coherent := by
  have hbind := (Scopes.declare_ok h).2.2
  have hget : ∀ id, (layout.push v).get? id = if id = v.id then some v else w.layout.get? id := by
    intro id
    rw [Layout.get?_push, hid, Layout.get?_congr htable]
  have hfresh : w.layout.get? v.id = none := by
    rw [hid, ← Layout.get?_congr htable]
    simp [Layout.get?, Layout.nextId]
  have hkept : ∀ {id u}, w.layout.get? id = some u → (layout.push v).get? id = some u := by
    intro id u hu
    rw [hget, if_neg, hu]
    rintro rfl
    cases hfresh.symm.trans hu
  refine ⟨fun {id u} hu => ?_, H.distinct_declare h, fun {scope' name b id} hb hsymbol => ?_,
    fun {id u scope'} hu hscope' => ?_, fun hb hsymbol => ?_⟩
  · replace hu := (hget id).symm.trans hu
    split at hu
    · rename_i he
      cases hu
      exact he.symm
    · exact H.ids hu
  · replace hb := (hbind ..).symm.trans hb
    split at hb
    · rename_i hnew
      obtain ⟨rfl, rfl⟩ := hnew
      cases hb
      cases hsymbol
      exact ⟨v, (hget _).trans (if_pos rfl), rfl, rfl, fun _ => hscope⟩
    · obtain ⟨u, hu, hrest⟩ := H.bound hb hsymbol
      exact ⟨u, hkept hu, hrest⟩
  · replace hu := (hget id).symm.trans hu
    split at hu
    · rename_i he
      cases hu
      cases hscope.symm.trans hscope'
      rw [he]
      exact (hbind ..).trans (if_pos ⟨rfl, rfl⟩)
    · exact H.placed_declare h hu hscope'
  · replace hb := (hbind ..).symm.trans hb
    split at hb
    · cases hb
      cases hsymbol
    · exact H.registered hb hsymbol

/-- A variable without a scope is bound nowhere. -/
theorem push (H : w.Coherent) {layout : Layout} {v : Variable}
    (htable : layout.table = w.layout.table) (hid : v.id = layout.nextId) (hscope : v.scope = none) :
    ({ w with layout := layout.push v } : Workspace).Coherent := by
  have hget : ∀ id, (layout.push v).get? id = if id = v.id then some v else w.layout.get? id := by
    intro id
    rw [Layout.get?_push, hid, Layout.get?_congr htable]
  refine ⟨fun {id u} hu => ?_, H.distinct, fun hb hsymbol => ?_, fun {id u scope} hu hu' => ?_,
    H.registered⟩
  · replace hu := (hget id).symm.trans hu
    split at hu
    · rename_i he
      cases hu
      exact he.symm
    · exact H.ids hu
  · obtain ⟨u, hu, hrest⟩ := H.bound hb hsymbol
    refine ⟨u, (hget _).trans ?_, hrest⟩
    rw [if_neg, hu]
    rintro rfl
    rw [hid, ← Layout.get?_congr htable] at hu
    simp [Layout.get?, Layout.nextId] at hu
  · replace hu := (hget id).symm.trans hu
    split at hu
    · cases hu
      cases hscope.symm.trans hu'
    · exact H.placed hu hu'

theorem stack (H : w.Coherent) (id : VariableId) :
    ({ w with layout := w.layout.stack id } : Workspace).Coherent := by
  refine ⟨fun hu => ?_, H.distinct, fun {scope name b x} hb hsymbol => ?_, fun hu hscope => ?_,
    H.registered⟩
  · obtain ⟨u, b, hu', rfl⟩ := Layout.get?_of_stack hu
    exact (H.ids hu' : u.id = _)
  · obtain ⟨u, hu, hname, hspan, hscope⟩ := H.bound hb hsymbol
    by_cases hx : id = x
    · refine ⟨{ u with stacked := true }, (Layout.get?_stack ..).trans ?_, hname, hspan, hscope⟩
      rw [if_pos hx, hu]
      rfl
    · exact ⟨u, (Layout.get?_stack ..).trans ((if_neg hx).trans hu), hname, hspan, hscope⟩
  · obtain ⟨u, b, hu', rfl⟩ := Layout.get?_of_stack hu
    exact H.placed (v := u) hu' hscope

end Coherent

end Workspace

/-! ## Basic steps -/

theorem Layout.takeLocation_error_table {l l' : Layout} {d : Domain} {f : Fault}
    (h : takeLocation d l = .error f l') : l'.table = l.table := by
  simp only [takeLocation, onCursor] at h
  split at h
  · cases h
  · cases h
    exact setCursor_table ..

namespace Workspace.Coherent

variable {w : Workspace}

theorem leaves_onSymbols (H : w.Coherent) {change : Symbols → Except Refusal Symbols}
    (hok : ∀ {symbols}, change w.symbols = .ok symbols →
      ({ w with symbols } : Workspace).Coherent) :
    (leaves (onSymbols change) w).Coherent := by
  simp only [leaves, onSymbols]
  cases hchange : change w.symbols with
  | ok symbols => exact hok hchange
  | error r => exact H

theorem leaves_onScopes (H : w.Coherent) {change : Scopes → Except Refusal Scopes}
    (hok : ∀ {scopes}, change w.symbols.scopes = .ok scopes →
      ({ w with symbols := { w.symbols with scopes } } : Workspace).Coherent) :
    (leaves (onScopes change) w).Coherent := by
  refine H.leaves_onSymbols fun {symbols} h => ?_
  split at h
  · rename_i hchange
    cases h
    exact hok hchange
  · cases h

theorem leaves_addFunction (H : w.Coherent) (f : FunctionEntry) :
    (leaves (addFunction f) w).Coherent := by
  refine H.leaves_onSymbols fun {symbols} h => ?_
  simp only [Symbols.addFunction] at h
  split at h
  · cases h
  · cases h
    refine H.withFunctions _ ?_
    rw [List.map_append]
    exact List.subset_append_left ..

theorem leaves_merge (H : w.Coherent) (target source : ScopeId) :
    (leaves (Workspace.merge target source) w).Coherent := by
  simp only [leaves, Workspace.merge]
  cases h : w.symbols.scopes.merge target source with
  | ok r => exact H.merge h
  | error f => exact H

theorem leaves_declareVariable (H : w.Coherent) (scope : ScopeId) (name : String) (domain : Domain)
    (kind : VariableKind) (span : Span) :
    (leaves (Workspace.declareVariable scope name domain kind span) w).Coherent := by
  simp only [leaves, Workspace.declareVariable]
  cases (w.symbols.scopes.binding? scope name).filter (!·.inherited) with
  | some old => exact H
  | none =>
    cases htake : Layout.takeLocation domain w.layout with
    | error f layout => exact H.withLayout (Layout.takeLocation_error_table htake)
    | ok location layout =>
      have htable := Layout.takeLocation_table htake
      dsimp only
      cases hbind : w.symbols.scopes.declare scope name (.ofVariable layout.nextId) span with
      | error r => exact H.withLayout htable
      | ok scopes => exact H.declareVariable htable rfl rfl hbind

theorem leaves_addInternal (H : w.Coherent) (name : String) (domain : Domain) :
    (leaves (Workspace.addInternal name domain) w).Coherent := by
  simp only [leaves, Workspace.addInternal, onLayout, Layout.addInternal]
  cases htake : Layout.takeLocation domain w.layout with
  | error f layout => exact H.withLayout (Layout.takeLocation_error_table htake)
  | ok location layout => exact H.push (Layout.takeLocation_table htake) rfl rfl

end Workspace.Coherent

/-! ## Passes -/

theorem leaves_bind {ε σ α β : Type} {P : σ → Prop} {x : EStateM ε σ α} {f : α → EStateM ε σ β}
    {s : σ} (hx : P (leaves x s)) (hf : ∀ {a s'}, P s' → P (leaves (f a) s')) :
    P (leaves (x >>= f) s) := by
  rw [leaves] at hx
  simp only [leaves, bind, EStateM.bind]
  cases hres : x s with
  | ok a s' =>
    rw [hres] at hx
    exact hf hx
  | error e s' =>
    rw [hres] at hx
    exact hx

namespace Pass

variable {ρ α β : Type}

theorem leaves_lift (step : EStateM Fault Workspace α) (s : Stage ρ) :
    (leaves (lift step) s).work = leaves step s.work := by
  simp only [leaves, lift]
  cases step s.work <;> rfl

theorem leaves_attempt (step : EStateM Refusal Workspace α) (s : Stage ρ) :
    (leaves (attempt step) s).work = leaves step s.work := by
  simp only [leaves, attempt]
  cases step s.work with
  | ok a w => rfl
  | error r w => cases r <;> rfl

/-- What a pass leaves behind of the workspace. -/
theorem leaves_run (pass : Pass ρ Unit) (report : ρ) (w : Workspace) :
    leaves (pass.run report) w = (leaves pass { work := w, report }).work := by
  simp only [leaves, run]
  cases pass { work := w, report } <;> rfl

/-- A function is registered before its name is bound. -/
theorem coherent_register {s : Stage Declarations} (H : s.work.Coherent) (f : FunctionEntry)
    (owner : ScopeId) : (leaves (Declare.register f owner) s).work.Coherent := by
  have H' := H.leaves_addFunction f
  rw [← leaves_attempt (ρ := Declarations) (s := s), leaves] at H'
  rw [Declare.register, leaves]
  simp only [bind, EStateM.bind]
  cases hadd : attempt (Workspace.addFunction f) s with
  | error fault s' =>
    rw [hadd] at H'
    exact H'
  | ok r s' =>
    rw [hadd] at H'
    rcases Declare.attempt_addFunction hadd with ⟨rfl, _, rfl⟩ | ⟨rfl, _, rfl⟩
    · exact H
    · have hkey : f.key ∈ (s.work.symbols.functions ++ [f]).map (·.key) := by simp
      refine leaves_bind (P := fun s : Stage _ => s.work.Coherent) ?_ fun H => H
      rw [leaves_attempt]
      exact H'.leaves_onScopes (H'.declareFunction hkey)

theorem InPlace.coherent {x : Pass ρ α} (h : InPlace ρ α x) {s : Stage ρ} (H : s.work.Coherent) :
    (leaves x s).work.Coherent := by
  cases h with
  | note | addProblems => exact H
  | updateType | recordCall => exact H.withTypes _ _
  | @addType t =>
    rw [leaves_attempt]
    refine H.leaves_onSymbols fun {symbols} h => ?_
    simp only [Symbols.addType] at h
    split at h
    · cases h
    · cases h
      exact H.withTypes _ _
  | declareType scope name key span =>
    rw [leaves_attempt]
    exact H.leaves_onScopes H.declareType
  | merge target source =>
    rw [leaves_lift]
    exact H.leaves_merge target source
  | declareVariable scope name domain kind span =>
    rw [leaves_attempt]
    exact H.leaves_declareVariable scope name domain kind span
  | stack id => exact H.stack id
  | addInternal name domain =>
    rw [leaves_lift]
    exact H.leaves_addInternal name domain

theorem Basic.coherent {x : Pass ρ α} (h : Basic ρ α x) {s : Stage ρ} (H : s.work.Coherent) :
    (leaves x s).work.Coherent := by
  cases h with
  | inPlace h => exact h.coherent H
  | newScope parent kind name => exact H.child parent kind name
  | updateType key g => exact H.withTypes _ _
  | addFunction f =>
    rw [leaves_attempt]
    exact H.leaves_addFunction f
  | register f owner => exact coherent_register H f owner
  | updateFunction key keeps =>
    refine H.mapFunctions fun f => ?_
    split
    · exact keeps f
    · rfl

/-- Every pass leaves a coherent workspace. -/
theorem Stepwise.coherent {x : Pass ρ α} (h : Stepwise Basic x) {s : Stage ρ}
    (H : s.work.Coherent) : (leaves x s).work.Coherent := by
  induction h generalizing s with
  | pure | throw | symbols => exact H
  | bind first rest ihx ihf =>
    exact leaves_bind (P := fun s : Stage _ => s.work.Coherent) (ihx H) fun H => ihf _ H
  | report rest ih => exact ih _ H
  | step h => exact h.coherent H

end Pass

/-! ## The whole compilation -/

theorem map_filterMap_sublist {α β γ : Type} {f : α → Option β} {g : β → γ} {h : α → γ}
    (hfg : ∀ {a b}, f a = some b → g b = h a) (l : List α) :
    ((l.filterMap f).map g).Sublist (l.map h) := by
  induction l with
  | nil => exact .slnil
  | cons a l ih =>
    cases hfa : f a with
    | none =>
      rw [List.filterMap_cons_none hfa]
      exact ih.cons _
    | some b =>
      rw [List.filterMap_cons_some hfa, List.map_cons, hfg hfa]
      exact ih.cons_cons _

namespace Workspace.Coherent

variable {w : Workspace} {scope : ScopeId} {name : String} {id : VariableId} {b : Binding}

theorem mem_entries (H : w.Coherent) : (scope, name, b) ∈ w.symbols.scopes.entries ↔
    w.symbols.scopes.binding? scope name = some b := by
  obtain ⟨i⟩ := scope
  simp only [Scopes.entries, List.mem_flatMap, List.mem_range, Scopes.entriesOf, Scopes.binding?]
  constructor
  · rintro ⟨j, _, hmem⟩
    split at hmem
    · rename_i sc hsc
      obtain ⟨e, he, heq⟩ := List.mem_map.mp hmem
      cases heq
      rw [hsc]
      exact (H.distinct hsc).mem_iff.mp he
    · cases hmem
  · intro hb
    split at hb
    · rename_i sc hsc
      refine ⟨i, Scopes.lt_of_get? hsc, ?_⟩
      rw [hsc]
      exact List.mem_map.mpr ⟨(name, b), (H.distinct hsc).mem_iff.mpr hb, rfl⟩
    · cases hb

theorem mem_ownVariables (H : w.Coherent) : (scope, name, id) ∈ w.ownVariables ↔
    ∃ b, w.symbols.scopes.binding? scope name = some b ∧ b.inherited = false ∧
      b.symbol = .ofVariable id := by
  simp only [ownVariables, List.mem_filterMap]
  constructor
  · rintro ⟨⟨scope', name', b⟩, hmem, he⟩
    split at he
    · cases he
    · rename_i hown
      obtain ⟨id', hid, heq⟩ := Option.map_eq_some_iff.mp he
      cases heq
      refine ⟨b, H.mem_entries.mp hmem, by simpa using hown, ?_⟩
      obtain ⟨symbol, span, inherited⟩ := b
      cases symbol with
      | ofVariable x => cases hid; rfl
      | ofFunction key => cases hid
  · rintro ⟨b, hb, hown, hsymbol⟩
    refine ⟨(scope, name, b), H.mem_entries.mpr hb, ?_⟩
    rw [if_neg (by simp [hown]), hsymbol]
    rfl

theorem mem_scopedVariables (H : w.Coherent) : (scope, name, id) ∈ w.scopedVariables ↔
    ∃ v, w.layout.get? id = some v ∧ v.scope = some scope ∧ v.name = name := by
  simp only [scopedVariables, List.mem_filterMap]
  constructor
  · rintro ⟨v, hv, he⟩
    obtain ⟨i, hi⟩ := List.mem_iff_getElem?.mp hv
    rw [Array.getElem?_toList] at hi
    obtain ⟨scope', hscope, heq⟩ := Option.map_eq_some_iff.mp he
    have hid : v.id = ⟨i⟩ := H.ids hi
    cases heq
    exact ⟨v, hid ▸ hi, hscope, rfl⟩
  · rintro ⟨v, hv, hscope, rfl⟩
    refine ⟨v, ?_, ?_⟩
    · rw [List.mem_iff_getElem?]
      exact ⟨id.index, by rw [Array.getElem?_toList]; exact hv⟩
    · rw [hscope, H.ids hv]
      rfl

theorem nodup_entriesOf (H : w.Coherent) (scope : ScopeId) :
    ((w.symbols.scopes.entriesOf scope).map fun e => (e.1, e.2.1)).Nodup := by
  rw [Scopes.entriesOf]
  split
  · rename_i sc hsc
    have hkeys := (H.distinct hsc).map (f := fun name => (scope, name)) fun _ _ h => by cases h; rfl
    rw [List.map_map] at hkeys ⊢
    exact hkeys
  · exact .nil

theorem nodup_ownVariables (H : w.Coherent) : w.ownVariables.Nodup := by
  have hscope : ∀ {scope : ScopeId} {x : ScopeId × String},
      x ∈ (w.symbols.scopes.entriesOf scope).map (fun e => (e.1, e.2.1)) → x.1 = scope := by
    intro scope x hx
    obtain ⟨e, he, rfl⟩ := List.mem_map.mp hx
    rw [Scopes.entriesOf] at he
    split at he
    · obtain ⟨e', _, rfl⟩ := List.mem_map.mp he
      rfl
    · cases he
  have hentries : (w.symbols.scopes.entries.map fun e => (e.1, e.2.1)).Nodup := by
    rw [Scopes.entries, List.map_flatMap, List.nodup_flatMap]
    refine ⟨fun i _ => H.nodup_entriesOf ⟨i⟩, List.nodup_range.imp fun hne x hx hx' => hne ?_⟩
    cases (hscope hx).symm.trans (hscope hx')
    rfl
  refine List.Nodup.of_map (fun x => (x.1, x.2.1)) ?_
  refine (map_filterMap_sublist (fun {e x} he => ?_) _).nodup hentries
  split at he
  · cases he
  · obtain ⟨id, _, rfl⟩ := Option.map_eq_some_iff.mp he
    rfl

theorem nodup_scopedVariables (H : w.Coherent) : w.scopedVariables.Nodup := by
  have hids : w.layout.table.toList.map (·.id) =
      (List.range w.layout.table.size).map VariableId.mk := by
    refine List.ext_getElem? fun i => ?_
    rw [List.getElem?_map, List.getElem?_map, Array.getElem?_toList]
    cases hv : w.layout.table[i]? with
    | none =>
      have hi := Array.getElem?_eq_none_iff.mp hv
      rw [List.getElem?_eq_none (by simpa using hi)]
      rfl
    | some v =>
      obtain ⟨hi, _⟩ := Array.getElem?_eq_some_iff.mp hv
      rw [List.getElem?_range hi, Option.map_some, Option.map_some,
        (H.ids hv : v.id = ⟨i⟩)]
  refine List.Nodup.of_map (fun x => x.2.2) ?_
  refine (map_filterMap_sublist (h := (·.id)) (fun {v x} he => ?_) _).nodup ?_
  · obtain ⟨scope, _, rfl⟩ := Option.map_eq_some_iff.mp he
    rfl
  · rw [hids]
    exact List.nodup_range.map fun a b h => by cases h; rfl

theorem consistent (H : w.Coherent) : w.Consistent where
  numbered h := H.ids h
  known hmem hsymbol := by
    obtain ⟨v, hv, hname, hspan, _⟩ := H.bound (H.mem_entries.mp hmem) hsymbol
    exact ⟨v, hv, hname, hspan⟩
  correspondence := by
    rw [List.perm_ext_iff_of_nodup H.nodup_ownVariables H.nodup_scopedVariables]
    rintro ⟨scope, name, id⟩
    rw [H.mem_ownVariables, H.mem_scopedVariables]
    constructor
    · rintro ⟨b, hb, hown, hsymbol⟩
      obtain ⟨v, hv, hname, _, hscope⟩ := H.bound hb hsymbol
      exact ⟨v, hv, hscope hown, hname⟩
    · rintro ⟨v, hv, hscope, rfl⟩
      exact ⟨_, H.placed hv hscope, rfl, rfl⟩
  functions hmem hsymbol := by
    obtain ⟨f, hf, hkey⟩ := List.mem_map.mp (H.registered (H.mem_entries.mp hmem) hsymbol)
    refine Option.ne_none_iff_exists'.mp fun hnone => ?_
    exact List.find?_eq_none.mp hnone f hf (by simpa using hkey)

end Workspace.Coherent

namespace Workspace

variable {w : Workspace}

theorem Coherent.leaves_run (H : w.Coherent) {ρ : Type} {pass : Pass ρ Unit}
    (h : Pass.Stepwise Pass.Basic pass)
    (report : ρ) : (leaves (pass.run report) w).Coherent := by
  rw [Pass.leaves_run]
  exact h.coherent H

theorem Coherent.leaves_checkRecursion (H : w.Coherent) :
    (leaves checkRecursion w).Coherent := by
  refine H.mapFunctions fun f => ?_
  split <;> rfl

/-- The scopes and the table of variables fit together after each pass, also if it ends by a
fault, for instance because the target is too small. -/
theorem passes_leave_consistent (s : Script) (o : Options) :
    (leaves (declare s) (ofOptions o)).Consistent ∧
      (leaves (declare s >>= fun _ => checkRecursion) (ofOptions o)).Consistent ∧
      (leaves (Program.build s) (ofOptions o)).Consistent := by
  have hdeclare := (coherent_ofOptions o).leaves_run (Declare.stepwise_script s) {}
  refine ⟨hdeclare.consistent, ?_, ?_⟩
  · exact (leaves_bind hdeclare fun H => H.leaves_checkRecursion).consistent
  · refine (leaves_bind hdeclare fun {d w} H => ?_).consistent
    refine leaves_bind H.leaves_checkRecursion fun {report w} H => ?_
    exact leaves_bind (H.leaves_run (Use.stepwise_declarations d.1) {}) fun H => H

end Workspace

end Stackless
