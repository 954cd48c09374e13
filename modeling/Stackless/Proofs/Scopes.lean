import Stackless.Symbols.Scope

/-!
# Changes to scopes

Every operation on scopes adds a scope at the end or changes one scope and keeps its kind
(`Scopes.Changes`). A name that a scope itself declared stays bound to the same symbol.
-/

namespace Stackless

/-- The problem with a name that is declared again. -/
def Symbol.redeclaration (symbol : Symbol) (name : String) (first span : Span) : Problem :=
  match symbol with
  | .ofVariable _ => .redeclared name first span
  | .ofFunction _ => .redefined "function" name span

namespace Scopes

variable {s s' : Scopes} {id id' : ScopeId} {name name' : String} {scope : Scope}

theorem get?_child (s : Scopes) (parent : ScopeId) (kind : ScopeKind) (name : String)
    (id : ScopeId) : (s.child parent kind name).get? id =
      if id = s.nextId then some { parent := some parent, kind, name } else s.get? id := by
  obtain ⟨i⟩ := id
  simp only [get?, child, Array.getElem?_push, nextId, size, ScopeId.mk.injEq]

theorem get?_replace (s : Scopes) (id id' : ScopeId) (scope : Scope) :
    (s.replace id scope).get? id' =
      if id = id' then (s.get? id').map fun _ => scope else s.get? id' := by
  obtain ⟨i⟩ := id
  obtain ⟨j⟩ := id'
  simp only [get?, replace, Array.getElem?_setIfInBounds, ScopeId.mk.injEq]
  split
  · rename_i h
    subst h
    by_cases hi : i < s.all.size <;> simp [hi]
  · rfl

theorem get?_replace_of_ne (h : id ≠ id') (scope : Scope) :
    (s.replace id scope).get? id' = s.get? id' := by
  rw [get?_replace, if_neg h]

theorem get?_replace_self (h : s.get? id = some scope) (scope' : Scope) :
    (s.replace id scope').get? id = some scope' := by
  rw [get?_replace, if_pos rfl, h, Option.map_some]

/-- The next id is not in use. -/
theorem ne_nextId (h : s.get? id = some scope) : id ≠ s.nextId := by
  rintro rfl
  simp [get?, nextId, size] at h

theorem get?_child_of_get? (h : s.get? id = some scope) (parent : ScopeId) (kind : ScopeKind)
    (name : String) : (s.child parent kind name).get? id = some scope := by
  rw [get?_child, if_neg (ne_nextId h), h]

/-- One scope is changed and keeps its kind and its place. -/
structure Changes (s : Scopes) (id : ScopeId) (s' : Scopes) : Prop where
  others : ∀ {id'}, id ≠ id' → s'.get? id' = s.get? id'
  kind : ∀ {scope}, s.get? id = some scope → ∃ scope', s'.get? id = some scope' ∧
    scope'.kind = scope.kind
  parent : s'.parent? id = s.parent? id
  size : s'.size = s.size

theorem Changes.replace {scope' : Scope} (h : s.get? id = some scope)
    (hkind : scope'.kind = scope.kind) (hparent : scope'.parent = scope.parent) :
    s.Changes id (s.replace id scope') where
  others hne := get?_replace_of_ne hne _
  kind h' := by
    cases h.symm.trans h'
    exact ⟨scope', get?_replace_self h _, hkind⟩
  parent := by simp only [parent?, get?_replace_self h, h, hparent]
  size := Array.size_setIfInBounds ..

theorem Changes.parent? (C : s.Changes id s') (id' : ScopeId) : s'.parent? id' = s.parent? id' := by
  by_cases hne : id = id'
  · exact hne ▸ C.parent
  · simp only [Scopes.parent?, C.others hne]

/-- A scope of a given kind stays one of that kind. -/
theorem Changes.kind_of (C : s.Changes id s') (h : s.get? id' = some scope) :
    ∃ scope', s'.get? id' = some scope' ∧ scope'.kind = scope.kind := by
  by_cases hne : id = id'
  · exact hne ▸ C.kind (hne ▸ h)
  · exact ⟨scope, (C.others hne).trans h, rfl⟩

/-- Declaring a name replaces the scope by one with one more binding of its own. -/
theorem declare_eq {symbol : Symbol} {span : Span} (h : s.declare id name symbol span = .ok s') :
    ∃ scope, s.get? id = some scope ∧
      s' = s.replace id { scope with bindings := scope.bindings.put name { symbol, span } } ∧
      ∀ b, scope.bindings.get? name = some b → b.inherited = true := by
  simp only [declare] at h
  split at h
  · cases h
  · rename_i scope hscope
    refine ⟨scope, hscope, ?_⟩
    split at h
    · rename_i hnone
      cases h
      exact ⟨rfl, by simp [hnone]⟩
    · rename_i old hold
      split at h
      · rename_i hinh
        cases h
        refine ⟨rfl, fun b hb => ?_⟩
        cases hold.symm.trans hb
        exact hinh
      · split at h <;> cases h

theorem declare_ok {symbol : Symbol} {span : Span} (h : s.declare id name symbol span = .ok s') :
    s.Changes id s' ∧ (∀ b, s.binding? id name = some b → b.inherited = true) ∧
      ∀ id' name', s'.binding? id' name' =
        if id = id' ∧ name = name' then some { symbol, span } else s.binding? id' name' := by
  obtain ⟨scope, hscope, rfl, hinh⟩ := declare_eq h
  refine ⟨.replace hscope rfl rfl, ?_, fun id' name' => ?_⟩
  · simpa only [binding?, hscope] using hinh
  · by_cases hid : id = id'
    · subst hid
      simp only [binding?, get?_replace_self hscope, hscope, true_and, Dict.get?_put]
    · simp only [binding?, get?_replace_of_ne hid, hid, false_and, if_false]

/-- A name that a scope declared itself stays so. -/
theorem own_of_declare {symbol : Symbol} {span : Span}
    (hbind : ∀ id' name', s'.binding? id' name' =
      if id = id' ∧ name = name' then some { symbol, span } else s.binding? id' name')
    (h : ∃ b, s.binding? id' name' = some b ∧ b.inherited = false) :
    ∃ b, s'.binding? id' name' = some b ∧ b.inherited = false := by
  obtain ⟨b, hb, hown⟩ := h
  rw [hbind]
  split
  · exact ⟨_, rfl, rfl⟩
  · exact ⟨b, hb, hown⟩

theorem type?_declare {symbol : Symbol} {span : Span}
    (h : s.declare id name symbol span = .ok s') (id' : ScopeId) (name' : String) :
    s'.type? id' name' = s.type? id' name' := by
  obtain ⟨scope, hscope, rfl, _⟩ := declare_eq h
  by_cases hid : id = id'
  · subst hid
    simp only [type?, get?_replace_self hscope, hscope]
  · simp only [type?, get?_replace_of_ne hid]

/-- A name that a scope itself declared is the only reason to refuse it. -/
theorem declare_refused {symbol : Symbol} {span : Span} {p : Problem}
    (h : s.declare id name symbol span = .error (.problem p)) :
    ∃ b, s.binding? id name = some b ∧ b.inherited = false ∧
      p = symbol.redeclaration name b.span span := by
  simp only [declare] at h
  split at h
  · cases h
  · rename_i scope hscope
    split at h
    · cases h
    · rename_i old hold
      split at h
      · cases h
      · rename_i hinh
        refine ⟨old, by simpa only [binding?, hscope] using hold, by simpa using hinh, ?_⟩
        cases symbol <;> cases h <;> rfl

theorem declareType_eq {key : Key} {span : Span} (h : s.declareType id name key span = .ok s') :
    ∃ scope, s.get? id = some scope ∧
      s' = s.replace id { scope with types := scope.types.put name key } := by
  simp only [declareType] at h
  split at h
  · cases h
  · rename_i scope hscope
    split at h
    · cases h
    · cases h
      exact ⟨scope, hscope, rfl⟩

theorem declareType_ok {key : Key} {span : Span} (h : s.declareType id name key span = .ok s') :
    s.Changes id s' := by
  obtain ⟨scope, hscope, rfl⟩ := declareType_eq h
  exact .replace hscope rfl rfl

theorem type?_declareType {key : Key} {span : Span}
    (h : s.declareType id name key span = .ok s') (id' : ScopeId) (name' : String) :
    s'.type? id' name' = if id = id' ∧ name = name' then some key else s.type? id' name' := by
  obtain ⟨scope, hscope, rfl⟩ := declareType_eq h
  by_cases hid : id = id'
  · subst hid
    simp only [type?, get?_replace_self hscope, hscope, true_and, Dict.get?_put]
  · simp only [type?, get?_replace_of_ne hid, hid, false_and, if_false]

theorem binding?_declareType {key : Key} {span : Span}
    (h : s.declareType id name key span = .ok s') (id' : ScopeId) (name' : String) :
    s'.binding? id' name' = s.binding? id' name' := by
  obtain ⟨scope, hscope, rfl⟩ := declareType_eq h
  by_cases hid : id = id'
  · subst hid
    simp only [binding?, get?_replace_self hscope, hscope]
  · simp only [binding?, get?_replace_of_ne hid]

/-- Taking over bindings changes nothing else of a scope. -/
theorem inherit_eq (scope : Scope) (bs : List (String × Binding)) :
    scope.inherit bs = { scope with bindings := (scope.inherit bs).bindings } := by
  induction bs generalizing scope with
  | nil => rfl
  | cons b bs ih =>
    simp only [Scope.inherit]
    split
    · exact ih scope
    · rw [ih]

theorem merge_eq {source : ScopeId} {n : Nat} (h : s.merge id source = .ok (n, s')) :
    ∃ scope bindings, s.get? id = some scope ∧ s' = s.replace id { scope with bindings } := by
  simp only [merge] at h
  split at h
  · cases h
  · split at h
    · cases h
    · cases h
    · rename_i giver taker hgiver htaker
      cases h
      exact ⟨taker, _, htaker, by rw [inherit_eq]⟩

theorem merge_ok {source : ScopeId} {n : Nat} (h : s.merge id source = .ok (n, s')) :
    s.Changes id s' := by
  obtain ⟨scope, bindings, hscope, rfl⟩ := merge_eq h
  exact .replace hscope rfl rfl

theorem type?_merge {source : ScopeId} {n : Nat} (h : s.merge id source = .ok (n, s'))
    (id' : ScopeId) (name' : String) : s'.type? id' name' = s.type? id' name' := by
  obtain ⟨scope, bindings, hscope, rfl⟩ := merge_eq h
  by_cases hid : id = id'
  · subst hid
    simp only [type?, get?_replace_self hscope, hscope]
  · simp only [type?, get?_replace_of_ne hid]

theorem binding?_child (s : Scopes) (parent : ScopeId) (kind : ScopeKind) (name : String)
    (id : ScopeId) (name' : String) :
    (s.child parent kind name).binding? id name' = s.binding? id name' := by
  simp only [binding?, get?_child]
  by_cases h : id = s.nextId
  · have hnone : s.get? id = none := by
      cases hs : s.get? id with
      | none => rfl
      | some scope => exact absurd h (ne_nextId hs)
    rw [if_pos h, hnone]
    rfl
  · rw [if_neg h]

theorem type?_child (s : Scopes) (parent : ScopeId) (kind : ScopeKind) (name : String)
    (id : ScopeId) (name' : String) :
    (s.child parent kind name).type? id name' = s.type? id name' := by
  simp only [type?, get?_child]
  by_cases h : id = s.nextId
  · have hnone : s.get? id = none := by
      cases hs : s.get? id with
      | none => rfl
      | some scope => exact absurd h (ne_nextId hs)
    rw [if_pos h, hnone]
    rfl
  · rw [if_neg h]

/-- The root is empty at first. -/
theorem start_empty (id : ScopeId) (name : String) :
    ({} : Scopes).binding? id name = none ∧ ({} : Scopes).type? id name = none := by
  obtain ⟨i⟩ := id
  cases i with
  | zero => exact ⟨rfl, rfl⟩
  | succ i => exact ⟨rfl, rfl⟩

/-! ## The types of the root -/

theorem get?_of_lt (h : id.index < s.size) : ∃ scope, s.get? id = some scope :=
  ⟨_, Array.getElem?_eq_getElem h⟩

theorem lt_of_get? (h : s.get? id = some scope) : id.index < s.size :=
  (Array.getElem?_eq_some_iff.mp h).1

theorem size_child (s : Scopes) (parent : ScopeId) (kind : ScopeKind) (name : String) :
    (s.child parent kind name).size = s.size + 1 := Array.size_push ..

/-- No scope is lost, and the root binds the same types. -/
structure Extends (s s' : Scopes) : Prop where
  size : s.size ≤ s'.size
  parent : s'.parent? .root = s.parent? .root
  types : ∀ name, s'.type? .root name = s.type? .root name

theorem Extends.replace {scope' : Scope} (h : s.get? id = some scope)
    (hparent : scope'.parent = scope.parent) (htypes : id = .root → scope'.types = scope.types) :
    s.Extends (s.replace id scope') := by
  refine ⟨Nat.le_of_eq (Array.size_setIfInBounds ..).symm, ?_, fun name => ?_⟩
  · by_cases hid : id = .root
    · subst hid
      simp only [parent?, get?_replace_self h, h, hparent]
    · simp only [parent?, get?_replace_of_ne hid]
  · by_cases hid : id = .root
    · subst hid
      simp only [type?, get?_replace_self h, h, htypes rfl]
    · simp only [type?, get?_replace_of_ne hid]

theorem Extends.child (h : 0 < s.size) (parent : ScopeId) (kind : ScopeKind) (name : String) :
    s.Extends (s.child parent kind name) := by
  obtain ⟨scope, hroot⟩ : ∃ scope, s.get? .root = some scope := get?_of_lt h
  have hget : (s.child parent kind name).get? .root = s.get? .root := by
    rw [get?_child, if_neg (ne_nextId hroot)]
  refine ⟨size_child .. ▸ Nat.le_succ _, ?_, fun name => ?_⟩
  · simp only [parent?, hget]
  · simp only [type?, hget]

theorem declare_extends {symbol : Symbol} {span : Span}
    (h : s.declare id name symbol span = .ok s') : s.Extends s' := by
  obtain ⟨scope, hscope, rfl, _⟩ := declare_eq h
  exact .replace hscope rfl fun _ => rfl

theorem declareType_extends {key : Key} {span : Span} (hid : id ≠ .root)
    (h : s.declareType id name key span = .ok s') : s.Extends s' := by
  obtain ⟨scope, hscope, rfl⟩ := declareType_eq h
  exact .replace hscope rfl fun h => absurd h hid

theorem declareType_problem {key : Key} {span : Span} {p : Problem}
    (h : s.declareType id name key span = .error (.problem p)) : s.type? id name ≠ none := by
  simp only [declareType] at h
  split at h
  · cases h
  · rename_i scope hscope
    split at h
    · rename_i hbound
      intro hnone
      simp only [type?, hscope] at hnone
      simp only [Dict.contains, hnone, Option.isSome_none, Bool.false_eq_true] at hbound
    · cases h

/-- Only the new name changes its meaning. -/
theorem declareType_root {key : Key} {span : Span}
    (h : s.declareType .root name key span = .ok s') :
    s'.parent? .root = s.parent? .root ∧ s'.size = s.size ∧
      ∀ name', s'.type? .root name' = if name = name' then some key else s.type? .root name' := by
  obtain ⟨scope, hscope, rfl⟩ := declareType_eq h
  refine ⟨?_, Array.size_setIfInBounds .., fun name' => ?_⟩
  · simp only [parent?, get?_replace_self hscope, hscope]
  · simp only [type?, get?_replace_self hscope, hscope, Dict.get?_put]

theorem merge_extends {source : ScopeId} {n : Nat} (h : s.merge id source = .ok (n, s')) :
    s.Extends s' := by
  obtain ⟨scope, bindings, hscope, rfl⟩ := merge_eq h
  exact .replace hscope rfl fun _ => rfl

theorem lookupType_root (h : s.parent? .root = none) (name : String) :
    s.lookupType .root name = s.type? .root name := by
  simp only [lookupType, enclosing, trail, trailFrom, h, List.not_mem_nil, if_false,
    List.findSome?_cons, List.findSome?_nil]
  cases s.type? .root name <;> rfl

/-! ## No faults

A scope that exists can be changed. -/

theorem declare_ne_fault (h : id.index < s.size) {symbol : Symbol} {span : Span} {f : Fault} :
    s.declare id name symbol span ≠ .error (.fault f) := by
  obtain ⟨scope, hscope⟩ := get?_of_lt h
  intro hfault
  simp only [declare, hscope] at hfault
  split at hfault
  · cases hfault
  · split at hfault
    · cases hfault
    · split at hfault <;> cases hfault

theorem declareType_ne_fault (h : id.index < s.size) {key : Key} {span : Span} {f : Fault} :
    s.declareType id name key span ≠ .error (.fault f) := by
  obtain ⟨scope, hscope⟩ := get?_of_lt h
  intro hfault
  simp only [declareType, hscope] at hfault
  split at hfault <;> cases hfault

theorem merge_ne_error {source : ScopeId} (hne : id ≠ source) (h : id.index < s.size)
    (hsource : source.index < s.size) {f : Fault} : s.merge id source ≠ .error f := by
  obtain ⟨taker, htaker⟩ := get?_of_lt h
  obtain ⟨giver, hgiver⟩ := get?_of_lt hsource
  intro hfault
  simp only [merge, if_neg hne, htaker, hgiver] at hfault
  cases hfault

end Scopes

end Stackless
