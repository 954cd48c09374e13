import Mathlib.Data.List.Chain
import Stackless.Proofs.Scopes

/-!
# How scopes lie inside each other

A scope is created inside one that exists, so the scopes around it are older than it
(`Scopes.Nested`). They are the trail of the parents to its end (`Scopes.enclosing_eq`), and what a
name means in a scope is what the first of them binds it to (`Scopes.visible?`).
-/

namespace Stackless

/-! ## Trails -/

section Trails

variable {α : Type} [DecidableEq α] {next : α → Option α} {n : Nat} {seen : List α} {a : α}
  {rest : List α}

theorem trailFrom_of_mem (h : a ∈ seen) : trailFrom next n seen a = [] := by
  cases n with
  | zero => rfl
  | succ n => rw [trailFrom, if_pos h]

/-- A trail goes on as long as it does not repeat, if there is room for it. -/
theorem trailFrom_eq (hchain : (a :: rest).IsChain fun a b => next a = some b)
    (hnodup : (a :: rest).Nodup) (hseen : ∀ b ∈ a :: rest, b ∉ seen)
    (hend : ∀ b, (a :: rest).getLast? = some b → ∀ c, next b = some c → c ∈ seen ∨ c ∈ a :: rest)
    (hn : rest.length < n) : trailFrom next n seen a = a :: rest := by
  induction rest generalizing a n seen with
  | nil =>
    obtain ⟨n, rfl⟩ := Nat.exists_eq_add_of_lt hn
    simp only [trailFrom, if_neg (hseen a List.mem_cons_self)]
    cases hnext : next a with
    | none => rfl
    | some c =>
      have hc : c ∈ a :: seen := by
        rcases hend a rfl c hnext with hc | hc
        · exact List.mem_cons_of_mem a hc
        · exact List.mem_singleton.mp hc ▸ List.mem_cons_self
      exact congrArg (a :: ·) (trailFrom_of_mem hc)
  | cons b rest ih =>
    obtain ⟨hnext, hrest⟩ := List.isChain_cons_cons.mp hchain
    obtain ⟨hfresh, hnodup'⟩ := List.nodup_cons.mp hnodup
    cases n with
    | zero => cases hn
    | succ n =>
      have hseen' : ∀ c ∈ b :: rest, c ∉ a :: seen := by
        intro c hc hc'
        rcases List.mem_cons.mp hc' with rfl | hc'
        · exact hfresh hc
        · exact hseen c (List.mem_cons_of_mem _ hc) hc'
      have hend' : ∀ c, (b :: rest).getLast? = some c → ∀ d, next c = some d →
          d ∈ a :: seen ∨ d ∈ b :: rest := by
        intro c hc d hd
        rcases hend c hc d hd with hd | hd
        · exact .inl (List.mem_cons_of_mem a hd)
        · rcases List.mem_cons.mp hd with rfl | hd
          · exact .inl List.mem_cons_self
          · exact .inr hd
      simp only [trailFrom, if_neg (hseen a List.mem_cons_self), hnext]
      rw [ih hrest hnodup' hseen' hend' (Nat.lt_of_succ_lt_succ hn)]

end Trails

theorem findSome?_congr_mem {α β : Type} {l : List α} {f g : α → Option β}
    (h : ∀ a ∈ l, f a = g a) : l.findSome? f = l.findSome? g := by
  induction l with
  | nil => rfl
  | cons a l ih =>
    obtain ⟨ha, hl⟩ := List.forall_mem_cons.mp h
    rw [List.findSome?_cons, List.findSome?_cons, ha, ih hl]

namespace Scopes

variable {s s' : Scopes} {id id' parent : ScopeId} {name : String} {kind : ScopeKind}
  {scope : Scope} {rest : List ScopeId}

/-! ## Places of scopes -/

/-- There is a scope of this kind at this place. -/
def Has (s : Scopes) (id : ScopeId) (kind : ScopeKind) (parent : Option ScopeId) : Prop :=
  ∃ scope, s.get? id = some scope ∧ scope.kind = kind ∧ scope.parent = parent

theorem Has.parent? {p : Option ScopeId} (h : s.Has id kind p) : s.parent? id = p := by
  obtain ⟨scope, hscope, _, hparent⟩ := h
  simp only [Scopes.parent?, hscope, hparent]

theorem Has.lt {p : Option ScopeId} (h : s.Has id kind p) : id.index < s.size := by
  obtain ⟨scope, hscope, _⟩ := h
  exact lt_of_get? hscope

theorem Has.change {p : Option ScopeId} (h : s.Has id kind p) (C : s.Changes id' s') :
    s'.Has id kind p := by
  have hparent := (C.parent? id).trans h.parent?
  obtain ⟨scope, hscope, hkind, _⟩ := h
  obtain ⟨scope', hscope', hsame⟩ := C.kind_of hscope
  refine ⟨scope', hscope', hsame.trans hkind, ?_⟩
  simpa only [Scopes.parent?, hscope'] using hparent

theorem Has.child {p : Option ScopeId} (h : s.Has id kind p) (parent : ScopeId)
    (kind' : ScopeKind) (name : String) : (s.child parent kind' name).Has id kind p := by
  obtain ⟨scope, hscope, hrest⟩ := h
  exact ⟨scope, get?_child_of_get? hscope .., hrest⟩

theorem has_child (s : Scopes) (parent : ScopeId) (kind : ScopeKind) (name : String) :
    (s.child parent kind name).Has s.nextId kind (some parent) :=
  ⟨_, by rw [get?_child, if_pos rfl], rfl, rfl⟩

theorem parent?_child (s : Scopes) (parent : ScopeId) (kind : ScopeKind) (name : String)
    (id : ScopeId) : (s.child parent kind name).parent? id =
      if id = s.nextId then some parent else s.parent? id := by
  by_cases h : id = s.nextId
  · simp only [parent?, get?_child, if_pos h]
  · simp only [parent?, get?_child, if_neg h]

/-! ## Nesting -/

/-- Every scope lies inside older ones. -/
def Nested (s : Scopes) : Prop := ∀ ⦃id p⦄, s.parent? id = some p → p.index < id.index

theorem nested_start : ({} : Scopes).Nested := by
  intro id p h
  obtain ⟨i⟩ := id
  cases i with
  | zero => cases h
  | succ i => cases h

theorem Nested.child (N : s.Nested) (h : parent.index < s.size) (kind : ScopeKind)
    (name : String) : (s.child parent kind name).Nested := by
  intro id p hp
  rw [parent?_child] at hp
  split at hp
  · rename_i hid
    cases hp
    exact hid ▸ h
  · exact N hp

theorem Nested.change (N : s.Nested) (C : s.Changes id s') : s'.Nested := by
  intro id' p hp
  exact N ((C.parent? id').symm.trans hp)

/-- A way outwards only meets older scopes. -/
theorem Nested.lt_of_chain (N : s.Nested)
    (h : (id :: rest).IsChain fun a b => s.parent? a = some b) :
    ∀ b ∈ rest, b.index < id.index := by
  induction rest generalizing id with
  | nil => simp
  | cons a rest ih =>
    obtain ⟨hparent, hrest⟩ := List.isChain_cons_cons.mp h
    intro b hb
    rcases List.mem_cons.mp hb with rfl | hb
    · exact N hparent
    · exact Nat.lt_trans (ih hrest b hb) (N hparent)

theorem Nested.nodup_of_chain (N : s.Nested)
    (h : (id :: rest).IsChain fun a b => s.parent? a = some b) : (id :: rest).Nodup := by
  induction rest generalizing id with
  | nil => exact List.pairwise_singleton ..
  | cons a rest ih =>
    refine List.nodup_cons.mpr ⟨fun hmem => ?_, ih (List.isChain_cons_cons.mp h).2⟩
    exact Nat.lt_irrefl _ (N.lt_of_chain h id hmem)

theorem Nested.length_of_chain (N : s.Nested)
    (h : (id :: rest).IsChain fun a b => s.parent? a = some b) : rest.length ≤ s.size := by
  have hlength : rest.length ≤ id.index := by
    induction rest generalizing id with
    | nil => exact Nat.zero_le _
    | cons a rest ih =>
      obtain ⟨hparent, hrest⟩ := List.isChain_cons_cons.mp h
      exact Nat.succ_le_of_lt (Nat.lt_of_le_of_lt (ih hrest) (N hparent))
  cases rest with
  | nil => exact Nat.zero_le _
  | cons a rest =>
    obtain ⟨hparent, _⟩ := List.isChain_cons_cons.mp h
    have hid : id.index < s.size := by
      cases hget : s.get? id with
      | none => simp only [parent?, hget] at hparent; cases hparent
      | some scope => exact lt_of_get? hget
    omega

/-- The scopes around a scope are its parents, to the outermost. -/
theorem Nested.enclosing_eq (N : s.Nested)
    (h : (id :: rest).IsChain fun a b => s.parent? a = some b)
    (hend : ∀ b, (id :: rest).getLast? = some b → s.parent? b = none) :
    s.enclosing id = id :: rest := by
  refine trailFrom_eq h (N.nodup_of_chain h) (fun _ _ => List.not_mem_nil) (fun b hb c hc => ?_)
    (Nat.lt_succ_of_le (N.length_of_chain h))
  cases (hend b hb).symm.trans hc

/-- There is a way outwards from every scope. -/
theorem Nested.exists_chain (N : s.Nested) (id : ScopeId) :
    ∃ rest : List ScopeId, (id :: rest).IsChain (fun a b => s.parent? a = some b) ∧
      ∀ b, (id :: rest).getLast? = some b → s.parent? b = none := by
  obtain ⟨i⟩ := id
  induction i using Nat.strongRecOn with
  | ind i ih =>
    cases hparent : s.parent? ⟨i⟩ with
    | none =>
      refine ⟨[], .singleton _, fun b hb => ?_⟩
      cases hb
      exact hparent
    | some p =>
      obtain ⟨rest, hchain, hlast⟩ := ih p.index (N hparent)
      exact ⟨p :: rest, .cons_cons hparent hchain, hlast⟩

/-- Around a scope are its parent and the scopes around that. -/
theorem Nested.enclosing_cons (N : s.Nested) (h : s.parent? id = some parent) :
    s.enclosing id = id :: s.enclosing parent := by
  obtain ⟨rest, hchain, hlast⟩ := N.exists_chain parent
  rw [N.enclosing_eq hchain hlast]
  exact N.enclosing_eq (.cons_cons h hchain) hlast

/-! ## Looking up names -/

/-- The binding of a name in the first of some scopes that binds it. -/
def visible? (s : Scopes) (scopes : List ScopeId) (name : String) : Option Binding :=
  scopes.findSome? (s.binding? · name)

theorem lookup_eq (s : Scopes) (id : ScopeId) (name : String) :
    (s.lookup id name).map (·.2) = s.visible? (s.enclosing id) name := by
  rw [lookup, visible?]
  induction s.enclosing id with
  | nil => rfl
  | cons a rest ih =>
    simp only [List.findSome?_cons]
    cases s.binding? a name with
    | none => exact ih
    | some b => rfl

end Scopes

end Stackless
