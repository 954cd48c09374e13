import Mathlib.Data.List.Nodup
import Mathlib.Data.List.Perm.Basic
import Stackless.Proofs.Nesting
import Stackless.Symbols.Table

/-!
# The tree of scopes

All scopes form a tree under the root (`Scopes.Tree`), so the way outwards from any of them ends at
the root, and what a name means is what the first scope on that way binds it to
(`Scopes.FindsNearest`). The kinds of scopes tell how they lie in each other
(`Symbols.ScopeTree`). Symbols are only ever changed in ways that keep this: what is changed in place
says nothing about where scopes lie, and there are three ways to create scopes
(`Symbols.Unfolds`).
-/

namespace Stackless

/-! ## Trees -/

namespace Scopes

variable {s s' : Scopes} {id parent : ScopeId} {kind kind' : ScopeKind} {p p' : Option ScopeId}
  {name : String}

theorem Has.unique (h : s.Has id kind p) (h' : s.Has id kind' p') : kind = kind' ∧ p = p' := by
  obtain ⟨scope, hscope, rfl, rfl⟩ := h
  obtain ⟨scope', hscope', rfl, rfl⟩ := h'
  cases hscope.symm.trans hscope'
  exact ⟨rfl, rfl⟩

theorem exists_has (h : id.index < s.size) : ∃ kind p, s.Has id kind p := by
  obtain ⟨scope, hscope⟩ := get?_of_lt h
  exact ⟨scope.kind, scope.parent, scope, hscope, rfl, rfl⟩

theorem has_of_parent? (h : s.parent? id = some parent) : ∃ kind, s.Has id kind (some parent) := by
  cases hget : s.get? id with
  | none => simp only [Scopes.parent?, hget, reduceCtorEq] at h
  | some scope =>
    simp only [Scopes.parent?, hget] at h
    exact ⟨scope.kind, scope, hget, rfl, h⟩

theorem has_child_iff : (s.child parent kind name).Has id kind' p ↔
    id = s.nextId ∧ kind' = kind ∧ p = some parent ∨ s.Has id kind' p := by
  constructor
  · intro h
    obtain ⟨scope, hscope, rfl, rfl⟩ := h
    rw [get?_child] at hscope
    split at hscope
    · rename_i hid
      cases hscope
      exact .inl ⟨hid, rfl, rfl⟩
    · exact .inr ⟨scope, hscope, rfl, rfl⟩
  · rintro (⟨rfl, rfl, rfl⟩ | h)
    · exact has_child ..
    · exact h.child ..

theorem Changes.has_iff (C : s.Changes parent s') : s'.Has id kind p ↔ s.Has id kind p := by
  refine ⟨fun h => ?_, fun h => h.change C⟩
  obtain ⟨kind', p', h'⟩ := exists_has (C.size ▸ h.lt)
  obtain ⟨rfl, rfl⟩ := h.unique (h'.change C)
  exact h'

/-- Only the root has no parent, and every other scope lies in an older one. -/
structure Tree (s : Scopes) : Prop where
  root : s.Has .root .root none
  rooted : ∀ {id kind p}, s.Has id kind p → (kind = .root ↔ id = .root) ∧ (p = none ↔ id = .root)
  older : ∀ {id kind parent}, s.Has id kind (some parent) →
    parent.index < id.index ∧ ∃ kind' p', s.Has parent kind' p'

/-- The way from a scope through its parents ends at the root, and a name means what the first scope
on it binds it to. -/
def FindsNearest (s : Scopes) (id : ScopeId) : Prop :=
  ∃ rest : List ScopeId, (id :: rest).IsChain (fun a b => s.parent? a = some b) ∧
    (id :: rest).getLast? = some .root ∧ (∀ a ∈ rest, a.index < id.index) ∧
    ∀ name, s.lookup id name =
        (id :: rest).findSome? (fun a => (s.binding? a name).map fun b => (a, b)) ∧
      s.lookupType id name = (id :: rest).findSome? (s.type? · name)

namespace Tree

theorem start : ({} : Scopes).Tree := by
  have hroot : ({} : Scopes).Has .root .root none := ⟨_, rfl, rfl, rfl⟩
  have honly : ∀ {id kind p}, ({} : Scopes).Has id kind p → id = .root := by
    intro id kind p h
    obtain ⟨i⟩ := id
    cases Nat.lt_one_iff.mp h.lt
    rfl
  refine ⟨hroot, fun {id kind p} h => ?_, fun {id kind parent} h => ?_⟩
  · obtain rfl := honly h
    obtain ⟨rfl, rfl⟩ := h.unique hroot
    exact ⟨iff_of_true rfl rfl, iff_of_true rfl rfl⟩
  · obtain rfl := honly h
    cases (h.unique hroot).2

theorem child (T : s.Tree) (hparent : s.Has parent kind p) (hkind : kind' ≠ .root) :
    (s.child parent kind' name).Tree := by
  have hnew : s.nextId ≠ .root := fun h => Nat.ne_of_gt T.root.lt (congrArg ScopeId.index h)
  refine ⟨T.root.child .., fun {id k q} h => ?_, fun {id k q} h => ?_⟩
  · rcases has_child_iff.mp h with ⟨rfl, rfl, rfl⟩ | h
    · exact ⟨iff_of_false hkind hnew, iff_of_false (Option.some_ne_none _) hnew⟩
    · exact T.rooted h
  · rcases has_child_iff.mp h with ⟨rfl, rfl, hq⟩ | h
    · cases hq
      exact ⟨hparent.lt, kind, p, hparent.child ..⟩
    · obtain ⟨hlt, k', q', h'⟩ := T.older h
      exact ⟨hlt, k', q', h'.child ..⟩

theorem congr (T : s.Tree) (h : ∀ id kind p, s'.Has id kind p ↔ s.Has id kind p) : s'.Tree where
  root := (h ..).mpr T.root
  rooted hs := T.rooted ((h ..).mp hs)
  older hs := by
    obtain ⟨hlt, kind', p', hparent⟩ := T.older ((h ..).mp hs)
    exact ⟨hlt, kind', p', (h ..).mpr hparent⟩

theorem nested (T : s.Tree) : s.Nested := by
  intro id parent h
  obtain ⟨kind, h⟩ := has_of_parent? h
  exact (T.older h).1

/-- The way outwards only meets scopes that exist, so it ends at the root. -/
theorem getLast?_chain (T : s.Tree) {rest : List ScopeId} (hid : s.Has id kind p)
    (hchain : (id :: rest).IsChain fun a b => s.parent? a = some b)
    (hend : ∀ b, (id :: rest).getLast? = some b → s.parent? b = none) :
    (id :: rest).getLast? = some .root := by
  induction rest generalizing id kind p with
  | nil =>
    have hnone : p = none := hid.parent?.symm.trans (hend id rfl)
    rw [(T.rooted hid).2.mp hnone]
    rfl
  | cons a rest ih =>
    obtain ⟨hparent, hrest⟩ := List.isChain_cons_cons.mp hchain
    obtain ⟨k, h⟩ := has_of_parent? hparent
    obtain ⟨_, k', q', ha⟩ := T.older h
    rw [List.getLast?_cons_cons] at hend ⊢
    exact ih ha hrest hend

theorem findsNearest (T : s.Tree) (hid : id.index < s.size) : s.FindsNearest id := by
  obtain ⟨rest, hchain, hend⟩ := T.nested.exists_chain id
  obtain ⟨kind, p, h⟩ := exists_has hid
  refine ⟨rest, hchain, T.getLast?_chain h hchain hend, T.nested.lt_of_chain hchain, fun name => ?_⟩
  rw [lookup, lookupType, T.nested.enclosing_eq hchain hend]
  exact ⟨rfl, rfl⟩

end Tree

end Scopes

/-! ## Scopes of classes and functions -/

namespace Symbols

variable {s s₁ s' : Symbols} {id : ScopeId} {kind : ScopeKind} {p : Option ScopeId}

/-- The scopes of the classes that have scopes. -/
def classScopes (s : Symbols) : List MemberScopes := s.types.filterMap (·.members)

/-- The scopes of the functions that have one. -/
def bodyScopes (s : Symbols) : List ScopeId := s.functions.filterMap (·.scope)

/-- Where a scope of each kind lies: that of a class in the root, that of objects in the one of their
class, that of a function in the root or in a scope of a class, and a block in a function or in
another block. -/
inductive Placed (s : Symbols) (id : ScopeId) : ScopeKind → Option ScopeId → Prop where
  | root (first : id = .root) : Placed s id .root none
  | static {m : MemberScopes} (hm : m ∈ s.classScopes) (own : m.static = id) :
    Placed s id .static (some .root)
  | object {m : MemberScopes} (hm : m ∈ s.classScopes) (own : m.object = id) :
    Placed s id .object (some m.static)
  | function {owner : ScopeId} {kind : ScopeKind} {p : Option ScopeId}
      (lies : s.scopes.Has owner kind p) (place : kind = .root ∨ kind = .static ∨ kind = .object) :
    Placed s id .function (some owner)
  | block {outer : ScopeId} {kind : ScopeKind} {p : Option ScopeId}
      (lies : s.scopes.Has outer kind p) (place : kind = .function ∨ kind = .block) :
    Placed s id .block (some outer)

/-- All scopes lie where those of their kind belong, and no two classes or functions share one. -/
structure ScopeTree (s : Symbols) : Prop extends s.scopes.Tree where
  placed : ∀ {id kind p}, s.scopes.Has id kind p → s.Placed id kind p
  classes : ∀ m ∈ s.classScopes,
    s.scopes.Has m.static .static (some .root) ∧ s.scopes.Has m.object .object (some m.static)
  distinct : (s.classScopes.map (·.static)).Nodup
  bodies : ∀ id ∈ s.bodyScopes, ∃ p, s.scopes.Has id .function p
  apart : s.bodyScopes.Nodup

/-- The scopes are a tree, in which names can be looked up from everywhere. -/
structure Searchable (s : Symbols) : Prop extends s.ScopeTree where
  nearest : ∀ id, id.index < s.scopes.size → s.scopes.FindsNearest id

theorem ScopeTree.searchable (T : s.ScopeTree) : s.Searchable :=
  ⟨T, fun _ hid => T.findsNearest hid⟩

/-- The same scopes lie at the same places, and they belong to the same classes and functions. -/
structure SameFrame (s s' : Symbols) : Prop where
  scopes : ∀ id kind p, s'.scopes.Has id kind p ↔ s.scopes.Has id kind p
  classes : s'.classScopes = s.classScopes
  bodies : s'.bodyScopes = s.bodyScopes

/-- How symbols come about from others by creating scopes. -/
inductive Unfolds (s : Symbols) : Symbols → Prop where
  | refl : Unfolds s s
  | same {s₁ s₂ : Symbols} (before : Unfolds s s₁) (same : s₁.SameFrame s₂) : Unfolds s s₂
  | block {s₁ : Symbols} (before : Unfolds s s₁) {outer : ScopeId} {kind : ScopeKind}
      {p : Option ScopeId} (lies : s₁.scopes.Has outer kind p)
      (place : kind = .function ∨ kind = .block) (name : String) :
    Unfolds s { s₁ with scopes := s₁.scopes.child outer .block name }
  | body {s₁ s₂ : Symbols} (before : Unfolds s s₁) {owner : ScopeId} {kind : ScopeKind}
      {p : Option ScopeId} {name : String} (lies : s₁.scopes.Has owner kind p)
      (place : kind = .root ∨ kind = .static ∨ kind = .object)
      (scopes : s₂.scopes = s₁.scopes.child owner .function name)
      (classes : s₂.classScopes = s₁.classScopes)
      (bodies : s₂.bodyScopes = s₁.bodyScopes ++ [s₁.scopes.nextId]) : Unfolds s s₂
  | members {s₁ s₂ : Symbols} (before : Unfolds s s₁) {m : MemberScopes} {name : String}
      (static : m.static = s₁.scopes.nextId)
      (object : m.object = (s₁.scopes.child .root .static name).nextId)
      (scopes : ∀ id kind p, s₂.scopes.Has id kind p ↔
        ((s₁.scopes.child .root .static name).child m.static .object name).Has id kind p)
      (classes : s₂.classScopes.Perm (m :: s₁.classScopes))
      (bodies : s₂.bodyScopes = s₁.bodyScopes) : Unfolds s s₂

theorem SameFrame.refl (s : Symbols) : s.SameFrame s := ⟨fun _ _ _ => .rfl, rfl, rfl⟩

theorem SameFrame.trans (H : s.SameFrame s₁) (H' : s₁.SameFrame s') : s.SameFrame s' where
  scopes id kind p := (H'.scopes id kind p).trans (H.scopes id kind p)
  classes := H'.classes.trans H.classes
  bodies := H'.bodies.trans H.bodies

theorem Unfolds.trans (U : s.Unfolds s₁) (U' : s₁.Unfolds s') : s.Unfolds s' := by
  induction U' with
  | refl => exact U
  | same _ same ih => exact .same ih same
  | block _ lies place name ih => exact .block ih lies place name
  | body _ lies place scopes classes bodies ih => exact .body ih lies place scopes classes bodies
  | members _ static object scopes classes bodies ih =>
    exact .members ih static object scopes classes bodies

/-- A scope stays where it is. -/
theorem Unfolds.has (U : s.Unfolds s') (h : s.scopes.Has id kind p) : s'.scopes.Has id kind p := by
  induction U with
  | refl => exact h
  | same _ same ih => exact (same.scopes ..).mpr ih
  | block _ _ _ _ ih => exact ih.child ..
  | body _ _ _ scopes _ _ ih =>
    rw [scopes]
    exact ih.child ..
  | members _ _ _ scopes _ _ ih => exact (scopes ..).mpr ((ih.child ..).child ..)

/-! ## What every change keeps -/

theorem Placed.mono (P : s.Placed id kind p)
    (hscopes : ∀ {id kind p}, s.scopes.Has id kind p → s'.scopes.Has id kind p)
    (hclasses : s.classScopes ⊆ s'.classScopes) : s'.Placed id kind p := by
  cases P with
  | root first => exact .root first
  | static hm own => exact .static (hclasses hm) own
  | object hm own => exact .object (hclasses hm) own
  | function lies place => exact .function (hscopes lies) place
  | block lies place => exact .block (hscopes lies) place

namespace ScopeTree

theorem start : ({} : Symbols).ScopeTree where
  toTree := .start
  placed {id kind p} h := by
    have hroot : ({} : Scopes).Has .root .root none := ⟨_, rfl, rfl, rfl⟩
    obtain ⟨i⟩ := id
    cases Nat.lt_one_iff.mp h.lt
    obtain ⟨rfl, rfl⟩ := h.unique hroot
    exact .root rfl
  classes _ hm := absurd hm List.not_mem_nil
  distinct := .nil
  bodies _ hid := absurd hid List.not_mem_nil
  apart := .nil

theorem same (T : s.ScopeTree) (H : s.SameFrame s') : s'.ScopeTree where
  toTree := T.toTree.congr H.scopes
  placed h := (T.placed ((H.scopes ..).mp h)).mono (H.scopes ..).mpr (H.classes ▸ List.Subset.refl _)
  classes m hm := by
    obtain ⟨hstatic, hobject⟩ := T.classes m (H.classes ▸ hm)
    exact ⟨(H.scopes ..).mpr hstatic, (H.scopes ..).mpr hobject⟩
  distinct := H.classes ▸ T.distinct
  bodies id hid := by
    obtain ⟨p, h⟩ := T.bodies id (H.bodies ▸ hid)
    exact ⟨p, (H.scopes ..).mpr h⟩
  apart := H.bodies ▸ T.apart

/-- A scope that belongs to no class is created. -/
theorem child (T : s.ScopeTree) {outer : ScopeId} {name : String} {kind' : ScopeKind}
    (lies : s.scopes.Has outer kind p) (hkind : kind' ≠ .root)
    (hnew : s'.Placed s.scopes.nextId kind' (some outer))
    (hscopes : s'.scopes = s.scopes.child outer kind' name)
    (hclasses : s'.classScopes = s.classScopes)
    (hbodies : ∀ id ∈ s'.bodyScopes, id ∈ s.bodyScopes ∨ kind' = .function ∧ id = s.scopes.nextId)
    (hapart : s'.bodyScopes.Nodup) : s'.ScopeTree where
  toTree := hscopes ▸ T.toTree.child lies hkind
  placed h := by
    rw [hscopes] at h
    rcases Scopes.has_child_iff.mp h with ⟨rfl, rfl, rfl⟩ | h
    · exact hnew
    · refine (T.placed h).mono (fun h => ?_) (hclasses ▸ List.Subset.refl _)
      rw [hscopes]
      exact h.child ..
  classes m hm := by
    obtain ⟨hstatic, hobject⟩ := T.classes m (hclasses ▸ hm)
    rw [hscopes]
    exact ⟨hstatic.child .., hobject.child ..⟩
  distinct := hclasses ▸ T.distinct
  bodies id hid := by
    rw [hscopes]
    rcases hbodies id hid with hid | ⟨rfl, rfl⟩
    · obtain ⟨p, h⟩ := T.bodies id hid
      exact ⟨p, h.child ..⟩
    · exact ⟨_, Scopes.has_child ..⟩
  apart := hapart

/-- The scopes of a class and of its objects are created. -/
theorem members (T : s.ScopeTree) {m : MemberScopes} {name : String}
    (hstatic : m.static = s.scopes.nextId)
    (hobject : m.object = (s.scopes.child .root .static name).nextId)
    (hscopes : ∀ id kind p, s'.scopes.Has id kind p ↔
      ((s.scopes.child .root .static name).child m.static .object name).Has id kind p)
    (hclasses : s'.classScopes.Perm (m :: s.classScopes)) (hbodies : s'.bodyScopes = s.bodyScopes) :
    s'.ScopeTree := by
  have hfirst : (s.scopes.child .root .static name).Has m.static .static (some .root) := by
    rw [hstatic]
    exact Scopes.has_child ..
  have hkeep : ∀ {id kind p}, s.scopes.Has id kind p → s'.scopes.Has id kind p :=
    fun h => (hscopes ..).mpr ((h.child ..).child ..)
  have hmem : m ∈ s'.classScopes := hclasses.symm.subset List.mem_cons_self
  refine ⟨?_, fun {id kind p} h => ?_, fun m' hm' => ?_, ?_, fun id hid => ?_, hbodies ▸ T.apart⟩
  · exact ((T.toTree.child T.root (by decide)).child hfirst (by decide)).congr hscopes
  · rcases Scopes.has_child_iff.mp ((hscopes ..).mp h) with ⟨rfl, rfl, rfl⟩ | h
    · exact .object hmem hobject
    · rcases Scopes.has_child_iff.mp h with ⟨rfl, rfl, rfl⟩ | h
      · exact .static hmem hstatic
      · exact (T.placed h).mono hkeep fun _ hm' => hclasses.symm.subset (List.mem_cons_of_mem m hm')
  · rcases List.mem_cons.mp (hclasses.subset hm') with rfl | hm'
    · refine ⟨(hscopes ..).mpr (hfirst.child ..), (hscopes ..).mpr ?_⟩
      rw [hobject]
      exact Scopes.has_child ..
    · exact (T.classes m' hm').imp hkeep hkeep
  · refine ((hclasses.map _).nodup_iff).mpr (List.nodup_cons.mpr ⟨fun hold => ?_, T.distinct⟩)
    obtain ⟨m', hm', hsame⟩ := List.mem_map.mp hold
    have hlt := (T.classes m' hm').1.lt
    rw [hsame.trans hstatic] at hlt
    exact Nat.lt_irrefl _ hlt
  · obtain ⟨p, h⟩ := T.bodies id (hbodies ▸ hid)
    exact ⟨p, hkeep h⟩

/-- Scopes that are created as they should be form a tree. -/
theorem unfolds (T : s.ScopeTree) (U : s.Unfolds s') : s'.ScopeTree := by
  induction U with
  | refl => exact T
  | same _ same ih => exact ih.same same
  | block _ lies place name ih =>
    exact ih.child lies (by decide) (.block (lies.child ..) place) rfl rfl (fun _ h => .inl h) ih.apart
  | @body s₁ s₂ _ owner kind p name lies place scopes classes bodies ih =>
    have hnew : s₁.scopes.nextId ∉ s₁.bodyScopes := by
      intro hmem
      obtain ⟨p, h⟩ := ih.bodies _ hmem
      exact Nat.lt_irrefl _ h.lt
    refine ih.child lies (by decide) (.function (by rw [scopes]; exact lies.child ..) place) scopes
      classes (fun id hid => ?_) ?_
    · rw [bodies] at hid
      exact (List.mem_append.mp hid).imp_right fun h => ⟨rfl, List.mem_singleton.mp h⟩
    · rw [bodies]
      exact List.nodup_append_comm.mp (List.nodup_cons.mpr ⟨hnew, ih.apart⟩)
  | members _ static object scopes classes bodies ih =>
    exact ih.members static object scopes classes bodies

end ScopeTree

end Symbols

end Stackless
