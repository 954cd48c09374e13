import Stackless.Proofs.Hierarchy
import Stackless.Proofs.Nesting

/-!
# The scopes of classes

Each class that is complete has a scope for the members that belong to it, inside the root, and one
for the members of its objects inside that. What they bind is their own, or taken over from the
class that is extended (`Scopes.Inherits`), which was completed before. While declarations go on,
only the root and the scopes of the newest class change (`Scopes.Growing`), and
`Scopes.Furnished` stays true.
-/

namespace Stackless

/-- The scope of the members that belong to the class itself, or of those that belong to its
objects. -/
def MemberScopes.side (m : MemberScopes) (isStatic : Bool) : ScopeId :=
  if isStatic then m.static else m.object

/-- A binding as the scope of a derived class takes it over. -/
def Binding.handedDown (b : Binding) : Binding := { b with inherited := true }

namespace Scopes

variable {s s' : Scopes} {id id' : ScopeId} {name : String} {done : List Completed} {x y : Completed}

/-! ## Taking over -/

theorem get?_inherit (scope : Scope) (bs : List (String × Binding)) (name : String) :
    (scope.inherit bs).bindings.get? name =
      (scope.bindings.get? name).or ((Dict.find name bs).map Binding.handedDown) := by
  induction bs generalizing scope with
  | nil => simp [Scope.inherit, Dict.find]
  | cons head rest ih =>
    obtain ⟨name', b⟩ := head
    simp only [Scope.inherit, Dict.find]
    by_cases hname : name' = name
    · subst hname
      rw [if_pos rfl]
      split
      · rename_i hbound
        obtain ⟨old, hold⟩ := Option.isSome_iff_exists.mp hbound
        rw [ih, hold, Option.some_or, Option.some_or]
      · rename_i hfree
        rw [ih, Dict.get?_put_self, Option.some_or]
        rw [Dict.contains, Bool.not_eq_true, Option.isSome_eq_false_iff, Option.isNone_iff_eq_none]
          at hfree
        rw [hfree, Option.none_or]
        rfl
    · rw [if_neg hname]
      split
      · exact ih scope
      · rw [ih, Dict.get?_put_of_ne _ _ hname]

/-- Names that the target lacks are bound in it as in the source. -/
theorem merge_bindings {source : ScopeId} {n : Nat} (h : s.merge id source = .ok (n, s'))
    (id' : ScopeId) (name : String) : s'.binding? id' name =
      if id = id' then
        (s.binding? id name).or ((s.binding? source name).map Binding.handedDown)
      else s.binding? id' name := by
  simp only [merge] at h
  split at h
  · cases h
  · split at h
    · cases h
    · cases h
    · rename_i giver taker hgiver htaker
      cases h
      by_cases hid : id = id'
      · subst hid
        rw [if_pos rfl]
        simp only [binding?, get?_replace_self htaker, htaker, hgiver]
        exact get?_inherit ..
      · rw [if_neg hid]
        simp only [binding?, get?_replace_of_ne hid]

/-- What the class that is extended binds to a name, as it is taken over. -/
def inherited? (s : Scopes) (base : Option Completed) (isStatic : Bool) (name : String) :
    Option Binding :=
  (base.bind fun y => s.binding? (y.scopes.side isStatic) name).map Binding.handedDown

/-- Every class binds its own names and, beyond that, what it takes over from the class that it
extends, which is older. -/
inductive Inherits (s : Scopes) : List Completed → Prop where
  | nil : Inherits s []
  | cons {x : Completed} {older : List Completed} {base : Option Completed}
      (rest : Inherits s older) (extended : x.base = base.map (·.key))
      (before : ∀ y ∈ base, y ∈ older)
      (members : ∀ isStatic name,
        s.binding? (x.scopes.side isStatic) name = s.inherited? base isStatic name ∨
          ∃ b, s.binding? (x.scopes.side isStatic) name = some b ∧ b.inherited = false) :
    Inherits s (x :: older)

theorem Inherits.congr (I : s.Inherits done)
    (h : ∀ y ∈ done, ∀ isStatic name, s'.binding? (y.scopes.side isStatic) name =
      s.binding? (y.scopes.side isStatic) name) : s'.Inherits done := by
  induction I with
  | nil => exact .nil
  | @cons x older base rest extended before members ih =>
    obtain ⟨hx, holder⟩ := List.forall_mem_cons.mp h
    refine .cons (ih holder) extended before fun isStatic name => ?_
    have hbase : s'.inherited? base isStatic name = s.inherited? base isStatic name := by
      cases base with
      | none => rfl
      | some y => simp only [inherited?, Option.bind_some, holder y (before y rfl)]
    rw [hx, hbase]
    exact members isStatic name

/-- A name that the newest class declares itself replaces what it took over. -/
theorem Inherits.declare (I : s.Inherits done) (hold : ∀ y ∈ done.tail, ∀ isStatic,
      id ≠ y.scopes.side isStatic) {symbol : Symbol} {span : Span}
    (hbind : ∀ id' name', s'.binding? id' name' =
      if id = id' ∧ name = name' then some { symbol, span } else s.binding? id' name') :
    s'.Inherits done := by
  cases I with
  | nil => exact .nil
  | @cons x older base rest extended before members =>
    have hrest : ∀ y ∈ older, ∀ isStatic name', s'.binding? (y.scopes.side isStatic) name' =
        s.binding? (y.scopes.side isStatic) name' := by
      intro y hy isStatic name'
      rw [hbind, if_neg fun h => hold y hy isStatic h.1]
    refine .cons (rest.congr hrest) extended before fun isStatic name' => ?_
    have hbase : s'.inherited? base isStatic name' = s.inherited? base isStatic name' := by
      cases base with
      | none => rfl
      | some y => simp only [inherited?, Option.bind_some, hrest y (before y rfl)]
    rw [hbind, hbase]
    split
    · exact .inr ⟨_, rfl, rfl⟩
    · exact members isStatic name'

/-! ## The scopes of all complete classes -/

/-- The scopes of the classes that are complete, the newest first. -/
structure Furnished (s : Scopes) (done : List Completed) : Prop where
  nested : s.Nested
  root : s.Has .root .root none
  static : ∀ x ∈ done, s.Has x.scopes.static .static (some .root)
  object : ∀ x ∈ done, s.Has x.scopes.object .object (some x.scopes.static)
  order : done.Pairwise fun x y => y.scopes.object.index < x.scopes.static.index
  inherits : s.Inherits done

/-- The scopes in which names can still be declared. -/
inductive Growing (done : List Completed) : ScopeId → Prop where
  | root : Growing done .root
  | member {x : Completed} (newest : x ∈ done.head?) (isStatic : Bool) :
    Growing done (x.scopes.side isStatic)

theorem furnished_start : ({} : Scopes).Furnished [] where
  nested := nested_start
  root := ⟨_, rfl, rfl, rfl⟩
  static := nofun
  object := nofun
  order := .nil
  inherits := .nil

namespace Furnished

theorem has_side (F : s.Furnished done) (hx : x ∈ done) (isStatic : Bool) :
    ∃ kind parent, s.Has (x.scopes.side isStatic) kind parent ∧ kind ≠ .function := by
  cases isStatic
  · exact ⟨_, _, F.object x hx, nofun⟩
  · exact ⟨_, _, F.static x hx, nofun⟩

theorem has_growing (F : s.Furnished done) (h : Growing done id) :
    ∃ kind parent, s.Has id kind parent ∧ kind ≠ .function := by
  cases h with
  | root => exact ⟨_, _, F.root, nofun⟩
  | member newest isStatic => exact F.has_side (List.mem_of_mem_head? newest) isStatic

theorem root_lt_static (F : s.Furnished done) (hx : x ∈ done) : 0 < x.scopes.static.index :=
  F.nested (F.static x hx).parent?

theorem static_lt_object (F : s.Furnished done) (hx : x ∈ done) :
    x.scopes.static.index < x.scopes.object.index :=
  F.nested (F.object x hx).parent?

/-- No scope lies between the static scope of a class and that of its objects. -/
theorem side_le (F : s.Furnished done) (hx : x ∈ done) (isStatic : Bool) :
    x.scopes.static.index ≤ (x.scopes.side isStatic).index ∧
      (x.scopes.side isStatic).index ≤ x.scopes.object.index := by
  have h := F.static_lt_object hx
  cases isStatic
  · exact ⟨Nat.le_of_lt h, Nat.le_refl _⟩
  · exact ⟨Nat.le_refl _, Nat.le_of_lt h⟩

/-- The scopes of classes other than the newest do not change any more. -/
theorem ne_of_growing (F : s.Furnished done) (h : Growing done id) :
    ∀ y ∈ done.tail, ∀ isStatic, id ≠ y.scopes.side isStatic := by
  intro y hy isStatic
  have hy' := List.mem_of_mem_tail hy
  cases h with
  | root =>
    intro he
    have h₁ := F.root_lt_static hy'
    have h₂ := (F.side_le hy' isStatic).1
    rw [← he] at h₂
    exact Nat.not_lt_zero _ (Nat.lt_of_lt_of_le h₁ h₂)
  | @member x newest isStatic' =>
    obtain ⟨older, rfl⟩ : ∃ older, done = x :: older := by
      cases done with
      | nil => cases newest
      | cons z older => cases newest; exact ⟨older, rfl⟩
    have hlt := (List.pairwise_cons.mp F.order).1 y hy
    have h₁ := (F.side_le List.mem_cons_self isStatic').1
    have h₂ := (F.side_le hy' isStatic).2
    intro he
    rw [he] at h₁
    omega

/-- What changes is no scope of a body. -/
theorem get?_of_function (F : s.Furnished done) (h : Growing done id) (C : s.Changes id s')
    {scope : Scope} (hget : s.get? id' = some scope) (hkind : scope.kind = .function) :
    s'.get? id' = some scope := by
  refine (C.others ?_).trans hget
  rintro rfl
  obtain ⟨kind, parent, ⟨scope', hget', hkind', _⟩, hne⟩ := F.has_growing h
  cases hget'.symm.trans hget
  exact hne (hkind'.symm.trans hkind)

theorem change (F : s.Furnished done) (C : s.Changes id s')
    (hinherits : s'.Inherits done) : s'.Furnished done where
  nested := F.nested.change C
  root := F.root.change C
  static x hx := (F.static x hx).change C
  object x hx := (F.object x hx).change C
  order := F.order
  inherits := hinherits

theorem declare (F : s.Furnished done) (hid : Growing done id) {symbol : Symbol} {span : Span}
    (h : s.declare id name symbol span = .ok s') : s'.Furnished done := by
  obtain ⟨C, _, hbind⟩ := declare_ok h
  exact F.change C (F.inherits.declare (F.ne_of_growing hid) hbind)

theorem declareType (F : s.Furnished done) {key : Key} {span : Span}
    (h : s.declareType id name key span = .ok s') : s'.Furnished done :=
  F.change (declareType_ok h) (F.inherits.congr fun _ _ _ _ => binding?_declareType h ..)

theorem child (F : s.Furnished done) {parent : ScopeId} (h : parent.index < s.size)
    (kind : ScopeKind) (name : String) : (s.child parent kind name).Furnished done where
  nested := F.nested.child h kind name
  root := F.root.child ..
  static x hx := (F.static x hx).child ..
  object x hx := (F.object x hx).child ..
  order := F.order
  inherits := F.inherits.congr fun _ _ _ _ => binding?_child ..

end Furnished

/-! ## A new class -/

/-- The scopes of a class take over what those of another one bind. -/
structure TakesOver (s : Scopes) (m : MemberScopes) (base : Option MemberScopes) (s' : Scopes) :
    Prop where
  has : ∀ {id kind parent}, s.Has id kind parent → s'.Has id kind parent
  nested : s.Nested → s'.Nested
  size : s'.size = s.size
  types : ∀ id name, s'.type? id name = s.type? id name
  others : ∀ {id}, id ≠ m.static → id ≠ m.object → s'.get? id = s.get? id
  bindings : ∀ isStatic name, s'.binding? (m.side isStatic) name =
    (s.binding? (m.side isStatic) name).or
      ((base.bind fun b => s.binding? (b.side isStatic) name).map Binding.handedDown)

theorem TakesOver.none (s : Scopes) (m : MemberScopes) : s.TakesOver m none s where
  has h := h
  nested h := h
  size := rfl
  types _ _ := rfl
  others _ _ := rfl
  bindings _ _ := by rw [Option.bind_none, Option.map_none, Option.or_none]

theorem TakesOver.merges {m b : MemberScopes} {s₁ : Scopes} {n n' : Nat} (hne : m.static ≠ m.object)
    (hb : m.static ≠ b.object) (hstatic : s.merge m.static b.static = .ok (n, s₁))
    (hobject : s₁.merge m.object b.object = .ok (n', s')) : s.TakesOver m (some b) s' where
  has h := (h.change (merge_ok hstatic)).change (merge_ok hobject)
  nested h := (h.change (merge_ok hstatic)).change (merge_ok hobject)
  size := (merge_ok hobject).size.trans (merge_ok hstatic).size
  types id name := (type?_merge hobject id name).trans (type?_merge hstatic id name)
  others h h' :=
    ((merge_ok hobject).others (Ne.symm h')).trans ((merge_ok hstatic).others (Ne.symm h))
  bindings isStatic name := by
    cases isStatic
    · change s'.binding? m.object name = (s.binding? m.object name).or
        ((s.binding? b.object name).map Binding.handedDown)
      rw [merge_bindings hobject, if_pos rfl, merge_bindings hstatic, if_neg hne,
        merge_bindings hstatic, if_neg hb]
    · change s'.binding? m.static name = (s.binding? m.static name).or
        ((s.binding? b.static name).map Binding.handedDown)
      rw [merge_bindings hobject, if_neg (Ne.symm hne), merge_bindings hstatic, if_pos rfl]

theorem binding?_of_size_le (h : s.size ≤ id.index) (name : String) : s.binding? id name = none := by
  have hget : s.get? id = none := Array.getElem?_eq_none h
  simp only [binding?, hget]

theorem TakesOver.binding?_eq {m : MemberScopes} {base : Option MemberScopes}
    (T : s.TakesOver m base s') (hstatic : id ≠ m.static) (hobject : id ≠ m.object) (name : String) :
    s'.binding? id name = s.binding? id name := by
  simp only [binding?, T.others hstatic hobject]

/-- What a scope binds afterwards was bound somewhere before. -/
theorem TakesOver.exists_origin {m : MemberScopes} {base : Option MemberScopes}
    (T : s.TakesOver m base s') {b : Binding} (h : s'.binding? id name = some b) :
    ∃ id' b', s.binding? id' name = some b' ∧ b'.symbol = b.symbol := by
  by_cases hside : ∃ isStatic, m.side isStatic = id
  · obtain ⟨isStatic, rfl⟩ := hside
    rw [T.bindings] at h
    rcases Option.or_eq_some_iff.mp h with h | ⟨_, h⟩
    · exact ⟨_, b, h, rfl⟩
    · obtain ⟨b', hb', rfl⟩ := Option.map_eq_some_iff.mp h
      obtain ⟨m', _, hb'⟩ := Option.bind_eq_some_iff.mp hb'
      exact ⟨_, b', hb', rfl⟩
  · have hstatic : id ≠ m.static := fun he => hside ⟨true, he.symm⟩
    have hobject : id ≠ m.object := fun he => hside ⟨false, he.symm⟩
    exact ⟨id, b, (T.binding?_eq hstatic hobject name).symm.trans h, rfl⟩

/-- The scopes of a new class are created and take over what it extends. -/
theorem Furnished.addClass (F : s.Furnished done) {className : String} {base : Option Completed}
    (hbase : ∀ y ∈ base, y ∈ done) (hextended : x.base = base.map (·.key))
    (hstatic : x.scopes.static = s.nextId) (hobject : x.scopes.object = ⟨s.size + 1⟩)
    (T : ((s.child .root .static className).child s.nextId .object className).TakesOver x.scopes
      (base.map (·.scopes)) s') : s'.Furnished (x :: done) := by
  have hsize : (s.child .root .static className).size = s.size + 1 := size_child ..
  have F₁ := F.child F.root.lt .static className
  have F₂ := F₁.child (hsize ▸ Nat.lt_succ_self _ : s.nextId.index < _) .object className
  have hnew : ∀ {y}, y ∈ done → ∀ isStatic,
      y.scopes.side isStatic ≠ x.scopes.static ∧ y.scopes.side isStatic ≠ x.scopes.object := by
    intro y hy isStatic
    have hlt := Nat.lt_of_le_of_lt (F.side_le hy isStatic).2 (F.object y hy).lt
    constructor
    · intro he
      rw [he, hstatic] at hlt
      exact Nat.lt_irrefl _ hlt
    · intro he
      rw [he, hobject] at hlt
      exact Nat.not_succ_lt_self hlt
  have hold : ∀ y ∈ done, ∀ isStatic name, s'.binding? (y.scopes.side isStatic) name =
      ((s.child .root .static className).child s.nextId .object className).binding?
        (y.scopes.side isStatic) name := by
    intro y hy isStatic name
    exact T.binding?_eq (hnew hy isStatic).1 (hnew hy isStatic).2 name
  refine
    { nested := T.nested F₂.nested
      root := T.has F₂.root
      static := ?_
      object := ?_
      order := List.pairwise_cons.mpr ⟨fun y hy => ?_, F.order⟩
      inherits := .cons (F₂.inherits.congr hold) hextended hbase fun isStatic name => .inl ?_ }
  · refine List.forall_mem_cons.mpr ⟨?_, fun y hy => T.has (F₂.static y hy)⟩
    rw [hstatic]
    exact T.has ((has_child ..).child ..)
  · refine List.forall_mem_cons.mpr ⟨?_, fun y hy => T.has (F₂.object y hy)⟩
    have hnext : (s.child .root .static className).nextId = ⟨s.size + 1⟩ := by rw [nextId, hsize]
    rw [hobject, hstatic, ← hnext]
    exact T.has (has_child ..)
  · rw [hstatic]
    exact (F.object y hy).lt
  · have hfresh : s.binding? (x.scopes.side isStatic) name = none := by
      refine binding?_of_size_le ?_ name
      cases isStatic
      · exact (congrArg ScopeId.index hobject) ▸ Nat.le_succ _
      · exact (congrArg ScopeId.index hstatic) ▸ Nat.le_refl _
    rw [T.bindings, binding?_child, binding?_child, hfresh, Option.none_or]
    cases base with
    | none => rfl
    | some y => simp only [inherited?, Option.map_some, Option.bind_some, hold y (hbase y rfl)]

end Scopes

end Stackless
