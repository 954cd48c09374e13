import Stackless.Proofs.Inventory

/-!
# The inventory of the declared classes

What the steps of a pass that completes classes enter in the ledger: the members of each class when
it is closed (`Ledger.Inventory.closes`), one class after the other
(`Ledger.Inventory.advances`).
-/

namespace Stackless

/-! ## The members of a class -/

/-- The scope that binds the name of a method, with the method. -/
def Member.method? (c : ClassDef) (m : MemberScopes) : Member → Option (ScopeId × FunctionEntry)
  | .method f => some (m.side f.isStatic, .ofMethodDef c f)
  | .constructor _ | .field _ => none

namespace Ledger

variable {L : Ledger} {script : Script} {c : ClassDef} {m : MemberScopes} {x : Completed}
  {y : Member} {before after : List Member} {s s' : Stage Declarations} {u : Unit}

def addMember (L : Ledger) (c : ClassDef) (m : MemberScopes) : Member → Ledger
  | .method f => L.addFunction (m.side f.isStatic) (.ofMethodDef c f) (.method c.key f.name.name, f) true
  | .constructor f =>
    L.addFunction m.object (.ofConstructorDef c f false) (.constructor c.key f.params.length, f) false
  | .field v => L.addVariable (m.side v.isStatic) v

theorem addMember_done (L : Ledger) (c : ClassDef) (m : MemberScopes) (y : Member) :
    (L.addMember c m y).done = L.done := by
  cases y <;> rfl

theorem addMember_functions (L : Ledger) (c : ClassDef) (m : MemberScopes) (y : Member) :
    (L.addMember c m y).functions = L.functions ++ (y.function? c.key).toList := by
  cases y with
  | method | constructor => rfl
  | field => exact (List.append_nil _).symm

theorem addMember_variableDefs (L : Ledger) (c : ClassDef) (m : MemberScopes) (y : Member) :
    (L.addMember c m y).variableDefs = L.variableDefs ++ y.toField?.toList := by
  cases y with
  | method | constructor => exact (List.append_nil _).symm
  | field => rfl

theorem side_inj (h : m.static ≠ m.object) {a b : Bool} : m.side a = m.side b ↔ a = b := by
  cases a <;> cases b <;> simp [MemberScopes.side, h, h.symm]

theorem addMember_names (h : m.static ≠ m.object) (isStatic : Bool) :
    (L.addMember c m y).names (m.side isStatic) =
      L.names (m.side isStatic) ++ (y.declares? isStatic).toList := by
  cases y with
  | constructor => exact (List.append_nil _).symm
  | method f =>
    simp only [addMember, addFunction, if_true, addName, side_inj h, Member.declares?]
    split <;> simp
  | field v =>
    simp only [addMember, addVariable, addName, side_inj h, Member.declares?]
    split <;> simp

theorem addMember_names_of_ne {id : ScopeId} (h : ∀ isStatic, m.side isStatic ≠ id) :
    (L.addMember c m y).names id = L.names id := by
  cases y with
  | method f => exact if_neg (h f.isStatic)
  | constructor => rfl
  | field v => exact if_neg (h v.isStatic)

theorem names_subset_addMember (L : Ledger) (c : ClassDef) (m : MemberScopes) (y : Member)
    (id : ScopeId) : L.names id ⊆ (L.addMember c m y).names id := by
  cases y with
  | method | field => exact fun _ h => mem_addName h
  | constructor => exact List.Subset.refl _

theorem mem_names_addMember {isStatic : Bool} {name : Ident} (h : y.declares? isStatic = some name) :
    name ∈ (L.addMember c m y).names (m.side isStatic) := by
  cases y with
  | constructor => cases h
  | method f | field f =>
    obtain ⟨rfl, hname⟩ := Option.ite_none_right_eq_some.mp h
    cases hname
    change f.name ∈ addName L.names (m.side f.isStatic) f.name (m.side f.isStatic)
    rw [addName_self]
    exact List.mem_append_right _ (List.mem_singleton_self _)

/-- A name that a class declares after it declared it before. -/
theorem declaresTwice_of_members (hc : script.Registers c) (hmembers : c.members = before ++ y :: after)
    {isStatic : Bool} {name name' : Ident} (hname : y.declares? isStatic = some name)
    (hbefore : name' ∈ before.filterMap (·.declares? isStatic)) (same : name'.name = name.name) :
    script.DeclaresTwice name' name := by
  refine .member hc isStatic ?_ same
  rw [ClassDef.names, hmembers, List.filterMap_append, List.filterMap_cons_some hname]
  have hfirst : [name'].Sublist (before.filterMap (·.declares? isStatic)) :=
    List.singleton_sublist.mpr hbefore
  exact hfirst.append ((List.nil_sublist _).cons_cons name)

theorem Inventory.member (I : L.Inventory script s) (hx : x ∈ L.done.head?)
    (hc : script.Registers x.source) (hmembers : x.source.members = before ++ y :: after)
    (hnames : ∀ isStatic, L.names (x.scopes.side isStatic) =
      before.filterMap (·.declares? isStatic))
    (hall : (L.functions ++ (y.function? x.source.key).toList).Subperm script.functions)
    (h : Declare.member x.source x.scopes y s = .ok u s') :
    (L.addMember x.source x.scopes y).Inventory script s' := by
  have hdone := List.mem_of_mem_head? hx
  have htwice : ∀ {isStatic : Bool} {name : Ident}, y.declares? isStatic = some name →
      ∀ name' ∈ L.names (x.scopes.side isStatic), name'.name = name.name →
        script.DeclaresTwice name' name := by
    intro isStatic name hname name' hname' same
    rw [hnames] at hname'
    exact declaresTwice_of_members hc hmembers hname hname' same
  cases y with
  | method f =>
    have hlives : (FunctionEntry.ofMethodDef x.source f).LivesIn L.done
        (x.scopes.side (f.isStatic && !false)) := .member hdone rfl
    rw [Bool.not_false, Bool.and_true] at hlives
    refine I.adds (Declare.adds_of_function h) (.member hx f.isStatic) hlives ⟨rfl, rfl, rfl⟩ rfl hall
      rfl (fun _ => ⟨rfl, rfl⟩) (fun _ => htwice ?_)
    simp only [Member.declares?, if_true]
  | constructor f =>
    have hlives : (FunctionEntry.ofConstructorDef x.source f false).LivesIn L.done
        (x.scopes.side (f.isStatic && !true)) := .member hdone rfl
    rw [Bool.not_true, Bool.and_false] at hlives
    have his : (FunctionEntry.ofConstructorDef x.source f false).Is
        (.constructor x.source.key f.params.length, f) :=
      ⟨congrArg _ (List.length_map ..), rfl, rfl⟩
    exact I.adds (Declare.adds_of_constructor h) (.member hx false) hlives his rfl hall rfl nofun nofun
  | field v =>
    refine I.addsVariable (Declare.addsVariable_of_variableDef h) (.member hx v.isStatic) ?_
      (htwice ?_)
    · intro expr hexpr
      refine .field hdone ?_ hexpr rfl
      rw [ClassDef.fields, hmembers]
      exact List.mem_filterMap.mpr ⟨.field v, List.mem_append_right _ List.mem_cons_self, rfl⟩
    · simp only [Member.declares?, if_true]

/-- The ledger after all members in a list. -/
def addMembers (L : Ledger) (c : ClassDef) (m : MemberScopes) (ys : List Member) : Ledger :=
  ys.foldl (fun L y => L.addMember c m y) L

theorem addMembers_done (L : Ledger) (c : ClassDef) (m : MemberScopes) (ys : List Member) :
    (L.addMembers c m ys).done = L.done := by
  induction ys generalizing L with
  | nil => rfl
  | cons y ys ih => exact (ih (L.addMember c m y)).trans (L.addMember_done c m y)

theorem addMembers_functions (L : Ledger) (c : ClassDef) (m : MemberScopes) (ys : List Member) :
    (L.addMembers c m ys).functions = L.functions ++ ys.filterMap (·.function? c.key) := by
  induction ys generalizing L with
  | nil => exact (List.append_nil _).symm
  | cons y ys ih =>
    refine (ih (L.addMember c m y)).trans ?_
    rw [addMember_functions, List.append_assoc, filterMap_cons_toList]

theorem addMember_bound (L : Ledger) (c : ClassDef) (m : MemberScopes) (y : Member) :
    (L.addMember c m y).bound = L.bound ++ (y.method? c m).toList := by
  cases y with
  | method => rfl
  | constructor | field => exact (List.append_nil _).symm

theorem addMembers_variableDefs (L : Ledger) (c : ClassDef) (m : MemberScopes) (ys : List Member) :
    (L.addMembers c m ys).variableDefs = L.variableDefs ++ ys.filterMap Member.toField? := by
  induction ys generalizing L with
  | nil => exact (List.append_nil _).symm
  | cons y ys ih =>
    refine (ih (L.addMember c m y)).trans ?_
    rw [addMember_variableDefs, List.append_assoc, filterMap_cons_toList]

theorem addMembers_bound (L : Ledger) (c : ClassDef) (m : MemberScopes) (ys : List Member) :
    (L.addMembers c m ys).bound = L.bound ++ ys.filterMap (·.method? c m) := by
  induction ys generalizing L with
  | nil => exact (List.append_nil _).symm
  | cons y ys ih =>
    refine (ih (L.addMember c m y)).trans ?_
    rw [addMember_bound, List.append_assoc, filterMap_cons_toList]

theorem addMembers_names_of_ne {id : ScopeId} (h : ∀ isStatic, m.side isStatic ≠ id)
    (L : Ledger) (ys : List Member) : (L.addMembers c m ys).names id = L.names id := by
  induction ys generalizing L with
  | nil => rfl
  | cons y ys ih => exact (ih (L.addMember c m y)).trans (addMember_names_of_ne h)

theorem names_subset_addMembers (L : Ledger) (c : ClassDef) (m : MemberScopes) (ys : List Member)
    (id : ScopeId) : L.names id ⊆ (L.addMembers c m ys).names id := by
  induction ys generalizing L with
  | nil => exact List.Subset.refl _
  | cons y ys ih =>
    exact List.Subset.trans (names_subset_addMember L c m y id) (ih (L.addMember c m y))

theorem mem_names_addMembers {ys : List Member} {isStatic : Bool} {name : Ident} (hy : y ∈ ys)
    (h : y.declares? isStatic = some name) :
    name ∈ (L.addMembers c m ys).names (m.side isStatic) := by
  induction ys generalizing L with
  | nil => cases hy
  | cons z ys ih =>
    rcases List.mem_cons.mp hy with rfl | hy
    · exact names_subset_addMembers _ c m ys _ (mem_names_addMember h)
    · exact ih (L := L.addMember c m z) hy

/-- Declaring members adds a line for each. -/
theorem Inventory.members (I : L.Inventory script s) (hx : x ∈ L.done.head?)
    (hc : script.Registers x.source) (hmembers : x.source.members = before ++ after)
    (hnames : ∀ isStatic, L.names (x.scopes.side isStatic) =
      before.filterMap (·.declares? isStatic))
    (hall : (L.functions ++ after.filterMap (·.function? x.source.key)).Subperm script.functions)
    (h : Declare.members x.source x.scopes after s = .ok u s') :
    (L.addMembers x.source x.scopes after).Inventory script s' := by
  induction after generalizing L before s with
  | nil =>
    cases h
    exact I
  | cons y rest ih =>
    obtain ⟨_, s₁, hmember, hrest⟩ := exists_of_bind h
    rw [filterMap_cons_toList, ← List.append_assoc] at hall
    have hfirst := (List.sublist_append_left _ _).subperm.trans hall
    have I₁ := I.member hx hc hmembers hnames hfirst hmember
    have hne : x.scopes.static ≠ x.scopes.object := by
      intro he
      have hlt := I.housing.scopes.static_lt_object (List.mem_of_mem_head? hx)
      rw [he] at hlt
      exact Nat.lt_irrefl _ hlt
    have hsplit : x.source.members = (before ++ [y]) ++ rest := by
      rw [hmembers, List.append_assoc, List.singleton_append]
    refine ih I₁ ?_ hsplit ?_ ?_ hrest
    · rwa [addMember_done]
    · intro isStatic
      rw [addMember_names hne, hnames, List.filterMap_append, filterMap_cons_toList,
        List.filterMap_nil, List.append_nil]
    · rwa [addMember_functions]

end Ledger

/-! ## Closing a class -/

theorem ClassDef.Blames.concernsType {c : ClassDef} {ref : TypeRef} {p : Problem}
    (h : c.Blames ref p) : p.ConcernsType := by
  cases h with
  | invalid => exact .invalidBase ..
  | unknown => exact .unknown ..
  | circular => exact .circular ..

namespace Declare

variable {g : Outline} {classes : List ClassDef} {opens : List Begun} {done cut : List Completed}
  {c : ClassDef} {gs : List Generic} {s s' : Stage Declarations} {u : Unit}

/-- Looking at an `extends` clause only adds problems with it. -/
theorem extended_ok (K : g.Kept s) (C : g.Completing classes (⟨c, gs⟩ :: opens) done cut)
    (hnext : ∀ b, Begun.PointsTo g.roots ⟨c, gs⟩ b →
      b ∈ opens.map (·.key) ∨ b ∈ done.map (·.key))
    {base : Option (Key × MemberScopes)} (h : extended c gs s = .ok base s') :
    ∃ (clause : BaseClause) (y : Option Completed), c.baseClause s.work.symbols gs = .ok clause ∧
      s' = { s with problems := s.problems ++ clause.problems } ∧
      (∀ p ∈ clause.problems, p.ConcernsType) ∧ (∀ z ∈ y, z ∈ done) ∧
      clause.base? = y.map (·.key) ∧ base = y.map fun z => (z.key, z.scopes) := by
  obtain ⟨symbols, s₁, hsymbols, h⟩ := exists_of_bind h
  cases hsymbols
  obtain ⟨clause, hclause, V⟩ := Begun.judged (x := ⟨c, gs⟩) K
    (fun y hy => C.opened y (List.mem_cons_of_mem _ hy)) C.closed hnext
  change c.baseClause s.work.symbols gs = .ok clause at hclause
  rw [hclause] at h
  refine ⟨clause, ?_⟩
  cases V with
  | absent =>
    cases h
    exact ⟨none, hclause, by rw [BaseClause.problems, List.append_nil],
      fun _ hp => absurd hp List.not_mem_nil, fun _ hz => absurd hz (Option.not_mem_none _), rfl, rfl⟩
  | refused href blames unfit =>
    cases h
    exact ⟨none, hclause, rfl, fun p hp => (blames p hp).1.concernsType,
      fun _ hz => absurd hz (Option.not_mem_none _), rfl, rfl⟩
  | circular =>
    cases h
    exact ⟨none, hclause, rfl, fun p hp => List.mem_singleton.mp hp ▸ .circular ..,
      fun _ hz => absurd hz (Option.not_mem_none _), rfl, rfl⟩
  | @accepted y points isDone fits =>
    cases h
    refine ⟨some y, hclause, by rw [BaseClause.problems, List.append_nil],
      fun _ hp => absurd hp List.not_mem_nil, fun z hz => ?_, rfl, rfl⟩
    cases hz
    exact isDone

theorem lift_merge_ok {target source : ScopeId} {n : Nat}
    (h : (Pass.lift (Workspace.merge target source) : Declare Nat) s = .ok n s') :
    ∃ scopes, s.work.symbols.scopes.merge target source = .ok (n, scopes) ∧
      s' = { s with work := { s.work with symbols := { s.work.symbols with scopes } } } := by
  simp only [Pass.lift, Workspace.merge] at h
  cases hmerge : s.work.symbols.scopes.merge target source with
  | error f =>
    simp only [hmerge] at h
    cases h
  | ok r =>
    simp only [hmerge] at h
    cases h
    exact ⟨r.2, rfl, rfl⟩

theorem takesOver_of_inheritFrom {m : MemberScopes} {base : Option MemberScopes}
    (hne : m.static ≠ m.object) (hbase : ∀ b ∈ base, m.static ≠ b.object)
    (h : inheritFrom m base s = .ok u s') :
    ∃ scopes, s.work.symbols.scopes.TakesOver m base scopes ∧
      s' = { s with work := { s.work with symbols := { s.work.symbols with scopes } } } := by
  cases base with
  | none =>
    cases h
    exact ⟨s.work.symbols.scopes, .none _ _, rfl⟩
  | some b =>
    obtain ⟨n, s₁, hstatic, h⟩ := exists_of_bind h
    obtain ⟨n', s₂, hobject, h⟩ := exists_of_bind h
    cases h
    obtain ⟨scopes, hmerge, rfl⟩ := lift_merge_ok hstatic
    obtain ⟨scopes', hmerge', rfl⟩ := lift_merge_ok hobject
    exact ⟨scopes', .merges hne (hbase b rfl) hmerge hmerge', rfl⟩

theorem updateType_ok {key : Key} {f : TypeEntry → TypeEntry} (h : updateType key f s = .ok u s') :
    s' = { s with work := { s.work with symbols := s.work.symbols.updateType key f } } := by
  cases ht : s.work.symbols.type? key with
  | some t =>
    rw [updateType_eq ht] at h
    cases h
    rfl
  | none =>
    obtain ⟨symbols, s₁, hsymbols, h⟩ := exists_of_bind h
    cases hsymbols
    rw [ht] at h
    cases h

theorem types_of_member {m : MemberScopes} {y : Member} (h : member c m y s = .ok u s') :
    s'.work.symbols.types = s.work.symbols.types := by
  cases y with
  | method f => exact (adds_of_function h).types
  | constructor f => exact (adds_of_constructor h).types
  | field v => exact (addsVariable_of_variableDef h).types

theorem types_of_members {m : MemberScopes} {ys : List Member} (h : members c m ys s = .ok u s') :
    s'.work.symbols.types = s.work.symbols.types := by
  induction ys generalizing s with
  | nil =>
    cases h
    rfl
  | cons y rest ih =>
    obtain ⟨_, s₁, hmember, hrest⟩ := exists_of_bind h
    exact (ih hrest).trans (types_of_member hmember)

/-- What registering a type comes to. -/
theorem attempt_addType {t : TypeEntry} {r : Option Unit}
    (h : Pass.attempt (Workspace.addType t) s = .ok r s') :
    (r = some () ∧ t.key ∉ s.work.symbols.types.map (·.key) ∧
      s' = { s with work := { s.work with symbols := { s.work.symbols with
        types := s.work.symbols.types ++ [t] } } }) ∨
    (r = none ∧ t.key ∈ s.work.symbols.types.map (·.key) ∧
      s' = { s with problems := s.problems ++ [.redefined "type" t.name t.span] }) := by
  simp only [Pass.attempt, Workspace.addType, Workspace.onSymbols, Symbols.addType] at h
  cases hfree : s.work.symbols.type? t.key with
  | some t' =>
    rw [hfree] at h
    cases h
    refine .inr ⟨rfl, ?_, rfl⟩
    have hkey : t'.key = t.key := of_decide_eq_true (List.find?_some hfree :)
    exact hkey ▸ List.mem_map_of_mem (List.mem_of_find?_eq_some hfree)
  | none =>
    rw [hfree] at h
    cases h
    refine .inl ⟨rfl, fun hmem => ?_, rfl⟩
    obtain ⟨t', ht', hkey⟩ := List.mem_map.mp hmem
    exact List.find?_eq_none.mp hfree t' ht' (by simpa using hkey)

/-- What binding the name of a type comes to. -/
theorem attempt_declareType {scope : ScopeId} {name : String} {key : Key} {span : Span}
    {r : Option Unit}
    (h : Pass.attempt (Workspace.onScopes fun scopes => scopes.declareType scope name key span) s =
      .ok r s') :
    (∃ scopes, s.work.symbols.scopes.declareType scope name key span = .ok scopes ∧
      s' = { s with work := { s.work with symbols := { s.work.symbols with scopes } } }) ∨
    (s.work.symbols.scopes.type? scope name ≠ none ∧
      s' = { s with problems := s.problems ++ [.redefined "type" name span] }) := by
  simp only [Pass.attempt, Workspace.onScopes, Workspace.onSymbols] at h
  cases hbind : s.work.symbols.scopes.declareType scope name key span with
  | ok scopes =>
    rw [hbind] at h
    cases h
    exact .inl ⟨scopes, rfl, rfl⟩
  | error r =>
    rw [hbind] at h
    cases r with
    | fault f => cases h
    | problem p =>
      cases h
      refine .inr ⟨Scopes.declareType_problem hbind, ?_⟩
      simp only [Scopes.declareType] at hbind
      split at hbind
      · cases hbind
      · split at hbind
        · cases hbind
          rfl
        · cases hbind

theorem types_of_bindGeneric {scope : ScopeId} {y : Generic} (h : bindGeneric scope y s = .ok u s') :
    s'.work.symbols.types = s.work.symbols.types := by
  obtain ⟨r, s₁, hbound, h⟩ := exists_of_bind h
  cases h
  rcases attempt_declareType hbound with ⟨scopes, _, rfl⟩ | ⟨_, rfl⟩
  · rfl
  · rfl

theorem types_of_bindGenerics {m : MemberScopes} (h : bindGenerics m gs s = .ok u s') :
    s'.work.symbols.types = s.work.symbols.types := by
  induction gs generalizing s with
  | nil =>
    cases h
    rfl
  | cons y rest ih =>
    obtain ⟨_, s₁, hstatic, h⟩ := exists_of_bind h
    obtain ⟨_, s₂, hobject, h⟩ := exists_of_bind h
    exact (ih h).trans ((types_of_bindGeneric hobject).trans (types_of_bindGeneric hstatic))

/-- The entry of the constructor that a class gets. -/
def suppliedEntry (c : ClassDef) : FunctionEntry := .ofConstructorDef c (defaultConstructor c) true

/-- What closing a class does, step by step. -/
inductive Closes (done : List Completed) (x : Completed) (s : Stage Declarations) :
    Stage Declarations → Prop where
  | intro {clause : BaseClause} {base : Option Completed} {scopes : Scopes}
      {s₁ s₂ s₃ : Stage Declarations} {types types' : List TypeEntry} {typeCount : Nat} {u u' : Unit}
      (judged : x.source.baseClause s.work.symbols x.generics = .ok clause)
      (reported : ∀ p ∈ clause.problems, p.ConcernsType) (before : ∀ y ∈ base, y ∈ done)
      (accepted : clause.base? = base.map (·.key)) (extended : x.base = base.map (·.key))
      (static : x.scopes.static = s.work.symbols.scopes.nextId)
      (object : x.scopes.object = ⟨s.work.symbols.scopes.size + 1⟩)
      (takesOver : ((s.work.symbols.scopes.child .root .static x.source.name.name).child
        s.work.symbols.scopes.nextId .object x.source.name.name).TakesOver x.scopes
          (base.map (·.scopes)) scopes)
      (generics : bindGenerics x.scopes x.generics
        { s with
          work := { s.work with symbols := { s.work.symbols with scopes } }
          problems := s.problems ++ clause.problems } = .ok u s₁)
      (filled : types = s₁.work.symbols.types.map fun t => if t.key = x.key then
        { t with base := x.base, members := some x.scopes, generics := x.generics.map (·.key) } else t)
      (members : members x.source x.scopes x.source.members
        { s₁ with work := { s₁.work with symbols := { s₁.work.symbols with types } } } = .ok u' s₂)
      (supplied : if x.source.members.any (·.isConstructor) then s₃ = s₂
        else ∃ u, constructor (suppliedEntry x.source) x.scopes.object (defaultConstructor x.source)
          s₂ = .ok u s₃)
      (resolved : types' = s₃.work.symbols.types.map fun t => if t.key = x.key then
        { t with progress := .resolved } else t) :
    Closes done x s
      { s₃ with
        work := { s₃.work with symbols := { s₃.work.symbols with types := types' } }
        report := { s₃.report with typeCount } }

/-- The scopes that a class is about to get. -/
def newScopes (s : Scopes) (className : String) : MemberScopes :=
  ⟨s.nextId, (s.child .root .static className).nextId⟩

/-- The new scopes take over what those of the extended class bind. -/
theorem takesOver_newScopes {base : Option Completed} {className : String}
    (hold : g.size ≤ s.work.symbols.scopes.size) (C : g.Completing classes opens done cut)
    (hbase : ∀ y ∈ base, y ∈ done)
    (h : inheritFrom (newScopes s.work.symbols.scopes className) (base.map (·.scopes))
      { s with work := { s.work with symbols := { s.work.symbols with
        scopes := (s.work.symbols.scopes.child .root .static className).child
          s.work.symbols.scopes.nextId .object className } } } = .ok u s') :
    ∃ scopes, ((s.work.symbols.scopes.child .root .static className).child
        s.work.symbols.scopes.nextId .object className).TakesOver
          (newScopes s.work.symbols.scopes className) (base.map (·.scopes)) scopes ∧
      s' = { s with work := { s.work with symbols := { s.work.symbols with scopes } } } := by
  refine takesOver_of_inheritFrom (fun he => ?_) (fun b hb he => ?_) h
  · have hsize := Scopes.size_child s.work.symbols.scopes .root .static className
    have hindex : s.work.symbols.scopes.size =
        (s.work.symbols.scopes.child .root .static className).size := congrArg ScopeId.index he
    omega
  · obtain ⟨y, hy, rfl⟩ := Option.map_eq_some_iff.mp hb
    have hindex : s.work.symbols.scopes.size = y.scopes.object.index := congrArg ScopeId.index he
    have hlt := (C.scopes y (hbase y hy)).2
    omega

/-- A constructor is supplied if the class has none, and then the pass goes on. -/
theorem supplied_ok {c : ClassDef} {m : MemberScopes} {next : Declare Unit}
    (h : (if !c.members.any (·.isConstructor) then
        constructor (suppliedEntry c) m.object (defaultConstructor c) >>= fun _ => next
      else next) s = .ok u s') :
    ∃ s₁, (if c.members.any (·.isConstructor) then s₁ = s
        else ∃ u, constructor (suppliedEntry c) m.object (defaultConstructor c) s = .ok u s₁) ∧
      s₁.work.symbols.types = s.work.symbols.types ∧ next s₁ = .ok u s' := by
  split at h
  · rename_i hnone
    obtain ⟨u', s₁, hsupplied, h⟩ := exists_of_bind h
    refine ⟨s₁, ?_, (adds_of_constructor hsupplied).types, h⟩
    rw [if_neg (by simpa using hnone)]
    exact ⟨u', hsupplied⟩
  · rename_i hsome
    refine ⟨s, ?_, rfl, h⟩
    rw [if_pos (by simpa using hsome)]

/-- The entry of a class tells which scopes and which base it has. -/
theorem eq_of_entry {x : Completed} {b : Option Key} {m : MemberScopes}
    (h : x.entry = Completed.entry ⟨x.toBegun, b, m⟩) : x = ⟨x.toBegun, b, m⟩ := by
  have hbase : x.base = b := congrArg TypeEntry.base h
  have hscopes : x.scopes = m := Option.some.inj (congrArg TypeEntry.members h)
  rw [← hbase, ← hscopes]

theorem closes_of_closeClass {x : Completed} (K : g.Kept s)
    (C : g.Completing classes (x.toBegun :: opens) done cut)
    (hnext : ∀ b, x.PointsTo g.roots b → b ∈ opens.map (·.key) ∨ b ∈ done.map (·.key))
    (h : closeClass x.source x.generics s = .ok u s')
    (hentry : s'.work.symbols.type? x.key = some x.entry) : Closes done x s s' := by
  obtain ⟨base, s₁, hextended, h⟩ := exists_of_bind h
  obtain ⟨clause, y, hclause, rfl, hps, hy, haccepted, rfl⟩ := extended_ok K C hnext hextended
  obtain ⟨static, s₂, hstatic, h⟩ := exists_of_bind h
  cases hstatic
  obtain ⟨object, s₃, hobject, h⟩ := exists_of_bind h
  cases hobject
  let x' : Completed :=
    ⟨x.toBegun, y.map (·.key), newScopes s.work.symbols.scopes x.source.name.name⟩
  obtain ⟨_, s₄, hinherit, h⟩ := exists_of_bind h
  have hbase : (y.map fun z => (z.key, z.scopes)).map (·.2) = y.map (·.scopes) := Option.map_map ..
  rw [hbase] at hinherit
  obtain ⟨scopes, T, rfl⟩ := takesOver_newScopes
    (s := { s with problems := s.problems ++ clause.problems }) K.size C hy hinherit
  obtain ⟨u₅, s₅, hgenerics, h⟩ := exists_of_bind h
  obtain ⟨_, s₆, hcontent, h⟩ := exists_of_bind h
  have hs₆ := updateType_ok hcontent
  obtain ⟨u₇, s₇, hmembers, h⟩ := exists_of_bind h
  replace hgenerics : bindGenerics x'.scopes x.generics
      { s with
        work := { s.work with symbols := { s.work.symbols with scopes } }
        problems := s.problems ++ clause.problems } = .ok u₅ s₅ := hgenerics
  replace hmembers : members x.source x'.scopes x.source.members s₆ = .ok u₇ s₇ := hmembers
  obtain ⟨s₈, hsupplied, ht₈, hrest⟩ := supplied_ok (m := x'.scopes) h
  obtain ⟨_, s₉, hresolved, h⟩ := exists_of_bind hrest
  have hs₉ := updateType_ok hresolved
  cases h
  have htypes : s₉.work.symbols.types = (g.close x').types := by
    rw [hs₉, Symbols.updateType, ht₈, types_of_members hmembers, hs₆, Symbols.updateType,
      types_of_bindGenerics hgenerics]
    simp only [K.types, Option.map_map]
    rfl
  have hx : x = x' := by
    have hfound : s₉.work.symbols.type? x.key = some x'.entry := by
      rw [Symbols.type?, htypes]
      exact Outline.type?_close_self (x := x') (C.opened x.toBegun List.mem_cons_self)
    exact eq_of_entry (Option.some.inj (hentry.symm.trans hfound))
  have hscopes : x.scopes = x'.scopes := congrArg Completed.scopes hx
  have hsize := Scopes.size_child s.work.symbols.scopes .root .static x.source.name.name
  rw [hs₆] at hmembers
  subst hs₉
  refine .intro hclause hps hy haccepted (congrArg Completed.base hx)
    (congrArg MemberScopes.static hscopes)
    ((congrArg MemberScopes.object hscopes).trans (congrArg ScopeId.mk hsize)) (hscopes ▸ T)
    (hscopes ▸ hgenerics) ?_ (hscopes ▸ hmembers) (hscopes ▸ hsupplied) rfl
  rw [hx]
  simp only [Option.map_map]
  rfl

end Declare

namespace Ledger

variable {L : Ledger} {script : Script} {g : Outline} {classes : List ClassDef} {opens : List Begun}
  {done cut : List Completed} {x : Completed} {s s' : Stage Declarations} {u : Unit}

theorem Inventory.bindType (I : L.Inventory script s) {scope : ScopeId}
    (hgrowing : Scopes.Growing L.done scope) {name : String} {key : Key} {span : Span}
    (hkey : key ∈ script.typeKeys) {r : Option Unit}
    (h : Pass.attempt (Workspace.onScopes fun scopes => scopes.declareType scope name key span) s =
      .ok r s') : L.Inventory script s' := by
  rcases Declare.attempt_declareType h with ⟨scopes, hbound, rfl⟩ | ⟨_, rfl⟩
  · exact I.declareType hgrowing hbound hkey
  · exact I.addProblems fun q hq => List.mem_singleton.mp hq ▸ .redefined ..

theorem Inventory.bindGeneric (I : L.Inventory script s) (hx : x ∈ L.done.head?) (isStatic : Bool)
    {y : Generic} (hkey : y.key ∈ script.typeKeys)
    (h : Declare.bindGeneric (x.scopes.side isStatic) y s = .ok u s') : L.Inventory script s' := by
  obtain ⟨r, s₁, hbound, h⟩ := exists_of_bind h
  cases h
  exact I.bindType (.member hx isStatic) hkey hbound

theorem Inventory.bindGenerics (I : L.Inventory script s) (hx : x ∈ L.done.head?)
    {gs : List Generic} (hkeys : ∀ y ∈ gs, y.key ∈ script.typeKeys)
    (h : Declare.bindGenerics x.scopes gs s = .ok u s') : L.Inventory script s' := by
  induction gs generalizing s with
  | nil =>
    cases h
    exact I
  | cons y rest ih =>
    obtain ⟨hy, hrest⟩ := List.forall_mem_cons.mp hkeys
    obtain ⟨_, s₁, hstatic, h⟩ := exists_of_bind h
    obtain ⟨_, s₂, hobject, h⟩ := exists_of_bind h
    exact ih ((I.bindGeneric hx true hy hstatic).bindGeneric hx false hy hobject) hrest h

/-- The ledger after a class. -/
def addClass (L : Ledger) (x : Completed) : Ledger :=
  let L' := ({ L with done := x :: L.done } : Ledger).addMembers x.source x.scopes x.source.members
  if x.source.members.any (·.isConstructor) then L'
  else
    L'.addFunction x.scopes.object (Declare.suppliedEntry x.source)
      (.constructor x.source.key 0, Declare.defaultConstructor x.source) false

theorem addClass_done (L : Ledger) (x : Completed) : (L.addClass x).done = x :: L.done := by
  rw [addClass]
  split
  · exact addMembers_done ..
  · exact addMembers_done ..

theorem addClass_functions (L : Ledger) (x : Completed) :
    (L.addClass x).functions = L.functions ++ x.source.functions := by
  rw [addClass, ClassDef.functions, ClassDef.supplied]
  split
  · rw [addMembers_functions, List.append_nil]
  · rw [addFunction, addMembers_functions, List.append_assoc]

theorem addClass_variableDefs (L : Ledger) (x : Completed) :
    (L.addClass x).variableDefs = L.variableDefs ++ x.source.fields := by
  rw [addClass]
  split
  · exact addMembers_variableDefs ..
  · exact addMembers_variableDefs ..

theorem addClass_bound (L : Ledger) (x : Completed) : (L.addClass x).bound =
    L.bound ++ x.source.members.filterMap (·.method? x.source x.scopes) := by
  rw [addClass]
  split
  · exact addMembers_bound ..
  · exact addMembers_bound ..

theorem addClass_names_of_ne {id : ScopeId} (h : ∀ isStatic, x.scopes.side isStatic ≠ id)
    (L : Ledger) : (L.addClass x).names id = L.names id := by
  rw [addClass]
  split
  · exact addMembers_names_of_ne h ..
  · exact addMembers_names_of_ne h ..

theorem names_subset_addClass (L : Ledger) (x : Completed) (id : ScopeId) :
    L.names id ⊆ (L.addClass x).names id := by
  rw [addClass]
  split
  · exact names_subset_addMembers { L with done := x :: L.done } ..
  · exact names_subset_addMembers { L with done := x :: L.done } ..

theorem names_addClass (L : Ledger) (x : Completed) (isStatic : Bool) :
    x.source.names isStatic ⊆ (L.addClass x).names (x.scopes.side isStatic) := by
  intro name hname
  obtain ⟨y, hy, hdeclares⟩ := List.mem_filterMap.mp hname
  rw [addClass]
  split
  · exact mem_names_addMembers hy hdeclares
  · exact mem_names_addMembers hy hdeclares

/-- A class without a constructor gets one. -/
theorem Inventory.addSupplied (I : L.Inventory script s) (hx : x ∈ L.done.head?)
    {t : FunctionText} (ht : t = (.constructor x.source.key 0, Declare.defaultConstructor x.source))
    (hall : (L.functions ++ [t]).Subperm script.functions)
    (h : Declare.constructor (Declare.suppliedEntry x.source) x.scopes.object
      (Declare.defaultConstructor x.source) s = .ok u s') :
    (L.addFunction x.scopes.object (Declare.suppliedEntry x.source) t false).Inventory script s' := by
  subst ht
  have hlives : (Declare.suppliedEntry x.source).LivesIn L.done (x.scopes.side (false && !true)) :=
    .member (List.mem_of_mem_head? hx) rfl
  exact I.adds (Declare.adds_of_constructor h) (.member hx false) hlives ⟨rfl, rfl, rfl⟩ rfl hall rfl
    nofun nofun

/-- Closing a class adds its lines to the ledger. -/
theorem Inventory.closes (I : L.Inventory script s) (hc : script.Registers x.source)
    (hkeys : ∀ y ∈ x.generics, y.key ∈ script.typeKeys)
    (hall : (L.functions ++ x.source.functions).Subperm script.functions)
    (h : Declare.Closes L.done x s s') : (L.addClass x).Inventory script s' := by
  cases h with
  | @intro clause base scopes s₁ s₂ s₃ types types' typeCount u u' judged reported before accepted
      extended static object takesOver generics filled members supplied resolved =>
    let L₁ : Ledger := { L with done := x :: L.done }
    have I₁ : L₁.Inventory script _ :=
      (I.addProblems reported).addClass before extended static object takesOver
    have I₂ := (I₁.bindGenerics rfl hkeys generics).withTypes types
    have hnames : ∀ isStatic, L₁.names (x.scopes.side isStatic) =
        ([] : List Member).filterMap (·.declares? isStatic) := by
      intro isStatic
      refine I.review.unnamed _ ?_
      cases isStatic
      · exact (congrArg ScopeId.index object) ▸ Nat.le_succ _
      · exact (congrArg ScopeId.index static) ▸ Nat.le_refl _
    rw [ClassDef.functions, ← List.append_assoc] at hall
    have I₃ := I₂.members rfl hc (List.nil_append _).symm hnames
      ((List.sublist_append_left _ _).subperm.trans hall) members
    suffices (L.addClass x).Inventory script s₃ from (this.withTypes types').withTypeCount typeCount
    rw [ClassDef.supplied] at hall
    rw [Ledger.addClass]
    split at supplied
    · rename_i hany
      subst supplied
      rw [if_pos hany]
      exact I₃
    · rename_i hany
      obtain ⟨u'', hsupplied⟩ := supplied
      rw [if_neg hany] at hall ⊢
      refine I₃.addSupplied ?_ rfl ?_ hsupplied
      · rw [addMembers_done]
        rfl
      · rw [addMembers_functions]
        exact hall

/-! ## The order of completion -/

theorem Inventory.addType (I : L.Inventory script s) {t : TypeEntry} {r : Option Unit}
    (h : Pass.attempt (Workspace.addType t) s = .ok r s') : L.Inventory script s' := by
  rcases Declare.attempt_addType h with ⟨_, _, rfl⟩ | ⟨_, _, rfl⟩
  · exact I.withTypes _
  · exact I.addProblems fun q hq => List.mem_singleton.mp hq ▸ .redefined ..

theorem Inventory.generics (I : L.Inventory script s) {c : ClassDef} {names : List Ident}
    {gs : List Generic} (h : Declare.generics c names s = .ok gs s') : L.Inventory script s' := by
  induction names generalizing gs s with
  | nil =>
    cases h
    exact I
  | cons name rest ih =>
    obtain ⟨added, s₁, hadd, h⟩ := exists_of_bind h
    obtain ⟨others, s₂, hrest, h⟩ := exists_of_bind h
    cases h
    exact ih (I.addType hadd) hrest

theorem Inventory.openClass (I : L.Inventory script s) {c : ClassDef} {gs : List Generic}
    (h : Declare.openClass c s = .ok gs s') : L.Inventory script s' := by
  obtain ⟨_, s₁, hupdate, hgenerics⟩ := exists_of_bind h
  cases Declare.updateType_ok hupdate
  exact (I.withTypes _).generics hgenerics

/-- The ledger after the classes in a list, the newest first. -/
def addClasses (L : Ledger) (done : List Completed) : Ledger := done.foldr (fun x L => L.addClass x) L

theorem addClasses_done (L : Ledger) (done : List Completed) :
    (L.addClasses done).done = done ++ L.done := by
  induction done with
  | nil => rfl
  | cons x older ih => exact (addClass_done ..).trans (congrArg (x :: ·) ih)

theorem addClasses_functions (L : Ledger) (done : List Completed) :
    (L.addClasses done).functions = L.functions ++ done.reverse.flatMap (·.source.functions) := by
  induction done with
  | nil => exact (List.append_nil _).symm
  | cons x older ih =>
    refine (addClass_functions ..).trans ?_
    change (L.addClasses older).functions ++ _ = _
    rw [ih, List.append_assoc, List.reverse_cons, List.flatMap_append, List.flatMap_singleton]

theorem addClasses_variableDefs (L : Ledger) (done : List Completed) :
    (L.addClasses done).variableDefs =
      L.variableDefs ++ done.reverse.flatMap (·.source.fields) := by
  induction done with
  | nil => exact (List.append_nil _).symm
  | cons x older ih =>
    refine (addClass_variableDefs ..).trans ?_
    change (L.addClasses older).variableDefs ++ _ = _
    rw [ih, List.append_assoc, List.reverse_cons, List.flatMap_append, List.flatMap_singleton]

theorem mem_bound_addClasses {f : FunctionDef} (hx : x ∈ done) (hf : .method f ∈ x.source.members) :
    (x.scopes.side f.isStatic, .ofMethodDef x.source f) ∈ (L.addClasses done).bound := by
  induction done with
  | nil => cases hx
  | cons y older ih =>
    change _ ∈ ((L.addClasses older).addClass y).bound
    rw [addClass_bound]
    rcases List.mem_cons.mp hx with rfl | hx
    · exact List.mem_append_right _ (List.mem_filterMap.mpr ⟨_, hf, rfl⟩)
    · exact List.mem_append_left _ (ih hx)

theorem addClasses_names_of_ne {id : ScopeId}
    (h : ∀ x ∈ done, ∀ isStatic, x.scopes.side isStatic ≠ id) (L : Ledger) :
    (L.addClasses done).names id = L.names id := by
  induction done with
  | nil => rfl
  | cons x older ih =>
    obtain ⟨hx, holder⟩ := List.forall_mem_cons.mp h
    exact (addClass_names_of_ne hx _).trans (ih holder)

theorem names_addClasses (hx : x ∈ done) (isStatic : Bool) :
    x.source.names isStatic ⊆ (L.addClasses done).names (x.scopes.side isStatic) := by
  induction done with
  | nil => cases hx
  | cons y older ih =>
    rcases List.mem_cons.mp hx with rfl | hx
    · exact names_addClass (L.addClasses older) x isStatic
    · exact List.Subset.trans (ih hx) (names_subset_addClass (L.addClasses older) y _)

theorem mem_classes (hc : script.Registers x.source) : x.source ∈ script.classes :=
  List.mem_of_find?_eq_some hc

/-- What the classes that are complete contain is part of the script. -/
theorem sources_subperm {α : Type} (hdone : (done.map (·.key)).Nodup)
    (hregisters : ∀ x ∈ done, script.Registers x.source) (parts : ClassDef → List α) :
    (done.reverse.flatMap (parts ·.source)).Subperm (script.classes.flatMap parts) := by
  have hsources : (done.reverse.map (·.source)).Subperm script.classes := by
    refine List.subperm_of_subset ?_ fun c hc => ?_
    · rw [List.map_reverse, List.nodup_reverse]
      refine List.Nodup.of_map ClassDef.key ?_
      rw [List.map_map]
      exact hdone
    · obtain ⟨x, hx, rfl⟩ := List.mem_map.mp hc
      exact mem_classes (hregisters x (List.mem_reverse.mp hx))
  have hflat := subperm_flatMap hsources parts
  rwa [List.flatMap_map] at hflat

theorem Inventory.advances {start : Stage Declarations} (I : L.Inventory script start)
    (hnone : L.done = []) (hfunctions : L.functions = script.globalFunctions)
    (hclasses : ∀ c ∈ classes, script.Registers c)
    (A : Declare.Advances classes start opens done s) :
    (L.addClasses done).Inventory script s := by
  have hsame : ∀ done, (L.addClasses done).done = done := by
    intro done
    rw [addClasses_done, hnone, List.append_nil]
  induction A with
  | refl => exact I
  | begin before kept completing listed fresh step ih => exact ih.openClass step
  | @close g opens done cut x u s s' before kept completing next step entry ih =>
    have hx := completing.sources x.toBegun List.mem_cons_self
    refine ih.closes (hclasses _ hx) ?_ ?_ ?_
    · intro y hy
      have R := completing.generics x.toBegun List.mem_cons_self
      rw [R.keyed y hy]
      refine List.mem_flatMap.mpr ⟨x.source, mem_classes (hclasses _ hx), List.mem_cons_of_mem _ ?_⟩
      exact List.mem_map.mpr ⟨y.name, R.sublist.mem (List.mem_map_of_mem hy), rfl⟩
    · have hbegun : ((x :: done).map (·.toBegun)).Sublist (begun (x.toBegun :: opens) done) :=
        (List.sublist_append_right opens _).cons_cons _
      have hnodup : ((x :: done).map (·.key)).Nodup := by
        have hkeys := (hbegun.map (·.key)).nodup completing.distinct
        rwa [List.map_map] at hkeys
      have hpart := sources_subperm hnodup
        (fun y hy => hclasses _ (completing.sources _ (hbegun.mem (List.mem_map_of_mem hy))))
        (·.functions)
      rw [List.reverse_cons, List.flatMap_append, List.flatMap_singleton] at hpart
      rw [addClasses_functions, hfunctions, List.append_assoc]
      exact (List.Subperm.refl _).append hpart
    · rw [hsame]
      exact Declare.closes_of_closeClass kept completing next step entry

end Ledger

end Stackless
