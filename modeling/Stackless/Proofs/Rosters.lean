import Stackless.Proofs.DeclaredClasses
import Stackless.Proofs.Environments
import Stackless.Proofs.Room

/-!
# Rosters

What a class declares, in full and without the ids that scopes and variables happen to get: the
functions that are accepted, the names that its two scopes bind themselves, its variables, its first
values and its problems (`ClassDef.roster`). Whatever was declared before, declaring the members of
a class adds what its roster lists, in this order, and nothing else (`Roster.Entered.members`),
as long as no other class or function outside classes has one of the keys.
-/

namespace Stackless

/-! ## What does not depend on ids -/

/-- What a name is bound to: a function, or the variable that is declared at the span. -/
structure Sight where
  function? : Option Key
  span : Span
  deriving DecidableEq

def Binding.sight (b : Binding) : Sight := ⟨b.symbol.toFunction?, b.span⟩

/-- What is known of a variable apart from its id, its scope and its place in its domain. What the
compiler adds itself has no declaration. -/
structure Profile where
  declaration : Option Ident
  kind : VariableKind
  domain : Domain
  deriving DecidableEq

def Variable.profile (v : Variable) : Profile := ⟨v.declaration?, v.kind, v.location.domain⟩

def Layout.profiles (l : Layout) : List Profile := l.table.toList.map (·.profile)

/-- A function without the ids that it got. -/
def FunctionEntry.bare (f : FunctionEntry) : FunctionEntry :=
  { f with scope := none, parameters := [], stacked := false }

/-- What a scope itself declares under a name. -/
def Scopes.declared? (s : Scopes) (id : ScopeId) (name : String) : Option Binding :=
  (s.binding? id name).filter (!·.inherited)

theorem Layout.profiles_push {l l' : Layout} {v : Variable} (h : l'.table = l.table.push v) :
    l'.profiles = l.profiles ++ [v.profile] := by
  rw [profiles, h, Array.toList_push, List.map_append]
  rfl

namespace Scopes

variable {s s' : Scopes} {id : ScopeId} {name : String}

theorem declared?_of_own {b : Binding} (h : s.binding? id name = some b)
    (hown : b.inherited = false) : s.declared? id name = some b := by
  rw [declared?, h, Option.filter_some_pos (by simp [hown])]

/-- A scope declares one more name, which it had not declared. -/
theorem declared?_declare {symbol : Symbol} {span : Span}
    (h : s.declare id name symbol span = .ok s') :
    s.declared? id name = none ∧ ∀ id' name', s'.declared? id' name' =
      if id = id' ∧ name = name' then some { symbol, span } else s.declared? id' name' := by
  obtain ⟨_, hold, hbind⟩ := declare_ok h
  constructor
  · rw [declared?, Option.filter_eq_none_iff]
    intro b hb
    simp [hold b hb]
  · intro id' name'
    rw [declared?, hbind]
    split
    · rfl
    · rfl

end Scopes

/-- Declaring a variable creates one with its name, unless the scope declared the name before. -/
theorem Pass.profiles_declareVariable {ρ : Type} {scope : ScopeId} {name : Ident} {domain : Domain}
    {kind : VariableKind} {s s' : Stage ρ} {r : Option VariableId}
    (h : Pass.attempt (Workspace.declareVariable scope name.name domain kind name.span) s =
      .ok r s') :
    s'.work.layout.profiles = s.work.layout.profiles ++
      if (s.work.symbols.scopes.declared? scope name.name).isSome then []
      else [⟨some name, kind, domain⟩] := by
  cases Pass.declaresVariable h with
  | refused taken own =>
    rw [Scopes.declared?_of_own taken own, Option.isSome_some, if_pos rfl, List.append_nil]
  | added bound table stored =>
    rw [(Scopes.declared?_declare bound).1, Option.isSome_none, if_neg Bool.false_ne_true,
      Layout.profiles_push table, Variable.profile, stored]
    rfl

theorem Declare.profiles_variableDef {scope : ScopeId} {v : VariableDef} {u : Unit}
    {s s' : Stage Declarations} (h : variableDef scope v s = .ok u s') :
    s'.work.layout.profiles = s.work.layout.profiles ++
      if (s.work.symbols.scopes.declared? scope v.name.name).isSome then []
      else [⟨some v.name, .declared, v.domain⟩] := by
  obtain ⟨r, s₁, hdeclare, h⟩ := exists_of_bind h
  have hlayout : s'.work.layout = s₁.work.layout := by
    cases r <;> cases hinit : v.init <;> rw [hinit] at h <;> cases h <;> rfl
  rw [hlayout]
  exact Pass.profiles_declareVariable hdeclare

/-! ## The roster of a class -/

structure Roster where
  /-- The functions that are accepted, each with its text. -/
  functions : List (FunctionEntry × FunctionDef) := []
  /-- What the static scope and that of objects declare. -/
  names : Bool → String → Option Sight := fun _ _ => none
  profiles : List Profile := []
  /-- The first values of static variables and of others. -/
  initializers : List (Bool × Expr) := []
  problems : List Problem := []

namespace Roster

def report (R : Roster) (p : Problem) : Roster := { R with problems := R.problems ++ [p] }

def bind (R : Roster) (isStatic : Bool) (name : String) (x : Sight) : Roster :=
  { R with names := fun b n => if isStatic = b ∧ name = n then some x else R.names b n }

/-- A function whose key is taken is dropped; one whose name is taken only stays unbound. -/
def addFunction (R : Roster) (isStatic isNamed : Bool) (f : FunctionEntry) (source : FunctionDef) :
    Roster :=
  if f.key ∈ R.functions.map (·.1.key) then R.report (.redefined "function" f.qualifiedName f.span)
  else
    let R : Roster := { R with functions := R.functions ++ [(f, source)] }
    if isNamed then
      if (R.names isStatic f.name).isSome then R.report (.redefined "function" f.name f.span)
      else R.bind isStatic f.name ⟨some f.key, f.span⟩
    else R

/-- A variable whose name is taken is dropped, but not its first value. -/
def addVariable (R : Roster) (v : VariableDef) : Roster :=
  let R : Roster :=
    { R with initializers := R.initializers ++ v.init.toList.map fun e => (v.isStatic, e) }
  match R.names v.isStatic v.name.name with
  | some first => R.report (.redeclared v.name.name first.span v.name.span)
  | none =>
    { R.bind v.isStatic v.name.name ⟨none, v.name.span⟩ with
      profiles := R.profiles ++ [⟨some v.name, .declared, v.domain⟩] }

def addMember (c : ClassDef) (R : Roster) : Member → Roster
  | .method f => R.addFunction f.isStatic true (.ofMethodDef c f) f
  | .constructor f => R.addFunction false false (.ofConstructorDef c f false) f
  | .field v => R.addVariable v

end Roster

/-- What the members of a class amount to. -/
def ClassDef.roster (c : ClassDef) : Roster :=
  let R := c.members.foldl (Roster.addMember c) {}
  if c.members.any (·.isConstructor) then R
  else R.addFunction false false (Declare.suppliedEntry c) (Declare.defaultConstructor c)

theorem Roster.profiles_addFunction (R : Roster) (isStatic isNamed : Bool) (f : FunctionEntry)
    (source : FunctionDef) : (R.addFunction isStatic isNamed f source).profiles = R.profiles := by
  rw [addFunction]
  split
  · rfl
  · dsimp only
    split
    · split <;> rfl
    · rfl

/-- The variables of a class are declared in its text. -/
theorem ClassDef.declared_of_profile {c : ClassDef} {v : Profile} (h : v ∈ c.roster.profiles) :
    ∃ x, v.declaration = some x := by
  have hmember : ∀ (R : Roster) (x : Member), (∀ v ∈ R.profiles, ∃ x, v.declaration = some x) →
      ∀ v ∈ (R.addMember c x).profiles, ∃ x, v.declaration = some x := by
    intro R x hR v hv
    cases x with
    | method f | constructor f =>
      rw [Roster.addMember, Roster.profiles_addFunction] at hv
      exact hR v hv
    | field d =>
      rw [Roster.addMember, Roster.addVariable] at hv
      dsimp only at hv
      split at hv
      · exact hR v hv
      · rcases List.mem_append.mp hv with hv | hv
        · exact hR v hv
        · cases List.mem_singleton.mp hv
          exact ⟨_, rfl⟩
  have hmembers : ∀ (xs : List Member) (R : Roster), (∀ v ∈ R.profiles, ∃ x, v.declaration = some x) →
      ∀ v ∈ (xs.foldl (Roster.addMember c) R).profiles, ∃ x, v.declaration = some x := by
    intro xs
    induction xs with
    | nil => exact fun _ hR => hR
    | cons x rest ih => exact fun R hR => ih _ (hmember R x hR)
  have hprofiles : c.roster.profiles = (c.members.foldl (Roster.addMember c) {}).profiles := by
    rw [roster]
    split
    · rfl
    · exact Roster.profiles_addFunction ..
  rw [hprofiles] at h
  exact hmembers c.members {} (fun _ hv => absurd hv List.not_mem_nil) v h

/-! ## Declaring the members of a class -/

/-- Since the stage `before`, what the roster lists was declared in two scopes, and nothing else. -/
structure Roster.Entered (R : Roster) (m : MemberScopes) (before s : Stage Declarations) : Prop where
  functions : s.work.symbols.functions.map (·.bare) =
    before.work.symbols.functions.map (·.bare) ++ R.functions.map (·.1)
  bodies : s.report.bodies.map (fun b => (b.function, b.source)) =
    before.report.bodies.map (fun b => (b.function, b.source)) ++
      R.functions.map fun t => (t.1.key, t.2)
  initializers : s.report.initializers =
    before.report.initializers ++ R.initializers.map fun i => ⟨m.side i.1, i.2⟩
  profiles : s.work.layout.profiles = before.work.layout.profiles ++ R.profiles
  problems : s.problems = before.problems ++ R.problems
  names : ∀ isStatic name,
    (s.work.symbols.scopes.declared? (m.side isStatic) name).map (·.sight) = R.names isStatic name
  others : ∀ {id}, (∀ isStatic, m.side isStatic ≠ id) → ∀ name,
    s.work.symbols.scopes.binding? id name = before.work.symbols.scopes.binding? id name
  types : ∀ id name, s.work.symbols.scopes.type? id name = before.work.symbols.scopes.type? id name

namespace Roster.Entered

variable {R : Roster} {m : MemberScopes} {before s s' : Stage Declarations} {c : ClassDef}
  {f : FunctionEntry} {source : FunctionDef} {v : VariableDef} {isStatic isNamed : Bool} {u : Unit}

theorem refl (hnames : ∀ isStatic name,
    s.work.symbols.scopes.declared? (m.side isStatic) name = none) :
    ({} : Roster).Entered m s s where
  functions := (List.append_nil _).symm
  bodies := (List.append_nil _).symm
  initializers := (List.append_nil _).symm
  profiles := (List.append_nil _).symm
  problems := (List.append_nil _).symm
  names isStatic name := by rw [hnames]; rfl
  others _ _ := rfl
  types _ _ := rfl

/-- The keys that are registered. -/
theorem mem_keys (E : R.Entered m before s) {k : Key}
    (hfresh : k ∉ before.work.symbols.functions.map (·.key)) :
    k ∈ s.work.symbols.functions.map (·.key) ↔ k ∈ R.functions.map (·.1.key) := by
  have hbare : ∀ fs : List FunctionEntry, fs.map (·.key) = (fs.map (·.bare)).map (·.key) := by
    intro fs
    rw [List.map_map]
    rfl
  rw [hbare, E.functions, List.map_append, ← hbare, List.mem_append, or_iff_right hfresh,
    List.map_map]
  rfl

/-- One of the two scopes declares one more name. -/
theorem names_bind (E : R.Entered m before s) (hne : m.static ≠ m.object) {scopes : Scopes}
    {name : String} {symbol : Symbol} {span : Span}
    (h : s.work.symbols.scopes.declare (m.side isStatic) name symbol span = .ok scopes)
    (isStatic' : Bool) (name' : String) :
    (scopes.declared? (m.side isStatic') name').map (·.sight) =
      (R.bind isStatic name ⟨symbol.toFunction?, span⟩).names isStatic' name' := by
  simp only [(Scopes.declared?_declare h).2, bind, Ledger.side_inj hne]
  split
  · rfl
  · exact E.names isStatic' name'

theorem others_bind (E : R.Entered m before s) {scopes : Scopes} {name : String} {symbol : Symbol}
    {span : Span} (h : s.work.symbols.scopes.declare (m.side isStatic) name symbol span = .ok scopes)
    {id : ScopeId} (hid : ∀ isStatic, m.side isStatic ≠ id) (name' : String) :
    scopes.binding? id name' = before.work.symbols.scopes.binding? id name' := by
  rw [(Scopes.declare_ok h).2.2, if_neg fun h => hid isStatic h.1, E.others hid]

/-- A function is added, and its name means what the scopes say. -/
theorem added (E : R.Entered m before s) (hbare : f.bare = f) {scopes : Scopes}
    {names : Bool → String → Option Sight}
    (hnames : ∀ isStatic name,
      (scopes.declared? (m.side isStatic) name).map (·.sight) = names isStatic name)
    (hothers : ∀ {id}, (∀ isStatic, m.side isStatic ≠ id) → ∀ name,
      scopes.binding? id name = before.work.symbols.scopes.binding? id name)
    (htypes : ∀ id name, scopes.type? id name = before.work.symbols.scopes.type? id name)
    (owner : ScopeId) (source : FunctionDef) (problems : List Problem) :
    ({ R with
        functions := R.functions ++ [(f, source)]
        names := names
        problems := R.problems ++ problems } : Roster).Entered m before
      (Declare.added s f owner source scopes problems) where
  functions := by
    have hnew : ({ f with scope := some scopes.nextId } : FunctionEntry).bare = f := hbare
    rw [Declare.added, List.map_append, E.functions, List.map_singleton, hnew, List.map_append,
      List.append_assoc]
    rfl
  bodies := by
    rw [Declare.added, List.map_append, E.bodies, List.map_append, List.append_assoc]
    rfl
  initializers := E.initializers
  profiles := E.profiles
  problems := by rw [Declare.added, E.problems, List.append_assoc]
  names isStatic name := by
    have hdeclared : (scopes.child owner .function f.qualifiedName).declared? (m.side isStatic) name =
        scopes.declared? (m.side isStatic) name := by
      rw [Scopes.declared?, Scopes.binding?_child]
      rfl
    exact (congrArg _ hdeclared).trans (hnames isStatic name)
  others hid name := (Scopes.binding?_child ..).trans (hothers hid name)
  types id name := (Scopes.type?_child ..).trans (htypes id name)

theorem adds (E : R.Entered m before s) (hne : m.static ≠ m.object)
    (A : Declare.Adds f (m.side isStatic) source isNamed s s') (hbare : f.bare = f)
    (hfresh : f.key ∉ before.work.symbols.functions.map (·.key)) :
    (R.addFunction isStatic isNamed f source).Entered m before s' := by
  cases A with
  | refused taken =>
    rw [addFunction, if_pos ((E.mem_keys hfresh).mp taken)]
    exact { E with problems := by rw [E.problems, List.append_assoc]; rfl }
  | @added scopes problems fresh B =>
    rw [addFunction, if_neg (mt (E.mem_keys hfresh).mpr fresh)]
    dsimp only
    have htypes : ∀ id name, scopes.type? id name = before.work.symbols.scopes.type? id name :=
      fun id name => (B.type?_eq id name).trans (E.types id name)
    cases B with
    | unnamed =>
      rw [if_neg Bool.false_ne_true]
      have H := E.added hbare E.names E.others htypes (m.side isStatic) source []
      rwa [List.append_nil] at H
    | taken hb hown =>
      have htaken : (R.names isStatic f.name).isSome = true := by
        rw [← E.names, Scopes.declared?_of_own hb hown]
        rfl
      rw [if_pos rfl, if_pos htaken]
      exact E.added hbare E.names E.others htypes (m.side isStatic) source _
    | bound hbound =>
      have hfree : ¬ (R.names isStatic f.name).isSome = true := by
        rw [← E.names, (Scopes.declared?_declare hbound).1]
        exact Bool.false_ne_true
      rw [if_pos rfl, if_neg hfree]
      have H := E.added hbare (E.names_bind hne hbound) (E.others_bind hbound) htypes
        (m.side isStatic) source []
      rwa [List.append_nil] at H

theorem variableDef (E : R.Entered m before s) (hne : m.static ≠ m.object)
    (h : Declare.variableDef (m.side v.isStatic) v s = .ok u s') :
    (R.addVariable v).Entered m before s' := by
  have hprofiles := Declare.profiles_variableDef h
  have hinitializers : s.report.initializers ++ Declare.initializersOf (m.side v.isStatic) v =
      before.report.initializers ++
        (R.initializers ++ v.init.toList.map fun e => (v.isStatic, e)).map
          fun i => ⟨m.side i.1, i.2⟩ := by
    rw [E.initializers, List.map_append, List.map_map, List.append_assoc]
    rfl
  rw [addVariable]
  cases Declare.addsVariable_of_variableDef h with
  | @refused b taken own =>
    have hnames : R.names v.isStatic v.name.name = some b.sight := by
      rw [← E.names, Scopes.declared?_of_own taken own]
      rfl
    rw [Scopes.declared?_of_own taken own] at hprofiles
    dsimp only
    rw [hnames]
    refine { E with initializers := hinitializers, problems := ?_ }
    rw [E.problems, List.append_assoc]
    rfl
  | @added scopes layout id w bound table name span =>
    obtain ⟨hnone, _⟩ := Scopes.declared?_declare bound
    have hnames : R.names v.isStatic v.name.name = none := by
      rw [← E.names, hnone]
      rfl
    rw [hnone] at hprofiles
    dsimp only
    rw [hnames]
    refine ⟨E.functions, E.bodies, hinitializers, ?_, E.problems, E.names_bind hne bound,
      fun hid name => E.others_bind bound hid name, fun id name => ?_⟩
    · rw [hprofiles, E.profiles, List.append_assoc]
      rfl
    · exact (Scopes.type?_declare bound id name).trans (E.types id name)

theorem member {y : Member} (E : R.Entered m before s) (hne : m.static ≠ m.object)
    (hfresh : ∀ t ∈ y.function? c.key, t.1.key ∉ before.work.symbols.functions.map (·.key))
    (h : Declare.member c m y s = .ok u s') : (R.addMember c y).Entered m before s' := by
  cases y with
  | method f =>
    exact E.adds hne (Declare.adds_of_function h) rfl (hfresh (.method c.key f.name.name, f) rfl)
  | constructor f =>
    have A : Declare.Adds (.ofConstructorDef c f false) (m.side false) f false s s' :=
      Declare.adds_of_constructor h
    exact E.adds hne A rfl (hfresh (.constructor c.key f.params.length, f) rfl)
  | field v => exact E.variableDef hne h

theorem members {ys : List Member} (E : R.Entered m before s) (hne : m.static ≠ m.object)
    (hfresh : ∀ t ∈ ys.filterMap (·.function? c.key),
      t.1.key ∉ before.work.symbols.functions.map (·.key))
    (h : Declare.members c m ys s = .ok u s') :
    (ys.foldl (Roster.addMember c) R).Entered m before s' := by
  induction ys generalizing R s with
  | nil =>
    cases h
    exact E
  | cons y rest ih =>
    obtain ⟨_, s₁, hmember, hrest⟩ := exists_of_bind h
    rw [filterMap_cons_toList] at hfresh
    refine ih (E.member hne (fun t ht => ?_) hmember) (fun t ht => ?_) hrest
    · exact hfresh t (List.mem_append_left _ (Option.mem_toList.mpr ht))
    · exact hfresh t (List.mem_append_right _ ht)

/-- All members are declared, and a constructor is supplied if there is none. -/
theorem ofClass {s₁ : Stage Declarations} (hne : m.static ≠ m.object)
    (hnames : ∀ isStatic name, s.work.symbols.scopes.declared? (m.side isStatic) name = none)
    (hfresh : ∀ t ∈ c.functions, t.1.key ∉ s.work.symbols.functions.map (·.key))
    (hmembers : Declare.members c m c.members s = .ok u s₁)
    (hsupplied : if c.members.any (·.isConstructor) then s' = s₁
      else ∃ u, Declare.constructor (Declare.suppliedEntry c) m.object (Declare.defaultConstructor c)
        s₁ = .ok u s') : c.roster.Entered m s s' := by
  have E : (c.members.foldl (Roster.addMember c) {}).Entered m s s₁ :=
    (refl hnames).members hne (fun t ht => hfresh t (List.mem_append_left _ ht)) hmembers
  rw [ClassDef.roster]
  split at hsupplied
  · rename_i hany
    subst hsupplied
    rw [if_pos hany]
    exact E
  · rename_i hany
    obtain ⟨_, h⟩ := hsupplied
    rw [if_neg hany]
    have A : Declare.Adds (Declare.suppliedEntry c) (m.side false) (Declare.defaultConstructor c)
      false s₁ s' := Declare.adds_of_constructor h
    refine E.adds hne A rfl (hfresh (.constructor c.key 0, Declare.defaultConstructor c) ?_)
    rw [ClassDef.functions, ClassDef.supplied, if_neg hany]
    exact List.mem_append_right _ (List.mem_singleton_self _)

theorem withTypes (E : R.Entered m before s) (types : List TypeEntry) (typeCount : Nat) :
    R.Entered m before
      { s with
        work := { s.work with symbols := { s.work.symbols with types } }
        report := { s.report with typeCount } } :=
  ⟨E.functions, E.bodies, E.initializers, E.profiles, E.problems, E.names, E.others, E.types⟩

end Roster.Entered

/-! ## Owners -/

theorem Roster.functions_addFunction (R : Roster) (isStatic isNamed : Bool) (f : FunctionEntry)
    (source : FunctionDef) : (R.addFunction isStatic isNamed f source).functions =
      if f.key ∈ R.functions.map (·.1.key) then R.functions else R.functions ++ [(f, source)] := by
  rw [addFunction]
  split
  · rfl
  · dsimp only
    split
    · split <;> rfl
    · rfl

theorem Roster.functions_addVariable (R : Roster) (v : VariableDef) :
    (R.addVariable v).functions = R.functions := by
  rw [addVariable]
  dsimp only
  split <;> rfl

/-- All functions of the roster belong to the class. -/
def Roster.OwnedBy (R : Roster) (owner : Key) : Prop := ∀ t ∈ R.functions, t.1.owner = some owner

theorem Roster.OwnedBy.addFunction {R : Roster} {owner : Key} {isStatic isNamed : Bool}
    {f : FunctionEntry} {source : FunctionDef} (H : R.OwnedBy owner) (hf : f.owner = some owner) :
    (R.addFunction isStatic isNamed f source).OwnedBy owner := by
  intro t ht
  rw [functions_addFunction] at ht
  split at ht
  · exact H t ht
  · rcases List.mem_append.mp ht with ht | ht
    · exact H t ht
    · cases List.mem_singleton.mp ht
      exact hf

theorem ClassDef.ownedBy_roster (c : ClassDef) : c.roster.OwnedBy c.key := by
  have H : (c.members.foldl (Roster.addMember c) {}).OwnedBy c.key := by
    have hnone : ({} : Roster).OwnedBy c.key := fun t ht => absurd ht List.not_mem_nil
    refine List.foldlRecOn (motive := (Roster.OwnedBy · c.key)) c.members _ hnone fun R H y _ => ?_
    cases y with
    | method f | constructor f => exact H.addFunction rfl
    | field v =>
      intro t ht
      rw [Roster.addMember, Roster.functions_addVariable] at ht
      exact H t ht
  rw [roster]
  split
  · exact H
  · exact H.addFunction rfl

end Stackless
