import Stackless.Compile.Declaration

/-!
# Inheritance

Every class gets a scope for the members that belong to the class and, inside it, one for the
members that belong to its objects. Both take over what the scopes of the extended class bind,
so a class is completed after the class it extends. Starting from a class that is not complete,
all such classes along the `extends` clauses are opened on the way there and closed on the way
back; a class that extends one that is open at that time is part of a cycle. Opening a class
registers its generic parameters; one whose key is taken is dropped, and its name then means
what it means outside the class.
-/

namespace Stackless

mutual

/-- The names in a type that are not known, as problems. -/
def TypeRef.unknown (known : String → Bool) : TypeRef → List Problem
  | .mk span name args =>
    (if known name.name then [] else [.unknownType name.name span]) ++
      unknownInList known args

def TypeRef.unknownInList (known : String → Bool) : List TypeRef → List Problem
  | [] => []
  | t :: ts => t.unknown known ++ unknownInList known ts

end

/-- A generic parameter that was registered. -/
structure Generic where
  name : Ident
  key : Key

/-- What the `extends` clause of a class comes to. -/
inductive BaseClause where
  | absent
  | refused (problems : List Problem)
  | accepted (base : TypeEntry)

/-- One of the parameters has the name. -/
def Generic.isAmong (gs : List Generic) (name : String) : Bool := gs.any (·.name.name == name)

namespace ClassDef

/-- The other class that the `extends` clause of a class with the given parameters names. -/
def pointsTo (s : Symbols) (gs : List Generic) (c : ClassDef) : Option Key :=
  match c.base with
  | none => none
  | some ref =>
    if Generic.isAmong gs ref.name.name then none
    else
      match s.scopes.lookupType .root ref.name.name with
      | some key => if key = c.key then none else some key
      | none => none

/-- Decide what a class with the given parameters extends, when the classes before it are
complete. -/
def baseClause (s : Symbols) (gs : List Generic) (c : ClassDef) : Except Fault BaseClause :=
  match c.base with
  | none => .ok .absent
  | some ref =>
    let name := ref.name.name
    let invalid (reason : String) : Except Fault BaseClause :=
      .ok (.refused [.invalidBase name reason ref.span])
    if Generic.isAmong gs name then invalid "a generic parameter cannot be extended"
    else
      match s.scopes.lookupType .root name with
      | none => .ok (.refused [.unknownType name ref.span])
      | some key =>
        if key = c.key then invalid "a type cannot extend itself"
        else
          match s.type? key with
          | none => .error (.internal ("type '" ++ name ++ "' is bound but not registered"))
          | some base =>
            if !base.isClass then invalid ("'" ++ name ++ "' is not a class")
            else if base.progress ≠ .resolved then
              .ok (.refused [.circularInheritance c.name.name ref.span])
            else if base.isSealed then invalid ("'" ++ name ++ "' is sealed")
            else if ref.args.length ≠ base.generics.length then
              invalid ("'" ++ name ++ "' expects " ++ toString base.generics.length ++
                " generic argument(s), got " ++ toString ref.args.length)
            else
              let known (n : String) : Bool :=
                Generic.isAmong gs n || (s.scopes.lookupType .root n).isSome
              match TypeRef.unknownInList known ref.args with
              | [] => .ok (.accepted base)
              | problems => .ok (.refused problems)

end ClassDef

/-- The number of types that were not begun. -/
def Symbols.unresolved (s : Symbols) : Nat := s.types.countP (·.progress = .unresolved)

/-- Beginning a type that was not begun leaves fewer such types. -/
theorem Symbols.unresolved_updateType_lt {s : Symbols} {key : Key} {t : TypeEntry}
    (ht : s.type? key = some t) (hp : t.progress = .unresolved) :
    (s.updateType key fun t => { t with progress := .inProgress }).unresolved < s.unresolved := by
  obtain ⟨hkey, before, after, htypes, _⟩ := List.find?_eq_some_iff_append.mp ht
  have hle : ∀ ts : List TypeEntry,
      (ts.map fun t => if t.key = key then { t with progress := .inProgress } else t).countP
        (·.progress = .unresolved) ≤ ts.countP (·.progress = .unresolved) := by
    intro ts
    rw [List.countP_map]
    refine List.countP_mono_left fun t _ => ?_
    simp only [Function.comp_apply]
    split <;> simp
  have hbefore := hle before
  have hafter := hle after
  have hstarted : decide (Progress.inProgress = .unresolved) = false := rfl
  simp only [decide_eq_true_eq] at hkey
  simp only [unresolved, updateType, htypes, List.map_append, List.map_cons, List.countP_append,
    List.countP_cons, hkey, hp, if_true, decide_true, hstarted, Bool.false_eq_true, if_false]
  omega

namespace Declare

/-- The class that was declared under a key. -/
def classOf (classes : List ClassDef) (key : Key) : Except Fault ClassDef :=
  match classes.find? (·.key = key) with
  | some c => .ok c
  | none => .error (.internal ("no syntax for type " ++ key.text))

/-- Register the generic parameters of a class. -/
def generics (c : ClassDef) : List Ident → Declare (List Generic)
  | [] => return []
  | name :: rest => do
    let entry := TypeEntry.ofGeneric c.key name.name name.span
    let added ← Pass.attempt (Workspace.addType entry)
    let others ← generics c rest
    return if added.isSome then { name, key := entry.key } :: others else others

/-- Change the entry of a type. -/
def updateType (key : Key) (f : TypeEntry → TypeEntry) : Declare Unit := do
  match (← Pass.symbols).type? key with
  | some _ => Pass.modifySymbols (·.updateType key f)
  | none => throw (.internal ("type " ++ key.text ++ " vanished"))

/-- Begin to complete a class. -/
def openClass (c : ClassDef) : Declare (List Generic) := do
  updateType c.key fun t => { t with progress := .inProgress }
  generics c c.generics

def bindGeneric (scope : ScopeId) (g : Generic) : Declare Unit := do
  let _ ← Pass.attempt
    (Workspace.onScopes fun s => s.declareType scope g.name.name g.key g.name.span)

/-- Bind the generic parameters of a class in its scopes. -/
def bindGenerics (m : MemberScopes) : List Generic → Declare Unit
  | [] => return
  | g :: rest => do
    bindGeneric m.static g
    bindGeneric m.object g
    bindGenerics m rest

def member (c : ClassDef) (m : MemberScopes) : Member → Declare Unit
  | .method f =>
    function (.ofMethodDef c f) (if f.isStatic then m.static else m.object) f
  | .constructor f => constructor (.ofConstructorDef c f false) m.object f
  | .field v => variableDef (if v.isStatic then m.static else m.object) v

def members (c : ClassDef) (m : MemberScopes) : List Member → Declare Unit
  | [] => return
  | x :: rest => do
    member c m x
    members c m rest

/-- The constructor of a class that declares none. -/
def defaultConstructor (c : ClassDef) : FunctionDef :=
  { name := ⟨"new", c.name.span⟩, span := c.name.span }

/-- Take over the bindings of the class that is extended. -/
def inheritFrom (m : MemberScopes) (base : Option MemberScopes) : Declare Unit := do
  match base with
  | none => return
  | some b =>
    let _ ← Pass.lift (Workspace.merge m.static b.static)
    let _ ← Pass.lift (Workspace.merge m.object b.object)

/-- The class that is extended, if there are no problems with it. -/
def extended (c : ClassDef) (gs : List Generic) : Declare (Option (Key × MemberScopes)) := do
  match c.baseClause (← Pass.symbols) gs with
  | .error f => throw f
  | .ok .absent => return none
  | .ok (.refused problems) =>
    Pass.addProblems problems
    return none
  | .ok (.accepted base) =>
    match base.members with
    | some m => return some (base.key, m)
    | none =>
      throw (.internal ("supertype '" ++ base.name ++ "' of '" ++ c.name.name ++
        "' has no scopes"))

/-- Complete a class when the class that it extends is complete. -/
def closeClass (c : ClassDef) (gs : List Generic) : Declare Unit := do
  let base ← extended c gs
  let static ← Pass.newScope .root .static c.name.name
  let object ← Pass.newScope static .object c.name.name
  let m : MemberScopes := { static, object }
  inheritFrom m (base.map (·.2))
  bindGenerics m gs
  updateType c.key fun t =>
    { t with base := base.map (·.1), members := some m, generics := gs.map (·.key) }
  members c m c.members
  if !c.members.any (·.isConstructor) then
    constructor (.ofConstructorDef c (defaultConstructor c) true) object (defaultConstructor c)
  updateType c.key fun t => { t with progress := .resolved }
  Pass.note fun d => { d with typeCount := d.typeCount + 1 }

/-- Begin to complete the class of a key, unless that was begun before. -/
def beginClass (classes : List ClassDef) (key : Key) :
    Declare (Option (ClassDef × List Generic)) := do
  match (← Pass.symbols).type? key with
  | none => throw (.internal ("type " ++ key.text ++ " was never declared"))
  | some t =>
    if t.progress = .unresolved then
      match classOf classes key with
      | .error f => throw f
      | .ok c => return some (c, ← openClass c)
    else return none

/-! ## Order of completion

Each class that is begun leaves fewer unresolved ones, so the way along the `extends` clauses
comes to an end. -/

theorem key_of_classOf {classes : List ClassDef} {key : Key} {c : ClassDef}
    (h : classOf classes key = .ok c) : c.key = key := by
  simp only [classOf] at h
  split at h
  · rename_i hfind
    cases h
    exact of_decide_eq_true (List.find?_some hfind :)
  · cases h

theorem updateType_eq {key : Key} {t : TypeEntry} {s : Stage Declarations}
    (h : s.work.symbols.type? key = some t) (f : TypeEntry → TypeEntry) :
    updateType key f s = .ok ()
      { s with work := { s.work with symbols := s.work.symbols.updateType key f } } := by
  have hsymbols : Pass.symbols s = .ok s.work.symbols s := rfl
  simp only [updateType, bind, EStateM.bind, hsymbols, h]
  rfl

theorem unresolved_addType {t : TypeEntry} (ht : t.progress = .resolved) {a : Option Unit}
    {s s' : Stage Declarations} (h : Pass.attempt (Workspace.addType t) s = .ok a s') :
    s'.work.symbols.unresolved = s.work.symbols.unresolved := by
  simp only [Pass.attempt, Workspace.addType, Workspace.onSymbols, Symbols.addType] at h
  cases hfree : s.work.symbols.type? t.key with
  | some _ =>
    rw [hfree] at h
    cases h
    rfl
  | none =>
    rw [hfree] at h
    cases h
    simp [Symbols.unresolved, ht]

theorem unresolved_generics {c : ClassDef} {names : List Ident} {gs : List Generic}
    {s s' : Stage Declarations} (h : generics c names s = .ok gs s') :
    s'.work.symbols.unresolved = s.work.symbols.unresolved := by
  induction names generalizing gs s with
  | nil => cases h; rfl
  | cons name rest ih =>
    simp only [generics, bind, EStateM.bind] at h
    split at h
    · rename_i added s₁ hadd
      split at h
      · rename_i others s₂ hrest
        cases h
        exact (ih hrest).trans (unresolved_addType rfl hadd)
      · cases h
    · cases h

theorem beginClass_lt {classes : List ClassDef} {key : Key} {x : ClassDef × List Generic}
    {s s' : Stage Declarations} (h : beginClass classes key s = .ok (some x) s') :
    s'.work.symbols.unresolved < s.work.symbols.unresolved := by
  have hsymbols : Pass.symbols s = .ok s.work.symbols s := rfl
  cases ht : s.work.symbols.type? key with
  | none =>
    simp only [beginClass, bind, EStateM.bind, hsymbols, ht] at h
    cases h
  | some t =>
    simp only [beginClass, bind, EStateM.bind, hsymbols, ht] at h
    by_cases hp : t.progress = .unresolved
    · rw [if_pos hp] at h
      cases hc : classOf classes key with
      | error f => rw [hc] at h; cases h
      | ok c =>
        cases key_of_classOf hc
        simp only [hc, openClass, bind, EStateM.bind, updateType_eq ht] at h
        split at h
        · rename_i gs s₁ hgenerics
          cases h
          rw [unresolved_generics hgenerics]
          exact Symbols.unresolved_updateType_lt ht hp
        · cases h
    · rw [if_neg hp] at h
      cases h

/-- Complete the class of a key, unless that was begun before, after the class that it extends. -/
def complete (classes : List ClassDef) (key : Key) : Declare Unit := fun s =>
  match _h : beginClass classes key s with
  | .error f s => .error f s
  | .ok none s => .ok () s
  | .ok (some (c, gs)) s =>
    match c.pointsTo s.work.symbols gs with
    | none => closeClass c gs s
    | some base =>
      match complete classes base s with
      | .error f s => .error f s
      | .ok _ s => closeClass c gs s
  termination_by s => s.work.symbols.unresolved
  decreasing_by exact beginClass_lt _h

/-- Complete the listed classes, in order. -/
def completeAll (classes : List ClassDef) : List ClassDef → Declare Unit
  | [] => return
  | c :: rest => do
    complete classes c.key
    completeAll classes rest

end Declare

end Stackless
