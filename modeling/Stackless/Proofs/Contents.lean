import Mathlib.Data.List.Flatten
import Mathlib.Data.List.Perm.Basic
import Mathlib.Data.List.Perm.Subperm
import Stackless.Proofs.Preorder
import Stackless.Proofs.Resolution

/-!
# What a script contains

The functions of a script with the names by which they are called (`Script.functions`), its
variables outside functions (`Script.variableDefs`), and the names that each of its scopes declares.
Every expression of a script stands in one of its functions or is the first value of one of these
variables (`Script.exprs_perm`).
-/

namespace Stackless

/-! ## Parts of lists

Much of what is declared is refused, so what remains is part of what the script contains. -/

theorem subperm_map {α β : Type} {l l' : List α} (h : l.Subperm l') (f : α → β) :
    (l.map f).Subperm (l'.map f) := by
  obtain ⟨m, hperm, hsub⟩ := h
  exact ⟨m.map f, hperm.map f, hsub.map f⟩

theorem subperm_flatMap {α β : Type} {l l' : List α} (h : l.Subperm l') (f : α → List β) :
    (l.flatMap f).Subperm (l'.flatMap f) := by
  obtain ⟨m, hperm, hsub⟩ := h
  exact ⟨m.flatMap f, hperm.flatMap_right f, hsub.flatMap f⟩

theorem nodup_of_subperm {α : Type} {l l' : List α} (h : l.Subperm l') (hnd : l'.Nodup) :
    l.Nodup := by
  obtain ⟨m, hperm, hsub⟩ := h
  exact hperm.nodup_iff.mp (hsub.nodup hnd)

/-! ## Functions -/

/-- A function as it is called by name. -/
inductive Callable where
  | function (name : String)
  | method (owner : Key) (name : String)
  | constructor (owner : Key) (arity : Nat)
  deriving DecidableEq

def Callable.key : Callable → Key
  | .function name => .function name
  | .method owner name => .method owner name
  | .constructor owner arity => .constructor owner (UInt64.ofNat arity)

/-- The name by which a registered function is called. -/
def FunctionEntry.callable (f : FunctionEntry) : Callable :=
  match f.owner with
  | none => .function f.name
  | some owner => if f.traits.isConstructor then .constructor owner f.arity else .method owner f.name

/-- A function of a script, with the name by which it is called. -/
abbrev FunctionText := Callable × FunctionDef

namespace Member

def function? (owner : Key) : Member → Option FunctionText
  | .method f => some (.method owner f.name.name, f)
  | .constructor f => some (.constructor owner f.params.length, f)
  | .field _ => none

def toField? : Member → Option VariableDef
  | .method _ | .constructor _ => none
  | .field v => some v

/-- The name that a member declares in the scope of the class or in that of its objects. -/
def declares? (isStatic : Bool) : Member → Option Ident
  | .method f => if f.isStatic = isStatic then some f.name else none
  | .constructor _ => none
  | .field v => if v.isStatic = isStatic then some v.name else none

end Member

namespace ClassDef

/-- The constructor that a class gets if it has none. -/
def supplied (c : ClassDef) : List FunctionText :=
  if c.members.any (·.isConstructor) then []
  else [(.constructor c.key 0, Declare.defaultConstructor c)]

def functions (c : ClassDef) : List FunctionText :=
  c.members.filterMap (·.function? c.key) ++ c.supplied

def fields (c : ClassDef) : List VariableDef := c.members.filterMap Member.toField?

/-- The names that one of the scopes of a class declares, in order. -/
def names (c : ClassDef) (isStatic : Bool) : List Ident :=
  c.members.filterMap (·.declares? isStatic)

end ClassDef

namespace Item

def toFunction? : Item → Option FunctionDef
  | .functionItem f => some f
  | .classItem _ | .variableItem _ => none

def toVariable? : Item → Option VariableDef
  | .variableItem v => some v
  | .classItem _ | .functionItem _ => none

end Item

namespace Script

def classes (s : Script) : List ClassDef := s.items.filterMap Item.toClass?

/-- The functions outside classes. -/
def globalFunctions (s : Script) : List FunctionText :=
  (s.items.filterMap Item.toFunction?).map fun f => (.function f.name.name, f)

/-- The variables outside classes and functions. -/
def globalVariables (s : Script) : List VariableDef := s.items.filterMap Item.toVariable?

/-- All functions of a script, supplied constructors included. -/
def functions (s : Script) : List FunctionText :=
  s.globalFunctions ++ s.classes.flatMap (·.functions)

/-- Functions that are called differently have different keys. -/
def FunctionsDistinct (s : Script) : Prop :=
  ∀ t ∈ s.functions, ∀ t' ∈ s.functions, t.1.key = t'.1.key → t.1 = t'.1

instance (s : Script) : Decidable s.FunctionsDistinct :=
  inferInstanceAs (Decidable (∀ t ∈ s.functions, ∀ t' ∈ s.functions, _ → _))

/-- All variables outside functions. -/
def variableDefs (s : Script) : List VariableDef :=
  s.classes.flatMap (·.fields) ++ s.globalVariables

/-- The names that the root declares, in order. -/
def rootNames (s : Script) : List Ident :=
  s.globalFunctions.map (·.2.name) ++ s.globalVariables.map (·.name)

end Script

/-! ## Expressions -/

theorem flatMap_filterMap {α β γ : Type} (f : α → Option β) (g : β → List γ) (l : List α) :
    (l.filterMap f).flatMap g = l.flatMap fun a => (f a).toList.flatMap g := by
  rw [List.filterMap_eq_flatMap_toList, List.flatMap_assoc]

theorem ClassDef.exprs_perm (c : ClassDef) : (c.members.flatMap (·.exprs)).Perm
    (c.functions.flatMap (·.2.exprs) ++ c.fields.flatMap (·.init.toList)) := by
  have hsupplied : c.supplied.flatMap (·.2.exprs) = [] := by
    rw [supplied]
    split <;> rfl
  have hmember : ∀ x : Member, x.exprs =
      (x.function? c.key).toList.flatMap (·.2.exprs) ++ x.toField?.toList.flatMap (·.init.toList) := by
    intro x
    cases x <;> simp [Member.exprs, Member.function?, Member.toField?]
  rw [functions, List.flatMap_append, hsupplied, List.append_nil, fields, flatMap_filterMap,
    flatMap_filterMap]
  simp only [hmember]
  exact (List.flatMap_append_perm ..).symm

/-- An expression of a script is in a function or a first value. -/
theorem Script.exprs_perm (s : Script) : (s.items.flatMap (·.exprs)).Perm
    (s.functions.flatMap (·.2.exprs) ++ s.variableDefs.flatMap (·.init.toList)) := by
  have hitem : ∀ item : Item, (item.exprs).Perm
      (item.toFunction?.toList.flatMap (·.exprs) ++
        (item.toClass?.toList.flatMap (fun c => c.functions.flatMap (·.2.exprs)) ++
          (item.toClass?.toList.flatMap (fun c => c.fields.flatMap (·.init.toList)) ++
            item.toVariable?.toList.flatMap (·.init.toList)))) := by
    intro item
    cases item with
    | classItem c =>
      simpa [Item.exprs, Item.toFunction?, Item.toClass?, Item.toVariable?] using c.exprs_perm
    | functionItem f => simp [Item.exprs, Item.toFunction?, Item.toClass?, Item.toVariable?]
    | variableItem v => simp [Item.exprs, Item.toFunction?, Item.toClass?, Item.toVariable?]
  have hfunctions : s.functions.flatMap (·.2.exprs) =
      s.items.flatMap (fun i => i.toFunction?.toList.flatMap (·.exprs)) ++
        s.items.flatMap (fun i => i.toClass?.toList.flatMap
          fun c => c.functions.flatMap (·.2.exprs)) := by
    rw [functions, List.flatMap_append, globalFunctions, List.flatMap_map, flatMap_filterMap,
      List.flatMap_assoc, classes, flatMap_filterMap]
  have hvariables : s.variableDefs.flatMap (·.init.toList) =
      s.items.flatMap (fun i => i.toClass?.toList.flatMap
          fun c => c.fields.flatMap (·.init.toList)) ++
        s.items.flatMap (fun i => i.toVariable?.toList.flatMap (·.init.toList)) := by
    rw [variableDefs, List.flatMap_append, globalVariables, List.flatMap_assoc, classes,
      flatMap_filterMap, flatMap_filterMap]
  rw [hfunctions, hvariables, List.append_assoc]
  refine (List.Perm.flatMap_left _ fun item _ => hitem item).trans ?_
  refine (List.flatMap_append_perm ..).symm.trans (.append_left _ ?_)
  refine (List.flatMap_append_perm ..).symm.trans (.append_left _ ?_)
  exact (List.flatMap_append_perm ..).symm

end Stackless
