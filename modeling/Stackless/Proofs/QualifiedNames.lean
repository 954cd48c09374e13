import Mathlib.Data.List.TakeDrop
import Mathlib.Data.List.TakeWhile
import Stackless.Proofs.CallGraph
import Stackless.Proofs.Enrolment

/-!
# Functions found by their qualified names

The key of a function is made of the key of its class and of its name, whereas a search by its
qualified name takes the text before the first dot for the class. Both come to the same key if there
is no dot in the name of the class (`Symbols.keyOfName_method`), whatever the name of the function
is. All functions of a declared script are called as `FunctionEntry.Titled` says, so each of them is
found by its qualified name, and no two have the same one (`Workspace.declare_functionNamed`).
-/

namespace Stackless

/-! ## Names and keys -/

namespace Symbols

variable {name owner : String}

theorem keyOfName_function (h : '.' ∉ name.toList) : keyOfName name = .function name := by
  have hall : ∀ c ∈ name.toList, (c != '.') = true := fun c hc => by
    simpa using ne_of_mem_of_not_mem hc h
  have hspan : name.toList.span (· != '.') = (name.toList, []) := by
    rw [List.span_eq_takeWhile_dropWhile, List.takeWhile_eq_self_iff.mpr hall,
      List.dropWhile_eq_nil_iff.mpr hall]
  rw [keyOfName, hspan]

theorem keyOfName_method (h : '.' ∉ owner.toList) (name : String) :
    keyOfName (owner ++ "." ++ name) = .method (.type owner) name := by
  have hall : ∀ c ∈ owner.toList, (c != '.') = true := fun c hc => by
    simpa using ne_of_mem_of_not_mem hc h
  have hlist : (owner ++ "." ++ name).toList = owner.toList ++ '.' :: name.toList := by
    simp
  have hspan : (owner ++ "." ++ name).toList.span (· != '.') = (owner.toList, '.' :: name.toList) := by
    rw [hlist, List.span_eq_takeWhile_dropWhile, List.takeWhile_append_of_pos hall,
      List.dropWhile_append_of_pos hall]
    simp
  rw [keyOfName, hspan]
  simp only [String.ofList_toList]

end Symbols

/-! ## How functions are called -/

/-- A function outside classes has its name for a title, and a function of a class has the name of
the class in front of its own. -/
inductive FunctionEntry.Titled (f : FunctionEntry) (done : List Completed) : Prop where
  | function (owner : f.owner = none) (key : f.key = .function f.name)
      (title : f.qualifiedName = f.name)
  | method {x : Completed} (hx : x ∈ done) (owner : f.owner = some x.key)
      (key : f.key = .method x.key f.name)
      (title : f.qualifiedName = x.source.name.name ++ "." ++ f.name)
  | constructor {x : Completed} (hx : x ∈ done) (owner : f.owner = some x.key)
      (isConstructor : f.traits.isConstructor = true)

theorem FunctionEntry.Titled.mono {f : FunctionEntry} {done done' : List Completed}
    (h : f.Titled done) (hsub : done ⊆ done') : f.Titled done' := by
  cases h with
  | function owner key title => exact .function owner key title
  | method hx owner key title => exact .method (hsub hx) owner key title
  | constructor hx owner isConstructor => exact .constructor (hsub hx) owner isConstructor

theorem FunctionEntry.Titled.withScope {f : FunctionEntry} {done : List Completed}
    (h : f.Titled done) (scope : Option ScopeId) :
    ({ f with scope } : FunctionEntry).Titled done := by
  cases h with
  | function owner key title => exact .function owner key title
  | method hx owner key title => exact .method hx owner key title
  | constructor hx owner isConstructor => exact .constructor hx owner isConstructor

/-- All registered functions are called as they should be. -/
def Stage.Titled (s : Stage Declarations) (done : List Completed) : Prop :=
  ∀ f ∈ s.work.symbols.functions, f.Titled done

namespace Stage.Titled

open Declare

variable {done : List Completed} {x : Completed} {s s' : Stage Declarations} {u : Unit}
  {classes : List ClassDef}

theorem sameFunctions {ps : List Problem} (T : s.Titled done) (H : s.SameFunctions ps s') :
    s'.Titled done := by
  intro f hf
  rw [H.functions] at hf
  exact T f hf

theorem adds {f : FunctionEntry} {owner : ScopeId} {source : FunctionDef} {isNamed : Bool}
    (T : s.Titled done) (A : Adds f owner source isNamed s s') (hf : f.Titled done) :
    s'.Titled done := by
  cases A with
  | refused => exact T
  | added =>
    intro g hg
    rcases List.mem_append.mp hg with hg | hg
    · exact T g hg
    · rw [List.mem_singleton.mp hg]
      exact hf.withScope _

theorem names {items : List Item} (T : s.Titled done) (h : Declare.names items s = .ok classes s') :
    s'.Titled done := by
  induction items generalizing s classes with
  | nil =>
    cases h
    exact T
  | cons item rest ih =>
    cases item with
    | classItem c =>
      obtain ⟨isNew, s₁, hname, h⟩ := exists_of_bind h
      obtain ⟨more, s₂, hmore, h⟩ := exists_of_bind h
      cases h
      obtain ⟨_, _, H⟩ := sameFunctions_className hname
      exact ih (T.sameFunctions H) hmore
    | functionItem f =>
      obtain ⟨_, s₁, hadd, h⟩ := exists_of_bind h
      exact ih (T.adds (adds_of_function hadd) (.function rfl rfl rfl)) h
    | variableItem v => exact ih T h

theorem members {ys : List Member} (hx : x ∈ done) (T : s.Titled done)
    (h : Declare.members x.source x.scopes ys s = .ok u s') : s'.Titled done := by
  induction ys generalizing s with
  | nil =>
    cases h
    exact T
  | cons y rest ih =>
    obtain ⟨_, s₁, hmember, hrest⟩ := exists_of_bind h
    refine ih ?_ hrest
    cases y with
    | method f => exact T.adds (adds_of_function hmember) (.method hx rfl rfl rfl)
    | constructor f => exact T.adds (adds_of_constructor hmember) (.constructor hx rfl rfl)
    | field v =>
      obtain ⟨_, _, H⟩ := sameFunctions_variableDef hmember
      exact T.sameFunctions H

theorem closes (T : s.Titled done) (C : Closes done x s s') : s'.Titled (x :: done) := by
  cases C with
  | intro _ _ _ _ _ _ _ _ generics filled members supplied resolved =>
    have hx : x ∈ x :: done := List.mem_cons_self
    have T₀ : s.Titled (x :: done) := fun f hf => (T f hf).mono (List.subset_cons_self ..)
    have T₁ := Titled.members hx (fun f hf => T₀ f ?_) members
    · split at supplied
      · subst supplied
        exact T₁
      · obtain ⟨_, hadd⟩ := supplied
        have T₂ := T₁.adds (adds_of_constructor hadd) (.constructor hx rfl rfl)
        exact T₂
    · obtain ⟨_, H⟩ := sameFunctions_bindGenerics generics
      rwa [H.functions] at hf

theorem advances {start : Stage Declarations} {opens : List Begun} (T : start.Titled [])
    (A : Advances classes start opens done s) : s.Titled done := by
  induction A with
  | refl => exact T
  | begin before kept completing listed fresh step ih =>
    obtain ⟨⟨_, _, H⟩, _⟩ := openClass_distinct step
    exact ih.sameFunctions H
  | close before kept completing next step entry ih =>
    exact ih.closes (closes_of_closeClass kept completing next step entry)

end Stage.Titled

/-! ## Looking functions up -/

/-- The name that the qualified name of a function begins with: that of its class, or its own. -/
def Symbols.leadingName? (s : Symbols) (f : FunctionEntry) : Option String :=
  match f.owner with
  | none => some f.name
  | some owner => (s.type? owner).map (·.name)

/-- The qualified name that begins with a name. -/
def FunctionEntry.title (f : FunctionEntry) (leading : String) : String :=
  match f.owner with
  | none => leading
  | some _ => leading ++ "." ++ f.name

/-- A registered function, but no constructor, whose qualified name begins with a name without a
dot. -/
structure Symbols.Addressable (s : Symbols) (f : FunctionEntry) : Prop where
  registered : f ∈ s.functions
  notConstructor : f.traits.isConstructor = false
  undotted : ∀ name ∈ s.leadingName? f, '.' ∉ name.toList

namespace FunctionEntry.Titled

variable {f : FunctionEntry} {done : List Completed} {s : Symbols}

theorem leadingName? (T : f.Titled done) (hdone : ∀ x ∈ done, s.type? x.key = some x.entry) :
    ∃ name, s.leadingName? f = some name ∧
      (f.traits.isConstructor = false → f.qualifiedName = f.title name) := by
  have hclass : ∀ {x}, x ∈ done → f.owner = some x.key →
      s.leadingName? f = some x.source.name.name := by
    intro x hx howner
    rw [Symbols.leadingName?, howner]
    simp only [hdone x hx]
    rfl
  cases T with
  | function owner key title =>
    refine ⟨f.name, ?_, fun _ => ?_⟩
    · rw [Symbols.leadingName?, owner]
    · rw [FunctionEntry.title, owner, title]
  | @method x hx owner key title =>
    refine ⟨x.source.name.name, hclass hx owner, fun _ => ?_⟩
    rw [FunctionEntry.title, owner, title]
  | @constructor x hx owner isConstructor =>
    refine ⟨x.source.name.name, hclass hx owner, fun hnot => ?_⟩
    cases isConstructor.symm.trans hnot

/-- A search by the qualified name asks for the key of the function. -/
theorem keyOfName (T : f.Titled done) (hdone : ∀ x ∈ done, s.type? x.key = some x.entry)
    (A : s.Addressable f) : Symbols.keyOfName f.qualifiedName = f.key := by
  obtain ⟨name, hname, htitle⟩ := T.leadingName? hdone
  have hundotted := A.undotted name hname
  rw [htitle A.notConstructor]
  cases T with
  | function owner key title =>
    rw [Symbols.leadingName?, owner] at hname
    cases hname
    rw [FunctionEntry.title, owner, key]
    exact Symbols.keyOfName_function hundotted
  | @method x hx owner key title =>
    rw [Symbols.leadingName?, owner] at hname
    simp only [hdone x hx, Option.map_some, Option.some.injEq] at hname
    subst hname
    rw [FunctionEntry.title, owner, key]
    exact Symbols.keyOfName_method hundotted f.name
  | constructor hx owner isConstructor => cases isConstructor.symm.trans A.notConstructor

end FunctionEntry.Titled

namespace Workspace

theorem declare_functionNamed {script : Script} {o : Options} {d : Declarations}
    {problems : List Problem} {w : Workspace}
    (h : Workspace.declare script (.ofOptions o) = .ok (d, problems) w) :
    (∀ f ∈ w.symbols.functions, ∃ name, w.symbols.leadingName? f = some name ∧
      (f.traits.isConstructor = false → f.qualifiedName = f.title name)) ∧
    (∀ f, w.symbols.Addressable f → w.symbols.functionNamed? f.qualifiedName = some f) ∧
    ∀ f g, w.symbols.Addressable f → w.symbols.Addressable g →
      f.qualifiedName = g.qualifiedName → f = g := by
  obtain ⟨g, classes, done, cut, s, F, K, I, ⟨s₁, s₂, _, hnames, hadvances, hglobals⟩, H⟩ :=
    declare_arrives h
  have T₀ : Stage.Titled { work := .ofOptions o, report := {} } [] :=
    fun _ hf => absurd hf List.not_mem_nil
  obtain ⟨_, _, Hglobals⟩ := Declare.sameFunctions_globals hglobals
  have T := ((T₀.names hnames).advances hadvances).sameFunctions (Hglobals.trans (.ofLinks H))
  have hdone : ∀ x ∈ done, w.symbols.type? x.key = some x.entry := fun x hx =>
    (K.type? x.key).trans (F.closed x hx)
  have hfind : ∀ f, w.symbols.Addressable f →
      w.symbols.functionNamed? f.qualifiedName = some f := by
    intro f A
    rw [Symbols.functionNamed?, (T f A.registered).keyOfName hdone A]
    exact Symbols.function?_of_mem (settled_of_links h F I H).1.keys A.registered
  refine ⟨fun f hf => (T f hf).leadingName? hdone, hfind, fun f g hf hg hsame => ?_⟩
  exact Option.some.inj ((hfind f hf).symm.trans (hsame ▸ hfind g hg))

end Workspace

/-- A class with a constructor and with a method that has the same qualified name. -/
def Script.homonyms : Script where
  items :=
    [.classItem { name := ⟨"C", ⟨1, 1, 1⟩⟩, span := ⟨1, 1, 1⟩, members :=
      [.constructor { name := ⟨"new", ⟨2, 1, 3⟩⟩, span := ⟨2, 1, 3⟩ },
       .method { name := ⟨"new", ⟨3, 1, 3⟩⟩, span := ⟨3, 1, 3⟩ },
       .method { name := ⟨"a.b", ⟨4, 1, 3⟩⟩, span := ⟨4, 1, 3⟩ }] }]

theorem Workspace.declare_functionNamed_homonyms :
    ∃ d w, Workspace.declare .homonyms (.ofOptions {}) = .ok (d, []) w ∧
      ∀ name ∈ ["C.new", "C.a.b"], ∃ f, w.symbols.Addressable f ∧ f.qualifiedName = name ∧
        w.symbols.functionNamed? name = some f := by
  have htest : Script.homonyms.declaredWith {} (fun _ w => ["C.new", "C.a.b"].all fun name =>
      w.symbols.functions.any fun f => f.qualifiedName == name && !f.traits.isConstructor &&
        w.symbols.leadingName? f == some "C") = true := by
    decide +kernel
  obtain ⟨d, w, h, hmethods⟩ := Script.exists_of_declaredWith htest
  refine ⟨d, w, h, fun name hname => ?_⟩
  obtain ⟨f, hf, hmethod⟩ := List.any_eq_true.mp (List.all_eq_true.mp hmethods name hname)
  simp only [Bool.and_eq_true, beq_iff_eq, Bool.not_eq_true'] at hmethod
  obtain ⟨⟨rfl, hconstructor⟩, hleading⟩ := hmethod
  have A : w.symbols.Addressable f := by
    refine ⟨hf, hconstructor, fun name hname => ?_⟩
    cases Option.some.inj (hleading.symm.trans hname)
    decide
  exact ⟨f, A, rfl, (declare_functionNamed h).2.1 f A⟩

end Stackless
