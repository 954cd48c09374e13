import Stackless.Compile.Workspace
import Stackless.Script.Occurrence

/-!
# Declarations

The first steps of a compilation: every class and function outside classes is declared, so that
all parts of a script can refer to them, whatever their order.
-/

namespace Stackless

/-- A declared function together with the text it was declared by. -/
structure Body where
  function : Key
  scope : ScopeId
  source : FunctionDef

/-- An expression outside functions, which gives a variable its first value. -/
structure Initializer where
  scope : ScopeId
  expr : Expr

/-- What the declarations of a script amount to. -/
structure Declarations where
  /-- The number of classes whose members are known. -/
  typeCount : Nat := 0
  functionCount : Nat := 0
  variableCount : Nat := 0
  /-- The number of calls that were recorded. -/
  callCount : Nat := 0
  bodies : List Body := []
  initializers : List Initializer := []

abbrev Declare := Pass Declarations

def FunctionDef.traits (f : FunctionDef) : Traits :=
  { isStatic := f.isStatic, isRecursive := f.isRecursive }

def FunctionDef.paramNames (f : FunctionDef) : List String := f.params.map (·.name.name)

def ClassDef.key (c : ClassDef) : Key := .type c.name.name

namespace FunctionEntry

/-- The entry of a function outside classes. -/
def ofFunctionDef (f : FunctionDef) : FunctionEntry :=
  { FunctionEntry.ofGlobal f.name.name f.name.span with
    traits := f.traits, params := f.paramNames }

def ofMethodDef (c : ClassDef) (f : FunctionDef) : FunctionEntry :=
  { FunctionEntry.ofMethod c.key c.name.name f.name.name f.name.span with
    traits := f.traits, params := f.paramNames }

def ofConstructorDef (c : ClassDef) (f : FunctionDef) (isDefault : Bool) : FunctionEntry :=
  { FunctionEntry.ofConstructor c.key c.name.name f.params.length f.name.span with
    traits := { f.traits with isConstructor := true, isDefault }, params := f.paramNames }

end FunctionEntry

namespace Declare

/-- Give a registered function the scope of its body. -/
def addBody (f : FunctionEntry) (owner : ScopeId) (source : FunctionDef) : Declare Unit := do
  let scope ← Pass.newScope owner .function f.qualifiedName
  Pass.modifySymbols (·.updateFunction f.key fun g => { g with scope := some scope })
  Pass.note fun d =>
    { d with
      functionCount := d.functionCount + 1
      bodies := d.bodies ++ [{ function := f.key, scope, source }] }

/-- Declare a function and bind its name in the scope of its owner. A function whose key is
taken is dropped; one whose name is taken only stays unbound. -/
def function (f : FunctionEntry) (owner : ScopeId) (source : FunctionDef) : Declare Unit := do
  match ← Pass.attempt (Workspace.addFunction f) with
  | none => return
  | some _ =>
    let _ ← Pass.attempt
      (Workspace.onScopes fun s => s.declare owner f.name (.ofFunction f.key) f.span)
    addBody f owner source

/-- Declare a constructor, which no scope binds. -/
def constructor (f : FunctionEntry) (owner : ScopeId) (source : FunctionDef) : Declare Unit := do
  match ← Pass.attempt (Workspace.addFunction f) with
  | none => return
  | some _ => addBody f owner source

/-- Declare a variable outside functions. -/
def variableDef (scope : ScopeId) (v : VariableDef) : Declare Unit := do
  let id ← Pass.attempt
    (Workspace.declareVariable scope v.name.name v.domain .declared v.name.span)
  if id.isSome then
    Pass.note fun d => { d with variableCount := d.variableCount + 1 }
  match v.init with
  | some expr =>
    Pass.note fun d => { d with initializers := d.initializers ++ [{ scope, expr }] }
  | none => return

/-- Declare the name of a class; the result tells whether it was free. -/
def className (c : ClassDef) : Declare Bool := do
  match ← Pass.attempt (Workspace.addType (.ofClass c.name.name c.name.span c.isSealed)) with
  | none => return false
  | some _ =>
    let _ ← Pass.attempt
      (Workspace.onScopes fun s => s.declareType .root c.name.name c.key c.name.span)
    return true

/-- Declare all classes and all functions outside classes; the result lists the classes. -/
def names : List Item → Declare (List ClassDef)
  | [] => return []
  | .classItem c :: rest => do
    let isNew ← className c
    let classes ← names rest
    return if isNew then c :: classes else classes
  | .functionItem f :: rest => do
    function (.ofFunctionDef f) .root f
    names rest
  | .variableItem _ :: rest => names rest

/-- Declare all variables outside classes. -/
def globals : List Item → Declare Unit
  | [] => return
  | .variableItem v :: rest => do
    variableDef .root v
    globals rest
  | .classItem _ :: rest | .functionItem _ :: rest => globals rest

end Declare

end Stackless
