import Stackless.Calling.Convention
import Stackless.Compile.Linkage
import Stackless.Compile.Recursion
import Stackless.Compile.Usage
import Stackless.Storage.Report

/-!
# Programs

A compiled script: its symbols, where its variables live, and what its references mean.
-/

namespace Stackless

/-- Declare everything outside bodies and link all calls. -/
def Workspace.declare (s : Script) : EStateM Fault Workspace (Declarations × List Problem) :=
  (Declare.script s).run {}

/-- Check the recorded calls for recursion. -/
def Workspace.checkRecursion : EStateM Fault Workspace RecursionReport := fun w =>
  let (report, symbols) := w.symbols.checkRecursion
  .ok report { w with symbols }

/-- Declare and tie the variables of bodies. -/
def Workspace.use (d : Declarations) : EStateM Fault Workspace (Usage × List Problem) :=
  (Use.declarations d).run {}

structure Program where
  workspace : Workspace
  references : Dict Span VariableId
  staging : Option VariableId
  diagnostics : List Diagnostic

namespace Program

/-- Compile a script in a workspace that is new. -/
def build (s : Script) : EStateM Fault Workspace Program := do
  let (declarations, first) ← Workspace.declare s
  let recursion ← Workspace.checkRecursion
  let (usage, last) ← Workspace.use declarations
  return {
    workspace := ← get
    references := usage.references
    staging := usage.staging
    diagnostics := (first ++ recursion.problems ++ last).map .ofProblem }

/-- Compile a script. Problems become diagnostics of the program; a fault means that there is
no program. -/
def compile (s : Script) (o : Options) : Except Fault Program :=
  match o.validate with
  | .error f => .error f
  | .ok _ =>
    match build s (.ofOptions o) with
    | .ok p _ => .ok p
    | .error f _ => .error f

def symbols (p : Program) : Symbols := p.workspace.symbols

def layout (p : Program) : Layout := p.workspace.layout

def options (p : Program) : Options := p.layout.options

def errorCount (p : Program) : Nat := (p.diagnostics.filter (·.isError)).length

def warningCount (p : Program) : Nat := (p.diagnostics.filter (·.isWarning)).length

def isSuccess (p : Program) : Bool := p.errorCount == 0

def function? (p : Program) (name : String) : Option FunctionEntry :=
  p.symbols.functionNamed? name

def constructor? (p : Program) (type : String) (arity : Nat) : Option FunctionEntry :=
  match p.symbols.typeNamed? type with
  | some t => p.symbols.constructor? t.key arity
  | none => none

/-- The parameters of the function keep frames. -/
def isStacked (p : Program) (name : String) : Bool :=
  match p.function? name with
  | some f => f.stacked
  | none => false

/-- The variables of the parameters of a function. -/
def parameters (p : Program) (name : String) : List Variable :=
  match p.function? name with
  | some f => f.parameters.filterMap p.layout.get?
  | none => []

/-- The variable that the reference at a span means. -/
def reference? (p : Program) (span : Span) : Option Variable :=
  (p.references.get? span).bind p.layout.get?

/-- The way in which code uses a variable. -/
def access (p : Program) (id : VariableId) : Except Fault Access :=
  match p.layout.get? id with
  | some v => .ok (Access.ofVariable v p.options.scratch)
  | none => .error (.internal ("no variable " ++ id.text))

/-- What the calls of the program have at their disposal. -/
def convention (p : Program) : Convention :=
  { scratch := p.options.scratch, staging := p.staging.bind p.layout.get? }

end Program

end Stackless
