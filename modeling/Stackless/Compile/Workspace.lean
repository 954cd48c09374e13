import Stackless.Storage.Layout
import Stackless.Symbols.Table

/-!
# Workspace

What a compilation works on: the symbol table and the layout. A pass over a script changes the
workspace, writes a report and collects problems; it ends early only by a fault, and then what
it did to the workspace so far remains.
-/

namespace Stackless

structure Workspace where
  symbols : Symbols := {}
  layout : Layout

namespace Workspace

def ofOptions (o : Options) : Workspace := { layout := { options := o } }

/-- Change the symbol table, unless the change is refused. -/
def onSymbols (change : Symbols → Except Refusal Symbols) : EStateM Refusal Workspace Unit :=
  fun w =>
    match change w.symbols with
    | .ok s => .ok () { w with symbols := s }
    | .error r => .error r w

/-- Change the scopes, unless the change is refused. -/
def onScopes (change : Scopes → Except Refusal Scopes) : EStateM Refusal Workspace Unit :=
  onSymbols fun s =>
    match change s.scopes with
    | .ok scopes => .ok { s with scopes }
    | .error r => .error r

def addType (t : TypeEntry) : EStateM Refusal Workspace Unit :=
  onSymbols fun s => (s.addType t).mapError .problem

def addFunction (f : FunctionEntry) : EStateM Refusal Workspace Unit :=
  onSymbols fun s => (s.addFunction f).mapError .problem

/-- Take over the bindings of `source` that `target` lacks. -/
def merge (target source : ScopeId) : EStateM Fault Workspace Nat := fun w =>
  match w.symbols.scopes.merge target source with
  | .ok (n, scopes) => .ok n { w with symbols := { w.symbols with scopes } }
  | .error f => .error f w

/-- Create a variable and bind its name in a scope. A name that the scope itself declared is
refused before any storage is handed out. -/
def declareVariable (scope : ScopeId) (name : String) (domain : Domain) (kind : VariableKind)
    (span : Span) : EStateM Refusal Workspace VariableId := fun w =>
  match (w.symbols.scopes.binding? scope name).filter (!·.inherited) with
  | some old => .error (.problem (.redeclared name old.span span)) w
  | none =>
    match Layout.takeLocation domain w.layout with
    | .error f layout => .error (.fault f) { w with layout }
    | .ok location layout =>
      let id := layout.nextId
      match w.symbols.scopes.declare scope name (.ofVariable id) span with
      | .error r => .error r { w with layout }
      | .ok scopes =>
        .ok id
          { symbols := { w.symbols with scopes }
            layout := layout.push { id, name, location, kind, scope := some scope, span } }

/-- Run a step on the layout. -/
def onLayout {α : Type} (step : EStateM Fault Layout α) : EStateM Fault Workspace α := fun w =>
  match step w.layout with
  | .ok a layout => .ok a { w with layout }
  | .error f layout => .error f { w with layout }

/-- Create a variable that no scope binds. -/
def addInternal (name : String) (domain : Domain) : EStateM Fault Workspace VariableId :=
  onLayout (Layout.addInternal name domain)

end Workspace

/-- The state of a pass. -/
structure Stage (ρ : Type) where
  work : Workspace
  report : ρ
  problems : List Problem := []

/-- A pass that writes a report of type `ρ`. -/
abbrev Pass (ρ : Type) := EStateM Fault (Stage ρ)

namespace Pass

variable {ρ α : Type}

/-- Run a pass from an empty list of problems. -/
def run (pass : Pass ρ Unit) (report : ρ) : EStateM Fault Workspace (ρ × List Problem) :=
  fun work =>
    match pass { work, report } with
    | .ok _ s => .ok (s.report, s.problems) s.work
    | .error f s => .error f s.work

def symbols : Pass ρ Symbols := do
  return (← get).work.symbols

def modifySymbols (f : Symbols → Symbols) : Pass ρ Unit :=
  modify fun s => { s with work := { s.work with symbols := f s.work.symbols } }

/-- Change the report. -/
def note (f : ρ → ρ) : Pass ρ Unit := modify fun s => { s with report := f s.report }

def addProblems (ps : List Problem) : Pass ρ Unit :=
  modify fun s => { s with problems := s.problems ++ ps }

/-- Do a step that can only fail by a fault. -/
def lift (step : EStateM Fault Workspace α) : Pass ρ α := fun s =>
  match step s.work with
  | .ok a work => .ok a { s with work }
  | .error f work => .error f { s with work }

/-- Do a step; if it is refused because of a problem, add the problem and go on. -/
def attempt (step : EStateM Refusal Workspace α) : Pass ρ (Option α) := fun s =>
  match step s.work with
  | .ok a work => .ok (some a) { s with work }
  | .error (.problem p) work => .ok none { s with work, problems := s.problems ++ [p] }
  | .error (.fault f) work => .error f { s with work }

/-- Create a scope inside another. -/
def newScope (parent : ScopeId) (kind : ScopeKind) (name : String) : Pass ρ ScopeId := do
  let id := (← symbols).scopes.nextId
  modifySymbols fun s => { s with scopes := s.scopes.child parent kind name }
  return id

end Pass

end Stackless
