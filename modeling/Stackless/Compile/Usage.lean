import Stackless.Compile.Declaration

/-!
# Usage of variables

Parameters and local variables are declared, and every reference is tied to the variable it
means. A block has a scope of its own. A local variable is visible from its declaration on, and
not in its own first value.
-/

namespace Stackless

/-- Which variables the bodies of a script declare and use. -/
structure Usage where
  parameterCount : Nat := 0
  localCount : Nat := 0
  /-- The variable of each reference, by the span of the reference. -/
  references : Dict Span VariableId := {}
  /-- The variable in which the arguments of a call are put together. -/
  staging : Option VariableId := none

abbrev Use := Pass Usage

namespace Use

/-- Tie a reference to the variable that is bound nearest to its name. -/
def reference (scope : ScopeId) (name : Ident) : Use Unit := do
  match ((← Pass.symbols).scopes.lookup scope name.name).bind (·.2.symbol.toVariable?) with
  | some id => Pass.note fun u => { u with references := u.references.put name.span id }
  | none => Pass.addProblems [.unknownVariable name.name name.span]

def references (scope : ScopeId) : List Ident → Use Unit
  | [] => return
  | name :: rest => do
    reference scope name
    references scope rest

def expr (scope : ScopeId) (e : Expr) : Use Unit := references scope e.references

/-- An expression that may be missing. -/
def expr? (scope : ScopeId) : Option Expr → Use Unit
  | some e => expr scope e
  | none => return

def declare (scope : ScopeId) (name : Ident) (domain : Domain) (kind : VariableKind) :
    Use (Option VariableId) :=
  Pass.attempt (Workspace.declareVariable scope name.name domain kind name.span)

mutual

def stmt (scope : ScopeId) : Stmt → Use Unit
  | .expr _ e => expr scope e
  | .declare v => do
    expr? scope v.init
    let id ← declare scope v.name v.domain .declared
    if id.isSome then
      Pass.note fun u => { u with localCount := u.localCount + 1 }
  | .ret _ value => expr? scope value
  | .block _ body => do
    stmts (← Pass.newScope scope .block "block") body
  | .ifThen _ condition _ body => do
    expr scope condition
    stmts (← Pass.newScope scope .block "block") body
  | .ifElse _ condition _ body _ other => do
    expr scope condition
    stmts (← Pass.newScope scope .block "block") body
    stmts (← Pass.newScope scope .block "block") other
  | .loop _ condition _ body => do
    expr scope condition
    stmts (← Pass.newScope scope .block "block") body

/-- The statements of one block. -/
def stmts (scope : ScopeId) : List Stmt → Use Unit
  | [] => return
  | s :: rest => do
    stmt scope s
    stmts scope rest

end

/-- Declare parameters; a parameter whose name is taken is dropped. -/
def params (scope : ScopeId) (stacked : Bool) : List Param → Use (List VariableId)
  | [] => return []
  | p :: rest => do
    match ← declare scope p.name .global .parameter with
    | none => params scope stacked rest
    | some id =>
      if stacked then
        modify fun s => { s with work := { s.work with layout := s.work.layout.stack id } }
      return id :: (← params scope stacked rest)

def body (b : Body) : Use Unit := do
  match (← Pass.symbols).function? b.function with
  | none => throw (.internal ("function " ++ b.function.text ++ " was never registered"))
  | some f =>
    let ids ← params b.scope f.stacked b.source.params
    Pass.note fun u => { u with parameterCount := u.parameterCount + ids.length }
    Pass.modifySymbols (·.updateFunction b.function fun f => { f with parameters := ids })
    match b.source.body with
    | some block => stmts b.scope block.body
    | none => return

def bodies : List Body → Use Unit
  | [] => return
  | b :: rest => do
    body b
    bodies rest

def initializers : List Initializer → Use Unit
  | [] => return
  | i :: rest => do
    expr i.scope i.expr
    initializers rest

/-- Some call has to pass two or more arguments in frames. -/
def needsStaging (s : Symbols) : Bool := s.functions.any fun f => f.stacked && 1 < f.arity

/-- Declare and tie all that the bodies and first values of a script use. -/
def declarations (d : Declarations) : Use Unit := do
  initializers d.initializers
  bodies d.bodies
  if needsStaging (← Pass.symbols) then
    let id ← Pass.lift (Workspace.addInternal "__call_args" .global)
    Pass.note fun u => { u with staging := some id }

end Use

end Stackless
