import Stackless.Compile.Inheritance

/-!
# Linkage

Every call is linked to the function it means, and recorded if it is in the body of a function.
A call with a wrong number of arguments is linked nevertheless.
-/

namespace Stackless

/-- The function that a call means, and what is wrong with the call. -/
structure Link where
  callee : Key
  mismatch : Option Problem := none

namespace Symbols

/-- The function that a class binds to a name: members of its objects come first. -/
def memberFunction? (s : Symbols) (type : Key) (name : String) : Option Key :=
  match (s.type? type).bind (·.members) with
  | none => none
  | some m =>
    [m.object, m.static].findSome? fun scope =>
      (s.scopes.binding? scope name).bind (·.symbol.toFunction?)

/-- The function that is bound nearest to a name. -/
def nearestFunction? (s : Symbols) (scope : ScopeId) (name : String) : Option Key :=
  (s.scopes.lookup scope name).bind (·.2.symbol.toFunction?)

/-- A call with a wrong number of arguments, as a problem. -/
def mismatch (f : FunctionEntry) (site : CallSite) : Problem :=
  .argumentCount f.qualifiedName f.arity site.arity site.span

/-- Link a call to a function, and compare the numbers of arguments and parameters. -/
def linkTo (s : Symbols) (site : CallSite) (callee : Key) : Link :=
  match s.function? callee with
  | none => { callee }
  | some f =>
    { callee, mismatch := if f.arity = site.arity then none else some (mismatch f site) }

/-- Link a creation to the constructor for its number of arguments, or else to the only one
there is. -/
def linkConstructor? (s : Symbols) (site : CallSite) (type : Key) : Option Link :=
  match s.constructor? type site.arity with
  | some f => some { callee := f.key }
  | none =>
    match s.constructors type with
    | [f] => some { callee := f.key, mismatch := some (mismatch f site) }
    | _ => none

/-- Find out what a call means. -/
def link (s : Symbols) (scope : ScopeId) (site : CallSite) : Except Problem Link :=
  let found (l : Option Link) : Except Problem Link :=
    match l with
    | some l => .ok l
    | none => .error (.unknownFunction site.name site.span)
  match site.callee with
  | .function none name => found ((s.nearestFunction? scope name.name).map (s.linkTo site))
  | .function (some qualifier) name =>
    match s.scopes.lookupType scope qualifier.name with
    | some type => found ((s.memberFunction? type name.name).map (s.linkTo site))
    | none => .error (.unknownType qualifier.name qualifier.span)
  | .constructor type =>
    match s.scopes.lookupType scope type.name with
    | some key => found (s.linkConstructor? site key)
    | none => .error (.unknownType type.name type.span)

end Symbols

namespace Declare

/-- Link one call; only a call that has a caller is recorded. -/
def linkSite (caller : Option Key) (scope : ScopeId) (site : CallSite) : Declare Unit := do
  match (← Pass.symbols).link scope site with
  | .error p => Pass.addProblems [p]
  | .ok link =>
    Pass.addProblems link.mismatch.toList
    match caller with
    | none => return
    | some caller =>
      Pass.modifySymbols (·.recordCall caller link.callee site.span)
      Pass.note fun d => { d with callCount := d.callCount + 1 }

def linkSites (caller : Option Key) (scope : ScopeId) : List CallSite → Declare Unit
  | [] => return
  | site :: rest => do
    linkSite caller scope site
    linkSites caller scope rest

def linkBodies : List Body → Declare Unit
  | [] => return
  | b :: rest => do
    linkSites (some b.function) b.scope b.source.callSites
    linkBodies rest

def linkInitializers : List Initializer → Declare Unit
  | [] => return
  | i :: rest => do
    linkSites none i.scope i.expr.callSites
    linkInitializers rest

/-- Declare everything in a script outside the bodies of functions, and link all calls. -/
def script (s : Script) : Declare Unit := do
  let classes ← names s.items
  completeAll classes classes
  globals s.items
  let d := (← get).report
  linkBodies d.bodies
  linkInitializers d.initializers

end Declare

end Stackless
