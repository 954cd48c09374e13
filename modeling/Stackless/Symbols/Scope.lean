import Stackless.Dict
import Stackless.Id
import Stackless.Key
import Stackless.Problem
import Stackless.Trail

/-!
# Scopes

Scopes bind names to variables and functions, and separately to types. A name that a scope does
not bind is looked up in the scope around it. The scopes of a class take over the bindings of
the class it extends; a declaration in the class itself replaces a binding that was taken over.
-/

namespace Stackless

/-- What a name is bound to. -/
inductive Symbol where
  | ofVariable (id : VariableId)
  | ofFunction (key : Key)
  deriving DecidableEq

namespace Symbol

def text : Symbol → String
  | .ofVariable id => id.text
  | .ofFunction key => key.text

def toVariable? : Symbol → Option VariableId
  | .ofVariable id => some id
  | .ofFunction _ => none

def toFunction? : Symbol → Option Key
  | .ofVariable _ => none
  | .ofFunction key => some key

end Symbol

/-- A binding with the place where it was declared. -/
structure Binding where
  symbol : Symbol
  span : Span
  /-- The binding was taken over from another scope. -/
  inherited : Bool := false
  deriving DecidableEq

inductive ScopeKind where
  | root
  /-- The members that belong to a class. -/
  | static
  /-- The members that belong to the objects of a class. -/
  | object
  | function
  | block
  deriving DecidableEq

structure Scope where
  parent : Option ScopeId
  kind : ScopeKind
  name : String
  bindings : Dict String Binding := {}
  types : Dict String Key := {}

namespace Scope

/-- Add the bindings of names that the scope does not bind yet, marked as taken over. -/
def inherit (s : Scope) : List (String × Binding) → Scope
  | [] => s
  | (name, b) :: rest =>
    if s.bindings.contains name then s.inherit rest
    else ({ s with bindings := s.bindings.put name { b with inherited := true } }).inherit rest

end Scope

/-- All scopes, in the order in which they were created; the first is the root. -/
structure Scopes where
  all : Array Scope := #[{ parent := none, kind := .root, name := "<root>" }]

namespace Scopes

instance : Inhabited Scopes := ⟨{}⟩

def get? (s : Scopes) (id : ScopeId) : Option Scope := s.all[id.index]?

def size (s : Scopes) : Nat := s.all.size

/-- The id of the scope that is created next. -/
def nextId (s : Scopes) : ScopeId := ⟨s.size⟩

/-- Create a scope inside another. -/
def child (s : Scopes) (parent : ScopeId) (kind : ScopeKind) (name : String) : Scopes :=
  ⟨s.all.push { parent := some parent, kind, name }⟩

def parent? (s : Scopes) (id : ScopeId) : Option ScopeId :=
  match s.get? id with
  | some scope => scope.parent
  | none => none

/-- A scope and the scopes around it, from the inside out. -/
def enclosing (s : Scopes) (id : ScopeId) : List ScopeId := trail s.parent? s.size id

/-- The binding of a name in a scope itself. -/
def binding? (s : Scopes) (id : ScopeId) (name : String) : Option Binding :=
  match s.get? id with
  | some scope => scope.bindings.get? name
  | none => none

/-- The nearest binding of a name, and the scope that holds it. -/
def lookup (s : Scopes) (id : ScopeId) (name : String) : Option (ScopeId × Binding) :=
  (s.enclosing id).findSome? fun i => (s.binding? i name).map (i, ·)

/-- The type bound to a name in a scope itself. -/
def type? (s : Scopes) (id : ScopeId) (name : String) : Option Key :=
  match s.get? id with
  | some scope => scope.types.get? name
  | none => none

/-- The type that is bound nearest to a name. -/
def lookupType (s : Scopes) (id : ScopeId) (name : String) : Option Key :=
  (s.enclosing id).findSome? (s.type? · name)

def missing (id : ScopeId) : Fault := .internal (id.text ++ " does not exist")

/-- Put a scope in the place of another. -/
def replace (s : Scopes) (id : ScopeId) (scope : Scope) : Scopes :=
  ⟨s.all.setIfInBounds id.index scope⟩

/-- Bind a name in a scope. A name that the scope itself declared stays as it is. -/
def declare (s : Scopes) (id : ScopeId) (name : String) (symbol : Symbol) (span : Span) :
    Except Refusal Scopes :=
  match s.get? id with
  | none => .error (.fault (missing id))
  | some scope =>
    let bound := s.replace id { scope with bindings := scope.bindings.put name { symbol, span } }
    match scope.bindings.get? name with
    | none => .ok bound
    | some old =>
      if old.inherited then .ok bound
      else
        match symbol with
        | .ofVariable _ => .error (.problem (.redeclared name old.span span))
        | .ofFunction _ => .error (.problem (.redefined "function" name span))

/-- Bind a name to a type in a scope. -/
def declareType (s : Scopes) (id : ScopeId) (name : String) (key : Key) (span : Span) :
    Except Refusal Scopes :=
  match s.get? id with
  | none => .error (.fault (missing id))
  | some scope =>
    if scope.types.contains name then .error (.problem (.redefined "type" name span))
    else .ok (s.replace id { scope with types := scope.types.put name key })

/-- Take over the bindings of `source` that `target` lacks; the result counts them. -/
def merge (s : Scopes) (target source : ScopeId) : Except Fault (Nat × Scopes) :=
  if target = source then .error (.internal ("cannot merge " ++ target.text ++ " into itself"))
  else
    match s.get? source, s.get? target with
    | none, _ => .error (missing source)
    | _, none => .error (missing target)
    | some giver, some taker =>
      let merged := taker.inherit giver.bindings.entries
      .ok (merged.bindings.size - taker.bindings.size, s.replace target merged)

end Scopes

end Stackless
