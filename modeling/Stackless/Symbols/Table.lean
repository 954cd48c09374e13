import Stackless.Symbols.Calls
import Stackless.Symbols.Scope

/-!
# Symbol table

Everything that a script declares: types, functions, scopes, and the calls between functions.
Types and functions are kept in the order in which they were added.
-/

namespace Stackless

/-- How far the members of a type are known. -/
inductive Progress where
  | unresolved
  | inProgress
  | resolved
  deriving DecidableEq

/-- The scopes of the members of a class. -/
structure MemberScopes where
  static : ScopeId
  object : ScopeId
  deriving DecidableEq

/-- A class, or a generic parameter of a class. -/
structure TypeEntry where
  name : String
  key : Key
  span : Span
  /-- The class whose generic parameter this is. -/
  owner : Option Key := none
  isSealed : Bool := false
  generics : List Key := []
  /-- The class that is extended. -/
  base : Option Key := none
  members : Option MemberScopes := none
  progress : Progress := .unresolved

namespace TypeEntry

def ofClass (name : String) (span : Span) (isSealed : Bool) : TypeEntry :=
  { name, key := .type name, span, isSealed }

def ofGeneric (owner : Key) (name : String) (span : Span) : TypeEntry :=
  { name, key := .genericParameter owner name, span, owner := some owner, progress := .resolved }

def isClass (t : TypeEntry) : Bool := t.owner.isNone

end TypeEntry

structure Traits where
  isStatic : Bool := false
  /-- The function may call itself. -/
  isRecursive : Bool := false
  isConstructor : Bool := false
  /-- The constructor was not written but supplied. -/
  isDefault : Bool := false
  deriving DecidableEq

structure FunctionEntry where
  name : String
  /-- The name with the owner before it. -/
  qualifiedName : String
  key : Key
  owner : Option Key := none
  traits : Traits := {}
  span : Span
  params : List String := []
  scope : Option ScopeId := none
  /-- The variables of the parameters. -/
  parameters : List VariableId := []
  /-- The parameters keep a frame for each live call. -/
  stacked : Bool := false

namespace FunctionEntry

def ofGlobal (name : String) (span : Span) : FunctionEntry :=
  { name, qualifiedName := name, key := .function name, span }

def ofMethod (owner : Key) (ownerName name : String) (span : Span) : FunctionEntry :=
  { name, qualifiedName := ownerName ++ "." ++ name, key := .method owner name,
    owner := some owner, span }

def ofConstructor (owner : Key) (ownerName : String) (arity : Nat) (span : Span) :
    FunctionEntry :=
  { name := "new", qualifiedName := ownerName ++ ".new",
    key := .constructor owner (UInt64.ofNat arity), owner := some owner,
    traits := { isConstructor := true }, span }

def arity (f : FunctionEntry) : Nat := f.params.length

end FunctionEntry

structure Symbols where
  types : List TypeEntry := []
  functions : List FunctionEntry := []
  scopes : Scopes := {}
  calls : Calls := .empty

namespace Symbols

instance : Inhabited Symbols := ⟨{}⟩

/-! ## Types -/

def type? (s : Symbols) (key : Key) : Option TypeEntry := s.types.find? (·.key = key)

def addType (s : Symbols) (t : TypeEntry) : Except Problem Symbols :=
  match s.type? t.key with
  | some _ => .error (.redefined "type" t.name t.span)
  | none => .ok { s with types := s.types ++ [t] }

def updateType (s : Symbols) (key : Key) (f : TypeEntry → TypeEntry) : Symbols :=
  { s with types := s.types.map fun t => if t.key = key then f t else t }

/-- The type that the root scope binds to a name. -/
def typeNamed? (s : Symbols) (name : String) : Option TypeEntry :=
  match s.scopes.lookupType .root name with
  | some key => s.type? key
  | none => none

/-- The type that a type extends. -/
def base? (s : Symbols) (key : Key) : Option Key :=
  match s.type? key with
  | some t => t.base
  | none => none

/-- A type and the types that it extends directly or through others, nearest first. -/
def baseChain (s : Symbols) (key : Key) : List Key := trail s.base? s.types.length key

/-! ## Functions -/

def function? (s : Symbols) (key : Key) : Option FunctionEntry :=
  s.functions.find? (·.key = key)

def addFunction (s : Symbols) (f : FunctionEntry) : Except Problem Symbols :=
  match s.function? f.key with
  | some _ => .error (.redefined "function" f.qualifiedName f.span)
  | none =>
    .ok { s with functions := s.functions ++ [f], calls := s.calls.addFunction f.key }

def updateFunction (s : Symbols) (key : Key) (f : FunctionEntry → FunctionEntry) : Symbols :=
  { s with functions := s.functions.map fun g => if g.key = key then f g else g }

/-- The key that a name stands for. What is before the first dot is the owner of a method. -/
def keyOfName (name : String) : Key :=
  match name.toList.span (· != '.') with
  | (owner, _ :: method) => .method (.type (String.ofList owner)) (String.ofList method)
  | (_, []) => .function name

def functionNamed? (s : Symbols) (name : String) : Option FunctionEntry :=
  s.function? (keyOfName name)

def constructor? (s : Symbols) (owner : Key) (arity : Nat) : Option FunctionEntry :=
  s.function? (.constructor owner (UInt64.ofNat arity))

def constructors (s : Symbols) (owner : Key) : List FunctionEntry :=
  s.functions.filter fun f => f.traits.isConstructor ∧ f.owner = some owner

/-- The name of a function, or the text of its key if it is unknown. -/
def functionName (s : Symbols) (key : Key) : String :=
  match s.function? key with
  | some f => f.qualifiedName
  | none => key.text

/-- Record one call. -/
def recordCall (s : Symbols) (caller callee : Key) (site : Span) : Symbols :=
  { s with calls := s.calls.record caller callee site }

end Symbols

end Stackless
