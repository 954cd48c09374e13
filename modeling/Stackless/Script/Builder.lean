import Stackless.Script.Tree

/-!
# Building scripts

Trees are built from the leaves up. Every name gets a fresh line, and so does every node that is
not known by a name; all of them start in column 1. A node that is known by a name takes the span
of that name.
-/

namespace Stackless

/-- A computation that takes fresh lines; the state is the next one. -/
abbrev Build := StateM Nat

namespace Build

/-- Build from line 1 on. -/
def run {α : Type} (b : Build α) : α × Nat := StateT.run b 1

/-- A span on a line of its own. -/
def fresh (length : Nat) : Build Span := fun line => (⟨line, 1, length⟩, line + 1)

/-- The occurrence of a name; its length is counted in bytes. -/
def ident (name : String) : Build Ident := do
  return ⟨name, ← fresh name.utf8ByteSize⟩

/-! ## Expressions -/

def number (value : Number) : Build Expr := do
  return .number (← fresh 1) value

def reference (name : String) : Build Expr := do
  return .reference (← ident name)

def call (name : String) (args : List Expr) : Build Expr := do
  let name ← ident name
  return .call name.span none name args

def qualifiedCall (qualifier name : String) (args : List Expr) : Build Expr := do
  let qualifier ← ident qualifier
  let name ← ident name
  return .call name.span (some qualifier) name args

def create (type : String) (args : List Expr) : Build Expr := do
  let type ← ident type
  return .create type.span type args

def assign (target : String) (value : Expr) : Build Expr := do
  let target ← ident target
  return .assign target.span target value

def assignItem (target : String) (index value : Expr) : Build Expr := do
  let target ← ident target
  return .assignItem target.span target index value

def binary (op : BinaryOp) (left right : Expr) : Build Expr := do
  return .binary (← fresh 1) op left right

def index (base index : Expr) : Build Expr := do
  return .index (← fresh 1) base index

/-! ## Statements -/

def exprStmt (e : Expr) : Build Stmt := return .expr e.span e

def ret (value : Option Expr) : Build Stmt := do
  return .ret (← fresh 6) value

def block (body : List Stmt) : Build Block := do
  return ⟨← fresh 1, body⟩

def blockStmt (body : List Stmt) : Build Stmt := do
  return .block (← fresh 1) body

def ifThen (condition : Expr) (body : List Stmt) : Build Stmt := do
  let thenSpan ← fresh 1
  return .ifThen (← fresh 2) condition thenSpan body

def ifElse (condition : Expr) (body other : List Stmt) : Build Stmt := do
  let thenSpan ← fresh 1
  let elseSpan ← fresh 1
  return .ifElse (← fresh 2) condition thenSpan body elseSpan other

def loop (condition : Expr) (body : List Stmt) : Build Stmt := do
  let bodySpan ← fresh 1
  return .loop (← fresh 5) condition bodySpan body

/-! ## Declarations -/

def variableDef (domain : Domain) (name : String) (init : Option Expr) : Build VariableDef := do
  let name ← ident name
  return { domain, name, span := name.span, init }

def typeRef (name : String) (args : List TypeRef) : Build TypeRef := do
  let name ← ident name
  return .mk name.span name args

/-- A function that has no parameters and no body yet. -/
def functionDef (name : String) : Build FunctionDef := do
  let name ← ident name
  return { name, span := name.span }

/-- A constructor that has no parameters and no body yet. -/
def constructorDef : Build FunctionDef := functionDef "new"

def addParam (f : FunctionDef) (name : String) : Build FunctionDef := do
  let name ← ident name
  return { f with params := f.params ++ [{ name, span := name.span }] }

def setBody (f : FunctionDef) (body : List Stmt) : Build FunctionDef := do
  return { f with body := some (← block body) }

/-- A class without members. -/
def classDef (name : String) : Build ClassDef := do
  let name ← ident name
  return { name, span := name.span }

def addGeneric (c : ClassDef) (name : String) : Build ClassDef := do
  return { c with generics := c.generics ++ [← ident name] }

end Build

end Stackless
