import Stackless.Machine.Slot
import Stackless.Number.Basic
import Stackless.Script.Span

/-!
# Scripts

The tree of a script as a front end delivers it. Every node has a span of its own; a node that is
known by a name usually has the span of that name.
-/

namespace Stackless

/-- An occurrence of a name. -/
structure Ident where
  name : String
  span : Span
  deriving DecidableEq, Inhabited

inductive BinaryOp where
  | add
  | sub
  | mul
  | div
  | less
  | greater
  | equal
  deriving DecidableEq

inductive Expr where
  | number (span : Span) (value : Number)
  | reference (name : Ident)
  /-- A call of a function, which can be looked up in a given type. -/
  | call (span : Span) (qualifier : Option Ident) (name : Ident) (args : List Expr)
  /-- The creation of an object. -/
  | create (span : Span) (type : Ident) (args : List Expr)
  | assign (span : Span) (target : Ident) (value : Expr)
  /-- The assignment to one item of the array in a variable. -/
  | assignItem (span : Span) (target : Ident) (index value : Expr)
  | binary (span : Span) (op : BinaryOp) (left right : Expr)
  | index (span : Span) (base index : Expr)

namespace Expr

instance : Inhabited Expr := ⟨.number {} .zero⟩

def span : Expr → Span
  | .number span _ | .call span .. | .create span .. | .assign span .. | .assignItem span ..
  | .binary span .. | .index span .. => span
  | .reference name => name.span

end Expr

/-- The declaration of a variable, in a class, in a function or outside both. -/
structure VariableDef where
  domain : Domain
  name : Ident
  span : Span
  init : Option Expr := none
  isStatic : Bool := false

inductive Stmt where
  | expr (span : Span) (e : Expr)
  | declare (v : VariableDef)
  | ret (span : Span) (value : Option Expr)
  | block (span : Span) (body : List Stmt)
  | ifThen (span : Span) (condition : Expr) (thenSpan : Span) (body : List Stmt)
  | ifElse (span : Span) (condition : Expr) (thenSpan : Span) (body : List Stmt)
      (elseSpan : Span) (other : List Stmt)
  | loop (span : Span) (condition : Expr) (bodySpan : Span) (body : List Stmt)

namespace Stmt

instance : Inhabited Stmt := ⟨.ret {} none⟩

def span : Stmt → Span
  | .declare v => v.span
  | .expr span _ | .ret span _ | .block span _ | .ifThen span .. | .ifElse span ..
  | .loop span .. => span

end Stmt

structure Block where
  span : Span
  body : List Stmt

structure Param where
  name : Ident
  span : Span

/-- A function, method or constructor. -/
structure FunctionDef where
  name : Ident
  span : Span
  params : List Param := []
  body : Option Block := none
  isStatic : Bool := false
  /-- The function may call itself. -/
  isRecursive : Bool := false

/-- A type with the arguments for its generic parameters. -/
inductive TypeRef where
  | mk (span : Span) (name : Ident) (args : List TypeRef)

namespace TypeRef

def span : TypeRef → Span
  | .mk span _ _ => span

def name : TypeRef → Ident
  | .mk _ name _ => name

def args : TypeRef → List TypeRef
  | .mk _ _ args => args

instance : Inhabited TypeRef := ⟨.mk default default []⟩

end TypeRef

inductive Member where
  | method (f : FunctionDef)
  | constructor (f : FunctionDef)
  | field (v : VariableDef)

namespace Member

/-- A member that belongs to the class and not to its objects. -/
def isStatic : Member → Bool
  | .method f => f.isStatic
  | .constructor _ => false
  | .field v => v.isStatic

def isConstructor : Member → Bool
  | .constructor _ => true
  | .method _ | .field _ => false

end Member

structure ClassDef where
  name : Ident
  span : Span
  generics : List Ident := []
  base : Option TypeRef := none
  members : List Member := []
  isSealed : Bool := false

inductive Item where
  | classItem (c : ClassDef)
  | functionItem (f : FunctionDef)
  | variableItem (v : VariableDef)

def Item.span : Item → Span
  | .classItem c => c.span
  | .functionItem f => f.span
  | .variableItem v => v.span

structure Script where
  items : List Item
  span : Span := ⟨1, 1, 0⟩

end Stackless
