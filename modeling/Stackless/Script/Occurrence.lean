import Stackless.Script.Tree

/-!
# Occurrences

The places of a script where something is used: calls, and references to variables. Both are
listed in the order in which the text is read; a call comes before its arguments, and the target
of an assignment before the assigned value.
-/

namespace Stackless

/-- What a call asks for. -/
inductive Callee where
  | function (qualifier : Option Ident) (name : Ident)
  | constructor (type : Ident)

/-- A place where something is called. -/
structure CallSite where
  span : Span
  callee : Callee
  /-- The number of arguments. -/
  arity : Nat

/-- The callee as it is written. -/
def Callee.text : Callee → String
  | .function none name => name.name
  | .function (some qualifier) name => qualifier.name ++ "." ++ name.name
  | .constructor type => type.name ++ ".new"

def CallSite.name (c : CallSite) : String := c.callee.text

mutual

def Expr.callSites : Expr → List CallSite
  | .number .. | .reference _ => []
  | .call span qualifier name args =>
    ⟨span, .function qualifier name, args.length⟩ :: callSitesOfList args
  | .create span type args => ⟨span, .constructor type, args.length⟩ :: callSitesOfList args
  | .assign _ _ value => value.callSites
  | .assignItem _ _ i value => i.callSites ++ value.callSites
  | .binary _ _ left right => left.callSites ++ right.callSites
  | .index _ base i => base.callSites ++ i.callSites

def Expr.callSitesOfList : List Expr → List CallSite
  | [] => []
  | e :: es => e.callSites ++ callSitesOfList es

end

mutual

/-- The variables that are read or assigned. -/
def Expr.references : Expr → List Ident
  | .number .. => []
  | .reference name => [name]
  | .call _ _ _ args | .create _ _ args => referencesOfList args
  | .assign _ target value => target :: value.references
  | .assignItem _ target i value => target :: (i.references ++ value.references)
  | .binary _ _ left right => left.references ++ right.references
  | .index _ base i => base.references ++ i.references

def Expr.referencesOfList : List Expr → List Ident
  | [] => []
  | e :: es => e.references ++ referencesOfList es

end

namespace Stmt

mutual

/-- The expressions of a statement, those of nested statements included. -/
def exprs : Stmt → List Expr
  | .expr _ e => [e]
  | .declare v => v.init.toList
  | .ret _ value => value.toList
  | .block _ body => exprsOfList body
  | .ifThen _ condition _ body => condition :: exprsOfList body
  | .ifElse _ condition _ body _ other => condition :: (exprsOfList body ++ exprsOfList other)
  | .loop _ condition _ body => condition :: exprsOfList body

def exprsOfList : List Stmt → List Expr
  | [] => []
  | s :: ss => s.exprs ++ exprsOfList ss

end

end Stmt

def Block.exprs (b : Block) : List Expr := Stmt.exprsOfList b.body

def FunctionDef.exprs (f : FunctionDef) : List Expr :=
  match f.body with
  | some b => b.exprs
  | none => []

/-- The calls in the body of a function. -/
def FunctionDef.callSites (f : FunctionDef) : List CallSite := f.exprs.flatMap (·.callSites)

def Member.exprs : Member → List Expr
  | .method f | .constructor f => f.exprs
  | .field v => v.init.toList

def Item.exprs : Item → List Expr
  | .classItem c => c.members.flatMap (·.exprs)
  | .functionItem f => f.exprs
  | .variableItem v => v.init.toList

/-- All references to variables in a script. -/
def Script.references (s : Script) : List Ident :=
  (s.items.flatMap (·.exprs)).flatMap (·.references)

end Stackless
