import Stackless.Script.Occurrence

/-!
# Reading a body in order

The statements and expressions of a body, each before those inside it. The calls and variables that
the compiler finds are those among them, in this order and each once (`FunctionDef.callSites_eq`,
`Expr.references_eq`).
-/

namespace Stackless

theorem filterMap_cons_toList {α β : Type} (f : α → Option β) (a : α) (l : List α) :
    (a :: l).filterMap f = (f a).toList ++ l.filterMap f := by
  rw [List.filterMap_cons]
  cases f a <;> rfl

namespace Expr

/-- The expressions directly inside an expression. -/
def children : Expr → List Expr
  | .number .. | .reference _ => []
  | .call _ _ _ args | .create _ _ args => args
  | .assign _ _ value => [value]
  | .assignItem _ _ i value => [i, value]
  | .binary _ _ left right => [left, right]
  | .index _ base i => [base, i]

theorem sizeOf_lt_of_mem_children {e c : Expr} (h : c ∈ e.children) : sizeOf c < sizeOf e := by
  cases e with
  | number | reference => cases h
  | call _ _ _ args | create _ _ args =>
    change c ∈ args at h
    have hlt := List.sizeOf_lt_of_mem h
    simp
    omega
  | assign | assignItem | binary | index =>
    simp [children] at h
    rcases h with rfl | rfl <;> simp <;> omega

/-- An expression and all expressions inside it. -/
def preorder (e : Expr) : List Expr := e :: e.children.attach.flatMap fun c => c.1.preorder
  termination_by sizeOf e
  decreasing_by exact sizeOf_lt_of_mem_children c.2

theorem preorder_eq (e : Expr) : e.preorder = e :: e.children.flatMap preorder := by
  rw [preorder, List.flatMap_subtype fun _ _ => rfl, List.unattach_attach]

/-- The call that an expression is. -/
def callSite? : Expr → Option CallSite
  | .call span qualifier name args => some ⟨span, .function qualifier name, args.length⟩
  | .create span type args => some ⟨span, .constructor type, args.length⟩
  | .number .. | .reference _ | .assign .. | .assignItem .. | .binary .. | .index .. => none

/-- The calls in an expression. -/
def calls (e : Expr) : List CallSite := e.preorder.filterMap callSite?

theorem calls_eq (e : Expr) : e.calls = e.callSite?.toList ++ e.children.flatMap calls := by
  rw [calls, preorder_eq, filterMap_cons_toList, List.filterMap_flatMap]
  rfl

/-- The variable that an expression reads or assigns. -/
def mentioned? : Expr → Option Ident
  | .reference name | .assign _ name _ | .assignItem _ name .. => some name
  | .number .. | .call .. | .create .. | .binary .. | .index .. => none

/-- The variables that are read or assigned in an expression. -/
def mentions (e : Expr) : List Ident := e.preorder.filterMap mentioned?

theorem mentions_eq (e : Expr) :
    e.mentions = e.mentioned?.toList ++ e.children.flatMap mentions := by
  rw [mentions, preorder_eq, filterMap_cons_toList, List.filterMap_flatMap]
  rfl

mutual

theorem references_eq (e : Expr) : e.references = e.mentions := by
  rw [mentions_eq]
  cases e with
  | number | reference => rfl
  | call _ _ _ args | create _ _ args => exact referencesOfList_eq args
  | assign span target value =>
    rw [references, references_eq value]
    exact congrArg _ (List.append_nil _).symm
  | assignItem span target i value =>
    rw [references, references_eq i, references_eq value]
    exact congrArg (target :: _ ++ ·) (List.append_nil _).symm
  | binary span op left right =>
    rw [references, references_eq left, references_eq right]
    exact congrArg _ (List.append_nil _).symm
  | index span base i =>
    rw [references, references_eq base, references_eq i]
    exact congrArg _ (List.append_nil _).symm

theorem referencesOfList_eq (es : List Expr) : referencesOfList es = es.flatMap mentions := by
  cases es with
  | nil => rfl
  | cons e es => rw [referencesOfList, references_eq e, referencesOfList_eq es, List.flatMap_cons]

end

mutual

theorem callSites_eq (e : Expr) : e.callSites = e.calls := by
  rw [calls_eq]
  cases e with
  | number | reference => rfl
  | call span qualifier name args => rw [callSites, callSitesOfList_eq args]; rfl
  | create span type args => rw [callSites, callSitesOfList_eq args]; rfl
  | assign span target value => rw [callSites, callSites_eq value]; exact (List.append_nil _).symm
  | assignItem span target i value =>
    rw [callSites, callSites_eq i, callSites_eq value]
    exact congrArg _ (List.append_nil _).symm
  | binary span op left right =>
    rw [callSites, callSites_eq left, callSites_eq right]
    exact congrArg _ (List.append_nil _).symm
  | index span base i =>
    rw [callSites, callSites_eq base, callSites_eq i]
    exact congrArg _ (List.append_nil _).symm

theorem callSitesOfList_eq (es : List Expr) : callSitesOfList es = es.flatMap calls := by
  cases es with
  | nil => rfl
  | cons e es => rw [callSitesOfList, callSites_eq e, callSitesOfList_eq es, List.flatMap_cons]

end

end Expr

namespace Stmt

/-- The expressions that stand in a statement itself. -/
def ownExprs : Stmt → List Expr
  | .expr _ e => [e]
  | .declare v => v.init.toList
  | .ret _ value => value.toList
  | .block .. => []
  | .ifThen _ condition .. | .ifElse _ condition .. | .loop _ condition .. => [condition]

/-- The statements directly inside a statement. -/
def children : Stmt → List Stmt
  | .expr .. | .declare _ | .ret .. => []
  | .block _ body | .ifThen _ _ _ body | .loop _ _ _ body => body
  | .ifElse _ _ _ body _ other => body ++ other

theorem sizeOf_lt_of_mem_children {s c : Stmt} (h : c ∈ s.children) : sizeOf c < sizeOf s := by
  cases s with
  | expr | declare | ret => cases h
  | block _ body | ifThen _ _ _ body | loop _ _ _ body =>
    change c ∈ body at h
    have hlt := List.sizeOf_lt_of_mem h
    simp
    omega
  | ifElse _ _ _ body _ other =>
    rcases List.mem_append.mp h with h | h
    · have hlt := List.sizeOf_lt_of_mem h
      simp
      omega
    · have hlt := List.sizeOf_lt_of_mem h
      simp
      omega

/-- A statement and all statements inside it. -/
def preorder (s : Stmt) : List Stmt := s :: s.children.attach.flatMap fun c => c.1.preorder
  termination_by sizeOf s
  decreasing_by exact sizeOf_lt_of_mem_children c.2

theorem preorder_eq (s : Stmt) : s.preorder = s :: s.children.flatMap preorder := by
  rw [preorder, List.flatMap_subtype fun _ _ => rfl, List.unattach_attach]

/-- The variable that a statement itself declares. -/
def declared : Stmt → List Ident
  | .declare v => [v.name]
  | .expr .. | .ret .. | .block .. | .ifThen .. | .ifElse .. | .loop .. => []

/-- The variables that a statement and those inside it declare. -/
def locals (s : Stmt) : List Ident := s.preorder.flatMap declared

theorem locals_eq (s : Stmt) : s.locals = s.declared ++ s.children.flatMap locals := by
  rw [locals, preorder_eq, List.flatMap_cons, List.flatMap_assoc]
  rfl

/-- The expressions of a statement and of those inside it. -/
def allExprs (s : Stmt) : List Expr := s.preorder.flatMap ownExprs

theorem allExprs_eq (s : Stmt) : s.allExprs = s.ownExprs ++ s.children.flatMap allExprs := by
  rw [allExprs, preorder_eq, List.flatMap_cons, List.flatMap_assoc]
  rfl

mutual

theorem exprs_eq (s : Stmt) : s.exprs = s.allExprs := by
  rw [allExprs_eq]
  cases s with
  | expr | declare | ret => exact (List.append_nil _).symm
  | block _ body => exact exprsOfList_eq body
  | ifThen _ condition _ body => rw [exprs, exprsOfList_eq body]; rfl
  | ifElse _ condition _ body _ other =>
    rw [exprs, exprsOfList_eq body, exprsOfList_eq other, ← List.flatMap_append]
    rfl
  | loop _ condition _ body => rw [exprs, exprsOfList_eq body]; rfl

theorem exprsOfList_eq (ss : List Stmt) : exprsOfList ss = ss.flatMap allExprs := by
  cases ss with
  | nil => rfl
  | cons s ss => rw [exprsOfList, exprs_eq s, exprsOfList_eq ss, List.flatMap_cons]

end

end Stmt

namespace FunctionDef

/-- The statements of a function. -/
def statements (f : FunctionDef) : List Stmt := f.body.toList.flatMap fun b => b.body.flatMap (·.preorder)

/-- The parameters that a function declares. -/
def paramIdents (f : FunctionDef) : List Ident := f.params.map (·.name)

/-- The variables that the body of a function declares. -/
def locals (f : FunctionDef) : List Ident := f.statements.flatMap (·.declared)

/-- The variables that are read or assigned in the body of a function. -/
def mentions (f : FunctionDef) : List Ident :=
  (f.statements.flatMap (·.ownExprs)).flatMap (·.mentions)

/-- The calls in the body of a function. -/
def calls (f : FunctionDef) : List CallSite := (f.statements.flatMap (·.ownExprs)).flatMap (·.calls)

theorem exprs_eq (f : FunctionDef) : f.exprs = f.statements.flatMap (·.ownExprs) := by
  rw [exprs, statements]
  cases f.body with
  | none => rfl
  | some b =>
    rw [Option.toList_some, List.flatMap_singleton, List.flatMap_assoc]
    exact Stmt.exprsOfList_eq b.body

theorem callSites_eq (f : FunctionDef) : f.callSites = f.calls := by
  rw [callSites, calls, exprs_eq]
  exact congrArg (List.flatMap · _) (funext Expr.callSites_eq)

end FunctionDef

end Stackless
