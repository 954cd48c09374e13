import Mathlib.Data.List.Nodup
import Stackless.Proofs.Layout
import Stackless.Proofs.Nesting
import Stackless.Proofs.Preorder

/-!
# Environments

Which variable a name means at each place of a body, said without the scopes of the symbol table.
An environment lists what was declared so far, block by block, and what names are bound to outside
the body. Of two declarations of a name a block keeps the first, and a variable is visible from its
declaration on but not in its own first value (`Stmt.uses`). A declaration is found again in the
layout by its name and place (`Layout.declaration?`).
-/

namespace Stackless

/-- The variables that a block declared so far, the first one first. -/
abbrev Locals := List Ident

structure Environment where
  /-- The blocks around a place, the innermost first. The last one is the function itself. -/
  blocks : List Locals := []
  /-- What names are bound to outside the function. -/
  outer : String → Option Binding

namespace Environment

/-- The environment in a block. -/
def enter (env : Environment) (block : Locals) : Environment :=
  { env with blocks := block :: env.blocks }

/-- The nearest declaration of a name. -/
def nearest? (env : Environment) (name : String) : Option Ident :=
  env.blocks.findSome? (·.find? (·.name = name))

end Environment

/-! ## Uses of variables -/

/-- A place where a variable is read or assigned. -/
structure VariableUse where
  name : Ident
  env : Environment

def Expr.uses (env : Environment) (e : Expr) : List VariableUse := e.mentions.map (⟨·, env⟩)

namespace Stmt

mutual

def uses (env : Environment) : Stmt → List VariableUse
  | .expr _ e => e.uses env
  | .declare v => v.init.toList.flatMap (·.uses env)
  | .ret _ value => value.toList.flatMap (·.uses env)
  | .block _ body => usesIn env [] body
  | .ifThen _ condition _ body | .loop _ condition _ body =>
    condition.uses env ++ usesIn env [] body
  | .ifElse _ condition _ body _ other =>
    condition.uses env ++ (usesIn env [] body ++ usesIn env [] other)

/-- The uses in a block that declared some variables already. -/
def usesIn (env : Environment) (block : Locals) : List Stmt → List VariableUse
  | [] => []
  | s :: rest => s.uses (env.enter block) ++ usesIn env (block ++ s.declared) rest

end

end Stmt

/-- The uses of variables in the body of a function. Its parameters are declared before its local
variables, in the same block. -/
def FunctionDef.uses (outer : String → Option Binding) (f : FunctionDef) : List VariableUse :=
  f.body.toList.flatMap fun b => Stmt.usesIn { outer } f.paramIdents b.body

theorem Expr.names_uses (env : Environment) (e : Expr) : (e.uses env).map (·.name) = e.mentions := by
  rw [uses, List.map_map]
  exact List.map_id _

theorem Expr.names_uses_toList (env : Environment) (e : Option Expr) :
    (e.toList.flatMap (·.uses env)).map (·.name) = e.toList.flatMap (·.mentions) := by
  cases e with
  | none => rfl
  | some e => simp only [Option.toList_some, List.flatMap_singleton, names_uses]

namespace Stmt

mutual

theorem names_uses (env : Environment) (s : Stmt) :
    (s.uses env).map (·.name) = s.allExprs.flatMap (·.mentions) := by
  rw [allExprs_eq, List.flatMap_append]
  cases s with
  | expr _ e =>
    rw [uses, Expr.names_uses]
    simp [ownExprs, children]
  | declare v => simp [uses, Expr.names_uses_toList, ownExprs, children]
  | ret _ value => simp [uses, Expr.names_uses_toList, ownExprs, children]
  | block _ body => simp [uses, names_usesIn env [] body, ownExprs, children]
  | ifThen _ condition _ body | loop _ condition _ body =>
    simp [uses, Expr.names_uses, names_usesIn env [] body, ownExprs, children]
  | ifElse _ condition _ body _ other =>
    simp [uses, Expr.names_uses, names_usesIn env [] body, names_usesIn env [] other, ownExprs,
      children]

theorem names_usesIn (env : Environment) (block : Locals) (ss : List Stmt) :
    (usesIn env block ss).map (·.name) = (ss.flatMap allExprs).flatMap (·.mentions) := by
  cases ss with
  | nil => rfl
  | cons s rest =>
    rw [usesIn, List.map_append, names_uses _ s, names_usesIn env _ rest, List.flatMap_cons,
      List.flatMap_append]

end

end Stmt

/-- Every variable that the body mentions is used in some environment. -/
theorem FunctionDef.names_uses (outer : String → Option Binding) (f : FunctionDef) :
    (f.uses outer).map (·.name) = f.mentions := by
  rw [uses, mentions, statements]
  cases f.body with
  | none => rfl
  | some b =>
    have hexprs : (b.body.flatMap (·.preorder)).flatMap (·.ownExprs) = b.body.flatMap Stmt.allExprs :=
      List.flatMap_assoc
    rw [Option.toList_some, List.flatMap_singleton, List.flatMap_singleton, Stmt.names_usesIn,
      hexprs]

/-! ## Declared variables -/

/-- The declaration of a variable. What the compiler adds itself has none. -/
def Variable.declaration? (v : Variable) : Option Ident := v.scope.map fun _ => ⟨v.name, v.span⟩

namespace Layout

def declaration? (l : Layout) (id : VariableId) : Option Ident :=
  (l.get? id).bind (·.declaration?)

/-- The declarations of all variables, in the order in which they were created. -/
def declarations (l : Layout) : List Ident := l.table.toList.filterMap (·.declaration?)

variable {l l' : Layout} {v : Variable} {x : Ident} {id id' : VariableId}

theorem declaration?_nextId (l : Layout) : l.declaration? l.nextId = none := by
  rw [declaration?, get?, nextId, Array.getElem?_size]
  rfl

theorem declarations_push (h : l'.table = l.table.push v) :
    l'.declarations = l.declarations ++ v.declaration?.toList := by
  rw [declarations, h, Array.toList_push, List.filterMap_append, filterMap_cons_toList,
    List.filterMap_nil, List.append_nil]
  rfl

theorem declaration?_push (h : l'.table = l.table.push v) (id : VariableId) :
    l'.declaration? id = if id = l.nextId then v.declaration? else l.declaration? id := by
  obtain ⟨i⟩ := id
  simp only [declaration?, get?, h, Array.getElem?_push, nextId, VariableId.mk.injEq]
  split <;> rfl

theorem filterMap_modify {α β : Type} {f : α → α} {g : α → Option β} (h : ∀ a, g (f a) = g a)
    (as : List α) (i : Nat) : (as.modify i f).filterMap g = as.filterMap g := by
  induction as generalizing i with
  | nil => cases i <;> rfl
  | cons a as ih =>
    cases i with
    | zero => rw [List.modify_zero_cons, List.filterMap_cons, List.filterMap_cons, h]
    | succ i => rw [List.modify_succ_cons, List.filterMap_cons, List.filterMap_cons, ih]

theorem declarations_stack (l : Layout) (id : VariableId) :
    (l.stack id).declarations = l.declarations := by
  rw [declarations, stack, Array.toList_modify]
  refine filterMap_modify ?_ ..
  exact fun _ => rfl

theorem declaration?_stack (l : Layout) (id id' : VariableId) :
    (l.stack id).declaration? id' = l.declaration? id' := by
  rw [declaration?, declaration?, get?_stack]
  split
  · cases l.get? id' <;> rfl
  · rfl

/-- Variables with different declarations are different. -/
theorem declaration?_inj (hspans : (l.declarations.map (·.span)).Nodup)
    (h : l.declaration? id = some x) (h' : l.declaration? id' = some x) : id = id' := by
  obtain ⟨i⟩ := id
  obtain ⟨j⟩ := id'
  obtain ⟨v, hv, hx⟩ := Option.bind_eq_some_iff.mp h
  obtain ⟨v', hv', hx'⟩ := Option.bind_eq_some_iff.mp h'
  obtain ⟨hi, rfl⟩ := Array.getElem?_eq_some_iff.mp hv
  obtain ⟨hj, rfl⟩ := Array.getElem?_eq_some_iff.mp hv'
  rw [declarations, List.Nodup, List.pairwise_map, List.pairwise_filterMap,
    List.pairwise_iff_getElem] at hspans
  rcases Nat.lt_trichotomy i j with hlt | rfl | hlt
  · exact absurd rfl (hspans i j hi hj hlt x hx x hx')
  · rfl
  · exact absurd rfl (hspans j i hj hi hlt x hx' x hx)

end Layout

/-- The variable that a name means in an environment, if it means one. A nearest binding that is a
function is no variable. -/
inductive Environment.Means (env : Environment) (l : Layout) (name : String) :
    Option VariableId → Prop where
  | declared {x : Ident} {id : VariableId} (nearest : env.nearest? name = some x)
      (entry : l.declaration? id = some x) : Means env l name (some id)
  | outside (undeclared : env.nearest? name = none) :
    Means env l name ((env.outer name).bind (·.symbol.toVariable?))

namespace Environment.Means

variable {env : Environment} {l l' : Layout} {name : String} {r : Option VariableId} {block : Locals}

theorem mono (h : env.Means l name r)
    (hkept : ∀ {id x}, l.declaration? id = some x → l'.declaration? id = some x) :
    env.Means l' name r := by
  cases h with
  | declared nearest entry => exact .declared nearest (hkept entry)
  | outside undeclared => exact .outside undeclared

theorem enter (h : env.Means l name r) (hblock : block.find? (·.name = name) = none) :
    (env.enter block).Means l name r := by
  have hnearest : (env.enter block).nearest? name = env.nearest? name := by
    rw [nearest?, Environment.enter, List.findSome?_cons, hblock]
    rfl
  cases h with
  | declared nearest entry => exact .declared (hnearest.trans nearest) entry
  | outside undeclared => exact .outside (hnearest.trans undeclared)

end Environment.Means

end Stackless
