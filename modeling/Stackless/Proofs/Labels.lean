import Mathlib.Data.List.Flatten
import Stackless.Proofs.LexicalScoping

/-!
# Labels

What stands at a place of its own in a script: each occurrence of a name, and each node that is not
known by a name. A node has a span, and it is known by a label; a node that is known by a name may
have any span, but should have the one of that name (`Node.TakesSpan`). If all nodes of a script do,
the compiler finds calls and uses of variables at labels, no two of them at the same one
(`Script.places_subperm`).
-/

namespace Stackless

/-- An occurrence of a name, or a node that is not known by a name. -/
inductive Label where
  | name (x : Ident)
  | node (span : Span)

def Label.span : Label → Span
  | .name x => x.span
  | .node span => span

/-- The span that a node has, and the label by which it is known. -/
structure Node where
  span : Span
  head : Label
  /-- The label is that of the node itself, and not that of a node in it. -/
  isOwn : Bool := true

namespace Node

def named (span : Span) (x : Ident) : Node := { span, head := .name x }

def nameless (span : Span) : Node := { span, head := .node span }

def label? (n : Node) : Option Label := if n.isOwn then some n.head else none

def labels (ns : List Node) : List Label := ns.filterMap label?

/-- The node has the span of its label. -/
def TakesSpan (n : Node) : Prop := n.span = n.head.span

instance : DecidablePred TakesSpan := fun n => inferInstanceAs (Decidable (n.span = n.head.span))

theorem labels_append (ns ms : List Node) : labels (ns ++ ms) = labels ns ++ labels ms :=
  List.filterMap_append

end Node

/-! ## The nodes of a tree -/

/-- A name that is not the one of a larger node. -/
def Ident.node (x : Ident) : Node := .named x.span x

namespace Expr

def node : Expr → Node
  | .number span _ | .binary span .. | .index span .. => .nameless span
  | .reference x => x.node
  | .call span _ x _ | .create span x _ | .assign span x _ | .assignItem span x .. => .named span x

def qualifier? : Expr → Option Ident
  | .call _ qualifier .. => qualifier
  | _ => none

/-- The nodes of an expression outside the expressions in it. -/
def ownNodes (e : Expr) : List Node := e.qualifier?.toList.map (·.node) ++ [e.node]

def nodes (e : Expr) : List Node := e.preorder.flatMap ownNodes

theorem nodes_eq (e : Expr) : e.nodes = e.ownNodes ++ e.children.flatMap nodes := by
  rw [nodes, preorder_eq, List.flatMap_cons, List.flatMap_assoc]
  rfl

theorem node_mem_ownNodes (e : Expr) : e.node ∈ e.ownNodes :=
  List.mem_append_right _ (List.mem_singleton_self _)

theorem node_mem_nodes (e : Expr) : e.node ∈ e.nodes := by
  rw [nodes_eq]
  exact List.mem_append_left _ e.node_mem_ownNodes

end Expr

def VariableDef.node (v : VariableDef) : Node := .named v.span v.name

def VariableDef.nodes (v : VariableDef) : List Node :=
  v.node :: v.init.toList.flatMap (·.nodes)

namespace Stmt

/-- An expression that stands alone gives its statement its label. -/
def node : Stmt → Node
  | .expr span e => { span, head := e.node.head, isOwn := false }
  | .declare v => v.node
  | .ret span _ | .block span _ | .ifThen span .. | .ifElse span .. | .loop span .. => .nameless span

/-- The blocks of a branch or loop, which are nodes of their own. -/
def blocks : Stmt → List Span
  | .ifThen _ _ body _ | .loop _ _ body _ => [body]
  | .ifElse _ _ body _ other _ => [body, other]
  | .expr .. | .declare _ | .ret .. | .block .. => []

/-- The nodes of a statement outside the expressions and statements in it. -/
def ownNodes (s : Stmt) : List Node := s.blocks.map .nameless ++ [s.node]

/-- The nodes of a statement outside the statements in it. -/
def nearNodes (s : Stmt) : List Node := s.ownNodes ++ s.ownExprs.flatMap (·.nodes)

def nodes (s : Stmt) : List Node := s.preorder.flatMap nearNodes

theorem nodes_eq (s : Stmt) : s.nodes = s.nearNodes ++ s.children.flatMap nodes := by
  rw [nodes, preorder_eq, List.flatMap_cons, List.flatMap_assoc]
  rfl

end Stmt

def Block.nodes (b : Block) : List Node := .nameless b.span :: b.body.flatMap (·.nodes)

def Param.node (p : Param) : Node := .named p.span p.name

def FunctionDef.nodes (f : FunctionDef) : List Node :=
  .named f.span f.name :: (f.params.map (·.node) ++ f.body.toList.flatMap (·.nodes))

def TypeRef.nodes (t : TypeRef) : List Node := t.preorder.map fun t => .named t.span t.name

theorem TypeRef.nodes_eq (t : TypeRef) :
    t.nodes = .named t.span t.name :: t.args.flatMap (·.nodes) := by
  rw [nodes, preorder_eq, List.map_cons, preorderInList_eq, List.map_flatMap]
  rfl

def Member.nodes : Member → List Node
  | .method f | .constructor f => f.nodes
  | .field v => v.nodes

def ClassDef.nodes (c : ClassDef) : List Node :=
  .named c.span c.name ::
    (c.generics.map (·.node) ++ (c.base.toList.flatMap (·.nodes) ++ c.members.flatMap (·.nodes)))

def Item.nodes : Item → List Node
  | .classItem c => c.nodes
  | .functionItem f => f.nodes
  | .variableItem v => v.nodes

namespace Script

def nodes (s : Script) : List Node := s.items.flatMap (·.nodes)

def labels (s : Script) : List Label := Node.labels s.nodes

/-- All expressions of a script, those inside others included. -/
def expressions (s : Script) : List Expr := (s.items.flatMap (·.exprs)).flatMap (·.preorder)

/-- Every node of the script has the span of its label: calls, creations, assignments, variables,
parameters, types, functions and classes that of their names. -/
def TakesSpans (s : Script) : Prop := ∀ n ∈ s.nodes, n.TakesSpan

instance : DecidablePred TakesSpans := fun s =>
  inferInstanceAs (Decidable (∀ n ∈ s.nodes, n.TakesSpan))

-- a parameter that is not where its name is
example : ¬TakesSpans ⟨[.functionItem { name := ⟨"f", ⟨1, 1, 1⟩⟩, span := ⟨1, 1, 1⟩,
                                        params := [⟨⟨"x", ⟨2, 1, 1⟩⟩, ⟨3, 1, 1⟩⟩] }], {}⟩ := by
  decide

end Script

/-! ## The nodes of expressions -/

theorem FunctionDef.nodes_exprs (f : FunctionDef) :
    (f.exprs.flatMap (·.nodes)).Sublist f.nodes := by
  have hbody : ∀ b : Block, (b.body.flatMap (·.preorder)).flatMap (·.nearNodes) =
      b.body.flatMap (·.nodes) := fun b => List.flatMap_assoc
  have hstatements : (f.statements.flatMap (·.nearNodes)).Sublist f.nodes := by
    rw [statements, List.flatMap_assoc, nodes, ← List.cons_append]
    refine (List.Sublist.flatMap_right _ fun b _ => ?_).trans (List.sublist_append_right ..)
    rw [hbody]
    exact List.sublist_cons_self ..
  rw [exprs_eq, List.flatMap_assoc]
  refine List.Sublist.trans ?_ hstatements
  exact List.Sublist.flatMap_right _ fun s _ => List.sublist_append_right ..

theorem Member.nodes_exprs (x : Member) : (x.exprs.flatMap (·.nodes)).Sublist x.nodes := by
  cases x with
  | method f | constructor f => exact f.nodes_exprs
  | field v => exact List.sublist_cons_self ..

theorem Item.nodes_exprs (i : Item) : (i.exprs.flatMap (·.nodes)).Sublist i.nodes := by
  cases i with
  | classItem c =>
    rw [exprs, List.flatMap_assoc, nodes, ClassDef.nodes, ← List.append_assoc, ← List.cons_append]
    exact (List.Sublist.flatMap_right _ fun x _ => x.nodes_exprs).trans
      (List.sublist_append_right ..)
  | functionItem f => exact f.nodes_exprs
  | variableItem v => exact List.sublist_cons_self ..

theorem Script.nodes_expressions (s : Script) :
    (s.expressions.flatMap (·.ownNodes)).Sublist s.nodes := by
  rw [expressions, List.flatMap_assoc, List.flatMap_assoc]
  refine List.Sublist.flatMap_right _ fun i _ => ?_
  exact i.nodes_exprs

/-! ## Places -/

/-- A call and the use of a variable are found at the label of an expression. -/
theorem Expr.places_sublist {e : Expr} (h : e.node.TakesSpan) :
    ((e.callSite?.map (·.span)).toList ++ (e.mentioned?.map (·.span)).toList).Sublist
      ((Node.labels e.ownNodes).map (·.span)) := by
  rw [ownNodes, Node.labels_append, List.map_append]
  refine List.Sublist.trans ?_ (List.sublist_append_right ..)
  cases e with
  | number | binary | index => exact List.nil_sublist _
  | reference | assign | assignItem => exact .refl _
  | call span _ x | create span x =>
    obtain rfl : span = x.span := h
    exact .refl _

theorem Expr.places_subperm {es : List Expr} (h : ∀ e ∈ es, e.node.TakesSpan) :
    ((es.filterMap callSite?).map (·.span) ++ (es.filterMap mentioned?).map (·.span)).Subperm
      ((Node.labels (es.flatMap ownNodes)).map (·.span)) := by
  rw [List.map_filterMap, List.map_filterMap, List.filterMap_eq_flatMap_toList,
    List.filterMap_eq_flatMap_toList, Node.labels, List.filterMap_flatMap, List.map_flatMap]
  refine (List.flatMap_append_perm ..).subperm.trans (List.Sublist.subperm ?_)
  exact List.Sublist.flatMap_right _ fun e he => places_sublist (h e he)

/-- The calls in functions and the uses of variables have labels of their own. -/
theorem Script.places_subperm {s : Script} (h : s.TakesSpans) :
    ((s.functions.flatMap (·.2.calls)).map (·.span) ++ s.mentions.map (·.span)).Subperm
      (s.labels.map (·.span)) := by
  have hcalls : (s.functions.flatMap (·.2.calls)).Subperm
      (s.expressions.filterMap Expr.callSite?) := by
    simp only [FunctionDef.calls, ← FunctionDef.exprs_eq, ← List.flatMap_assoc]
    rw [expressions, List.filterMap_flatMap]
    refine List.Subperm.trans ?_ (s.exprs_perm.symm.flatMap_right _).subperm
    exact ((List.sublist_append_left ..).flatMap _).subperm
  have hmentions : s.mentions.Perm (s.expressions.filterMap Expr.mentioned?) := by
    simp only [mentions, FunctionDef.mentions, ← FunctionDef.exprs_eq, ← List.flatMap_assoc]
    rw [← List.flatMap_append, expressions, List.filterMap_flatMap]
    exact (List.perm_append_comm.trans s.exprs_perm.symm).flatMap_right _
  have htakes : ∀ e ∈ s.expressions, e.node.TakesSpan := fun e he =>
    h _ (s.nodes_expressions.subset (List.mem_flatMap.mpr ⟨e, he, e.node_mem_ownNodes⟩))
  refine ((subperm_map hcalls _).append (hmentions.map _).subperm).trans ?_
  exact (Expr.places_subperm htakes).trans
    ((s.nodes_expressions.filterMap _).map _).subperm

end Stackless
