import Stackless.Proofs.Consistency
import Stackless.Proofs.Labels
import Stackless.Proofs.Targets
import Stackless.Script.Builder

/-!
# Built scripts

The pieces that a builder has made and not yet used lie on a bench. Every call of the builder takes
some of them away and puts the result back, with a new label for each line that it takes and new nodes
that have the spans of their labels (`Makes.madeFrom`). So there is one label on each of the lines
that were taken (`Bench.Reachable.numbered`), and no two labels of a script from a bench share a span.
The compiler tells uses and calls apart by their spans; it confuses none of such a script
(`Program.keepsApart`).
-/

namespace Stackless

/-! ## Compiling a script with distinct spans -/

/-- What a program says about the bodies and first values that were declared in `w`: no two
occurrences in them share a reference or a call site. -/
structure Program.KeepsApart (p : Program) (w : Workspace) (d : Declarations) : Prop where
  /-- The references are the uses that mean a variable, each with the variable that it means. -/
  references : ∃ ties : List Tie, List.Forall₂ (fun (use : VariableUse) (t : Tie) =>
      t.1 = use.name ∧ use.env.Means p.layout use.name.name t.2) (d.uses w.symbols) ties ∧
    p.references.entries = ties.filterMap fun t => t.2.map (t.1.span, ·)
  /-- The call sites are the calls whose callee is known. -/
  sites : (p.symbols.calls.edges.flatMap (·.sites)).Perm
    ((w.symbols.callLog d.bodies).map (·.site))
  distinct : (p.references.entries.map (·.1) ++
    p.symbols.calls.edges.flatMap (·.sites)).Nodup

/-- Uses at different places have entries of their own. -/
theorem Usage.entries_tie {references : Dict Span VariableId} {ties : List Tie}
    (h : (references.entries.map (·.1) ++ ties.map (·.1.span)).Nodup) :
    (tie references ties).entries =
      references.entries ++ ties.filterMap fun t => t.2.map (t.1.span, ·) := by
  induction ties generalizing references with
  | nil => exact (List.append_nil _).symm
  | cons t rest ih =>
    obtain ⟨x, id⟩ := t
    cases id with
    | none => exact ih (h.sublist ((List.sublist_cons_self ..).append_left _))
    | some id =>
      have hnew : x.span ∉ references.entries.map (·.1) := fun hmem =>
        List.disjoint_of_nodup_append h hmem List.mem_cons_self
      have hput : (references.put x.span id).entries = references.entries ++ [(x.span, id)] :=
        Dict.replace_of_not_mem hnew id
      refine (ih ?_ : (tie (references.put x.span id) rest).entries = _).trans ?_
      · rwa [hput, List.map_append, List.append_assoc]
      · rw [hput, List.append_assoc]
        rfl

theorem Symbols.sites_callLog (s : Symbols) (bodies : List Body) :
    ((s.callLog bodies).map (·.site)).Sublist ((bodies.flatMap (·.source.calls)).map (·.span)) := by
  rw [callLog, List.map_flatMap, List.map_flatMap]
  refine List.Sublist.flatMap_right _ fun b _ => ?_
  rw [← FunctionDef.callSites_eq]
  refine map_filterMap_sublist (fun h => ?_) _
  rw [callRecord?] at h
  split at h
  · cases h
  · cases h
    rfl

theorem Program.keepsApart {script : Script} {o : Options} {p : Program}
    (htakes : script.TakesSpans) (hspans : (script.labels.map (·.span)).Nodup)
    (h : compile script o = .ok p) :
    ∃ d problems w, Workspace.declare script (.ofOptions o) = .ok (d, problems) w ∧
      p.KeepsApart w d := by
  obtain ⟨d, problems, w, u, last, w', hdeclare, huse, rfl⟩ := exists_of_compile h
  obtain ⟨g, classes, done, cut, earlier, F, K, S, _⟩ := Workspace.declare_settled hdeclare
  have B := Workspace.declare_ok hdeclare
  obtain ⟨U, _⟩ := Workspace.use_ok B.symbols.nodup_checkRecursion B.checkRecursion huse
  obtain ⟨ties, hties, htied, _⟩ := (F.ties_use K S B.symbols.distinct huse).ties
  have hcalls : w'.symbols.calls.edges = (w.symbols.callLog d.bodies).edges :=
    (congrArg CallGraph.edges U.calls).trans S.calls.edges
  have hplaces : (ties.map (·.1.span) ++ (w.symbols.callLog d.bodies).map (·.site)).Nodup := by
    have huses := subperm_map S.uses_subperm (·.span)
    rw [List.map_map] at huses
    have hsites := (w.symbols.sites_callLog d.bodies).subperm.trans
      (subperm_map (S.bodies_subperm FunctionDef.calls) (·.span))
    rw [Usage.names_ties hties]
    exact nodup_of_subperm ((huses.append hsites).trans
      (List.perm_append_comm.subperm.trans (Script.places_subperm htakes))) hspans
  have hentries : u.references.entries = ties.filterMap fun t => t.2.map (t.1.span, ·) := by
    rw [htied]
    exact Usage.entries_tie hplaces.of_append_left
  have hsites : (w'.symbols.calls.edges.flatMap (·.sites)).Perm
      ((w.symbols.callLog d.bodies).map (·.site)) := hcalls ▸ CallLog.perm_edges _
  have hkeys : (u.references.entries.map (·.1)).Sublist (ties.map (·.1.span)) := by
    rw [hentries]
    refine map_filterMap_sublist (fun h => ?_) ties
    obtain ⟨id, _, rfl⟩ := Option.map_eq_some_iff.mp h
    rfl
  refine ⟨d, problems, w, hdeclare, ⟨ties, hties, hentries⟩, hsites, ?_⟩
  exact (hsites.append_left _).nodup_iff.mpr (hplaces.sublist (hkeys.append_right _))

/-! ## Changes of a definition -/

theorem FunctionDef.nodes_addParam (f : FunctionDef) (p : Param) :
    (FunctionDef.nodes { f with params := f.params ++ [p] }).Perm ([p.node] ++ f.nodes) := by
  rw [nodes, List.map_append, List.append_assoc, ← List.cons_append]
  exact List.perm_middle

theorem FunctionDef.nodes_setBody (f : FunctionDef) (b : Block) :
    (FunctionDef.nodes { f with body := some b } ++ f.body.toList.flatMap (·.nodes)).Perm
      ([.nameless b.span] ++ (f.nodes ++ b.body.flatMap (·.nodes))) := by
  rw [nodes, nodes, Option.toList_some, List.flatMap_singleton, ← List.cons_append,
    ← List.cons_append, List.append_assoc, List.append_assoc]
  exact List.perm_middle.trans ((List.perm_append_comm.append_left _).cons _)

theorem ClassDef.nodes_addGeneric (c : ClassDef) (x : Ident) :
    (ClassDef.nodes { c with generics := c.generics ++ [x] }).Perm ([x.node] ++ c.nodes) := by
  rw [nodes, List.map_append, List.append_assoc, ← List.cons_append]
  exact List.perm_middle

theorem ClassDef.nodes_setBase (c : ClassDef) (t : TypeRef) :
    (ClassDef.nodes { c with base := some t } ++ c.base.toList.flatMap (·.nodes)).Perm
      (c.nodes ++ t.nodes) := by
  simp only [nodes, Option.toList_some, List.flatMap_singleton, List.cons_append, List.append_assoc]
  refine (List.Perm.append_left _ (List.perm_append_comm.trans ?_)).cons _
  rw [← List.append_assoc (c.base.toList.flatMap _)]
  exact List.perm_append_comm.append_right _

theorem ClassDef.nodes_addMember (c : ClassDef) (x : Member) :
    ClassDef.nodes { c with members := c.members ++ [x] } = c.nodes ++ x.nodes := by
  simp only [nodes, List.flatMap_append, List.flatMap_singleton, List.cons_append,
    List.append_assoc]

namespace Build

/-- Something that a builder can make. -/
inductive Piece where
  | span (s : Span)
  | ident (x : Ident)
  | expr (e : Expr)
  | stmt (s : Stmt)
  | block (b : Block)
  | variableDef (v : VariableDef)
  | typeRef (t : TypeRef)
  | functionDef (f : FunctionDef)
  | classDef (c : ClassDef)
  | item (i : Item)
  | script (s : Script)

def Piece.nodes : Piece → List Node
  | .span s => [.nameless s]
  | .ident x => [x.node]
  | .expr e => e.nodes
  | .stmt s => s.nodes
  | .block b => b.nodes
  | .variableDef v => v.nodes
  | .typeRef t => t.nodes
  | .functionDef f => f.nodes
  | .classDef c => c.nodes
  | .item i => i.nodes
  | .script s => s.nodes

/-- The calls of a builder, each with the pieces that it uses. A body or a base class that is
replaced becomes a piece again. -/
inductive Makes : List Piece → Build (List Piece) → Prop where
  | fresh (length : Nat) : Makes [] (return [.span (← fresh length)])
  | ident (name : String) : Makes [] (return [.ident (← ident name)])
  | number (value : Number) : Makes [] (return [.expr (← number value)])
  | reference (name : String) : Makes [] (return [.expr (← reference name)])
  | call (name : String) (args : List Expr) :
    Makes (args.map .expr) (return [.expr (← call name args)])
  | qualifiedCall (qualifier name : String) (args : List Expr) :
    Makes (args.map .expr) (return [.expr (← qualifiedCall qualifier name args)])
  | create (type : String) (args : List Expr) :
    Makes (args.map .expr) (return [.expr (← create type args)])
  | assign (target : String) (value : Expr) :
    Makes [.expr value] (return [.expr (← assign target value)])
  | assignItem (target : String) (i value : Expr) :
    Makes [.expr i, .expr value] (return [.expr (← assignItem target i value)])
  | binary (op : BinaryOp) (left right : Expr) :
    Makes [.expr left, .expr right] (return [.expr (← binary op left right)])
  | index (base i : Expr) : Makes [.expr base, .expr i] (return [.expr (← index base i)])
  | exprStmt (e : Expr) : Makes [.expr e] (return [.stmt (← exprStmt e)])
  | declare (v : VariableDef) : Makes [.variableDef v] (return [.stmt (.declare v)])
  | ret (value : Option Expr) : Makes (value.toList.map .expr) (return [.stmt (← ret value)])
  | block (body : List Stmt) : Makes (body.map .stmt) (return [.block (← block body)])
  | blockStmt (body : List Stmt) : Makes (body.map .stmt) (return [.stmt (← blockStmt body)])
  | ifThen (condition : Expr) (body : List Stmt) :
    Makes (.expr condition :: body.map .stmt) (return [.stmt (← ifThen condition body)])
  | ifElse (condition : Expr) (body other : List Stmt) :
    Makes (.expr condition :: (body ++ other).map .stmt)
      (return [.stmt (← ifElse condition body other)])
  | loop (condition : Expr) (body : List Stmt) :
    Makes (.expr condition :: body.map .stmt) (return [.stmt (← loop condition body)])
  | variableDef (domain : Domain) (name : String) (init : Option Expr) :
    Makes (init.toList.map .expr) (return [.variableDef (← variableDef domain name init)])
  | typeRef (name : String) (args : List TypeRef) :
    Makes (args.map .typeRef) (return [.typeRef (← typeRef name args)])
  | functionDef (name : String) : Makes [] (return [.functionDef (← functionDef name)])
  | constructorDef : Makes [] (return [.functionDef (← constructorDef)])
  | addParam (f : FunctionDef) (name : String) :
    Makes [.functionDef f] (return [.functionDef (← addParam f name)])
  | setBody (f : FunctionDef) (body : List Stmt) :
    Makes (.functionDef f :: body.map .stmt)
      (return .functionDef (← setBody f body) :: f.body.toList.map .block)
  | markFunction (f : FunctionDef) (isStatic isRecursive : Bool) :
    Makes [.functionDef f] (return [.functionDef { f with isStatic, isRecursive }])
  | markVariable (v : VariableDef) (isStatic : Bool) :
    Makes [.variableDef v] (return [.variableDef { v with isStatic }])
  | classDef (name : String) : Makes [] (return [.classDef (← classDef name)])
  | addGeneric (c : ClassDef) (name : String) :
    Makes [.classDef c] (return [.classDef (← addGeneric c name)])
  | setBase (c : ClassDef) (t : TypeRef) :
    Makes [.classDef c, .typeRef t]
      (return .classDef { c with base := some t } :: c.base.toList.map .typeRef)
  | addMethod (c : ClassDef) (f : FunctionDef) :
    Makes [.classDef c, .functionDef f]
      (return [.classDef { c with members := c.members ++ [.method f] }])
  | addConstructor (c : ClassDef) (f : FunctionDef) :
    Makes [.classDef c, .functionDef f]
      (return [.classDef { c with members := c.members ++ [.constructor f] }])
  | addField (c : ClassDef) (v : VariableDef) :
    Makes [.classDef c, .variableDef v]
      (return [.classDef { c with members := c.members ++ [.field v] }])
  | markClass (c : ClassDef) (isSealed : Bool) :
    Makes [.classDef c] (return [.classDef { c with isSealed }])
  | classItem (c : ClassDef) : Makes [.classDef c] (return [.item (.classItem c)])
  | functionItem (f : FunctionDef) : Makes [.functionDef f] (return [.item (.functionItem f)])
  | variableItem (v : VariableDef) : Makes [.variableDef v] (return [.item (.variableItem v)])
  | script (items : List Item) : Makes (items.map .item) (return [.script { items }])

/-- The pieces made have the nodes of the pieces used, and new ones. The labels of these are on the
lines from `line` on, and their spans are those of their labels. -/
structure MadeFrom (made used : List Piece) (line : Nat) (new : List Node) : Prop where
  nodes : (made.flatMap (·.nodes)).Perm (new ++ used.flatMap (·.nodes))
  spans : (∀ n ∈ used.flatMap (·.nodes), n.TakesSpan) → ∀ n ∈ new, n.TakesSpan
  lines : (Node.labels new).map (·.span.line) = List.range' line (Node.labels new).length

namespace MadeFrom

variable {used : List Piece} {p q : Piece} {line : Nat} {n : Node}

/-- One new node is added to those of the pieces used. -/
theorem single (nodes : p.nodes.Perm (n :: used.flatMap (·.nodes))) (span : n.TakesSpan)
    (lines : (Node.labels [n]).map (·.span.line) = List.range' line (Node.labels [n]).length) :
    MadeFrom [p] used line [n] :=
  ⟨(List.Perm.of_eq (List.append_nil _)).trans nodes,
    fun _ _ hn => List.mem_singleton.mp hn ▸ span, lines⟩

/-- The nodes are those of the pieces used. -/
theorem same (nodes : p.nodes = used.flatMap (·.nodes)) : MadeFrom [p] used line [] :=
  ⟨.of_eq ((List.append_nil _).trans nodes), fun _ _ h => absurd h List.not_mem_nil, rfl⟩

theorem rename (nodes : p.nodes = q.nodes) : MadeFrom [p] [q] line [] :=
  same (nodes.trans (List.append_nil _).symm)

theorem grow (nodes : p.nodes.Perm ([n] ++ q.nodes)) (span : n.TakesSpan)
    (lines : (Node.labels [n]).map (·.span.line) = List.range' line (Node.labels [n]).length) :
    MadeFrom [p] [q] line [n] := by
  refine single ?_ span lines
  rwa [List.flatMap_singleton]

theorem expr (e : Expr) (span : e.node.TakesSpan)
    (lines : (Node.labels e.ownNodes).map (·.span.line) =
      List.range' line (Node.labels e.ownNodes).length) :
    MadeFrom [.expr e] (e.children.map .expr) line e.ownNodes := by
  refine ⟨?_, fun _ n hn => ?_, lines⟩
  · rw [List.flatMap_singleton, List.flatMap_map]
    exact .of_eq e.nodes_eq
  · rcases List.mem_append.mp hn with hn | hn
    · obtain ⟨x, _, rfl⟩ := List.mem_map.mp hn
      rfl
    · exact List.mem_singleton.mp hn ▸ span

theorem stmt (s : Stmt) (hused : used = s.ownExprs.map .expr ++ s.children.map .stmt)
    (span : (∀ n ∈ used.flatMap (·.nodes), n.TakesSpan) → s.node.TakesSpan)
    (lines : (Node.labels s.ownNodes).map (·.span.line) =
      List.range' line (Node.labels s.ownNodes).length) :
    MadeFrom [.stmt s] used line s.ownNodes := by
  refine ⟨?_, fun h n hn => ?_, lines⟩
  · rw [hused, List.flatMap_singleton, List.flatMap_append, List.flatMap_map, List.flatMap_map,
      ← List.append_assoc]
    exact .of_eq s.nodes_eq
  · rcases List.mem_append.mp hn with hn | hn
    · obtain ⟨x, _, rfl⟩ := List.mem_map.mp hn
      rfl
    · exact List.mem_singleton.mp hn ▸ span h

theorem exprStmt (e : Expr) : MadeFrom [.stmt (.expr e.span e)] [.expr e] line
    (Stmt.ownNodes (.expr e.span e)) := by
  refine stmt _ rfl (fun h => ?_) rfl
  have hspan : e.node.TakesSpan := h _ (List.mem_append_left _ e.node_mem_nodes)
  cases e <;> exact hspan

theorem block (b : Block) (lines : b.span.line = line) :
    MadeFrom [.block b] (b.body.map .stmt) line [.nameless b.span] := by
  refine single ?_ rfl (congrArg (fun l => [l]) lines)
  rw [List.flatMap_map]
  rfl

theorem variableDef (v : VariableDef) (span : v.node.TakesSpan) (lines : v.name.span.line = line) :
    MadeFrom [.variableDef v] (v.init.toList.map .expr) line [v.node] := by
  refine single ?_ span (congrArg (fun l => [l]) lines)
  rw [List.flatMap_map]
  rfl

theorem typeRef (t : TypeRef) (span : t.span = t.name.span) (lines : t.name.span.line = line) :
    MadeFrom [.typeRef t] (t.args.map .typeRef) line [.named t.span t.name] := by
  refine single (.of_eq ?_) span (congrArg (fun l => [l]) lines)
  rw [List.flatMap_map]
  exact t.nodes_eq

theorem setBody (f : FunctionDef) (b : Block) (lines : b.span.line = line) :
    MadeFrom (.functionDef { f with body := some b } :: f.body.toList.map .block)
      (.functionDef f :: b.body.map .stmt) line [.nameless b.span] := by
  refine ⟨?_, fun _ n hn => List.mem_singleton.mp hn ▸ rfl, congrArg (fun l => [l]) lines⟩
  rw [List.flatMap_cons, List.flatMap_cons, List.flatMap_map, List.flatMap_map]
  exact f.nodes_setBody b

theorem setBase (c : ClassDef) (t : TypeRef) :
    MadeFrom (.classDef { c with base := some t } :: c.base.toList.map .typeRef)
      [.classDef c, .typeRef t] line [] := by
  refine ⟨?_, fun _ _ h => absurd h List.not_mem_nil, rfl⟩
  rw [List.flatMap_cons, List.flatMap_cons, List.flatMap_singleton, List.flatMap_map]
  exact c.nodes_setBase t

theorem addMember (c : ClassDef) (x : Member) (h : p.nodes = x.nodes) :
    MadeFrom [.classDef { c with members := c.members ++ [x] }] [.classDef c, p] line [] := by
  refine same ?_
  rw [List.flatMap_cons, List.flatMap_singleton, h]
  exact c.nodes_addMember x

end MadeFrom

/-- A call makes one label for each line that it takes. -/
theorem Makes.madeFrom {used : List Piece} {act : Build (List Piece)} (h : Makes used act)
    (line : Nat) : ∃ new, MadeFrom (StateT.run act line).1 used line new ∧
      (StateT.run act line).2 = line + (Node.labels new).length := by
  cases h with
  | fresh | ident | functionDef | constructorDef | classDef =>
    exact ⟨_, .single (.refl _) rfl rfl, rfl⟩
  | number | reference | call | qualifiedCall | create | assign | assignItem | binary | index =>
    exact ⟨_, .expr _ rfl rfl, rfl⟩
  | exprStmt e => exact ⟨_, .exprStmt e, rfl⟩
  | blockStmt | ifThen | ifElse | loop => exact ⟨_, .stmt _ rfl (fun _ => rfl) rfl, rfl⟩
  | ret => exact ⟨_, .stmt _ (List.append_nil _).symm (fun _ => rfl) rfl, rfl⟩
  | declare v => exact ⟨[], .rename ((Stmt.nodes_eq _).trans (List.append_nil _)), rfl⟩
  | block => exact ⟨_, .block _ rfl, rfl⟩
  | variableDef => exact ⟨_, .variableDef _ rfl rfl, rfl⟩
  | typeRef => exact ⟨_, .typeRef _ rfl rfl, rfl⟩
  | markFunction | markVariable | markClass | classItem | functionItem | variableItem =>
    exact ⟨[], .rename rfl, rfl⟩
  | addParam f => exact ⟨_, .grow (f.nodes_addParam _) rfl rfl, rfl⟩
  | addGeneric c => exact ⟨_, .grow (c.nodes_addGeneric _) rfl rfl, rfl⟩
  | setBody f => exact ⟨_, .setBody f _ rfl, rfl⟩
  | setBase c t => exact ⟨[], .setBase c t, rfl⟩
  | addMethod c | addConstructor c | addField c => exact ⟨[], .addMember c _ rfl, rfl⟩
  | script items =>
    refine ⟨[], .same ?_, rfl⟩
    rw [List.flatMap_map]
    rfl

/-! ## The bench -/

/-- The pieces that were made and not used yet, and the next line. -/
structure Bench where
  pieces : List Piece := []
  line : Nat := 1

namespace Bench

def nodes (b : Bench) : List Node := b.pieces.flatMap (·.nodes)

def labels (b : Bench) : List Label := Node.labels b.nodes

/-- One call of the builder, with pieces from the bench. -/
inductive Step (b : Bench) : Bench → Prop where
  | call {used rest : List Piece} {act : Build (List Piece)} (makes : Makes used act)
      (pieces : b.pieces.Perm (used ++ rest)) :
    Step b ⟨(StateT.run act b.line).1 ++ rest, (StateT.run act b.line).2⟩

/-- What calls of one builder make, each piece being used at most once. -/
def Reachable (b : Bench) : Prop := Relation.ReflTransGen Step {} b

/-- There is one label on each of the lines that were taken, and all nodes have the spans of their
labels. -/
structure Numbered (b : Bench) : Prop where
  lines : (b.labels.map (·.span.line)).Perm (List.range' 1 b.labels.length)
  next : b.line = b.labels.length + 1
  spans : ∀ n ∈ b.nodes, n.TakesSpan

variable {b b' : Bench}

theorem Numbered.step (N : b.Numbered) (h : b.Step b') : b'.Numbered := by
  cases h with
  | @call used rest act makes pieces =>
    obtain ⟨new, M, hnext⟩ := makes.madeFrom b.line
    have hused : b.nodes.Perm (used.flatMap (·.nodes) ++ rest.flatMap (·.nodes)) :=
      (pieces.flatMap_right _).trans (.of_eq List.flatMap_append)
    have hnodes : (nodes ⟨(StateT.run act b.line).1 ++ rest, (StateT.run act b.line).2⟩).Perm
        (b.nodes ++ new) := by
      rw [nodes, List.flatMap_append]
      refine (M.nodes.append_right _).trans ?_
      rw [List.append_assoc]
      exact List.perm_append_comm.trans (hused.symm.append_right _)
    have hlabels : (labels ⟨(StateT.run act b.line).1 ++ rest, (StateT.run act b.line).2⟩).Perm
        (b.labels ++ Node.labels new) :=
      (hnodes.filterMap _).trans (.of_eq (Node.labels_append ..))
    have hlength := hlabels.length_eq
    rw [List.length_append] at hlength
    refine ⟨(hlabels.map _).trans ?_, ?_, fun n hn => ?_⟩
    · rw [List.map_append, M.lines, hlength, N.next, Nat.add_comm _ 1, ← List.range'_append_1]
      exact N.lines.append_right _
    · rw [hlength, Nat.add_right_comm, ← N.next]
      exact hnext
    · rcases List.mem_append.mp (hnodes.mem_iff.mp hn) with hn | hn
      · exact N.spans n hn
      · refine M.spans (fun n hn => N.spans n (hused.mem_iff.mpr ?_)) n hn
        exact List.mem_append_left _ hn

theorem Reachable.numbered (R : b.Reachable) : b.Numbered := by
  induction R with
  | refl => exact ⟨.refl _, rfl, fun _ h => absurd h List.not_mem_nil⟩
  | tail _ h N => exact N.step h

theorem Numbered.nodup (N : b.Numbered) : (b.labels.map (·.span)).Nodup := by
  have hlines : ((b.labels.map (·.span)).map (·.line)).Nodup := by
    rw [List.map_map]
    exact N.lines.nodup_iff.mpr (List.nodup_range' ..)
  exact hlines.of_map

theorem Reachable.call {used : List Piece} {act : Build (List Piece)} {line : Nat}
    (makes : Makes used act) (rest : List Piece) (R : Reachable ⟨used ++ rest, line⟩) :
    Reachable ⟨(StateT.run act line).1 ++ rest, (StateT.run act line).2⟩ :=
  R.tail (.call makes (.refl _))

/-- Of all that the calls of one builder make, each piece being used at most once, no two labels
share a span, the labels stand on the lines from 1 up to the number of spans taken, and nodes that are
known by a name have the span of that name. If a script that is among it compiles, the program has a
reference for each use of a variable and a call site for each call whose callee is known, and no two
of them are at one place. -/
theorem spans_identify {b : Bench} (R : b.Reachable) :
    (b.labels.map (·.span)).Nodup ∧
    (b.labels.map (·.span.line)).Perm (List.range' 1 b.labels.length) ∧
    b.line = b.labels.length + 1 ∧
    (∀ n ∈ b.nodes, n.TakesSpan) ∧
    ∀ script, .script script ∈ b.pieces →
      (script.labels.map (·.span)).Nodup ∧ script.TakesSpans ∧
      ∀ o p, Program.compile script o = .ok p → ∃ d problems w,
        Workspace.declare script (.ofOptions o) = .ok (d, problems) w ∧ p.KeepsApart w d := by
  have N := R.numbered
  refine ⟨N.nodup, N.lines, N.next, N.spans, fun script hscript => ?_⟩
  have hnodes : script.nodes.Sublist b.nodes := by
    obtain ⟨before, after, hpieces⟩ := List.append_of_mem hscript
    rw [nodes, hpieces, List.flatMap_append, List.flatMap_cons]
    exact (List.sublist_append_left ..).trans (List.sublist_append_right ..)
  have hspans : (script.labels.map (·.span)).Nodup :=
    N.nodup.sublist ((hnodes.filterMap _).map _)
  have htakes : script.TakesSpans := fun n hn => N.spans n (hnodes.subset hn)
  exact ⟨hspans, htakes, fun o p h => Program.keepsApart htakes hspans h⟩

end Bench

end Build

/-- The one function calls itself with its parameter, in one of two branches. -/
def Script.descending : Script where
  items := [.functionItem
    { name := ⟨"f", ⟨11, 1, 1⟩⟩, span := ⟨11, 1, 1⟩,
      params := [⟨⟨"n", ⟨12, 1, 1⟩⟩, ⟨12, 1, 1⟩⟩], isRecursive := true
      body := some ⟨⟨14, 1, 1⟩, [.ifElse ⟨10, 1, 2⟩
        (.binary ⟨7, 1, 1⟩ .less (.reference ⟨"n", ⟨6, 1, 1⟩⟩) (.number ⟨5, 1, 1⟩ (.ofNat 1)))
        ⟨8, 1, 1⟩ [.ret ⟨4, 1, 6⟩ (some (.reference ⟨"n", ⟨3, 1, 1⟩⟩))]
        ⟨9, 1, 1⟩ [.expr ⟨2, 1, 1⟩ (.call ⟨2, 1, 1⟩ none ⟨"f", ⟨2, 1, 1⟩⟩
          [.reference ⟨"n", ⟨1, 1, 1⟩⟩])]]⟩ }]

/-- The function is given an empty body first, which is left over. -/
theorem Build.Bench.reachable_descending :
    Reachable ⟨[.script .descending, .block ⟨⟨13, 1, 1⟩, []⟩], 15⟩ := by
  -- from the last call back to the first
  refine .call (.script _) _ (.call (.functionItem _) _ ?_)
  refine .call (.markFunction { name := ⟨"f", ⟨11, 1, 1⟩⟩, span := _, params := _, body := _ }
    false true) _ ?_
  refine .call (.setBody { name := _, span := _, params := _, body := some ⟨_, _⟩ } _) [] ?_
  refine .call (.setBody { name := _, span := _, params := _ } []) _ ?_
  refine .call (.addParam { name := _, span := _ } "n") _ (.call (.functionDef "f") _ ?_)
  refine .call (.ifElse _ _ _) _ (.call (.binary .less _ _) _ ?_)
  refine .call (.reference "n") _ (.call (.number _) _ ?_)
  refine .call (.ret (some _)) _ (.call (.reference "n") _ ?_)
  refine .call (.exprStmt _) _ (.call (.call "f" [_]) _ ?_)
  exact .call (.reference "n") _ .refl

theorem Build.Bench.spans_identify_descending : ∃ (b : Bench) (p : Program),
    b.Reachable ∧ .script .descending ∈ b.pieces ∧ b.labels.length = 14 ∧
      (b.labels.map (·.span.line)).Perm (List.range' 1 14) ∧
      (Script.descending.labels.map (·.span)).Nodup ∧ Script.descending.TakesSpans ∧
      Program.compile .descending {} = .ok p ∧
      p.references.entries.map (·.1.line) = [6, 3, 1] ∧
      p.symbols.calls.edges.flatMap (·.sites) = [⟨2, 1, 1⟩] ∧
      ∃ d problems w, Workspace.declare .descending (.ofOptions {}) = .ok (d, problems) w ∧
        p.KeepsApart w d := by
  have hok : (Program.compile .descending {}).toOption.map (fun p =>
      (p.references.entries.map (·.1.line), p.symbols.calls.edges.flatMap (·.sites))) =
      some ([6, 3, 1], [⟨2, 1, 1⟩]) := by decide +kernel
  obtain ⟨_, hlines, hnext, _, hscripts⟩ := spans_identify reachable_descending
  obtain ⟨hspans, htakes, hcompiled⟩ := hscripts .descending List.mem_cons_self
  have hlength : _ = 14 := (Nat.succ.inj hnext).symm
  cases hp : Program.compile .descending {} with
  | error f =>
    rw [hp] at hok
    cases hok
  | ok p =>
    rw [hp] at hok
    obtain ⟨hreferences, hsites⟩ := Prod.mk.inj (Option.some.inj hok)
    exact ⟨_, p, reachable_descending, List.mem_cons_self, hlength, hlength ▸ hlines, hspans, htakes,
      rfl, hreferences, hsites, hcompiled {} p hp⟩

end Stackless
