import Stackless.Program

/-!
# What a pass is made of

The passes of a compilation are put together from a few basic steps (`Pass.Basic`), most of which
leave all scopes where they are (`Pass.InPlace`). What holds of every admitted step, and of steps done
one after the other, holds of all passes that are put together from them (`Pass.Stepwise`), and so of
the passes as a whole (`Declare.stepwise_script`, `Use.stepwise_declarations`).
-/

namespace Stackless

namespace Declare

/-- Register a function and bind its name; the result tells whether its key was free. -/
def register (f : FunctionEntry) (owner : ScopeId) : Declare Bool := do
  match ← Pass.attempt (Workspace.addFunction f) with
  | none => return false
  | some _ =>
    let _ ← Pass.attempt
      (Workspace.onScopes fun s => s.declare owner f.name (.ofFunction f.key) f.span)
    return true

theorem function_eq (f : FunctionEntry) (owner : ScopeId) (source : FunctionDef) :
    function f owner source =
      register f owner >>= fun isNew => if isNew then addBody f owner source else pure () := by
  simp only [function, register, bind_assoc]
  congr 1
  funext r
  cases r <;> simp

end Declare

namespace Pass

/-- The basic steps that leave all scopes where they are. -/
inductive InPlace : (ρ α : Type) → Pass ρ α → Prop where
  | note {ρ : Type} (g : ρ → ρ) : InPlace ρ Unit (Pass.note g)
  | addProblems {ρ : Type} (ps : List Problem) : InPlace ρ Unit (Pass.addProblems ps)
  | addType {ρ : Type} {t : TypeEntry} (bare : t.members = none) :
    InPlace ρ (Option Unit) (Pass.attempt (Workspace.addType t))
  | updateType {ρ : Type} (key : Key) {g : TypeEntry → TypeEntry}
      (members : ∀ t, (g t).members = t.members) :
    InPlace ρ Unit (Pass.modifySymbols (·.updateType key g))
  | declareType {ρ : Type} (scope : ScopeId) (name : String) (key : Key) (span : Span) :
    InPlace ρ (Option Unit)
      (Pass.attempt (Workspace.onScopes fun s => s.declareType scope name key span))
  | merge {ρ : Type} (target source : ScopeId) :
    InPlace ρ Nat (Pass.lift (Workspace.merge target source))
  | recordCall {ρ : Type} (caller callee : Key) (site : Span) :
    InPlace ρ Unit (Pass.modifySymbols (·.recordCall caller callee site))
  | declareVariable {ρ : Type} (scope : ScopeId) (name : String) (domain : Domain)
      (kind : VariableKind) (span : Span) :
    InPlace ρ (Option VariableId)
      (Pass.attempt (Workspace.declareVariable scope name domain kind span))
  | stack {ρ : Type} (id : VariableId) : InPlace ρ Unit
      (modify fun s => { s with work := { s.work with layout := s.work.layout.stack id } })
  | addInternal {ρ : Type} (name : String) (domain : Domain) :
    InPlace ρ VariableId (Pass.lift (Workspace.addInternal name domain))

/-- All basic steps. What they do depends on the symbols, but not on where variables live. -/
inductive Basic : (ρ α : Type) → Pass ρ α → Prop where
  | inPlace {ρ α : Type} {x : Pass ρ α} (h : InPlace ρ α x) : Basic ρ α x
  | newScope {ρ : Type} (parent : ScopeId) (kind : ScopeKind) (name : String) :
    Basic ρ ScopeId (Pass.newScope parent kind name)
  | updateType {ρ : Type} (key : Key) (g : TypeEntry → TypeEntry) :
    Basic ρ Unit (Pass.modifySymbols (·.updateType key g))
  | addFunction {ρ : Type} (f : FunctionEntry) :
    Basic ρ (Option Unit) (Pass.attempt (Workspace.addFunction f))
  | register (f : FunctionEntry) (owner : ScopeId) :
    Basic Declarations Bool (Declare.register f owner)
  | updateFunction {ρ : Type} (key : Key) {g : FunctionEntry → FunctionEntry}
      (keeps : ∀ f, (g f).key = f.key) :
    Basic ρ Unit (Pass.modifySymbols (·.updateFunction key g))

/-- The pass is put together from admitted steps. Which steps it takes depends on the symbols and on
its report only. -/
inductive Stepwise (Admitted : (ρ α : Type) → Pass ρ α → Prop) :
    {ρ α : Type} → Pass ρ α → Prop where
  | pure {ρ α : Type} (a : α) : Stepwise Admitted (pure a : Pass ρ α)
  | throw {ρ α : Type} {f : Fault} (other : f.isExhaustion = false) :
    Stepwise Admitted (throw f : Pass ρ α)
  | bind {ρ α β : Type} {x : Pass ρ α} {f : α → Pass ρ β} (first : Stepwise Admitted x)
      (rest : ∀ a, Stepwise Admitted (f a)) : Stepwise Admitted (x >>= f)
  | symbols {ρ : Type} : Stepwise Admitted (Pass.symbols : Pass ρ Symbols)
  | report {ρ α : Type} {f : ρ → Pass ρ α} (rest : ∀ r, Stepwise Admitted (f r)) :
    Stepwise Admitted (get >>= fun s => f s.report)
  | step {ρ α : Type} {x : Pass ρ α} (h : Admitted ρ α x) : Stepwise Admitted x

theorem Stepwise.basic {ρ α : Type} {x : Pass ρ α} (h : Stepwise InPlace x) : Stepwise Basic x := by
  induction h with
  | pure a => exact .pure a
  | throw other => exact .throw other
  | bind _ _ first rest => exact .bind first rest
  | symbols => exact .symbols
  | report _ rest => exact .report rest
  | step h => exact .step (.inPlace h)

end Pass

open Pass

/-! ## Declarations -/

namespace Declare

theorem stepwise_addBody (f : FunctionEntry) (owner : ScopeId) (source : FunctionDef) :
    Stepwise Basic (addBody f owner source) :=
  .bind (.step (.newScope ..)) fun _ => .bind (.step (.updateFunction _ fun _ => rfl)) fun _ =>
    .step (.inPlace (.note _))

theorem stepwise_function (f : FunctionEntry) (owner : ScopeId) (source : FunctionDef) :
    Stepwise Basic (function f owner source) := by
  rw [function_eq]
  refine .bind (.step (.register f owner)) fun isNew => ?_
  split
  · exact stepwise_addBody f owner source
  · exact .pure ()

theorem stepwise_constructor (f : FunctionEntry) (owner : ScopeId) (source : FunctionDef) :
    Stepwise Basic (constructor f owner source) := by
  refine .bind (.step (.addFunction f)) fun r => ?_
  cases r with
  | none => exact .pure ()
  | some _ => exact stepwise_addBody f owner source

theorem stepwise_variableDef (scope : ScopeId) (v : VariableDef) :
    Stepwise InPlace (variableDef scope v) := by
  obtain ⟨domain, name, span, init, isStatic⟩ := v
  refine .bind (.step (.declareVariable ..)) fun id => ?_
  cases init with
  | none =>
    dsimp only
    split
    · exact .bind (.step (.note _)) fun _ => .pure ()
    · exact .pure ()
  | some expr =>
    dsimp only
    split
    · exact .bind (.step (.note _)) fun _ => .step (.note _)
    · exact .step (.note _)

theorem stepwise_className (c : ClassDef) : Stepwise InPlace (className c) := by
  refine .bind (.step (.addType rfl)) fun r => ?_
  cases r with
  | none => exact .pure _
  | some _ => exact .bind (.step (.declareType ..)) fun _ => .pure _

theorem stepwise_names (items : List Item) : Stepwise Basic (names items) := by
  induction items with
  | nil => exact .pure _
  | cons item rest ih =>
    cases item with
    | classItem c => exact .bind (stepwise_className c).basic fun _ => .bind ih fun _ => .pure _
    | functionItem f => exact .bind (stepwise_function ..) fun _ => ih
    | variableItem v => exact ih

theorem stepwise_globals (items : List Item) : Stepwise InPlace (globals items) := by
  induction items with
  | nil => exact .pure _
  | cons item rest ih =>
    cases item with
    | variableItem v => exact .bind (stepwise_variableDef ..) fun _ => ih
    | classItem c => exact ih
    | functionItem f => exact ih

/-! ## Classes -/

theorem stepwise_updateType {Admitted : (ρ α : Type) → Pass ρ α → Prop} {key : Key}
    {g : TypeEntry → TypeEntry}
    (h : Admitted Declarations Unit (Pass.modifySymbols (·.updateType key g))) :
    Stepwise Admitted (updateType key g) := by
  refine .bind .symbols fun symbols => ?_
  split
  · exact .step h
  · exact .throw rfl

theorem stepwise_generics (c : ClassDef) (names : List Ident) :
    Stepwise InPlace (generics c names) := by
  induction names with
  | nil => exact .pure _
  | cons name rest ih => exact .bind (.step (.addType rfl)) fun _ => .bind ih fun _ => .pure _

theorem stepwise_bindGeneric (scope : ScopeId) (x : Generic) :
    Stepwise InPlace (bindGeneric scope x) :=
  .bind (.step (.declareType ..)) fun _ => .pure _

theorem stepwise_bindGenerics (m : MemberScopes) (gs : List Generic) :
    Stepwise InPlace (bindGenerics m gs) := by
  induction gs with
  | nil => exact .pure _
  | cons x rest ih =>
    exact .bind (stepwise_bindGeneric _ x) fun _ => .bind (stepwise_bindGeneric _ x) fun _ => ih

theorem stepwise_members (c : ClassDef) (m : MemberScopes) (xs : List Member) :
    Stepwise Basic (members c m xs) := by
  induction xs with
  | nil => exact .pure _
  | cons x rest ih =>
    refine .bind ?_ fun _ => ih
    cases x with
    | method f => exact stepwise_function ..
    | constructor f => exact stepwise_constructor ..
    | field v => exact (stepwise_variableDef ..).basic

theorem stepwise_inheritFrom (m : MemberScopes) (base : Option MemberScopes) :
    Stepwise InPlace (inheritFrom m base) := by
  cases base with
  | none => exact .pure _
  | some b => exact .bind (.step (.merge ..)) fun _ => .bind (.step (.merge ..)) fun _ => .pure _

theorem baseClause_error {s : Symbols} {gs : List Generic} {c : ClassDef} {f : Fault}
    (h : c.baseClause s gs = .error f) : f.isExhaustion = false := by
  simp only [ClassDef.baseClause] at h
  repeat' split at h
  all_goals cases h
  rfl

theorem stepwise_extended (c : ClassDef) (gs : List Generic) :
    Stepwise InPlace (extended c gs) := by
  refine .bind .symbols fun symbols => ?_
  split
  · rename_i f hclause
    exact .throw (baseClause_error hclause)
  · exact .pure _
  · exact .bind (.step (.addProblems _)) fun _ => .pure _
  · split
    · exact .pure _
    · exact .throw rfl

theorem stepwise_finishClass (c : ClassDef) :
    Stepwise InPlace (updateType c.key (fun t => { t with progress := .resolved }) >>= fun _ =>
      Pass.note fun d : Declarations => { d with typeCount := d.typeCount + 1 }) :=
  .bind (stepwise_updateType (.updateType _ fun _ => rfl)) fun _ => .step (.note _)

theorem stepwise_closeClass (c : ClassDef) (gs : List Generic) :
    Stepwise Basic (closeClass c gs) := by
  have hlast := (stepwise_finishClass c).basic
  refine .bind (stepwise_extended c gs).basic fun base => .bind (.step (.newScope ..)) fun static =>
    .bind (.step (.newScope ..)) fun object => .bind (stepwise_inheritFrom ..).basic fun _ =>
    .bind (stepwise_bindGenerics ..).basic fun _ =>
    .bind (stepwise_updateType (.updateType ..)) fun _ => .bind (stepwise_members ..) fun _ => ?_
  dsimp only
  split
  · exact .bind (stepwise_constructor ..) fun _ => hlast
  · exact hlast

theorem classOf_error {classes : List ClassDef} {key : Key} {f : Fault}
    (h : classOf classes key = .error f) : f.isExhaustion = false := by
  simp only [classOf] at h
  split at h
  · cases h
  · cases h
    rfl

theorem stepwise_beginClass (classes : List ClassDef) (key : Key) :
    Stepwise InPlace (beginClass classes key) := by
  refine .bind .symbols fun symbols => ?_
  split
  · exact .throw rfl
  · split
    · split
      · rename_i f hclass
        exact .throw (classOf_error hclass)
      · rename_i c hc
        have hopen : Stepwise InPlace (openClass c) :=
          .bind (stepwise_updateType (.updateType _ fun _ => rfl)) fun _ => stepwise_generics ..
        exact .bind hopen fun _ => .pure _
    · exact .pure _

/-- Complete the class of a key, going along at most so many `extends` clauses. -/
def completeWithin (classes : List ClassDef) : Nat → Key → Declare Unit
  | 0, _ => return
  | fuel + 1, key => do
    match ← beginClass classes key with
    | none => return
    | some (c, gs) =>
      match c.pointsTo (← Pass.symbols) gs with
      | none => closeClass c gs
      | some base =>
        completeWithin classes fuel base
        closeClass c gs

/-- Each class that is begun leaves fewer unresolved ones. -/
theorem completeWithin_apply {classes : List ClassDef} {fuel : Nat} {key : Key}
    {s : Stage Declarations} (h : s.work.symbols.unresolved < fuel) :
    completeWithin classes fuel key s = complete classes key s := by
  induction fuel generalizing key s with
  | zero => cases h
  | succ fuel ih =>
    rw [complete]
    simp only [completeWithin, bind, EStateM.bind]
    cases hbegin : beginClass classes key s with
    | error f s₁ => rfl
    | ok r s₁ =>
      cases r with
      | none => rfl
      | some x =>
        obtain ⟨c, gs⟩ := x
        have hsymbols : Pass.symbols s₁ = .ok s₁.work.symbols s₁ := rfl
        simp only [EStateM.bind, hsymbols]
        cases hbase : c.pointsTo s₁.work.symbols gs with
        | none => rfl
        | some base =>
          have hlt : s₁.work.symbols.unresolved < fuel :=
            Nat.lt_of_lt_of_le (beginClass_lt hbegin) (Nat.le_of_lt_succ h)
          simp only [EStateM.bind, ih hlt]
          cases complete classes base s₁ <;> rfl

theorem complete_eq (classes : List ClassDef) (key : Key) : complete classes key =
    Pass.symbols >>= fun symbols => completeWithin classes (symbols.unresolved + 1) key := by
  funext s
  exact (completeWithin_apply (Nat.lt_succ_self _)).symm

theorem stepwise_completeWithin (classes : List ClassDef) (fuel : Nat) (key : Key) :
    Stepwise Basic (completeWithin classes fuel key) := by
  induction fuel generalizing key with
  | zero => exact .pure _
  | succ fuel ih =>
    refine .bind (stepwise_beginClass classes key).basic fun r => ?_
    cases r with
    | none => exact .pure _
    | some x =>
      obtain ⟨c, gs⟩ := x
      refine .bind .symbols fun symbols => ?_
      split
      · exact stepwise_closeClass c gs
      · exact .bind (ih _) fun _ => stepwise_closeClass c gs

theorem stepwise_completeAll (classes rest : List ClassDef) :
    Stepwise Basic (completeAll classes rest) := by
  induction rest with
  | nil => exact .pure _
  | cons c rest ih =>
    refine .bind ?_ fun _ => ih
    rw [complete_eq]
    exact .bind .symbols fun _ => stepwise_completeWithin ..

/-! ## Calls -/

theorem stepwise_linkSites (caller : Option Key) (scope : ScopeId) (sites : List CallSite) :
    Stepwise InPlace (linkSites caller scope sites) := by
  induction sites with
  | nil => exact .pure _
  | cons site rest ih =>
    refine .bind (.bind .symbols fun symbols => ?_) fun _ => ih
    split
    · exact .step (.addProblems _)
    · refine .bind (.step (.addProblems _)) fun _ => ?_
      cases caller with
      | none => exact .pure _
      | some caller => exact .bind (.step (.recordCall ..)) fun _ => .step (.note _)

theorem stepwise_linkBodies (bs : List Body) : Stepwise InPlace (linkBodies bs) := by
  induction bs with
  | nil => exact .pure _
  | cons b rest ih => exact .bind (stepwise_linkSites ..) fun _ => ih

theorem stepwise_linkInitializers (is : List Initializer) :
    Stepwise InPlace (linkInitializers is) := by
  induction is with
  | nil => exact .pure _
  | cons i rest ih => exact .bind (stepwise_linkSites ..) fun _ => ih

theorem stepwise_links : Stepwise InPlace (get >>= fun s : Stage Declarations =>
    linkBodies s.report.bodies >>= fun _ => linkInitializers s.report.initializers) :=
  .report (f := fun d => linkBodies d.bodies >>= fun _ => linkInitializers d.initializers)
    fun _ => .bind (stepwise_linkBodies _) fun _ => stepwise_linkInitializers _

theorem stepwise_script (s : Script) : Stepwise Basic (script s) :=
  .bind (stepwise_names s.items) fun _ => .bind (stepwise_completeAll ..) fun _ =>
    .bind (stepwise_globals s.items).basic fun _ => stepwise_links.basic

end Declare

/-! ## Usage of variables -/

namespace Use

theorem stepwise_expr (scope : ScopeId) (e : Expr) : Stepwise InPlace (expr scope e) := by
  rw [expr]
  induction e.references with
  | nil => exact .pure _
  | cons name rest ih =>
    refine .bind (.bind .symbols fun symbols => ?_) fun _ => ih
    split
    · exact .step (.note _)
    · exact .step (.addProblems _)

theorem stepwise_expr? (scope : ScopeId) (e : Option Expr) : Stepwise InPlace (expr? scope e) := by
  cases e with
  | none => exact .pure _
  | some e => exact stepwise_expr scope e

theorem stepwise_declare (scope : ScopeId) (v : VariableDef) :
    Stepwise InPlace (stmt scope (.declare v)) := by
  refine .bind (stepwise_expr? scope v.init) fun _ => .bind (.step (.declareVariable ..)) fun id => ?_
  split
  · exact .step (.note _)
  · exact .pure _

mutual

theorem stepwise_stmt (st : Stmt) (scope : ScopeId) : Stepwise Basic (stmt scope st) := by
  cases st with
  | expr _ e => exact (stepwise_expr scope e).basic
  | declare v => exact (stepwise_declare scope v).basic
  | ret _ value => exact (stepwise_expr? scope value).basic
  | block _ body => exact .bind (.step (.newScope ..)) fun _ => stepwise_stmts body _
  | ifThen _ condition _ body =>
    exact .bind (stepwise_expr scope condition).basic fun _ => .bind (.step (.newScope ..)) fun _ =>
      stepwise_stmts body _
  | ifElse _ condition _ body _ other =>
    exact .bind (stepwise_expr scope condition).basic fun _ => .bind (.step (.newScope ..)) fun _ =>
      .bind (stepwise_stmts body _) fun _ => .bind (.step (.newScope ..)) fun _ =>
      stepwise_stmts other _
  | loop _ condition _ body =>
    exact .bind (stepwise_expr scope condition).basic fun _ => .bind (.step (.newScope ..)) fun _ =>
      stepwise_stmts body _

theorem stepwise_stmts (ss : List Stmt) (scope : ScopeId) : Stepwise Basic (stmts scope ss) := by
  cases ss with
  | nil => exact .pure _
  | cons st rest => exact .bind (stepwise_stmt st scope) fun _ => stepwise_stmts rest scope

end

theorem stepwise_params (scope : ScopeId) (stacked : Bool) (ps : List Param) :
    Stepwise InPlace (params scope stacked ps) := by
  induction ps with
  | nil => exact .pure _
  | cons p rest ih =>
    refine .bind (.step (.declareVariable ..)) fun r => ?_
    cases r with
    | none => exact ih
    | some id =>
      cases stacked with
      | false => exact .bind ih fun _ => .pure _
      | true => exact .bind (.step (.stack id)) fun _ => .bind ih fun _ => .pure _

theorem stepwise_body (b : Body) : Stepwise Basic (body b) := by
  refine .bind .symbols fun symbols => ?_
  split
  · exact .throw rfl
  · refine .bind (stepwise_params ..).basic fun ids => .bind (.step (.inPlace (.note _))) fun _ =>
      .bind (.step (.updateFunction _ fun _ => rfl)) fun _ => ?_
    split
    · exact stepwise_stmts ..
    · exact .pure _

theorem stepwise_bodies (bs : List Body) : Stepwise Basic (bodies bs) := by
  induction bs with
  | nil => exact .pure _
  | cons b rest ih => exact .bind (stepwise_body b) fun _ => ih

theorem stepwise_initializers (is : List Initializer) :
    Stepwise InPlace (initializers is) := by
  induction is with
  | nil => exact .pure _
  | cons i rest ih => exact .bind (stepwise_expr ..) fun _ => ih

theorem stepwise_staging : Stepwise InPlace (do
    if needsStaging (← Pass.symbols) then
      let id ← Pass.lift (Workspace.addInternal "__call_args" .global)
      Pass.note fun u => { u with staging := some id } : Use Unit) := by
  refine .bind .symbols fun symbols => ?_
  split
  · exact .bind (.step (.addInternal ..)) fun _ => .step (.note _)
  · exact .pure _

theorem stepwise_declarations (d : Declarations) : Stepwise Basic (declarations d) :=
  .bind (stepwise_initializers _).basic fun _ => .bind (stepwise_bodies _) fun _ =>
    stepwise_staging.basic

end Use

end Stackless
