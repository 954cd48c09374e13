import Stackless.Proofs.LexicalScoping
import Stackless.Proofs.Rosters

/-!
# What a body comes to

The outcomes of a body say, without ids, which variables it creates, which declarations it uses, and
what is wrong with it (`FunctionDef.outcomes`). They depend on the text and on what can be seen from
the body, and on nothing else. Using the variables of a script adds exactly these variables and
problems, body by body (`Use.yields_declarations`).
-/

namespace Stackless

/-! ## Specification -/

/-- An environment without ids. -/
structure Outlook where
  blocks : List Locals := []
  outer : String → Option Sight

namespace Outlook

def enter (v : Outlook) (block : Locals) : Outlook := { v with blocks := block :: v.blocks }

/-- Where the variable that a name means is declared. -/
def target? (v : Outlook) (name : String) : Option Ident :=
  (v.blocks.findSome? (·.find? (·.name = name))).or
    ((v.outer name).bind fun x => if x.function?.isSome then none else some ⟨name, x.span⟩)

end Outlook

def Environment.outlook (env : Environment) : Outlook where
  blocks := env.blocks
  outer name := (env.outer name).map (·.sight)

/-- What one step in a body comes to. -/
inductive Outcome where
  /-- A variable is read or assigned. -/
  | use (name : Ident) (target : Option Ident)
  | creation (profile : Profile)
  /-- A name is declared again in the same block. -/
  | refusal (name first : Ident)

namespace Outcome

def use? : Outcome → Option (Ident × Option Ident)
  | .use name target => some (name, target)
  | .creation _ | .refusal .. => none

def profile? : Outcome → Option Profile
  | .creation profile => some profile
  | .use .. | .refusal .. => none

def problem? : Outcome → Option Problem
  | .use name none => some (.unknownVariable name.name name.span)
  | .refusal name first => some (.redeclared name.name first.span name.span)
  | .use _ (some _) | .creation _ => none

/-- What the declaration of a variable in a block comes to. -/
def ofDeclaration (block : Locals) (name : Ident) (kind : VariableKind) (domain : Domain) :
    Outcome :=
  match block.find? (·.name = name.name) with
  | some first => .refusal name first
  | none => .creation ⟨some name, kind, domain⟩

end Outcome

def Expr.outcomes (v : Outlook) (e : Expr) : List Outcome :=
  e.mentions.map fun x => .use x (v.target? x.name)

namespace Stmt

mutual

def outcomes (v : Outlook) (block : Locals) : Stmt → List Outcome
  | .expr _ e => e.outcomes (v.enter block)
  | .declare d =>
    d.init.toList.flatMap (·.outcomes (v.enter block)) ++
      [.ofDeclaration block d.name .declared d.domain]
  | .ret _ value => value.toList.flatMap (·.outcomes (v.enter block))
  | .block _ body => outcomesIn (v.enter block) [] body
  | .ifThen _ condition _ body | .loop _ condition _ body =>
    condition.outcomes (v.enter block) ++ outcomesIn (v.enter block) [] body
  | .ifElse _ condition _ body _ other =>
    condition.outcomes (v.enter block) ++
      (outcomesIn (v.enter block) [] body ++ outcomesIn (v.enter block) [] other)

/-- The outcomes in a block that declared some variables already. -/
def outcomesIn (v : Outlook) (block : Locals) : List Stmt → List Outcome
  | [] => []
  | s :: rest => s.outcomes v block ++ outcomesIn v (block ++ s.declared) rest

end

end Stmt

/-- The outcomes of parameters that follow some others. -/
def Outcome.ofParameters (block : Locals) : List Ident → List Outcome
  | [] => []
  | x :: rest => .ofDeclaration block x .parameter .global :: ofParameters (block ++ [x]) rest

def FunctionDef.outcomes (outer : String → Option Sight) (f : FunctionDef) : List Outcome :=
  Outcome.ofParameters [] f.paramIdents ++
    f.body.toList.flatMap fun b => Stmt.outcomesIn { outer } f.paramIdents b.body

/-! ## Uses -/

/-- A use with the place where its variable is declared. -/
def VariableUse.resolved (use : VariableUse) : Ident × Option Ident :=
  (use.name, use.env.outlook.target? use.name.name)

theorem Expr.uses_outcomes (env : Environment) (e : Expr) :
    (e.outcomes env.outlook).filterMap Outcome.use? = (e.uses env).map (·.resolved) := by
  rw [outcomes, uses, List.filterMap_map, List.map_map]
  exact congrFun List.filterMap_eq_map _

theorem Outcome.use?_ofDeclaration (block : Locals) (x : Ident) (kind : VariableKind)
    (domain : Domain) : (ofDeclaration block x kind domain).use? = none := by
  rw [ofDeclaration]
  split <;> rfl

theorem Outcome.uses_ofParameters (block : Locals) (names : List Ident) :
    (ofParameters block names).filterMap use? = [] := by
  induction names generalizing block with
  | nil => rfl
  | cons x rest ih => rw [ofParameters, List.filterMap_cons_none (use?_ofDeclaration ..), ih]

theorem Expr.uses_outcomes_toList (env : Environment) (e : Option Expr) :
    (e.toList.flatMap (·.outcomes env.outlook)).filterMap Outcome.use? =
      (e.toList.flatMap (·.uses env)).map (·.resolved) := by
  cases e with
  | none => rfl
  | some e => simp only [Option.toList_some, List.flatMap_singleton, uses_outcomes]

namespace Stmt

mutual

theorem uses_outcomes (env : Environment) (block : Locals) (s : Stmt) :
    (s.outcomes env.outlook block).filterMap Outcome.use? =
      (s.uses (env.enter block)).map (·.resolved) := by
  cases s with
  | expr _ e => exact Expr.uses_outcomes (env.enter block) e
  | declare d =>
    rw [outcomes, uses, List.filterMap_append,
      List.filterMap_cons_none (Outcome.use?_ofDeclaration ..), List.filterMap_nil, List.append_nil]
    exact Expr.uses_outcomes_toList (env.enter block) d.init
  | ret _ value => exact Expr.uses_outcomes_toList (env.enter block) value
  | block _ body => exact uses_outcomesIn (env.enter block) [] body
  | ifThen _ condition _ body | loop _ condition _ body =>
    rw [outcomes, uses, List.filterMap_append, List.map_append]
    exact congrArg₂ (· ++ ·) (Expr.uses_outcomes (env.enter block) condition)
      (uses_outcomesIn (env.enter block) [] body)
  | ifElse _ condition _ body _ other =>
    rw [outcomes, uses, List.filterMap_append, List.map_append, List.filterMap_append,
      List.map_append]
    exact congrArg₂ (· ++ ·) (Expr.uses_outcomes (env.enter block) condition)
      (congrArg₂ (· ++ ·) (uses_outcomesIn (env.enter block) [] body)
        (uses_outcomesIn (env.enter block) [] other))

theorem uses_outcomesIn (env : Environment) (block : Locals) (ss : List Stmt) :
    (outcomesIn env.outlook block ss).filterMap Outcome.use? =
      (usesIn env block ss).map (·.resolved) := by
  cases ss with
  | nil => rfl
  | cons s rest =>
    rw [outcomesIn, usesIn, List.filterMap_append, List.map_append, uses_outcomes env block s,
      uses_outcomesIn env _ rest]

end

end Stmt

theorem FunctionDef.uses_outcomes (outer : String → Option Binding) (f : FunctionDef) :
    (f.outcomes fun name => (outer name).map (·.sight)).filterMap Outcome.use? =
      (f.uses outer).map (·.resolved) := by
  rw [outcomes, uses, List.filterMap_append, Outcome.uses_ofParameters, List.nil_append]
  cases f.body with
  | none => rfl
  | some b =>
    rw [Option.toList_some, List.flatMap_singleton, List.flatMap_singleton]
    exact Stmt.uses_outcomesIn { outer } f.paramIdents b.body

/-! ## Steps -/

/-- Variables are created and problems are reported as the outcomes say. -/
structure Stage.Yields (s : Stage Usage) (os : List Outcome) (s' : Stage Usage) : Prop where
  problems : s'.problems = s.problems ++ os.filterMap Outcome.problem?
  profiles : s'.work.layout.profiles = s.work.layout.profiles ++ os.filterMap Outcome.profile?

namespace Stage.Yields

variable {s s₁ s' : Stage Usage} {os os' : List Outcome}

theorem refl (s : Stage Usage) : s.Yields [] s :=
  ⟨(List.append_nil _).symm, (List.append_nil _).symm⟩

theorem trans (Y : s.Yields os s₁) (Y' : s₁.Yields os' s') : s.Yields (os ++ os') s' where
  problems := by rw [Y'.problems, Y.problems, List.filterMap_append, List.append_assoc]
  profiles := by rw [Y'.profiles, Y.profiles, List.filterMap_append, List.append_assoc]

end Stage.Yields

theorem Layout.profiles_stack (l : Layout) (id : VariableId) :
    (l.stack id).profiles = l.profiles := by
  rw [profiles, stack, Array.toList_modify]
  have hmodify : ∀ (vs : List Variable) (i : Nat),
      (vs.modify i fun v => { v with stacked := true }).map (·.profile) = vs.map (·.profile) := by
    intro vs
    induction vs with
    | nil => intro i; cases i <;> rfl
    | cons v vs ih =>
      intro i
      cases i with
      | zero => rfl
      | succ i => rw [List.modify_succ_cons, List.map_cons, List.map_cons, ih]
  exact hmodify _ _

/-- A name means a variable exactly if the variable is declared somewhere. -/
theorem Environment.Means.isSome_target? {env : Environment} {l : Layout} {name : String}
    {r : Option VariableId} (h : env.Means l name r) :
    (env.outlook.target? name).isSome = r.isSome := by
  rw [Outlook.target?]
  cases h with
  | declared nearest entry =>
    rw [nearest?] at nearest
    simp only [outlook, nearest, Option.some_or, Option.isSome_some]
  | outside undeclared =>
    rw [nearest?] at undeclared
    simp only [outlook, undeclared, Option.none_or]
    cases env.outer name with
    | none => rfl
    | some b =>
      obtain ⟨symbol, span, inherited⟩ := b
      cases symbol <;> rfl

namespace Use

variable {s s' : Stage Usage} {scope : ScopeId} {env : Environment} {block : Locals} {u : Unit}

theorem yields_reference {x : Ident} (A : s.work.At scope env)
    (h : reference scope x s = .ok u s') :
    s.Yields [.use x (env.outlook.target? x.name)] s' := by
  obtain ⟨symbols, s₁, hsymbols, h⟩ := exists_of_bind h
  cases hsymbols
  have hmeans := A.inside.means A.nested x.name
  rw [← Scopes.lookup_eq, Option.bind_map] at hmeans
  have htarget : (env.outlook.target? x.name).isSome =
      ((s.work.symbols.scopes.lookup scope x.name).bind (·.2.symbol.toVariable?)).isSome :=
    hmeans.isSome_target?
  cases hfound : (s.work.symbols.scopes.lookup scope x.name).bind (·.2.symbol.toVariable?) with
  | some id =>
    rw [hfound] at h htarget
    cases h
    obtain ⟨y, hy⟩ := Option.isSome_iff_exists.mp htarget
    rw [hy]
    exact ⟨(List.append_nil _).symm, (List.append_nil _).symm⟩
  | none =>
    rw [hfound] at h htarget
    cases h
    rw [Option.not_isSome_iff_eq_none.mp (Bool.eq_false_iff.mp htarget)]
    exact ⟨rfl, (List.append_nil _).symm⟩

theorem yields_references {names : List Ident} (A : s.work.At scope env)
    (h : references scope names s = .ok u s') :
    s.Yields (names.map fun x => .use x (env.outlook.target? x.name)) s' := by
  induction names generalizing s with
  | nil =>
    cases h
    exact .refl _
  | cons x rest ih =>
    obtain ⟨_, s₁, hfirst, hrest⟩ := exists_of_bind h
    have hwork := (ties_reference A hfirst).2
    exact (yields_reference A hfirst).trans (ih (hwork ▸ A) hrest)

theorem yields_expr {e : Expr} (A : s.work.At scope env) (h : expr scope e s = .ok u s') :
    s.Yields (e.outcomes env.outlook) s' := by
  rw [expr, Expr.references_eq] at h
  exact yields_references A h

theorem yields_expr? {e : Option Expr} (A : s.work.At scope env) (h : expr? scope e s = .ok u s') :
    s.Yields (e.toList.flatMap (·.outcomes env.outlook)) s' := by
  cases e with
  | none =>
    cases h
    exact .refl _
  | some e =>
    rw [Option.toList_some, List.flatMap_singleton]
    exact yields_expr A h

theorem yields_declare {x : Ident} {domain : Domain} {kind : VariableKind} {r : Option VariableId}
    (A : s.work.At scope (env.enter block)) (h : declare scope x domain kind s = .ok r s') :
    s.Yields [.ofDeclaration block x kind domain] s' := by
  obtain ⟨parent, around, hparent, holds⟩ := A.inside.exists_parent
  have hprofiles := Pass.profiles_declareVariable h
  rw [Outcome.ofDeclaration]
  cases hfind : block.find? (·.name = x.name) with
  | none =>
    have hfree := holds.free hfind
    rw [Scopes.declared?, hfree, Option.filter_none, Option.isSome_none,
      if_neg Bool.false_ne_true] at hprofiles
    refine ⟨?_, hprofiles⟩
    cases Pass.declaresVariable h with
    | refused taken => cases hfree.symm.trans taken
    | added => exact (List.append_nil _).symm
  | some first =>
    obtain ⟨id, _, hbound⟩ := holds.bound hfind
    rw [Scopes.declared?_of_own hbound rfl, Option.isSome_some, if_pos rfl] at hprofiles
    refine ⟨?_, hprofiles⟩
    cases Pass.declaresVariable h with
    | refused taken own =>
      cases hbound.symm.trans taken
      rfl
    | added bound => cases (Scopes.declare_ok bound).2.1 _ hbound

theorem yields_block {ss : List Stmt} (A : s.work.At scope env)
    (h : (Pass.newScope scope .block "block" >>= fun inner => stmts inner ss) s = .ok u s')
    (hstmts : ∀ {s₁ inner}, s₁.work.At inner (env.enter []) → stmts inner ss s₁ = .ok u s' →
      s₁.Yields (Stmt.outcomesIn env.outlook [] ss) s') :
    s.Yields (Stmt.outcomesIn env.outlook [] ss) s' := by
  obtain ⟨inner, s₁, hscope, h⟩ := exists_of_bind h
  obtain ⟨rfl, rfl⟩ := newScope_ok hscope
  have Y := hstmts (A.withChild ..) h
  exact ⟨Y.problems, Y.profiles⟩

mutual

theorem yields_stmt (st : Stmt) {s s' : Stage Usage} {scope : ScopeId} {env : Environment}
    {block : Locals} {u : Unit} (A : s.work.At scope (env.enter block))
    (h : stmt scope st s = .ok u s') : s.Yields (st.outcomes env.outlook block) s' := by
  cases st with
  | expr _ e => exact yields_expr A h
  | declare v =>
    obtain ⟨_, s₁, hinit, h⟩ := exists_of_bind h
    have A₁ : s₁.work.At scope (env.enter block) := (ties_expr? A hinit).2 ▸ A
    obtain ⟨r, s₂, hdeclare, h⟩ := exists_of_bind h
    have Y := (yields_expr? A hinit).trans (yields_declare A₁ hdeclare)
    cases r with
    | none =>
      cases h
      exact Y
    | some id =>
      cases h
      exact ⟨Y.problems, Y.profiles⟩
  | ret _ value => exact yields_expr? A h
  | block _ body => exact yields_block A h (yields_stmts body)
  | ifThen _ condition _ body | loop _ condition _ body =>
    obtain ⟨_, s₁, hcondition, h⟩ := exists_of_bind h
    have A₁ : s₁.work.At scope (env.enter block) := (ties_expr A hcondition).2 ▸ A
    exact (yields_expr A hcondition).trans (yields_block A₁ h (yields_stmts body))
  | ifElse _ condition _ body _ other =>
    obtain ⟨_, s₁, hcondition, h⟩ := exists_of_bind h
    have A₁ : s₁.work.At scope (env.enter block) := (ties_expr A hcondition).2 ▸ A
    have hsplit : ((Pass.newScope scope .block "block" >>= fun inner => stmts inner body) >>=
        fun _ => Pass.newScope scope .block "block" >>= fun inner => stmts inner other) s₁ =
          .ok u s' := h
    obtain ⟨_, s₂, hbody, hother⟩ := exists_of_bind hsplit
    have A₂ := (ties_block A₁ hbody (ties_stmts body)).2
    exact (yields_expr A hcondition).trans ((yields_block A₁ hbody (yields_stmts body)).trans
      (yields_block A₂ hother (yields_stmts other)))

theorem yields_stmts (ss : List Stmt) {s s' : Stage Usage} {scope : ScopeId} {env : Environment}
    {block : Locals} {u : Unit} (A : s.work.At scope (env.enter block))
    (h : stmts scope ss s = .ok u s') : s.Yields (Stmt.outcomesIn env.outlook block ss) s' := by
  cases ss with
  | nil =>
    cases h
    exact .refl _
  | cons st rest =>
    obtain ⟨_, s₁, hfirst, hrest⟩ := exists_of_bind h
    have A₁ := (ties_stmt st A hfirst).2
    exact (yields_stmt st A hfirst).trans (yields_stmts rest A₁ hrest)

end

/-! ## Functions -/

theorem yields_params {stacked : Bool} {ps : List Param} {ids : List VariableId}
    (A : s.work.At scope (env.enter block)) (h : params scope stacked ps s = .ok ids s') :
    s.Yields (Outcome.ofParameters block (ps.map (·.name))) s' := by
  induction ps generalizing s block ids with
  | nil =>
    cases h
    exact .refl _
  | cons p rest ih =>
    obtain ⟨r, s₁, hdeclare, h⟩ := exists_of_bind h
    have A₁ := (ties_declare A hdeclare).2
    have Y := yields_declare A hdeclare
    cases r with
    | none => exact Y.trans (ih A₁ h)
    | some id =>
      cases stacked with
      | false =>
        obtain ⟨ids', s₂, hrest, h⟩ := exists_of_bind h
        cases h
        exact Y.trans (ih A₁ hrest)
      | true =>
        obtain ⟨_, s₂, hstack, h⟩ := exists_of_bind h
        cases hstack
        obtain ⟨ids', s₃, hrest, h⟩ := exists_of_bind h
        cases h
        have Y' := ih ((alike_stack s₁ id).stays A₁) hrest
        refine Y.trans ⟨Y'.problems, Y'.profiles.trans ?_⟩
        exact congrArg (· ++ _) (Layout.profiles_stack ..)

theorem yields_body {b : Body} {outer : String → Option Binding}
    (A : s.work.At b.scope (({ outer } : Environment).enter [])) (h : body b s = .ok u s') :
    s.Yields (b.source.outcomes fun name => (outer name).map (·.sight)) s' := by
  obtain ⟨symbols, s₁, hsymbols, h⟩ := exists_of_bind h
  cases hsymbols
  cases hfunction : s.work.symbols.function? b.function with
  | none =>
    rw [hfunction] at h
    cases h
  | some f =>
    rw [hfunction] at h
    obtain ⟨ids, s₂, hparams, h⟩ := exists_of_bind h
    have Y := yields_params A hparams
    have A₂ := (ties_params A hparams).2
    obtain ⟨_, s₃, hcount, h⟩ := exists_of_bind h
    cases hcount
    obtain ⟨_, s₄, hupdate, h⟩ := exists_of_bind h
    cases hupdate
    rw [List.nil_append] at A₂
    refine Y.trans ?_
    cases hbody : b.source.body with
    | none =>
      rw [hbody] at h
      cases h
      exact ⟨(List.append_nil _).symm, (List.append_nil _).symm⟩
    | some block =>
      rw [hbody] at h
      rw [Option.toList_some, List.flatMap_singleton]
      have H : s₂.Alike { s₂ with
          work := { s₂.work with symbols :=
            s₂.work.symbols.updateFunction b.function fun f => { f with parameters := ids } }
          report := { s₂.report with parameterCount := s₂.report.parameterCount + ids.length } } :=
        ⟨rfl, fun _ => rfl, rfl, rfl, rfl⟩
      have Y' := yields_stmts block.body (H.stays A₂) h
      exact ⟨Y'.problems, Y'.profiles⟩

/-- What the bodies come to, one after the other. -/
theorem yields_bodies {bs : List Body} {outer : Body → String → Option Binding}
    (W : Waiting s.work outer bs) (h : bodies bs s = .ok u s') :
    s.Yields (bs.flatMap fun b => b.source.outcomes fun name => (outer b name).map (·.sight)) s' := by
  induction bs generalizing s with
  | nil =>
    cases h
    exact .refl _
  | cons b rest ih =>
    obtain ⟨_, s₁, hbody, hrest⟩ := exists_of_bind h
    have Y := yields_body (W.places b List.mem_cons_self) hbody
    exact Y.trans (ih (W.after_body hbody) hrest)

theorem yields_initializers {is : List Initializer} {outer : Initializer → String → Option Binding}
    (hplaces : ∀ i ∈ is, s.work.At i.scope { outer := outer i })
    (h : initializers is s = .ok u s') :
    s.Yields (is.flatMap fun i => i.expr.outcomes (Environment.outlook { outer := outer i })) s' := by
  induction is generalizing s with
  | nil =>
    cases h
    exact .refl _
  | cons i rest ih =>
    obtain ⟨_, s₁, hfirst, hrest⟩ := exists_of_bind h
    obtain ⟨A, hplaces'⟩ := List.forall_mem_cons.mp hplaces
    have hwork := (ties_expr A hfirst).2
    exact (yields_expr A hfirst).trans (ih (fun i hi => hwork ▸ hplaces' i hi) hrest)

end Use

/-- The variable for arguments, if there is need for it. -/
def Symbols.stagingProfile (s : Symbols) : List Profile :=
  if Use.needsStaging s then [⟨none, .plain, .global⟩] else []

namespace Use

variable {s s' : Stage Usage} {u : Unit}

theorem profiles_addInternal {name : String} {domain : Domain} {id : VariableId}
    (h : Pass.lift (Workspace.addInternal name domain) s = .ok id s') :
    s'.work.layout.profiles = s.work.layout.profiles ++ [⟨none, .plain, domain⟩] ∧
      s'.work.symbols = s.work.symbols ∧ s'.problems = s.problems := by
  simp only [Pass.lift, Workspace.addInternal, Workspace.onLayout, Layout.addInternal] at h
  cases htake : Layout.takeLocation domain s.work.layout with
  | error f layout =>
    simp only [htake] at h
    cases h
  | ok location layout =>
    simp only [htake] at h
    cases h
    refine ⟨?_, rfl, rfl⟩
    rw [Layout.profiles_push (congrArg (Array.push · _) (Layout.takeLocation_table htake)),
      Variable.profile, Layout.takeLocation_domain htake]
    rfl

/-- What using the variables of a script comes to. -/
theorem yields_declarations {d : Declarations} {outer : Body → String → Option Binding}
    {outside : Initializer → String → Option Binding}
    (hinits : ∀ i ∈ d.initializers, s.work.At i.scope { outer := outside i })
    (W : Waiting s.work outer d.bodies) (h : declarations d s = .ok u s') :
    ∃ os, os = (d.initializers.flatMap fun i =>
        i.expr.outcomes (Environment.outlook { outer := outside i })) ++
          (d.bodies.flatMap fun b => b.source.outcomes fun name => (outer b name).map (·.sight)) ∧
      s'.problems = s.problems ++ os.filterMap Outcome.problem? ∧
      s'.work.layout.profiles = s.work.layout.profiles ++ os.filterMap Outcome.profile? ++
        s'.work.symbols.stagingProfile := by
  obtain ⟨_, s₁, hfirst, h⟩ := exists_of_bind h
  have hwork := (ties_initializers hinits hfirst).2
  obtain ⟨_, s₂, hbodies, h⟩ := exists_of_bind h
  rw [← hwork] at W
  have Y := (yields_initializers hinits hfirst).trans (yields_bodies W hbodies)
  refine ⟨_, rfl, ?_⟩
  obtain ⟨symbols, s₃, hsymbols, h⟩ := exists_of_bind h
  cases hsymbols
  rw [Symbols.stagingProfile]
  cases hstaging : needsStaging s₂.work.symbols with
  | false =>
    rw [hstaging] at h
    cases h
    rw [hstaging, if_neg Bool.false_ne_true, List.append_nil]
    exact ⟨Y.problems, Y.profiles⟩
  | true =>
    rw [hstaging] at h
    obtain ⟨id, s₄, hadd, h⟩ := exists_of_bind h
    cases h
    obtain ⟨hprofiles, hsymbols, hproblems⟩ := profiles_addInternal hadd
    change s₄.problems = _ ∧ s₄.work.layout.profiles = _ ++ if needsStaging s₄.work.symbols then _ else _
    rw [hsymbols, hstaging, if_pos rfl, hprofiles, hproblems, Y.profiles]
    exact ⟨Y.problems, rfl⟩

end Use

end Stackless
