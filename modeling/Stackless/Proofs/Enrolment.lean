import Stackless.Proofs.Census
import Stackless.Proofs.Linking

/-!
# The functions of each class

When functions that are called differently have different keys (`Script.FunctionsDistinct`), no class
can take the key of a function of another one. Then the functions of a class are those of its roster
in any script, whatever else is wrong with it (`Declare.Enrolled`). The problems with its members are
reported together, after problems with types that were met since the class before it was complete
(`Declare.Reported`).
-/

namespace Stackless

/-! ## Steps that declare no function -/

/-- The problem with the name of a class or a function if it is taken. -/
def Item.redefinition? : Item → Option Problem
  | .classItem c => some (.redefined "type" c.name.name c.name.span)
  | .functionItem f => some (.redefined "function" f.name.name f.name.span)
  | .variableItem _ => none

/-- The problem is that the name of the variable is taken. -/
def VariableDef.Redeclares (p : Problem) (v : VariableDef) : Prop :=
  ∃ first, p = .redeclared v.name.name first v.name.span

/-- No function was declared since, and some problems were reported. -/
structure Stage.SameFunctions (s : Stage Declarations) (ps : List Problem)
    (s' : Stage Declarations) : Prop where
  functions : s'.work.symbols.functions = s.work.symbols.functions
  bodies : s'.report.bodies = s.report.bodies
  problems : s'.problems = s.problems ++ ps

namespace Stage.SameFunctions

variable {s s₁ s' : Stage Declarations} {ps ps' : List Problem}

theorem refl (s : Stage Declarations) : s.SameFunctions [] s :=
  ⟨rfl, rfl, (List.append_nil _).symm⟩

theorem trans (H : s.SameFunctions ps s₁) (H' : s₁.SameFunctions ps' s') :
    s.SameFunctions (ps ++ ps') s' where
  functions := H'.functions.trans H.functions
  bodies := H'.bodies.trans H.bodies
  problems := by rw [H'.problems, H.problems, List.append_assoc]

theorem ofLinks {log : CallLog} (H : s.Links ps log s') : s.SameFunctions ps s' :=
  ⟨H.functions, congrArg (·.bodies) H.report, H.problems⟩

end Stage.SameFunctions

namespace Declare

variable {s s' : Stage Declarations} {u : Unit} {c : ClassDef} {gs : List Generic}
  {items : List Item}

theorem sameFunctions_addType {t : TypeEntry} {r : Option Unit}
    (h : Pass.attempt (Workspace.addType t) s = .ok r s') :
    ∃ ps, ps.Sublist [.redefined "type" t.name t.span] ∧ s.SameFunctions ps s' := by
  rcases attempt_addType h with ⟨_, _, rfl⟩ | ⟨_, _, rfl⟩
  · exact ⟨[], List.nil_sublist _, rfl, rfl, (List.append_nil _).symm⟩
  · exact ⟨_, .refl _, rfl, rfl, rfl⟩

theorem sameFunctions_declareType {scope : ScopeId} {name : String} {key : Key} {span : Span}
    {r : Option Unit}
    (h : Pass.attempt (Workspace.onScopes fun scopes => scopes.declareType scope name key span) s =
      .ok r s') : ∃ ps, ps.Sublist [.redefined "type" name span] ∧ s.SameFunctions ps s' := by
  rcases attempt_declareType h with ⟨scopes, _, rfl⟩ | ⟨_, rfl⟩
  · exact ⟨[], List.nil_sublist _, rfl, rfl, (List.append_nil _).symm⟩
  · exact ⟨_, .refl _, rfl, rfl, rfl⟩

theorem sameFunctions_className {isNew : Bool} (h : className c s = .ok isNew s') :
    ∃ ps, ps.Sublist [.redefined "type" c.name.name c.name.span] ∧ s.SameFunctions ps s' := by
  obtain ⟨added, s₁, hadd, h⟩ := exists_of_bind h
  cases added with
  | none =>
    cases h
    exact sameFunctions_addType hadd
  | some _ =>
    obtain ⟨_, s₂, hbind, h⟩ := exists_of_bind h
    cases h
    rcases attempt_addType hadd with ⟨_, _, rfl⟩ | ⟨hnone, _⟩
    · obtain ⟨ps, hps, H⟩ := sameFunctions_declareType hbind
      exact ⟨ps, hps, H.functions, H.bodies, H.problems⟩
    · cases hnone

theorem sameFunctions_bindGenerics {m : MemberScopes} (h : bindGenerics m gs s = .ok u s') :
    ∃ ps, s.SameFunctions ps s' := by
  have hone : ∀ {scope y s s'}, bindGeneric scope y s = .ok u s' → ∃ ps, s.SameFunctions ps s' := by
    intro scope y s s' h
    obtain ⟨_, s₁, hbind, h⟩ := exists_of_bind h
    cases h
    obtain ⟨ps, _, H⟩ := sameFunctions_declareType hbind
    exact ⟨ps, H⟩
  induction gs generalizing s with
  | nil =>
    cases h
    exact ⟨[], .refl _⟩
  | cons y rest ih =>
    obtain ⟨_, s₁, hstatic, h⟩ := exists_of_bind h
    obtain ⟨_, s₂, hobject, h⟩ := exists_of_bind h
    obtain ⟨_, H⟩ := hone hstatic
    obtain ⟨_, H'⟩ := hone hobject
    obtain ⟨_, Hrest⟩ := ih h
    exact ⟨_, (H.trans H').trans Hrest⟩

/-- The parameters that are registered have different names, since their keys were free. -/
theorem generics_distinct {names : List Ident} (h : generics c names s = .ok gs s') :
    (∃ ps, (∀ p ∈ ps, p.ConcernsType) ∧ s.SameFunctions ps s') ∧
      (gs.map (·.name.name)).Nodup ∧
      ∀ y ∈ gs, .genericParameter c.key y.name.name ∉ s.work.symbols.types.map (·.key) := by
  induction names generalizing gs s with
  | nil =>
    cases h
    exact ⟨⟨[], fun _ hp => absurd hp List.not_mem_nil, .refl _⟩, .nil,
      fun _ hy => absurd hy List.not_mem_nil⟩
  | cons name rest ih =>
    obtain ⟨added, s₁, hadd, h⟩ := exists_of_bind h
    obtain ⟨others, s₂, hrest, h⟩ := exists_of_bind h
    cases h
    obtain ⟨⟨qs, hqs, Hrest⟩, hnodup, hfree⟩ := ih hrest
    obtain ⟨ps, hps, H⟩ := sameFunctions_addType hadd
    have hconcern : ∀ p ∈ ps, p.ConcernsType := fun p hp =>
      List.mem_singleton.mp (hps.subset hp) ▸ .redefined ..
    refine ⟨⟨ps ++ qs, List.forall_mem_append.mpr ⟨hconcern, hqs⟩, H.trans Hrest⟩, ?_⟩
    rcases attempt_addType hadd with ⟨rfl, hfresh, rfl⟩ | ⟨rfl, _, rfl⟩
    · have hold : ∀ y ∈ others, .genericParameter c.key y.name.name ∉
          s.work.symbols.types.map (·.key) := by
        intro y hy hmem
        refine hfree y hy ?_
        rw [List.map_append]
        exact List.mem_append_left _ hmem
      refine ⟨List.nodup_cons.mpr ⟨fun hmem => ?_, hnodup⟩, List.forall_mem_cons.mpr ⟨hfresh, hold⟩⟩
      obtain ⟨y, hy, hname⟩ := List.mem_map.mp hmem
      refine hfree y hy ?_
      rw [List.map_append, hname]
      exact List.mem_append_right _ (List.mem_singleton_self _)
    · exact ⟨hnodup, hfree⟩

theorem openClass_distinct (h : openClass c s = .ok gs s') :
    (∃ ps, (∀ p ∈ ps, p.ConcernsType) ∧ s.SameFunctions ps s') ∧ (gs.map (·.name.name)).Nodup := by
  obtain ⟨_, s₁, hupdate, hgenerics⟩ := exists_of_bind h
  obtain ⟨⟨ps, hps, H⟩, hnodup, _⟩ := generics_distinct hgenerics
  cases updateType_ok hupdate
  exact ⟨⟨ps, hps, H.functions, H.bodies, H.problems⟩, hnodup⟩

theorem sameFunctions_variableDef {scope : ScopeId} {v : VariableDef}
    (h : variableDef scope v s = .ok u s') :
    ∃ ps, List.SublistForall₂ VariableDef.Redeclares ps [v] ∧ s.SameFunctions ps s' := by
  cases addsVariable_of_variableDef h with
  | refused => exact ⟨_, .cons ⟨_, rfl⟩ .nil, rfl, rfl, rfl⟩
  | added => exact ⟨[], .nil, rfl, rfl, (List.append_nil _).symm⟩

theorem sameFunctions_globals (h : globals items s = .ok u s') :
    ∃ ps, List.SublistForall₂ VariableDef.Redeclares ps (items.filterMap Item.toVariable?) ∧
      s.SameFunctions ps s' := by
  induction items generalizing s with
  | nil =>
    cases h
    exact ⟨[], .nil, .refl _⟩
  | cons item rest ih =>
    cases item with
    | classItem c => exact ih h
    | functionItem f => exact ih h
    | variableItem v =>
      obtain ⟨_, s₁, hadd, hrest⟩ := exists_of_bind h
      obtain ⟨ps, hps, H⟩ := sameFunctions_variableDef hadd
      obtain ⟨qs, hqs, Hrest⟩ := ih hrest
      refine ⟨ps ++ qs, ?_, H.trans Hrest⟩
      cases hps with
      | nil => exact .cons_right hqs
      | cons hp hnil =>
        cases hnil
        exact .cons hp hqs
      | cons_right hnil =>
        cases hnil
        exact .cons_right hqs

/-! ## The names of classes and functions -/

theorem problems_function {f : FunctionDef} {owner : ScopeId}
    (h : function (.ofFunctionDef f) owner f s = .ok u s') :
    ∃ ps, ps.Sublist [.redefined "function" f.name.name f.name.span] ∧
      s'.problems = s.problems ++ ps := by
  cases adds_of_function h with
  | refused => exact ⟨_, .refl _, rfl⟩
  | added _ binds =>
    cases binds with
    | bound => exact ⟨[], List.nil_sublist _, rfl⟩
    | taken => exact ⟨_, .refl _, rfl⟩

/-- Of the names of classes and functions only those that are taken are reported, in order. -/
theorem problems_names {classes : List ClassDef} (h : names items s = .ok classes s') :
    ∃ ps, ps.Sublist (items.filterMap Item.redefinition?) ∧ s'.problems = s.problems ++ ps := by
  induction items generalizing s classes with
  | nil =>
    cases h
    exact ⟨[], List.nil_sublist _, (List.append_nil _).symm⟩
  | cons item rest ih =>
    cases item with
    | variableItem v => exact ih h
    | classItem c =>
      obtain ⟨isNew, s₁, hname, h⟩ := exists_of_bind h
      obtain ⟨more, s₂, hmore, h⟩ := exists_of_bind h
      cases h
      obtain ⟨ps, hps, H⟩ := sameFunctions_className hname
      obtain ⟨qs, hqs, hrest⟩ := ih hmore
      exact ⟨ps ++ qs, hps.append hqs, by rw [hrest, H.problems, List.append_assoc]⟩
    | functionItem f =>
      obtain ⟨_, s₁, hadd, h⟩ := exists_of_bind h
      obtain ⟨ps, hps, hproblems⟩ := problems_function hadd
      obtain ⟨qs, hqs, hrest⟩ := ih h
      exact ⟨ps ++ qs, hps.append hqs, by rw [hrest, hproblems, List.append_assoc]⟩

end Declare

/-! ## Classes one after the other -/

namespace Declare

/-- What was reported while classes were completed: of each class problems with types, and then
those with its members. -/
inductive Reported : List Completed → List Problem → Prop where
  | nil : Reported [] []
  | completed {done : List Completed} {ps types : List Problem} {x : Completed}
      (before : Reported done ps) (concern : ∀ p ∈ types, p.ConcernsType) :
    Reported (x :: done) (ps ++ (types ++ x.source.roster.problems))

/-- What was reported after some first problems. The last problems with types belong to the next
class that is completed. -/
def Recounts (first : List Problem) (opens : List Begun) (done : List Completed)
    (problems : List Problem) : Prop :=
  ∃ ps types, Reported done ps ∧ (∀ p ∈ types, p.ConcernsType) ∧ (opens = [] → types = []) ∧
    problems = first ++ ps ++ types

namespace Recounts

variable {first problems ps : List Problem} {opens : List Begun} {done : List Completed}

theorem start (first : List Problem) : Recounts first [] [] first :=
  ⟨[], [], .nil, fun _ hp => absurd hp List.not_mem_nil, fun _ => rfl,
    by rw [List.append_nil, List.append_nil]⟩

theorem begins (R : Recounts first opens done problems) (x : Begun)
    (hps : ∀ p ∈ ps, p.ConcernsType) : Recounts first (x :: opens) done (problems ++ ps) := by
  obtain ⟨reported, types, H, htypes, _, rfl⟩ := R
  exact ⟨reported, types ++ ps, H, List.forall_mem_append.mpr ⟨htypes, hps⟩, nofun,
    List.append_assoc ..⟩

theorem completes {x : Completed} (R : Recounts first (x.toBegun :: opens) done problems)
    (hps : ∀ p ∈ ps, p.ConcernsType) :
    Recounts first opens (x :: done) (problems ++ ps ++ x.source.roster.problems) := by
  obtain ⟨reported, types, H, htypes, _, rfl⟩ := R
  refine ⟨_, [], H.completed (List.forall_mem_append.mpr ⟨htypes, hps⟩),
    fun _ hp => absurd hp List.not_mem_nil, fun _ => rfl, ?_⟩
  simp only [List.append_assoc, List.append_nil]

end Recounts

/-- The functions of the classes that are complete. -/
structure Enrolled (opens : List Begun) (done : List Completed) (s : Stage Declarations) :
    Prop where
  parameters : ∀ x ∈ opens, (x.generics.map (·.name.name)).Nodup
  functions : ∀ x ∈ done,
    (s.work.symbols.functions.filter (·.owner = some x.key)).map (·.bare) =
      x.source.roster.functions.map (·.1)
  bodies : ∀ x ∈ done, ∀ t ∈ x.source.roster.functions,
    (t.1.key, t.2) ∈ s.report.bodies.map fun b => (b.function, b.source)

namespace Enrolled

variable {script : Script} {opens : List Begun} {done : List Completed} {s s' : Stage Declarations}
  {x : Completed}

theorem sameFunctions {ps : List Problem} (E : Enrolled opens done s)
    (H : s.SameFunctions ps s') : Enrolled opens done s' where
  parameters := E.parameters
  functions y hy := by rw [H.functions, E.functions y hy]
  bodies y hy t ht := by rw [H.bodies]; exact E.bodies y hy t ht

theorem closes (E : Enrolled (x.toBegun :: opens) done s) (hnew : x.key ∉ done.map (·.key))
    (howners : ∀ f ∈ s.work.symbols.functions, f.owner ≠ some x.key)
    (hfresh : ∀ t ∈ x.source.functions, t.1.key ∉ s.work.symbols.functions.map (·.key))
    (h : Closes done x s s') : Enrolled opens (x :: done) s' ∧
      ∃ ps, (∀ p ∈ ps, p.ConcernsType) ∧
        s'.problems = s.problems ++ ps ++ x.source.roster.problems := by
  obtain ⟨hparameters, hopens⟩ := List.forall_mem_cons.mp E.parameters
  obtain ⟨clause, before, _, _, P, R⟩ := h.enters hparameters hfresh
  have hfunctions : ∀ k, (s'.work.symbols.functions.filter (·.owner = some k)).map (·.bare) =
      (s.work.symbols.functions.filter (·.owner = some k)).map (·.bare) ++
        (x.source.roster.functions.map (·.1)).filter (·.owner = some k) := by
    intro k
    have hbare : ∀ fs : List FunctionEntry, (fs.filter (·.owner = some k)).map (·.bare) =
        (fs.map (·.bare)).filter (·.owner = some k) := by
      intro fs
      rw [List.filter_map]
      rfl
    rw [hbare, hbare, R.functions, P.functions, List.filter_append]
  have howned : ∀ f ∈ x.source.roster.functions.map (·.1), f.owner = some x.key := by
    intro f hf
    obtain ⟨t, ht, rfl⟩ := List.mem_map.mp hf
    exact x.source.ownedBy_roster t ht
  have hbodies : ∀ {p}, p ∈ s.report.bodies.map (fun b => (b.function, b.source)) ∨
      p ∈ x.source.roster.functions.map (fun t => (t.1.key, t.2)) →
        p ∈ s'.report.bodies.map fun b => (b.function, b.source) := by
    intro p hp
    rw [R.bodies, P.report]
    exact List.mem_append.mpr hp
  refine ⟨⟨hopens, List.forall_mem_cons.mpr ⟨?_, fun y hy => ?_⟩,
    List.forall_mem_cons.mpr ⟨fun t ht => ?_, fun y hy t ht => ?_⟩⟩,
    clause.problems, P.reported, by rw [R.problems, P.problems]⟩
  · have hnone : s.work.symbols.functions.filter (·.owner = some x.key) = [] :=
      List.filter_eq_nil_iff.mpr fun f hf => by simpa using howners f hf
    rw [hfunctions, hnone, List.filter_eq_self.mpr fun f hf => decide_eq_true (howned f hf)]
    rfl
  · have hnone : (x.source.roster.functions.map (·.1)).filter (·.owner = some y.key) = [] := by
      refine List.filter_eq_nil_iff.mpr fun f hf hown => hnew ?_
      have hkey : x.key = y.key := Option.some.inj ((howned f hf).symm.trans (of_decide_eq_true hown))
      exact List.mem_map.mpr ⟨y, hy, hkey.symm⟩
    rw [hfunctions, hnone, List.append_nil, E.functions y hy]
  · exact hbodies (.inr (List.mem_map.mpr ⟨t, ht, rfl⟩))
  · exact hbodies (.inl (E.bodies y hy t ht))

theorem advances {classes : List ClassDef} {start : Stage Declarations} {L : Ledger}
    (D : script.FunctionsDistinct) (hclasses : ∀ c ∈ classes, script.Registers c)
    (I : L.Inventory script start) (hnone : L.done = [])
    (hfunctions : L.functions = script.globalFunctions)
    (A : Advances classes start opens done s) :
    Enrolled opens done s ∧ Recounts start.problems opens done s.problems := by
  have hmem : classes ⊆ script.classes := fun c hc => List.mem_of_find?_eq_some (hclasses c hc)
  induction A with
  | refl =>
    exact ⟨⟨fun _ h => absurd h List.not_mem_nil, fun _ h => absurd h List.not_mem_nil,
      fun _ h => absurd h List.not_mem_nil⟩, .start _⟩
  | begin before kept completing listed fresh step ih =>
    obtain ⟨E, R⟩ := ih
    obtain ⟨⟨ps, hps, H⟩, hnodup⟩ := openClass_distinct step
    refine ⟨{ E.sameFunctions H with
      parameters := List.forall_mem_cons.mpr ⟨hnodup, E.parameters⟩ }, ?_⟩
    rw [H.problems]
    exact R.begins _ hps
  | @close g opens done cut x u s s' before kept completing next step entry ih =>
    have I' := I.advances hnone hfunctions hclasses before
    have hdone : (L.addClasses done).done = done := by
      rw [Ledger.addClasses_done, hnone, List.append_nil]
    have hnew : x.key ∉ done.map (·.key) := fun hkey =>
      (List.nodup_cons.mp completing.distinct).1 (mem_keys_begun.mpr (.inr hkey))
    obtain ⟨E, R⟩ := ih
    have howners : ∀ f ∈ s.work.symbols.functions, f.owner ≠ some x.key := by
      intro f hf howner
      -- a registered function belongs to a complete class or to none
      obtain ⟨_, _, _, hlives, _⟩ := I'.housing.housed f hf
      rw [hdone] at hlives
      cases hlives with
      | root hroot => cases hroot.symm.trans howner
      | member hy hmember =>
        exact hnew (List.mem_map.mpr ⟨_, hy, Option.some.inj (hmember.symm.trans howner)⟩)
    have hsources : ∀ y ∈ done, y.source ∈ script.classes := fun y hy =>
      hmem (completing.sources y.toBegun (List.mem_append_right _ (List.mem_map_of_mem hy)))
    have hfresh := I'.function_free D hfunctions hsources
      (hmem (completing.sources x.toBegun List.mem_cons_self)) hnew
    obtain ⟨E', ps, hps, hproblems⟩ := E.closes hnew howners hfresh
      (closes_of_closeClass kept completing next step entry)
    rw [hproblems]
    exact ⟨E', R.completes hps⟩

end Enrolled

/-- When all is declared, each class has the functions of its roster. The names of classes and
functions were reported on first, then the classes, and then the variables outside classes. -/
theorem Arrives.enrolled {script : Script} {o : Options} {classes : List ClassDef}
    {done : List Completed} {s : Stage Declarations} (D : script.FunctionsDistinct)
    (hclasses : ∀ c ∈ classes, script.Registers c) (A : Arrives script o classes done s) :
    Enrolled [] done s ∧ ∃ names ps globals,
      names.Sublist (script.items.filterMap Item.redefinition?) ∧ Reported done ps ∧
      List.SublistForall₂ VariableDef.Redeclares globals script.globalVariables ∧
      s.problems = names ++ ps ++ globals := by
  obtain ⟨s₁, s₂, u, hnames, hadvances, hglobals⟩ := A
  have I := (Ledger.inventory_start script o).names rfl rfl rfl (List.Subset.refl _) hnames
  obtain ⟨E, ps, types, hreported, _, hnone, hproblems⟩ := Enrolled.advances D hclasses I
    (by rw [Ledger.addGlobals_done]) (by rw [Ledger.addGlobals_functions]; rfl) hadvances
  obtain ⟨names, hsublist, hfirst⟩ := problems_names hnames
  obtain ⟨globals, hvariables, H⟩ := sameFunctions_globals hglobals
  refine ⟨E.sameFunctions H, names, ps, globals, hsublist, hreported, hvariables, ?_⟩
  rw [H.problems, hproblems, hnone rfl, hfirst, List.append_nil, List.nil_append]

end Declare

end Stackless
