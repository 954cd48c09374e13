import Stackless.Proofs.Consistency
import Stackless.Proofs.Faults
import Stackless.Proofs.Outcomes
import Stackless.Proofs.Surveys
import Stackless.Proofs.Targets

/-!
# Summaries of compiled scripts

What an orderly script is compiled to, said without ids (`Summary`): the types and calls are those of
its survey, and the variables, the problems and what references mean can be read off the outcomes of
its bodies and first values (`Survey.outcomes`).
-/

namespace Stackless

/-! ## References -/

namespace Stmt

mutual

theorem outer_of_uses (env : Environment) (s : Stmt) :
    ∀ use ∈ s.uses env, use.env.outer = env.outer := by
  have hexpr : ∀ (e : Expr), ∀ use ∈ e.uses env, use.env.outer = env.outer := by
    intro e use huse
    obtain ⟨x, _, rfl⟩ := List.mem_map.mp huse
    rfl
  have hexpr? : ∀ (e : Option Expr), ∀ use ∈ e.toList.flatMap (·.uses env),
      use.env.outer = env.outer := by
    intro e use huse
    obtain ⟨e, _, huse⟩ := List.mem_flatMap.mp huse
    exact hexpr e use huse
  intro use huse
  cases s with
  | expr _ e => exact hexpr e use huse
  | declare v => exact hexpr? v.init use huse
  | ret _ value => exact hexpr? value use huse
  | block _ body => exact outer_of_usesIn env [] body use huse
  | ifThen _ condition _ body | loop _ condition _ body =>
    rcases List.mem_append.mp huse with huse | huse
    · exact hexpr condition use huse
    · exact outer_of_usesIn env [] body use huse
  | ifElse _ condition _ body _ other =>
    rcases List.mem_append.mp huse with huse | huse
    · exact hexpr condition use huse
    · rcases List.mem_append.mp huse with huse | huse
      · exact outer_of_usesIn env [] body use huse
      · exact outer_of_usesIn env [] other use huse

theorem outer_of_usesIn (env : Environment) (block : Locals) (ss : List Stmt) :
    ∀ use ∈ usesIn env block ss, use.env.outer = env.outer := by
  intro use huse
  cases ss with
  | nil => cases huse
  | cons s rest =>
    rcases List.mem_append.mp huse with huse | huse
    · exact outer_of_uses (env.enter block) s use huse
    · exact outer_of_usesIn env _ rest use huse

end

end Stmt

/-- The outer names of an environment mean variables that are declared where the binding says. -/
def Layout.Declares (l : Layout) (outer : String → Option Binding) : Prop :=
  ∀ {name b id}, outer name = some b → b.symbol = .ofVariable id →
    l.declaration? id = some ⟨name, b.span⟩

/-- What a name means is declared at the target of the name. -/
theorem Environment.Means.declaration?_eq {env : Environment} {l : Layout} {name : String}
    {r : Option VariableId} (h : env.Means l name r) (houter : l.Declares env.outer) :
    r.bind l.declaration? = env.outlook.target? name := by
  rw [Outlook.target?]
  cases h with
  | declared nearest entry =>
    rw [nearest?] at nearest
    simp only [outlook, nearest, Option.some_or, Option.bind_some, entry]
  | outside undeclared =>
    rw [nearest?] at undeclared
    simp only [outlook, undeclared, Option.none_or]
    cases hb : env.outer name with
    | none => rfl
    | some b =>
      cases hsymbol : b.symbol with
      | ofVariable id =>
        simp [Binding.sight, hsymbol, Symbol.toVariable?, Symbol.toFunction?, houter hb hsymbol]
      | ofFunction key => simp [Binding.sight, hsymbol, Symbol.toVariable?, Symbol.toFunction?]

namespace Layout

variable {l : Layout} {v : Profile} {x : Ident}

theorem mem_profiles : v ∈ l.profiles ↔ ∃ id, (l.get? id).map (·.profile) = some v := by
  rw [profiles, List.mem_map]
  constructor
  · rintro ⟨u, hu, rfl⟩
    obtain ⟨i, hi⟩ := List.mem_iff_getElem?.mp hu
    refine ⟨⟨i⟩, ?_⟩
    rw [get?, ← Array.getElem?_toList, hi]
    rfl
  · rintro ⟨id, hid⟩
    obtain ⟨u, hu, rfl⟩ := Option.map_eq_some_iff.mp hid
    exact ⟨u, Array.mem_toList_iff.mpr (Array.mem_of_getElem? hu), rfl⟩

theorem declaration?_of_profile {id : VariableId} (h : (l.get? id).map (·.profile) = some v) :
    l.declaration? id = v.declaration := by
  obtain ⟨u, hu, rfl⟩ := Option.map_eq_some_iff.mp h
  rw [declaration?, hu]
  rfl

end Layout

/-- A reference means the variable that is declared at the target of its name. -/
theorem Stage.Ties.reference_iff {s s' : Stage Usage} {uses : List VariableUse} {names : List Ident}
    (T : s.Ties uses names s') (hreferences : s.report.references = {}) (hproblems : s.problems = [])
    (huses : (uses.map (·.name.span)).Nodup)
    (hdeclared : (s'.work.layout.declarations.map (·.span)).Nodup)
    (houter : ∀ use ∈ uses, s'.work.layout.Declares use.env.outer) (span : Span) (v : Profile) :
    ((s'.report.references.get? span).bind s'.work.layout.get?).map (·.profile) = some v ↔
      ∃ t ∈ uses.map (·.resolved), t.1.span = span ∧ v ∈ s'.work.layout.profiles ∧
        ∃ x, t.2 = some x ∧ v.declaration = some x := by
  have hresolves : ∀ use ∈ uses, (s'.report.references.get? use.name.span).bind
      s'.work.layout.declaration? = use.resolved.2 ∧
        use.resolved.2.isSome = (s'.report.references.get? use.name.span).isSome := by
    intro use huse
    have R := T.resolves hreferences hproblems huses hdeclared huse
    have hmeans := (R.reference _).mpr rfl
    exact ⟨hmeans.declaration?_eq (houter use huse), hmeans.isSome_target?⟩
  constructor
  · intro h
    obtain ⟨u, hu, rfl⟩ := Option.map_eq_some_iff.mp h
    obtain ⟨id, hid, hentry⟩ := Option.bind_eq_some_iff.mp hu
    obtain ⟨use, huse, rfl⟩ : ∃ use ∈ uses, use.name.span = span := by
      by_contra hnone
      obtain ⟨ties, hties, htied, _⟩ := T.ties
      have hne : ∀ t ∈ ties, t.1.span ≠ span := by
        intro t ht he
        obtain ⟨use, huse, hname, _⟩ := exists_of_forall₂_right hties ht
        exact hnone ⟨use, huse, hname ▸ he⟩
      rw [htied, hreferences, Usage.get?_tie_of_ne hne] at hid
      cases hid
    obtain ⟨htarget, hsome⟩ := hresolves use huse
    rw [hid] at htarget hsome
    obtain ⟨x, hx⟩ := Option.isSome_iff_exists.mp hsome
    have hprofile : (s'.work.layout.get? id).map (·.profile) = some u.profile := by rw [hentry]; rfl
    refine ⟨use.resolved, List.mem_map_of_mem huse, rfl, Layout.mem_profiles.mpr ⟨id, hprofile⟩,
      x, hx, ?_⟩
    rw [← Layout.declaration?_of_profile hprofile]
    exact htarget.trans hx
  · rintro ⟨t, ht, rfl, hv, x, hx, hdeclaration⟩
    obtain ⟨use, huse, rfl⟩ := List.mem_map.mp ht
    obtain ⟨htarget, _⟩ := hresolves use huse
    obtain ⟨id, hid, hentry⟩ := Option.bind_eq_some_iff.mp (htarget.trans hx)
    obtain ⟨id', hprofile⟩ := Layout.mem_profiles.mp hv
    have hentry' := (Layout.declaration?_of_profile hprofile).trans hdeclaration
    cases Layout.declaration?_inj hdeclared hentry hentry'
    change ((s'.report.references.get? use.name.span).bind s'.work.layout.get?).map _ = _
    rw [hid]
    exact hprofile

/-! ## Outcomes of a script -/

namespace Survey

variable {script : Script} {w w' : Workspace} {d : Declarations} {problems last : List Problem}
  {u : Usage}

/-- What the first values and the bodies of a script come to. -/
def outcomes (D : Survey script w d problems) : List Outcome :=
  (D.firstValues.flatMap fun v =>
      v.2.2.outcomes { outer := (w.symbols.view (w.symbols.around v.1 v.2.1)).names }) ++
    (d.bodies.map fun b => (b.function, b.source)).flatMap fun t =>
      t.2.outcomes (w.symbols.viewOf t.1).names

theorem uses_outcomes (D : Survey script w d problems) :
    D.outcomes.filterMap Outcome.use? = (d.uses w.symbols).map (·.resolved) := by
  rw [outcomes, Declarations.uses, List.filterMap_append, List.map_append, List.filterMap_flatMap,
    List.filterMap_flatMap, List.map_flatMap, List.map_flatMap, List.flatMap_map]
  congr 1
  · refine (D.flatMap_initializers fun {i owner isStatic} _ henclosing => ?_).symm
    rw [henclosing, ← Expr.uses_outcomes]
    rfl
  · exact List.flatMap_congr fun b _ => FunctionDef.uses_outcomes _ b.source

/-- Names mean variables that are declared where the scopes say. -/
theorem declares (D : Survey script w d problems) (C : w.Coherent) (scopes : List ScopeId) :
    w.layout.Declares (w.symbols.scopes.visible? scopes) := by
  intro name b id hb hsymbol
  obtain ⟨scope, _, hbinding⟩ := List.exists_of_findSome?_eq_some hb
  obtain ⟨v, hv, rfl, hspan, _⟩ := C.bound hbinding hsymbol
  have hprofile : (w.layout.get? id).map (·.profile) = some v.profile := by rw [hv]; rfl
  have hprofiles : w.layout.profiles = _ := D.census.profiles
  have hmem := Layout.mem_profiles.mpr ⟨id, hprofile⟩
  rw [hprofiles] at hmem
  have hdeclared : ∃ x, v.declaration? = some x := by
    rcases List.mem_append.mp hmem with hmem | hmem
    · obtain ⟨x, _, hmem⟩ := List.mem_flatMap.mp hmem
      exact ClassDef.declared_of_profile hmem
    · obtain ⟨u, _, hu⟩ := List.mem_map.mp hmem
      exact ⟨u.name, congrArg Profile.declaration hu.symm⟩
  obtain ⟨x, hx⟩ := hdeclared
  obtain ⟨scope, _, rfl⟩ := Option.map_eq_some_iff.mp hx
  rw [Layout.declaration?_of_profile hprofile, ← hspan]
  exact hx

theorem outer_declares (D : Survey script w d problems) (C : w.Coherent) {use : VariableUse}
    (huse : use ∈ d.uses w.symbols) : w.layout.Declares use.env.outer := by
  rcases List.mem_append.mp huse with huse | huse
  · obtain ⟨i, _, huse⟩ := List.mem_flatMap.mp huse
    obtain ⟨x, _, rfl⟩ := List.mem_map.mp huse
    exact D.declares C _
  · obtain ⟨b, _, huse⟩ := List.mem_flatMap.mp huse
    obtain ⟨block, _, huse⟩ := List.mem_flatMap.mp huse
    rw [Stmt.outer_of_usesIn _ _ _ use huse]
    exact D.declares C _

theorem yields (D : Survey script w d problems) (hdistinct : (d.bodies.map (·.scope)).Nodup)
    (h : Workspace.use d { w with symbols := w.symbols.checkRecursion.2 } = .ok (u, last) w') :
    last = D.outcomes.filterMap Outcome.problem? ∧
      w'.layout.profiles = w.layout.profiles ++ D.outcomes.filterMap Outcome.profile? ++
        w'.symbols.stagingProfile := by
  simp only [Workspace.use, Pass.run] at h
  split at h
  · rename_i s' hrun
    cases h
    have hinits : ∀ i ∈ d.initializers,
        Workspace.At { w with symbols := w.symbols.checkRecursion.2 } i.scope
          { outer := w.symbols.scopes.visible? (w.symbols.scopes.enclosing i.scope) } := by
      intro i hi
      have hlt := (D.finished.at_initializer D.kept D.settled hi).1
      exact ⟨D.settled.scopes.nested, hlt, .outside fun _ => rfl⟩
    obtain ⟨os, hos, hproblems, hprofiles⟩ := Use.yields_declarations hinits
      (D.finished.waiting_bodies D.kept D.settled hdistinct) hrun
    have houtcomes : os = D.outcomes := by
      rw [hos, outcomes, List.flatMap_map]
      congr 1
      refine D.flatMap_initializers fun {i owner isStatic} _ henclosing => ?_
      rw [henclosing]
      rfl
    rw [houtcomes] at hproblems hprofiles
    exact ⟨hproblems, hprofiles⟩
  · cases h

end Survey

/-! ## Summaries -/

/-- All that is known of the program that an orderly script is compiled to. -/
structure Summary (script : Script) (p : Program) where
  declared : Workspace
  declarations : Declarations
  first : List Problem
  survey : Survey script declared declarations first
  types : p.symbols.types = declared.symbols.types
  calls : p.symbols.calls = declared.symbols.calls
  unstacked : ∀ f ∈ declared.symbols.functions, f.stacked = false
  functions : p.symbols.functions.map (fun f => (f.bare, f.stacked)) =
    declared.symbols.checkRecursion.2.functions.map fun f => (f.bare, f.stacked)
  diagnostics : p.diagnostics = (first ++ declared.symbols.checkRecursion.1.problems ++
    survey.outcomes.filterMap Outcome.problem?).map .ofProblem
  profiles : p.layout.profiles = declared.layout.profiles ++
    survey.outcomes.filterMap Outcome.profile? ++ p.symbols.stagingProfile
  references : ∀ span v, (p.reference? span).map (·.profile) = some v ↔
    ∃ t ∈ survey.outcomes.filterMap Outcome.use?, t.1.span = span ∧ v ∈ p.layout.profiles ∧
      ∃ x, t.2 = some x ∧ v.declaration = some x

theorem Program.exists_summary {script : Script} {o : Options} {p : Program} (O : script.Orderly)
    (hspans : script.SpansDistinct) (h : compile script o = .ok p) : Nonempty (Summary script p) := by
  obtain ⟨d, first, w, u, last, w', hdeclare, huse, rfl⟩ := exists_of_compile h
  have B := Workspace.declare_ok hdeclare
  obtain ⟨D⟩ := Workspace.exists_survey O hdeclare
  obtain ⟨U, _⟩ := Workspace.use_ok B.symbols.nodup_checkRecursion B.checkRecursion huse
  have T := D.finished.ties_use D.kept D.settled B.symbols.distinct huse
  obtain ⟨hlast, hprofiles⟩ := D.yields B.symbols.distinct huse
  obtain ⟨new, hnew, hlayout⟩ := T.declared
  have C : w.Coherent := by
    have H := (Workspace.coherent_ofOptions o).leaves_run (Declare.stepwise_script script) {}
    have hleaves : leaves ((Declare.script script).run {}) (.ofOptions o) = w := by
      change leaves (Workspace.declare script) (.ofOptions o) = w
      rw [leaves, hdeclare]
    exact hleaves ▸ H
  refine ⟨⟨w, d, first, D, ?_, U.calls, fun f hf => (B.symbols.plain f hf).2, ?_, ?_, hprofiles,
    fun span v => ?_⟩⟩
  · have K := (Pass.guards_run (Use.keeps_declarations (B.expects D.outline _)) {}).ensures
      (D.kept.forUse ({} : Usage)) huse
    exact K.types.trans D.kept.types.symm
  · rw [← U.signatures, List.map_map]
    rfl
  · rw [← hlast]
    rfl
  · rw [D.uses_outcomes]
    refine T.reference_iff rfl rfl (D.settled.nodup_uses hspans)
      (D.settled.nodup_declarations hspans hnew hlayout) (fun use huse => ?_) span v
    exact fun hb hsymbol => T.kept (D.outer_declares C huse hb hsymbol)

end Stackless
