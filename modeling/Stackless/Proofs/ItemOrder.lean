import Stackless.Proofs.Summaries

/-!
# The order of items

Whatever the order of the items of an orderly script, the programs that it is compiled to mean the
same. They differ in the ids and the places that variables get, and in the order of their
diagnostics.
-/

namespace Stackless

/-- Two programs say the same of classes, functions, calls and references, and report the same, in
whatever order. -/
structure Program.Reorders (p q : Program) : Prop where
  supertypes : ∀ t, (p.symbols.type? t).map (·.base) = (q.symbols.type? t).map (·.base)
  functions : ∀ f, (p.symbols.function? f).map (fun f => (f.params, f.stacked)) =
    (q.symbols.function? f).map fun f => (f.params, f.stacked)
  callees : ∀ f, p.symbols.calls.callees f = q.symbols.calls.callees f
  diagnostics : p.diagnostics.Perm q.diagnostics
  references : ∀ span,
    (p.reference? span).map (fun v => (v.name, v.span, v.kind, v.location.domain)) =
      (q.reference? span).map fun v => (v.name, v.span, v.kind, v.location.domain)

theorem Script.SpansDistinct.perm {s s' : Script} (hspans : s.SpansDistinct)
    (h : s'.items.Perm s.items) : s'.SpansDistinct := by
  have hvariables : s'.variableDefs.Perm s.variableDefs :=
    ((Orderly.classes_perm h).flatMap_right _).append (h.filterMap _)
  have hfunctions := Orderly.functions_perm h
  have hnames : s'.variableNames.Perm s.variableNames :=
    (hvariables.map _).append (hfunctions.flatMap_right _)
  have hmentions : s'.mentions.Perm s.mentions :=
    ((hvariables.flatMap_right _).flatMap_right _).append (hfunctions.flatMap_right _)
  exact ((hnames.append hmentions).map _).nodup_iff.mpr hspans

theorem Layout.count_eq_countP_profiles (l : Layout) (d : Domain) :
    l.count d = l.profiles.countP (·.domain = d) := by
  rw [count, profiles, List.countP_map]
  rfl

theorem Symbols.stagingProfile_congr {s s' : Symbols}
    (h : (s.functions.map fun f => (f.bare, f.stacked)).Perm
      (s'.functions.map fun f => (f.bare, f.stacked))) : s.stagingProfile = s'.stagingProfile := by
  have hneeds : ∀ t : Symbols, Use.needsStaging t =
      (t.functions.map fun f => (f.bare, f.stacked)).any fun x => x.2 && 1 < x.1.arity := by
    intro t
    rw [List.any_map]
    rfl
  rw [stagingProfile, stagingProfile, hneeds, hneeds, h.any_eq]

namespace Summary

variable {script script' : Script} {p q : Program}

/-- What a reference tells of a variable is in its profile. -/
theorem map_reference? (S : Summary script p) (span : Span) :
    (p.reference? span).map (fun v => (v.name, v.span, v.kind, v.location.domain)) =
      ((p.reference? span).map (·.profile)).bind fun v =>
        v.declaration.map fun x => (x.name, x.span, v.kind, v.domain) := by
  cases hv : p.reference? span with
  | none => rfl
  | some v =>
    obtain ⟨t, _, _, _, x, _, hdeclaration⟩ :=
      (S.references span v.profile).mp (congrArg (Option.map _) hv)
    obtain ⟨scope, hscope, _⟩ := Option.map_eq_some_iff.mp hdeclaration
    change _ = v.declaration?.map _
    rw [Variable.declaration?, hscope]
    rfl

section
variable (S : Summary script p) (S' : Summary script' q) (O : script.Orderly)
  (h : script'.items.Perm script.items)
include S S' O h

theorem outcomes_perm : S.survey.outcomes.Perm S'.survey.outcomes := by
  have H := S.survey.resembles S'.survey O h
  rw [Survey.outcomes, Survey.outcomes]
  simp only [H.view, H.viewOf]
  exact ((S.survey.firstValues_perm S'.survey O h).flatMap_right _).append
    ((S.survey.bodies_perm S'.survey O h).flatMap_right _)

theorem functions_perm :
    (p.symbols.functions.map fun f => (f.bare, f.stacked)).Perm
      (q.symbols.functions.map fun f => (f.bare, f.stacked)) := by
  rw [S.functions, S'.functions]
  exact (S.survey.resembles S'.survey O h).stacked S.survey.settled.calls S'.survey.settled.calls
    (S.survey.sameCalls S'.survey O h) S.unstacked S'.unstacked

theorem profiles_perm : p.layout.profiles.Perm q.layout.profiles := by
  rw [S.profiles, S'.profiles, Symbols.stagingProfile_congr (S.functions_perm S' O h)]
  exact ((S.survey.profiles_perm S'.survey O h).append
    ((S.outcomes_perm S' O h).filterMap _)).append_right _

theorem diagnostics_perm : p.diagnostics.Perm q.diagnostics := by
  rw [S.diagnostics, S'.diagnostics]
  have hchecks := (S.survey.resembles S'.survey O h).checkRecursion S.survey.settled.calls
    S'.survey.settled.calls (S.survey.sameCalls S'.survey O h)
  exact (((S.survey.problems_perm S'.survey O h).append hchecks).append
    ((S.outcomes_perm S' O h).filterMap _)).map _

theorem references_eq (span : Span) :
    (p.reference? span).map (·.profile) = (q.reference? span).map (·.profile) := by
  ext v
  rw [S.references, S'.references]
  have huses := (S.outcomes_perm S' O h).filterMap Outcome.use?
  simp only [huses.mem_iff, (S.profiles_perm S' O h).mem_iff]

theorem function?_eq (k : Key) :
    (p.symbols.function? k).map (fun f => (f.bare, f.stacked)) =
      (q.symbols.function? k).map fun f => (f.bare, f.stacked) := by
  refine Symbols.map_function?_perm _ (·.1.key) (fun _ => rfl) ?_ (S.functions_perm S' O h) k
  have hkeys := congrArg (List.map (·.1.key)) S.functions
  rw [List.map_map, List.map_map] at hkeys
  have hdeclared := (S.survey.resembles S'.survey O h).keys
  rw [← Symbols.keys_checkRecursion] at hdeclared
  exact hkeys ▸ hdeclared

theorem reorders : p.Reorders q where
  supertypes t := by
    have hbase := S.survey.map_type?_eq S'.survey O h t
    rwa [Symbols.type?, Symbols.type?, ← S.types, ← S'.types] at hbase
  functions k := by
    have hfunction := congrArg (Option.map fun t => (t.1.params, t.2)) (S.function?_eq S' O h k)
    rwa [Option.map_map, Option.map_map] at hfunction
  callees f := by
    rw [S.calls, S'.calls]
    exact S.survey.settled.calls.callees_eq S'.survey.settled.calls
      (S.survey.sameCalls S'.survey O h) f
  diagnostics := S.diagnostics_perm S' O h
  references span := by rw [S.map_reference?, S'.map_reference?, S.references_eq S' O h]

end

end Summary

namespace Program

variable {s s' : Script} {o o' : Options} {p q : Program}

/-- The items need the same room in any order. -/
theorem exists_compile_of_perm (O : s.Orderly) (hspans : s.SpansDistinct)
    (h : s'.items.Perm s.items) (hp : compile s o = .ok p) : ∃ q, compile s' o = .ok q := by
  obtain ⟨V, _⟩ := compile_ok hp
  obtain ⟨o', V', q, hq⟩ := exists_target s'
  obtain ⟨S⟩ := exists_summary O hspans hp
  obtain ⟨S'⟩ := exists_summary (O.perm h) (hspans.perm h) hq
  refine (exists_compile_iff V' V hq).mpr fun d => ?_
  rw [Layout.count_eq_countP_profiles, ← (S.profiles_perm S' O h).countP_eq,
    ← Layout.count_eq_countP_profiles]
  exact (exists_compile_iff V V hp).mp ⟨p, hp⟩ d

/-- The order of the items of a script does not matter: in any other order it is compiled for the
same targets, and the program means the same. -/
theorem compile_perm (O : s.Orderly) (hspans : s.SpansDistinct) (h : s'.items.Perm s.items)
    (o : Options) :
    ((∃ p, compile s o = .ok p) ↔ ∃ q, compile s' o = .ok q) ∧
      ∀ p q, compile s o = .ok p → compile s' o = .ok q → p.Reorders q := by
  refine ⟨⟨fun ⟨p, hp⟩ => exists_compile_of_perm O hspans h hp, fun ⟨q, hq⟩ =>
    exists_compile_of_perm (O.perm h) (hspans.perm h) h.symm hq⟩, fun p q hp hq => ?_⟩
  obtain ⟨S⟩ := exists_summary O hspans hp
  obtain ⟨S'⟩ := exists_summary (O.perm h) (hspans.perm h) hq
  exact S.reorders S' O h

end Program

/-- A class before the one that it extends, and functions before the variables that they use. -/
def Script.deferred : Script where
  items :=
    [.classItem { name := ⟨"B", ⟨1, 1, 1⟩⟩, span := ⟨1, 1, 1⟩,
                  base := some (.mk ⟨1, 5, 1⟩ ⟨"A", ⟨1, 5, 1⟩⟩ []),
                  members := [.method { name := ⟨"m", ⟨2, 1, 1⟩⟩, span := ⟨2, 1, 1⟩,
                                        body := some ⟨{}, [
                    .ret {} (some (.call ⟨3, 1, 1⟩ none ⟨"f", ⟨3, 1, 1⟩⟩
                      [.reference ⟨"x", ⟨3, 3, 1⟩⟩]))]⟩ }] },
     .functionItem { name := ⟨"f", ⟨4, 1, 1⟩⟩, span := ⟨4, 1, 1⟩,
                     params := [⟨⟨"a", ⟨4, 3, 1⟩⟩, ⟨4, 3, 1⟩⟩, ⟨⟨"b", ⟨4, 6, 1⟩⟩, ⟨4, 6, 1⟩⟩],
                     isRecursive := true, body := some ⟨{}, [
                       .expr ⟨5, 1, 1⟩ (.call ⟨5, 1, 1⟩ none ⟨"f", ⟨5, 1, 1⟩⟩
                         [.reference ⟨"b", ⟨5, 3, 1⟩⟩, .reference ⟨"g", ⟨5, 6, 1⟩⟩])]⟩ },
     .classItem { name := ⟨"A", ⟨6, 1, 1⟩⟩, span := ⟨6, 1, 1⟩,
                  members := [.field { domain := .entity, name := ⟨"x", ⟨7, 1, 1⟩⟩,
                                       span := ⟨7, 1, 1⟩ }] },
     .variableItem { domain := .global, name := ⟨"g", ⟨8, 1, 1⟩⟩, span := ⟨8, 1, 1⟩,
                     init := some (.reference ⟨"h", ⟨8, 5, 1⟩⟩) },
     .variableItem { domain := .entity, name := ⟨"k", ⟨9, 1, 1⟩⟩, span := ⟨9, 1, 1⟩,
                     init := some (.reference ⟨"x", ⟨9, 5, 1⟩⟩) }]

def Script.deferredReversed : Script where
  items := Script.deferred.items.reverse

theorem Script.orderly_deferred : Script.deferred.Orderly := by
  have hextends : ∀ a b, Script.deferred.Extends a b → a = "B" ∧ b = "A" := by
    rintro a b ⟨c, hc, rfl, ref, hbase, rfl, _⟩
    simp only [Script.classes, Script.deferred, Item.toClass?, List.filterMap_cons,
      List.filterMap_nil, List.mem_cons, List.not_mem_nil, or_false] at hc
    rcases hc with rfl | rfl
    · cases hbase
      exact ⟨rfl, rfl⟩
    · cases hbase
  refine ⟨by decide +kernel, by decide +kernel, by decide +kernel, by decide +kernel, fun a h => ?_⟩
  obtain ⟨b, hfirst, _⟩ := Relation.TransGen.head'_iff.mp h
  obtain ⟨c, _, hlast⟩ := Relation.TransGen.tail'_iff.mp h
  exact absurd ((hextends a b hfirst).1.symm.trans (hextends c a hlast).2) (by decide)

theorem Script.spansDistinct_deferred : Script.deferred.SpansDistinct := by
  simp only [Script.SpansDistinct, Script.variableNames, Script.mentions, Script.functions,
    Script.variableDefs, Script.globalFunctions, Script.globalVariables, Script.classes,
    Script.deferred, Item.toClass?, Item.toFunction?, Item.toVariable?, ClassDef.functions,
    ClassDef.fields, ClassDef.supplied, Declare.defaultConstructor, Member.function?,
    Member.toField?, Member.isConstructor, FunctionDef.paramIdents, FunctionDef.locals,
    FunctionDef.mentions, FunctionDef.statements, List.filterMap_cons, List.filterMap_nil,
    List.flatMap_cons, List.flatMap_nil, List.map_cons, List.map_nil, List.any_cons, List.any_nil]
  simp [Stmt.preorder_eq, Stmt.children, Stmt.declared, Stmt.ownExprs, Expr.mentions_eq,
    Expr.mentioned?, Expr.children]

/-- Variables outside classes get their ids in the order of the items. -/
theorem Program.compile_perm_deferred :
    Script.deferred.Orderly ∧ Script.deferred.SpansDistinct ∧
      ∃ p q, compile .deferred {} = .ok p ∧ compile .deferredReversed {} = .ok q ∧
        p.layout.table.toList.map (·.name) = ["x", "g", "k", "a", "b", "__call_args"] ∧
        q.layout.table.toList.map (·.name) = ["x", "k", "g", "a", "b", "__call_args"] ∧
        p.Reorders q := by
  have hnames : (compile .deferred {}).toOption.map (·.layout.table.toList.map (·.name)) =
      some ["x", "g", "k", "a", "b", "__call_args"] := by decide +kernel
  have hnames' : (compile .deferredReversed {}).toOption.map (·.layout.table.toList.map (·.name)) =
      some ["x", "k", "g", "a", "b", "__call_args"] := by decide +kernel
  have hperm : Script.deferredReversed.items.Perm Script.deferred.items := List.reverse_perm _
  obtain ⟨hfits, hsame⟩ :=
    compile_perm Script.orderly_deferred Script.spansDistinct_deferred hperm {}
  cases hp : compile .deferred {} with
  | error f =>
    rw [hp] at hnames
    cases hnames
  | ok p =>
    obtain ⟨q, hq⟩ := hfits.mp ⟨p, hp⟩
    rw [hp] at hnames
    rw [hq] at hnames'
    exact ⟨Script.orderly_deferred, Script.spansDistinct_deferred, p, q, rfl, hq,
      Option.some.inj hnames, Option.some.inj hnames', hsame p q hp hq⟩

end Stackless
