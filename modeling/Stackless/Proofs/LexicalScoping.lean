import Stackless.Proofs.CallGraph
import Stackless.Proofs.Tying

/-!
# Lexical scoping

In a script whose variables are named at different places, every use of a variable is tied to what
its name means in its environment, and reported if that is no variable. Around the blocks of a body
lie the scopes of its class and the root, which using the variables of bodies does not change.
-/

namespace Stackless

/-! ## Specification -/

namespace Script

/-- The places that declare a variable. -/
def variableNames (s : Script) : List Ident :=
  s.variableDefs.map (·.name) ++ s.functions.flatMap fun t => t.2.paramIdents ++ t.2.locals

/-- The places where a variable is read or assigned. -/
def mentions (s : Script) : List Ident :=
  (s.variableDefs.flatMap (·.init.toList)).flatMap (·.mentions) ++
    s.functions.flatMap (·.2.mentions)

/-- No two places that name a variable have the same span. -/
def SpansDistinct (s : Script) : Prop := ((s.variableNames ++ s.mentions).map (·.span)).Nodup

end Script

/-- A first value of the script, with the class that it belongs to and whether it is static. -/
inductive Initializer.Of (i : Initializer) (script : Script) : Option Key → Bool → Prop where
  | global {v : VariableDef} (hv : v ∈ script.globalVariables) (init : v.init = some i.expr) :
    Of i script none false
  | field {c : ClassDef} {v : VariableDef} (hc : script.Registers c) (hv : v ∈ c.fields)
      (init : v.init = some i.expr) : Of i script (some c.key) v.isStatic

/-- A use is tied to the one variable that its name can mean, or it is reported. -/
structure Usage.Resolves (u : Usage) (unknown : List Problem) (l : Layout) (use : VariableUse) :
    Prop where
  reference : ∀ r, use.env.Means l use.name.name r ↔ u.references.get? use.name.span = r
  unknown : .unknownVariable use.name.name use.name.span ∈ unknown ↔
    u.references.get? use.name.span = none

/-- All uses in a script that was declared in `w` are resolved. The variables are found in `l`. -/
structure Workspace.ResolvesUses (w : Workspace) (script : Script) (d : Declarations) (u : Usage)
    (unknown : List Problem) (l : Layout) : Prop where
  bodies : ∀ f ∈ w.symbols.functions, ∃ b ∈ d.bodies, b.function = f.key ∧
    (f.callable, b.source) ∈ script.functions ∧
    ∀ use ∈ b.source.uses (w.symbols.scopes.visible? (w.symbols.surroundings f)),
      u.Resolves unknown l use
  initializers : ∀ i ∈ d.initializers, ∃ owner isStatic, i.Of script owner isStatic ∧
    ∀ use ∈ i.expr.uses
        { outer := w.symbols.scopes.visible? (w.symbols.around owner isStatic) },
      u.Resolves unknown l use

/-! ## Ties at distinct places -/

theorem Environment.Means.unique {env : Environment} {l : Layout} {name : String}
    {r r' : Option VariableId} (hspans : (l.declarations.map (·.span)).Nodup)
    (h : env.Means l name r) (h' : env.Means l name r') : r = r' := by
  cases h with
  | declared nearest entry =>
    cases h' with
    | declared nearest' entry' =>
      cases nearest.symm.trans nearest'
      rw [Layout.declaration?_inj hspans entry entry']
    | outside undeclared => cases nearest.symm.trans undeclared
  | outside undeclared =>
    cases h' with
    | declared nearest => cases nearest.symm.trans undeclared
    | outside => rfl

namespace Usage

variable {references : Dict Span VariableId} {ties : List Tie} {x : Ident} {span : Span}
  {r : Option VariableId}

theorem get?_tie_of_ne (h : ∀ t ∈ ties, t.1.span ≠ span) :
    (tie references ties).get? span = references.get? span := by
  induction ties generalizing references with
  | nil => rfl
  | cons t rest ih =>
    obtain ⟨y, id⟩ := t
    obtain ⟨hne, hrest⟩ := List.forall_mem_cons.mp h
    refine (ih hrest).trans ?_
    cases id with
    | none => rfl
    | some id => exact Dict.get?_put_of_ne _ _ hne

theorem get?_tie (hspans : (ties.map (·.1.span)).Nodup) (ht : (x, r) ∈ ties)
    (hnone : references.get? x.span = none) : (tie references ties).get? x.span = r := by
  induction ties generalizing references with
  | nil => cases ht
  | cons t rest ih =>
    obtain ⟨hfirst, hrest⟩ := List.nodup_cons.mp hspans
    rcases List.mem_cons.mp ht with rfl | htail
    · refine (get?_tie_of_ne fun t ht he => hfirst (List.mem_map.mpr ⟨t, ht, he⟩)).trans ?_
      cases r with
      | none => exact hnone
      | some id => exact Dict.get?_put_self ..
    · obtain ⟨y, id⟩ := t
      refine ih hrest htail ?_
      cases id with
      | none => exact hnone
      | some id =>
        refine (Dict.get?_put_of_ne _ _ fun he => ?_).trans hnone
        exact hfirst (List.mem_map.mpr ⟨_, htail, he.symm⟩)

end Usage

/-- Uses are tied under their own names. -/
theorem Usage.names_ties {uses : List VariableUse} {ties : List Tie}
    {means : VariableUse → Option VariableId → Prop}
    (h : List.Forall₂ (fun use t => t.1 = use.name ∧ means use t.2) uses ties) :
    ties.map (·.1.span) = uses.map (·.name.span) := by
  rw [← List.forall₂_eq_eq_eq, List.forall₂_map_left_iff, List.forall₂_map_right_iff]
  exact h.flip.imp fun _ _ h => congrArg Ident.span h.1

/-- What was tied in one run is what the uses mean. -/
theorem Stage.Ties.resolves {s s' : Stage Usage} {uses : List VariableUse} {names : List Ident}
    {use : VariableUse} (T : s.Ties uses names s') (hreferences : s.report.references = {})
    (hproblems : s.problems = []) (huses : (uses.map (·.name.span)).Nodup)
    (hdeclared : (s'.work.layout.declarations.map (·.span)).Nodup) (huse : use ∈ uses) :
    s'.report.Resolves s'.problems s'.work.layout use := by
  obtain ⟨ties, hties, htied, hunknown⟩ := T.ties
  obtain ⟨⟨x, r⟩, ht, hname, hmeans⟩ := exists_of_forall₂_left hties huse
  have hspans : (ties.map (·.1.span)).Nodup := Usage.names_ties hties ▸ huses
  have hget : ∀ {x r}, (x, r) ∈ ties → s'.report.references.get? x.span = r := by
    intro x r ht
    rw [htied, hreferences]
    exact Usage.get?_tie hspans ht rfl
  cases hname
  refine ⟨fun r' => ?_, ?_⟩
  · rw [hget ht]
    exact ⟨fun h => hmeans.unique hdeclared h, fun h => h ▸ hmeans⟩
  · rw [hunknown, hproblems]
    constructor
    · rintro (h | h)
      · cases h
      · exact hget h
    · intro h
      cases (hget ht).symm.trans h
      exact .inr ht

/-! ## Places of a declared script -/

/-- The uses in first values and bodies, in the order in which they are tied. -/
def Declarations.uses (d : Declarations) (s : Symbols) : List VariableUse :=
  (d.initializers.flatMap fun i =>
      i.expr.uses { outer := s.scopes.visible? (s.scopes.enclosing i.scope) }) ++
    d.bodies.flatMap fun b => b.source.uses (s.scopes.visible? (s.aroundBody b))

theorem Declarations.names_uses (d : Declarations) (s : Symbols) :
    (d.uses s).map (·.name) =
      d.initializers.flatMap (·.expr.mentions) ++ d.bodies.flatMap (·.source.mentions) := by
  simp only [uses, List.map_append, List.map_flatMap, Expr.names_uses, FunctionDef.names_uses]

/-- The declarations in a layout are among the names of its variables. -/
theorem Layout.declarations_sublist (l : Layout) :
    l.declarations.Sublist (l.table.toList.map fun v => ⟨v.name, v.span⟩) := by
  rw [declarations]
  induction l.table.toList with
  | nil => exact .slnil
  | cons v rest ih =>
    rw [filterMap_cons_toList, List.map_cons, Variable.declaration?]
    cases v.scope with
    | none => exact ih.cons _
    | some => exact ih.cons_cons _

/-- No scope around a body is that of a body. -/
theorem Scopes.Furnished.not_function_of_enclosing {s : Scopes} {done : List Completed}
    {f : FunctionEntry} {home a : ScopeId} (F : s.Furnished done) (h : f.LivesIn done home)
    (ha : a ∈ s.enclosing home) : ∃ kind parent, s.Has a kind parent ∧ kind ≠ .function := by
  have hroot : ∃ kind parent, s.Has .root kind parent ∧ kind ≠ .function := ⟨_, _, F.root, nofun⟩
  cases h with
  | root =>
    rw [F.enclosing_root, List.mem_singleton] at ha
    exact ha ▸ hroot
  | @member x hx =>
    have hstatic := F.has_side hx true
    cases hside : f.traits.isStatic && !f.traits.isConstructor with
    | false =>
      rw [hside] at ha
      have ha := F.enclosing_object hx ▸ ha
      rcases List.mem_cons.mp ha with rfl | ha
      · exact F.has_side hx false
      · rcases List.mem_cons.mp ha with rfl | ha
        · exact hstatic
        · exact List.mem_singleton.mp ha ▸ hroot
    | true =>
      rw [hside] at ha
      have ha := F.enclosing_static hx ▸ ha
      rcases List.mem_cons.mp ha with rfl | ha
      · exact hstatic
      · exact List.mem_singleton.mp ha ▸ hroot

namespace Workspace.Settled

variable {w : Workspace} {script : Script} {done : List Completed} {d : Declarations}
  {earlier : List Problem} {α : Type}

theorem bodies_subperm (S : w.Settled script done d earlier) (parts : FunctionDef → List α) :
    (d.bodies.flatMap (parts ·.source)).Subperm (script.functions.flatMap (parts ·.2)) := by
  obtain ⟨used, hused, _, hbodies⟩ := S.texts
  have hsources := congrArg (List.flatMap fun t : Key × FunctionDef => parts t.2) hbodies
  rw [List.flatMap_map, List.flatMap_map] at hsources
  rw [hsources]
  exact subperm_flatMap hused _

/-- Variables that are declared at different places of the script stay apart. -/
theorem nodup_declarations {new : List Ident} {l : Layout} (S : w.Settled script done d earlier)
    (hspans : script.SpansDistinct)
    (hnew : new.Sublist (d.bodies.flatMap fun b => b.source.paramIdents ++ b.source.locals))
    (hlayout : l.declarations = w.layout.declarations ++ new) :
    (l.declarations.map (·.span)).Nodup := by
  rw [Script.SpansDistinct, List.map_append] at hspans
  have hnames : l.declarations.Subperm script.variableNames := by
    rw [hlayout]
    refine (w.layout.declarations_sublist.subperm.trans S.table).append (hnew.subperm.trans ?_)
    exact S.bodies_subperm fun f => f.paramIdents ++ f.locals
  exact nodup_of_subperm (subperm_map hnames _) hspans.of_append_left

theorem uses_subperm (S : w.Settled script done d earlier) :
    ((d.uses w.symbols).map (·.name)).Subperm script.mentions := by
  have hinitializers := subperm_flatMap S.initializers (·.mentions)
  rw [List.flatMap_map] at hinitializers
  rw [d.names_uses]
  exact hinitializers.append (S.bodies_subperm _)

theorem nodup_uses (S : w.Settled script done d earlier) (hspans : script.SpansDistinct) :
    ((d.uses w.symbols).map (·.name.span)).Nodup := by
  rw [Script.SpansDistinct, List.map_append] at hspans
  have hmap := subperm_map S.uses_subperm (·.span)
  rw [List.map_map] at hmap
  exact nodup_of_subperm hmap hspans.of_append_right

theorem not_mem_enclosing {b b' : Body} (S : w.Settled script done d earlier) (hb : b ∈ d.bodies)
    (hb' : b' ∈ d.bodies) (hne : b.scope ≠ b'.scope) :
    b.scope ∉ w.symbols.scopes.enclosing b'.scope := by
  obtain ⟨f, hf, hmatches, _⟩ := S.exists_entry hb
  obtain ⟨f', hf', hmatches', _⟩ := S.exists_entry hb'
  obtain ⟨id, _, hscope, _, hget⟩ := S.housed f hf
  cases hscope.symm.trans hmatches.scope
  obtain ⟨id, home, hscope, hlives, hget'⟩ := S.housed f' hf'
  cases hscope.symm.trans hmatches'.scope
  have hparent : w.symbols.scopes.parent? b'.scope = some home := by
    rw [Scopes.parent?, hget']
  rw [S.scopes.nested.enclosing_cons hparent, List.mem_cons, not_or]
  refine ⟨hne, fun hmem => ?_⟩
  obtain ⟨kind, parent, ⟨scope, hscope, hkind, _⟩, hkind'⟩ :=
    S.scopes.not_function_of_enclosing hlives hmem
  cases hscope.symm.trans hget
  exact hkind' hkind.symm

end Workspace.Settled

namespace Outline.Finished

variable {g : Outline} {script : Script} {classes : List ClassDef} {done cut : List Completed}
  {w : Workspace} {d : Declarations} {problems earlier : List Problem} {b : Body}
  {i : Initializer}

/-- The body of a function is a place where nothing is declared yet. -/
theorem at_body (F : g.Finished script classes done cut)
    (K : g.Kept { work := w, report := d, problems }) (S : w.Settled script done d earlier)
    (hb : b ∈ d.bodies) : w.At b.scope
      (({ outer := w.symbols.scopes.visible? (w.symbols.aroundBody b) } : Environment).enter []) := by
  obtain ⟨f, hf, hmatches, hfunction⟩ := S.exists_entry hb
  obtain ⟨id, home, hscope, hlives, hget⟩ := S.housed f hf
  cases hscope.symm.trans hmatches.scope
  have hhome : w.Inside home { outer := w.symbols.scopes.visible? (w.symbols.aroundBody b) } := by
    refine .outside fun name => ?_
    rw [Symbols.aroundBody, hfunction]
    exact congrArg (w.symbols.scopes.visible? · name) (F.enclosing_home K S.scopes hlives)
  refine ⟨S.scopes.nested, Scopes.lt_of_get? hget, .block hhome ?_ ⟨fun {name} _ => ?_, fun h => ?_⟩⟩
  · rw [Scopes.parent?, hget]
  · rw [Scopes.binding?, hget]
    rfl
  · cases h

/-- A first value is placed in the root or in a scope of its class. -/
theorem at_initializer (F : g.Finished script classes done cut)
    (K : g.Kept { work := w, report := d, problems }) (S : w.Settled script done d earlier)
    (hi : i ∈ d.initializers) : i.scope.index < w.symbols.scopes.size ∧
      ∃ owner isStatic, i.Of script owner isStatic ∧
        w.symbols.scopes.enclosing i.scope = w.symbols.around owner isStatic := by
  cases S.starts i hi with
  | global hv init scope =>
    rw [scope]
    exact ⟨S.scopes.root.lt, none, false, .global hv init, S.scopes.enclosing_root⟩
  | @field x v hx hv init scope =>
    obtain ⟨kind, parent, hside, _⟩ := S.scopes.has_side hx v.isStatic
    rw [scope]
    refine ⟨hside.lt, some x.key, v.isStatic, ?_, F.enclosing_side K S.scopes hx _⟩
    exact .field (F.registers_of_done hx) hv init

/-- After the recursion check, which leaves the scopes as they are, all bodies wait. -/
theorem waiting_bodies (F : g.Finished script classes done cut)
    (K : g.Kept { work := w, report := d, problems }) (S : w.Settled script done d earlier)
    (hdistinct : (d.bodies.map (·.scope)).Nodup) :
    Use.Waiting { w with symbols := w.symbols.checkRecursion.2 }
      (fun b => w.symbols.scopes.visible? (w.symbols.aroundBody b)) d.bodies := by
  refine ⟨fun b hb => ?_, fun b hb b' hb' => S.not_mem_enclosing hb hb', hdistinct⟩
  have A := F.at_body K S hb
  exact A.grows (.refl _ _) (fun h => h) A.nextId_not_mem

/-- What using the variables of bodies does to a declared script. -/
theorem ties_use {u : Usage} {unknown : List Problem} {w' : Workspace}
    (F : g.Finished script classes done cut) (K : g.Kept { work := w, report := d, problems })
    (S : w.Settled script done d earlier) (hdistinct : (d.bodies.map (·.scope)).Nodup)
    (h : Workspace.use d { w with symbols := w.symbols.checkRecursion.2 } = .ok (u, unknown) w') :
    Stage.Ties { work := { w with symbols := w.symbols.checkRecursion.2 }, report := {} }
      (d.uses w.symbols) (d.bodies.flatMap fun b => b.source.paramIdents ++ b.source.locals)
      { work := w', report := u, problems := unknown } := by
  simp only [Workspace.use, Pass.run] at h
  split at h
  · rename_i s' hrun
    cases h
    refine Use.ties_declarations (fun i hi => ?_) (F.waiting_bodies K S hdistinct) hrun
    exact ⟨S.scopes.nested, (F.at_initializer K S hi).1, .outside fun _ => rfl⟩
  · cases h

end Outline.Finished

/-- If a script whose variables are named at different places is declared and its bodies are used
without a fault, then each use of a variable in a registered function or in a first value is tied to
the variable that its name means there, and reported as unknown if it means none. -/
theorem Workspace.use_resolves {script : Script} {o : Options} {d : Declarations} {u : Usage}
    {problems unknown : List Problem} {report : RecursionReport} {w w₁ w' : Workspace}
    (hdeclare : Workspace.declare script (.ofOptions o) = .ok (d, problems) w)
    (hcheck : Workspace.checkRecursion w = .ok report w₁)
    (huse : Workspace.use d w₁ = .ok (u, unknown) w') (hspans : script.SpansDistinct) :
    w.ResolvesUses script d u unknown w'.layout := by
  obtain ⟨g, classes, done, cut, earlier, F, K, S, _⟩ := declare_settled hdeclare
  cases hcheck
  have T := F.ties_use K S (declare_ok hdeclare).symbols.distinct huse
  obtain ⟨new, hnew, hlayout⟩ := T.declared
  have huses := S.nodup_uses hspans
  have hdeclared := S.nodup_declarations hspans hnew hlayout
  refine ⟨fun f hf => ?_, fun i hi => ?_⟩
  · obtain ⟨b, hb, hmatches⟩ := exists_of_forall₂_left S.entries hf
    refine ⟨b, hb, hmatches.key, S.mem_functions hb hf hmatches.key, fun use huse => ?_⟩
    refine T.resolves rfl rfl huses hdeclared
      (List.mem_append_right _ (List.mem_flatMap.mpr ⟨b, hb, ?_⟩))
    rw [Symbols.aroundBody, hmatches.key, Symbols.function?_of_mem S.keys hf]
    exact huse
  · obtain ⟨_, owner, isStatic, hof, henclosing⟩ := F.at_initializer K S hi
    refine ⟨owner, isStatic, hof, fun use huse => ?_⟩
    refine T.resolves rfl rfl huses hdeclared
      (List.mem_append_left _ (List.mem_flatMap.mpr ⟨i, hi, ?_⟩))
    rw [henclosing]
    exact huse

/-- The problems that using the variables of a declared script reports. -/
def Script.usageProblems (s : Script) (o : Options) : Option (List Problem) :=
  match Workspace.declare s (.ofOptions o) with
  | .ok (d, _) w =>
    match Workspace.use d { w with symbols := w.symbols.checkRecursion.2 } with
    | .ok (_, unknown) _ => some unknown
    | .error _ _ => none
  | .error _ _ => none

theorem Script.exists_of_usageProblems {s : Script} {o : Options} {unknown : List Problem}
    (h : s.usageProblems o = some unknown) :
    ∃ d problems w report w₁ u w', Workspace.declare s (.ofOptions o) = .ok (d, problems) w ∧
      Workspace.checkRecursion w = .ok report w₁ ∧ Workspace.use d w₁ = .ok (u, unknown) w' := by
  simp only [usageProblems] at h
  split at h
  · rename_i d problems w hdeclare
    split at h
    · rename_i u unknown' w' huse
      cases h
      exact ⟨d, problems, w, _, _, u, w', hdeclare, rfl, huse⟩
    · cases h
  · cases h

/-- A parameter and a local variable that are declared twice, a block that uses a name before and
after it declares it, a static method that names a field of objects, and a first value that names a
function. -/
def Script.shadowed : Script where
  items :=
    [.variableItem { domain := .global, name := ⟨"a", ⟨1, 5, 1⟩⟩, span := ⟨1, 5, 1⟩,
                     init := some (.reference ⟨"b", ⟨1, 9, 1⟩⟩) },
     .variableItem { domain := .global, name := ⟨"b", ⟨2, 5, 1⟩⟩, span := ⟨2, 5, 1⟩,
                     init := some (.reference ⟨"f", ⟨2, 9, 1⟩⟩) },
     .classItem { name := ⟨"C", ⟨3, 7, 1⟩⟩, span := ⟨3, 7, 1⟩, members :=
       [.field { domain := .global, name := ⟨"x", ⟨4, 5, 1⟩⟩, span := ⟨4, 5, 1⟩,
                 init := some (.reference ⟨"a", ⟨4, 9, 1⟩⟩) },
        .field { domain := .global, name := ⟨"a", ⟨5, 5, 1⟩⟩, span := ⟨5, 5, 1⟩, isStatic := true },
        .method { name := ⟨"m", ⟨6, 1, 1⟩⟩, span := ⟨6, 1, 1⟩,
                  params := [⟨⟨"p", ⟨6, 3, 1⟩⟩, ⟨6, 3, 1⟩⟩, ⟨⟨"p", ⟨6, 6, 1⟩⟩, ⟨6, 6, 1⟩⟩],
                  body := some ⟨{}, [
          .declare { domain := .entity, name := ⟨"x", ⟨7, 5, 1⟩⟩, span := ⟨7, 5, 1⟩,
                     init := some (.reference ⟨"x", ⟨7, 9, 1⟩⟩) },
          .loop {} (.reference ⟨"p", ⟨8, 8, 1⟩⟩) {} [
            .expr ⟨9, 1, 1⟩ (.assign ⟨9, 1, 1⟩ ⟨"a", ⟨9, 1, 1⟩⟩ (.reference ⟨"x", ⟨9, 5, 1⟩⟩)),
            .declare { domain := .entity, name := ⟨"a", ⟨10, 5, 1⟩⟩, span := ⟨10, 5, 1⟩ },
            .expr ⟨11, 1, 1⟩ (.assign ⟨11, 1, 1⟩ ⟨"a", ⟨11, 1, 1⟩⟩ (.reference ⟨"y", ⟨11, 5, 1⟩⟩))],
          .declare { domain := .entity, name := ⟨"y", ⟨12, 5, 1⟩⟩, span := ⟨12, 5, 1⟩ },
          .declare { domain := .entity, name := ⟨"x", ⟨13, 5, 1⟩⟩, span := ⟨13, 5, 1⟩ },
          .ret {} (some (.reference ⟨"x", ⟨14, 8, 1⟩⟩))]⟩ },
        .method { name := ⟨"s", ⟨15, 1, 1⟩⟩, span := ⟨15, 1, 1⟩, isStatic := true,
                  body := some ⟨{}, [
          .ret {} (some (.reference ⟨"x", ⟨16, 8, 1⟩⟩))]⟩ }] },
     .functionItem { name := ⟨"f", ⟨17, 4, 1⟩⟩, span := ⟨17, 4, 1⟩ }]

def Script.shadowedProblems : List Problem :=
  [.unknownVariable "f" ⟨2, 9, 1⟩, .redeclared "p" ⟨6, 3, 1⟩ ⟨6, 6, 1⟩,
    .unknownVariable "y" ⟨11, 5, 1⟩, .redeclared "x" ⟨7, 5, 1⟩ ⟨13, 5, 1⟩,
    .unknownVariable "x" ⟨16, 8, 1⟩]

theorem Workspace.use_resolves_shadowed : ∃ d problems w report w₁ u w',
    Workspace.declare .shadowed (.ofOptions {}) = .ok (d, problems) w ∧
      Workspace.checkRecursion w = .ok report w₁ ∧
      Workspace.use d w₁ = .ok (u, Script.shadowedProblems) w' ∧ Script.shadowed.SpansDistinct ∧
      w.ResolvesUses .shadowed d u Script.shadowedProblems w'.layout := by
  have hproblems : Script.shadowed.usageProblems {} = some Script.shadowedProblems := by
    decide +kernel
  have hspans : Script.shadowed.SpansDistinct := by
    -- the lists of statements come first, since `preorder_eq` must not meet an unknown statement
    simp only [Script.SpansDistinct, Script.variableNames, Script.mentions, Script.functions,
      Script.variableDefs, Script.globalFunctions, Script.globalVariables, Script.classes,
      Script.shadowed, Item.toClass?, Item.toFunction?, Item.toVariable?, ClassDef.functions,
      ClassDef.fields, ClassDef.supplied, Declare.defaultConstructor, Member.function?,
      Member.toField?, Member.isConstructor, FunctionDef.paramIdents, FunctionDef.locals,
      FunctionDef.mentions, FunctionDef.statements, List.filterMap_cons, List.filterMap_nil,
      List.flatMap_cons, List.flatMap_nil, List.map_cons, List.map_nil, List.any_cons, List.any_nil]
    simp [Stmt.preorder_eq, Stmt.children, Stmt.declared, Stmt.ownExprs, Expr.mentions_eq,
      Expr.mentioned?, Expr.children]
  obtain ⟨d, problems, w, report, w₁, u, w', hdeclare, hcheck, huse⟩ :=
    Script.exists_of_usageProblems hproblems
  exact ⟨d, problems, w, report, w₁, u, w', hdeclare, hcheck, huse, hspans,
    use_resolves hdeclare hcheck huse hspans⟩

end Stackless
