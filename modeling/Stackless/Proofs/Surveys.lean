import Stackless.Proofs.Census
import Stackless.Proofs.Resemblance

/-!
# Surveys of declared scripts

Two orderly scripts with the same items in another order are declared alike: their symbol tables
resemble each other (`Survey.resembles`), the same variables are created, and the same problems are
reported (`Survey.problems_perm`). The classes are completed in another order, but what each declares
and what it extends can be read off the script.
-/

namespace Stackless

/-- Linking calls changes nothing that the census counts. -/
theorem Census.links {script : Script} {fs : List FunctionDef} {cs : List ClassDef}
    {opens : List Begun} {done : List Completed} {vs : List VariableDef}
    {s s' : Stage Declarations} {ps : List Problem} {log : CallLog}
    (N : Census script fs cs opens done vs s) (H : s.Links ps log s') :
    Census script fs cs opens done vs { s' with problems := s.problems } := by
  obtain ⟨calls, hsymbols⟩ : ∃ calls, s'.work.symbols = { s.work.symbols with calls } :=
    ⟨_, H.symbols⟩
  obtain ⟨callCount, hreport⟩ : ∃ callCount, s'.report = { s.report with callCount } :=
    ⟨_, H.report⟩
  have hlayout := H.layout
  obtain ⟨⟨symbols, layout⟩, report, problems⟩ := s'
  cases hsymbols
  cases hreport
  cases hlayout
  exact { N with }

/-- All that is known of an orderly script when it has been declared. -/
structure Survey (script : Script) (w : Workspace) (d : Declarations) (problems : List Problem) where
  outline : Outline
  classes : List ClassDef
  done : List Completed
  cut : List Completed
  /-- The problems that were reported before calls were linked. -/
  earlier : List Problem
  finished : outline.Finished script classes done cut
  kept : outline.Kept { work := w, report := d, problems }
  settled : w.Settled script done d earlier
  census : Census script (script.items.filterMap Item.toFunction?) script.classes [] done
    script.globalVariables { work := w, report := d, problems := earlier }
  linked : problems = earlier ++ w.symbols.linkProblems d

theorem Workspace.exists_survey {script : Script} {o : Options} {d : Declarations}
    {problems : List Problem} {w : Workspace} (O : script.Orderly)
    (h : Workspace.declare script (.ofOptions o) = .ok (d, problems) w) :
    Nonempty (Survey script w d problems) := by
  obtain ⟨g, classes, done, cut, s, F, K, I, A, H⟩ := declare_arrives h
  obtain ⟨S, hproblems⟩ := settled_of_links h F I H
  have N := A.census O fun c hc => F.registers.mp hc
  exact ⟨⟨g, classes, done, cut, s.problems, F, K, S, N.links H, hproblems⟩⟩

namespace Survey

variable {script script' : Script} {w w' : Workspace} {d d' : Declarations}
  {problems problems' : List Problem} {α : Type}

/-- All classes are complete. -/
theorem sources_perm (D : Survey script w d problems) (O : script.Orderly) :
    (D.done.map (·.source)).Perm script.classes := by
  have hkeys : (D.done.map (·.key)).Nodup := D.finished.order.nodup
  have hnodup : (D.done.map (·.source)).Nodup := by
    refine List.Nodup.of_map ClassDef.key ?_
    rw [List.map_map]
    exact hkeys
  refine (List.perm_ext_iff_of_nodup hnodup O.classNames.of_map).mpr fun c => ?_
  constructor
  · intro hc
    obtain ⟨x, hx, rfl⟩ := List.mem_map.mp hc
    exact Ledger.mem_classes (D.finished.registers_of_done hx)
  · intro hc
    obtain ⟨x, hx, hsource⟩ := D.finished.exists_done (O.registers hc)
    exact List.mem_map.mpr ⟨x, hx, hsource⟩

/-- What is no complete class has no scopes and extends nothing. -/
theorem incomplete (D : Survey script w d problems) {k : Key} (hk : k ∉ D.done.map (·.key)) :
    (w.symbols.type? k).bind (·.members) = none ∧ w.symbols.base? k = none := by
  rw [Symbols.base?]
  cases htype : w.symbols.type? k with
  | none => exact ⟨rfl, rfl⟩
  | some t =>
    have hkey : t.key = k := of_decide_eq_true (List.find?_some htype :)
    exact D.census.incomplete t (List.mem_of_find?_eq_some htype) (hkey ▸ hk)

section
variable (D : Survey script w d problems) (D' : Survey script' w' d' problems')
  (O : script.Orderly) (h : script'.items.Perm script.items)
include D D' O h

theorem done_perm : (D.done.map (·.source)).Perm (D'.done.map (·.source)) :=
  (D.sources_perm O).trans
    ((Script.Orderly.classes_perm h).symm.trans (D'.sources_perm (O.perm h)).symm)

theorem flatMap_perm (parts : ClassDef → List α) :
    (D.done.flatMap fun x => parts x.source).Perm (D'.done.flatMap fun x => parts x.source) := by
  have hperm := (D.done_perm D' O h).flatMap_right parts
  rwa [List.flatMap_map, List.flatMap_map] at hperm

theorem reverse_perm (parts : ClassDef → List α) :
    (D.done.reverse.flatMap fun x => parts x.source).Perm
      (D'.done.reverse.flatMap fun x => parts x.source) :=
  ((List.reverse_perm _).flatMap_right _).trans
    ((D.flatMap_perm D' O h parts).trans ((List.reverse_perm _).symm.flatMap_right _))

/-- A key belongs to a class that is complete in both runs, or to none. -/
theorem exists_twin (k : Key) :
    (∃ x ∈ D.done, ∃ x' ∈ D'.done, x'.source = x.source ∧ x.key = k) ∨
      (k ∉ D.done.map (·.key) ∧ k ∉ D'.done.map (·.key)) := by
  have hmem := fun c => (D.done_perm D' O h).mem_iff (a := c)
  by_cases hk : k ∈ D.done.map (·.key)
  · obtain ⟨x, hx, hkey⟩ := List.mem_map.mp hk
    obtain ⟨x', hx', hsource⟩ := List.mem_map.mp ((hmem x.source).mp (List.mem_map_of_mem hx))
    exact .inl ⟨x, hx, x', hx', hsource, hkey⟩
  · refine .inr ⟨hk, fun hk' => hk ?_⟩
    obtain ⟨x', hx', hkey⟩ := List.mem_map.mp hk'
    obtain ⟨x, hx, hsource⟩ := List.mem_map.mp ((hmem x'.source).mpr (List.mem_map_of_mem hx'))
    exact List.mem_map.mpr ⟨x, hx, (congrArg ClassDef.key hsource).trans hkey⟩

/-! ## Symbols -/

theorem typeKeys_perm :
    (w.symbols.types.map (·.key)).Perm (w'.symbols.types.map (·.key)) := by
  have hgenerics : ∀ {script : Script} {w : Workspace} {d : Declarations} {problems : List Problem}
      (D : Survey script w d problems),
      ((begun [] D.done).flatMap fun x => x.generics.map (·.key)) =
        D.done.flatMap fun x => x.source.registered.map (·.key) := by
    intro script w d problems D
    rw [begun, List.nil_append, List.flatMap_map]
    refine List.flatMap_congr fun x hx => ?_
    rw [D.census.generics x.toBegun (List.mem_map_of_mem hx)]
  have hkeys := D.census.keys
  have hkeys' := D'.census.keys
  rw [hgenerics] at hkeys hkeys'
  have hperm := ((Script.Orderly.classes_perm h).symm.map (·.key)).append
    (D.flatMap_perm D' O h fun c => c.registered.map (·.key))
  exact hkeys.trans (hperm.trans hkeys'.symm)

theorem base?_eq : w.symbols.base? = w'.symbols.base? := by
  funext k
  rcases D.exists_twin D' O h k with ⟨x, hx, x', hx', hsource, rfl⟩ | ⟨hk, hk'⟩
  · have hbase : w.symbols.base? x.key = x.base := D.finished.base?_done D.kept hx
    have hbase' : w'.symbols.base? x'.source.key = x'.base := D'.finished.base?_done D'.kept hx'
    rw [hsource] at hbase'
    rw [hbase, D.census.bases x hx]
    refine Eq.trans ?_ hbase'.symm
    rw [D'.census.bases x' hx', hsource, O.extension_perm h]
  · rw [(D.incomplete hk).2, (D'.incomplete hk').2]

theorem map_type?_eq (k : Key) :
    (w.symbols.type? k).map (·.base) = (w'.symbols.type? k).map (·.base) := by
  have hsome : ∀ s : Symbols, (s.type? k).isSome = true ↔ k ∈ s.types.map (·.key) := by
    intro s
    rw [Symbols.type?, List.find?_isSome, List.mem_map]
    exact exists_congr fun t => and_congr_right fun _ => decide_eq_true_iff
  have hisSome : (w.symbols.type? k).isSome = (w'.symbols.type? k).isSome := by
    rw [Bool.eq_iff_iff, hsome, hsome, (D.typeKeys_perm D' O h).mem_iff]
  have hbase := congrFun (D.base?_eq D' O h) k
  rw [Symbols.base?, Symbols.base?] at hbase
  cases htype : w.symbols.type? k with
  | none =>
    rw [htype] at hisSome
    rw [Option.isNone_iff_eq_none.mp (Option.isSome_eq_false_iff.mp hisSome.symm)]
  | some t =>
    rw [htype] at hisSome
    obtain ⟨t', htype'⟩ := Option.isSome_iff_exists.mp hisSome.symm
    rw [htype, htype'] at hbase
    rw [htype']
    exact congrArg some hbase

theorem baseChain_eq (k : Key) : w.symbols.baseChain k = w'.symbols.baseChain k := by
  have hlength := (D.typeKeys_perm D' O h).length_eq
  rw [List.length_map, List.length_map] at hlength
  rw [Symbols.baseChain, Symbols.baseChain, hlength, D.base?_eq D' O h]

theorem ownMember?_eq (isStatic : Bool) (name : String) (k : Key) :
    (w.symbols.ownMember? isStatic name k).map (·.sight) =
      (w'.symbols.ownMember? isStatic name k).map (·.sight) := by
  rcases D.exists_twin D' O h k with ⟨x, hx, x', hx', hsource, rfl⟩ | ⟨hk, hk'⟩
  · have hkey : x.key = x'.key := congrArg ClassDef.key hsource.symm
    have hown : w.symbols.ownMember? isStatic name x.key = w.symbols.scopes.own? isStatic name x :=
      D.finished.ownMember?_done D.kept hx
    have hown' : w'.symbols.ownMember? isStatic name x'.key =
        w'.symbols.scopes.own? isStatic name x' := D'.finished.ownMember?_done D'.kept hx'
    rw [hown, hkey, hown']
    refine (D.census.members x hx isStatic name).trans ?_
    rw [← hsource]
    exact (D'.census.members x' hx' isStatic name).symm
  · rw [Symbols.ownMember?, Symbols.ownMember?, Symbols.member?, Symbols.member?,
      (D.incomplete hk).1, (D'.incomplete hk').1]
    rfl

theorem member?_eq (isStatic : Bool) (name : String) (k : Key) :
    (w.symbols.member? isStatic name k).map (·.sight) =
      (w'.symbols.member? isStatic name k).map (·.sight) := by
  -- the sight of a binding does not tell whether it was taken over
  have hnearest : ∀ (s : Symbols) (type : Key) (chain : List Key),
      (s.nearestMember? isStatic name type chain).map (·.sight) =
        chain.findSome? fun k => (s.ownMember? isStatic name k).map (·.sight) := by
    intro s type chain
    rw [Symbols.nearestMember?, List.map_findSome?]
    refine findSome?_congr_mem fun k _ => ?_
    rw [Function.comp_apply, Option.map_map]
    rfl
  rcases D.exists_twin D' O h k with ⟨x, hx, x', hx', hsource, rfl⟩ | ⟨hk, hk'⟩
  · have hkey : x.key = x'.key := congrArg ClassDef.key hsource.symm
    have hmember : w.symbols.member? isStatic name x.key = _ :=
      D.finished.member?_eq D.kept D.settled.scopes.inherits hx
    have hmember' : w'.symbols.member? isStatic name x'.key = _ :=
      D'.finished.member?_eq D'.kept D'.settled.scopes.inherits hx'
    rw [hmember, hkey, hmember', hnearest, hnearest]
    change (w.symbols.baseChain x'.key).findSome? _ = (w'.symbols.baseChain x'.key).findSome? _
    rw [D.baseChain_eq D' O h]
    exact findSome?_congr_mem fun k _ => D.ownMember?_eq D' O h isStatic name k
  · rw [Symbols.member?, Symbols.member?, (D.incomplete hk).1, (D'.incomplete hk').1]
    rfl

theorem memberType?_eq (isStatic : Bool) (name : String) (k : Key) :
    w.symbols.memberType? isStatic name k = w'.symbols.memberType? isStatic name k := by
  have hdone : ∀ {script : Script} {w : Workspace} {d : Declarations} {problems : List Problem}
      (D : Survey script w d problems) {x : Completed}, x ∈ D.done →
        w.symbols.memberType? isStatic name x.key =
          w.symbols.scopes.type? (x.scopes.side isStatic) name := by
    intro script w d problems D x hx
    have htype : w.symbols.type? x.key = some x.entry := D.finished.type?_done D.kept hx
    rw [Symbols.memberType?, Symbols.inClass, htype]
    rfl
  rcases D.exists_twin D' O h k with ⟨x, hx, x', hx', hsource, rfl⟩ | ⟨hk, hk'⟩
  · have hkey : x.key = x'.key := congrArg ClassDef.key hsource.symm
    rw [hdone D hx, hkey, hdone D' hx']
    ext t
    refine (D.census.memberTypes x hx isStatic name t).trans ?_
    rw [← hsource]
    exact (D'.census.memberTypes x' hx' isStatic name t).symm
  · rw [Symbols.memberType?, Symbols.memberType?, Symbols.inClass, Symbols.inClass,
      (D.incomplete hk).1, (D'.incomplete hk').1]
    rfl

/-- The symbol tables resemble each other. -/
theorem resembles : w.symbols.Resembles w'.symbols where
  functions := by
    have hfunctions : w.symbols.functions.map (·.bare) = _ := D.census.functions
    have hfunctions' : w'.symbols.functions.map (·.bare) = _ := D'.census.functions
    rw [hfunctions, hfunctions']
    exact ((h.symm.filterMap _).map _).append (D.reverse_perm D' O h fun c =>
      c.roster.functions.map (·.1))
  keys := D.settled.keys
  names name := by
    ext x
    have hnames := D.census.roots name x
    have hnames' := D'.census.roots name x
    have hperm : (rootSights (script.items.filterMap Item.toFunction?) script.globalVariables).Perm
        (rootSights (script'.items.filterMap Item.toFunction?) script'.globalVariables) :=
      ((h.symm.filterMap _).map _).append ((h.symm.filterMap _).map _)
    exact hnames.trans (hperm.mem_iff.trans hnames'.symm)
  types name := by
    ext k
    refine D.census.rootTypes.trans (Iff.trans ?_ D'.census.rootTypes.symm)
    simp only [(Script.Orderly.classes_perm h).mem_iff]
  members := D.member?_eq D' O h
  memberTypes := D.memberType?_eq D' O h

theorem bodies_perm : (d.bodies.map fun b => (b.function, b.source)).Perm
    (d'.bodies.map fun b => (b.function, b.source)) := by
  have hbodies : d.bodies.map (fun b => (b.function, b.source)) = _ := D.census.bodies
  have hbodies' : d'.bodies.map (fun b => (b.function, b.source)) = _ := D'.census.bodies
  rw [hbodies, hbodies']
  exact ((h.symm.filterMap _).map _).append (D.reverse_perm D' O h fun c =>
    c.roster.functions.map fun t => (t.1.key, t.2))

/-- The same variables are created. -/
theorem profiles_perm : w.layout.profiles.Perm w'.layout.profiles := by
  have hprofiles : w.layout.profiles = _ := D.census.profiles
  have hprofiles' : w'.layout.profiles = _ := D'.census.profiles
  rw [hprofiles, hprofiles']
  exact (D.reverse_perm D' O h (·.roster.profiles)).append ((h.symm.filterMap _).map _)

theorem earlier_perm : D.earlier.Perm D'.earlier := by
  have hbegun : ∀ {script : Script} {w : Workspace} {d : Declarations} {problems : List Problem}
      (D : Survey script w d problems),
      ((begun [] D.done).flatMap (·.source.parameterProblems)) =
        D.done.flatMap (·.source.parameterProblems) := by
    intro script w d problems D
    rw [begun, List.nil_append, List.flatMap_map]
  have hproblems := D.census.problems
  have hproblems' := D'.census.problems
  rw [hbegun] at hproblems hproblems'
  rw [O.extension_perm h] at hproblems'
  exact hproblems.trans (((D.flatMap_perm D' O h (·.parameterProblems)).append
    (D.flatMap_perm D' O h fun c => (script.extension c).1 ++ c.roster.problems)).trans
      hproblems'.symm)

end

/-! ## Calls -/

/-- The first values of variables, with the class that they belong to and whether they are static. -/
def firstValues (D : Survey script w d problems) : List (Option Key × Bool × Expr) :=
  (D.done.reverse.flatMap fun x =>
      x.source.roster.initializers.map fun i => (some x.source.key, i)) ++
    script.globalVariables.flatMap fun v => v.init.toList.map fun e => (none, false, e)

/-- First values are looked at from the scopes that they belong to. -/
theorem flatMap_initializers (D : Survey script w d problems) {f : Initializer → List α}
    {f' : Option Key × Bool × Expr → List α}
    (hf : ∀ {i owner isStatic}, i.scope.index < w.symbols.scopes.size →
      w.symbols.scopes.enclosing i.scope = w.symbols.around owner isStatic →
        f i = f' (owner, isStatic, i.expr)) :
    d.initializers.flatMap f = D.firstValues.flatMap f' := by
  have hinitializers : d.initializers = _ := D.census.initializers
  have F := D.settled.scopes
  rw [hinitializers, firstValues, List.flatMap_append, List.flatMap_append, List.flatMap_assoc,
    List.flatMap_assoc, List.flatMap_assoc, List.flatMap_assoc]
  congr 1
  · refine List.flatMap_congr fun x hx => ?_
    have hx := List.mem_reverse.mp hx
    rw [List.flatMap_map, List.flatMap_map]
    refine List.flatMap_congr fun i _ => hf ?_ (D.finished.enclosing_side D.kept F hx i.1)
    obtain ⟨_, _, hside, _⟩ := F.has_side hx i.1
    exact hside.lt
  · refine List.flatMap_congr fun v _ => ?_
    rw [Declare.initializersOf, List.flatMap_map, List.flatMap_map]
    exact List.flatMap_congr fun e _ => hf F.root.lt F.enclosing_root

theorem linkProblems_eq (D : Survey script w d problems) :
    w.symbols.linkProblems d =
      ((d.bodies.map fun b => (b.function, b.source)).flatMap fun t =>
        t.2.callSites.flatMap (w.symbols.problemsFrom (w.symbols.viewOf t.1))) ++
      D.firstValues.flatMap fun v => v.2.2.callSites.flatMap
        (w.symbols.problemsFrom (w.symbols.view (w.symbols.around v.1 v.2.1))) := by
  rw [Symbols.linkProblems, List.flatMap_map]
  congr 1
  · refine List.flatMap_congr fun b hb => List.flatMap_congr fun site _ => ?_
    exact Symbols.callProblems_of_sees (D.finished.sees_body D.kept D.settled hb) site
  · refine D.flatMap_initializers fun {i owner isStatic} _ henclosing => ?_
    refine List.flatMap_congr fun site _ => ?_
    refine Symbols.callProblems_of_sees ⟨fun name => ?_, fun name => ?_⟩ site
    · rw [Scopes.lookup_eq, henclosing]
    · rw [Scopes.lookupType, henclosing]
      rfl

theorem callLog_eq (D : Survey script w d problems) :
    w.symbols.callLog d.bodies =
      (d.bodies.map fun b => (b.function, b.source)).flatMap w.symbols.recordsOf := by
  rw [Symbols.callLog, List.flatMap_map]
  refine List.flatMap_congr fun b hb => List.filterMap_congr fun site _ => ?_
  rw [Symbols.callRecord?, Symbols.link_of_sees (D.finished.sees_body D.kept D.settled hb)]
  rfl

section
variable (D : Survey script w d problems) (D' : Survey script' w' d' problems')
  (O : script.Orderly) (h : script'.items.Perm script.items)
include D D' O h

theorem firstValues_perm : D.firstValues.Perm D'.firstValues :=
  (D.reverse_perm D' O h fun c => c.roster.initializers.map fun i => (some c.key, i)).append
    ((h.symm.filterMap _).flatMap_right _)

/-- The same problems are reported. -/
theorem problems_perm : problems.Perm problems' := by
  have H := D.resembles D' O h
  rw [D.linked, D'.linked, D.linkProblems_eq, D'.linkProblems_eq]
  refine (D.earlier_perm D' O h).append (.append ?_ ?_)
  · simp only [H.viewOf, H.problemsFrom]
    exact (D.bodies_perm D' O h).flatMap_right _
  · simp only [H.view, H.problemsFrom]
    exact (D.firstValues_perm D' O h).flatMap_right _

theorem sameCalls : (w.symbols.callLog d.bodies).SameCalls (w'.symbols.callLog d'.bodies) := by
  rw [D.callLog_eq, D'.callLog_eq, ← funext (D.resembles D' O h).recordsOf]
  refine CallLog.sameCalls_of_perm (D.bodies_perm D' O h) ?_ fun t c hc => ?_
  · rw [List.map_map]
    exact D.settled.bodies_nodup
  · obtain ⟨site, _, hsite⟩ := List.mem_filterMap.mp hc
    split at hsite
    · cases hsite
    · cases hsite
      rfl

end

end Survey

end Stackless
