import Stackless.Program
import Stackless.Proofs.BaseChains
import Stackless.Proofs.Resolution

/-!
# The hierarchy of classes

When a script has been declared, its classes form a hierarchy without cycles: following the
extended classes from any class ends at one that extends nothing. Where `extends` clauses go round
in a circle, one of the classes on it is cut off and reported. Every other class extends exactly
what its clause asks for, or else a problem says why not.
-/

namespace Stackless

/-! ## Specification -/

namespace Symbols

/-- The names of the generic parameters that are registered for a class. -/
def parameters (s : Symbols) (owner : Key) : List String :=
  (s.types.filter (·.owner = some owner)).map (·.name)

/-- The `extends` clause of a class names another type that the root binds. -/
def PointsTo (s : Symbols) (c : ClassDef) (b : Key) : Prop :=
  ∃ ref, c.base = some ref ∧ ref.name.name ∉ s.parameters c.key ∧
    s.scopes.lookupType .root ref.name.name = some b ∧ b ≠ c.key

/-- A class may be extended by another, with the arguments that its `extends` clause gives. -/
def Accepts (s : Symbols) (b c : ClassDef) : Prop :=
  ∃ ref, c.base = some ref ∧ b.isSealed = false ∧
    ref.args.length = (s.parameters b.key).length ∧
    ∀ t ∈ TypeRef.preorderInList ref.args, t.name.name ∈ s.parameters c.key ∨
      (s.scopes.lookupType .root t.name.name).isSome = true

end Symbols

/-- The class of one key points to the other. -/
def Script.Follows (script : Script) (s : Symbols) (a b : Key) : Prop :=
  ∃ c, script.Registers c ∧ c.key = a ∧ s.PointsTo c b

/-- The classes of a script and the problems with them. The classes in `cut` point to another one
but are kept from extending it, because that would close a cycle. -/
structure Symbols.Hierarchy (s : Symbols) (script : Script) (problems : List Problem)
    (cut : List ClassDef) : Prop where
  /-- The table has no other classes than those of the script. -/
  registered : ∀ t ∈ s.types, t.isClass = true →
    s.type? t.key = some t ∧ ∃ c, script.Registers c ∧ c.key = t.key
  /-- The root binds the names of the classes. -/
  bound : ∀ c, script.Registers c → s.scopes.lookupType .root c.name.name = some c.key
  /-- A class has its generic parameters, apart from those whose key was taken. -/
  parameters : ∀ c, script.Registers c →
    (s.parameters c.key).Sublist (c.generics.map (·.name)) ∧
      ∀ name ∈ c.generics, ∃ t, s.type? (.genericParameter c.key name.name) = some t
  /-- Every class is complete and has scopes for its members. -/
  resolved : ∀ c, script.Registers c → ∃ t m, s.type? c.key = some t ∧ t.isClass = true ∧
    t.progress = .resolved ∧ t.members = some m ∧
    (s.scopes.get? m.static).isSome = true ∧ (s.scopes.get? m.object).isSome = true
  /-- The extended classes come to an end. -/
  chain : ∀ c, script.Registers c →
    (s.baseChain c.key).head? = some c.key ∧ (s.baseChain c.key).Nodup ∧
      (s.baseChain c.key).IsChain (fun a b => s.base? a = some b) ∧
      ∀ k, (s.baseChain c.key).getLast? = some k → s.base? k = none
  /-- One cycle is reported for each class that is cut off. -/
  reports : List.Forall₂ (fun c p => ∃ ref, c.base = some ref ∧
    p = .circularInheritance c.name.name ref.span) cut
      (problems.filter (·.isCircularInheritance))
  onCycle : ∀ c ∈ cut, script.Registers c ∧ Relation.TransGen (script.Follows s) c.key c.key
  /-- Every cycle is reported once. -/
  unique : cut.Nodup ∧ ∀ a, Relation.TransGen (script.Follows s) a a →
    ∃! c, c ∈ cut ∧ OnCycle (script.Follows s) a c.key
  /-- What is extended. -/
  base : ∀ c, script.Registers c → ∀ b, s.base? c.key = some b ↔
    s.PointsTo c b ∧ c ∉ cut ∧ ∃ d, script.Registers d ∧ d.key = b ∧ s.Accepts d c
  /-- A class that extends nothing in spite of a clause has a problem with it. -/
  blamed : ∀ c, script.Registers c → s.base? c.key = none → ∀ ref, c.base = some ref →
    ∃ p ∈ problems, c.Blames ref p ∧ p.severity = .error

/-! ## The state after the pass -/

theorem Generic.isAmong_iff {gs : List Generic} {name : String} :
    isAmong gs name = true ↔ name ∈ gs.map (·.name.name) := by
  simp [isAmong]

theorem ClassDef.Blames.severity {c : ClassDef} {ref : TypeRef} {p : Problem}
    (h : c.Blames ref p) : p.severity = .error := by
  cases h <;> rfl

namespace Outline.Finished

variable {g : Outline} {script : Script} {classes : List ClassDef} {done cut : List Completed}
  {stage : Stage Declarations} {x y : Completed} {c : ClassDef} {b : Key}

theorem registers_of_done (F : g.Finished script classes done cut) (hx : x ∈ done) :
    script.Registers x.source :=
  F.registers.mp (F.sources x.toBegun (List.mem_map_of_mem hx))

/-- Each registered class was completed. -/
theorem exists_done (F : g.Finished script classes done cut) (hc : script.Registers c) :
    ∃ x ∈ done, x.source = c := by
  obtain ⟨x, hx, hkey⟩ := List.mem_map.mp (F.all c (F.registers.mpr hc))
  have hsource := F.registers_of_done hx
  rw [Script.Registers] at hc hsource
  rw [← hkey] at hc
  exact ⟨x, hx, Option.some.inj (hsource.symm.trans hc)⟩

theorem type?_done (F : g.Finished script classes done cut) (K : g.Kept stage) (hx : x ∈ done) :
    stage.work.symbols.type? x.source.key = some x.entry :=
  (K.type? _).trans (F.closed x hx)

theorem base?_done (F : g.Finished script classes done cut) (K : g.Kept stage) (hx : x ∈ done) :
    stage.work.symbols.base? x.source.key = x.base := by
  simp only [Symbols.base?, F.type?_done K hx]
  rfl

theorem parameters_done (F : g.Finished script classes done cut) (K : g.Kept stage)
    (hx : x ∈ done) :
    stage.work.symbols.parameters x.source.key = x.generics.map (·.name.name) := by
  rw [Symbols.parameters, K.types]
  exact F.parameters x.toBegun (List.mem_map_of_mem hx)

theorem pointsTo_iff (F : g.Finished script classes done cut) (K : g.Kept stage) (hx : x ∈ done) :
    stage.work.symbols.PointsTo x.source b ↔ x.PointsTo g.roots b := by
  simp only [Symbols.PointsTo, Begun.PointsTo, F.parameters_done K hx, K.lookupType,
    ← Generic.isAmong_iff, Bool.not_eq_true]
  rfl

theorem follows_eq (F : g.Finished script classes done cut) (K : g.Kept stage) :
    script.Follows stage.work.symbols = Begun.Follows g.roots (begun [] done) := by
  funext a b
  refine propext ⟨?_, ?_⟩
  · intro ⟨c, hc, hkey, hpoints⟩
    obtain ⟨x, hx, rfl⟩ := F.exists_done hc
    exact ⟨x.toBegun, List.mem_map_of_mem hx, hkey, (F.pointsTo_iff K hx).mp hpoints⟩
  · intro ⟨x', hx', hkey, hpoints⟩
    obtain ⟨x, hx, rfl⟩ := List.mem_map.mp hx'
    exact ⟨x.source, F.registers_of_done hx, hkey, (F.pointsTo_iff K hx).mpr hpoints⟩

theorem accepts_iff (F : g.Finished script classes done cut) (K : g.Kept stage) (hx : x ∈ done)
    (hy : y ∈ done) :
    stage.work.symbols.Accepts y.source x.source ↔ Begun.Fits g.roots x.toBegun y.toBegun := by
  simp only [Symbols.Accepts, Begun.Fits, F.parameters_done K hx, F.parameters_done K hy,
    K.lookupType, List.length_map, ← Generic.isAmong_iff]

theorem eq_of_source (F : g.Finished script classes done cut) (hx : x ∈ done) (hy : y ∈ done)
    (h : x.source = y.source) : x = y :=
  List.inj_on_of_nodup_map F.order.nodup hx hy (congrArg ClassDef.key h)

theorem mem_cut_iff (F : g.Finished script classes done cut) (hx : x ∈ done) :
    x.source ∈ (cut.map (·.source)).reverse ↔ x ∈ cut := by
  rw [List.mem_reverse]
  constructor
  · intro h
    obtain ⟨y, hy, hsource⟩ := List.mem_map.mp h
    cases F.eq_of_source (F.order.cut_subset hy) hx hsource
    exact hy
  · exact List.mem_map_of_mem

/-- The trail of extended classes is the chain in which they were completed. -/
theorem baseChain_done (F : g.Finished script classes done cut) (K : g.Kept stage) (hx : x ∈ done) :
    ∃ chain : List Completed, x :: chain ⊆ done ∧
      stage.work.symbols.baseChain x.source.key = (x :: chain).map (·.key) ∧
      ((x :: chain).map (·.key)).IsChain (fun a b => stage.work.symbols.base? a = some b) ∧
      ((x :: chain).map (·.key)).Nodup ∧
      ∀ k, ((x :: chain).map (·.key)).getLast? = some k → stage.work.symbols.base? k = none := by
  obtain ⟨chain, hchain, hnodup, hmem, hlast⟩ := F.order.exists_chain hx
  have hchain' : ((x :: chain).map (·.key)).IsChain
      (fun a b => stage.work.symbols.base? a = some b) := by
    rw [List.isChain_map]
    refine hchain.imp_of_mem_imp fun y z hy _ h => ?_
    exact (F.base?_done K (hmem hy)).trans h
  have hlast' : ∀ k, ((x :: chain).map (·.key)).getLast? = some k →
      stage.work.symbols.base? k = none := by
    intro k hk
    rw [List.getLast?_map] at hk
    obtain ⟨y, hy, rfl⟩ := Option.map_eq_some_iff.mp hk
    exact (F.base?_done K (hmem (List.mem_of_getLast? hy))).trans (hlast y hy)
  refine ⟨chain, hmem, ?_, hchain', hnodup, hlast'⟩
  have hend := List.getLast?_eq_some_getLast (List.cons_ne_nil x.key (chain.map (·.key)))
  refine Symbols.IsBaseChain.eq_baseChain ⟨rfl, hnodup, hchain', _, hend, ?_⟩
  exact Symbols.closed_iff.mpr fun b hb => by cases (hlast' _ hend).symm.trans hb

theorem hierarchy (F : g.Finished script classes done cut) (K : g.Kept stage) :
    stage.work.symbols.Hierarchy script stage.problems (cut.map (·.source)).reverse where
  registered := by
    intro t ht hclass
    rw [K.types] at ht
    have htype := Outline.type?_of_mem F.keys ht
    obtain ⟨c, hc, hkey⟩ := List.mem_map.mp (F.registered htype hclass)
    exact ⟨(K.type? _).trans htype, c, F.registers.mp hc, hkey⟩
  bound := by
    intro c hc
    rw [K.lookupType]
    exact F.names c (F.registers.mpr hc)
  parameters := by
    intro c hc
    obtain ⟨x, hx, rfl⟩ := F.exists_done hc
    have hgenerics := F.generics x.toBegun (List.mem_map_of_mem hx)
    constructor
    · have hsub := hgenerics.sublist.map (·.name)
      rw [List.map_map] at hsub
      rw [F.parameters_done K hx]
      exact hsub
    · intro name hname
      rw [K.type?]
      refine Option.ne_none_iff_exists'.mp fun hnone => ?_
      exact Outline.type?_eq_none.mp hnone (hgenerics.taken name hname)
  resolved := by
    intro c hc
    obtain ⟨x, hx, rfl⟩ := F.exists_done hc
    have hexists : ∀ {id : ScopeId}, id.index < g.size →
        (stage.work.symbols.scopes.get? id).isSome = true := by
      intro id hid
      obtain ⟨scope, hscope⟩ := Scopes.get?_of_lt (Nat.lt_of_lt_of_le hid K.size)
      rw [hscope]
      rfl
    obtain ⟨hstatic, hobject⟩ := F.scopes x hx
    exact ⟨x.entry, x.scopes, F.type?_done K hx, rfl, rfl, rfl, hexists hstatic, hexists hobject⟩
  chain := by
    intro c hc
    obtain ⟨x, hx, rfl⟩ := F.exists_done hc
    obtain ⟨chain, _, heq, hchain, hnodup, hlast⟩ := F.baseChain_done K hx
    rw [heq]
    exact ⟨rfl, hnodup, hchain, hlast⟩
  reports := by
    rw [K.circular, ← List.reverse_reverse g.circular, List.forall₂_reverse_iff,
      List.forall₂_map_left_iff]
    exact F.cycles
  onCycle := by
    intro c hc
    obtain ⟨x, hx, rfl⟩ := List.mem_map.mp (List.mem_reverse.mp hc)
    rw [F.follows_eq K]
    exact ⟨F.registers_of_done (F.order.cut_subset hx), (F.order.onCycle_of_cut hx).1⟩
  unique := by
    rw [F.follows_eq K]
    refine ⟨?_, fun a ha => ?_⟩
    · have hkeys : (cut.map (·.key)).Nodup := (F.order.cut_sublist.map _).nodup F.order.nodup
      have hsources : ((cut.map (·.source)).map ClassDef.key).Nodup := by
        rw [List.map_map]
        exact hkeys
      exact List.nodup_reverse.mpr hsources.of_map
    · obtain ⟨b, ⟨y, hy, rfl, _⟩, _⟩ := Relation.TransGen.head'_iff.mp ha
      have hdone : y.key ∈ done.map (·.key) :=
        (mem_keys_begun.mp (List.mem_map_of_mem hy)).resolve_left nofun
      obtain ⟨x, hx, hxa⟩ := F.order.exists_cut hdone ⟨ha, ha⟩
      refine ⟨x.source, ⟨(F.mem_cut_iff (F.order.cut_subset hx)).mpr hx, hxa⟩, ?_⟩
      intro c ⟨hc, hca⟩
      obtain ⟨z, hz, rfl⟩ := List.mem_map.mp (List.mem_reverse.mp hc)
      rw [F.order.cut_unique (Begun.Follows.rightUnique F.distinct) hz hx (hca.symm.trans hxa)]
  base := by
    intro c hc b
    obtain ⟨x, hx, rfl⟩ := F.exists_done hc
    have hmem : x.toBegun ∈ begun [] done := List.mem_map_of_mem hx
    rw [F.base?_done K hx, F.order.base_iff hx, F.follows_iff hmem, F.pointsTo_iff K hx,
      F.mem_cut_iff hx]
    refine and_congr_right fun _ => and_congr_right fun _ => ⟨?_, ?_⟩
    · intro ⟨y, hy, hkey, hfits⟩
      exact ⟨y.source, F.registers_of_done hy, hkey, (F.accepts_iff K hx hy).mpr hfits⟩
    · intro ⟨d, hd, hkey, haccepts⟩
      obtain ⟨y, hy, rfl⟩ := F.exists_done hd
      exact ⟨y, hy, hkey, (F.accepts_iff K hx hy).mp haccepts⟩
  blamed := by
    intro c hc hbase ref href
    obtain ⟨x, hx, rfl⟩ := F.exists_done hc
    rw [F.base?_done K hx] at hbase
    obtain ⟨p, hp, hblames⟩ := F.blamed x hx hbase ref href
    exact ⟨p, K.reported p hp, hblames, hblames.severity⟩

end Outline.Finished

/-- Declaring a script, if it succeeds, leaves a hierarchy of all its classes. -/
theorem Workspace.declare_hierarchy {script : Script} {l : Layout} {d : Declarations}
    {problems : List Problem} {w : Workspace}
    (h : Workspace.declare script { layout := l } = .ok (d, problems) w) :
    ∃ cut, w.symbols.Hierarchy script problems cut := by
  obtain ⟨g, classes, done, cut, K, F, _⟩ :=
    (Pass.guards_run (Declare.guards_script (Outline.named_start l.options) script) {}).ensures
      (Outline.kept_start l _) h
  exact ⟨_, F.hierarchy K⟩

/-- The problems that declaring a script reports. -/
def Script.declarationProblems (s : Script) (o : Options) : Option (List Problem) :=
  match Workspace.declare s (.ofOptions o) with
  | .ok (_, problems) _ => some problems
  | .error _ _ => none

theorem Script.exists_of_declarationProblems {s : Script} {o : Options} {problems : List Problem}
    (h : s.declarationProblems o = some problems) :
    ∃ d w, Workspace.declare s (.ofOptions o) = .ok (d, problems) w := by
  simp only [declarationProblems] at h
  split at h
  · rename_i d problems' w hdeclare
    cases h
    exact ⟨d, w, hdeclare⟩
  · cases h

/-- Two classes that extend each other, one outside the cycle, and one that a sealed class
refuses. -/
def Script.circular : Script where
  items :=
    [.classItem { name := ⟨"A", {}⟩, span := {},
                  base := some (.mk ⟨1, 17, 1⟩ ⟨"B", ⟨1, 17, 1⟩⟩ []) },
     .classItem { name := ⟨"B", {}⟩, span := {},
                  base := some (.mk ⟨2, 17, 1⟩ ⟨"A", ⟨2, 17, 1⟩⟩ []) },
     .classItem { name := ⟨"C", {}⟩, span := {}, generics := [⟨"T", {}⟩],
                  base := some (.mk ⟨3, 20, 1⟩ ⟨"A", ⟨3, 20, 1⟩⟩ []), isSealed := true },
     .classItem { name := ⟨"D", {}⟩, span := {},
                  base := some (.mk ⟨4, 17, 1⟩ ⟨"C", ⟨4, 17, 1⟩⟩
                    [.mk ⟨4, 19, 1⟩ ⟨"B", ⟨4, 19, 1⟩⟩ []]) }]

theorem Workspace.declare_hierarchy_circular :
    ∃ d w, Workspace.declare .circular (.ofOptions {}) =
        .ok (d, [.circularInheritance "B" ⟨2, 17, 1⟩,
          .invalidBase "C" "'C' is sealed" ⟨4, 17, 1⟩]) w ∧
      ∃ cut, w.symbols.Hierarchy .circular [.circularInheritance "B" ⟨2, 17, 1⟩,
        .invalidBase "C" "'C' is sealed" ⟨4, 17, 1⟩] cut := by
  have hproblems : Script.circular.declarationProblems {} =
      some [.circularInheritance "B" ⟨2, 17, 1⟩, .invalidBase "C" "'C' is sealed" ⟨4, 17, 1⟩] := by
    decide +kernel
  obtain ⟨d, w, h⟩ := Script.exists_of_declarationProblems hproblems
  exact ⟨d, w, h, Workspace.declare_hierarchy h⟩

end Stackless
