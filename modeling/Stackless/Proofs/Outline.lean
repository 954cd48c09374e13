import Stackless.Compile.Linkage
import Stackless.Proofs.Guards

/-!
# What most steps of a pass leave alone

An outline is what the steps that declare functions and variables and link calls do not change:
the types, the types that the root binds, and the cycles that were reported; scopes, functions and
problems are only added. `Outline.Kept` says that a stage has an outline. From such a stage these
steps fail only for want of storage, if the target has no more slots than there are names for.
-/

namespace Stackless

/-! ## Running out of storage -/

/-- The fault says that a domain has no storage left. -/
inductive Region.Exhausts (r : Region) : Fault → Prop where
  | slots : Exhausts r (.slotsExhausted r.domain r.usable)
  | array (s : Slot) : Exhausts r (.arrayFull r.domain s r.capacity)

/-- Why a pass may fail: with no more than 26 slots, only for want of storage. -/
def Options.Tolerates (o : Options) (f : Fault) : Prop :=
  o.slots ≤ 26 → ∃ d, (o.region d).Exhausts f

namespace Region

variable {r : Region} {c c' : Cursor} {f : Fault}

theorem takeSlot_exhausts (hslots : r.slots ≤ 26) (h : r.takeSlot c = .error f c') :
    r.Exhausts f := by
  simp only [takeSlot] at h
  split at h
  · cases h
    exact .slots
  · rename_i hlt
    have hname : r.advance c.passed < 26 := by omega
    simp only [Slot.ofPosition?, dif_pos hname] at h
    cases h

theorem openSlot_exhausts (hslots : r.slots ≤ 26) (h : r.openSlot c = .error f c') :
    r.Exhausts f := by
  simp only [openSlot] at h
  split at h
  · cases h
  · rename_i f₁ c₁ htake
    split at h
    · cases h
      exact .array _
    · cases h
      exact takeSlot_exhausts hslots htake

theorem takeLocation_exhausts (hslots : r.slots ≤ 26) (h : r.takeLocation c = .error f c') :
    r.Exhausts f := by
  simp only [takeLocation] at h
  split at h
  · split at h
    · cases h
    · rename_i f₁ c₁ htake
      cases h
      exact takeSlot_exhausts hslots htake
  · split at h
    · split at h
      · cases h
      · exact openSlot_exhausts hslots h
    · exact openSlot_exhausts hslots h

end Region

theorem Layout.takeLocation_options {l l' : Layout} {d : Domain} {p : Location}
    (h : takeLocation d l = .ok p l') : l'.options = l.options := by
  simp only [takeLocation, onCursor] at h
  split at h
  · cases h
    exact setCursor_options ..
  · cases h

theorem Layout.takeLocation_tolerated {l l' : Layout} {d : Domain} {f : Fault}
    (h : takeLocation d l = .error f l') : l.options.Tolerates f := by
  intro hslots
  simp only [takeLocation, onCursor] at h
  split at h
  · cases h
  · rename_i f₁ c htake
    cases h
    exact ⟨d, Region.takeLocation_exhausts hslots htake⟩

/-! ## Problems -/

/-- The problem is a cycle of `extends` clauses. -/
def Problem.isCircularInheritance : Problem → Bool
  | .circularInheritance .. => true
  | _ => false

theorem Scopes.declare_not_circular {s : Scopes} {id : ScopeId} {name : String} {symbol : Symbol}
    {span : Span} {p : Problem} (h : s.declare id name symbol span = .error (.problem p)) :
    p.isCircularInheritance = false := by
  simp only [declare] at h
  split at h
  · cases h
  · split at h
    · cases h
    · split at h
      · cases h
      · split at h <;> cases h <;> rfl

theorem Scopes.declareType_not_circular {s : Scopes} {id : ScopeId} {name : String} {key : Key}
    {span : Span} {p : Problem} (h : s.declareType id name key span = .error (.problem p)) :
    p.isCircularInheritance = false := by
  simp only [declareType] at h
  split at h
  · cases h
  · split at h <;> cases h
    rfl

/-- The problem is that a callee is not known, or is called with a wrong number of arguments. -/
inductive Problem.ConcernsCall : Problem → Prop where
  | unknownType (name : String) (span : Span) : ConcernsCall (.unknownType name span)
  | unknownFunction (name : String) (span : Span) : ConcernsCall (.unknownFunction name span)
  | argumentCount (name : String) (expected got : Nat) (span : Span) :
    ConcernsCall (.argumentCount name expected got span)

theorem Problem.ConcernsCall.not_circular {p : Problem} (h : p.ConcernsCall) :
    p.isCircularInheritance = false := by
  cases h <;> rfl

theorem Symbols.linkTo_concernsCall (s : Symbols) (site : CallSite) (key : Key) :
    ∀ p ∈ (s.linkTo site key).mismatch, p.ConcernsCall := by
  intro p hp
  simp only [linkTo] at hp
  split at hp
  · cases hp
  · simp only at hp
    split at hp <;> cases hp
    exact .argumentCount ..

theorem Symbols.linkConstructor_concernsCall {s : Symbols} {site : CallSite} {key : Key} {l : Link}
    (h : s.linkConstructor? site key = some l) : ∀ p ∈ l.mismatch, p.ConcernsCall := by
  intro p hp
  simp only [linkConstructor?] at h
  split at h
  · cases h
    cases hp
  · split at h <;> cases h
    cases hp
    exact .argumentCount ..

theorem Symbols.link_error_concernsCall {s : Symbols} {scope : ScopeId} {site : CallSite}
    {p : Problem} (h : s.link scope site = .error p) : p.ConcernsCall := by
  simp only [link] at h
  split at h
  · split at h <;> cases h
    exact .unknownFunction ..
  · split at h
    · split at h <;> cases h
      exact .unknownFunction ..
    · cases h
      exact .unknownType ..
  · split at h
    · split at h <;> cases h
      exact .unknownFunction ..
    · cases h
      exact .unknownType ..

theorem Symbols.link_ok_concernsCall {s : Symbols} {scope : ScopeId} {site : CallSite} {l : Link}
    (h : s.link scope site = .ok l) : ∀ p ∈ l.mismatch, p.ConcernsCall := by
  have hlinked : ∀ key : Option Key, key.map (s.linkTo site) = some l →
      ∀ p ∈ l.mismatch, p.ConcernsCall := by
    intro key hkey
    obtain ⟨key', _, rfl⟩ := Option.map_eq_some_iff.mp hkey
    exact s.linkTo_concernsCall site key'
  simp only [link] at h
  split at h
  · split at h
    · rename_i hfound
      cases h
      exact hlinked _ hfound
    · cases h
  · split at h
    · split at h
      · rename_i hfound
        cases h
        exact hlinked _ hfound
      · cases h
    · cases h
  · split at h
    · split at h
      · rename_i hfound
        cases h
        exact linkConstructor_concernsCall hfound
      · cases h
    · cases h

/-! ## Outlines -/

/-- What is known of a pass, and stays known while functions and variables are declared. -/
structure Outline where
  options : Options
  types : List TypeEntry
  /-- The types that the root binds. -/
  roots : String → Option Key
  /-- The scopes below this number exist. -/
  size : Nat
  rooted : 0 < size
  functions : List Key := []
  /-- Some of the problems. -/
  reported : List Problem := []
  /-- The reported cycles of classes, in order. -/
  circular : List Problem := []

namespace Outline

/-- All scopes up to one exist. -/
def upTo (g : Outline) (id : ScopeId) : Outline :=
  { g with size := id.index + 1, rooted := Nat.succ_pos _ }

def withTypes (g : Outline) (types : List TypeEntry) : Outline := { g with types }

/-- More problems are known. -/
def report (g : Outline) (ps : List Problem) : Outline :=
  { g with
    reported := g.reported ++ ps
    circular := g.circular ++ ps.filter (·.isCircularInheritance) }

theorem report_nil (g : Outline) : g.report [] = g := by
  simp [report]

structure Kept {ρ : Type} (g : Outline) (s : Stage ρ) : Prop where
  options : s.work.layout.options = g.options
  types : s.work.symbols.types = g.types
  parent : s.work.symbols.scopes.parent? .root = none
  roots : ∀ name, s.work.symbols.scopes.type? .root name = g.roots name
  size : g.size ≤ s.work.symbols.scopes.size
  functions : ∀ key ∈ g.functions, key ∈ s.work.symbols.functions.map (·.key)
  reported : ∀ p ∈ g.reported, p ∈ s.problems
  circular : s.problems.filter (·.isCircularInheritance) = g.circular

variable {ρ α : Type} {g : Outline} {s : Stage ρ}

namespace Kept

theorem lookupType (K : g.Kept s) (name : String) :
    s.work.symbols.scopes.lookupType .root name = g.roots name :=
  (Scopes.lookupType_root K.parent name).trans (K.roots name)

theorem withScopes (K : g.Kept s) {scopes : Scopes} (h : s.work.symbols.scopes.Extends scopes) :
    g.Kept { s with work := { s.work with symbols := { s.work.symbols with scopes } } } :=
  { K with
    parent := h.parent.trans K.parent
    roots := fun name => (h.types name).trans (K.roots name)
    size := Nat.le_trans K.size h.size }

theorem addProblems (K : g.Kept s) (ps : List Problem) :
    (g.report ps).Kept { s with problems := s.problems ++ ps } :=
  { K with
    reported := by
      intro p hp
      rcases List.mem_append.mp hp with hp | hp
      · exact List.mem_append_left _ (K.reported p hp)
      · exact List.mem_append_right _ hp
    circular := by simp only [List.filter_append, K.circular, report] }

/-- Problems other than cycles need not be known. -/
theorem addOthers (K : g.Kept s) {ps : List Problem}
    (hps : ∀ p ∈ ps, p.isCircularInheritance = false) :
    g.Kept { s with problems := s.problems ++ ps } :=
  { K with
    reported := fun p hp => List.mem_append_left _ (K.reported p hp)
    circular := by
      have hnone : ps.filter (·.isCircularInheritance) = [] :=
        List.filter_eq_nil_iff.mpr fun p hp => by simp [hps p hp]
      rw [List.filter_append, hnone, List.append_nil, K.circular] }

theorem forget {id : ScopeId} (K : (g.upTo id).Kept s) (h : g.size ≤ id.index) : g.Kept s :=
  { K with size := Nat.le_trans h (Nat.le_of_succ_le K.size) }

end Kept

/-- The step keeps an outline, and fails only for want of storage. -/
abbrev Keeps (g : Outline) (x : Pass ρ α) : Prop :=
  Guards g.Kept g.options.Tolerates x fun _ => g.Kept

/-! ## Basic steps -/

theorem keeps_pure (a : α) : g.Keeps (pure a : Pass ρ α) := .pure fun _ K => K

theorem keeps_note (f : ρ → ρ) : g.Keeps (Pass.note f) := Pass.guards_note fun _ K => { K with }

theorem guards_addProblems (ps : List Problem) :
    Guards g.Kept g.options.Tolerates (Pass.addProblems ps : Pass ρ Unit)
      fun _ => (g.report ps).Kept :=
  Pass.guards_addProblems fun _ K => K.addProblems ps

theorem keeps_addProblems {ps : List Problem} (hps : ∀ p ∈ ps, p.isCircularInheritance = false) :
    g.Keeps (Pass.addProblems ps : Pass ρ Unit) :=
  Pass.guards_addProblems fun _ K => K.addOthers hps

theorem keeps_onScopes {change : Scopes → Except Refusal Scopes}
    (hok : ∀ {s s'}, change s = .ok s' → s.Extends s')
    (hno : ∀ {s p}, change s = .error (.problem p) → p.isCircularInheritance = false)
    (hfault : ∀ {s f}, g.size ≤ s.size → change s ≠ .error (.fault f)) :
    g.Keeps (Pass.attempt (Workspace.onScopes change) : Pass ρ (Option Unit)) := by
  apply Pass.guards_attempt_onSymbols
  · intro s K symbols h
    split at h
    · rename_i hscopes
      cases h
      exact K.withScopes (hok hscopes)
    · cases h
  · intro s K p h
    split at h
    · cases h
    · rename_i hscopes
      cases h
      exact K.addOthers fun p' hp' => List.mem_singleton.mp hp' ▸ hno hscopes
  · intro s K f h
    split at h
    · cases h
    · rename_i hscopes
      cases h
      exact absurd hscopes (hfault K.size)

theorem keeps_declare {owner : ScopeId} (howner : owner.index < g.size) (name : String)
    (symbol : Symbol) (span : Span) :
    g.Keeps (Pass.attempt (Workspace.onScopes fun s => s.declare owner name symbol span) :
      Pass ρ (Option Unit)) :=
  keeps_onScopes Scopes.declare_extends Scopes.declare_not_circular fun h =>
    Scopes.declare_ne_fault (Nat.lt_of_lt_of_le howner h)

theorem keeps_declareType {owner : ScopeId} (hroot : owner ≠ .root) (howner : owner.index < g.size)
    (name : String) (key : Key) (span : Span) :
    g.Keeps (Pass.attempt (Workspace.onScopes fun s => s.declareType owner name key span) :
      Pass ρ (Option Unit)) :=
  keeps_onScopes (Scopes.declareType_extends hroot) Scopes.declareType_not_circular fun h =>
    Scopes.declareType_ne_fault (Nat.lt_of_lt_of_le howner h)

theorem keeps_addFunction (f : FunctionEntry) :
    g.Keeps (Pass.attempt (Workspace.addFunction f) : Pass ρ (Option Unit)) := by
  apply Pass.guards_attempt_onSymbols
  · intro s K symbols h
    simp only [Symbols.addFunction] at h
    split at h
    · cases h
    · cases h
      refine { K with functions := fun key hkey => ?_ }
      rw [List.map_append]
      exact List.mem_append_left _ (K.functions key hkey)
  · intro s K p h
    simp only [Symbols.addFunction] at h
    split at h
    · cases h
      exact K.addOthers fun p hp => List.mem_singleton.mp hp ▸ rfl
    · cases h
  · intro s K f h
    simp only [Symbols.addFunction] at h
    split at h <;> cases h

theorem keeps_updateFunction (key : Key) {f : FunctionEntry → FunctionEntry}
    (hf : ∀ e, (f e).key = e.key) :
    g.Keeps (Pass.modifySymbols (·.updateFunction key f) : Pass ρ Unit) := by
  refine Pass.guards_modifySymbols fun s K => { K with functions := fun k hk => ?_ }
  have hkeys : ((s.work.symbols.updateFunction key f).functions.map (·.key)) =
      s.work.symbols.functions.map (·.key) := by
    simp only [Symbols.updateFunction, List.map_map]
    refine List.map_congr_left fun e _ => ?_
    simp only [Function.comp_apply]
    split
    · exact hf e
    · rfl
  exact hkeys ▸ K.functions k hk

theorem keeps_recordCall (caller callee : Key) (site : Span) :
    g.Keeps (Pass.modifySymbols (·.recordCall caller callee site) : Pass ρ Unit) :=
  Pass.guards_modifySymbols fun _ K => { K with }

theorem keeps_declareVariable {scope : ScopeId} (hscope : scope.index < g.size) (name : String)
    (domain : Domain) (kind : VariableKind) (span : Span) :
    g.Keeps (Pass.attempt (Workspace.declareVariable scope name domain kind span) :
      Pass ρ (Option VariableId)) := by
  apply Pass.guards_attempt
  · intro s K id work h
    simp only [Workspace.declareVariable] at h
    split at h
    · cases h
    · split at h
      · cases h
      · rename_i location layout htake
        split at h
        · cases h
        · rename_i scopes hbound
          cases h
          exact { K.withScopes (Scopes.declare_extends hbound) with
            options := (Layout.takeLocation_options htake).trans K.options }
  · intro s K p work h
    have hp : p.isCircularInheritance = false := by
      simp only [Workspace.declareVariable] at h
      split at h
      · cases h
        rfl
      · split at h
        · cases h
        · split at h
          · rename_i hbound
            cases h
            exact Scopes.declare_not_circular hbound
          · cases h
    obtain ⟨rfl, _⟩ := Workspace.declareVariable_problem h
    exact K.addOthers fun p' hp' => List.mem_singleton.mp hp' ▸ hp
  · intro s K f work h
    simp only [Workspace.declareVariable] at h
    split at h
    · cases h
    · split at h
      · rename_i htake
        cases h
        exact K.options ▸ Layout.takeLocation_tolerated htake
      · split at h
        · rename_i hbound
          cases h
          exact absurd hbound (Scopes.declare_ne_fault (Nat.lt_of_lt_of_le hscope K.size))
        · cases h

theorem keeps_merge {target source : ScopeId} (hne : target ≠ source)
    (htarget : target.index < g.size) (hsource : source.index < g.size) :
    g.Keeps (Pass.lift (Workspace.merge target source) : Pass ρ Nat) := by
  apply Pass.guards_lift
  · intro s K n work h
    simp only [Workspace.merge] at h
    split at h
    · rename_i hmerge
      cases h
      exact K.withScopes (Scopes.merge_extends hmerge)
    · cases h
  · intro s K f work h
    simp only [Workspace.merge] at h
    split at h
    · cases h
    · rename_i hmerge
      have hlt : ∀ {i}, i < g.size → i < s.work.symbols.scopes.size :=
        fun hi => Nat.lt_of_lt_of_le hi K.size
      exact absurd hmerge (Scopes.merge_ne_error hne (hlt htarget) (hlt hsource))

/-- A scope that is created is new. -/
theorem guards_newScope (parent : ScopeId) (kind : ScopeKind) (name : String) :
    Guards g.Kept g.options.Tolerates (Pass.newScope parent kind name : Pass ρ ScopeId)
      fun id s => (g.upTo id).Kept s ∧ g.size ≤ id.index := by
  apply Pass.guards_newScope
  intro s K
  have hextends := Scopes.Extends.child (Nat.lt_of_lt_of_le g.rooted K.size) parent kind name
  exact ⟨{ K.withScopes hextends with size := Nat.le_of_eq (Scopes.size_child ..).symm }, K.size⟩

theorem keeps_newScope (parent : ScopeId) (kind : ScopeKind) (name : String) :
    g.Keeps (Pass.newScope parent kind name : Pass ρ ScopeId) :=
  (guards_newScope parent kind name).weaken fun _ _ h => h.1.forget h.2

end Outline

/-! ## Declarations and calls -/

namespace Declare

variable {g : Outline} {f : FunctionEntry} {owner : ScopeId}

theorem keeps_addBody (source : FunctionDef) : g.Keeps (addBody f owner source) :=
  (Outline.keeps_newScope ..).bind fun _ =>
    (Outline.keeps_updateFunction _ (by intro e; rfl)).bind fun _ => Outline.keeps_note _

theorem keeps_function (howner : owner.index < g.size) (source : FunctionDef) :
    g.Keeps (function f owner source) := by
  refine (Outline.keeps_addFunction f).bind fun added => ?_
  cases added with
  | none => exact Outline.keeps_pure ()
  | some _ =>
    exact (Outline.keeps_declare howner ..).bind fun _ => keeps_addBody source

theorem keeps_constructor (source : FunctionDef) : g.Keeps (constructor f owner source) := by
  refine (Outline.keeps_addFunction f).bind fun added => ?_
  cases added with
  | none => exact Outline.keeps_pure ()
  | some _ => exact keeps_addBody source

theorem keeps_variableDef {scope : ScopeId} (hscope : scope.index < g.size) (v : VariableDef) :
    g.Keeps (variableDef scope v) := by
  refine (Outline.keeps_declareVariable hscope ..).bind fun id => ?_
  dsimp only
  split
  · refine (Outline.keeps_note _).bind fun _ => ?_
    split
    · exact Outline.keeps_note _
    · exact Outline.keeps_pure ()
  · split
    · exact Outline.keeps_note _
    · exact Outline.keeps_pure ()

theorem keeps_globals (items : List Item) : g.Keeps (globals items) := by
  induction items with
  | nil => exact Outline.keeps_pure ()
  | cons item rest ih =>
    cases item with
    | variableItem v => exact (keeps_variableDef g.rooted v).bind fun _ => ih
    | classItem _ => exact ih
    | functionItem _ => exact ih

theorem keeps_bindGenerics {m : MemberScopes} (hstatic : 0 < m.static.index)
    (hobject : 0 < m.object.index) (hs : m.static.index < g.size) (ho : m.object.index < g.size)
    (gs : List Generic) : g.Keeps (bindGenerics m gs) := by
  have hbind : ∀ {scope : ScopeId}, 0 < scope.index → scope.index < g.size → ∀ x : Generic,
      g.Keeps (bindGeneric scope x) := by
    intro scope hpos hlt x
    have hroot : scope ≠ .root := by
      intro h
      subst h
      exact Nat.lt_irrefl 0 hpos
    exact (Outline.keeps_declareType hroot hlt ..).bind fun _ => Outline.keeps_pure ()
  induction gs with
  | nil => exact Outline.keeps_pure ()
  | cons x rest ih =>
    exact (hbind hstatic hs x).bind fun _ => (hbind hobject ho x).bind fun _ => ih

theorem keeps_member {m : MemberScopes} (hs : m.static.index < g.size)
    (ho : m.object.index < g.size) (c : ClassDef) (x : Member) : g.Keeps (member c m x) := by
  have hscope : ∀ b : Bool, (if b then m.static else m.object).index < g.size := by
    intro b
    cases b
    · exact ho
    · exact hs
  cases x with
  | method f => exact keeps_function (hscope _) f
  | constructor f => exact keeps_constructor f
  | field v => exact keeps_variableDef (hscope _) v

theorem keeps_members {m : MemberScopes} (hs : m.static.index < g.size)
    (ho : m.object.index < g.size) (c : ClassDef) (xs : List Member) :
    g.Keeps (members c m xs) := by
  induction xs with
  | nil => exact Outline.keeps_pure ()
  | cons x rest ih => exact (keeps_member hs ho c x).bind fun _ => ih

theorem keeps_linkSite (caller : Option Key) (scope : ScopeId) (site : CallSite) :
    g.Keeps (linkSite caller scope site) := by
  refine Pass.guards_symbols.bind fun symbols => ?_
  split
  · rename_i p hlink
    refine (Outline.keeps_addProblems fun p' hp' => ?_).strengthen fun _ K => K.1
    exact List.mem_singleton.mp hp' ▸ (Symbols.link_error_concernsCall hlink).not_circular
  · rename_i l hlink
    refine ((Outline.keeps_addProblems fun p hp => ?_).strengthen fun _ K => K.1).bind fun _ => ?_
    · exact (Symbols.link_ok_concernsCall hlink p (Option.mem_toList.mp hp)).not_circular
    · cases caller with
      | none => exact Outline.keeps_pure ()
      | some key => exact (Outline.keeps_recordCall ..).bind fun _ => Outline.keeps_note _

theorem keeps_linkSites (caller : Option Key) (scope : ScopeId) (sites : List CallSite) :
    g.Keeps (linkSites caller scope sites) := by
  induction sites with
  | nil => exact Outline.keeps_pure ()
  | cons site rest ih => exact (keeps_linkSite caller scope site).bind fun _ => ih

theorem keeps_linkBodies (bs : List Body) : g.Keeps (linkBodies bs) := by
  induction bs with
  | nil => exact Outline.keeps_pure ()
  | cons b rest ih => exact (keeps_linkSites ..).bind fun _ => ih

theorem keeps_linkInitializers (is : List Initializer) : g.Keeps (linkInitializers is) := by
  induction is with
  | nil => exact Outline.keeps_pure ()
  | cons i rest ih => exact (keeps_linkSites ..).bind fun _ => ih

end Declare

end Stackless
