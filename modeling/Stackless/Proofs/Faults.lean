import Stackless.Proofs.Compilation
import Stackless.Proofs.Resolution

/-!
# How a compilation can fail

With options that describe a target, nothing but a lack of storage ends a compilation: the pass
that declares a script keeps all that the pass over the bodies relies on, namely that the scope of
every body exists and that its function is registered.
-/

namespace Stackless

/-! ## Using variables -/

namespace Use

variable {g : Outline} {scope : ScopeId}

theorem keeps_reference (scope : ScopeId) (name : Ident) : g.Keeps (reference scope name) := by
  refine Pass.guards_symbols.bind fun symbols => ?_
  split
  · exact (Outline.keeps_note _).strengthen fun _ h => h.1
  · refine (Outline.keeps_addProblems fun p hp => ?_).strengthen fun _ h => h.1
    cases List.mem_singleton.mp hp
    rfl

theorem keeps_references (scope : ScopeId) (names : List Ident) :
    g.Keeps (references scope names) := by
  induction names with
  | nil => exact Outline.keeps_pure ()
  | cons name rest ih => exact (keeps_reference scope name).bind fun _ => ih

theorem keeps_expr? (scope : ScopeId) (e : Option Expr) : g.Keeps (expr? scope e) := by
  cases e with
  | none => exact Outline.keeps_pure ()
  | some e => exact keeps_references scope e.references

theorem keeps_declare (hscope : scope.index < g.size) (name : Ident) (domain : Domain)
    (kind : VariableKind) : g.Keeps (declare scope name domain kind) :=
  Outline.keeps_declareVariable hscope ..

/-- A block is given a scope, which exists from then on. -/
theorem keeps_block (parent : ScopeId) {body : ScopeId → Use Unit}
    (hbody : ∀ {g : Outline} {id : ScopeId}, id.index < g.size → g.Keeps (body id)) :
    g.Keeps (Pass.newScope parent .block "block" >>= body) :=
  (Outline.guards_newScope ..).bind fun id => .assume fun hid =>
    (hbody (g := g.upTo id) (Nat.lt_succ_self _)).weaken fun _ _ K => K.forget hid

mutual

theorem keeps_stmt {g : Outline} {scope : ScopeId} (hscope : scope.index < g.size) (s : Stmt) :
    g.Keeps (stmt scope s) := by
  cases s with
  | expr _ e =>
    rw [stmt]
    exact keeps_references scope e.references
  | declare v =>
    rw [stmt]
    refine (keeps_expr? scope v.init).bind fun _ => (keeps_declare hscope ..).bind fun id => ?_
    split
    · exact Outline.keeps_note _
    · exact Outline.keeps_pure ()
  | ret _ value =>
    rw [stmt]
    exact keeps_expr? scope value
  | block _ body =>
    rw [stmt]
    exact keeps_block scope fun h => keeps_stmts h body
  | ifThen _ condition _ body =>
    rw [stmt]
    exact (keeps_references scope _).bind fun _ => keeps_block scope fun h => keeps_stmts h body
  | ifElse _ condition _ body _ other =>
    rw [stmt]
    refine (keeps_references scope _).bind fun _ => keeps_block scope fun h => ?_
    exact (keeps_stmts h body).bind fun _ => keeps_block scope fun h => keeps_stmts h other
  | loop _ condition _ body =>
    rw [stmt]
    exact (keeps_references scope _).bind fun _ => keeps_block scope fun h => keeps_stmts h body

theorem keeps_stmts {g : Outline} {scope : ScopeId} (hscope : scope.index < g.size)
    (body : List Stmt) : g.Keeps (stmts scope body) := by
  cases body with
  | nil =>
    rw [stmts]
    exact Outline.keeps_pure ()
  | cons s rest =>
    rw [stmts]
    exact (keeps_stmt hscope s).bind fun _ => keeps_stmts hscope rest

end

theorem keeps_params (hscope : scope.index < g.size) (stacked : Bool) (ps : List Param) :
    g.Keeps (params scope stacked ps) := by
  induction ps with
  | nil => exact Outline.keeps_pure []
  | cons p rest ih =>
    refine (keeps_declare hscope ..).bind fun id => ?_
    cases id with
    | none => exact ih
    | some id =>
      dsimp only
      split
      · refine Guards.bind (Q := fun _ => g.Kept) (Guards.modify fun s K => { K with }) fun _ => ?_
        exact ih.bind fun _ => Outline.keeps_pure _
      · exact ih.bind fun _ => Outline.keeps_pure _

/-- The scope of the body exists and its function is registered. -/
def Expects (g : Outline) (b : Body) : Prop := b.scope.index < g.size ∧ b.function ∈ g.functions

theorem keeps_body {b : Body} (hb : Expects g b) : g.Keeps (body b) := by
  refine Pass.guards_symbols.bind fun symbols => ?_
  refine Guards.strengthen (P := fun s => g.Kept s ∧ ∃ f, symbols.function? b.function = some f)
    (Guards.assume ?_) ?_
  · intro ⟨f, hf⟩
    rw [hf]
    refine (keeps_params hb.1 f.stacked b.source.params).bind fun ids => ?_
    refine (Outline.keeps_note _).bind fun _ => ?_
    refine (Outline.keeps_updateFunction _ (by intro e; rfl)).bind fun _ => ?_
    cases b.source.body with
    | none => exact Outline.keeps_pure ()
    | some block => exact keeps_stmts hb.1 block.body
  · intro s ⟨K, hs⟩
    refine ⟨K, Option.ne_none_iff_exists'.mp fun hnone => ?_⟩
    obtain ⟨f, hf, hkey⟩ := List.mem_map.mp (K.functions _ hb.2)
    rw [hs, Symbols.function?] at hnone
    exact List.find?_eq_none.mp hnone f hf (decide_eq_true hkey)

theorem keeps_bodies {bs : List Body} (hbs : ∀ b ∈ bs, Expects g b) : g.Keeps (bodies bs) := by
  induction bs with
  | nil => exact Outline.keeps_pure ()
  | cons b rest ih =>
    refine (keeps_body (hbs b List.mem_cons_self)).bind fun _ => ih fun b' hb' => ?_
    exact hbs b' (List.mem_cons_of_mem _ hb')

theorem keeps_initializers (is : List Initializer) : g.Keeps (initializers is) := by
  induction is with
  | nil => exact Outline.keeps_pure ()
  | cons i rest ih => exact (keeps_references i.scope _).bind fun _ => ih

theorem keeps_addInternal (name : String) (domain : Domain) :
    g.Keeps (Pass.lift (Workspace.addInternal name domain) : Use VariableId) := by
  apply Pass.guards_lift
  · intro s K id work h
    simp only [Workspace.addInternal, Workspace.onLayout, Layout.addInternal] at h
    split at h
    · rename_i hadd
      cases h
      split at hadd
      · rename_i htake
        cases hadd
        exact { K with options := (Layout.takeLocation_options htake).trans K.options }
      · cases hadd
    · cases h
  · intro s K f work h
    simp only [Workspace.addInternal, Workspace.onLayout, Layout.addInternal] at h
    split at h
    · cases h
    · rename_i hadd
      cases h
      split at hadd
      · cases hadd
      · rename_i htake
        cases hadd
        exact K.options ▸ Layout.takeLocation_tolerated htake

theorem keeps_declarations {d : Declarations} (hd : ∀ b ∈ d.bodies, Expects g b) :
    g.Keeps (declarations d) := by
  refine (keeps_initializers _).bind fun _ => (keeps_bodies hd).bind fun _ => ?_
  refine Pass.guards_symbols.bind fun symbols => ?_
  split
  · refine Guards.strengthen ?_ fun _ h => h.1
    exact (keeps_addInternal ..).bind fun _ => Outline.keeps_note _
  · exact .pure fun _ h => h.1

end Use

/-! ## The whole compilation -/

namespace Outline

variable {g : Outline}

/-- What the pass over the bodies can rely on. -/
def forUse (g : Outline) (w : Workspace) (h : 0 < w.symbols.scopes.size) : Outline :=
  { g with
    size := w.symbols.scopes.size
    rooted := h
    functions := w.symbols.functions.map (·.key)
    reported := []
    circular := [] }

theorem Kept.forUse {ρ ρ' : Type} {s : Stage ρ} (K : g.Kept s) (report : ρ') :
    (g.forUse s.work (Nat.lt_of_lt_of_le g.rooted K.size)).Kept
      { work := { s.work with symbols := s.work.symbols.checkRecursion.2 }, report } where
  options := K.options
  types := K.types
  parent := K.parent
  roots := K.roots
  size := Nat.le_refl _
  functions := by
    intro key hkey
    rw [Symbols.keys_checkRecursion]
    exact hkey
  reported := nofun
  circular := rfl

end Outline

theorem Workspace.Declared.expects {w : Workspace} {s : Script} {o : Options}
    {bodies : List Body} (D : w.Declared s o [.root] [] bodies) (g : Outline)
    (h : 0 < w.symbols.scopes.size) : ∀ b ∈ bodies, Use.Expects (g.forUse w h) b := by
  intro b hb
  constructor
  · obtain ⟨scope, hscope, _⟩ := D.symbols.fresh b hb
    exact Scopes.lt_of_get? hscope
  · obtain ⟨fs, hfs, hmatch⟩ := D.symbols.entries
    rw [List.append_nil] at hfs
    have hkeys : fs.map (·.key) = bodies.map (·.function) := by
      rw [← List.forall₂_eq_eq_eq, List.forall₂_map_left_iff, List.forall₂_map_right_iff]
      exact hmatch.imp fun f b h => h.key.symm
    change b.function ∈ w.symbols.functions.map (·.key)
    rw [hfs, hkeys]
    exact List.mem_map_of_mem hb

namespace Program

/-- Building a program fails only for want of storage. -/
theorem guards_build (s : Script) (o : Options) :
    Guards (· = Workspace.ofOptions o) o.Tolerates (build s) fun _ _ => True := by
  have hdeclare := Pass.guards_run (Declare.guards_script (Outline.named_start o) s) {}
  have hstart : (Outline.start o).Kept { work := .ofOptions o, report := ({} : Declarations) } :=
    Outline.kept_start { options := o } ({} : Declarations)
  refine Guards.bind (Q := fun result w => w.Declared s o [.root] [] result.1.bodies ∧
    ∃ g : Outline, g.Kept { work := w, report := result.1, problems := result.2 } ∧
      g.options = o) ?_ fun (d, first) => ?_
  · constructor
    · intro w hw result w' h
      subst hw
      obtain ⟨g, _, _, _, K, _, hoptions⟩ := hdeclare.ensures hstart h
      exact ⟨Workspace.declare_ok h, g, K, hoptions⟩
    · intro w hw f w' h
      subst hw
      exact hdeclare.faults hstart h
  refine Guards.bind (Q := fun _ w => ∃ g : Outline, g.Kept { work := w, report := ({} : Usage) } ∧
    (∀ b ∈ d.bodies, Use.Expects g b) ∧ g.options = o) ?_ fun report => ?_
  · refine .of_total (fun w => ⟨_, _, rfl⟩) ?_
    intro w ⟨D, g, K, hoptions⟩ report w' h
    cases h
    exact ⟨_, K.forUse ({} : Usage), D.expects g _, hoptions⟩
  refine Guards.bind (Q := fun _ _ => True) (.exists_elim fun g => .assume fun ⟨hd, hoptions⟩ => ?_)
    fun (u, last) => Guards.get.bind fun w => .pure fun _ _ => trivial
  subst hoptions
  exact (Pass.guards_run (Use.keeps_declarations hd) {}).weaken fun _ _ _ => trivial

theorem slots_of_validate {o : Options} (h : o.validate = .ok ()) : o.slots ≤ 26 := by
  simp only [Options.validate] at h
  split at h
  · cases h
  · omega

/-- With valid options a script is compiled unless a domain runs out of storage. -/
theorem compile_ok_or_exhausted {o : Options} (h : o.validate = .ok ()) (s : Script) :
    (∃ p, compile s o = .ok p) ∨
      (∃ d, compile s o = .error (.slotsExhausted d (o.region d).usable)) ∨
      ∃ d slot, compile s o = .error (.arrayFull d slot o.capacity) := by
  simp only [compile, h]
  cases hbuild : build s (.ofOptions o) with
  | ok p w => exact .inl ⟨p, rfl⟩
  | error f w =>
    obtain ⟨d, hf⟩ := (guards_build s o).faults rfl hbuild (slots_of_validate h)
    cases hf with
    | slots => exact .inr (.inl ⟨d, rfl⟩)
    | array slot => exact .inr (.inr ⟨d, slot, rfl⟩)

end Program

/-- A class that extends itself and is declared twice, a variable that is declared twice, and a
parameter for which a target with one slot has no place. -/
def Script.crowded : Script where
  items :=
    [.classItem { name := ⟨"A", {}⟩, span := {}, generics := [⟨"T", {}⟩, ⟨"T", {}⟩],
                  base := some (.mk {} ⟨"A", {}⟩ [.mk {} ⟨"T", {}⟩ []]) },
     .classItem { name := ⟨"A", {}⟩, span := {} },
     .variableItem { domain := .global, name := ⟨"x", {}⟩, span := {} },
     .variableItem { domain := .global, name := ⟨"x", {}⟩, span := {} },
     .functionItem { name := ⟨"f", {}⟩, span := {}, params := [⟨⟨"y", {}⟩, {}⟩] }]

theorem Program.compile_ok_or_exhausted_crowded :
    Options.validate { slots := 2, packing := .wholeSlot } = .ok () ∧
      ((∃ p, compile .crowded { slots := 2, packing := .wholeSlot } = .ok p) ∨
        (∃ d, compile .crowded { slots := 2, packing := .wholeSlot } = .error
          (.slotsExhausted d (Options.region { slots := 2, packing := .wholeSlot } d).usable)) ∨
        ∃ d slot, compile .crowded { slots := 2, packing := .wholeSlot } = .error
          (.arrayFull d slot (Options.capacity { slots := 2, packing := .wholeSlot }))) :=
  ⟨rfl, compile_ok_or_exhausted rfl .crowded⟩

end Stackless
