import Stackless.Proofs.Recursion
import Stackless.Proofs.Usage

/-!
# What a compiled program is made of

`Program.Built` collects what the passes leave behind. The rest of the module reads it per
function and per variable: which functions keep frames, what their parameters are, and that only
those hold frames.
-/

namespace Stackless

/-- A program that was built from the functions in `base`, declared with `bodies`. -/
structure Program.Built (p : Program) (o : Options) (base : Symbols) (bodies : List Body) :
    Prop where
  declared : base.Declared [.root] [] bodies
  used : p.workspace.Used o base.checkRecursion.2 bodies [] [] []
  stages : p.workspace.Stages p.staging
  problems : ∀ q ∈ base.checkRecursion.1.problems, .ofProblem q ∈ p.diagnostics

theorem Symbols.keys_checkRecursion (s : Symbols) :
    s.checkRecursion.2.functions.map (·.key) = s.functions.map (·.key) := by
  simp only [checkRecursion, List.map_map]
  refine List.map_congr_left fun f _ => ?_
  simp only [Function.comp_apply]
  split <;> rfl

theorem Symbols.Declared.nodup_checkRecursion {s : Symbols} {members : List ScopeId}
    {pending : List FunctionEntry} {bodies : List Body} (D : s.Declared members pending bodies) :
    (s.checkRecursion.2.functions.map (·.key)).Nodup := by
  rw [keys_checkRecursion]
  exact D.keys_nodup

/-- Between the recursion check and the first body, all bodies wait. -/
theorem Workspace.Declared.checkRecursion {w : Workspace} {s : Script} {o : Options}
    {bodies : List Body} (D : w.Declared s o [.root] [] bodies) :
    ({ w with symbols := w.symbols.checkRecursion.2 } : Workspace).Used o
      w.symbols.checkRecursion.2 [] [] bodies [] := by
  obtain ⟨fs, hfs, hmatch⟩ := D.symbols.entries
  rw [List.append_nil] at hfs
  have hparams : ∀ f ∈ w.symbols.checkRecursion.2.functions, f.parameters = [] := by
    intro f hf
    obtain ⟨g, hg, rfl⟩ := List.mem_map.mp hf
    have hplain := (D.symbols.plain g hg).1
    split <;> exact hplain
  refine ⟨D.layout, D.options, rfl, ?_, ⟨[], w.symbols.checkRecursion.2.functions, rfl, .nil, ?_,
    hparams⟩, fun b hb => ?_, D.symbols.distinct, fun hv hs => ?_⟩
  · refine (List.map_congr_left fun f hf => ?_).trans (List.map_id _)
    rw [FunctionEntry.signature, ← hparams f hf]
    rfl
  · simp only [Symbols.checkRecursion, hfs, List.forall₂_map_left_iff]
    refine hmatch.imp fun f b h => ?_
    split
    · exact ⟨h.key, h.scope, h.params, h.marked⟩
    · exact h
  · obtain ⟨scope, hscope, _, hempty⟩ := D.symbols.fresh b hb
    exact ⟨scope, hscope, hempty⟩
  · cases (D.unstacked hv).symm.trans hs

namespace Program

variable {p : Program} {s : Script} {o : Options} {base : Symbols} {bodies : List Body}

theorem ensures_build (s : Script) (o : Options) :
    Ensures (· = Workspace.ofOptions o) (build s) fun p _ => ∃ base bodies,
      p.Built o base bodies ∧ ∀ b ∈ bodies, s.Declares b.function b.source := by
  refine Ensures.bind (Q := fun d w => w.Declared s o [.root] [] d.1.bodies)
    (fun w hw _ _ h => Workspace.declare_ok (hw ▸ h)) fun (d, first) => ?_
  refine Ensures.bind (Q := fun report w => (∃ base : Symbols, base.Declared [.root] [] d.bodies ∧
    report = base.checkRecursion.1 ∧ w.Used o base.checkRecursion.2 [] [] d.bodies []) ∧
      ∀ b ∈ d.bodies, s.Declares b.function b.source) ?_ fun report => .assume fun horigins => ?_
  · intro w D report w' h
    cases h
    exact ⟨⟨w.symbols, D.symbols, rfl, D.checkRecursion⟩, D.origins⟩
  refine Ensures.bind (Q := fun u w => ∃ base : Symbols, base.Declared [.root] [] d.bodies ∧
    report = base.checkRecursion.1 ∧ w.Used o base.checkRecursion.2 d.bodies [] [] [] ∧
      w.Stages u.1.staging) ?_ fun (u, last) => ?_
  · rintro w ⟨base, D, hreport, U⟩ ⟨u, last⟩ w' h
    exact ⟨base, D, hreport, Workspace.use_ok D.nodup_checkRecursion U h⟩
  refine Ensures.get.bind fun w => .pure ?_
  rintro _ ⟨⟨base, D, rfl, U, S⟩, rfl⟩
  refine ⟨base, d.bodies, ⟨D, U, S, fun q hq => List.mem_map_of_mem ?_⟩, horigins⟩
  exact List.mem_append_left _ (List.mem_append_right _ hq)

theorem compile_ok (h : compile s o = .ok p) :
    o.validate = .ok () ∧ ∃ base bodies, p.Built o base bodies ∧
      ∀ b ∈ bodies, s.Declares b.function b.source := by
  simp only [compile] at h
  split at h
  · cases h
  · rename_i hvalid
    split at h
    · rename_i p' w hbuild
      cases h
      exact ⟨hvalid, ensures_build s o rfl hbuild⟩
    · cases h

namespace Built

variable {f : FunctionEntry} {id : VariableId} {v : Variable}

theorem options (B : p.Built o base bodies) : p.options = o := B.used.options

/-- The parameters of each function are placed in the scope of its body. -/
theorem placed (B : p.Built o base bodies) (hf : f ∈ p.symbols.functions) :
    ∃ b ∈ bodies, f.Placed p.workspace b := by
  obtain ⟨fs, gs, hfs, hplaced, hwait, _⟩ := B.used.entries
  cases hwait
  rw [List.append_nil, List.append_nil] at hfs
  exact exists_of_forall₂_left hplaced (hfs ▸ hf)

theorem parameter (B : p.Built o base bodies) (hf : f ∈ p.symbols.functions)
    (hid : id ∈ f.parameters) : ∃ b ∈ bodies, ∃ name ∈ f.params,
      p.workspace.HasParameter b.scope f.stacked id name := by
  obtain ⟨b, hb, hplaced⟩ := B.placed hf
  obtain ⟨name, hname, hid⟩ := exists_of_forall₂_left hplaced.parameters hid
  exact ⟨b, hb, name, List.mem_eraseDups.mp hname, hid⟩

/-- No two parameters of a function share a variable. -/
theorem nodup_parameters (B : p.Built o base bodies) (hf : f ∈ p.symbols.functions) :
    f.parameters.Nodup := by
  obtain ⟨b, _, hplaced⟩ := B.placed hf
  refine nodup_of_forall₂_left hplaced.parameters ?_ (CallLog.nodup_eraseDups _)
  intro id name name' H H'
  obtain ⟨v, hv, hparam, _⟩ := H.entry
  obtain ⟨v', hv', hparam', _⟩ := H'.entry
  cases hv.symm.trans hv'
  exact hparam.name.symm.trans hparam'.name

/-- A variable holds frames exactly if it is a parameter of a function that keeps frames. -/
theorem holds_frames_iff (B : p.Built o base bodies) (hv : p.layout.get? id = some v) :
    v.stacked = true ↔ ∃ f ∈ p.symbols.functions, f.stacked = true ∧ id ∈ f.parameters := by
  constructor
  · intro hs
    exact (B.used.stacked hv hs).resolve_left (by simp)
  · rintro ⟨f, hf, hs, hid⟩
    obtain ⟨b, _, name, _, H⟩ := B.parameter hf hid
    obtain ⟨u, hu, _, hstacked⟩ := H.entry
    cases hu.symm.trans hv
    exact hstacked.trans hs

end Built

end Program

/-! ## A program with frames -/

/-- A marked function that calls itself with its two parameters swapped. -/
def Script.reentrant : Script where
  items := [.functionItem {
    name := ⟨"f", .point 1 1⟩
    span := .point 1 1
    params := [⟨⟨"a", .point 2 1⟩, .point 2 1⟩, ⟨⟨"b", .point 3 1⟩, .point 3 1⟩]
    isRecursive := true
    body := some ⟨.point 4 1, [.expr (.point 5 1) (.call (.point 5 1) none ⟨"f", .point 5 1⟩
      [.reference ⟨"b", .point 6 1⟩, .reference ⟨"a", .point 7 1⟩])]⟩ }]

namespace Program

def reentrantFirst : Variable :=
  { id := ⟨0⟩, name := "a", location := ⟨.global, ⟨0⟩, some 0⟩, kind := .parameter,
    scope := some ⟨1⟩, span := .point 2 1, stacked := true }

def reentrantSecond : Variable :=
  { id := ⟨1⟩, name := "b", location := ⟨.global, ⟨0⟩, some 1⟩, kind := .parameter,
    scope := some ⟨1⟩, span := .point 3 1, stacked := true }

def reentrantStaging : Variable :=
  { id := ⟨2⟩, name := "__call_args", location := ⟨.global, ⟨0⟩, some 2⟩ }

/-- The program that the script compiles to. -/
def reentrant : Program :=
  match compile .reentrant {} with
  | .ok p => p
  | .error _ => ⟨.ofOptions {}, {}, none, []⟩

theorem compile_reentrant : compile .reentrant {} = .ok reentrant := by
  have hok : (compile .reentrant {}).toBool = true := by decide +kernel
  unfold reentrant
  generalize compile .reentrant {} = r at hok
  cases r with
  | error _ => cases hok
  | ok _ => rfl

/-- Both parameters share a slot with the staging variable. -/
theorem table_reentrant :
    reentrant.layout.table = #[reentrantFirst, reentrantSecond, reentrantStaging] := by
  decide +kernel

theorem options_reentrant : reentrant.options = {} := by decide +kernel

end Program

end Stackless
