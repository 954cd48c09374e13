import Mathlib.Data.List.Perm.Subperm
import Stackless.Proofs.Calls

/-!
# Nested calls are balanced

A tree of calls of functions that keep frames is emitted into one code. All calls share the
staging variable and the scratch slot; yet in a run each body begins with the arguments of its
own call as the top frames, and every call ends with the frames that were there before it.
-/

namespace Stackless

/-- What the body of a call is made of: writes of variables, and calls inside it. -/
inductive CallTree where
  | write (target : VariableId) (value : Term) (entity index : Option Term)
  | call (frames : List Frame) (entity : Option Term) (body : List CallTree)

/-- The code before a call, and the code up to the start of its body. -/
structure Visit where
  frames : List Frame
  before : Code
  start : Code

/-- The code that was emitted so far, and the calls in it. -/
structure Emission where
  code : Code := []
  visits : List Visit := []

abbrev Emit := EStateM Fault Emission

namespace Emit

def add (code : Code) : Emit Unit := modify fun e => { e with code := e.code ++ code }

def visit (frames : List Frame) (before : Code) : Emit Unit :=
  modify fun e => { e with visits := e.visits ++ [⟨frames, before, e.code⟩] }

theorem call_ok {α : Type} {c : Convention} {fs : List Frame} {entity : Option Term}
    {code : Code} {body : Emit α} {a : α} {e e' : Emission} (henter : c.enter fs entity = .ok code)
    (hbody : body { e with code := e.code ++ code } = .ok a e') :
    c.call add fs entity body e =
      .ok a { e' with code := e'.code ++ Convention.leave fs entity } := by
  simp only [Convention.call, henter]
  change EStateM.bind body _ { e with code := e.code ++ code } = _
  simp only [EStateM.bind, hbody]
  rfl

end Emit

namespace CallTree

mutual

def emit (p : Program) : CallTree → Emit Unit
  | .write target value entity index =>
    match p.access target with
    | .error f => throw f
    | .ok access =>
      match access.write value entity index with
      | .error f => throw f
      | .ok code => Emit.add code
  | .call frames entity body => do
    let before := (← get).code
    p.convention.call Emit.add frames entity do
      Emit.visit frames before
      emitAll p body

def emitAll (p : Program) : List CallTree → Emit Unit
  | [] => return
  | t :: rest => do
    emit p t
    emitAll p rest

end

/-- The tree makes sense inside a call of a function with the parameters `inner`: only those and
variables that hold no frames are written, and each call pushes one frame for each parameter of a
function that keeps frames. -/
inductive WF (p : Program) : List VariableId → CallTree → Prop where
  | plain {inner : List VariableId} {target : VariableId} {v : Variable} (value : Term)
    (entity index : Option Term) : p.layout.get? target = some v → v.stacked = false →
    WF p inner (.write target value entity index)
  | own {inner : List VariableId} {target : VariableId} (value : Term) (entity : Option Term) :
    target ∈ inner → WF p inner (.write target value entity none)
  | call {inner : List VariableId} {f : FunctionEntry} {frames : List Frame}
    {body : List CallTree} (entity : Option Term) : f ∈ p.symbols.functions → f.stacked = true →
    p.FramesFor f.parameters frames →
    (∀ frame ∈ frames, frame.argument.mentions p.options.scratch = false) →
    (∀ t ∈ body, WF p f.parameters t) → WF p inner (.call frames entity body)

mutual

/-- The variables that are written, other than by entering and leaving calls. -/
def targets : CallTree → List VariableId
  | .write target .. => [target]
  | .call _ _ body => targetsAll body

def targetsAll : List CallTree → List VariableId
  | [] => []
  | t :: rest => t.targets ++ targetsAll rest

end

/-! ## The emitted code -/

/-- The code of a write that succeeds. -/
def writeCode (p : Program) (target : VariableId) (value : Term) (entity index : Option Term) :
    Code :=
  match p.access target with
  | .error _ => []
  | .ok access => (access.write value entity index).toOption.getD []

def enterCode (p : Program) (frames : List Frame) (entity : Option Term) : Code :=
  (p.convention.enter frames entity).toOption.getD []

mutual

def code (p : Program) : CallTree → Code
  | .write target value entity index => writeCode p target value entity index
  | .call frames entity body =>
    enterCode p frames entity ++ codeAll p body ++ Convention.leave frames entity

def codeAll (p : Program) : List CallTree → Code
  | [] => []
  | t :: rest => t.code p ++ codeAll p rest

end

mutual

/-- The calls of a tree whose code follows other code. -/
def visits (p : Program) (before : Code) : CallTree → List Visit
  | .write .. => []
  | .call frames entity body =>
    ⟨frames, before, before ++ enterCode p frames entity⟩ ::
      visitsAll p (before ++ enterCode p frames entity) body

def visitsAll (p : Program) (before : Code) : List CallTree → List Visit
  | [] => []
  | t :: rest => t.visits p before ++ visitsAll p (before ++ t.code p) rest

end

end CallTree

/-- A call of a function that keeps frames never lacks a staging variable. -/
theorem Program.Built.enter_ok {p : Program} {o : Options} {base : Symbols} {bodies : List Body}
    (B : p.Built o base bodies) {f : FunctionEntry} (hf : f ∈ p.symbols.functions)
    (hstacked : f.stacked = true) {fs : List Frame} (F : p.FramesFor f.parameters fs)
    (entity : Option Term) :
    p.convention.enter fs entity = .ok (CallTree.enterCode p fs entity) := by
  have hok : ∃ code, p.convention.enter fs entity = .ok code := by
    match fs, F with
    | [], _ => exact ⟨_, rfl⟩
    | [_], _ => exact ⟨_, rfl⟩
    | f₁ :: f₂ :: rest, F =>
      obtain ⟨b, _, hplaced⟩ := B.placed hf
      have hlen : f.params.eraseDups.length ≤ f.params.length :=
        (List.subperm_of_subset (CallLog.nodup_eraseDups _) fun _ h =>
          List.mem_eraseDups.mp h).length_le
      have harity : 1 < f.arity := by
        have hframes := F.length_eq
        rw [hplaced.parameters.length_eq] at hframes
        simp only [List.length_cons] at hframes
        simp only [FunctionEntry.arity]
        omega
      obtain ⟨id, hid⟩ := Option.isSome_iff_exists.mp (B.stages.needed hf hstacked harity)
      obtain ⟨v, hv, _⟩ := B.stages.entry hid
      have hstaging : p.convention.staging = some v := Option.bind_eq_some_iff.mpr ⟨id, hid, hv⟩
      simp only [Convention.enter, hstaging]
      exact ⟨_, rfl⟩
  obtain ⟨code, hcode⟩ := hok
  simp only [CallTree.enterCode, hcode]
  rfl

/-- Each push of the call meets a depth below the capacity. The parameters of a call are different
stacks, so this is the depth before the call. -/
def Visit.Roomy (m : Machine) (v : Visit) : Prop :=
  ∀ f ∈ v.frames, (f.stack.live (m.run v.before)).length < m.capacity

/-- At the start of the body, each parameter reads as its argument did before the call. -/
def Visit.Passes (m : Machine) (v : Visit) : Prop :=
  ∀ f ∈ v.frames, ∀ e, (m.run v.start).eval (f.stack.top e) = (m.run v.before).eval f.argument

/-- All stacks have the same frames, but for the top frames of those in `inner`. -/
def Program.Restores (p : Program) (inner : List VariableId) (m m' : Machine) : Prop :=
  ∀ ⦃id s⦄, p.access id = .ok (.stack s) → (id ∉ inner → p.frames m' id = p.frames m id) ∧
    (p.frames m' id).dropLast = (p.frames m id).dropLast ∧
    (p.frames m' id).length = (p.frames m id).length

namespace Program.Restores

variable {p : Program} {inner : List VariableId} {m m' m'' : Machine}

theorem refl (p : Program) (inner : List VariableId) (m : Machine) : p.Restores inner m m :=
  fun _ _ _ => ⟨fun _ => rfl, rfl, rfl⟩

theorem trans (h : p.Restores inner m m') (h' : p.Restores inner m' m'') :
    p.Restores inner m m'' := fun _ _ hs =>
  ⟨fun hid => ((h' hs).1 hid).trans ((h hs).1 hid), (h' hs).2.1.trans (h hs).2.1,
    (h' hs).2.2.trans (h hs).2.2⟩

theorem of_frames_eq
    (h : ∀ ⦃id s⦄, p.access id = .ok (.stack s) → p.frames m' id = p.frames m id) :
    p.Restores inner m m' := fun _ _ hs => by
  rw [h hs]
  exact ⟨fun _ => rfl, rfl, rfl⟩

end Program.Restores

namespace CallTree

variable {p : Program} {t : CallTree} {ts : List CallTree} {inner : List VariableId}
  {target : VariableId} {v : Variable} {s : FrameStack}

theorem access_plain (hv : p.layout.get? target = some v) (hplain : v.stacked = false) :
    p.access target = .ok (.direct v) := by
  simp [Program.access, hv, Access.ofVariable, hplain]

theorem writeCode_plain (hv : p.layout.get? target = some v) (hplain : v.stacked = false)
    (value : Term) (entity index : Option Term) :
    writeCode p target value entity index = [v.write value entity index] := by
  simp only [writeCode, access_plain hv hplain]
  rfl

theorem writeCode_own (hs : p.access target = .ok (.stack s)) (value : Term)
    (entity : Option Term) : writeCode p target value entity none = s.replaceTop value entity := by
  simp only [writeCode, hs]
  rfl

theorem emitAll_eq (h : ∀ t ∈ ts, ∀ e, t.emit p e =
      .ok () ⟨e.code ++ t.code p, e.visits ++ t.visits p e.code⟩) (e : Emission) :
    emitAll p ts e = .ok () ⟨e.code ++ codeAll p ts, e.visits ++ visitsAll p e.code ts⟩ := by
  induction ts generalizing e with
  | nil => simp [emitAll, codeAll, visitsAll, pure, EStateM.pure]
  | cons t rest ih =>
    have hrest := ih (fun u hu => h u (List.mem_cons_of_mem _ hu))
      ⟨e.code ++ t.code p, e.visits ++ t.visits p e.code⟩
    rw [emitAll]
    change EStateM.bind (t.emit p) _ e = _
    simp only [EStateM.bind, h t List.mem_cons_self, hrest, codeAll, visitsAll,
      List.append_assoc]

/-- A well-formed tree is emitted without a fault. -/
theorem WF.emit_eq {o : Options} {base : Symbols} {bodies : List Body} (B : p.Built o base bodies)
    (W : t.WF p inner) (hinner : ∀ id ∈ inner, ∃ s, p.access id = .ok (.stack s)) (e : Emission) :
    t.emit p e = .ok () ⟨e.code ++ t.code p, e.visits ++ t.visits p e.code⟩ := by
  induction W generalizing e with
  | plain value entity index hv hplain =>
    simp only [emit, access_plain hv hplain, code, writeCode_plain hv hplain, visits,
      List.append_nil]
    rfl
  | own value entity htarget =>
    obtain ⟨s, hs⟩ := hinner _ htarget
    simp only [emit, hs, code, writeCode_own hs, visits, List.append_nil]
    rfl
  | @call inner f fs body entity hf hstacked F _ _ ih =>
    have henter := B.enter_ok hf hstacked F entity
    have hbody := fun u hu => ih u hu fun id hid => F.exists_stack hid
    have hall := emitAll_eq hbody ⟨e.code ++ enterCode p fs entity,
      e.visits ++ [⟨fs, e.code, e.code ++ enterCode p fs entity⟩]⟩
    rw [emit]
    refine (Emit.call_ok henter hall).trans ?_
    simp [code, visits]

/-! ## Runs -/

variable {m : Machine}

/-- What a run of a tree after other code preserves. -/
def Sound (p : Program) (m : Machine) (inner : List VariableId) (before code : Code)
    (visits : List Visit) : Prop :=
  (∀ v ∈ visits, v.Roomy m) →
    p.Restores inner (m.run before) (m.run (before ++ code)) ∧ ∀ v ∈ visits, v.Passes m

theorem soundAll (h : ∀ t ∈ ts, ∀ before, Sound p m inner before (t.code p) (t.visits p before))
    (before : Code) : Sound p m inner before (codeAll p ts) (visitsAll p before ts) := by
  induction ts generalizing before with
  | nil =>
    intro _
    rw [codeAll, List.append_nil]
    exact ⟨.refl .., by simp [visitsAll]⟩
  | cons t rest ih =>
    intro hroom
    simp only [visitsAll, List.mem_append] at hroom
    obtain ⟨hfirst, hpass⟩ := h t List.mem_cons_self before fun v hv => hroom v (.inl hv)
    obtain ⟨hrest, hpasses⟩ := ih (fun u hu => h u (List.mem_cons_of_mem _ hu))
      (before ++ t.code p) fun v hv => hroom v (.inr hv)
    rw [codeAll, ← List.append_assoc]
    refine ⟨hfirst.trans hrest, fun v hv => ?_⟩
    rcases List.mem_append.mp hv with hv | hv
    · exact hpass v hv
    · exact hpasses v hv

theorem restores_own (R : p.RunsOn m) (hs : p.access target = .ok (.stack s))
    (htarget : target ∈ inner) (value : Term) (entity : Option Term) :
    p.Restores inner m (m.run (s.replaceTop value entity)) := by
  intro id s' hs'
  by_cases hid : id = target
  · subst hid
    obtain ⟨hdrop, hlen⟩ := FrameStack.live_replaceTop_any (e := entity) (R.fits hs) value
    rw [Program.frames_eq_live hs, Program.frames_eq_live hs]
    exact ⟨fun hnot => absurd htarget hnot, hdrop, hlen⟩
  · have hsame := R.frames_step_of_ne (c := ⟨s, .write value, entity⟩) hs hid
    change p.frames (m.run (s.replaceTop value entity)) id = _ at hsame
    rw [hsame]
    exact ⟨fun _ => rfl, rfl, rfl⟩

/-- A call that is entered, runs a body that restores all frames but the top ones, and is left
again, restores all frames. -/
theorem restores_call {ids : List VariableId} {fs : List Frame} {entity : Option Term}
    {enter body : Code} (R : p.RunsOn m) (F : p.FramesFor ids fs) (hnd : ids.Nodup)
    (hargs : ∀ f ∈ fs, f.argument.mentions p.options.scratch = false)
    (hroom : ∀ id ∈ ids, (p.frames m id).length < m.capacity)
    (henter : p.convention.enter fs entity = .ok enter)
    (hbody : p.Restores ids (m.run enter) ((m.run enter).run body)) :
    p.Restores inner m (((m.run enter).run body).run (Convention.leave fs entity)) := by
  obtain ⟨hpushed, hothers⟩ := R.enter F hnd hargs hroom henter
  have hlen : ∀ id ∈ ids, (p.frames ((m.run enter).run body) id).length ≤ Number.twoPow 53 := by
    intro id hid
    obtain ⟨s, hs⟩ := F.exists_stack hid
    obtain ⟨f, _, hframes⟩ := exists_of_forall₂_left hpushed hid
    have hexact := R.exact
    have hdepth := hroom id hid
    rw [(hbody hs).2.2, hframes, List.length_append, List.length_singleton]
    omega
  obtain ⟨hpopped, hkept⟩ := ((R.run enter).run body).leave F hnd hlen entity
  refine .of_frames_eq fun id s hs => ?_
  by_cases hid : id ∈ ids
  · obtain ⟨f, _, hframes⟩ := exists_of_forall₂_left hpushed hid
    rw [hpopped id hid, (hbody hs).2.1, hframes, List.dropLast_concat]
  · rw [hkept id hid, (hbody hs).1 hid, hothers hs hid]

theorem passes_enter {ids : List VariableId} {fs : List Frame} {entity : Option Term}
    {before enter : Code} (R : p.RunsOn m) (F : p.FramesFor ids fs) (hnd : ids.Nodup)
    (hargs : ∀ f ∈ fs, f.argument.mentions p.options.scratch = false)
    (hroom : ∀ id ∈ ids, (p.frames (m.run before) id).length < (m.run before).capacity)
    (henter : p.convention.enter fs entity = .ok enter) :
    Visit.Passes m ⟨fs, before, before ++ enter⟩ := by
  intro f hf e
  obtain ⟨hpushed, _⟩ := (R.run before).enter F hnd hargs hroom henter
  have hboth := List.Forall₂.mp (S := fun id (f : Frame) => p.access id = .ok (.stack f.stack) ∧
    p.frames ((m.run before).run enter) id =
      p.frames (m.run before) id ++ [(m.run before).eval f.argument])
    (fun _ _ hs hframes => ⟨hs, hframes⟩) F hpushed
  obtain ⟨id, _, hs, hframes⟩ := exists_of_forall₂_right hboth hf
  simp only
  rw [Machine.run_append, ((R.run before).run enter).eval_top hs, hframes]
  simp

/-- A run of a tree restores all frames but the top ones of `inner`, and each call in it passes
its arguments. -/
theorem WF.sound (R : p.RunsOn m) (W : t.WF p inner)
    (hinner : ∀ id ∈ inner, ∃ s, p.access id = .ok (.stack s)) (before : Code) :
    Sound p m inner before (t.code p) (t.visits p before) := by
  induction W generalizing before with
  | plain value entity index hv hplain =>
    refine fun _ => ⟨.of_frames_eq fun _ _ hs => ?_, by simp [visits]⟩
    rw [code, writeCode_plain hv hplain, Machine.run_append]
    exact (R.run before).frames_write hs hv hplain ..
  | @own inner target value entity htarget =>
    obtain ⟨s, hs⟩ := hinner _ htarget
    refine fun _ => ⟨?_, by simp [visits]⟩
    rw [code, writeCode_own hs, Machine.run_append]
    exact restores_own (R.run before) hs htarget value entity
  | @call inner f fs body entity hf hstacked F hargs _ ih =>
    intro hroom
    obtain ⟨base, bodies, B⟩ := R.built
    have henter := B.enter_ok hf hstacked F entity
    have hnd := B.nodup_parameters hf
    have hdepth : ∀ id ∈ f.parameters,
        (p.frames (m.run before) id).length < (m.run before).capacity := by
      intro id hid
      obtain ⟨frame, hframe, hs⟩ := exists_of_forall₂_left F hid
      rw [Program.frames_eq_live hs, Machine.run_capacity]
      exact hroom _ List.mem_cons_self frame hframe
    have hbody := fun u hu => ih u hu fun id hid => F.exists_stack hid
    obtain ⟨hinside, hpasses⟩ := soundAll hbody (before ++ enterCode p fs entity)
      fun v hv => hroom v (List.mem_cons_of_mem _ hv)
    rw [Machine.run_append, Machine.run_append, Machine.run_append] at hinside
    refine ⟨?_, fun v hv => ?_⟩
    · rw [code, Machine.run_append, Machine.run_append, Machine.run_append]
      exact restores_call (R.run before) F hnd hargs hdepth henter hinside
    · rcases List.mem_cons.mp hv with rfl | hv
      · exact passes_enter R F hnd hargs hdepth henter
      · exact hpasses v hv

mutual

/-- The states of a visit are reached on the way through the code. -/
theorem visits_prefix (t : CallTree) (before : Code) :
    ∀ v ∈ t.visits p before, v.before <+: v.start ∧ v.start <+: before ++ t.code p := by
  cases t with
  | write => simp [visits]
  | call fs entity body =>
    intro v hv
    rw [code, ← List.append_assoc, ← List.append_assoc]
    rcases List.mem_cons.mp hv with rfl | hv
    · exact ⟨List.prefix_append .., by rw [List.append_assoc]; exact List.prefix_append ..⟩
    · obtain ⟨hstart, hcode⟩ := visitsAll_prefix body _ v hv
      exact ⟨hstart, hcode.trans (List.prefix_append ..)⟩

theorem visitsAll_prefix (ts : List CallTree) (before : Code) :
    ∀ v ∈ visitsAll p before ts, v.before <+: v.start ∧ v.start <+: before ++ codeAll p ts := by
  cases ts with
  | nil => simp [visitsAll]
  | cons t rest =>
    intro v hv
    rw [codeAll, ← List.append_assoc]
    rcases List.mem_append.mp hv with hv | hv
    · obtain ⟨hstart, hcode⟩ := visits_prefix t before v hv
      exact ⟨hstart, hcode.trans (List.prefix_append ..)⟩
    · exact visitsAll_prefix rest _ v hv

end

theorem eval_readAll {e : Term} (h : ∀ t ∈ ts, ∀ m, p.RunsOn m → target ∉ t.targets →
      (m.run (t.code p)).eval (v.location.read e) = m.eval (v.location.read e))
    (R : p.RunsOn m) (htarget : target ∉ targetsAll ts) :
    (m.run (codeAll p ts)).eval (v.location.read e) = m.eval (v.location.read e) := by
  induction ts generalizing m with
  | nil => rfl
  | cons t rest ih =>
    rw [targetsAll, List.mem_append, not_or] at htarget
    rw [codeAll, Machine.run_append, ih (fun u hu => h u (List.mem_cons_of_mem _ hu)) (R.run _)
      htarget.2, h t List.mem_cons_self m R htarget.1]

/-- A variable that holds no frames changes only where it is written. -/
theorem WF.eval_read (R : p.RunsOn m) (W : t.WF p inner)
    (hinner : ∀ id ∈ inner, ∃ s, p.access id = .ok (.stack s)) (hv : p.layout.get? target = some v)
    (hplain : v.stacked = false) (hstaging : p.staging ≠ some target)
    (htarget : target ∉ t.targets) {e : Term} (he : e.IsNamed) :
    (m.run (t.code p)).eval (v.location.read e) = m.eval (v.location.read e) := by
  induction W generalizing m with
  | plain value entity index hu hplain' =>
    rw [targets, List.mem_singleton] at htarget
    rw [code, writeCode_plain hu hplain']
    exact R.eval_read_write hu hv (Ne.symm htarget) he ..
  | own value entity hown =>
    rw [targets, List.mem_singleton] at htarget
    obtain ⟨s, hs⟩ := hinner _ hown
    rw [code, writeCode_own hs]
    exact R.eval_read_step (c := ⟨s, .write value, entity⟩) hs hv (Ne.symm htarget) he
  | @call inner f fs body entity hf hstacked F _ _ ih =>
    obtain ⟨base, bodies, B⟩ := R.built
    have hid : target ∉ f.parameters := by
      intro hid
      obtain ⟨s, hs⟩ := F.exists_stack hid
      exact Program.ne_of_plain hs hv hplain rfl
    have hbody := fun u hu m R ht => ih u hu (m := m) R
      (fun id hid => F.exists_stack hid) ht
    have R₁ := R.run (enterCode p fs entity)
    rw [code, Machine.run_append, Machine.run_append,
      (R₁.run (codeAll p body)).eval_read_leave F hv hid he, eval_readAll hbody R₁ htarget,
      R.eval_read_enter F hv hid hstaging he (B.enter_ok hf hstacked F entity)]

end CallTree

/-- A tree of calls of functions that keep frames is emitted without a fault. On a machine with
the capacity that the program was compiled for, if each push of a call meets a depth below the
capacity, then at the start of the body of each call the parameters read as the arguments did
before the call, and after the tree all stacks have the frames that they had before it. Apart
from the staging variable, only variables that the tree writes change. -/
theorem Program.nestedCalls_balanced {script : Script} {o : Options} {p : Program}
    (h : compile script o = .ok p) (hword : o.capacity < Number.twoPow 32) {t : CallTree}
    (W : t.WF p []) :
    ∃ e : Emission, t.emit p {} = .ok () e ∧
      (∀ v ∈ e.visits, v.before <+: v.start ∧ v.start <+: e.code) ∧
      ∀ m : Machine, m.capacity = p.options.capacity → (∀ v ∈ e.visits, v.Roomy m) →
        (∀ v ∈ e.visits, v.Passes m) ∧
        (∀ {id s}, p.access id = .ok (.stack s) → s.live (m.run e.code) = s.live m) ∧
        ∀ {id v}, p.layout.get? id = some v → v.stacked = false → p.staging ≠ some id →
          id ∉ t.targets → ∀ entity : Option Nat,
            (m.run e.code).eval (v.read (entity.map .entity)) =
              m.eval (v.read (entity.map .entity)) := by
  obtain ⟨_, base, bodies, B, _⟩ := compile_ok h
  have hemit := W.emit_eq B (by simp) {}
  rw [List.nil_append, List.nil_append] at hemit
  refine ⟨_, hemit, CallTree.visits_prefix t [], fun m hm hroom => ?_⟩
  have R := RunsOn.of_compile h hword hm
  obtain ⟨hrestores, hpasses⟩ := W.sound R (by simp) [] hroom
  refine ⟨hpasses, fun hs => ?_, fun hv hplain hstaging htarget entity => ?_⟩
  · rw [← frames_eq_live hs, ← frames_eq_live hs]
    exact (hrestores hs).1 (by simp)
  · exact W.eval_read R (by simp) hv hplain hstaging htarget (Term.isNamed_getD entity)

namespace Program

/-- A call that changes its first parameter and then swaps its arguments in a call inside it. -/
def swappedCalls : CallTree :=
  let (a, b) := reentrantStacks
  .call [⟨a, .ofNat 1⟩, ⟨b, .ofNat 2⟩] none
    [.write ⟨0⟩ (.ofNat 3) none none, .call [⟨a, b.top none⟩, ⟨b, a.top none⟩] none []]

theorem swappedCalls_wf : swappedCalls.WF reentrant [] := by
  obtain ⟨ha, hb⟩ := access_reentrant
  have hfunctions : reentrant.symbols.functions.map (fun f => (f.parameters, f.stacked)) =
      [([⟨0⟩, ⟨1⟩], true)] := by decide +kernel
  obtain ⟨f, hf⟩ : ∃ f, reentrant.symbols.functions = [f] :=
    List.length_eq_one_iff.mp (by simpa using congrArg List.length hfunctions)
  simp only [hf, List.map_cons, List.map_nil, List.cons.injEq, Prod.mk.injEq, and_true]
    at hfunctions
  have hframes : ∀ t u, reentrant.FramesFor f.parameters
      [⟨reentrantStacks.1, t⟩, ⟨reentrantStacks.2, u⟩] := by
    intro t u
    rw [hfunctions.1]
    exact .cons ha (.cons hb .nil)
  have hmentions : ∀ n slot, (Term.ofNat n).mentions slot = false := fun _ _ => by
    rw [Term.ofNat, Term.mentions]
  refine .call none (hf ▸ List.mem_singleton_self f) hfunctions.2 (hframes ..) ?_ ?_
  · simp [hmentions]
  · simp only [List.forall_mem_cons]
    refine ⟨.own _ none (by simp [hfunctions.1]), ?_, by simp⟩
    refine .call none (hf ▸ List.mem_singleton_self f) hfunctions.2 (hframes ..) ?_ (by simp)
    simp only [List.forall_mem_cons]
    exact ⟨reentrant_runs.mentions_top hb, reentrant_runs.mentions_top ha, by simp⟩

theorem nestedCalls_balanced_swapped : swappedCalls.WF reentrant [] ∧
    ∃ e, swappedCalls.emit reentrant {} = .ok () e ∧ e.visits.length = 2 ∧
      (∀ v ∈ e.visits, v.Roomy { event := 0 }) ∧ (∀ v ∈ e.visits, v.Passes { event := 0 }) ∧
      ∀ {id s}, reentrant.access id = .ok (.stack s) →
        s.live (Machine.run { event := 0 } e.code) = s.live { event := 0 } := by
  obtain ⟨e, hemit, _, hrun⟩ :=
    nestedCalls_balanced compile_reentrant (by decide) swappedCalls_wf
  obtain ⟨_, _, _, B, _⟩ := compile_ok compile_reentrant
  have hvisits : e.visits = swappedCalls.visits reentrant [] := by
    rw [swappedCalls_wf.emit_eq B (by simp)] at hemit
    injection hemit with _ he
    rw [← he]
    rfl
  have htwo : (swappedCalls.visits reentrant []).length = 2 := by decide +kernel
  have hroom : ∀ v ∈ swappedCalls.visits reentrant [], ∀ f ∈ v.frames,
      (f.stack.live (Machine.run { event := 0 } v.before)).length < 1000 := by decide +kernel
  rw [← hvisits] at htwo hroom
  obtain ⟨hpasses, hlive, _⟩ := hrun { event := 0 } reentrant_runs.capacity hroom
  exact ⟨swappedCalls_wf, e, hemit, htwo, hroom, hpasses, hlive⟩

end Program

end Stackless
