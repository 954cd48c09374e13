import Mathlib.Logic.Function.Basic
import Stackless.Proofs.Compilation
import Stackless.Proofs.Frames

/-!
# The stacks of a compiled program

Every parameter of a compiled program that holds frames is a stack of its own. Any sequence of
operations on any of these stacks has, on the frames, the effect of the same operations on lists
(`StackStep.replay`), and changes no variable that is not operated on.
-/

namespace Stackless

/-! ## Programs on machines -/

namespace Program

variable {p : Program} {m : Machine} {id id' : VariableId} {s s' : FrameStack} {v : Variable}

theorem access_stack_iff : p.access id = .ok (.stack s) ↔
    ∃ v, p.layout.get? id = some v ∧ v.stacked = true ∧ s = ⟨v, p.options.scratch⟩ := by
  simp only [access]
  split
  · rename_i v hv
    simp only [Access.ofVariable, Except.ok.injEq, hv, Option.some.injEq]
    split
    · rename_i hs
      simp [hs, eq_comm]
    · rename_i hs
      simp [hs]
  · rename_i hv
    simp [hv]

theorem scratch_eq (hs : p.access id = .ok (.stack s)) : s.scratch = p.options.scratch := by
  obtain ⟨v, _, _, rfl⟩ := access_stack_iff.mp hs
  rfl

/-- A machine for which the program was compiled. -/
structure RunsOn (p : Program) (m : Machine) : Prop where
  built : ∃ base bodies, p.Built p.options base bodies
  nonzero : p.options.capacity ≠ 0
  capacity : m.capacity = p.options.capacity
  word : m.capacity < Number.twoPow 32

theorem RunsOn.of_compile {script : Script} {o : Options} (h : compile script o = .ok p)
    (hword : o.capacity < Number.twoPow 32) (hm : m.capacity = p.options.capacity) :
    p.RunsOn m := by
  obtain ⟨hvalid, base, bodies, B, _⟩ := compile_ok h
  obtain rfl := B.options
  refine ⟨⟨base, bodies, B⟩, fun hzero => ?_, hm, hm ▸ hword⟩
  simp only [Options.validate, hzero, if_true] at hvalid
  split at hvalid <;> cases hvalid

namespace RunsOn

theorem run (R : p.RunsOn m) (code : Code) : p.RunsOn (m.run code) :=
  ⟨R.built, R.nonzero, (m.run_capacity code).trans R.capacity, (m.run_capacity code).symm ▸ R.word⟩

theorem exec (R : p.RunsOn m) (a : Action) : p.RunsOn (m.exec a) := R.run [a]

theorem small (R : p.RunsOn m) : m.capacity ≤ Number.twoPow 52 :=
  Nat.le_of_lt (Nat.lt_of_lt_of_le R.word (Number.twoPow_le_twoPow (by decide)))

theorem exact (R : p.RunsOn m) : m.capacity ≤ Number.twoPow 53 :=
  Nat.le_trans R.small (Number.twoPow_le_twoPow (by decide))

theorem layout (R : p.RunsOn m) : p.layout.Inv := by
  obtain ⟨base, bodies, B⟩ := R.built
  exact B.used.layout

theorem within (R : p.RunsOn m) (hv : p.layout.get? id = some v) :
    v.location.Within m.capacity := by
  rw [R.capacity]
  exact R.layout.within R.nonzero hv

theorem apart (R : p.RunsOn m) (hv : p.layout.get? id = some v)
    (hd : v.location.domain = .global) : v.location.slot ≠ p.options.scratch :=
  R.layout.slot_ne_scratch hv hd

/-- Only parameters hold frames, and parameters are global. -/
theorem global (R : p.RunsOn m) (hv : p.layout.get? id = some v) (hs : v.stacked = true) :
    v.location.domain = .global := by
  obtain ⟨base, bodies, B⟩ := R.built
  obtain ⟨f, hf, _, hid⟩ := (B.holds_frames_iff hv).mp hs
  obtain ⟨b, _, name, _, H⟩ := B.parameter hf hid
  obtain ⟨u, hu, hparam, _⟩ := H.entry
  cases hu.symm.trans hv
  exact hparam.domain

theorem fits (R : p.RunsOn m) (hs : p.access id = .ok (.stack s)) : s.Fits m := by
  obtain ⟨v, hv, hstacked, rfl⟩ := access_stack_iff.mp hs
  have hglobal := R.global hv hstacked
  exact ⟨hglobal, R.within hv, R.apart hv hglobal, R.small⟩

theorem mentions_top (R : p.RunsOn m) (hs : p.access id = .ok (.stack s)) :
    (s.top none).mentions p.options.scratch = false := by
  rw [FrameStack.top, Term.mentions, ← scratch_eq hs]
  exact FrameStack.frames_mentions (R.fits hs)

theorem spares (R : p.RunsOn m) (hs : p.access id = .ok (.stack s))
    (hv : p.layout.get? id' = some v) (hne : id ≠ id') : s.Spares m v.location := by
  obtain ⟨u, hu, _, rfl⟩ := access_stack_iff.mp hs
  exact ⟨R.layout.disjoint hu hv hne, R.apart hv, R.within hv⟩

theorem parameter_id (R : p.RunsOn m) (hs : p.access id = .ok (.stack s)) :
    s.parameter.id = id := by
  obtain ⟨v, hv, _, rfl⟩ := access_stack_iff.mp hs
  exact R.layout.ids hv

end RunsOn

/-- The array in the location of a variable; a value that is no array counts as empty. -/
def frames (p : Program) (m : Machine) (id : VariableId) : List Value :=
  match p.layout.get? id with
  | some v => (m.eval (v.read none)).items
  | none => []

theorem frames_eq_live (hs : p.access id = .ok (.stack s)) : p.frames m id = s.live m := by
  obtain ⟨v, hv, _, rfl⟩ := access_stack_iff.mp hs
  simp only [frames, hv]
  rfl

end Program

/-! ## Operations -/

inductive StackOp where
  | push (value : Term)
  | pop
  | write (value : Term)

namespace StackOp

def code (s : FrameStack) (entity : Option Term) : StackOp → Code
  | .push value => s.push value entity
  | .pop => s.pop entity
  | .write value => s.replaceTop value entity

/-- The operation on a list of frames, with its value taken from the machine before it. The top
frame of an empty list, or of one beyond the capacity, cannot be written. -/
def result (m : Machine) (xs : List Value) : StackOp → List Value
  | .push value => xs ++ [m.eval value]
  | .pop => xs.dropLast
  | .write value =>
    if xs = [] ∨ m.capacity < xs.length then xs else xs.dropLast ++ [m.eval value]

/-- There is room for a pushed frame, and values do not read the scratch slot. Frames are counted
by a number, which is exact up to `2 ^ 53`: a pop could not tell how many frames a longer array
has, but no memory holds one. -/
def Admissible (scratch : Slot) (m : Machine) (xs : List Value) : StackOp → Prop
  | .push value => value.mentions scratch = false ∧ xs.length < m.capacity
  | .pop => xs.length ≤ Number.twoPow 53
  | .write value => value.mentions scratch = false

theorem live_code {s : FrameStack} {m : Machine} (S : s.Fits m) (op : StackOp)
    (h : op.Admissible s.scratch m (s.live m)) (entity : Option Term) :
    s.live (m.run (op.code s entity)) = op.result m (s.live m) := by
  cases op with
  | push value => exact FrameStack.live_push S h.1 h.2
  | pop => exact FrameStack.live_pop S h
  | write value =>
    simp only [result, code]
    split
    · rename_i hcase
      rcases hcase with hnil | hlen
      · exact (FrameStack.live_replaceTop_nil S hnil value).trans hnil.symm
      · exact FrameStack.live_replaceTop_of_lt S hlen value
    · rename_i hcase
      rw [not_or, Nat.not_lt] at hcase
      exact FrameStack.live_replaceTop S h hcase.1 hcase.2

theorem eval_read_code {s : FrameStack} {m : Machine} {l : Location} {e : Term} (S : s.Fits m)
    (D : s.Spares m l) (he : e.IsNamed) (op : StackOp) (entity : Option Term) :
    (m.run (op.code s entity)).eval (l.read e) = m.eval (l.read e) := by
  cases op with
  | push value => exact FrameStack.eval_read_edit S D he ..
  | pop => exact FrameStack.eval_read_pop S D he _
  | write value => exact FrameStack.eval_read_edit S D he ..

end StackOp

/-- An operation on one of several stacks. -/
structure StackStep where
  stack : FrameStack
  op : StackOp
  entity : Option Term

namespace StackStep

def code (c : StackStep) : Code := c.op.code c.stack c.entity

/-- What a step makes of the frames of all variables. -/
def apply (c : StackStep) (m : Machine) (frames : VariableId → List Value) :
    VariableId → List Value :=
  Function.update frames c.stack.parameter.id
    (c.op.result m (frames c.stack.parameter.id))

/-- The frames after a sequence of steps. Only the values come from the machine, each as it is
when its step begins. -/
def replay : List StackStep → Machine → (VariableId → List Value) → VariableId → List Value
  | [], _, frames => frames
  | c :: rest, m, frames => replay rest (m.run c.code) (c.apply m frames)

/-- Each step is admissible for the frames that it meets. -/
def Admissible : List StackStep → Machine → (VariableId → List Value) → Prop
  | [], _, _ => True
  | c :: rest, m, frames =>
    c.op.Admissible c.stack.scratch m (frames c.stack.parameter.id) ∧
      Admissible rest (m.run c.code) (c.apply m frames)

end StackStep

namespace Program.RunsOn

variable {p : Program} {m : Machine} {id id' : VariableId} {s : FrameStack} {v : Variable}
  {c : StackStep} {steps : List StackStep}

theorem eval_read_step (R : p.RunsOn m) (hc : p.access id = .ok (.stack c.stack))
    (hv : p.layout.get? id' = some v) (hne : id ≠ id') {e : Term} (he : e.IsNamed) :
    (m.run c.code).eval (v.location.read e) = m.eval (v.location.read e) :=
  c.op.eval_read_code (R.fits hc) (R.spares hc hv hne) he c.entity

theorem frames_step_of_ne (R : p.RunsOn m) (hc : p.access id = .ok (.stack c.stack))
    (hne : id' ≠ id) : p.frames (m.run c.code) id' = p.frames m id' := by
  simp only [frames]
  split
  · rename_i v hv
    exact congrArg Value.items (R.eval_read_step hc hv (Ne.symm hne) .event)
  · rfl

/-- One step changes the frames as it changes lists. -/
theorem frames_step (R : p.RunsOn m) (hc : p.access id = .ok (.stack c.stack))
    (h : c.op.Admissible c.stack.scratch m (p.frames m c.stack.parameter.id)) :
    p.frames (m.run c.code) = c.apply m (p.frames m) := by
  have hid := R.parameter_id hc
  rw [hid] at h
  funext id'
  rw [StackStep.apply, hid]
  by_cases hne : id' = id
  · subst hne
    rw [frames_eq_live hc] at h
    rw [Function.update_self, frames_eq_live hc, frames_eq_live hc]
    exact c.op.live_code (R.fits hc) h c.entity
  · rw [Function.update_of_ne hne, R.frames_step_of_ne hc hne]

theorem frames_steps (R : p.RunsOn m)
    (hsteps : ∀ c ∈ steps, ∃ id, p.access id = .ok (.stack c.stack))
    (h : StackStep.Admissible steps m (p.frames m)) :
    p.frames (m.run (steps.flatMap (·.code))) = StackStep.replay steps m (p.frames m) := by
  induction steps generalizing m with
  | nil => rfl
  | cons c rest ih =>
    obtain ⟨id, hc⟩ := hsteps c List.mem_cons_self
    have hstep := R.frames_step hc h.1
    rw [List.flatMap_cons, Machine.run_append, StackStep.replay, ← hstep]
    exact ih (R.run c.code) (fun d hd => hsteps d (List.mem_cons_of_mem _ hd)) (hstep ▸ h.2)

theorem eval_read_steps (R : p.RunsOn m)
    (hsteps : ∀ c ∈ steps, ∃ id, p.access id = .ok (.stack c.stack))
    (hv : p.layout.get? id = some v) (hother : ∀ c ∈ steps, c.stack.parameter.id ≠ id) {e : Term}
    (he : e.IsNamed) :
    (m.run (steps.flatMap (·.code))).eval (v.location.read e) = m.eval (v.location.read e) := by
  induction steps generalizing m with
  | nil => rfl
  | cons c rest ih =>
    obtain ⟨id', hc⟩ := hsteps c List.mem_cons_self
    have hne := hother c List.mem_cons_self
    rw [R.parameter_id hc] at hne
    rw [List.flatMap_cons, Machine.run_append,
      ih (R.run c.code) (fun d hd => hsteps d (List.mem_cons_of_mem _ hd))
        (fun d hd => hother d (List.mem_cons_of_mem _ hd)),
      R.eval_read_step hc hv hne he]

theorem eval_top (R : p.RunsOn m) (hs : p.access id = .ok (.stack s)) (e : Option Term) :
    m.eval (s.top e) = (p.frames m id).getLast?.getD .zero := by
  rw [FrameStack.top, FrameStack.frames_entity (R.fits hs), Machine.eval, frames_eq_live hs]
  rfl

theorem eval_depth (R : p.RunsOn m) (hs : p.access id = .ok (.stack s)) (e : Option Term) :
    m.eval (s.depth e) = .number (.ofNat (p.frames m id).length) := by
  rw [FrameStack.depth, FrameStack.frames_entity (R.fits hs), Machine.eval, frames_eq_live hs,
    FrameStack.live]

/-- No frames are live before anything was stored. -/
theorem frames_of_empty (R : p.RunsOn m) (hm : m.memory = {}) (id : VariableId) :
    p.frames m id = [] := by
  have hread : ∀ c, m.memory.read c = .zero := fun c => by rw [hm]; rfl
  simp only [frames]
  split
  · rename_i v hv
    rw [Variable.read, Machine.eval_read R.exact (R.within hv)]
    cases m.cell? (v.location.place _) with
    | none => rfl
    | some c => simp [hread, Location.select_zero]
  · rfl

end Program.RunsOn

/-- On a machine with the capacity it was compiled for, a compiled program's parameters that hold
frames are independent stacks. Any sequence of pushes, pops and writes on them replays on the
lists of their frames, the top and the depth of a stack read as those of its list, and a variable
that is not operated on keeps its value on every entity. -/
theorem Program.stackSteps_refine_lists {script : Script} {o : Options} {p : Program}
    (h : compile script o = .ok p) (hword : o.capacity < Number.twoPow 32) {m : Machine}
    (hm : m.capacity = p.options.capacity) {steps : List StackStep}
    (hsteps : ∀ c ∈ steps, ∃ id, p.access id = .ok (.stack c.stack)) :
    (StackStep.Admissible steps m (p.frames m) →
      p.frames (m.run (steps.flatMap (·.code))) = StackStep.replay steps m (p.frames m)) ∧
    (∀ {id s}, p.access id = .ok (.stack s) → ∀ e,
      (m.run (steps.flatMap (·.code))).eval (s.top e) =
        (p.frames (m.run (steps.flatMap (·.code))) id).getLast?.getD .zero ∧
      (m.run (steps.flatMap (·.code))).eval (s.depth e) =
        .number (.ofNat (p.frames (m.run (steps.flatMap (·.code))) id).length)) ∧
    ∀ {id v}, p.layout.get? id = some v → (∀ c ∈ steps, c.stack.parameter.id ≠ id) →
      ∀ entity : Option Nat, (m.run (steps.flatMap (·.code))).eval (v.read (entity.map .entity)) =
        m.eval (v.read (entity.map .entity)) := by
  have R := RunsOn.of_compile h hword hm
  refine ⟨R.frames_steps hsteps, fun hs e => ?_, fun hv hother entity => ?_⟩
  · exact ⟨(R.run _).eval_top hs e, (R.run _).eval_depth hs e⟩
  · exact R.eval_read_steps hsteps hv hother (Term.isNamed_getD entity)

namespace Program

def reentrantStacks : FrameStack × FrameStack :=
  (⟨reentrantFirst, reentrant.options.scratch⟩, ⟨reentrantSecond, reentrant.options.scratch⟩)

theorem access_reentrant : reentrant.access ⟨0⟩ = .ok (.stack reentrantStacks.1) ∧
    reentrant.access ⟨1⟩ = .ok (.stack reentrantStacks.2) := by
  simp only [access_stack_iff, Layout.get?, table_reentrant]
  exact ⟨⟨reentrantFirst, rfl, rfl, rfl⟩, ⟨reentrantSecond, rfl, rfl, rfl⟩⟩

theorem reentrant_runs : reentrant.RunsOn { event := 0 } :=
  .of_compile compile_reentrant (by decide) (by rw [options_reentrant])

/-- Frames of two parameters in one slot, the second pushed with the value of the first. -/
def interleavedSteps : List StackStep :=
  let (a, b) := reentrantStacks
  [⟨a, .push (.ofNat 7), none⟩, ⟨b, .push (a.top none), none⟩, ⟨a, .write (.ofNat 8), none⟩,
    ⟨b, .pop, none⟩, ⟨b, .pop, none⟩]

theorem stackSteps_refine_lists_interleaved : compile .reentrant {} = .ok reentrant ∧
    (∀ c ∈ interleavedSteps, ∃ id, reentrant.access id = .ok (.stack c.stack)) ∧
    StackStep.Admissible interleavedSteps { event := 0 } (reentrant.frames { event := 0 }) ∧
    reentrant.frames (Machine.run { event := 0 } (interleavedSteps.flatMap (·.code))) =
      StackStep.replay interleavedSteps { event := 0 } (reentrant.frames { event := 0 }) := by
  obtain ⟨ha, hb⟩ := access_reentrant
  have hsteps : ∀ c ∈ interleavedSteps, ∃ id, reentrant.access id = .ok (.stack c.stack) := by
    simp only [interleavedSteps, List.forall_mem_cons]
    exact ⟨⟨_, ha⟩, ⟨_, hb⟩, ⟨_, ha⟩, ⟨_, hb⟩, ⟨_, hb⟩, by simp⟩
  have hempty := reentrant_runs.frames_of_empty rfl
  have hadm : StackStep.Admissible interleavedSteps { event := 0 }
      (reentrant.frames { event := 0 }) := by
    have hids : reentrantStacks.1.parameter.id = ⟨0⟩ ∧ reentrantStacks.2.parameter.id = ⟨1⟩ :=
      ⟨rfl, rfl⟩
    have htop : (reentrantStacks.1.top none).mentions reentrantStacks.2.scratch = false := by
      rw [scratch_eq hb]
      exact reentrant_runs.mentions_top ha
    have hone : 1 ≤ Number.twoPow 53 := Nat.one_le_two_pow
    simp [interleavedSteps, StackStep.Admissible, StackOp.Admissible, StackStep.apply,
      StackOp.result, Term.ofNat, Term.mentions, hempty, hids, htop, hone]
  exact ⟨compile_reentrant, hsteps, hadm,
    (stackSteps_refine_lists compile_reentrant (by decide) reentrant_runs.capacity hsteps).1 hadm⟩

end Program

end Stackless
