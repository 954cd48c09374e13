import Mathlib.Data.Fintype.Card
import Mathlib.Data.Fintype.Option
import Mathlib.Data.Fintype.Prod
import Stackless.Proofs.StackDiscipline

/-!
# Entering and leaving calls

Entering a call pushes the value of each argument on the stack of its parameter, and all values
are taken before the first push (`Program.RunsOn.enter`). Leaving it drops one frame of each
parameter (`Program.RunsOn.leave`). Neither changes another stack.
-/

namespace Stackless

theorem Variable.read_of_global {v : Variable} (h : v.location.domain = .global)
    (e : Option Term) : v.read e = v.read none := by
  simp [Variable.read, Location.read, Location.place, h]

theorem Machine.evalList_eq_map (m : Machine) (ts : List Term) : m.evalList ts = ts.map m.eval := by
  induction ts with
  | nil => rfl
  | cons t ts ih => rw [evalList, ih, List.map_cons]

/-- The slot of a location and its item among the first `n`. -/
def Location.coordinates (n : Nat) (l : Location) : Fin 26 × Option (Fin n) :=
  (l.slot.position, l.index.bind fun i => if h : i < n then some ⟨i, h⟩ else none)

theorem Location.Disjoint.coordinates_ne {l l' : Location} {n : Nat} (h : l.Disjoint l')
    (hd : l.domain = l'.domain) (hl : l.Within n) (hl' : l'.Within n) :
    l.coordinates n ≠ l'.coordinates n := by
  intro he
  obtain ⟨hslot, hitem⟩ := Prod.mk.inj he
  obtain ⟨i, j, hi, hj, hne⟩ := h hd (by cases hl : l.slot; cases hl' : l'.slot; simp_all)
  simp only [hi, hj, Option.bind_some, dif_pos (hl i hi), dif_pos (hl' j hj), Option.some.injEq,
    Fin.mk.injEq] at hitem
  exact hne hitem

namespace Program

/-- The frames are for the parameters with these ids, in order. -/
def FramesFor (p : Program) (ids : List VariableId) (frames : List Frame) : Prop :=
  List.Forall₂ (fun id (f : Frame) => p.access id = .ok (.stack f.stack)) ids frames

variable {p : Program} {m : Machine} {id : VariableId} {ids : List VariableId} {s : FrameStack}
  {v : Variable} {t : Term} {fs : List Frame}

theorem FramesFor.exists_stack (F : p.FramesFor ids fs) (hid : id ∈ ids) :
    ∃ s, p.access id = .ok (.stack s) := by
  obtain ⟨f, _, hs⟩ := exists_of_forall₂_left F hid
  exact ⟨f.stack, hs⟩

/-- A variable that holds no frames is not one of the stacks. -/
theorem ne_of_plain {id' : VariableId} (hs : p.access id = .ok (.stack s))
    (hv : p.layout.get? id' = some v) (hplain : v.stacked = false) : id ≠ id' := by
  rintro rfl
  obtain ⟨u, hu, hstacked, _⟩ := access_stack_iff.mp hs
  cases hu.symm.trans hv
  cases hstacked.symm.trans hplain

namespace RunsOn

theorem frames_push (R : p.RunsOn m) (hs : p.access id = .ok (.stack s))
    (ht : t.mentions s.scratch = false) (hlen : (p.frames m id).length < m.capacity)
    (e : Option Term) : p.frames (m.run (s.push t e)) =
      Function.update (p.frames m) id (p.frames m id ++ [m.eval t]) := by
  have hid := R.parameter_id hs
  have hstep := R.frames_step (c := ⟨s, .push t, e⟩) hs ⟨ht, hid.symm ▸ hlen⟩
  rw [StackStep.apply, hid] at hstep
  exact hstep

theorem frames_pop (R : p.RunsOn m) (hs : p.access id = .ok (.stack s))
    (hlen : (p.frames m id).length ≤ Number.twoPow 53) (e : Option Term) :
    p.frames (m.run (s.pop e)) = Function.update (p.frames m) id (p.frames m id).dropLast := by
  have hid := R.parameter_id hs
  have hstep := R.frames_step (c := ⟨s, .pop, e⟩) hs (hid.symm ▸ hlen : _ ≤ Number.twoPow 53)
  rw [StackStep.apply, hid] at hstep
  exact hstep

/-- Global variables are items of at most 26 slots. -/
theorem length_le_of_global (R : p.RunsOn m) (hnd : ids.Nodup)
    (hids : ∀ id ∈ ids, ∃ v, p.layout.get? id = some v ∧ v.location.domain = .global) :
    ids.length ≤ Number.twoPow 53 := by
  -- Disjoint locations differ in their slot or in their item, which is below the capacity.
  have hinj : ∀ id ∈ ids, ∀ id' ∈ ids,
      (p.layout.get? id).map (·.location.coordinates m.capacity) =
        (p.layout.get? id').map (·.location.coordinates m.capacity) → id = id' := by
    intro id hid id' hid' he
    by_contra hne
    obtain ⟨v, hv, hd⟩ := hids id hid
    obtain ⟨v', hv', hd'⟩ := hids id' hid'
    rw [hv, hv', Option.map_some, Option.map_some, Option.some.injEq] at he
    exact (R.layout.disjoint hv hv' hne).coordinates_ne (hd.trans hd'.symm) (R.within hv)
      (R.within hv') he
  have hcard := (List.Nodup.map_on hinj hnd).length_le_card
  simp only [List.length_map, Fintype.card_prod, Fintype.card_fin, Fintype.card_option] at hcard
  have hbound : 26 * Number.twoPow 32 + 1 ≤ Number.twoPow 53 := by decide
  have hword := R.word
  omega

/-! ## Staged arguments -/

theorem staging (R : p.RunsOn m) (h : p.convention.staging = some v) :
    ∃ id, p.staging = some id ∧ p.layout.get? id = some v ∧ v.location.domain = .global ∧
      v.stacked = false := by
  obtain ⟨base, bodies, B⟩ := R.built
  obtain ⟨id, hid, hv⟩ := Option.bind_eq_some_iff.mp h
  obtain ⟨u, hu, hglobal, _, hplain⟩ := B.stages.entry hid
  cases hu.symm.trans hv
  exact ⟨id, hid, hv, hglobal, hplain⟩

/-- Pushing one item of the staged array. -/
theorem frames_pushItem (R : p.RunsOn m) {staging : VariableId}
    (hv : p.layout.get? staging = some v) (hglobal : v.location.domain = .global)
    (hs : p.access id = .ok (.stack s)) (hroom : (p.frames m id).length < m.capacity)
    {before xs : List Value} {x : Value}
    (hstaged : (m.eval (v.read none)).items = before ++ x :: xs)
    (hexact : before.length ≤ Number.twoPow 53) (e : Option Term) :
    p.frames (m.run (s.push (.item (v.read e) (.ofNat before.length)) e)) =
      Function.update (p.frames m) id (p.frames m id ++ [x]) := by
  have hread : v.read e = v.read none := Variable.read_of_global hglobal e
  have hmentions : (Term.item (v.read e) (.ofNat before.length)).mentions s.scratch = false := by
    rw [hread, scratch_eq hs, Term.mentions, Term.ofNat, Term.mentions, Bool.or_false]
    exact Location.mentions_read (fun hd => R.apart hv hd) .event
  have hvalue : m.eval (.item (v.read e) (.ofNat before.length)) = x := by
    rw [Machine.eval_item_ofNat m _ hexact, hread, Value.at?, hstaged]
    simp
  have hpush := R.frames_push hs hmentions hroom e
  rw [hvalue] at hpush
  exact hpush

/-- Pushing staged arguments adds one frame for each of them, and takes each from the array that
was staged, since no push changes it. -/
theorem frames_pushStaged {staging : VariableId} (hv : p.layout.get? staging = some v)
    (hglobal : v.location.domain = .global) (hplain : v.stacked = false) (e : Option Term)
    (F : p.FramesFor ids fs) (hnd : ids.Nodup) (R : p.RunsOn m) {before xs : List Value}
    (hstaged : (m.eval (v.read none)).items = before ++ xs) (hlen : xs.length = fs.length)
    (hexact : before.length + xs.length ≤ Number.twoPow 53)
    (hroom : ∀ id ∈ ids, (p.frames m id).length < m.capacity) :
    List.Forall₂ (fun id x =>
        p.frames (m.run (Convention.pushStaged (v.read e) e before.length fs)) id =
          p.frames m id ++ [x]) ids xs ∧
      ∀ id ∉ ids, p.frames (m.run (Convention.pushStaged (v.read e) e before.length fs)) id =
        p.frames m id := by
  induction F generalizing m before xs with
  | nil =>
    obtain rfl := List.length_eq_zero_iff.mp hlen
    exact ⟨.nil, fun _ _ => rfl⟩
  | @cons id f ids fs hs F ih =>
    obtain ⟨x, xs, rfl⟩ := List.exists_cons_of_length_eq_add_one hlen
    obtain ⟨hid, hnd⟩ := List.nodup_cons.mp hnd
    rw [List.length_cons] at hlen hexact
    have hpush := R.frames_pushItem hv hglobal hs (hroom id List.mem_cons_self) hstaged
      (by omega) e
    have hkept : (m.run (f.stack.push (.item (v.read e) (.ofNat before.length)) e)).eval
        (v.read none) = m.eval (v.read none) :=
      R.eval_read_step (c := ⟨f.stack, .push _, e⟩) hs hv (ne_of_plain hs hv hplain) .event
    have R' := R.run (f.stack.push (.item (v.read e) (.ofNat before.length)) e)
    rw [Convention.pushStaged, Machine.run_append]
    generalize m.run (f.stack.push (.item (v.read e) (.ofNat before.length)) e) = m₁ at *
    have hothers : ∀ id' ∈ ids, p.frames m₁ id' = p.frames m id' := by
      intro id' hid'
      rw [hpush, Function.update_of_ne]
      rintro rfl
      exact hid hid'
    have hstaged' : (m₁.eval (v.read none)).items = (before ++ [x]) ++ xs := by
      rw [hkept, hstaged]
      simp
    have hrest := ih hnd R' hstaged' (by simpa using hlen) (by simp; omega) fun id' hid' => by
        rw [hothers id' hid', R'.capacity, ← R.capacity]
        exact hroom id' (List.mem_cons_of_mem _ hid')
    rw [List.length_append, List.length_singleton] at hrest
    refine ⟨.cons ?_ ?_, fun id' hid' => ?_⟩
    · rw [hrest.2 id hid, hpush, Function.update_self]
    · refine ((List.forall₂_and_left _ _).mpr ⟨hothers, hrest.1⟩).imp fun id' x h => ?_
      rw [h.2, h.1]
    · rw [List.mem_cons, not_or] at hid'
      rw [hrest.2 id' hid'.2, hpush, Function.update_of_ne hid'.1]

/-! ## Entering and leaving -/

/-- Writing a variable, or an item of it, changes no other variable. -/
theorem eval_read_write (R : p.RunsOn m) {id' : VariableId} {v' : Variable}
    (hv : p.layout.get? id = some v) (hv' : p.layout.get? id' = some v') (hne : id ≠ id')
    {e' : Term} (he' : e'.IsNamed) (t : Term) (e i : Option Term) :
    (m.exec (v.write t e i)).eval (v'.location.read e') = m.eval (v'.location.read e') := by
  have htouched : m.Touched v.location (e.getD .eventEntity) (m.exec (v.write t e i)) := by
    cases i with
    | none => exact Machine.touched_exec_write R.exact (R.within hv) ..
    | some i => exact Machine.touched_exec_writeItem R.exact (R.within hv) ..
  exact htouched.eval_read R.exact (R.layout.disjoint hv hv' hne) (R.within hv') he'

/-- Writing a variable that holds no frames changes no stack. -/
theorem frames_write (R : p.RunsOn m) {id' : VariableId} (hs : p.access id = .ok (.stack s))
    (hv : p.layout.get? id' = some v) (hplain : v.stacked = false) (t : Term)
    (e i : Option Term) : p.frames (m.exec (v.write t e i)) id = p.frames m id := by
  obtain ⟨u, hu, _, _⟩ := access_stack_iff.mp hs
  simp only [Program.frames, hu]
  exact congrArg Value.items (R.eval_read_write hv hu (ne_of_plain hs hv hplain).symm .event ..)

/-- The staging variable holds what was staged. -/
theorem eval_staged (R : p.RunsOn m) (hv : p.layout.get? id = some v)
    (hglobal : v.location.domain = .global) (t : Term) (e : Option Term) :
    (m.exec (v.write t e none)).eval (v.read none) = m.eval t :=
  FrameStack.eval_frames_write (s := ⟨v, p.options.scratch⟩)
    ⟨hglobal, R.within hv, R.apart hv hglobal, R.small⟩ e t

theorem enter_staged (R : p.RunsOn m) (F : p.FramesFor ids fs) (hnd : ids.Nodup)
    (hroom : ∀ id ∈ ids, (p.frames m id).length < m.capacity)
    (hstaging : p.convention.staging = some v) (e : Option Term) :
    let m' := m.run (v.write (.array (fs.map (·.argument))) e none ::
      Convention.pushStaged (v.read e) e 0 fs)
    List.Forall₂ (fun id (f : Frame) => p.frames m' id = p.frames m id ++ [m.eval f.argument])
        ids fs ∧
      ∀ {id s}, p.access id = .ok (.stack s) → id ∉ ids → p.frames m' id = p.frames m id := by
  intro m'
  obtain ⟨staging, _, hv, hglobal, hplain⟩ := R.staging hstaging
  have hids : ∀ id ∈ ids, ∃ s, p.access id = .ok (.stack s) := fun id hid => F.exists_stack hid
  have hlen : fs.length ≤ Number.twoPow 53 := by
    rw [← F.length_eq]
    refine R.length_le_of_global hnd fun id hid => ?_
    obtain ⟨s, hs⟩ := hids id hid
    obtain ⟨u, hu, hstacked, _⟩ := access_stack_iff.mp hs
    exact ⟨u, hu, R.global hu hstacked⟩
  have hkept : ∀ {id s}, p.access id = .ok (.stack s) →
      p.frames (m.exec (v.write (.array (fs.map (·.argument))) e none)) id = p.frames m id :=
    fun hs => R.frames_write hs hv hplain ..
  have hstaged : (m.exec (v.write (.array (fs.map (·.argument))) e none)).eval (v.read none) =
      .array (fs.map fun f => m.eval f.argument) := by
    rw [R.eval_staged hv hglobal, Machine.eval, Machine.evalList_eq_map, List.map_map]
    rfl
  have R' := R.exec (v.write (.array (fs.map (·.argument))) e none)
  have hitems : ((m.exec (v.write (.array (fs.map (·.argument))) e none)).eval
      (v.read none)).items = [] ++ fs.map fun f => m.eval f.argument := by
    rw [hstaged]
    rfl
  have hpushed := frames_pushStaged hv hglobal hplain e F hnd R' hitems (by simp)
    (by simpa using hlen) fun id hid => by
      obtain ⟨s, hs⟩ := hids id hid
      rw [hkept hs, R'.capacity, ← R.capacity]
      exact hroom id hid
  rw [List.forall₂_map_right_iff] at hpushed
  refine ⟨?_, fun hs hid => (hpushed.2 _ hid).trans (hkept hs)⟩
  refine ((List.forall₂_and_left _ _).mpr ⟨hids, hpushed.1⟩).imp fun id f h => ?_
  obtain ⟨s, hs⟩ := h.1
  rw [← hkept hs]
  exact h.2

/-- Entering a call adds the value of each argument, as it is before the call, to the frames of
its parameter. -/
theorem enter (R : p.RunsOn m) (F : p.FramesFor ids fs) (hnd : ids.Nodup)
    (hargs : ∀ f ∈ fs, f.argument.mentions p.options.scratch = false)
    (hroom : ∀ id ∈ ids, (p.frames m id).length < m.capacity) {e : Option Term} {code : Code}
    (hcode : p.convention.enter fs e = .ok code) :
    List.Forall₂ (fun id (f : Frame) =>
        p.frames (m.run code) id = p.frames m id ++ [m.eval f.argument]) ids fs ∧
      ∀ {id s}, p.access id = .ok (.stack s) → id ∉ ids →
        p.frames (m.run code) id = p.frames m id := by
  simp only [Convention.enter] at hcode
  split at hcode
  · cases hcode
    cases F
    exact ⟨.nil, fun _ _ => rfl⟩
  · rename_i f
    cases hcode
    obtain ⟨id, _, hs, hnil, rfl⟩ := List.forall₂_cons_right_iff.mp F
    cases hnil
    have hpush := R.frames_push hs (scratch_eq hs ▸ hargs f List.mem_cons_self)
      (hroom id List.mem_cons_self) e
    rw [hpush]
    refine ⟨.cons (Function.update_self ..) .nil, fun _ hid => Function.update_of_ne ?_ ..⟩
    simpa using hid
  · rename_i hstaging
    cases hcode
    exact R.enter_staged F hnd hroom hstaging e
  · cases hcode

theorem frames_pops (R : p.RunsOn m) (F : p.FramesFor ids fs) (hnd : ids.Nodup)
    (hlen : ∀ id ∈ ids, (p.frames m id).length ≤ Number.twoPow 53) (e : Option Term) :
    (∀ id ∈ ids, p.frames (m.run (fs.flatMap (·.stack.pop e))) id = (p.frames m id).dropLast) ∧
      ∀ id ∉ ids, p.frames (m.run (fs.flatMap (·.stack.pop e))) id = p.frames m id := by
  induction F generalizing m with
  | nil => exact ⟨by simp, fun _ _ => rfl⟩
  | @cons id f ids fs hs F ih =>
    obtain ⟨hid, hnd⟩ := List.nodup_cons.mp hnd
    have hpop := R.frames_pop hs (hlen id List.mem_cons_self) e
    rw [List.flatMap_cons, Machine.run_append]
    have hothers : ∀ id' ∈ ids, p.frames (m.run (f.stack.pop e)) id' = p.frames m id' := by
      intro id' hid'
      rw [hpop, Function.update_of_ne]
      rintro rfl
      exact hid hid'
    have hrest := ih (R.run (f.stack.pop e)) hnd fun id' hid' => by
      rw [hothers id' hid']
      exact hlen id' (List.mem_cons_of_mem _ hid')
    refine ⟨fun id' hid' => ?_, fun id' hid' => ?_⟩
    · rcases List.mem_cons.mp hid' with rfl | hid'
      · rw [hrest.2 id' hid, hpop, Function.update_self]
      · rw [hrest.1 id' hid', hothers id' hid']
    · rw [List.mem_cons, not_or] at hid'
      rw [hrest.2 id' hid'.2, hpop, Function.update_of_ne hid'.1]

/-- Leaving a call drops the innermost frame of each parameter. -/
theorem leave (R : p.RunsOn m) (F : p.FramesFor ids fs) (hnd : ids.Nodup)
    (hlen : ∀ id ∈ ids, (p.frames m id).length ≤ Number.twoPow 53) (e : Option Term) :
    (∀ id ∈ ids, p.frames (m.run (Convention.leave fs e)) id = (p.frames m id).dropLast) ∧
      ∀ id ∉ ids, p.frames (m.run (Convention.leave fs e)) id = p.frames m id := by
  have hpops := R.frames_pops (List.forall₂_reverse_iff.mpr F) (List.nodup_reverse.mpr hnd)
    (fun id hid => hlen id (List.mem_reverse.mp hid)) e
  simpa only [List.mem_reverse, Convention.leave] using hpops

/-! ## Variables that are not involved -/

theorem eval_read_pushStaged (R : p.RunsOn m) (F : p.FramesFor ids fs)
    (hv : p.layout.get? id = some v) (hid : id ∉ ids) {e' : Term} (he' : e'.IsNamed) (t : Term)
    (e : Option Term) (i : Nat) :
    (m.run (Convention.pushStaged t e i fs)).eval (v.location.read e') =
      m.eval (v.location.read e') := by
  induction F generalizing m i with
  | nil => rfl
  | @cons id' f ids fs hs F ih =>
    rw [List.mem_cons, not_or] at hid
    rw [Convention.pushStaged, Machine.run_append, ih (R.run _) hid.2]
    exact R.eval_read_step (c := ⟨f.stack, .push _, e⟩) hs hv (Ne.symm hid.1) he'

theorem eval_read_enter (R : p.RunsOn m) (F : p.FramesFor ids fs)
    (hv : p.layout.get? id = some v) (hid : id ∉ ids) (hstaging : p.staging ≠ some id) {e' : Term}
    (he' : e'.IsNamed) {e : Option Term} {code : Code}
    (hcode : p.convention.enter fs e = .ok code) :
    (m.run code).eval (v.location.read e') = m.eval (v.location.read e') := by
  simp only [Convention.enter] at hcode
  split at hcode
  · cases hcode
    rfl
  · rename_i f
    cases hcode
    obtain ⟨id', _, hs, hnil, rfl⟩ := List.forall₂_cons_right_iff.mp F
    rw [List.mem_cons, not_or] at hid
    exact R.eval_read_step (c := ⟨f.stack, .push _, e⟩) hs hv (Ne.symm hid.1) he'
  · rename_i hstaged
    cases hcode
    obtain ⟨staging, hid', hu, _⟩ := R.staging hstaged
    have hne : staging ≠ id := fun he => hstaging (he ▸ hid')
    rw [Machine.run_cons, eval_read_pushStaged (R.exec _) F hv hid he']
    exact R.eval_read_write hu hv hne he' ..
  · cases hcode

theorem eval_read_leave (R : p.RunsOn m) (F : p.FramesFor ids fs)
    (hv : p.layout.get? id = some v) (hid : id ∉ ids) {e' : Term} (he' : e'.IsNamed)
    (e : Option Term) : (m.run (Convention.leave fs e)).eval (v.location.read e') =
      m.eval (v.location.read e') := by
  have hpop : ∀ {ids fs m}, p.FramesFor ids fs → id ∉ ids → p.RunsOn m →
      (m.run (fs.flatMap (·.stack.pop e))).eval (v.location.read e') =
        m.eval (v.location.read e') := by
    intro ids fs m F hid R
    induction F generalizing m with
    | nil => rfl
    | @cons id' f ids fs hs F ih =>
      rw [List.mem_cons, not_or] at hid
      rw [List.flatMap_cons, Machine.run_append, ih hid.2 (R.run _)]
      exact R.eval_read_step (c := ⟨f.stack, .pop, e⟩) hs hv (Ne.symm hid.1) he'
  exact hpop (List.forall₂_reverse_iff.mpr F) (fun h => hid (List.mem_reverse.mp h)) R

end RunsOn

end Program

end Stackless
