import Stackless.Proofs.Pass

/-!
# How steps can end

`Guards P E x Q` adds to `Ensures P x Q` how a step can fail: from a state with `P` it ends by no
other fault than one of the kind `E`. There is again one rule for each way to put steps together
and one for each basic step of a pass.
-/

namespace Stackless

/-- From a state with `P` the step succeeds with `Q`, or it ends by a fault of the kind `E`. -/
structure Guards {ε σ α : Type} (P : σ → Prop) (E : ε → Prop) (x : EStateM ε σ α)
    (Q : α → σ → Prop) : Prop where
  ensures : Ensures P x Q
  faults : ∀ ⦃s⦄, P s → ∀ ⦃e s'⦄, x s = .error e s' → E e

namespace Guards

variable {ε σ α β : Type} {E : ε → Prop} {P P' : σ → Prop} {Q Q' : α → σ → Prop}
  {R : β → σ → Prop} {x : EStateM ε σ α} {f : α → EStateM ε σ β}

/-- A step that never fails is guarded against all faults. -/
theorem of_total (hx : ∀ s, ∃ a s', x s = .ok a s') (h : Ensures P x Q) : Guards P E x Q := by
  refine ⟨h, fun s _ e s' he => ?_⟩
  obtain ⟨a, t, ht⟩ := hx s
  cases ht.symm.trans he

theorem bind (hx : Guards P E x Q) (hf : ∀ a, Guards (Q a) E (f a) R) :
    Guards P E (x >>= f) R := by
  refine ⟨hx.ensures.bind fun a => (hf a).ensures, fun s hs e s' h => ?_⟩
  change EStateM.bind x f s = .error e s' at h
  simp only [EStateM.bind] at h
  split at h
  · rename_i a t hxs
    exact (hf a).faults (hx.ensures hs hxs) h
  · rename_i e' t hxs
    cases h
    exact hx.faults hs hxs

theorem pure {a : α} (h : ∀ s, P s → Q a s) : Guards P E (pure a : EStateM ε σ α) Q :=
  .of_total (fun s => ⟨a, s, rfl⟩) (.pure h)

theorem modify {Q : PUnit → σ → Prop} {g : σ → σ} (h : ∀ s, P s → Q () (g s)) :
    Guards P E (modify g : EStateM ε σ PUnit) Q :=
  .of_total (fun s => ⟨(), g s, rfl⟩) (.modify h)

theorem get : Guards P E (get : EStateM ε σ σ) fun a s => P s ∧ a = s :=
  .of_total (fun s => ⟨s, s, rfl⟩) .get

theorem mono (h : Guards P E x Q) (hP : ∀ s, P' s → P s) (hQ : ∀ a s, Q a s → Q' a s) :
    Guards P' E x Q' :=
  ⟨h.ensures.mono hP hQ, fun s hs => h.faults (hP s hs)⟩

theorem weaken (h : Guards P E x Q) (hQ : ∀ a s, Q a s → Q' a s) : Guards P E x Q' :=
  h.mono (fun _ hs => hs) hQ

theorem strengthen (h : Guards P E x Q) (hP : ∀ s, P' s → P s) : Guards P' E x Q :=
  h.mono hP fun _ _ hs => hs

theorem assume {p : Prop} (h : p → Guards P E x Q) : Guards (fun s => P s ∧ p) E x Q :=
  ⟨.assume fun hp => (h hp).ensures, fun _ hs => (h hs.2).faults hs.1⟩

theorem exists_elim {ι : Type} {P : ι → σ → Prop} (h : ∀ i, Guards (P i) E x Q) :
    Guards (fun s => ∃ i, P i s) E x Q :=
  ⟨fun _ ⟨i, hs⟩ => (h i).ensures hs, fun _ ⟨i, hs⟩ => (h i).faults hs⟩

end Guards

namespace Pass

variable {ρ α : Type} {E : Fault → Prop} {P : Stage ρ → Prop}

theorem guards_symbols :
    Guards P E (symbols : Pass ρ Symbols) fun a s => P s ∧ a = s.work.symbols :=
  .of_total (fun s => ⟨_, s, rfl⟩) ensures_symbols

theorem guards_modifySymbols {Q : Unit → Stage ρ → Prop} {g : Symbols → Symbols}
    (h : ∀ s, P s → Q () { s with work := { s.work with symbols := g s.work.symbols } }) :
    Guards P E (modifySymbols g : Pass ρ Unit) Q := .modify h

theorem guards_note {Q : Unit → Stage ρ → Prop} {g : ρ → ρ}
    (h : ∀ s, P s → Q () { s with report := g s.report }) : Guards P E (note g) Q := .modify h

theorem guards_addProblems {Q : Unit → Stage ρ → Prop} {ps : List Problem}
    (h : ∀ s, P s → Q () { s with problems := s.problems ++ ps }) :
    Guards P E (addProblems ps : Pass ρ Unit) Q := .modify h

theorem guards_newScope {Q : ScopeId → Stage ρ → Prop} {parent : ScopeId} {kind : ScopeKind}
    {name : String} (h : ∀ s, P s → Q s.work.symbols.scopes.nextId
      { s with work := { s.work with symbols := { s.work.symbols with
        scopes := s.work.symbols.scopes.child parent kind name } } }) :
    Guards P E (newScope parent kind name : Pass ρ ScopeId) Q :=
  .of_total (fun _ => ⟨_, _, rfl⟩) (ensures_newScope h)

theorem guards_lift {Q : α → Stage ρ → Prop} {step : EStateM Fault Workspace α}
    (hok : ∀ s, P s → ∀ a work, step s.work = .ok a work → Q a { s with work })
    (hfault : ∀ s, P s → ∀ f work, step s.work = .error f work → E f) :
    Guards P E (lift step : Pass ρ α) Q := by
  refine ⟨ensures_lift hok, fun s hs f s' h => ?_⟩
  simp only [lift] at h
  split at h
  · cases h
  · rename_i f' work hstep
    cases h
    exact hfault s hs f work hstep

theorem guards_attempt {Q : Option α → Stage ρ → Prop} {step : EStateM Refusal Workspace α}
    (hok : ∀ s, P s → ∀ a work, step s.work = .ok a work → Q (some a) { s with work })
    (hno : ∀ s, P s → ∀ p work, step s.work = .error (.problem p) work →
      Q none { s with work, problems := s.problems ++ [p] })
    (hfault : ∀ s, P s → ∀ f work, step s.work = .error (.fault f) work → E f) :
    Guards P E (attempt step : Pass ρ (Option α)) Q := by
  refine ⟨ensures_attempt hok hno, fun s hs f s' h => ?_⟩
  simp only [attempt] at h
  split at h
  · cases h
  · cases h
  · rename_i f' work hstep
    cases h
    exact hfault s hs f work hstep

theorem guards_attempt_onSymbols {Q : Option Unit → Stage ρ → Prop}
    {change : Symbols → Except Refusal Symbols}
    (hok : ∀ s, P s → ∀ symbols, change s.work.symbols = .ok symbols →
      Q (some ()) { s with work := { s.work with symbols } })
    (hno : ∀ s, P s → ∀ p, change s.work.symbols = .error (.problem p) →
      Q none { s with problems := s.problems ++ [p] })
    (hfault : ∀ s, P s → ∀ f, change s.work.symbols = .error (.fault f) → E f) :
    Guards P E (attempt (Workspace.onSymbols change) : Pass ρ (Option Unit)) Q := by
  refine guards_attempt (fun s hs a work h => ?_) (fun s hs p work h => ?_) fun s hs f work h => ?_
    <;> simp only [Workspace.onSymbols] at h <;> split at h <;> cases h
  · rename_i symbols hchange
    exact hok s hs symbols hchange
  · rename_i hchange
    exact hno s hs p hchange
  · rename_i hchange
    exact hfault s hs f hchange

/-- Running a pass from its first stage. -/
theorem guards_run {Q : Unit → Stage ρ → Prop} {pass : Pass ρ Unit} (h : Guards P E pass Q)
    (report : ρ) : Guards (fun work => P { work, report }) E (pass.run report)
      fun result work => Q () { work, report := result.1, problems := result.2 } := by
  constructor
  · intro w hw result w' hrun
    simp only [run] at hrun
    split at hrun
    · rename_i s hs
      cases hrun
      exact h.ensures hw hs
    · cases hrun
  · intro w hw f w' hrun
    simp only [run] at hrun
    split at hrun
    · cases hrun
    · rename_i f' s hs
      cases hrun
      exact h.faults hw hs

end Pass

end Stackless
