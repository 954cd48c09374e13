import Stackless.Compile.Workspace
import Stackless.Proofs.Layout
import Stackless.Proofs.Scopes

/-!
# Reasoning about passes

`Ensures P x Q` says what a step does when it does not end by a fault: from a state with `P` it
ends with a result and a state for which `Q` holds. There is one rule for each way to put steps
together, and one for each basic step of a pass. What declaring a variable does to a workspace is
`Workspace.Declares`.
-/

namespace Stackless

/-- When the step succeeds from a state with `P`, its result and the new state satisfy `Q`. -/
def Ensures {ε σ α : Type} (P : σ → Prop) (x : EStateM ε σ α) (Q : α → σ → Prop) : Prop :=
  ∀ ⦃s⦄, P s → ∀ ⦃a s'⦄, x s = .ok a s' → Q a s'

/-- The step keeps what holds of the state. -/
abbrev Preserves {ε σ α : Type} (P : σ → Prop) (x : EStateM ε σ α) : Prop := Ensures P x fun _ => P

/-- A sequence of two steps succeeds if both do. -/
theorem exists_of_bind {ε σ α β : Type} {x : EStateM ε σ α} {f : α → EStateM ε σ β} {s s' : σ}
    {b : β} (h : (x >>= f) s = .ok b s') : ∃ a t, x s = .ok a t ∧ f a t = .ok b s' := by
  change EStateM.bind x f s = .ok b s' at h
  simp only [EStateM.bind] at h
  split at h
  · rename_i a t hx
    exact ⟨a, t, hx, h⟩
  · cases h

namespace Ensures

variable {ε σ α β : Type} {P P' : σ → Prop} {Q Q' : α → σ → Prop} {R : β → σ → Prop}
  {x : EStateM ε σ α} {f : α → EStateM ε σ β}

theorem bind (hx : Ensures P x Q) (hf : ∀ a, Ensures (Q a) (f a) R) :
    Ensures P (x >>= f) R := by
  intro s hs b s' h
  obtain ⟨a, t, hxs, hfs⟩ := exists_of_bind h
  exact hf a (hx hs hxs) hfs

theorem pure {a : α} (h : ∀ s, P s → Q a s) : Ensures P (pure a : EStateM ε σ α) Q := by
  intro s hs b s' hb
  cases hb
  exact h s hs

theorem throw (e : ε) : Ensures P (throw e : EStateM ε σ α) Q := by
  intro s _ b s' h
  cases h

theorem modify {Q : PUnit → σ → Prop} {g : σ → σ} (h : ∀ s, P s → Q () (g s)) :
    Ensures P (modify g : EStateM ε σ PUnit) Q := by
  intro s hs b s' hb
  cases hb
  exact h s hs

theorem get : Ensures P (get : EStateM ε σ σ) fun a s => P s ∧ a = s := by
  intro s hs b s' hb
  cases hb
  exact ⟨hs, rfl⟩

theorem mono (h : Ensures P x Q) (hP : ∀ s, P' s → P s) (hQ : ∀ a s, Q a s → Q' a s) :
    Ensures P' x Q' :=
  fun s hs _ _ hx => hQ _ _ (h (hP s hs) hx)

theorem weaken (h : Ensures P x Q) (hQ : ∀ a s, Q a s → Q' a s) : Ensures P x Q' :=
  h.mono (fun _ hs => hs) hQ

theorem assume {p : Prop} (h : p → Ensures P x Q) : Ensures (fun s => P s ∧ p) x Q :=
  fun _ hs _ _ hx => h hs.2 hs.1 hx

theorem strengthen (h : Ensures P x Q) (hP : ∀ s, P' s → P s) : Ensures P' x Q :=
  h.mono hP fun _ _ hs => hs

end Ensures

namespace Pass

variable {ρ α : Type} {P : Stage ρ → Prop}

theorem ensures_symbols :
    Ensures P (symbols : Pass ρ Symbols) fun a s => P s ∧ a = s.work.symbols :=
  Ensures.get.bind fun a => .pure fun s h => by rw [h.2]; exact ⟨h.1, rfl⟩

theorem ensures_modifySymbols {Q : Unit → Stage ρ → Prop} {g : Symbols → Symbols}
    (h : ∀ s, P s → Q () { s with work := { s.work with symbols := g s.work.symbols } }) :
    Ensures P (modifySymbols g : Pass ρ Unit) Q := .modify h

theorem ensures_note {Q : Unit → Stage ρ → Prop} {g : ρ → ρ}
    (h : ∀ s, P s → Q () { s with report := g s.report }) : Ensures P (note g) Q := .modify h

theorem ensures_addProblems {Q : Unit → Stage ρ → Prop} {ps : List Problem}
    (h : ∀ s, P s → Q () { s with problems := s.problems ++ ps }) :
    Ensures P (addProblems ps : Pass ρ Unit) Q := .modify h

theorem ensures_lift {Q : α → Stage ρ → Prop} {step : EStateM Fault Workspace α}
    (h : ∀ s, P s → ∀ a work, step s.work = .ok a work → Q a { s with work }) :
    Ensures P (lift step : Pass ρ α) Q := by
  intro s hs a s' hx
  simp only [lift] at hx
  split at hx
  · rename_i a' work hstep
    cases hx
    exact h s hs _ work hstep
  · cases hx

/-- A step that is refused because of a problem can still have changed the workspace. -/
theorem ensures_attempt {Q : Option α → Stage ρ → Prop} {step : EStateM Refusal Workspace α}
    (hok : ∀ s, P s → ∀ a work, step s.work = .ok a work → Q (some a) { s with work })
    (hno : ∀ s, P s → ∀ p work, step s.work = .error (.problem p) work →
      Q none { s with work, problems := s.problems ++ [p] }) :
    Ensures P (attempt step : Pass ρ (Option α)) Q := by
  intro s hs a s' hx
  simp only [attempt] at hx
  split at hx
  · rename_i a' work hstep
    cases hx
    exact hok s hs _ work hstep
  · rename_i p work hstep
    cases hx
    exact hno s hs p work hstep
  · cases hx

theorem ensures_newScope {Q : ScopeId → Stage ρ → Prop} {parent : ScopeId} {kind : ScopeKind}
    {name : String} (h : ∀ s, P s → Q s.work.symbols.scopes.nextId
      { s with work := { s.work with symbols := { s.work.symbols with
        scopes := s.work.symbols.scopes.child parent kind name } } }) :
    Ensures P (newScope parent kind name : Pass ρ ScopeId) Q :=
  ensures_symbols.bind fun a =>
    (ensures_modifySymbols (Q := fun _ s => Q a.scopes.nextId s) fun s hs => by
      rw [hs.2]; exact h s hs.1).bind fun _ => .pure fun _ hs => hs

theorem ensures_attempt_onSymbols {Q : Option Unit → Stage ρ → Prop}
    {change : Symbols → Except Refusal Symbols}
    (hok : ∀ s, P s → ∀ symbols, change s.work.symbols = .ok symbols →
      Q (some ()) { s with work := { s.work with symbols } })
    (hno : ∀ s, P s → ∀ p, Q none { s with problems := s.problems ++ [p] }) :
    Ensures P (attempt (Workspace.onSymbols change) : Pass ρ (Option Unit)) Q := by
  refine ensures_attempt (fun s hs a work hstep => ?_) fun s hs p work hstep => ?_ <;>
    simp only [Workspace.onSymbols] at hstep <;> split at hstep <;> cases hstep
  · rename_i symbols hchange
    exact hok s hs symbols hchange
  · exact hno s hs p

end Pass

namespace Workspace

variable {w w' : Workspace} {v : Variable} {id : VariableId} {scope : ScopeId} {name : String}
  {domain : Domain} {kind : VariableKind} {span : Span}

/-- A new variable enters the table and is bound in a scope. -/
structure Declares (w : Workspace) (scope : ScopeId) (v : Variable) (w' : Workspace) : Prop where
  inv : w'.layout.Inv
  options : w'.layout.options = w.layout.options
  fresh : w.layout.get? v.id = none
  table : ∀ id, w'.layout.get? id = if id = v.id then some v else w.layout.get? id
  symbols : w'.symbols = { w.symbols with scopes := w'.symbols.scopes }
  bound : w.symbols.scopes.declare scope v.name (.ofVariable v.id) v.span =
    .ok w'.symbols.scopes

theorem declareVariable_ok (H : w.layout.Inv)
    (h : declareVariable scope name domain kind span w = .ok id w') :
    ∃ location, w.Declares scope { id, name, location, kind, scope := some scope, span } w' ∧
      location.domain = domain := by
  simp only [declareVariable] at h
  split at h
  · cases h
  · split at h
    · cases h
    · rename_i location layout htake
      have T := Layout.takeLocation_ok H htake
      split at h
      · cases h
      · rename_i scopes hbound
        cases h
        refine ⟨location, ⟨T.push rfl rfl, T.options, ?_, fun id => ?_, rfl, hbound⟩, T.domain⟩
        · rw [← Layout.get?_congr T.table]
          simp [Layout.get?, Layout.nextId]
        · rw [Layout.get?_push, Layout.get?_congr T.table]

/-- A variable whose name is taken changes nothing. -/
theorem declareVariable_problem {p : Problem}
    (h : declareVariable scope name domain kind span w = .error (.problem p) w') :
    w' = w ∧ ∃ b, w.symbols.scopes.binding? scope name = some b ∧ b.inherited = false := by
  simp only [declareVariable] at h
  split at h
  · rename_i old hold
    cases h
    rw [Option.filter_eq_some_iff] at hold
    exact ⟨rfl, old, hold.1, by simpa using hold.2⟩
  · rename_i hfree
    split at h
    · cases h
    · split at h
      · rename_i hbound
        cases h
        obtain ⟨b, hb, hown, _⟩ := Scopes.declare_refused hbound
        rw [hb, Option.filter_some_pos (by simp [hown])] at hfree
        cases hfree
      · cases h

end Workspace

end Stackless
