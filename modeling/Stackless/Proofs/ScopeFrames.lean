import Stackless.Proofs.Consistency
import Stackless.Proofs.ScopeTree

/-!
# Steps that create no scopes

Most steps of a pass leave all scopes where they are, whether they succeed or not
(`Pass.KeepsFrame`): they bind names, take over bindings, register types or record calls. So do the
passes that are put together from such steps (`Pass.Stepwise.keepsFrame`).
-/

namespace Stackless

/-! ## What single steps leave behind -/

section
variable {ε σ α β : Type} {x : EStateM ε σ α} {f : α → EStateM ε σ β} {s s' : σ} {a : α}

theorem leaves_of_ok (h : x s = .ok a s') : leaves x s = s' := by
  rw [leaves, h]

theorem leaves_bind_of_ok (h : x s = .ok a s') : leaves (x >>= f) s = leaves (f a) s' := by
  simp only [leaves, bind, EStateM.bind, h]

theorem leaves_of_error {e : ε} (h : x s = .error e s') : leaves x s = s' := by
  rw [leaves, h]

theorem leaves_bind_of_error {e : ε} (h : x s = .error e s') : leaves (x >>= f) s = s' := by
  simp only [leaves, bind, EStateM.bind, h]

theorem exists_ok_bind (hx : ∃ a s', x s = .ok a s')
    (hf : ∀ a s', x s = .ok a s' → ∃ b s'', f a s' = .ok b s'') :
    ∃ b s'', (x >>= f) s = .ok b s'' := by
  obtain ⟨a, s', h⟩ := hx
  obtain ⟨b, s'', h'⟩ := hf a s' h
  refine ⟨b, s'', ?_⟩
  simp only [bind, EStateM.bind, h, h']

end

/-- An attempt succeeds unless there is a fault. -/
theorem Pass.exists_ok_attempt {ρ α : Type} {step : EStateM Refusal Workspace α} {s : Stage ρ}
    (h : ∀ f w, step s.work ≠ .error (.fault f) w) : ∃ r s', Pass.attempt step s = .ok r s' := by
  simp only [Pass.attempt]
  cases hstep : step s.work with
  | ok a work => exact ⟨_, _, rfl⟩
  | error r work =>
    cases r with
    | problem p => exact ⟨_, _, rfl⟩
    | fault f => exact absurd hstep (h f work)

theorem Pass.exists_ok_onScopes {ρ : Type} {change : Scopes → Except Refusal Scopes} {s : Stage ρ}
    (h : ∀ f, change s.work.symbols.scopes ≠ .error (.fault f)) :
    ∃ r s', Pass.attempt (Workspace.onScopes change) s = .ok r s' := by
  refine Pass.exists_ok_attempt fun f w hstep => ?_
  simp only [Workspace.onScopes, Workspace.onSymbols] at hstep
  cases hchange : change s.work.symbols.scopes with
  | ok scopes =>
    rw [hchange] at hstep
    cases hstep
  | error r =>
    rw [hchange] at hstep
    cases hstep
    exact h f hchange

/-! ## Symbols and workspaces -/

namespace Symbols.SameFrame

variable {s : Symbols}

theorem ofChanges {id : ScopeId} {scopes : Scopes} (C : s.scopes.Changes id scopes) :
    s.SameFrame { s with scopes } :=
  ⟨fun _ _ _ => C.has_iff, rfl, rfl⟩

theorem ofTypes {types : List TypeEntry}
    (h : types.filterMap (·.members) = s.types.filterMap (·.members)) :
    s.SameFrame { s with types } :=
  ⟨fun _ _ _ => .rfl, h, rfl⟩

theorem ofFunctions {functions : List FunctionEntry}
    (h : functions.filterMap (·.scope) = s.functions.filterMap (·.scope)) (calls : Calls) :
    s.SameFrame { s with functions, calls } :=
  ⟨fun _ _ _ => .rfl, rfl, h⟩

theorem updateType {key : Key} {g : TypeEntry → TypeEntry} (hg : ∀ t, (g t).members = t.members) :
    s.SameFrame (s.updateType key g) := by
  refine ofTypes ?_
  rw [List.filterMap_map]
  congr 1
  funext t
  simp only [Function.comp_apply]
  split
  · exact hg t
  · rfl

theorem mapFunctions {g : FunctionEntry → FunctionEntry} (hg : ∀ f, (g f).scope = f.scope) :
    s.SameFrame { s with functions := s.functions.map g } := by
  refine ofFunctions ?_ s.calls
  rw [List.filterMap_map]
  congr 1
  funext f
  exact hg f

end Symbols.SameFrame

namespace Workspace

variable {w : Workspace}

theorem sameFrame_onSymbols {change : Symbols → Except Refusal Symbols}
    (h : ∀ {symbols}, change w.symbols = .ok symbols → w.symbols.SameFrame symbols) :
    w.symbols.SameFrame (leaves (onSymbols change) w).symbols := by
  simp only [leaves, onSymbols]
  cases hchange : change w.symbols with
  | ok symbols => exact h hchange
  | error r => exact .refl _

theorem sameFrame_onScopes {change : Scopes → Except Refusal Scopes} {id : ScopeId}
    (h : ∀ {scopes}, change w.symbols.scopes = .ok scopes → w.symbols.scopes.Changes id scopes) :
    w.symbols.SameFrame (leaves (onScopes change) w).symbols := by
  refine sameFrame_onSymbols fun {symbols} hchange => ?_
  split at hchange
  · rename_i scopes hscopes
    cases hchange
    exact .ofChanges (h hscopes)
  · cases hchange

theorem sameFrame_declareVariable (scope : ScopeId) (name : String) (domain : Domain)
    (kind : VariableKind) (span : Span) :
    w.symbols.SameFrame (leaves (declareVariable scope name domain kind span) w).symbols := by
  simp only [leaves, declareVariable]
  cases (w.symbols.scopes.binding? scope name).filter (!·.inherited) with
  | some old => exact .refl _
  | none =>
    cases Layout.takeLocation domain w.layout with
    | error f layout => exact .refl _
    | ok location layout =>
      dsimp only
      cases hbind : w.symbols.scopes.declare scope name (.ofVariable layout.nextId) span with
      | error r => exact .refl _
      | ok scopes => exact .ofChanges (Scopes.declare_ok hbind).1

end Workspace

/-! ## Passes -/

namespace Pass

variable {ρ α β : Type} {x : Pass ρ α} {f : α → Pass ρ β}

/-- The step leaves all scopes where they are. -/
structure KeepsFrame (x : Pass ρ α) : Prop where
  same : ∀ s : Stage ρ, s.work.symbols.SameFrame (leaves x s).work.symbols

namespace KeepsFrame

theorem ofSymbols (h : ∀ s, (leaves x s).work.symbols = s.work.symbols) : KeepsFrame x := by
  refine ⟨fun s => ?_⟩
  rw [h]
  exact .refl _

theorem of_ok (h : KeepsFrame x) {s s' : Stage ρ} {a : α} (hok : x s = .ok a s') :
    s.work.symbols.SameFrame s'.work.symbols := by
  have hsame := h.same s
  rwa [leaves_of_ok hok] at hsame

theorem pure (a : α) : KeepsFrame (pure a : Pass ρ α) := ofSymbols fun _ => rfl

theorem throw (f : Fault) : KeepsFrame (throw f : Pass ρ α) := ofSymbols fun _ => rfl

theorem symbols : KeepsFrame (Pass.symbols : Pass ρ Symbols) := ofSymbols fun _ => rfl

theorem bind (hx : KeepsFrame x) (hf : ∀ a, KeepsFrame (f a)) : KeepsFrame (x >>= f) := by
  refine ⟨fun s => ?_⟩
  exact leaves_bind (P := fun s' : Stage ρ => s.work.symbols.SameFrame s'.work.symbols) (hx.same s)
    fun {a s'} h => h.trans ((hf a).same s')

theorem modifySymbols {g : Symbols → Symbols} (h : ∀ s, Symbols.SameFrame s (g s)) :
    KeepsFrame (Pass.modifySymbols g : Pass ρ Unit) := ⟨fun s => h s.work.symbols⟩

theorem lift {step : EStateM Fault Workspace α}
    (h : ∀ w : Workspace, w.symbols.SameFrame (leaves step w).symbols) :
    KeepsFrame (Pass.lift step : Pass ρ α) := by
  refine ⟨fun s => ?_⟩
  rw [leaves_lift]
  exact h s.work

theorem attempt {step : EStateM Refusal Workspace α}
    (h : ∀ w : Workspace, w.symbols.SameFrame (leaves step w).symbols) :
    KeepsFrame (Pass.attempt step : Pass ρ (Option α)) := by
  refine ⟨fun s => ?_⟩
  rw [leaves_attempt]
  exact h s.work

theorem addType {t : TypeEntry} (h : t.members = none) :
    KeepsFrame (Pass.attempt (Workspace.addType t) : Pass ρ (Option Unit)) := by
  refine attempt fun w => Workspace.sameFrame_onSymbols fun {symbols} hadd => ?_
  simp only [Symbols.addType] at hadd
  split at hadd
  · cases hadd
  · cases hadd
    refine .ofTypes ?_
    simp [h]

theorem declareType (scope : ScopeId) (name : String) (key : Key) (span : Span) :
    KeepsFrame (Pass.attempt (Workspace.onScopes fun s => s.declareType scope name key span) :
      Pass ρ (Option Unit)) :=
  attempt fun _ => Workspace.sameFrame_onScopes Scopes.declareType_ok

theorem declareVariable (scope : ScopeId) (name : String) (domain : Domain) (kind : VariableKind)
    (span : Span) : KeepsFrame (Pass.attempt (Workspace.declareVariable scope name domain kind span) :
      Pass ρ (Option VariableId)) :=
  attempt fun _ => Workspace.sameFrame_declareVariable ..

theorem merge (target source : ScopeId) :
    KeepsFrame (Pass.lift (Workspace.merge target source) : Pass ρ Nat) := by
  refine lift fun w => ?_
  simp only [leaves, Workspace.merge]
  cases hmerge : w.symbols.scopes.merge target source with
  | error f => exact .refl _
  | ok r => exact .ofChanges (Scopes.merge_ok hmerge)

theorem addInternal (name : String) (domain : Domain) :
    KeepsFrame (Pass.lift (Workspace.addInternal name domain) : Pass ρ VariableId) := by
  refine lift fun w => ?_
  simp only [leaves, Workspace.addInternal, Workspace.onLayout]
  cases Layout.addInternal name domain w.layout <;> exact .refl _

end KeepsFrame

theorem InPlace.keepsFrame (h : InPlace ρ α x) : KeepsFrame x := by
  cases h with
  | note | addProblems | stack => exact .ofSymbols fun _ => rfl
  | addType bare => exact .addType bare
  | updateType key members => exact .modifySymbols fun s => .updateType members
  | declareType scope name key span => exact .declareType scope name key span
  | merge target source => exact .merge target source
  | recordCall caller callee site => exact .modifySymbols fun s => .ofFunctions rfl _
  | declareVariable scope name domain kind span =>
    exact .declareVariable scope name domain kind span
  | addInternal name domain => exact .addInternal name domain

theorem Stepwise.keepsFrame (h : Stepwise InPlace x) : KeepsFrame x := by
  induction h with
  | pure a => exact .pure a
  | throw _ => exact .throw _
  | symbols => exact .symbols
  | bind _ _ ihx ihf => exact ihx.bind ihf
  | report _ ih => exact ⟨fun s => (ih s.report).same s⟩
  | step h => exact h.keepsFrame

end Pass

end Stackless
