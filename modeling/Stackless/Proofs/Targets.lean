import Stackless.Proofs.Additions
import Stackless.Proofs.Compilation
import Stackless.Proofs.Faults
import Stackless.Proofs.Room
import Stackless.Proofs.Steps

/-!
# One script on different targets

A pass looks at the symbols and at its report, and asks the layout for one location after the other.
So two runs on different targets do the same, step by step, as long as both have room
(`Stage.Twin`): they differ in where variables live and in nothing else. The run on the smaller
target ends early exactly if the other run needs more room than there is (`Pass.Stepwise.agrees`).
-/

namespace Stackless

/-- What is known of a variable apart from its place in its domain. -/
def Variable.facts (v : Variable) :
    VariableId × String × Domain × VariableKind × Option ScopeId × Span × Bool :=
  (v.id, v.name, v.location.domain, v.kind, v.scope, v.span, v.stacked)

/-! ## Layouts -/

namespace Layout

/-- Two layouts have the same variables, at different places. -/
structure Twin (o o' : Options) (l l' : Layout) : Prop where
  facts : l'.table.toList.map (·.facts) = l.table.toList.map (·.facts)
  options : l.options = o
  options' : l'.options = o'
  filled : l.Filled
  filled' : l'.Filled

variable {o o' : Options} {l l' m : Layout} {d : Domain} {location : Location}

theorem twin_start (o o' : Options) : Twin o o' { options := o } { options := o' } :=
  ⟨rfl, rfl, rfl, filled_ofOptions o, filled_ofOptions o'⟩

namespace Twin

theorem symm (T : Twin o o' l l') : Twin o' o l' l :=
  ⟨T.facts.symm, T.options', T.options, T.filled', T.filled⟩

theorem trans {o'' : Options} {l'' : Layout} (T : Twin o o' l l') (T' : Twin o' o'' l' l'') :
    Twin o o'' l l'' :=
  ⟨T'.facts.trans T.facts, T.options, T'.options', T.filled, T'.filled'⟩

theorem count_eq (T : Twin o o' l l') (d : Domain) : l'.count d = l.count d := by
  have hcount : ∀ l : Layout, l.count d = (l.table.toList.map (·.facts)).countP (·.2.2.1 = d) := by
    intro l
    rw [count, List.countP_map]
    rfl
  rw [hcount, hcount, T.facts]

theorem nextId_eq (T : Twin o o' l l') : l'.nextId = l.nextId := by
  have hlength := congrArg List.length T.facts
  simpa [nextId] using hlength

theorem stack (T : Twin o o' l l') (id : VariableId) : Twin o o' (l.stack id) (l'.stack id) := by
  refine { T with facts := ?_, filled := T.filled.stack id, filled' := T.filled'.stack id }
  have hstack : ∀ l : Layout, (l.stack id).table.toList.map (·.facts) =
      (l.table.toList.map (·.facts)).modify id.index
        fun x => (x.1, x.2.1, x.2.2.1, x.2.2.2.1, x.2.2.2.2.1, x.2.2.2.2.2.1, true) := by
    intro l
    rw [Layout.stack, Array.toList_modify]
    generalize id.index = i
    induction l.table.toList generalizing i with
    | nil => simp
    | cons v vs ih =>
      cases i with
      | zero => rfl
      | succ i => rw [List.modify_succ_cons, List.map_cons, ih, List.map_cons, List.modify_succ_cons]
  rw [hstack, hstack, T.facts]

theorem push (T : Twin o o' l l') {m m' : Layout} (htable : m.table = l.table)
    (htable' : m'.table = l'.table) (hoptions : m.options = l.options)
    (hoptions' : m'.options = l'.options) {v v' : Variable} (hfacts : v'.facts = v.facts)
    (hfilled : (m.push v).Filled) (hfilled' : (m'.push v').Filled) :
    Twin o o' (m.push v) (m'.push v') where
  facts := by
    simp only [Layout.push, htable, htable', Array.toList_push, List.map_append, T.facts,
      List.map_singleton, hfacts]
  options := hoptions.trans T.options
  options' := hoptions'.trans T.options'
  filled := hfilled
  filled' := hfilled'

/-- A location that one layout hands out, the other one hands out too, unless it is full. -/
theorem takeLocation (T : Twin o o' l l') (V : o.validate = .ok ()) (V' : o'.validate = .ok ())
    (h : Layout.takeLocation d l = .ok location m) :
    m.nextId = l.nextId ∧ (∀ {v : Variable}, v.location = location →
        (m.push v).count d = l.count d + 1) ∧
      ((∃ location' m', Layout.takeLocation d l' = .ok location' m' ∧
          location'.domain = location.domain ∧ m'.nextId = l.nextId ∧
          ∀ {v v' : Variable}, v.location = location → v'.location = location' →
            v'.facts = v.facts → Twin o o' (m.push v) (m'.push v')) ∨
        (∃ f m', Layout.takeLocation d l' = .error f m' ∧ f.isExhaustion = true) ∧
          o'.room d ≤ l.count d) := by
  have hroom : l.count d < l.options.room d := by
    refine Nat.lt_of_not_le fun hfull => ?_
    obtain ⟨f, m', hfails, _⟩ := T.filled.exhausts (T.options ▸ V) hfull
    cases h.symm.trans hfails
  obtain ⟨location₁, m₁, htake, hdomain, htable, hoptions, hpush⟩ :=
    T.filled.exists_location (T.options ▸ V) hroom
  cases h.symm.trans htake
  have hnext : ∀ {l m : Layout}, m.table = l.table → m.nextId = l.nextId := by
    intro l m h
    rw [nextId, h]
    rfl
  refine ⟨hnext htable, fun hv => ?_, ?_⟩
  · have hcount : m.count d = l.count d := by rw [count, htable]; rfl
    rw [count_push, hv, hdomain, if_pos rfl, hcount]
  · by_cases hroom' : l'.count d < l'.options.room d
    · obtain ⟨location', m', htake', hdomain', htable', hoptions', hpush'⟩ :=
        T.filled'.exists_location (T.options' ▸ V') hroom'
      refine .inl ⟨location', m', htake', hdomain'.trans hdomain.symm,
        (hnext htable').trans T.nextId_eq, fun hv hv' hfacts => ?_⟩
      exact T.push htable htable' hoptions hoptions' hfacts (hpush _ hv) (hpush' _ hv')
    · refine .inr ⟨T.filled'.exhausts (T.options' ▸ V') (Nat.not_lt.mp hroom'), ?_⟩
      rw [← T.count_eq, ← T.options']
      exact Nat.not_lt.mp hroom'

end Twin

end Layout

/-! ## Two runs of a step -/

/-- Two workspaces differ only in where variables live. -/
structure Workspace.Twin (o o' : Options) (w w' : Workspace) : Prop where
  symbols : w'.symbols = w.symbols
  layout : Layout.Twin o o' w.layout w'.layout

theorem Workspace.twin_start (o o' : Options) : Twin o o' (.ofOptions o) (.ofOptions o') :=
  ⟨rfl, Layout.twin_start o o'⟩

/-- Two stages of a pass differ only in where variables live. -/
structure Stage.Twin {ρ : Type} (o o' : Options) (s s' : Stage ρ) : Prop where
  work : Workspace.Twin o o' s.work s'.work
  report : s'.report = s.report
  problems : s'.problems = s.problems

variable {ρ α β : Type} {o o' : Options}

theorem Stage.Twin.symm {s t : Stage ρ} (T : s.Twin o o' t) : t.Twin o' o s :=
  ⟨⟨T.work.symbols.symm, T.work.layout.symm⟩, T.report.symm, T.problems.symm⟩

theorem Stage.Twin.trans {o'' : Options} {s t u : Stage ρ} (T : s.Twin o o' t)
    (T' : t.Twin o' o'' u) : s.Twin o o'' u :=
  ⟨⟨T'.work.symbols.trans T.work.symbols, T.work.layout.trans T'.work.layout⟩,
    T'.report.trans T.report, T'.problems.trans T.problems⟩

/-- What a step does on one target, it does on the other too, unless it needs more room than the
other has. -/
structure Agrees {σ : Type} (o' : Options) (R : σ → σ → Prop) (layout : σ → Layout)
    (x : EStateM Fault σ α) : Prop where
  grows : ∀ {s s' a}, x s = .ok a s' → ∀ d, (layout s).count d ≤ (layout s').count d
  follows : ∀ {s t s' a}, R s t → x s = .ok a s' →
    (∃ t', x t = .ok a t' ∧ R s' t') ∨
      (∃ f t', x t = .error f t' ∧ f.isExhaustion = true) ∧ ∃ d, o'.room d < (layout s').count d

theorem bind_of_ok {σ : Type} {x : EStateM Fault σ α} {f : α → EStateM Fault σ β} {s t : σ} {a : α}
    (h : x s = .ok a t) : (x >>= f) s = f a t := by
  change EStateM.bind x f s = f a t
  rw [EStateM.bind, h]

theorem bind_of_error {σ : Type} {x : EStateM Fault σ α} {f : α → EStateM Fault σ β} {s t : σ}
    {e : Fault} (h : x s = .error e t) : (x >>= f) s = .error e t := by
  change EStateM.bind x f s = .error e t
  rw [EStateM.bind, h]

theorem Agrees.bind {σ : Type} {R : σ → σ → Prop} {layout : σ → Layout} {x : EStateM Fault σ α}
    {f : α → EStateM Fault σ β} (hx : Agrees o' R layout x) (hf : ∀ a, Agrees o' R layout (f a)) :
    Agrees o' R layout (x >>= f) where
  grows h d := by
    obtain ⟨a, u, hfirst, hrest⟩ := exists_of_bind h
    exact Nat.le_trans (hx.grows hfirst d) ((hf a).grows hrest d)
  follows {s t s' b} T h := by
    obtain ⟨a, u, hfirst, hrest⟩ := exists_of_bind h
    rcases hx.follows T hfirst with ⟨u', hfirst', T'⟩ | ⟨⟨e, u', hfails, he⟩, d, hroom⟩
    · rw [bind_of_ok hfirst']
      exact (hf a).follows T' hrest
    · rw [bind_of_error hfails]
      exact .inr ⟨⟨e, u', rfl, he⟩, d, Nat.lt_of_lt_of_le hroom ((hf a).grows hrest d)⟩

namespace Pass

/-- A step of a pass agrees on two targets. -/
abbrev Agrees (o o' : Options) (x : Pass ρ α) : Prop :=
  Stackless.Agrees o' (Stage.Twin o o') (·.work.layout) x

/-- What the step does does not depend on the layout, and does not change it. -/
def Blind (x : Pass ρ α) : Prop := ∀ ⦃s a s'⦄, x s = .ok a s' →
  s'.work.layout = s.work.layout ∧ ∀ layout : Layout,
    x { s with work := { s.work with layout } } =
      .ok a { s' with work := { s'.work with layout } }

theorem Blind.bind {x : Pass ρ α} {f : α → Pass ρ β} (hx : Blind x) (hf : ∀ a, Blind (f a)) :
    Blind (x >>= f) := by
  intro s b s' h
  obtain ⟨a, u, hfirst, hrest⟩ := exists_of_bind h
  obtain ⟨hlayout, hfirst'⟩ := hx hfirst
  obtain ⟨hlayout', hrest'⟩ := hf a hrest
  exact ⟨hlayout'.trans hlayout, fun layout => (bind_of_ok (hfirst' layout)).trans (hrest' layout)⟩

theorem Blind.agrees {x : Pass ρ α} (hx : Blind x) : Agrees o o' x where
  grows h d := by simp only [(hx h).1, Nat.le_refl]
  follows {s t s' a} T h := by
    obtain ⟨hlayout, hblind⟩ := hx h
    have ht : t = { s with work := { s.work with layout := t.work.layout } } := by
      obtain ⟨⟨symbols, layout⟩, report, problems⟩ := t
      cases T.work.symbols
      cases T.report
      cases T.problems
      rfl
    refine .inl ⟨_, (congrArg x ht).trans (hblind t.work.layout), ⟨rfl, ?_⟩, rfl, rfl⟩
    rw [hlayout]
    exact T.work.layout

theorem blind_onSymbols (change : Symbols → Except Refusal Symbols) :
    Blind (attempt (Workspace.onSymbols change) : Pass ρ (Option Unit)) := by
  intro s a s' h
  simp only [attempt, Workspace.onSymbols] at h ⊢
  cases hchange : change s.work.symbols with
  | ok symbols =>
    rw [hchange] at h
    cases h
    exact ⟨rfl, fun _ => rfl⟩
  | error r =>
    rw [hchange] at h
    cases r with
    | problem p =>
      cases h
      exact ⟨rfl, fun _ => rfl⟩
    | fault f => cases h

theorem blind_merge (target source : ScopeId) :
    Blind (lift (Workspace.merge target source) : Pass ρ Nat) := by
  intro s a s' h
  simp only [lift, Workspace.merge] at h ⊢
  cases hmerge : s.work.symbols.scopes.merge target source with
  | ok x =>
    rw [hmerge] at h
    cases h
    exact ⟨rfl, fun _ => rfl⟩
  | error f =>
    rw [hmerge] at h
    cases h

theorem blind_pure (a : α) : Blind (pure a : Pass ρ α) := by
  intro s b s' h
  cases h
  exact ⟨rfl, fun _ => rfl⟩

theorem blind_register (f : FunctionEntry) (owner : ScopeId) : Blind (Declare.register f owner) :=
  (blind_onSymbols _).bind fun r => by
    cases r with
    | none => exact blind_pure _
    | some _ => exact (blind_onSymbols _).bind fun _ => blind_pure _

end Pass

/-! ## Storage -/

theorem Layout.count_le_push {l l' : Layout} {v : Variable} (h : l'.table = l.table.push v)
    (d : Domain) : l.count d ≤ l'.count d := by
  have hcount : l'.count d = (l.push v).count d := by rw [count, h]; rfl
  rw [hcount, count_push]
  exact Nat.le_add_right ..

namespace Pass

variable (V : o.validate = .ok ()) (V' : o'.validate = .ok ())
include V V'

/-- On both targets the name is taken, or both hand out a location. -/
theorem agrees_declareVariable (scope : ScopeId) (name : String) (domain : Domain)
    (kind : VariableKind) (span : Span) :
    Agrees o o' (attempt (Workspace.declareVariable scope name domain kind span) :
      Pass ρ (Option VariableId)) where
  grows {s s' a} h d := by
    have D : DeclaresVariable scope ⟨name, span⟩ domain kind s a s' := declaresVariable h
    cases D with
    | refused => exact Nat.le_refl _
    | added hbind htable => exact Layout.count_le_push htable d
  follows {s t s' a} T h := by
    obtain ⟨⟨table, layout⟩, report, problems⟩ := s
    obtain ⟨⟨table', layout'⟩, report', problems'⟩ := t
    obtain ⟨⟨htable, TL⟩, hreport, hproblems⟩ := T
    dsimp only at htable TL hreport hproblems
    subst htable hreport hproblems
    simp only [attempt, Workspace.declareVariable] at h ⊢
    cases hold : (table'.scopes.binding? scope name).filter (!·.inherited) with
    | some old =>
      rw [hold] at h
      cases h
      exact .inl ⟨_, rfl, ⟨rfl, TL⟩, rfl, rfl⟩
    | none =>
      simp only [hold] at h ⊢
      cases htake : Layout.takeLocation domain layout with
      | error f m =>
        rw [htake] at h
        cases h
      | ok location m =>
        obtain ⟨hnext, hcount, hother⟩ := TL.takeLocation V V' htake
        simp only [htake, hnext] at h
        cases hbind : table'.scopes.declare scope name (.ofVariable layout.nextId) span with
        | error r =>
          rw [hbind] at h
          cases r with
          | fault f => cases h
          | problem p =>
            -- the name was found to be free before
            obtain ⟨b, hb, hown, _⟩ := Scopes.declare_refused hbind
            rw [hb, Option.filter_some_pos (by simp [hown])] at hold
            cases hold
        | ok scopes =>
          rw [hbind] at h
          cases h
          rcases hother with ⟨location', m', htake', hdomain, hnext', htwin⟩ |
            ⟨⟨f, m', hfails, hf⟩, hfull⟩
          · simp only [htake', hnext', hbind]
            refine .inl ⟨_, rfl, ⟨rfl, htwin rfl rfl ?_⟩, rfl, rfl⟩
            simp only [Variable.facts, hdomain]
          · simp only [hfails]
            refine .inr ⟨⟨f, _, rfl, hf⟩, domain, ?_⟩
            rw [hcount rfl]
            exact Nat.lt_succ_of_le hfull

theorem agrees_addInternal (name : String) (domain : Domain) :
    Agrees o o' (lift (Workspace.addInternal name domain) : Pass ρ VariableId) where
  grows {s s' a} h d := by
    simp only [lift, Workspace.addInternal, Workspace.onLayout, Layout.addInternal] at h
    cases htake : Layout.takeLocation domain s.work.layout with
    | error f m =>
      rw [htake] at h
      cases h
    | ok location m =>
      rw [htake] at h
      cases h
      exact Layout.count_le_push (congrArg (Array.push · _) (Layout.takeLocation_table htake)) d
  follows {s t s' a} T h := by
    obtain ⟨⟨table, layout⟩, report, problems⟩ := s
    obtain ⟨⟨table', layout'⟩, report', problems'⟩ := t
    obtain ⟨⟨htable, TL⟩, hreport, hproblems⟩ := T
    dsimp only at htable TL hreport hproblems
    subst htable hreport hproblems
    simp only [lift, Workspace.addInternal, Workspace.onLayout, Layout.addInternal] at h ⊢
    cases htake : Layout.takeLocation domain layout with
    | error f m =>
      rw [htake] at h
      cases h
    | ok location m =>
      obtain ⟨hnext, hcount, hother⟩ := TL.takeLocation V V' htake
      simp only [htake, hnext] at h
      cases h
      rcases hother with ⟨location', m', htake', hdomain, hnext', htwin⟩ |
        ⟨⟨f, m', hfails, hf⟩, hfull⟩
      · simp only [htake', hnext']
        refine .inl ⟨_, rfl, ⟨rfl, htwin rfl rfl ?_⟩, rfl, rfl⟩
        simp only [Variable.facts, hdomain]
      · simp only [hfails]
        refine .inr ⟨⟨f, _, rfl, hf⟩, domain, ?_⟩
        rw [hcount rfl]
        exact Nat.lt_succ_of_le hfull

theorem InPlace.agrees {x : Pass ρ α} (h : InPlace ρ α x) : Agrees o o' x := by
  cases h with
  | note | addProblems | updateType | recordCall =>
    refine Blind.agrees fun s a s' h => ?_
    cases h
    exact ⟨rfl, fun _ => rfl⟩
  | addType | declareType => exact (blind_onSymbols _).agrees
  | merge target source => exact (blind_merge target source).agrees
  | declareVariable scope name domain kind span =>
    exact agrees_declareVariable V V' scope name domain kind span
  | stack id =>
    refine ⟨fun {s s' a} h d => ?_, fun {s t s' a} T h => ?_⟩
    · cases h
      exact Nat.le_of_eq (Layout.count_stack ..).symm
    · cases h
      exact .inl ⟨_, rfl, ⟨T.work.symbols, T.work.layout.stack id⟩, T.report, T.problems⟩
  | addInternal name domain => exact agrees_addInternal V V' name domain

theorem Basic.agrees {x : Pass ρ α} (h : Basic ρ α x) : Agrees o o' x := by
  cases h with
  | inPlace h => exact h.agrees V V'
  | newScope | updateType | updateFunction =>
    refine Blind.agrees fun s a s' h => ?_
    cases h
    exact ⟨rfl, fun _ => rfl⟩
  | addFunction => exact (blind_onSymbols _).agrees
  | register f owner => exact (blind_register f owner).agrees

/-- A pass does the same on two targets as long as both have room. -/
theorem Stepwise.agrees {x : Pass ρ α} (h : Stepwise Basic x) : Agrees o o' x := by
  induction h with
  | pure a => exact (blind_pure a).agrees
  | throw _ =>
    constructor
    · intro s s' a h
      cases h
    · intro s t s' a T h
      cases h
  | symbols =>
    refine Blind.agrees fun s a s' h => ?_
    cases h
    exact ⟨rfl, fun _ => rfl⟩
  | bind _ _ ihx ihf => exact ihx.bind ihf
  | report _ ih =>
    refine ⟨fun {s s' a} h => (ih s.report).grows h, fun {s t s' a} T h => ?_⟩
    have hfollows := (ih s.report).follows T h
    rw [← T.report] at hfollows
    exact hfollows
  | step h => exact h.agrees V V'

/-- A workspace that is left by a pass differs on two targets only in where variables live. -/
theorem Stepwise.agrees_run {pass : Pass ρ Unit} (h : Stepwise Basic pass) (report : ρ) :
    Stackless.Agrees o' (Workspace.Twin o o') (·.layout) (pass.run report) := by
  have hagrees := h.agrees V V'
  have hrun : ∀ {w w' r}, pass.run report w = .ok r w' → ∃ s, pass { work := w, report } = .ok () s ∧
      w' = s.work ∧ r = (s.report, s.problems) := by
    intro w w' r hr
    simp only [run] at hr
    split at hr
    · rename_i s hs
      cases hr
      exact ⟨s, hs, rfl, rfl⟩
    · cases hr
  constructor
  · intro w w' r hr d
    obtain ⟨s, hs, rfl, _⟩ := hrun hr
    exact hagrees.grows hs d
  · intro w v w' r T hr
    obtain ⟨s, hs, rfl, rfl⟩ := hrun hr
    have TS : Stage.Twin o o' { work := w, report } { work := v, report } := ⟨T, rfl, rfl⟩
    rcases hagrees.follows TS hs with ⟨t, ht, T'⟩ | ⟨⟨f, t, ht, hf⟩, hroom⟩
    · refine .inl ⟨t.work, ?_, T'.work⟩
      simp only [run, ht, T'.report, T'.problems]
    · refine .inr ⟨⟨f, t.work, ?_, hf⟩, hroom⟩
      simp only [run, ht]

end Pass

/-! ## Targets with enough room -/

namespace Scopes

variable {s : Scopes} {id : ScopeId} {name : String} {span : Span} {f : Fault}

theorem declare_fault {symbol : Symbol} (h : s.declare id name symbol span = .error (.fault f)) :
    f.isExhaustion = false := by
  simp only [declare] at h
  repeat' split at h
  all_goals cases h
  rfl

theorem declareType_fault {key : Key} (h : s.declareType id name key span = .error (.fault f)) :
    f.isExhaustion = false := by
  simp only [declareType] at h
  repeat' split at h
  all_goals cases h
  rfl

theorem merge_fault {target source : ScopeId} (h : s.merge target source = .error f) :
    f.isExhaustion = false := by
  simp only [merge] at h
  repeat' split at h
  all_goals cases h
  all_goals rfl

end Scopes

namespace Pass

/-- The step does not end for want of storage. -/
def Harmless (x : Pass ρ α) : Prop := ∀ ⦃s f s'⦄, x s = .error f s' → f.isExhaustion = false

theorem Harmless.bind {x : Pass ρ α} {f : α → Pass ρ β} (hx : Harmless x)
    (hf : ∀ a, Harmless (f a)) : Harmless (x >>= f) := by
  intro s e s' h
  cases hfirst : x s with
  | ok a u => exact hf a ((bind_of_ok hfirst).symm.trans h)
  | error e' u =>
    cases (bind_of_error hfirst).symm.trans h
    exact hx hfirst

theorem harmless_onSymbols {change : Symbols → Except Refusal Symbols}
    (h : ∀ {symbols f}, change symbols = .error (.fault f) → f.isExhaustion = false) :
    Harmless (attempt (Workspace.onSymbols change) : Pass ρ (Option Unit)) := by
  intro s f s' hfails
  simp only [attempt, Workspace.onSymbols] at hfails
  cases hchange : change s.work.symbols with
  | ok symbols =>
    rw [hchange] at hfails
    cases hfails
  | error r =>
    rw [hchange] at hfails
    cases r with
    | problem p => cases hfails
    | fault f =>
      cases hfails
      exact h hchange

theorem harmless_onScopes {change : Scopes → Except Refusal Scopes}
    (h : ∀ {scopes f}, change scopes = .error (.fault f) → f.isExhaustion = false) :
    Harmless (attempt (Workspace.onScopes change) : Pass ρ (Option Unit)) := by
  refine harmless_onSymbols fun {symbols f} hfails => ?_
  cases hchange : change symbols.scopes with
  | ok scopes =>
    rw [hchange] at hfails
    cases hfails
  | error r =>
    rw [hchange] at hfails
    cases hfails
    exact h hchange

theorem harmless_addFunction (f : FunctionEntry) :
    Harmless (attempt (Workspace.addFunction f) : Pass ρ (Option Unit)) := by
  refine harmless_onSymbols fun {symbols e} h => ?_
  cases hadd : symbols.addFunction f <;> rw [hadd] at h <;> cases h

theorem harmless_merge (target source : ScopeId) :
    Harmless (lift (Workspace.merge target source) : Pass ρ Nat) := by
  intro s f s' h
  simp only [lift, Workspace.merge] at h
  cases hmerge : s.work.symbols.scopes.merge target source with
  | ok x =>
    rw [hmerge] at h
    cases h
  | error e =>
    rw [hmerge] at h
    cases h
    exact Scopes.merge_fault hmerge

theorem harmless_pure (a : α) : Harmless (pure a : Pass ρ α) := by
  intro s f s' h
  cases h

theorem harmless_register (f : FunctionEntry) (owner : ScopeId) :
    Harmless (Declare.register f owner) := by
  refine (harmless_addFunction f).bind fun r => ?_
  cases r with
  | none => exact harmless_pure _
  | some _ => exact (harmless_onScopes Scopes.declare_fault).bind fun _ => harmless_pure _

end Pass

/-- There is a number of variables such that a target with room for so many has room for all that
the step needs. -/
def Bounded {σ : Type} (R : Options → Options → σ → σ → Prop) (x : EStateM Fault σ α) : Prop :=
  ∀ (o : Options) (s : σ), o.validate = .ok () → ∃ n, ∀ ⦃o' t f t'⦄, o'.validate = .ok () →
    (∀ d, n ≤ o'.room d) → R o o' s t → x t = .error f t' → f.isExhaustion = false

/-- What the second step needs is found out on any target on which the first one succeeds. -/
theorem Bounded.bind {σ : Type} {R : Options → Options → σ → σ → Prop} {layout : σ → Layout}
    {x : EStateM Fault σ α} {f : α → EStateM Fault σ β} (hx : Bounded R x)
    (hf : ∀ a, Bounded R (f a))
    (hR : ∀ {o o₁ o₂ s t u}, R o o₁ s t → R o o₂ s u → R o₁ o₂ t u)
    (hagrees : ∀ {o o' : Options}, o.validate = .ok () → o'.validate = .ok () →
      Agrees o' (R o o') layout x) : Bounded R (x >>= f) := by
  intro o s V
  obtain ⟨n, hn⟩ := hx o s V
  by_cases hex : ∃ o₁ t₁ a u₁, o₁.validate = .ok () ∧ R o o₁ s t₁ ∧ x t₁ = .ok a u₁
  · obtain ⟨o₁, t₁, a, u₁, V₁, T₁, hfirst⟩ := hex
    obtain ⟨k, hk⟩ := hf a o₁ u₁ V₁
    refine ⟨max n k, fun o' t e t' V' hroom T hfails => ?_⟩
    rcases (hagrees V₁ V').follows (hR T₁ T) hfirst with ⟨u, hu, T'⟩ | ⟨⟨e', u, hu, hexhausts⟩, _⟩
    · have hrest : f a u = .error e t' := (bind_of_ok hu).symm.trans hfails
      exact hk V' (fun d => Nat.le_trans (Nat.le_max_right ..) (hroom d)) T' hrest
    · have hharmless := hn V' (fun d => Nat.le_trans (Nat.le_max_left ..) (hroom d)) T hu
      cases hexhausts.symm.trans hharmless
  · refine ⟨n, fun o' t e t' V' hroom T hfails => ?_⟩
    cases hu : x t with
    | ok a u => exact absurd ⟨o', t, a, u, V', T, hu⟩ hex
    | error e' u =>
      cases (bind_of_error hu).symm.trans hfails
      exact hn V' hroom T hu

namespace Pass

theorem Harmless.bounded {x : Pass ρ α} (h : Harmless x) : Bounded Stage.Twin x :=
  fun _ _ _ => ⟨0, fun _ _ _ _ _ _ _ hfails => h hfails⟩

/-- A location is handed out if there is room for one more variable. -/
theorem exists_location_of_room {s t : Stage ρ} (V' : o'.validate = .ok ()) (T : Stage.Twin o o' s t)
    {d : Domain} (h : s.work.layout.count d + 1 ≤ o'.room d) :
    ∃ location m, Layout.takeLocation d t.work.layout = .ok location m := by
  have hlt : t.work.layout.count d < t.work.layout.options.room d := by
    rw [T.work.layout.count_eq, T.work.layout.options']
    exact h
  obtain ⟨location, m, htake, _⟩ :=
    T.work.layout.filled'.exists_location (T.work.layout.options' ▸ V') hlt
  exact ⟨location, m, htake⟩

/-- With room for one more variable, a declaration does not run out of storage. -/
theorem bounded_declareVariable (scope : ScopeId) (name : String) (domain : Domain)
    (kind : VariableKind) (span : Span) :
    Bounded Stage.Twin (attempt (Workspace.declareVariable scope name domain kind span) :
      Pass ρ (Option VariableId)) := by
  intro o s V
  refine ⟨s.work.layout.count domain + 1, fun o' t f t' V' hroom T hfails => ?_⟩
  obtain ⟨location, m, htake⟩ := exists_location_of_room V' T (hroom domain)
  simp only [attempt, Workspace.declareVariable, htake] at hfails
  cases hold : (t.work.symbols.scopes.binding? scope name).filter (!·.inherited) with
  | some old =>
    rw [hold] at hfails
    cases hfails
  | none =>
    simp only [hold] at hfails
    cases hbind : t.work.symbols.scopes.declare scope name (.ofVariable m.nextId) span with
    | ok scopes =>
      rw [hbind] at hfails
      cases hfails
    | error r =>
      rw [hbind] at hfails
      cases r with
      | problem p => cases hfails
      | fault e =>
        cases hfails
        exact Scopes.declare_fault hbind

theorem bounded_addInternal (name : String) (domain : Domain) :
    Bounded Stage.Twin (lift (Workspace.addInternal name domain) : Pass ρ VariableId) := by
  intro o s V
  refine ⟨s.work.layout.count domain + 1, fun o' t f t' V' hroom T hfails => ?_⟩
  obtain ⟨location, m, htake⟩ := exists_location_of_room V' T (hroom domain)
  simp only [lift, Workspace.addInternal, Workspace.onLayout, Layout.addInternal, htake] at hfails
  cases hfails

theorem InPlace.bounded {x : Pass ρ α} (h : InPlace ρ α x) : Bounded Stage.Twin x := by
  cases h with
  | note | addProblems | updateType | recordCall | stack =>
    refine Harmless.bounded fun s f s' hfails => ?_
    cases hfails
  | @addType t =>
    refine (harmless_onSymbols fun {symbols e} h => ?_).bounded
    cases hadd : symbols.addType t <;> rw [hadd] at h <;> cases h
  | declareType => exact (harmless_onScopes Scopes.declareType_fault).bounded
  | merge target source => exact (harmless_merge target source).bounded
  | declareVariable scope name domain kind span =>
    exact bounded_declareVariable scope name domain kind span
  | addInternal name domain => exact bounded_addInternal name domain

theorem Basic.bounded {x : Pass ρ α} (h : Basic ρ α x) : Bounded Stage.Twin x := by
  cases h with
  | inPlace h => exact h.bounded
  | newScope | updateType | updateFunction =>
    refine Harmless.bounded fun s f s' hfails => ?_
    cases hfails
  | addFunction f => exact (harmless_addFunction f).bounded
  | register f owner => exact (harmless_register f owner).bounded

theorem Stepwise.bounded {x : Pass ρ α} (h : Stepwise Basic x) : Bounded Stage.Twin x := by
  induction h with
  | pure | symbols =>
    refine Harmless.bounded fun s f s' hfails => ?_
    cases hfails
  | throw hother =>
    refine Harmless.bounded fun s f s' hfails => ?_
    cases hfails
    exact hother
  | bind hx _ ihx ihf =>
    exact ihx.bind ihf (fun T₁ T₂ => T₁.symm.trans T₂) fun V V' => hx.agrees V V'
  | @report _ f _ ih =>
    intro o s V
    obtain ⟨n, hn⟩ := ih s.report o s V
    refine ⟨n, fun o' t e t' V' hroom T (hfails : f t.report t = .error e t') => ?_⟩
    rw [T.report] at hfails
    exact hn V' hroom T hfails
  | step h => exact h.bounded

theorem Stepwise.bounded_run {pass : Pass ρ Unit} (h : Stepwise Basic pass) (report : ρ) :
    Bounded Workspace.Twin (pass.run report) := by
  intro o w V
  obtain ⟨n, hn⟩ := h.bounded o { work := w, report } V
  refine ⟨n, fun o' v f v' V' hroom T hfails => ?_⟩
  simp only [run] at hfails
  split at hfails
  · cases hfails
  · rename_i e s hs
    cases hfails
    have TS : Stage.Twin o o' { work := w, report } { work := v, report } := ⟨T, rfl, rfl⟩
    exact hn V' hroom TS hs

end Pass

/-! ## The whole compilation -/

namespace Program

/-- The passes of a compilation: what they use, and all problems. -/
def passes (script : Script) : EStateM Fault Workspace (Usage × List Problem) := do
  let (declarations, first) ← Workspace.declare script
  let recursion ← Workspace.checkRecursion
  let (usage, last) ← Workspace.use declarations
  return (usage, first ++ recursion.problems ++ last)

/-- The program that the passes leave. -/
def ofPasses (w : Workspace) (r : Usage × List Problem) : Program where
  workspace := w
  references := r.1.references
  staging := r.1.staging
  diagnostics := r.2.map .ofProblem

theorem build_eq (script : Script) :
    build script = passes script >>= fun r => get >>= fun w => pure (ofPasses w r) := by
  simp only [build, passes, bind_assoc, pure_bind]
  rfl

variable {script : Script} {p q : Program} {w : Workspace} {r : Usage × List Problem} {f : Fault}

theorem compile_of_passes (V : o.validate = .ok ()) (h : passes script (.ofOptions o) = .ok r w) :
    compile script o = .ok (ofPasses w r) := by
  simp only [compile, V, build_eq, bind_of_ok h]
  rfl

theorem compile_of_fault (V : o.validate = .ok ()) (h : passes script (.ofOptions o) = .error f w) :
    compile script o = .error f := by
  simp only [compile, V, build_eq, bind_of_error h]

theorem exists_passes (V : o.validate = .ok ()) (h : compile script o = .ok p) :
    ∃ r w, passes script (.ofOptions o) = .ok r w ∧ p = ofPasses w r := by
  cases hpasses : passes script (.ofOptions o) with
  | ok r w =>
    cases (compile_of_passes V hpasses).symm.trans h
    exact ⟨r, w, rfl, rfl⟩
  | error f w => cases (compile_of_fault V hpasses).symm.trans h

/-- What the single passes leave of a script that compiles. -/
theorem exists_of_compile (h : compile script o = .ok p) :
    ∃ d first w u last w', Workspace.declare script (.ofOptions o) = .ok (d, first) w ∧
      Workspace.use d { w with symbols := w.symbols.checkRecursion.2 } = .ok (u, last) w' ∧
      p = ofPasses w' (u, first ++ w.symbols.checkRecursion.1.problems ++ last) := by
  obtain ⟨V, _⟩ := compile_ok h
  obtain ⟨r, w', hpasses, rfl⟩ := exists_passes V h
  obtain ⟨⟨d, first⟩, w, hdeclare, hrest⟩ := exists_of_bind hpasses
  obtain ⟨report, w₁, hcheck, hrest⟩ := exists_of_bind hrest
  cases hcheck
  obtain ⟨⟨u, last⟩, w₂, huse, hpure⟩ := exists_of_bind hrest
  cases hpure
  exact ⟨d, first, w, u, last, w', hdeclare, huse, rfl⟩

theorem agrees_checkRecursion :
    Agrees o' (Workspace.Twin o o') (·.layout) Workspace.checkRecursion := by
  refine ⟨fun h d => ?_, fun {s t s' a} T h => ?_⟩
  · cases h
    exact Nat.le_refl _
  · obtain ⟨symbols, layout⟩ := t
    cases T.symbols
    cases h
    exact .inl ⟨_, rfl, ⟨rfl, T.layout⟩⟩

theorem agrees_passes (V : o.validate = .ok ()) (V' : o'.validate = .ok ()) (script : Script) :
    Agrees o' (Workspace.Twin o o') (·.layout) (passes script) := by
  refine ((Declare.stepwise_script script).agrees_run V V' {}).bind fun d =>
    agrees_checkRecursion.bind fun _ =>
    ((Use.stepwise_declarations d.1).agrees_run V V' {}).bind fun _ => ⟨fun h d => ?_, fun T h => ?_⟩
  · cases h
    exact Nat.le_refl _
  · cases h
    exact .inl ⟨_, rfl, T⟩

/-- Some target has room for all variables of a script. -/
theorem exists_target (script : Script) :
    ∃ o : Options, o.validate = .ok () ∧ ∃ p, compile script o = .ok p := by
  have hR : ∀ {o o₁ o₂ : Options} {w v u : Workspace}, Workspace.Twin o o₁ w v →
      Workspace.Twin o o₂ w u → Workspace.Twin o₁ o₂ v u :=
    fun T₁ T₂ => ⟨T₂.symbols.trans T₁.symbols.symm, T₁.layout.symm.trans T₂.layout⟩
  have hbounded : Bounded Workspace.Twin (passes script) := by
    refine ((Declare.stepwise_script script).bounded_run {}).bind (fun d => ?_) hR fun V V' =>
      (Declare.stepwise_script script).agrees_run V V' {}
    refine Bounded.bind (fun _ _ _ => ⟨0, fun _ _ _ _ _ _ _ hfails => ?_⟩) (fun _ => ?_) hR
      fun _ _ => agrees_checkRecursion
    · cases hfails
    refine ((Use.stepwise_declarations d.1).bounded_run {}).bind
      (fun _ _ _ _ => ⟨0, fun _ _ _ _ _ _ _ hfails => ?_⟩) hR fun V V' =>
      (Use.stepwise_declarations d.1).agrees_run V V' {}
    cases hfails
  obtain ⟨n, hn⟩ := hbounded {} (.ofOptions {}) rfl
  let o : Options := { capacity := n + 1 }
  have V : o.validate = .ok () := rfl
  refine ⟨o, V, ?_⟩
  cases hpasses : passes script (.ofOptions o) with
  | ok r w => exact ⟨_, compile_of_passes V hpasses⟩
  | error f w =>
    have hroom : ∀ d, n ≤ o.room d := by
      intro d
      cases d <;> simp only [Options.room, o] <;> omega
    have hharmless := hn V hroom (Workspace.twin_start {} o) hpasses
    have hbuild : build script (.ofOptions o) = .error f w := by
      rw [build_eq, bind_of_error hpasses]
    obtain ⟨d, hf⟩ := (guards_build script o).faults rfl hbuild (Nat.le_refl 26)
    cases hf <;> cases hharmless

/-- A script that is compiled for one target is compiled to the same for another, or one of the
domains there has too little room. -/
theorem compile_target (V : o.validate = .ok ()) (V' : o'.validate = .ok ())
    (h : compile script o = .ok p) :
    (∃ q, compile script o' = .ok q ∧ Workspace.Twin o o' p.workspace q.workspace ∧
        q.references = p.references ∧ q.staging = p.staging ∧ q.diagnostics = p.diagnostics) ∨
      ((∃ f, compile script o' = .error f) ∧ ∃ d, o'.room d < p.layout.count d) := by
  obtain ⟨r, w, hpasses, rfl⟩ := exists_passes V h
  rcases (agrees_passes V V' script).follows (Workspace.twin_start o o') hpasses with
    ⟨w', hpasses', T'⟩ | ⟨⟨f, w', hfails, _⟩, hroom⟩
  · exact .inl ⟨_, compile_of_passes V' hpasses', T', rfl, rfl, rfl⟩
  · exact .inr ⟨⟨f, compile_of_fault V' hfails⟩, hroom⟩

theorem exists_compile_iff (V : o.validate = .ok ()) (V' : o'.validate = .ok ())
    (h : compile script o = .ok p) :
    (∃ q, compile script o' = .ok q) ↔ ∀ d, p.layout.count d ≤ o'.room d := by
  rcases compile_target V V' h with ⟨q, hq, T, _⟩ | ⟨⟨f, hf⟩, d, hroom⟩
  · refine ⟨fun _ d => ?_, fun _ => ⟨q, hq⟩⟩
    have hle := T.layout.filled'.le_room (T.layout.options' ▸ V') d
    rwa [T.layout.count_eq, T.layout.options'] at hle
  · refine ⟨fun ⟨q, hq⟩ => ?_, fun hle => absurd (hle d) (Nat.not_le.mpr hroom)⟩
    cases hf.symm.trans hq

/-- The options decide where variables live and nothing else. If a script is compiled for one
target, then it is compiled for another one exactly if each domain there has room for its variables,
and the two programs differ only in where variables live. -/
theorem compile_differs_in_places (V : o.validate = .ok ()) (V' : o'.validate = .ok ())
    (h : compile script o = .ok p) :
    ((∃ q, compile script o' = .ok q) ↔ ∀ d, p.layout.count d ≤ o'.room d) ∧
      ∀ q, compile script o' = .ok q →
        q.symbols = p.symbols ∧ q.references = p.references ∧ q.staging = p.staging ∧
        q.diagnostics = p.diagnostics ∧ q.errorCount = p.errorCount ∧
        q.warningCount = p.warningCount ∧
        q.layout.table.toList.map (·.facts) = p.layout.table.toList.map (·.facts) := by
  refine ⟨exists_compile_iff V V' h, fun q hq => ?_⟩
  rcases compile_target V V' h with ⟨q', hq', T, hreferences, hstaging, hdiagnostics⟩ | ⟨⟨f, hf⟩, _⟩
  · cases hq'.symm.trans hq
    rw [errorCount, errorCount, warningCount, warningCount, hdiagnostics]
    exact ⟨T.symbols, hreferences, hstaging, rfl, rfl, rfl, T.layout.facts⟩
  · cases hf.symm.trans hq

/-- Two parameters and the variable for arguments fill the three slots that a small target offers
besides the scratch slot. -/
theorem compile_differs_in_places_reentrant :
    (∃ q, compile .reentrant { slots := 4, packing := .wholeSlot } = .ok q ∧
      q.symbols = reentrant.symbols ∧ q.diagnostics = reentrant.diagnostics ∧
      q.layout.table.toList.map (·.facts) =
        [reentrantFirst.facts, reentrantSecond.facts, reentrantStaging.facts]) ∧
      ¬ ∃ q, compile .reentrant { slots := 3, packing := .wholeSlot } = .ok q := by
  have hcount : ∀ d, reentrant.layout.count d = if d = .global then 3 else 0 := by
    intro d
    rw [Layout.count, table_reentrant]
    cases d <;> rfl
  have hlarge : Options.validate { slots := 4, packing := .wholeSlot } = .ok () := rfl
  have hsmall : Options.validate { slots := 3, packing := .wholeSlot } = .ok () := rfl
  obtain ⟨hfits, hsame⟩ := compile_differs_in_places rfl hlarge compile_reentrant
  obtain ⟨q, hq⟩ := hfits.mpr fun d => by rw [hcount]; cases d <;> decide
  obtain ⟨hsymbols, _, _, hdiagnostics, _, _, hfacts⟩ := hsame q hq
  refine ⟨⟨q, hq, hsymbols, hdiagnostics, ?_⟩, fun hfits' => ?_⟩
  · rw [hfacts, table_reentrant]
    rfl
  · have hle := (compile_differs_in_places rfl hsmall compile_reentrant).1.mp hfits' .global
    rw [hcount] at hle
    exact absurd hle (by decide)

end Program

end Stackless
