import Stackless.Proofs.Additions
import Stackless.Proofs.Allocation
import Stackless.Proofs.Storage

/-!
# Declaring a variable is all or nothing

A declaration looks at the scope, takes a location, binds the name and enters the variable in the
table. It is refused before it changes anything (`Workspace.declareVariable_of_owns`), or it fails
for want of a location and then nothing has changed but the cursor of its domain, which is spent: no
request for a location of that domain is ever granted again, and each of them ends in the same fault
(`Layout.Spent.serveAll`). Otherwise all four steps are done.
-/

namespace Stackless

/-- The scope itself declared the name. -/
def Scopes.Owns (s : Scopes) (id : ScopeId) (name : String) : Prop :=
  ∃ b, s.binding? id name = some b ∧ b.inherited = false

theorem Scopes.filter_of_not_owns {s : Scopes} {id : ScopeId} {name : String}
    (h : ¬ s.Owns id name) : (s.binding? id name).filter (!·.inherited) = none := by
  rw [Option.filter_eq_none_iff]
  intro b hb hown
  exact h ⟨b, hb, by simpa using hown⟩

/-! ## Spent storage -/

namespace Region

variable {r : Region} {c c' : Cursor} {f : Fault}

/-- Nothing is left, and every request ends in the fault. -/
structure Spent (r : Region) (f : Fault) (c : Cursor) : Prop where
  rest : r.rest c = []
  refusal : r.refusal c = f

theorem Spent.congr (S : r.Spent f c) (hf : c'.filling = c.filling)
    (ha : r.ahead c'.passed = r.ahead c.passed) : r.Spent f c' where
  rest := (rest_congr hf ha).trans S.rest
  refusal := by
    rw [← S.refusal]
    simp only [Region.refusal, hf]

/-- A request fails only if nothing is left. -/
theorem spent_of_takeLocation (V : r.Valid) (h : r.takeLocation c = .error f c') :
    r.Spent f c' := by
  cases hrest : r.rest c with
  | nil =>
    obtain ⟨c'', htake, hf, ha⟩ := takeLocation_of_nil V hrest
    cases h.symm.trans htake
    exact Spent.congr ⟨hrest, rfl⟩ hf ha
  | cons l ls =>
    obtain ⟨_, htake, -⟩ := takeLocation_of_cons V hrest
    cases h.symm.trans htake

theorem Spent.takeLocation (V : r.Valid) (S : r.Spent f c) :
    ∃ c', r.takeLocation c = .error f c' ∧ r.Spent f c' := by
  obtain ⟨c', htake, hf, ha⟩ := takeLocation_of_nil V S.rest
  exact ⟨c', S.refusal ▸ htake, S.congr hf ha⟩

theorem Spent.takeSlot (V : r.Valid) (S : r.Spent f c) : r.Spent f (stateAfter (r.takeSlot c)) := by
  obtain ⟨c', htake, hf, ha⟩ := takeSlot_of_nil V (ahead_of_rest_nil V S.rest)
  rw [htake]
  exact S.congr hf ha

end Region

namespace Layout

variable {o : Options} {l l' : Layout} {d d' : Domain} {f : Fault}

/-- Under the options, a domain has nothing left. -/
structure Spent (l : Layout) (o : Options) (d : Domain) (f : Fault) : Prop where
  options : l.options = o
  cursor : (o.region d).Spent f (l.cursor d)

/-- A step on one cursor leaves the other as it is. -/
theorem Spent.setCursor (S : l.Spent o d f) {c : Cursor}
    (hc : d' = d → (o.region d).Spent f c) : (l.setCursor d' c).Spent o d f where
  options := (setCursor_options ..).trans S.options
  cursor := by
    rw [cursor_setCursor]
    split
    · rename_i hd
      exact hc hd
    · exact S.cursor

theorem stateAfter_onCursor {α : Type} (d : Domain) (step : EStateM Fault Cursor α) (l : Layout) :
    stateAfter (onCursor d step l) = l.setCursor d (stateAfter (step (l.cursor d))) := by
  simp only [onCursor]
  cases step (l.cursor d) <;> rfl

theorem Spent.stateAfter_takeSlot (V : o.validate = .ok ()) (S : l.Spent o d f) (d' : Domain) :
    (stateAfter (Layout.takeSlot d' l)).Spent o d f := by
  rw [Layout.takeSlot, stateAfter_onCursor]
  refine S.setCursor fun hd => ?_
  rw [hd, S.options]
  exact S.cursor.takeSlot (Options.region_valid V d)

theorem Spent.takeLocation (V : o.validate = .ok ()) (S : l.Spent o d f) :
    ∃ l', Layout.takeLocation d l = .error f l' ∧ l'.Spent o d f := by
  obtain ⟨c, htake, hc⟩ := S.cursor.takeLocation (Options.region_valid V d)
  refine ⟨l.setCursor d c, ?_, S.setCursor fun _ => hc⟩
  simp only [Layout.takeLocation, onCursor, S.options, htake]

theorem Spent.stateAfter_takeLocation (V : o.validate = .ok ()) (S : l.Spent o d f) (d' : Domain) :
    (stateAfter (Layout.takeLocation d' l)).Spent o d f := by
  rw [Layout.takeLocation, stateAfter_onCursor]
  refine S.setCursor fun hd => ?_
  obtain ⟨c, htake, hc⟩ := S.cursor.takeLocation (Options.region_valid V d)
  rw [hd, S.options, htake]
  exact hc

/-- Entering a variable takes no storage. -/
theorem Spent.push (S : l.Spent o d f) (v : Variable) : (l.push v).Spent o d f :=
  ⟨S.options, S.cursor⟩

theorem spent_of_takeLocation (V : l.options.validate = .ok ())
    (h : Layout.takeLocation d l = .error f l') : l'.Spent l.options d f := by
  simp only [Layout.takeLocation, onCursor] at h
  split at h
  · cases h
  · rename_i htake
    cases h
    refine ⟨setCursor_options .., ?_⟩
    rw [cursor_setCursor, if_pos rfl]
    exact Region.spent_of_takeLocation (Options.region_valid V d) htake

/-- No request changes that a domain is spent. -/
theorem Spent.serve (V : o.validate = .ok ()) (S : l.Spent o d f) (r : StorageRequest) :
    (r.serve l).2.Spent o d f := by
  cases r with
  | slot d' =>
    have h := S.stateAfter_takeSlot V d'
    simp only [StorageRequest.serve]
    split <;> rename_i htake <;> rw [htake] at h <;> exact h
  | location d' =>
    have h := S.stateAfter_takeLocation V d'
    simp only [StorageRequest.serve]
    split <;> rename_i htake <;> rw [htake] at h <;> exact h
  | internal name d' =>
    have h := S.stateAfter_takeLocation V d'
    simp only [StorageRequest.serve, addInternal]
    cases htake : Layout.takeLocation d' l <;> rw [htake] at h
    · exact h.push _
    · exact h
  | declaration symbols scope name d' kind span =>
    have h := S.stateAfter_takeLocation V d'
    simp only [StorageRequest.serve, Workspace.declareVariable]
    cases (symbols.scopes.binding? scope name).filter (!·.inherited) with
    | some b => exact S
    | none =>
      cases htake : Layout.takeLocation d' l with
      | error f l' =>
        rw [htake] at h
        exact h
      | ok p l' =>
        rw [htake] at h
        dsimp only
        cases symbols.scopes.declare scope name (.ofVariable l'.nextId) span with
        | error r => exact h
        | ok scopes => exact h.push _

theorem Spent.serveAll (V : o.validate = .ok ()) (S : l.Spent o d f) (rs : List StorageRequest) :
    (StorageRequest.serveAll rs l).2.Spent o d f := by
  induction rs generalizing l with
  | nil => exact S
  | cons r rs ih => exact ih (S.serve V r)

end Layout

/-! ## Declarations -/

namespace Layout

variable {l l' : Layout} {d : Domain} {f : Fault}

/-- Failing to hand out a location moves one cursor. -/
theorem takeLocation_fails (h : Layout.takeLocation d l = .error f l') :
    ∃ c, l' = l.setCursor d c := by
  refine ⟨_, .trans ?_ (stateAfter_onCursor d (l.options.region d).takeLocation l)⟩
  exact congrArg stateAfter h.symm

theorem takeLocation_grants {p : Location} (h : Layout.takeLocation d l = .ok p l') :
    p.domain = d ∧ ∃ c, l' = l.setCursor d c := by
  refine ⟨takeLocation_domain h, _,
    .trans ?_ (stateAfter_onCursor d (l.options.region d).takeLocation l)⟩
  exact congrArg stateAfter h.symm

theorem cursor_setCursor_of_ne {d' : Domain} {c : Cursor} (h : d' ≠ d) :
    (l.setCursor d c).cursor d' = l.cursor d' := by
  rw [cursor_setCursor, if_neg h.symm]

end Layout

namespace Workspace

variable {w w' : Workspace} {scope : ScopeId} {name : String} {domain : Domain}
  {kind : VariableKind} {span : Span} {f : Fault}

/-- Nothing has changed but that a domain has no location left: every later request for one, of
whatever kind and whatever is requested before it, ends in the same fault. -/
structure Starves (w : Workspace) (domain : Domain) (f : Fault) (w' : Workspace) : Prop where
  symbols : w'.symbols = w.symbols
  table : w'.layout.table = w.layout.table
  options : w'.layout.options = w.layout.options
  other : ∀ d, d ≠ domain → w'.layout.cursor d = w.layout.cursor d
  location : ∀ later, ∃ l, Layout.takeLocation domain (StorageRequest.serveAll later w'.layout).2 =
    .error f l
  internal : ∀ later name, ∃ l,
    Layout.addInternal name domain (StorageRequest.serveAll later w'.layout).2 = .error f l
  declaration : ∀ later symbols scope name kind span, ¬ symbols.scopes.Owns scope name →
    ∃ v, declareVariable scope name domain kind span
      { symbols, layout := (StorageRequest.serveAll later w'.layout).2 } = .error (.fault f) v

/-- The variable is new in the table, and its name is bound in the scope; nothing else has changed
but that it took a location of its domain. -/
structure Enters (w : Workspace) (scope : ScopeId) (v : Variable) (w' : Workspace) : Prop where
  table : w'.layout.table = w.layout.table.push v
  fresh : w.layout.get? v.id = none
  entered : w'.layout.get? v.id = some v
  options : w'.layout.options = w.layout.options
  other : ∀ d, d ≠ v.location.domain → w'.layout.cursor d = w.layout.cursor d
  symbols : w'.symbols = { w.symbols with scopes := w'.symbols.scopes }
  changes : w.symbols.scopes.Changes scope w'.symbols.scopes
  types : ∀ id name, w'.symbols.scopes.type? id name = w.symbols.scopes.type? id name
  bindings : ∀ id name, w'.symbols.scopes.binding? id name =
    if scope = id ∧ v.name = name then
      some { symbol := .ofVariable v.id, span := v.span, inherited := false }
    else w.symbols.scopes.binding? id name

theorem declareVariable_of_owns {b : Binding} (hb : w.symbols.scopes.binding? scope name = some b)
    (hown : b.inherited = false) : declareVariable scope name domain kind span w =
      .error (.problem (.redeclared name b.span span)) w := by
  simp only [declareVariable, hb]
  rw [Option.filter_some_pos (by simp [hown])]

theorem declareVariable_of_fails {l : Layout} (hown : ¬ w.symbols.scopes.Owns scope name)
    (htake : Layout.takeLocation domain w.layout = .error f l) :
    declareVariable scope name domain kind span w = .error (.fault f) { w with layout := l } := by
  simp only [declareVariable, Scopes.filter_of_not_owns hown, htake]

/-- The domain is spent from the failure on. -/
theorem starves_of_fails {l : Layout} (V : w.layout.options.validate = .ok ())
    (htake : Layout.takeLocation domain w.layout = .error f l) :
    w.Starves domain f { w with layout := l } := by
  have S := Layout.spent_of_takeLocation V htake
  have hlocation (later : List StorageRequest) := (S.serveAll V later).takeLocation V
  obtain ⟨c, rfl⟩ := Layout.takeLocation_fails htake
  refine ⟨rfl, Layout.setCursor_table .., Layout.setCursor_options .., ?_, ?_, ?_, ?_⟩
  · exact fun d hd => Layout.cursor_setCursor_of_ne hd
  · intro later
    obtain ⟨l, htake, -⟩ := hlocation later
    exact ⟨l, htake⟩
  · intro later name
    obtain ⟨l, htake, -⟩ := hlocation later
    exact ⟨l, by simp only [Layout.addInternal, htake]⟩
  · intro later symbols scope name kind span hown
    obtain ⟨l, htake, -⟩ := hlocation later
    exact ⟨_, declareVariable_of_fails hown htake⟩

theorem enters_of_declare {l : Layout} {p : Location} {scopes : Scopes} (kind : VariableKind)
    (htake : Layout.takeLocation domain w.layout = .ok p l)
    (hbind : w.symbols.scopes.declare scope name (.ofVariable l.nextId) span = .ok scopes) :
    let v : Variable := { id := l.nextId, name, location := p, kind, scope := some scope, span }
    p.domain = domain ∧
      w.Enters scope v { symbols := { w.symbols with scopes }, layout := l.push v } := by
  intro v
  obtain ⟨hdomain, c, rfl⟩ := Layout.takeLocation_grants htake
  obtain ⟨hchanges, -, hbindings⟩ := Scopes.declare_ok hbind
  refine ⟨hdomain, ?_⟩
  constructor
  case table => exact congrArg (·.push v) (Layout.setCursor_table ..)
  case fresh => simp [Layout.get?, v, Layout.nextId]
  case entered => rw [Layout.get?_push, if_pos rfl]
  case options => exact Layout.setCursor_options ..
  case other => exact fun d hd => Layout.cursor_setCursor_of_ne (hdomain ▸ hd)
  case symbols => rfl
  case changes => exact hchanges
  case types => exact Scopes.type?_declare hbind
  case bindings => exact hbindings

/-- A name that the scope did not declare itself can be bound there. -/
theorem exists_declare (hscope : scope.index < w.symbols.scopes.size)
    (hown : ¬ w.symbols.scopes.Owns scope name) (symbol : Symbol) (span : Span) :
    ∃ scopes, w.symbols.scopes.declare scope name symbol span = .ok scopes := by
  cases hbind : w.symbols.scopes.declare scope name symbol span with
  | ok scopes => exact ⟨scopes, rfl⟩
  | error r =>
    cases r with
    | fault f => exact absurd hbind (Scopes.declare_ne_fault hscope)
    | problem p =>
      obtain ⟨b, hb, hinh, -⟩ := Scopes.declare_refused hbind
      exact absurd ⟨b, hb, hinh⟩ hown

/-- The ways in which a declaration can end. -/
theorem declareVariable_cases (V : w.layout.options.validate = .ok ())
    (hscope : scope.index < w.symbols.scopes.size) (name : String) (domain : Domain)
    (kind : VariableKind) (span : Span) :
    let result := declareVariable scope name domain kind span w
    (w.symbols.scopes.Owns scope name ∧ ∃ b, w.symbols.scopes.binding? scope name = some b ∧
        result = .error (.problem (.redeclared name b.span span)) w) ∨
      ¬ w.symbols.scopes.Owns scope name ∧
        ((∃ f w', result = .error (.fault f) w' ∧ w.Starves domain f w') ∨
          ∃ id w' location, result = .ok id w' ∧ location.domain = domain ∧
            w.Enters scope { id, name, location, kind, scope := some scope, span } w') := by
  by_cases hown : w.symbols.scopes.Owns scope name
  · refine .inl ⟨hown, ?_⟩
    obtain ⟨b, hb, hinh⟩ := hown
    exact ⟨b, hb, declareVariable_of_owns hb hinh⟩
  · refine .inr ⟨hown, ?_⟩
    cases htake : Layout.takeLocation domain w.layout with
    | error f l =>
      exact .inl ⟨f, _, declareVariable_of_fails hown htake, starves_of_fails V htake⟩
    | ok p l =>
      obtain ⟨scopes, hbind⟩ := exists_declare hscope hown (.ofVariable l.nextId) span
      obtain ⟨hdomain, E⟩ := enters_of_declare kind htake hbind
      refine .inr ⟨l.nextId, _, p, ?_, hdomain, E⟩
      simp only [declareVariable, Scopes.filter_of_not_owns hown, htake, hbind]

/-- A declaration is refused exactly if the scope itself declared the name, and then nothing has
changed. If it fails, nothing has changed but that no location of its domain is left. If it succeeds,
the variable is in the table and its name is bound, also where a binding had been taken over. -/
theorem declareVariable_all_or_nothing (V : w.layout.options.validate = .ok ())
    (hscope : scope.index < w.symbols.scopes.size) (name : String) (domain : Domain)
    (kind : VariableKind) (span : Span) :
    let result := declareVariable scope name domain kind span w
    ((∃ p w', result = .error (.problem p) w') ↔ w.symbols.scopes.Owns scope name) ∧
      (∀ p w', result = .error (.problem p) w' → w' = w ∧
        ∃ b, w.symbols.scopes.binding? scope name = some b ∧ p = .redeclared name b.span span) ∧
      (∀ f w', result = .error (.fault f) w' → w.Starves domain f w') ∧
      ∀ id w', result = .ok id w' → ∃ location, location.domain = domain ∧
        w.Enters scope { id, name, location, kind, scope := some scope, span } w' := by
  intro result
  rcases declareVariable_cases V hscope name domain kind span with
    ⟨hown, b, hb, hresult⟩ | ⟨hown, ⟨f, w', hresult, hstarves⟩ | ⟨id, w', p, hresult, hdomain, E⟩⟩ <;>
    simp only [result, hresult]
  · refine ⟨⟨fun _ => hown, fun _ => ⟨_, _, rfl⟩⟩, ?_, by simp, by simp⟩
    rintro _ _ ⟨⟩
    exact ⟨rfl, b, hb, rfl⟩
  · refine ⟨⟨by simp, fun h => absurd h hown⟩, by simp, ?_, by simp⟩
    rintro _ _ ⟨⟩
    exact hstarves
  · refine ⟨⟨by simp, fun h => absurd h hown⟩, by simp, by simp, ?_⟩
    rintro _ _ ⟨⟩
    exact ⟨p, hdomain, E⟩

/-- The only usable slot holds a single item, which the first declaration takes: the second one
starves. -/
theorem declareVariable_all_or_nothing_full :
    let o : Options := { slots := 2, capacity := 1 }
    let w := stateAfter (declareVariable .root "a" .global .declared {} (.ofOptions o))
    let f : Fault := .arrayFull .global ⟨⟨0, by decide⟩⟩ 1
    w.layout.options.validate = .ok () ∧ ScopeId.root.index < w.symbols.scopes.size ∧
      ∃ w', declareVariable .root "b" .global .declared {} w = .error (.fault f) w' ∧
        w.Starves .global f w' := by
  intro o w f
  have V : w.layout.options.validate = .ok () := rfl
  have hscope : ScopeId.root.index < w.symbols.scopes.size := by decide +kernel
  obtain ⟨-, -, hfault, -⟩ := declareVariable_all_or_nothing V hscope "b" .global .declared {}
  have hresult : ∃ w', declareVariable .root "b" .global .declared {} w = .error (.fault f) w' :=
    ⟨_, rfl⟩
  obtain ⟨w', hresult⟩ := hresult
  exact ⟨V, hscope, w', hresult, hfault f w' hresult⟩

end Workspace

end Stackless
