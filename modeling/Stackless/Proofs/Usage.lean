import Stackless.Proofs.Declarations

/-!
# Where the parameters of functions end up

The bodies of a script are worked off in the order of their functions. A function whose body is
done has one variable for each of its parameter names, bound in the scope of the body
(`FunctionEntry.Placed`); what comes later neither moves nor unbinds it (`Workspace.Keeps`). A
variable holds frames only if it is a parameter of a function that keeps frames.
-/

namespace Stackless

theorem nodup_of_forall₂_left {α β : Type} {R : α → β → Prop} {as : List α} {bs : List β}
    (H : List.Forall₂ R as bs) (hR : ∀ a b b', R a b → R a b' → b = b') (hnd : bs.Nodup) :
    as.Nodup := by
  induction H with
  | nil => exact .nil
  | @cons a b as bs h H ih =>
    obtain ⟨hb, hnd⟩ := List.nodup_cons.mp hnd
    refine List.nodup_cons.mpr ⟨fun ha => ?_, ih hnd⟩
    obtain ⟨b', hb', h'⟩ := exists_of_forall₂_left H ha
    exact hb (hR a b b' h h' ▸ hb')

structure Variable.IsParameter (v : Variable) (scope : ScopeId) (name : String) : Prop where
  name : v.name = name
  kind : v.kind = .parameter
  domain : v.location.domain = .global
  scope : v.scope = some scope

namespace Workspace

variable {w w' : Workspace} {scope : ScopeId} {v : Variable}

/-- A scope binds the name of a parameter to its variable. -/
structure HasParameter (w : Workspace) (scope : ScopeId) (stacked : Bool) (id : VariableId)
    (name : String) : Prop where
  entry : ∃ v, w.layout.get? id = some v ∧ v.IsParameter scope name ∧ v.stacked = stacked
  bound : ∃ span, w.symbols.scopes.binding? scope name = some { symbol := .ofVariable id, span }

structure Keeps (w w' : Workspace) : Prop where
  entries : ∀ {id v}, w.layout.get? id = some v → w'.layout.get? id = some v
  bindings : ∀ {scope name b}, w.symbols.scopes.binding? scope name = some b →
    b.inherited = false → w'.symbols.scopes.binding? scope name = some b

theorem HasParameter.mono {stacked : Bool} {id : VariableId} {name : String} (K : w.Keeps w')
    (H : w.HasParameter scope stacked id name) : w'.HasParameter scope stacked id name where
  entry := by
    obtain ⟨v, hv, hrest⟩ := H.entry
    exact ⟨v, K.entries hv, hrest⟩
  bound := by
    obtain ⟨span, hb⟩ := H.bound
    exact ⟨span, K.bindings hb rfl⟩

theorem Declares.keeps (D : w.Declares scope v w') : w.Keeps w' where
  entries {id u} hu := by
    rw [D.table, if_neg, hu]
    rintro rfl
    cases D.fresh.symm.trans hu
  bindings {scope' name b} hb hown := by
    obtain ⟨_, hold, hnew⟩ := Scopes.declare_ok D.bound
    rw [hnew, if_neg, hb]
    rintro ⟨rfl, rfl⟩
    cases hown.symm.trans (hold b hb)

/-- A parameter can hold frames from the start. -/
theorem Declares.stack (D : w.Declares scope v w') :
    w.Declares scope { v with stacked := true }
      { w' with layout := w'.layout.stack v.id } where
  inv := D.inv.stack _
  options := D.options
  fresh := D.fresh
  table id := by
    change (w'.layout.stack v.id).get? id = _
    rw [Layout.get?_stack, D.table]
    by_cases h : id = v.id
    · simp [h]
    · rw [if_neg (Ne.symm h), if_neg h, if_neg h]
  symbols := D.symbols
  bound := D.bound

/-- The names in `done` are the ones that a scope binds, each to the variable of a parameter. -/
structure Opened (w : Workspace) (scope : ScopeId) (stacked : Bool) (done : List String)
    (ids : List VariableId) : Prop where
  held : List.Forall₂ (w.HasParameter scope stacked) ids done.eraseDups
  bound : ∀ {name b}, w.symbols.scopes.binding? scope name = some b → name ∈ done

theorem Opened.exists_id {stacked : Bool} {done : List String} {ids : List VariableId}
    (O : w.Opened scope stacked done ids) {name : String} (h : name ∈ done) :
    ∃ id, w.HasParameter scope stacked id name := by
  obtain ⟨id, _, hid⟩ := exists_of_forall₂_right O.held (List.mem_eraseDups.mpr h)
  exact ⟨id, hid⟩

theorem Opened.skip {stacked : Bool} {done : List String} {ids : List VariableId}
    (O : w.Opened scope stacked done ids) {name : String} (h : name ∈ done) :
    w.Opened scope stacked (done ++ [name]) ids where
  held := by
    rw [CallLog.eraseDups_concat_of_mem h]
    exact O.held
  bound hb := List.mem_append_left _ (O.bound hb)

theorem Opened.add {stacked : Bool} {done : List String} {ids : List VariableId}
    (O : w.Opened scope stacked done ids) (D : w.Declares scope v w') {name : String}
    (hv : v.IsParameter scope name) (hstacked : v.stacked = stacked) :
    w'.Opened scope stacked (done ++ [name]) (ids ++ [v.id]) := by
  obtain rfl := hv.name
  obtain ⟨_, hold, hnew⟩ := Scopes.declare_ok D.bound
  have hdone : v.name ∉ done := by
    intro h
    obtain ⟨id, H⟩ := O.exists_id h
    obtain ⟨span, hb⟩ := H.bound
    cases hold _ hb
  refine ⟨?_, fun {name b} hb => ?_⟩
  · rw [CallLog.eraseDups_concat_of_not_mem hdone]
    refine List.rel_append (O.held.imp fun _ _ h => h.mono D.keeps) (.cons ⟨?_, ?_⟩ .nil)
    · exact ⟨v, by rw [D.table, if_pos rfl], hv, hstacked⟩
    · exact ⟨v.span, by rw [hnew, if_pos ⟨rfl, rfl⟩]⟩
  · rw [hnew] at hb
    split at hb
    · rename_i h
      simp [h.2]
    · exact List.mem_append_left _ (O.bound hb)

end Workspace

namespace FunctionEntry

/-- What a function is apart from the variables of its parameters. -/
def signature (f : FunctionEntry) : FunctionEntry := { f with parameters := [] }

/-- Each parameter name of the function has its variable, in the order of first occurrences. -/
structure Placed (w : Workspace) (f : FunctionEntry) (b : Body) : Prop extends f.Matches b where
  parameters : List.Forall₂ (w.HasParameter b.scope f.stacked) f.parameters f.params.eraseDups

theorem Placed.mono {w w' : Workspace} {f : FunctionEntry} {b : Body} (K : w.Keeps w')
    (H : f.Placed w b) : f.Placed w' b :=
  ⟨H.toMatches, H.parameters.imp fun _ _ h => h.mono K⟩

end FunctionEntry

/-- The workspace while bodies are worked off. The functions of `placed` are done, those of
`waiting` are not begun, and in between the parameters of `pending` are being declared; `opened`
lists the variables that they got so far. -/
structure Workspace.Used (w : Workspace) (o : Options) (base : Symbols) (placed : List Body)
    (pending : List FunctionEntry) (waiting : List Body) (opened : List VariableId) : Prop where
  layout : w.layout.Inv
  options : w.layout.options = o
  calls : w.symbols.calls = base.calls
  signatures : w.symbols.functions.map (·.signature) = base.functions
  entries : ∃ fs gs, w.symbols.functions = fs ++ (pending ++ gs) ∧
    List.Forall₂ (FunctionEntry.Placed w) fs placed ∧
    List.Forall₂ FunctionEntry.Matches gs waiting ∧ ∀ g ∈ pending ++ gs, g.parameters = []
  fresh : ∀ b ∈ waiting, ∃ scope, w.symbols.scopes.get? b.scope = some scope ∧
    scope.bindings = {}
  distinct : (waiting.map (·.scope)).Nodup
  stacked : ∀ {id v}, w.layout.get? id = some v → v.stacked = true →
    id ∈ opened ∨ ∃ f ∈ w.symbols.functions, f.stacked = true ∧ id ∈ f.parameters

namespace Workspace.Used

variable {w w' : Workspace} {o : Options} {base : Symbols} {placed waiting : List Body}
  {pending : List FunctionEntry} {opened : List VariableId} {scope : ScopeId} {v : Variable}
  {f : FunctionEntry} {b : Body}

theorem declares (U : w.Used o base placed pending waiting opened) (D : w.Declares scope v w')
    (hscope : scope ∉ waiting.map (·.scope)) {opened' : List VariableId}
    (hsub : opened ⊆ opened') (hv : v.stacked = true → v.id ∈ opened') :
    w'.Used o base placed pending waiting opened' := by
  have hfunctions : w'.symbols.functions = w.symbols.functions := by rw [D.symbols]
  refine ⟨D.inv, D.options.trans U.options, ?_, ?_, ?_, fun b hb => ?_, U.distinct, ?_⟩
  · rw [D.symbols]
    exact U.calls
  · rw [hfunctions]
    exact U.signatures
  · obtain ⟨fs, gs, hfs, hplaced, hrest⟩ := U.entries
    exact ⟨fs, gs, hfunctions.trans hfs, hplaced.imp fun _ _ h => h.mono D.keeps, hrest⟩
  · obtain ⟨old, hold, hempty⟩ := U.fresh b hb
    refine ⟨old, ((Scopes.declare_ok D.bound).1.others ?_).trans hold, hempty⟩
    rintro rfl
    exact hscope (List.mem_map_of_mem hb)
  · intro id u hu hs
    rw [D.table] at hu
    rw [hfunctions]
    split at hu
    · rename_i he
      cases hu
      exact .inl (he ▸ hv hs)
    · exact (U.stacked hu hs).imp (fun h => hsub h) fun h => h

theorem newScope (U : w.Used o base placed pending waiting opened) (parent : ScopeId)
    (kind : ScopeKind) (name : String) :
    ({ w with symbols := { w.symbols with
      scopes := w.symbols.scopes.child parent kind name } } : Workspace).Used o base placed
      pending waiting opened where
  layout := U.layout
  options := U.options
  calls := U.calls
  signatures := U.signatures
  entries := by
    obtain ⟨fs, gs, hfs, hplaced, hrest⟩ := U.entries
    refine ⟨fs, gs, hfs, hplaced.imp fun f b h => ?_, hrest⟩
    refine h.mono (w := w) ⟨fun hv => hv, fun hb _ => ?_⟩
    exact (Scopes.binding?_child ..).trans hb
  fresh b hb := by
    obtain ⟨scope, hscope, hempty⟩ := U.fresh b hb
    exact ⟨scope, Scopes.get?_child_of_get? hscope .., hempty⟩
  distinct := U.distinct
  stacked := U.stacked

/-- A scope that is created now belongs to no body that waits. -/
theorem nextId_not_mem (U : w.Used o base placed pending waiting opened) :
    w.symbols.scopes.nextId ∉ waiting.map (·.scope) := by
  intro h
  obtain ⟨b, hb, he⟩ := List.mem_map.mp h
  obtain ⟨scope, hscope, _⟩ := U.fresh b hb
  exact Scopes.ne_nextId hscope he

theorem keys (U : w.Used o base placed pending waiting opened) :
    w.symbols.functions.map (·.key) = base.functions.map (·.key) := by
  rw [← U.signatures, List.map_map]
  rfl

/-- The next function begins. -/
theorem begin (U : w.Used o base placed [] (b :: waiting) opened) :
    ∃ f, f ∈ w.symbols.functions ∧ f.Matches b ∧ w.Used o base placed [f] waiting opened ∧
      b.scope ∉ waiting.map (·.scope) := by
  obtain ⟨fs, gs, hfs, hplaced, hmatch, hnil⟩ := U.entries
  cases hmatch with
  | @cons f _ gs _ hf hgs =>
    have hdistinct := List.nodup_cons.mp U.distinct
    refine ⟨f, by simp [hfs], hf, { U with
      entries := ⟨fs, gs, by simpa using hfs, hplaced, hgs, by simpa using hnil⟩
      fresh := fun b hb => U.fresh b (List.mem_cons_of_mem _ hb)
      distinct := hdistinct.2 }, hdistinct.1⟩

/-- The entry of the pending function is the only one that gets parameters. -/
theorem functions_place {fs gs : List FunctionEntry}
    (hnd : ((fs ++ ([f] ++ gs)).map (·.key)).Nodup) (ids : List VariableId) :
    (fs ++ ([f] ++ gs)).map (fun g => if g.key = f.key then { g with parameters := ids } else g) =
      fs ++ ([{ f with parameters := ids }] ++ gs) := by
  simp only [List.map_append, List.map_cons, List.map_nil, List.nodup_append, List.mem_append,
    List.mem_singleton] at hnd
  have hfs : ∀ g ∈ fs, g.key ≠ f.key := fun g hg =>
    hnd.2.2 _ (List.mem_map_of_mem hg) _ (.inl rfl)
  have hgs : ∀ g ∈ gs, g.key ≠ f.key := fun g hg he =>
    hnd.2.1.2.2 _ rfl _ (List.mem_map_of_mem hg) he.symm
  rw [List.map_append, List.map_append, List.map_congr_left fun g hg => if_neg (hfs g hg),
    List.map_congr_left fun g hg => if_neg (hgs g hg)]
  simp

/-- All parameters of the pending function are declared. -/
theorem place (U : w.Used o base placed [f] waiting opened)
    (hkeys : (base.functions.map (·.key)).Nodup) (hmatch : f.Matches b)
    (hparams : List.Forall₂ (w.HasParameter b.scope f.stacked) opened f.params.eraseDups) :
    ({ w with symbols := w.symbols.updateFunction b.function ({ · with parameters := opened }) } :
      Workspace).Used o base (placed ++ [b]) [] waiting [] := by
  obtain ⟨fs, gs, hfs, hplaced, hwait, hnil⟩ := U.entries
  have hfunctions : (w.symbols.updateFunction b.function
      fun f => { f with parameters := opened }).functions =
      fs ++ ([{ f with parameters := opened }] ++ gs) := by
    rw [Symbols.updateFunction, hmatch.key, hfs]
    exact functions_place (by rw [← hfs, U.keys]; exact hkeys) opened
  refine ⟨U.layout, U.options, U.calls, ?_, ?_, U.fresh, U.distinct, fun {id v} hv hs => ?_⟩
  · rw [← U.signatures, hfs, hfunctions]
    simp [FunctionEntry.signature]
  · refine ⟨fs ++ [{ f with parameters := opened }], gs, by simp [hfunctions], ?_, hwait,
      fun g hg => hnil g (List.mem_append_right _ hg)⟩
    refine List.rel_append (hplaced.imp fun _ _ h => ⟨h.toMatches, h.parameters.imp fun _ _ h =>
      ⟨h.entry, h.bound⟩⟩) (.cons ?_ .nil)
    exact ⟨⟨hmatch.key, hmatch.scope, hmatch.params, hmatch.marked⟩, hparams.imp fun _ _ h =>
      ⟨h.entry, h.bound⟩⟩
  · right
    rw [hfunctions]
    rcases U.stacked hv hs with hid | ⟨g, hg, hgs, hid⟩
    · obtain ⟨name, _, hname⟩ := exists_of_forall₂_left hparams hid
      obtain ⟨u, hu, _, hstacked⟩ := hname.entry
      cases hu.symm.trans hv
      exact ⟨{ f with parameters := opened }, by simp, hstacked ▸ hs, hid⟩
    · rw [hfs] at hg
      rcases List.mem_append.mp hg with hg | hg
      · exact ⟨g, List.mem_append_left _ hg, hgs, hid⟩
      · rw [hnil g hg] at hid
        cases hid

end Workspace.Used

namespace Use

def Holds (o : Options) (base : Symbols) (placed : List Body) (pending : List FunctionEntry)
    (waiting : List Body) (opened : List VariableId) (s : Stage Usage) : Prop :=
  s.work.Used o base placed pending waiting opened ∧ s.report.staging = none

variable {o : Options} {base : Symbols} {placed waiting : List Body}
  {pending : List FunctionEntry} {opened : List VariableId} {scope : ScopeId}

theorem preserves_note {g : Usage → Usage} (hg : ∀ u, (g u).staging = u.staging) :
    Preserves (Holds o base placed pending waiting opened) (Pass.note g) :=
  Pass.ensures_note fun s hs => ⟨hs.1, (hg s.report).trans hs.2⟩

theorem preserves_references (scope : ScopeId) (names : List Ident) :
    Preserves (Holds o base placed pending waiting opened) (references scope names) := by
  induction names with
  | nil => exact .pure fun _ hs => hs
  | cons name rest ih =>
    refine Ensures.bind (Q := fun _ => Holds o base placed pending waiting opened) ?_ fun _ => ih
    refine Pass.ensures_symbols.bind fun symbols => ?_
    split
    · refine (preserves_note ?_).strengthen fun _ hs => hs.1
      exact fun _ => rfl
    · exact Pass.ensures_addProblems fun _ hs => hs.1

theorem preserves_expr? (scope : ScopeId) (e : Option Expr) :
    Preserves (Holds o base placed pending waiting opened) (expr? scope e) := by
  cases e with
  | none => exact .pure fun _ hs => hs
  | some e => exact preserves_references scope _

/-- A variable that is no parameter can be declared in any scope that is no waiting body. -/
theorem preserves_declare (hscope : scope ∉ waiting.map (·.scope)) (name : Ident)
    (domain : Domain) (kind : VariableKind) :
    Preserves (Holds o base placed pending waiting opened) (declare scope name domain kind) := by
  refine Pass.ensures_attempt (fun s hs id work h => ?_) fun s hs p work h => ?_
  · obtain ⟨location, D, _⟩ := Workspace.declareVariable_ok hs.1.layout h
    exact ⟨hs.1.declares D hscope (fun _ h => h) (by simp), hs.2⟩
  · obtain ⟨rfl, _⟩ := Workspace.declareVariable_problem h
    exact hs

theorem ensures_newScope (parent : ScopeId) (kind : ScopeKind) (name : String) :
    Ensures (Holds o base placed pending waiting opened) (Pass.newScope parent kind name)
      fun scope s => Holds o base placed pending waiting opened s ∧
        scope ∉ waiting.map (·.scope) :=
  Pass.ensures_newScope fun _ hs => ⟨⟨hs.1.newScope parent kind name, hs.2⟩, hs.1.nextId_not_mem⟩

mutual

theorem preserves_stmt (s : Stmt) {scope : ScopeId} (hscope : scope ∉ waiting.map (·.scope)) :
    Preserves (Holds o base placed pending waiting opened) (stmt scope s) := by
  cases s with
  | expr _ e => exact preserves_references scope _
  | declare v =>
    refine (preserves_expr? scope _).bind fun _ => (preserves_declare hscope ..).bind fun id => ?_
    split
    · refine preserves_note ?_
      exact fun _ => rfl
    · exact .pure fun _ hs => hs
  | ret _ value => exact preserves_expr? scope value
  | block _ body => exact preserves_block body scope
  | ifThen _ condition _ body =>
    exact (preserves_references scope _).bind fun _ => preserves_block body scope
  | ifElse _ condition _ body _ other =>
    exact (preserves_references scope _).bind fun _ => (preserves_block body scope).bind fun _ =>
      preserves_block other scope
  | loop _ condition _ body =>
    exact (preserves_references scope _).bind fun _ => preserves_block body scope

theorem preserves_block (ss : List Stmt) (scope : ScopeId) :
    Preserves (Holds o base placed pending waiting opened)
      (Pass.newScope scope .block "block" >>= fun inner => stmts inner ss) :=
  (ensures_newScope scope .block "block").bind fun _ => .assume fun h => preserves_stmts ss h

theorem preserves_stmts (ss : List Stmt) {scope : ScopeId}
    (hscope : scope ∉ waiting.map (·.scope)) :
    Preserves (Holds o base placed pending waiting opened) (stmts scope ss) := by
  cases ss with
  | nil => exact .pure fun _ hs => hs
  | cons s rest => exact (preserves_stmt s hscope).bind fun _ => preserves_stmts rest hscope

end

/-- The variable of a parameter was just declared and holds no frames yet. -/
def Declared (before : Stage Usage → Prop) (scope : ScopeId) (name : String) (id : VariableId)
    (s : Stage Usage) : Prop :=
  ∃ work v, before { s with work } ∧ work.Declares scope v s.work ∧ v.id = id ∧
    v.IsParameter scope name ∧ v.stacked = false

theorem ensures_declare_parameter {before : Stage Usage → Prop}
    (hinv : ∀ s, before s → s.work.layout.Inv) (scope : ScopeId) (name : Ident) :
    Ensures before (declare scope name .global .parameter) fun
      | none => fun s => ∃ problems, before { s with problems } ∧
          ∃ b, s.work.symbols.scopes.binding? scope name.name = some b
      | some id => fun s => Declared before scope name.name id s := by
  refine Pass.ensures_attempt (fun s hs id work h => ?_) fun s hs p work h => ?_
  · obtain ⟨location, D, hdomain⟩ := Workspace.declareVariable_ok (hinv s hs) h
    exact ⟨s.work, _, hs, D, rfl, ⟨rfl, rfl, hdomain, rfl⟩, rfl⟩
  · obtain ⟨rfl, b, hb, _⟩ := Workspace.declareVariable_problem h
    exact ⟨s.problems, hs, b, hb⟩

/-- Some parameters of a function are declared; their names are in `done`. -/
def Opens (o : Options) (base : Symbols) (placed : List Body) (pending : List FunctionEntry)
    (waiting : List Body) (opened : List VariableId) (scope : ScopeId) (stacked : Bool)
    (done : List String) (s : Stage Usage) : Prop :=
  Holds o base placed pending waiting opened s ∧ s.work.Opened scope stacked done opened

theorem Opens.add {s : Stage Usage} {work work' : Workspace} {v : Variable} {stacked : Bool}
    {done : List String} {name : String} (hscope : scope ∉ waiting.map (·.scope))
    (O : Opens o base placed pending waiting opened scope stacked done { s with work })
    (D : work.Declares scope v work') (hv : v.IsParameter scope name)
    (hstacked : v.stacked = stacked) :
    Opens o base placed pending waiting (opened ++ [v.id]) scope stacked (done ++ [name])
      { s with work := work' } :=
  ⟨⟨O.1.1.declares D hscope (List.subset_append_left ..) (by simp), O.1.2⟩,
    O.2.add D hv hstacked⟩

theorem ensures_params (hscope : scope ∉ waiting.map (·.scope)) (stacked : Bool)
    (ps : List Param) (done : List String) :
    Ensures (Opens o base placed pending waiting opened scope stacked done)
      (params scope stacked ps)
      fun ids => Opens o base placed pending waiting (opened ++ ids) scope stacked
        (done ++ ps.map (·.name.name)) := by
  induction ps generalizing done opened with
  | nil => exact .pure fun _ hs => by simpa using hs
  | cons p rest ih =>
    refine (ensures_declare_parameter (fun _ hs => hs.1.1.layout) scope p.name).bind fun id => ?_
    cases id with
    | none =>
      refine Ensures.mono (P := Opens o base placed pending waiting opened scope stacked
        (done ++ [p.name.name])) (ih _) ?_ ?_
      · rintro s ⟨problems, ⟨hs, hopened⟩, b, hb⟩
        exact ⟨hs, hopened.skip (hopened.bound hb)⟩
      · intro ids s hs
        simpa using hs
    | some id =>
      -- Both ways to go on start from a state that has the parameter among the opened ones.
      have hrest : Ensures (Opens o base placed pending waiting (opened ++ [id]) scope stacked
            (done ++ [p.name.name]))
          (params scope stacked rest >>= fun ids => pure (id :: ids))
          fun ids => Opens o base placed pending waiting (opened ++ ids) scope stacked
            (done ++ (p :: rest).map (·.name.name)) :=
        (ih _).bind fun ids => .pure fun s hs => by simpa using hs
      dsimp only
      split
      · rename_i hstacked
        refine (Ensures.modify ?_).bind fun _ => hrest
        rintro s ⟨work, v, hs, D, rfl, hv, _⟩
        exact Opens.add (s := s) (v := { v with stacked := true }) hscope hs D.stack
          ⟨hv.name, hv.kind, hv.domain, hv.scope⟩ hstacked.symm
      · rename_i hstacked
        refine hrest.strengthen ?_
        rintro s ⟨work, v, hs, D, rfl, hv, hplain⟩
        exact Opens.add (s := s) hscope hs D hv (by simpa [hplain] using hstacked)

theorem opens_of_holds {f : FunctionEntry} {b : Body} {s : Stage Usage}
    (hkeys : (base.functions.map (·.key)).Nodup) (H : Holds o base placed [] (b :: waiting) [] s)
    (hf : s.work.symbols.function? b.function = some f) :
    Opens o base placed [f] waiting [] b.scope f.stacked [] s ∧
      f.Matches b ∧ b.scope ∉ waiting.map (·.scope) := by
  obtain ⟨g, hg, hmatch, U, hscope⟩ := H.1.begin
  have hfound := Symbols.function?_of_mem (H.1.keys ▸ hkeys) hg
  rw [← hmatch.key, hf] at hfound
  cases hfound
  refine ⟨⟨⟨U, H.2⟩, .nil, fun {name b'} hb => ?_⟩, hmatch, hscope⟩
  obtain ⟨scope, hget, hempty⟩ := H.1.fresh b List.mem_cons_self
  simp only [Scopes.binding?, hget, hempty] at hb
  cases hb

theorem ensures_body (hkeys : (base.functions.map (·.key)).Nodup) (b : Body) :
    Ensures (Holds o base placed [] (b :: waiting) []) (body b)
      fun _ => Holds o base (placed ++ [b]) [] waiting [] := by
  refine Pass.ensures_symbols.bind fun symbols => ?_
  split
  · exact .throw _
  · rename_i f hf
    refine Ensures.strengthen (.assume fun ⟨hmatch, hscope⟩ => ?_) fun s hs =>
      opens_of_holds hkeys hs.1 (hs.2 ▸ hf)
    refine (ensures_params hscope f.stacked b.source.params []).bind fun ids => ?_
    refine Ensures.bind (Q := fun _ => Opens o base placed [f] waiting ids b.scope f.stacked
      f.params) (Pass.ensures_note fun s hs => ?_) fun _ => ?_
    · rw [hmatch.params]
      exact hs
    refine Ensures.bind (Q := fun _ => Holds o base (placed ++ [b]) [] waiting [])
      (Pass.ensures_modifySymbols fun s hs => ⟨hs.1.1.place hkeys hmatch hs.2.held, hs.1.2⟩)
      fun _ => ?_
    split
    · exact preserves_stmts _ hscope
    · exact .pure fun _ hs => hs

theorem ensures_bodies (hkeys : (base.functions.map (·.key)).Nodup) (bs : List Body) :
    Ensures (Holds o base placed [] bs []) (bodies bs)
      fun _ => Holds o base (placed ++ bs) [] [] [] := by
  induction bs generalizing placed with
  | nil => exact .pure fun _ hs => by simpa using hs
  | cons b rest ih =>
    refine (ensures_body hkeys b).bind fun _ => ih.weaken fun _ _ hs => ?_
    simpa using hs

theorem preserves_initializers (is : List Initializer) :
    Preserves (Holds o base placed pending waiting opened) (initializers is) := by
  induction is with
  | nil => exact .pure fun _ hs => hs
  | cons i rest ih => exact (preserves_references i.scope _).bind fun _ => ih

end Use

/-- The staging variable is a plain global one, and exists where two arguments are passed in
frames. -/
structure Workspace.Stages (w : Workspace) (staging : Option VariableId) : Prop where
  entry : ∀ {id}, staging = some id → ∃ v, w.layout.get? id = some v ∧
    v.location.domain = .global ∧ v.kind = .plain ∧ v.stacked = false
  needed : ∀ {f}, f ∈ w.symbols.functions → f.stacked = true → 1 < f.arity →
    staging.isSome = true

theorem Workspace.addInternal_ok {w w' : Workspace} {name : String} {domain : Domain}
    {id : VariableId} (H : w.layout.Inv) (h : addInternal name domain w = .ok id w') :
    ∃ location, location.domain = domain ∧ w'.layout.Inv ∧
      w'.layout.options = w.layout.options ∧ w.layout.get? id = none ∧
      w'.symbols = w.symbols ∧ ∀ id', w'.layout.get? id' =
        if id' = id then some { id, name, location } else w.layout.get? id' := by
  simp only [addInternal, onLayout, Layout.addInternal] at h
  cases htake : Layout.takeLocation domain w.layout with
  | error f layout => rw [htake] at h; cases h
  | ok location layout =>
    rw [htake] at h
    cases h
    have T := Layout.takeLocation_ok H htake
    refine ⟨location, T.domain, T.push rfl rfl, T.options, ?_, rfl, fun id' => ?_⟩
    · rw [← Layout.get?_congr T.table]
      simp [Layout.get?, Layout.nextId]
    · rw [Layout.get?_push, Layout.get?_congr T.table]

theorem Workspace.Used.addInternal {w w' : Workspace} {o : Options} {base : Symbols}
    {placed : List Body} {name : String} {domain : Domain} {id : VariableId}
    (U : w.Used o base placed [] [] []) (h : Workspace.addInternal name domain w = .ok id w') :
    w'.Used o base placed [] [] [] := by
  obtain ⟨location, _, hinv, hoptions, hfresh, hsymbols, htable⟩ := addInternal_ok U.layout h
  have K : w.Keeps w' := by
    refine ⟨fun {id' v} hv => ?_, fun hb _ => hsymbols ▸ hb⟩
    rw [htable, if_neg, hv]
    rintro rfl
    cases hfresh.symm.trans hv
  refine ⟨hinv, hoptions.trans U.options, hsymbols ▸ U.calls, hsymbols ▸ U.signatures, ?_, by simp,
    .nil, fun {id' v} hv hs => ?_⟩
  · obtain ⟨fs, gs, hfs, hplaced, hrest⟩ := U.entries
    exact ⟨fs, gs, hsymbols ▸ hfs, hplaced.imp fun _ _ h => h.mono K, hrest⟩
  · rw [htable] at hv
    split at hv
    · cases hv; cases hs
    · exact hsymbols ▸ U.stacked hv hs

theorem Use.ensures_declarations {o : Options} {base : Symbols}
    (hkeys : (base.functions.map (·.key)).Nodup) (d : Declarations) :
    Ensures (Holds o base [] [] d.bodies []) (declarations d) fun _ s =>
      s.work.Used o base d.bodies [] [] [] ∧ s.work.Stages s.report.staging := by
  refine (preserves_initializers _).bind fun _ => (ensures_bodies hkeys _).bind fun _ => ?_
  refine Pass.ensures_symbols.bind fun symbols => ?_
  split
  · refine Ensures.bind (Q := fun id s => s.work.Used o base d.bodies [] [] [] ∧
      s.work.Stages (some id)) (Pass.ensures_lift fun s hs id work h => ?_) fun id =>
        Pass.ensures_note fun _ hs => hs
    obtain ⟨location, hdomain, -, -, -, -, htable⟩ := Workspace.addInternal_ok hs.1.1.layout h
    refine ⟨hs.1.1.addInternal h, fun h => ?_, fun _ _ _ => rfl⟩
    cases h
    exact ⟨_, by rw [htable, if_pos rfl], hdomain, rfl, rfl⟩
  · rename_i hneeds
    refine .pure fun s hs => ⟨hs.1.1, fun h => ?_, fun {f} hf hstacked harity => ?_⟩
    · rw [hs.1.2] at h
      cases h
    · refine absurd (List.any_eq_true.mpr ⟨f, hs.2 ▸ hf, ?_⟩) hneeds
      simp [hstacked, harity]

theorem Workspace.use_ok {w w' : Workspace} {o : Options} {base : Symbols} {d : Declarations}
    {u : Usage} {ps : List Problem} (hkeys : (base.functions.map (·.key)).Nodup)
    (U : w.Used o base [] [] d.bodies []) (h : Workspace.use d w = .ok (u, ps) w') :
    w'.Used o base d.bodies [] [] [] ∧ w'.Stages u.staging := by
  simp only [Workspace.use, Pass.run] at h
  split at h
  · rename_i stage hrun
    cases h
    exact Use.ensures_declarations hkeys d ⟨U, rfl⟩ hrun
  · cases h

end Stackless
