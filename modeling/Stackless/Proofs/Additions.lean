import Stackless.Compile.Inheritance
import Stackless.Proofs.CallLog
import Stackless.Proofs.Pass

/-!
# What single declarations do

The whole effect of declaring a function (`Declare.Adds`) and of declaring a variable
(`Pass.DeclaresVariable`, outside functions `Declare.AddsVariable`): what is added where, and what is
refused for which reason. All that is proved of declarations is read off these.
-/

namespace Stackless

/-- What declaring a variable in a scope does. -/
inductive Pass.DeclaresVariable {ρ : Type} (scope : ScopeId) (name : Ident) (domain : Domain)
    (kind : VariableKind) (s : Stage ρ) : Option VariableId → Stage ρ → Prop where
  | refused {b : Binding} (taken : s.work.symbols.scopes.binding? scope name.name = some b)
      (own : b.inherited = false) :
    DeclaresVariable scope name domain kind s none
      { s with problems := s.problems ++ [.redeclared name.name b.span name.span] }
  | added {scopes : Scopes} {layout : Layout} {location : Location}
      (bound : s.work.symbols.scopes.declare scope name.name (.ofVariable s.work.layout.nextId)
        name.span = .ok scopes)
      (table : layout.table = s.work.layout.table.push
        { id := s.work.layout.nextId, name := name.name, location, kind, scope := some scope,
          span := name.span })
      (stored : location.domain = domain) :
    DeclaresVariable scope name domain kind s (some s.work.layout.nextId)
      { s with work := { symbols := { s.work.symbols with scopes }, layout } }

theorem Pass.declaresVariable {ρ : Type} {scope : ScopeId} {name : Ident} {domain : Domain}
    {kind : VariableKind} {s s' : Stage ρ} {r : Option VariableId}
    (h : Pass.attempt (Workspace.declareVariable scope name.name domain kind name.span) s =
      .ok r s') : DeclaresVariable scope name domain kind s r s' := by
  simp only [Pass.attempt, Workspace.declareVariable] at h
  cases hold : (s.work.symbols.scopes.binding? scope name.name).filter (!·.inherited) with
  | some old =>
    simp only [hold] at h
    cases h
    rw [Option.filter_eq_some_iff] at hold
    exact .refused hold.1 (by simpa using hold.2)
  | none =>
    simp only [hold] at h
    cases htake : Layout.takeLocation domain s.work.layout with
    | error f layout => simp only [htake] at h; cases h
    | ok location layout =>
      have htable := Layout.takeLocation_table htake
      have hnext : layout.nextId = s.work.layout.nextId := by rw [Layout.nextId, htable]; rfl
      simp only [htake, hnext] at h
      cases hbind : s.work.symbols.scopes.declare scope name.name
          (.ofVariable s.work.layout.nextId) name.span with
      | ok scopes =>
        simp only [hbind] at h
        cases h
        exact .added hbind (congrArg (Array.push · _) htable) (Layout.takeLocation_domain htake)
      | error r =>
        simp only [hbind] at h
        cases r with
        | fault f => cases h
        | problem p =>
          -- the name was found to be free before
          obtain ⟨b, hb, hown, _⟩ := Scopes.declare_refused hbind
          rw [hb, Option.filter_some_pos (by simp [hown])] at hold
          cases hold

namespace Declare

variable {f : FunctionEntry} {owner scope : ScopeId} {source : FunctionDef} {v : VariableDef}
  {isNamed : Bool} {s s' : Stage Declarations}

/-- What becomes of the name of a function in the scope of its owner. A constructor has no name. -/
inductive Binds (f : FunctionEntry) (owner : ScopeId) (s : Scopes) :
    Bool → Scopes → List Problem → Prop where
  | unnamed : Binds f owner s false s []
  | bound {scopes : Scopes} (h : s.declare owner f.name (.ofFunction f.key) f.span = .ok scopes) :
    Binds f owner s true scopes []
  | taken {b : Binding} (h : s.binding? owner f.name = some b) (own : b.inherited = false) :
    Binds f owner s true s [.redefined "function" f.name f.span]

/-- The stage in which a function has been added. -/
def added (s : Stage Declarations) (f : FunctionEntry) (owner : ScopeId) (source : FunctionDef)
    (scopes : Scopes) (problems : List Problem) : Stage Declarations where
  work := { s.work with symbols := { s.work.symbols with
    functions := s.work.symbols.functions ++ [{ f with scope := some scopes.nextId }]
    calls := s.work.symbols.calls.addFunction f.key
    scopes := scopes.child owner .function f.qualifiedName } }
  report := { s.report with
    functionCount := s.report.functionCount + 1
    bodies := s.report.bodies ++ [{ function := f.key, scope := scopes.nextId, source }] }
  problems := s.problems ++ problems

/-- What declaring a function does. -/
inductive Adds (f : FunctionEntry) (owner : ScopeId) (source : FunctionDef) (isNamed : Bool)
    (s : Stage Declarations) : Stage Declarations → Prop where
  | refused (taken : f.key ∈ s.work.symbols.functions.map (·.key)) :
    Adds f owner source isNamed s
      { s with problems := s.problems ++ [.redefined "function" f.qualifiedName f.span] }
  | added {scopes : Scopes} {problems : List Problem}
      (fresh : f.key ∉ s.work.symbols.functions.map (·.key))
      (binds : Binds f owner s.work.symbols.scopes isNamed scopes problems) :
    Adds f owner source isNamed s (added s f owner source scopes problems)

theorem attempt_addFunction {r : Option Unit}
    (h : Pass.attempt (Workspace.addFunction f) s = .ok r s') :
    (r = none ∧ f.key ∈ s.work.symbols.functions.map (·.key) ∧
      s' = { s with problems := s.problems ++ [.redefined "function" f.qualifiedName f.span] }) ∨
    (r = some () ∧ f.key ∉ s.work.symbols.functions.map (·.key) ∧
      s' = { s with work := { s.work with symbols := { s.work.symbols with
        functions := s.work.symbols.functions ++ [f]
        calls := s.work.symbols.calls.addFunction f.key } } }) := by
  simp only [Pass.attempt, Workspace.addFunction, Workspace.onSymbols, Symbols.addFunction] at h
  cases hfind : s.work.symbols.function? f.key with
  | some g =>
    rw [hfind] at h
    cases h
    refine .inl ⟨rfl, ?_, rfl⟩
    have hkey : g.key = f.key := of_decide_eq_true (List.find?_some hfind :)
    exact hkey ▸ List.mem_map_of_mem (List.mem_of_find?_eq_some hfind)
  | none =>
    rw [hfind] at h
    cases h
    refine .inr ⟨rfl, fun hmem => ?_, rfl⟩
    obtain ⟨g, hg, hkey⟩ := List.mem_map.mp hmem
    exact List.find?_eq_none.mp hfind g hg (by simpa using hkey)

/-- A function that was just registered is given its body. -/
theorem addBody_eq {fs : List FunctionEntry} (hfs : s.work.symbols.functions = fs ++ [f])
    (hfresh : f.key ∉ fs.map (·.key)) :
    addBody f owner source s = .ok ()
      { s with
        work := { s.work with symbols := { s.work.symbols with
          functions := fs ++ [{ f with scope := some s.work.symbols.scopes.nextId }]
          scopes := s.work.symbols.scopes.child owner .function f.qualifiedName } }
        report := { s.report with
          functionCount := s.report.functionCount + 1
          bodies := s.report.bodies ++
            [{ function := f.key, scope := s.work.symbols.scopes.nextId, source }] } } := by
  have hold : fs.map (fun g => if g.key = f.key then
      { g with scope := some s.work.symbols.scopes.nextId } else g) = fs := by
    refine (List.map_congr_left fun g hg => if_neg fun h => hfresh ?_).trans (List.map_id _)
    exact h ▸ List.mem_map_of_mem hg
  have hupdate : (s.work.symbols.functions.map fun g => if g.key = f.key then
      { g with scope := some s.work.symbols.scopes.nextId } else g) =
      fs ++ [{ f with scope := some s.work.symbols.scopes.nextId }] := by
    rw [hfs, List.map_append, hold, List.map_singleton, if_pos rfl]
  rw [← hupdate]
  rfl

theorem attempt_declare {r : Option Unit}
    (h : Pass.attempt (Workspace.onScopes fun scopes =>
      scopes.declare owner f.name (.ofFunction f.key) f.span) s = .ok r s') :
    ∃ scopes problems, Binds f owner s.work.symbols.scopes true scopes problems ∧
      s' = { s with
        work := { s.work with symbols := { s.work.symbols with scopes } }
        problems := s.problems ++ problems } := by
  simp only [Pass.attempt, Workspace.onScopes, Workspace.onSymbols] at h
  cases hbind : s.work.symbols.scopes.declare owner f.name (.ofFunction f.key) f.span with
  | ok scopes =>
    rw [hbind] at h
    cases h
    exact ⟨scopes, [], .bound hbind, by rw [List.append_nil]⟩
  | error r =>
    rw [hbind] at h
    cases r with
    | fault f => cases h
    | problem p =>
      cases h
      obtain ⟨b, hb, hown, rfl⟩ := Scopes.declare_refused hbind
      exact ⟨s.work.symbols.scopes, _, .taken hb hown, rfl⟩

theorem adds_of_function {u : Unit} (h : function f owner source s = .ok u s') :
    Adds f owner source true s s' := by
  obtain ⟨r, s₁, hadd, h⟩ := exists_of_bind h
  rcases attempt_addFunction hadd with ⟨rfl, htaken, rfl⟩ | ⟨rfl, hfresh, rfl⟩
  · cases h
    exact .refused htaken
  · obtain ⟨r, s₂, hbind, h⟩ := exists_of_bind h
    obtain ⟨scopes, problems, B, rfl⟩ := attempt_declare hbind
    rw [addBody_eq rfl hfresh] at h
    cases h
    exact .added hfresh B

theorem adds_of_constructor {u : Unit} (h : constructor f owner source s = .ok u s') :
    Adds f owner source false s s' := by
  obtain ⟨r, s₁, hadd, h⟩ := exists_of_bind h
  rcases attempt_addFunction hadd with ⟨rfl, htaken, rfl⟩ | ⟨rfl, hfresh, rfl⟩
  · cases h
    exact .refused htaken
  · dsimp only at h
    rw [addBody_eq rfl hfresh] at h
    cases h
    have hadded : Adds f owner source false s (added s f owner source _ []) :=
      .added hfresh .unnamed
    simpa only [added, List.append_nil] using hadded

theorem Adds.types (A : Adds f owner source isNamed s s') :
    s'.work.symbols.types = s.work.symbols.types := by
  cases A <;> rfl

/-! ## Variables -/

/-- The first value of a variable, if it has one. -/
def initializersOf (scope : ScopeId) (v : VariableDef) : List Initializer :=
  v.init.toList.map fun expr => { scope, expr }

/-- What declaring a variable outside functions does. -/
inductive AddsVariable (scope : ScopeId) (v : VariableDef) (s : Stage Declarations) :
    Stage Declarations → Prop where
  | refused {b : Binding} (taken : s.work.symbols.scopes.binding? scope v.name.name = some b)
      (own : b.inherited = false) :
    AddsVariable scope v s
      { s with
        report := { s.report with
          initializers := s.report.initializers ++ initializersOf scope v }
        problems := s.problems ++ [.redeclared v.name.name b.span v.name.span] }
  | added {scopes : Scopes} {layout : Layout} {id : VariableId} {w : Variable}
      (bound : s.work.symbols.scopes.declare scope v.name.name (.ofVariable id) v.name.span =
        .ok scopes)
      (table : layout.table = s.work.layout.table.push w) (name : w.name = v.name.name)
      (span : w.span = v.name.span) :
    AddsVariable scope v s
      { s with
        work := { symbols := { s.work.symbols with scopes }, layout }
        report := { s.report with
          variableCount := s.report.variableCount + 1
          initializers := s.report.initializers ++ initializersOf scope v } }

theorem addsVariable_of_variableDef {u : Unit} (h : variableDef scope v s = .ok u s') :
    AddsVariable scope v s s' := by
  obtain ⟨r, s₁, hdeclare, h⟩ := exists_of_bind h
  cases Pass.declaresVariable hdeclare with
  | refused hb hown =>
    have hadds := AddsVariable.refused hb hown
    rw [initializersOf] at hadds
    cases hinit : v.init with
    | none =>
      rw [hinit] at h hadds
      cases h
      simpa only [Option.toList, List.map_nil, List.append_nil] using hadds
    | some e =>
      rw [hinit] at h hadds
      cases h
      exact hadds
  | added hbind htable =>
    obtain ⟨_, s₂, hnote, h⟩ := exists_of_bind h
    cases hnote
    have hadds := AddsVariable.added hbind htable rfl rfl
    rw [initializersOf] at hadds
    cases hinit : v.init with
    | none =>
      rw [hinit] at h hadds
      cases h
      simpa only [Option.toList, List.map_nil, List.append_nil] using hadds
    | some e =>
      rw [hinit] at h hadds
      cases h
      exact hadds

theorem AddsVariable.types (A : AddsVariable scope v s s') :
    s'.work.symbols.types = s.work.symbols.types := by
  cases A <;> rfl

end Declare

end Stackless
