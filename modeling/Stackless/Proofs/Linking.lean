import Stackless.Proofs.DeclaredScript

/-!
# What linking calls does

Linking never fails. Each call is recorded, or a problem says that its callee is not known, and
nothing else changes (`Stage.Links`). So all recorded calls are known from what is registered when
the linking begins (`Workspace.declare_linked`).
-/

namespace Stackless

namespace Symbols

/-- The problems with a call. -/
def callProblems (s : Symbols) (scope : ScopeId) (site : CallSite) : List Problem :=
  match s.link scope site with
  | .error p => [p]
  | .ok link => link.mismatch.toList

theorem concernsCall_of_callProblems {s : Symbols} {scope : ScopeId} {site : CallSite} {p : Problem}
    (h : p ∈ s.callProblems scope site) : p.ConcernsCall := by
  rw [callProblems] at h
  split at h
  · rename_i hlink
    exact List.mem_singleton.mp h ▸ link_error_concernsCall hlink
  · rename_i hlink
    exact link_ok_concernsCall hlink p (Option.mem_toList.mp h)

/-- What is recorded of a call. -/
def callRecord? (s : Symbols) (caller : Key) (scope : ScopeId) (site : CallSite) :
    Option CallRecord :=
  match s.link scope site with
  | .error _ => none
  | .ok link => some ⟨caller, link.callee, site.span⟩

/-- All calls of some bodies that are recorded. -/
def callLog (s : Symbols) (bodies : List Body) : CallLog :=
  bodies.flatMap fun b => b.source.callSites.filterMap (s.callRecord? b.function b.scope)

end Symbols

/-- Linking adds problems and recorded calls, and changes nothing else. -/
structure Stage.Links (s : Stage Declarations) (ps : List Problem) (log : CallLog)
    (s' : Stage Declarations) : Prop where
  symbols : s'.work.symbols = { s.work.symbols with calls := s'.work.symbols.calls }
  layout : s'.work.layout = s.work.layout
  report : s'.report = { s.report with callCount := s.report.callCount + log.length }
  problems : s'.problems = s.problems ++ ps
  calls : ∀ {log₀}, s.work.symbols.calls.Records log₀ →
    s'.work.symbols.calls.Records (log₀ ++ log)

namespace Stage.Links

variable {s s' s₁ : Stage Declarations} {ps ps' : List Problem} {log log' : CallLog}

theorem addProblems (s : Stage Declarations) (ps : List Problem) :
    s.Links ps [] { s with problems := s.problems ++ ps } where
  symbols := rfl
  layout := rfl
  report := rfl
  problems := rfl
  calls h := by rwa [List.append_nil]

theorem refl (s : Stage Declarations) : s.Links [] [] s := by
  have h := addProblems s []
  rwa [List.append_nil] at h

theorem trans (H : s.Links ps log s₁) (H' : s₁.Links ps' log' s') :
    s.Links (ps ++ ps') (log ++ log') s' where
  symbols := by rw [H'.symbols, H.symbols]
  layout := H'.layout.trans H.layout
  report := by rw [H'.report, H.report, List.length_append, Nat.add_assoc]
  problems := by rw [H'.problems, H.problems, List.append_assoc]
  calls h := by
    rw [← List.append_assoc]
    exact H'.calls (H.calls h)

theorem scopes (H : s.Links ps log s') : s'.work.symbols.scopes = s.work.symbols.scopes := by
  rw [H.symbols]

theorem functions (H : s.Links ps log s') :
    s'.work.symbols.functions = s.work.symbols.functions := by
  rw [H.symbols]

/-- Recording calls does not change what a call means. -/
theorem callProblems (H : s.Links ps log s') :
    s'.work.symbols.callProblems = s.work.symbols.callProblems := by
  rw [H.symbols]
  rfl

theorem callRecord? (H : s.Links ps log s') :
    s'.work.symbols.callRecord? = s.work.symbols.callRecord? := by
  rw [H.symbols]
  rfl

end Stage.Links

namespace Declare

variable {s s' : Stage Declarations} {u : Unit}

theorem links_linkSite {caller : Option Key} {scope : ScopeId} {site : CallSite}
    (h : linkSite caller scope site s = .ok u s') :
    s.Links (s.work.symbols.callProblems scope site)
      (caller.toList.flatMap fun k => (s.work.symbols.callRecord? k scope site).toList) s' := by
  obtain ⟨symbols, s₁, hsymbols, h⟩ := exists_of_bind h
  cases hsymbols
  simp only [Symbols.callProblems, Symbols.callRecord?]
  cases hlink : s.work.symbols.link scope site with
  | error p =>
    rw [hlink] at h
    cases h
    cases caller <;> exact .addProblems s _
  | ok link =>
    rw [hlink] at h
    obtain ⟨_, s₂, hproblems, h⟩ := exists_of_bind h
    cases hproblems
    cases caller with
    | none =>
      cases h
      exact .addProblems s _
    | some caller =>
      obtain ⟨_, s₃, hrecord, h⟩ := exists_of_bind h
      cases hrecord
      cases h
      exact ⟨rfl, rfl, rfl, rfl, fun h => h.record ..⟩

theorem links_linkSites {caller : Option Key} {scope : ScopeId} {sites : List CallSite}
    (h : linkSites caller scope sites s = .ok u s') :
    s.Links (sites.flatMap (s.work.symbols.callProblems scope))
      (caller.toList.flatMap fun k => sites.filterMap (s.work.symbols.callRecord? k scope)) s' := by
  induction sites generalizing s with
  | nil =>
    cases h
    cases caller <;> exact .refl _
  | cons site rest ih =>
    obtain ⟨_, s₁, hsite, hrest⟩ := exists_of_bind h
    have H := links_linkSite hsite
    have H' := ih hrest
    rw [H.callProblems, H.callRecord?] at H'
    have hall := H.trans H'
    cases caller with
    | none => exact hall
    | some k =>
      simp only [Option.toList_some, List.flatMap_singleton] at hall ⊢
      rwa [filterMap_cons_toList]

theorem links_linkBodies {bodies : List Body} (h : linkBodies bodies s = .ok u s') :
    s.Links (bodies.flatMap fun b => b.source.callSites.flatMap (s.work.symbols.callProblems b.scope))
      (s.work.symbols.callLog bodies) s' := by
  induction bodies generalizing s with
  | nil =>
    cases h
    exact .refl _
  | cons b rest ih =>
    obtain ⟨_, s₁, hsites, hrest⟩ := exists_of_bind h
    have H := links_linkSites hsites
    have H' := ih hrest
    rw [Symbols.callLog, H.callProblems, H.callRecord?] at H'
    have hall := H.trans H'
    rwa [Option.toList_some, List.flatMap_singleton] at hall

theorem links_linkInitializers {is : List Initializer} (h : linkInitializers is s = .ok u s') :
    s.Links (is.flatMap fun i => i.expr.callSites.flatMap (s.work.symbols.callProblems i.scope))
      [] s' := by
  induction is generalizing s with
  | nil =>
    cases h
    exact .refl _
  | cons i rest ih =>
    obtain ⟨_, s₁, hsites, hrest⟩ := exists_of_bind h
    have H := links_linkSites hsites
    have H' := ih hrest
    rw [H.callProblems] at H'
    exact H.trans H'

end Declare

/-! ## The whole pass -/

/-- The problems with all calls that are linked. -/
def Symbols.linkProblems (s : Symbols) (d : Declarations) : List Problem :=
  (d.bodies.flatMap fun b => b.source.callSites.flatMap (s.callProblems b.scope)) ++
    d.initializers.flatMap fun i => i.expr.callSites.flatMap (s.callProblems i.scope)

theorem Symbols.concernsCall_of_linkProblems {s : Symbols} {d : Declarations} {p : Problem}
    (h : p ∈ s.linkProblems d) : p.ConcernsCall := by
  rcases List.mem_append.mp h with h | h
  · obtain ⟨b, _, h⟩ := List.mem_flatMap.mp h
    obtain ⟨site, _, h⟩ := List.mem_flatMap.mp h
    exact concernsCall_of_callProblems h
  · obtain ⟨i, _, h⟩ := List.mem_flatMap.mp h
    obtain ⟨site, _, h⟩ := List.mem_flatMap.mp h
    exact concernsCall_of_callProblems h

/-- A script is declared in full, and then its calls are linked. -/
theorem Workspace.declare_arrives {script : Script} {o : Options} {d : Declarations}
    {problems : List Problem} {w : Workspace}
    (h : Workspace.declare script (.ofOptions o) = .ok (d, problems) w) :
    ∃ (g : Outline) (classes : List ClassDef) (done cut : List Completed) (s : Stage Declarations),
      g.Finished script classes done cut ∧ g.Kept { work := w, report := d, problems } ∧
        (script.ledger done).Inventory script s ∧ Declare.Arrives script o classes done s ∧
        s.Links (s.work.symbols.linkProblems s.report) (s.work.symbols.callLog s.report.bodies)
          { work := w, report := d, problems } := by
  simp only [Workspace.declare, Pass.run] at h
  split at h
  · rename_i stage hrun
    cases h
    obtain ⟨g, classes, done, cut, s, F, _, K, I, A, hlink⟩ := Declare.script_arrives hrun
    obtain ⟨_, s₁, hbodies, hrest⟩ := exists_of_bind hlink
    have H := Declare.links_linkBodies hbodies
    have H' := Declare.links_linkInitializers hrest
    rw [H.callProblems] at H'
    have hall := H.trans H'
    rw [List.append_nil] at hall
    exact ⟨g, classes, done, cut, s, F, K, I, A, hall⟩
  · cases h

theorem Workspace.declare_linked {script : Script} {o : Options} {d : Declarations}
    {problems : List Problem} {w : Workspace}
    (h : Workspace.declare script (.ofOptions o) = .ok (d, problems) w) :
    ∃ (g : Outline) (classes : List ClassDef) (done cut : List Completed) (s : Stage Declarations),
      g.Finished script classes done cut ∧ g.Kept { work := w, report := d, problems } ∧
        (script.ledger done).Inventory script s ∧
        s.Links (s.work.symbols.linkProblems s.report) (s.work.symbols.callLog s.report.bodies)
          { work := w, report := d, problems } := by
  obtain ⟨g, classes, done, cut, s, F, K, I, _, H⟩ := declare_arrives h
  exact ⟨g, classes, done, cut, s, F, K, I, H⟩

/-- What holds of a workspace when a script has been declared. The problems that were reported
before calls were linked are `earlier`. -/
structure Workspace.Settled (w : Workspace) (script : Script) (done : List Completed)
    (d : Declarations) (earlier : List Problem) : Prop where
  scopes : w.symbols.scopes.Furnished done
  typeKeys : ∀ {id name k}, w.symbols.scopes.type? id name = some k → k ∈ script.typeKeys
  registered : ∀ {id name b k}, w.symbols.scopes.binding? id name = some b →
    b.symbol = .ofFunction k → ∃ f ∈ w.symbols.functions, f.key = k ∧ f.traits.isConstructor = false
  housed : ∀ f ∈ w.symbols.functions, f.Housed w.symbols.scopes done
  keys : (w.symbols.functions.map (·.key)).Nodup
  entries : List.Forall₂ FunctionEntry.Matches w.symbols.functions d.bodies
  texts : ∃ used : List FunctionText, used.Subperm script.functions ∧
    List.Forall₂ FunctionEntry.Is w.symbols.functions used ∧
    d.bodies.map (fun b => (b.function, b.source)) = used.map fun t => (t.1.key, t.2)
  initializers : (d.initializers.map (·.expr)).Subperm (script.variableDefs.flatMap (·.init.toList))
  starts : ∀ i ∈ d.initializers, i.Starts script done
  table : (w.layout.table.toList.map fun v => (⟨v.name, v.span⟩ : Ident)).Subperm
    (script.variableDefs.map (·.name))
  calls : w.symbols.calls.Records (w.symbols.callLog d.bodies)
  callCount : d.callCount = (w.symbols.callLog d.bodies).length
  repeats : ∀ p ∈ earlier, script.Repeats p ∨ p.ConcernsType
  bound : earlier = [] → ∀ {x f}, x ∈ done → .method f ∈ x.source.members →
    w.symbols.scopes.binding? (x.scopes.side f.isStatic) f.name.name =
      some { symbol := .ofFunction (.method x.key f.name.name), span := f.name.span }

/-- The workspace in which the calls of a script are linked. -/
theorem Workspace.settled_of_links {script : Script} {o : Options} {d : Declarations}
    {problems : List Problem} {w : Workspace} {g : Outline} {classes : List ClassDef}
    {done cut : List Completed} {s : Stage Declarations}
    (h : Workspace.declare script (.ofOptions o) = .ok (d, problems) w)
    (F : g.Finished script classes done cut) (I : (script.ledger done).Inventory script s)
    (H : s.Links (s.work.symbols.linkProblems s.report) (s.work.symbols.callLog s.report.bodies)
      { work := w, report := d, problems }) :
    w.Settled script done d s.problems ∧ problems = s.problems ++ w.symbols.linkProblems d := by
  have D := (declare_ok h).symbols
  obtain ⟨fs, hfs, hentries⟩ := D.entries
  rw [List.append_nil] at hfs
  obtain ⟨log, hgrown, _⟩ := D.grown
  obtain ⟨used, hused, his, hbodies⟩ := I.tally.functions
  have hscopes : w.symbols.scopes = s.work.symbols.scopes := H.scopes
  have hfunctions : w.symbols.functions = s.work.symbols.functions := H.functions
  have hlayout : w.layout = s.work.layout := H.layout
  have hbodies' : d.bodies = s.report.bodies := congrArg (·.bodies) H.report
  have hinitializers : d.initializers = s.report.initializers := congrArg (·.initializers) H.report
  have hcount : d.callCount = s.report.callCount + _ := congrArg (·.callCount) H.report
  have hlog : w.symbols.callLog d.bodies = s.work.symbols.callLog s.report.bodies := by
    rw [Symbols.callLog, H.callRecord?, hbodies']
    rfl
  have hproblems : w.symbols.linkProblems d = s.work.symbols.linkProblems s.report := by
    rw [Symbols.linkProblems, H.callProblems, hbodies', hinitializers]
    rfl
  have hdone := script.ledger_done done
  refine ⟨⟨?_, ?_, ?_, ?_, hgrown.keys, ?_, ?_, ?_, ?_, ?_, ?_, ?_, I.review.repeats, ?_⟩, ?_⟩
  · rw [hscopes, ← hdone]
    exact I.housing.scopes
  · rw [hscopes]
    exact I.housing.typeKeys
  · rw [hscopes, hfunctions]
    exact I.housing.registered
  · rw [hscopes, hfunctions, ← hdone]
    exact I.housing.housed
  · rwa [hfs]
  · rw [hfunctions, hbodies']
    exact ⟨used, hused.trans F.ledger_functions, his, hbodies⟩
  · rw [hinitializers]
    exact I.tally.initializers.trans (subperm_flatMap F.ledger_variableDefs _)
  · rw [hinitializers, ← hdone]
    exact I.tally.starts
  · rw [hlayout]
    exact I.tally.table.trans (subperm_map F.ledger_variableDefs _)
  · rw [hlog]
    exact H.calls I.housing.calls
  · rw [hlog, hcount, I.tally.callCount, Nat.zero_add]
  · intro hnone x f hx hf
    rw [hscopes]
    exact I.review.bound hnone _ (Script.mem_bound_ledger hx hf)
  · rw [hproblems]
    exact H.problems

theorem Workspace.declare_settled {script : Script} {o : Options} {d : Declarations}
    {problems : List Problem} {w : Workspace}
    (h : Workspace.declare script (.ofOptions o) = .ok (d, problems) w) :
    ∃ (g : Outline) (classes : List ClassDef) (done cut : List Completed) (earlier : List Problem),
      g.Finished script classes done cut ∧ g.Kept { work := w, report := d, problems } ∧
        w.Settled script done d earlier ∧ problems = earlier ++ w.symbols.linkProblems d := by
  obtain ⟨g, classes, done, cut, s, F, K, I, H⟩ := declare_linked h
  obtain ⟨S, hproblems⟩ := settled_of_links h F I H
  exact ⟨g, classes, done, cut, s.problems, F, K, S, hproblems⟩

end Stackless
