import Stackless.Proofs.Additions
import Stackless.Proofs.Contents
import Stackless.Proofs.Declarations
import Stackless.Proofs.MemberScopes

/-!
# The inventory of a script

A ledger lists what was declared so far, whether it was accepted or not. An inventory compares it
with the stage of the pass: where functions and classes have their scopes (`Ledger.Housing`), what
was accepted (`Ledger.Tally`), and which names are bound and which problems were reported
(`Ledger.Review`). Each declaration adds a line to the ledger.
-/

namespace Stackless

/-! ## Declarations that repeat others -/

namespace Script

/-- One scope of the script declares a name twice. -/
inductive DeclaresTwice (s : Script) (x y : Ident) : Prop where
  | root (order : [x, y].Sublist s.rootNames) (same : x.name = y.name)
  | member {c : ClassDef} (hc : s.Registers c) (isStatic : Bool)
      (order : [x, y].Sublist (c.names isStatic)) (same : x.name = y.name)

/-- The problem is that one scope declares a name twice, or that two functions have the same key. -/
inductive Repeats (s : Script) : Problem → Prop where
  | variable {x y : Ident} (twice : s.DeclaresTwice x y) :
    Repeats s (.redeclared y.name x.span y.span)
  | function {x y : Ident} (twice : s.DeclaresTwice x y) :
    Repeats s (.redefined "function" y.name y.span)
  | key {t t' : FunctionText} (name : String) (both : [t, t'].Subperm s.functions)
      (same : t.1.key = t'.1.key) : Repeats s (.redefined "function" name t'.2.name.span)

/-- The keys of the classes of a script and of their generic parameters. -/
def typeKeys (s : Script) : List Key :=
  s.classes.flatMap fun c => c.key :: c.generics.map fun g => .genericParameter c.key g.name

end Script

/-- The problem is with a type, or with a name that should be one. -/
inductive Problem.ConcernsType : Problem → Prop where
  | redefined (name : String) (span : Span) : ConcernsType (.redefined "type" name span)
  | unknown (name : String) (span : Span) : ConcernsType (.unknownType name span)
  | invalidBase (name reason : String) (span : Span) : ConcernsType (.invalidBase name reason span)
  | circular (name : String) (span : Span) : ConcernsType (.circularInheritance name span)

/-! ## Entries and their texts -/

/-- The entry of a function belongs to a text. -/
structure FunctionEntry.Is (f : FunctionEntry) (t : FunctionText) : Prop where
  callable : f.callable = t.1
  key : f.key = t.1.key
  params : f.params = t.2.paramNames

/-- The scope around the body of a function. -/
inductive FunctionEntry.LivesIn (f : FunctionEntry) (done : List Completed) : ScopeId → Prop where
  | root (h : f.owner = none) : LivesIn f done .root
  | member {x : Completed} (hx : x ∈ done) (h : f.owner = some x.key) :
    LivesIn f done (x.scopes.side (f.traits.isStatic && !f.traits.isConstructor))

/-- The function has a scope for its body, in which nothing is bound yet. -/
def FunctionEntry.Housed (f : FunctionEntry) (s : Scopes) (done : List Completed) : Prop :=
  ∃ id home, f.scope = some id ∧ f.LivesIn done home ∧
    s.get? id = some { parent := some home, kind := .function, name := f.qualifiedName }

/-- The first value belongs to a variable outside classes or to a field. -/
inductive Initializer.Starts (i : Initializer) (script : Script) (done : List Completed) : Prop where
  | global {v : VariableDef} (hv : v ∈ script.globalVariables) (init : v.init = some i.expr)
      (scope : i.scope = .root)
  | field {x : Completed} {v : VariableDef} (hx : x ∈ done) (hv : v ∈ x.source.fields)
      (init : v.init = some i.expr) (scope : i.scope = x.scopes.side v.isStatic)

namespace FunctionEntry

variable {f : FunctionEntry} {s s' : Scopes} {done done' : List Completed} {home : ScopeId}

theorem LivesIn.mono (h : f.LivesIn done home) (hdone : done ⊆ done') : f.LivesIn done' home := by
  cases h with
  | root h => exact .root h
  | member hx h => exact .member (hdone hx) h

theorem LivesIn.withScope (h : f.LivesIn done home) (scope : Option ScopeId) :
    ({ f with scope } : FunctionEntry).LivesIn done home := by
  cases h with
  | root h => exact .root h
  | member hx h => exact .member (f := { f with scope }) hx h

theorem Housed.mono (h : f.Housed s done) (hdone : done ⊆ done')
    (hkept : ∀ {id scope}, s.get? id = some scope → scope.kind = .function →
      s'.get? id = some scope) : f.Housed s' done' := by
  obtain ⟨id, home, hscope, hlives, hget⟩ := h
  exact ⟨id, home, hscope, hlives.mono hdone, hkept hget rfl⟩

end FunctionEntry

theorem Initializer.Starts.mono {i : Initializer} {script : Script} {done done' : List Completed}
    (h : i.Starts script done) (hdone : done ⊆ done') : i.Starts script done' := by
  cases h with
  | global hv init scope => exact .global hv init scope
  | field hx hv init scope => exact .field (hdone hx) hv init scope

/-! ## Names of functions -/

namespace Declare.Binds

variable {f : FunctionEntry} {owner : ScopeId} {s scopes : Scopes} {isNamed : Bool}
  {problems : List Problem} {done : List Completed}

theorem furnished (B : Binds f owner s isNamed scopes problems) (F : s.Furnished done)
    (h : Scopes.Growing done owner) : scopes.Furnished done := by
  cases B with
  | unnamed | taken => exact F
  | bound hbound => exact F.declare h hbound

theorem size_eq (B : Binds f owner s isNamed scopes problems) : scopes.size = s.size := by
  cases B with
  | unnamed | taken => rfl
  | bound hbound => exact (Scopes.declare_ok hbound).1.size

theorem type?_eq (B : Binds f owner s isNamed scopes problems) (id : ScopeId) (name : String) :
    scopes.type? id name = s.type? id name := by
  cases B with
  | unnamed | taken => rfl
  | bound hbound => exact Scopes.type?_declare hbound id name

/-- Only the function can be bound anew, if it has a name. -/
theorem binding?_cases (B : Binds f owner s isNamed scopes problems) {id : ScopeId} {name : String}
    {b : Binding} (h : scopes.binding? id name = some b) :
    s.binding? id name = some b ∨ b.symbol = .ofFunction f.key ∧ isNamed = true := by
  cases B with
  | unnamed | taken => exact .inl h
  | bound hbound =>
    rw [(Scopes.declare_ok hbound).2.2] at h
    split at h
    · cases h
      exact .inr ⟨rfl, rfl⟩
    · exact .inl h

/-- The scopes of bodies stay as they are. -/
theorem get?_of_function (B : Binds f owner s isNamed scopes problems) (F : s.Furnished done)
    (h : Scopes.Growing done owner) {id : ScopeId} {scope : Scope} (hget : s.get? id = some scope)
    (hkind : scope.kind = .function) : scopes.get? id = some scope := by
  cases B with
  | unnamed | taken => exact hget
  | bound hbound => exact F.get?_of_function h (Scopes.declare_ok hbound).1 hget hkind

end Declare.Binds

/-! ## Ledgers -/

/-- What was declared so far. -/
structure Ledger where
  /-- The complete classes, the newest first. -/
  done : List Completed := []
  functions : List FunctionText := []
  variableDefs : List VariableDef := []
  /-- The names that each scope was to declare, in order. -/
  names : ScopeId → List Ident := fun _ => []
  /-- The functions that were to be bound to their names, each with the scope for that. -/
  bound : List (ScopeId × FunctionEntry) := []

namespace Ledger

def addName (names : ScopeId → List Ident) (scope : ScopeId) (name : Ident) : ScopeId → List Ident :=
  fun id => if scope = id then names id ++ [name] else names id

def addFunction (L : Ledger) (owner : ScopeId) (f : FunctionEntry) (t : FunctionText)
    (isNamed : Bool) : Ledger :=
  { L with
    functions := L.functions ++ [t]
    names := if isNamed then addName L.names owner t.2.name else L.names
    bound := if isNamed then L.bound ++ [(owner, f)] else L.bound }

def addVariable (L : Ledger) (scope : ScopeId) (v : VariableDef) : Ledger :=
  { L with
    variableDefs := L.variableDefs ++ [v]
    names := addName L.names scope v.name }

/-- Classes and functions have their scopes, and nothing was called yet. -/
structure Housing (L : Ledger) (script : Script) (s : Symbols) : Prop where
  scopes : s.scopes.Furnished L.done
  calls : s.calls.Records []
  typeKeys : ∀ {id name k}, s.scopes.type? id name = some k → k ∈ script.typeKeys
  registered : ∀ {id name b k}, s.scopes.binding? id name = some b → b.symbol = .ofFunction k →
    ∃ f ∈ s.functions, f.key = k ∧ f.traits.isConstructor = false
  housed : ∀ f ∈ s.functions, f.Housed s.scopes L.done

/-- What was accepted is part of what was declared. -/
structure Tally (L : Ledger) (script : Script) (s : Stage Declarations) : Prop where
  functions : ∃ used : List FunctionText, used.Subperm L.functions ∧
    List.Forall₂ FunctionEntry.Is s.work.symbols.functions used ∧
    s.report.bodies.map (fun b => (b.function, b.source)) = used.map fun t => (t.1.key, t.2)
  initializers : (s.report.initializers.map (·.expr)).Subperm
    (L.variableDefs.flatMap (·.init.toList))
  starts : ∀ i ∈ s.report.initializers, i.Starts script L.done
  table : (s.work.layout.table.toList.map fun v => (⟨v.name, v.span⟩ : Ident)).Subperm
    (L.variableDefs.map (·.name))
  callCount : s.report.callCount = 0

/-- A scope declares its names and no others, unless a function is refused; only what the script
declares twice is reported, apart from problems with types. -/
structure Review (L : Ledger) (script : Script) (s : Stage Declarations) : Prop where
  own : ∀ {id name b}, s.work.symbols.scopes.binding? id name = some b → b.inherited = false →
    ⟨name, b.span⟩ ∈ L.names id
  declared : ∀ id, ∀ x ∈ L.names id,
    (∃ b, s.work.symbols.scopes.binding? id x.name = some b ∧ b.inherited = false) ∨
      ∃ name, .redefined "function" name x.span ∈ s.problems
  unnamed : ∀ id, s.work.symbols.scopes.size ≤ id.index → L.names id = []
  repeats : ∀ p ∈ s.problems, script.Repeats p ∨ p.ConcernsType
  bound : s.problems = [] → ∀ d ∈ L.bound, s.work.symbols.scopes.binding? d.1 d.2.name =
    some { symbol := .ofFunction d.2.key, span := d.2.span }

structure Inventory (L : Ledger) (script : Script) (s : Stage Declarations) : Prop where
  housing : L.Housing script s.work.symbols
  tally : L.Tally script s
  review : L.Review script s

variable {L : Ledger} {script : Script} {s s' : Stage Declarations} {f : FunctionEntry}
  {owner scope : ScopeId} {source : FunctionDef} {isNamed : Bool} {t : FunctionText}
  {v : VariableDef}

theorem mem_addName {names : ScopeId → List Ident} {id : ScopeId} {name x : Ident}
    (h : x ∈ names id) : x ∈ addName names scope name id := by
  rw [addName]
  split
  · exact List.mem_append_left _ h
  · exact h

theorem mem_of_mem_addName {names : ScopeId → List Ident} {id : ScopeId} {name x : Ident}
    (h : x ∈ addName names scope name id) : x ∈ names id ∨ id = scope ∧ x = name := by
  rw [addName] at h
  split at h
  · rename_i hid
    rcases List.mem_append.mp h with h | h
    · exact .inl h
    · exact .inr ⟨hid.symm, List.mem_singleton.mp h⟩
  · exact .inl h

theorem addName_self (names : ScopeId → List Ident) (scope : ScopeId) (name : Ident) :
    addName names scope name scope = names scope ++ [name] := if_pos rfl

theorem addName_eq_nil {names : ScopeId → List Ident} {id : ScopeId} {name : Ident}
    (h : names id = []) (hid : scope ≠ id) : addName names scope name id = [] := by
  rw [addName, if_neg hid, h]

theorem inventory_start (script : Script) (o : Options) :
    ({} : Ledger).Inventory script { work := .ofOptions o, report := {} } := by
  refine ⟨⟨Scopes.furnished_start, .empty, fun {id name k} h => ?_, fun {id name b k} h => ?_, nofun⟩,
    ⟨⟨[], .refl _, .nil, rfl⟩, .refl _, nofun, .refl _, rfl⟩,
    ⟨fun {id name b} h => ?_, fun _ => nofun, fun _ _ => rfl, nofun, fun _ => nofun⟩⟩
  · cases (Scopes.start_empty id name).2.symm.trans h
  · cases (Scopes.start_empty id name).1.symm.trans h
  · cases (Scopes.start_empty id name).1.symm.trans h

/-! ### Names of scopes -/

namespace Review

variable {L' : Ledger}

/-- Only names, bindings and problems count. -/
theorem congr (R : L.Review script s) (hnames : L'.names = L.names) (hbound : L'.bound = L.bound)
    (hbindings : ∀ id name, s'.work.symbols.scopes.binding? id name =
      s.work.symbols.scopes.binding? id name)
    (hsize : s.work.symbols.scopes.size ≤ s'.work.symbols.scopes.size)
    (hproblems : s'.problems = s.problems) : L'.Review script s' where
  own h hown := by
    rw [hnames]
    exact R.own ((hbindings ..).symm.trans h) hown
  declared id x hx := by
    rw [hbindings, hproblems]
    exact R.declared id x (hnames ▸ hx)
  unnamed id hid := by
    rw [hnames]
    exact R.unnamed id (Nat.le_trans hsize hid)
  repeats := by
    rw [hproblems]
    exact R.repeats
  bound h d hd := by
    rw [hbindings]
    exact R.bound (hproblems ▸ h) d (hbound ▸ hd)

theorem addName_unnamed (R : L.Review script s) {x : Ident} {id : ScopeId}
    (hscope : scope.index < s.work.symbols.scopes.size)
    (hid : s.work.symbols.scopes.size ≤ id.index) : addName L.names scope x id = [] := by
  refine addName_eq_nil (R.unnamed id hid) ?_
  rintro rfl
  omega

/-- A name that is not declared is reported, or its scope declared it before. -/
theorem report {p : Problem} (R : L.Review script s) (hp : script.Repeats p)
    (hnames : ∀ {id x}, x ∈ L.names id → x ∈ L'.names id)
    (hnew : ∀ {id x}, x ∈ L'.names id → x ∈ L.names id ∨
      (∃ b, s.work.symbols.scopes.binding? id x.name = some b ∧ b.inherited = false) ∨
        ∃ name, p = .redefined "function" name x.span)
    (hunnamed : ∀ id, s'.work.symbols.scopes.size ≤ id.index → L'.names id = [])
    (hbindings : ∀ id name, s'.work.symbols.scopes.binding? id name =
      s.work.symbols.scopes.binding? id name)
    (hproblems : s'.problems = s.problems ++ [p]) : L'.Review script s' where
  own h hown := hnames (R.own ((hbindings ..).symm.trans h) hown)
  declared id x hx := by
    rw [hbindings, hproblems]
    rcases hnew hx with hx | hown | ⟨name, rfl⟩
    · exact (R.declared id x hx).imp_right fun ⟨n, hn⟩ => ⟨n, List.mem_append_left _ hn⟩
    · exact .inl hown
    · exact .inr ⟨name, List.mem_append_right _ (List.mem_singleton_self _)⟩
  unnamed := hunnamed
  repeats q hq := by
    rw [hproblems] at hq
    rcases List.mem_append.mp hq with hq | hq
    · exact R.repeats q hq
    · cases List.mem_singleton.mp hq
      exact .inl hp
  bound h := absurd (List.append_eq_nil_iff.mp (hproblems.symm.trans h)).2 (List.cons_ne_nil _ _)

/-- A scope declares one more name. -/
theorem declares {scopes : Scopes} {symbol : Symbol} {x : Ident} (R : L.Review script s)
    (h : s.work.symbols.scopes.declare scope x.name symbol x.span = .ok scopes)
    (hnames : L'.names = addName L.names scope x)
    (hbound : ∀ d ∈ L'.bound, d ∈ L.bound ∨
      d.1 = scope ∧ (⟨d.2.name, d.2.span⟩ : Ident) = x ∧ symbol = .ofFunction d.2.key)
    (hunnamed : ∀ id, s'.work.symbols.scopes.size ≤ id.index → L'.names id = [])
    (hbindings : ∀ id name, s'.work.symbols.scopes.binding? id name = scopes.binding? id name)
    (hproblems : s'.problems = s.problems) : L'.Review script s' := by
  obtain ⟨_, hold, hbind⟩ := Scopes.declare_ok h
  refine ⟨fun {id name b} hb hown => ?_, fun id y hy => ?_, hunnamed, ?_, fun hnone d hd => ?_⟩
  · rw [hbindings, hbind] at hb
    rw [hnames]
    split at hb
    · rename_i hnew
      cases hb
      obtain ⟨rfl, rfl⟩ := hnew
      rw [addName_self]
      exact List.mem_append_right _ (List.mem_singleton_self _)
    · exact mem_addName (R.own hb hown)
  · rw [hbindings, hproblems]
    rw [hnames] at hy
    rcases mem_of_mem_addName hy with hy | ⟨rfl, rfl⟩
    · exact (R.declared id y hy).imp_left (Scopes.own_of_declare hbind)
    · exact .inl ⟨_, (hbind ..).trans (if_pos ⟨rfl, rfl⟩), rfl⟩
  · rw [hproblems]
    exact R.repeats
  · rw [hbindings, hbind]
    rcases hbound d hd with hd | ⟨hscope, rfl, rfl⟩
    · -- a name that is bound already is not bound again
      have hb := R.bound (hproblems ▸ hnone) d hd
      rw [if_neg, hb]
      rintro ⟨rfl, hsame⟩
      cases hold _ (hsame ▸ hb)
    · exact if_pos ⟨hscope.symm, rfl⟩

end Review

/-! ### Functions -/

theorem Housing.adds (H : L.Housing script s.work.symbols)
    (A : Declare.Adds f owner source isNamed s s') (hgrowing : Scopes.Growing L.done owner)
    (hlives : f.LivesIn L.done owner)
    (hnamed : isNamed = true → f.traits.isConstructor = false) :
    (L.addFunction owner f t isNamed).Housing script s'.work.symbols := by
  cases A with
  | refused taken => exact ⟨H.scopes, H.calls, H.typeKeys, H.registered, H.housed⟩
  | @added scopes problems fresh B =>
    have F := B.furnished H.scopes hgrowing
    obtain ⟨kind, parent, howner, _⟩ := F.has_growing hgrowing
    refine ⟨F.child howner.lt .function f.qualifiedName, H.calls.addFunction f.key,
      fun {id name k} h => ?_, fun {id name b k} h hsymbol => ?_, fun g hg => ?_⟩
    · change (scopes.child owner .function f.qualifiedName).type? id name = some k at h
      rw [Scopes.type?_child, B.type?_eq] at h
      exact H.typeKeys h
    · change (scopes.child owner .function f.qualifiedName).binding? id name = some b at h
      rw [Scopes.binding?_child] at h
      rcases B.binding?_cases h with h | ⟨h, rfl⟩
      · obtain ⟨g, hg, hrest⟩ := H.registered h hsymbol
        exact ⟨g, List.mem_append_left _ hg, hrest⟩
      · cases h.symm.trans hsymbol
        exact ⟨_, List.mem_append_right _ (List.mem_singleton_self _), rfl, hnamed rfl⟩
    · rcases List.mem_append.mp hg with hg | hg
      · refine (H.housed g hg).mono (List.Subset.refl _) fun hget hkind => ?_
        exact Scopes.get?_child_of_get? (B.get?_of_function H.scopes hgrowing hget hkind) ..
      · cases List.mem_singleton.mp hg
        refine ⟨scopes.nextId, owner, rfl, hlives.withScope _, ?_⟩
        exact (Scopes.get?_child ..).trans (if_pos rfl)

theorem Tally.adds (T : L.Tally script s) (A : Declare.Adds f owner source isNamed s s')
    (his : f.Is t) (hsource : t.2 = source) :
    (L.addFunction owner f t isNamed).Tally script s' := by
  obtain ⟨used, hused, hentries, hbodies⟩ := T.functions
  have hmore : used.Subperm (L.functions ++ [t]) :=
    hused.trans (List.sublist_append_left _ _).subperm
  cases A with
  | refused taken =>
    exact ⟨⟨used, hmore, hentries, hbodies⟩, T.initializers, T.starts, T.table, T.callCount⟩
  | @added scopes problems fresh B =>
    refine ⟨⟨used ++ [t], hused.append (.refl _), ?_, ?_⟩, T.initializers, T.starts, T.table,
      T.callCount⟩
    · exact List.rel_append hentries (.cons ⟨his.callable, his.key, his.params⟩ .nil)
    · subst hsource
      simp only [Declare.added, List.map_append, hbodies, List.map_singleton, his.key]

/-- The text of a registered function with the key. -/
theorem Tally.exists_text (T : L.Tally script s) {k : Key}
    (h : k ∈ s.work.symbols.functions.map (·.key)) : ∃ t ∈ L.functions, t.1.key = k := by
  obtain ⟨g, hg, rfl⟩ := List.mem_map.mp h
  obtain ⟨used, hused, hentries, _⟩ := T.functions
  obtain ⟨t, ht, his⟩ := exists_of_forall₂_left hentries hg
  exact ⟨t, hused.subset ht, his.key.symm⟩

theorem Review.adds (R : L.Review script s) (T : L.Tally script s)
    (A : Declare.Adds f owner source isNamed s s') (his : f.Is t)
    (hall : (L.functions ++ [t]).Subperm script.functions) (hspan : f.span = t.2.name.span)
    (hname : isNamed = true → f.name = t.2.name.name)
    (howner : owner.index < s.work.symbols.scopes.size)
    (htwice : isNamed = true → ∀ x ∈ L.names owner, x.name = t.2.name.name →
      script.DeclaresTwice x t.2.name) :
    (L.addFunction owner f t isNamed).Review script s' := by
  have hnames : ∀ {id x}, x ∈ L.names id → x ∈ (L.addFunction owner f t isNamed).names id := by
    intro id x hx
    cases isNamed
    · exact hx
    · exact mem_addName hx
  have hcases : ∀ {id x}, x ∈ (L.addFunction owner f t isNamed).names id →
      x ∈ L.names id ∨ isNamed = true ∧ id = owner ∧ x = t.2.name := by
    intro id x hx
    cases isNamed
    · exact .inl hx
    · exact (mem_of_mem_addName hx).imp_right fun h => ⟨rfl, h⟩
  have hunnamed : ∀ id : ScopeId, s.work.symbols.scopes.size ≤ id.index →
      (L.addFunction owner f t isNamed).names id = [] := by
    intro id hid
    cases isNamed
    · exact R.unnamed id hid
    · exact R.addName_unnamed howner hid
  cases A with
  | refused taken =>
    refine R.report ?_ hnames (fun hx => ?_) hunnamed (fun _ _ => rfl) rfl
    · -- two functions of the ledger have the key
      obtain ⟨t', ht', hkey⟩ := T.exists_text taken
      rw [hspan]
      refine .key (t := t') f.qualifiedName ?_ (hkey.trans his.key)
      exact ((List.singleton_subperm_iff.mpr ht').append (.refl [t])).trans hall
    · refine (hcases hx).imp_right fun ⟨_, _, he⟩ => .inr ⟨f.qualifiedName, ?_⟩
      rw [he, hspan]
  | @added scopes problems fresh B =>
    have hsize : s.work.symbols.scopes.size ≤ (scopes.child owner .function f.qualifiedName).size := by
      rw [Scopes.size_child, B.size_eq]
      exact Nat.le_succ _
    have hunnamed' : ∀ id : ScopeId, (scopes.child owner .function f.qualifiedName).size ≤ id.index →
        (L.addFunction owner f t isNamed).names id = [] :=
      fun id hid => hunnamed id (Nat.le_trans hsize hid)
    have hbindings := fun id name => Scopes.binding?_child scopes owner .function f.qualifiedName id name
    cases B with
    | unnamed => exact R.congr rfl rfl hbindings hsize (List.append_nil _)
    | taken hb hown =>
      refine R.report ?_ hnames (fun hx => ?_) hunnamed' hbindings rfl
      · rw [hname rfl, hspan]
        exact .function (htwice rfl _ (R.own hb hown) (hname rfl))
      · refine (hcases hx).imp_right fun ⟨_, hid, he⟩ => .inl ⟨_, ?_, hown⟩
        rw [hid, he, ← hname rfl]
        exact hb
    | bound hbound =>
      rw [hname rfl, hspan] at hbound
      refine R.declares hbound rfl (fun d hd => ?_) hunnamed' hbindings (List.append_nil _)
      refine (List.mem_append.mp hd).imp_right fun hd => ?_
      cases List.mem_singleton.mp hd
      exact ⟨rfl, by rw [hname rfl, hspan], rfl⟩

theorem Inventory.adds (I : L.Inventory script s) (A : Declare.Adds f owner source isNamed s s')
    (hgrowing : Scopes.Growing L.done owner) (hlives : f.LivesIn L.done owner) (his : f.Is t)
    (hsource : t.2 = source) (hall : (L.functions ++ [t]).Subperm script.functions)
    (hspan : f.span = t.2.name.span)
    (hname : isNamed = true → f.traits.isConstructor = false ∧ f.name = t.2.name.name)
    (htwice : isNamed = true → ∀ x ∈ L.names owner, x.name = t.2.name.name →
      script.DeclaresTwice x t.2.name) :
    (L.addFunction owner f t isNamed).Inventory script s' := by
  obtain ⟨kind, parent, howner, _⟩ := I.housing.scopes.has_growing hgrowing
  exact ⟨I.housing.adds A hgrowing hlives fun h => (hname h).1, I.tally.adds A his hsource,
    I.review.adds I.tally A his hall hspan (fun h => (hname h).2) howner.lt htwice⟩

/-! ### Variables -/

theorem Housing.addsVariable (H : L.Housing script s.work.symbols)
    (A : Declare.AddsVariable scope v s s') (hgrowing : Scopes.Growing L.done scope) :
    (L.addVariable scope v).Housing script s'.work.symbols := by
  cases A with
  | refused taken own => exact ⟨H.scopes, H.calls, H.typeKeys, H.registered, H.housed⟩
  | added bound table name span =>
    refine ⟨H.scopes.declare hgrowing bound, H.calls, fun {id name k} h => ?_,
      fun {id name b k} h hsymbol => ?_,
      fun g hg => (H.housed g hg).mono (List.Subset.refl _) fun hget hkind => ?_⟩
    · exact H.typeKeys ((Scopes.type?_declare bound id name).symm.trans h)
    · have h' := ((Scopes.declare_ok bound).2.2 id name).symm.trans h
      split at h'
      · cases h'
        cases hsymbol
      · exact H.registered h' hsymbol
    · exact H.scopes.get?_of_function hgrowing (Scopes.declare_ok bound).1 hget hkind

theorem Tally.addsVariable (T : L.Tally script s) (A : Declare.AddsVariable scope v s s')
    (hstarts : ∀ expr, v.init = some expr → Initializer.Starts ⟨scope, expr⟩ script L.done) :
    (L.addVariable scope v).Tally script s' := by
  have hinitializers : ((s.report.initializers ++ Declare.initializersOf scope v).map
      (·.expr)).Subperm ((L.variableDefs ++ [v]).flatMap (·.init.toList)) := by
    have hexprs : (Declare.initializersOf scope v).map (·.expr) = v.init.toList := by
      rw [Declare.initializersOf, List.map_map]
      exact List.map_id _
    rw [List.map_append, hexprs, List.flatMap_append, List.flatMap_singleton]
    exact T.initializers.append (.refl _)
  have hstarts' : ∀ i ∈ s.report.initializers ++ Declare.initializersOf scope v,
      i.Starts script L.done := by
    intro i hi
    rcases List.mem_append.mp hi with hi | hi
    · exact T.starts i hi
    · obtain ⟨expr, hexpr, rfl⟩ := List.mem_map.mp hi
      exact hstarts expr (Option.mem_toList.mp hexpr)
  cases A with
  | refused taken own =>
    refine ⟨T.functions, hinitializers, hstarts', ?_, T.callCount⟩
    rw [addVariable, List.map_append]
    exact T.table.trans (List.sublist_append_left _ _).subperm
  | @added scopes layout id w bound table name span =>
    refine ⟨T.functions, hinitializers, hstarts', ?_, T.callCount⟩
    have hw : (⟨w.name, w.span⟩ : Ident) = v.name := by rw [name, span]
    simp only [table, Array.toList_push, List.map_append, List.map_singleton, hw, addVariable]
    exact T.table.append (.refl _)

theorem Review.addsVariable (R : L.Review script s) (A : Declare.AddsVariable scope v s s')
    (hscope : scope.index < s.work.symbols.scopes.size)
    (htwice : ∀ x ∈ L.names scope, x.name = v.name.name → script.DeclaresTwice x v.name) :
    (L.addVariable scope v).Review script s' := by
  cases A with
  | refused taken own =>
    refine R.report (.variable (htwice _ (R.own taken own) rfl)) mem_addName (fun hx => ?_)
      (fun id hid => R.addName_unnamed hscope hid) (fun _ _ => rfl) rfl
    refine (mem_of_mem_addName hx).imp_right fun ⟨hid, he⟩ => .inl ⟨_, ?_, own⟩
    rw [hid, he]
    exact taken
  | added bound table name span =>
    exact R.declares bound rfl (fun _ hd => .inl hd)
      (fun id hid => R.addName_unnamed hscope ((Scopes.declare_ok bound).1.size ▸ hid))
      (fun _ _ => rfl) rfl

theorem Inventory.addsVariable (I : L.Inventory script s) (A : Declare.AddsVariable scope v s s')
    (hgrowing : Scopes.Growing L.done scope)
    (hstarts : ∀ expr, v.init = some expr → Initializer.Starts ⟨scope, expr⟩ script L.done)
    (htwice : ∀ x ∈ L.names scope, x.name = v.name.name → script.DeclaresTwice x v.name) :
    (L.addVariable scope v).Inventory script s' := by
  obtain ⟨kind, parent, hscope, _⟩ := I.housing.scopes.has_growing hgrowing
  exact ⟨I.housing.addsVariable A hgrowing, I.tally.addsVariable A hstarts,
    I.review.addsVariable A hscope.lt htwice⟩

/-! ### Types and problems -/

theorem Inventory.withTypes (I : L.Inventory script s) (types : List TypeEntry) :
    L.Inventory script
      { s with work := { s.work with symbols := { s.work.symbols with types } } } where
  housing := { I.housing with }
  tally := { I.tally with }
  review := { I.review with }

theorem Inventory.withTypeCount (I : L.Inventory script s) (typeCount : Nat) :
    L.Inventory script { s with report := { s.report with typeCount } } where
  housing := I.housing
  tally := { I.tally with }
  review := { I.review with }

theorem Inventory.addProblems (I : L.Inventory script s) {ps : List Problem}
    (hps : ∀ p ∈ ps, p.ConcernsType) :
    L.Inventory script { s with problems := s.problems ++ ps } where
  housing := I.housing
  tally := { I.tally with }
  review := { I.review with
    declared := fun id x hx => (I.review.declared id x hx).imp_right
      fun ⟨n, hn⟩ => ⟨n, List.mem_append_left _ hn⟩
    repeats := by
      intro p hp
      rcases List.mem_append.mp hp with hp | hp
      · exact I.review.repeats p hp
      · exact .inr (hps p hp)
    bound := fun h => I.review.bound (List.append_eq_nil_iff.mp h).1 }

theorem Inventory.declareType (I : L.Inventory script s) {scopes : Scopes} {name : String}
    {key : Key} {span : Span} (hgrowing : Scopes.Growing L.done scope)
    (h : s.work.symbols.scopes.declareType scope name key span = .ok scopes)
    (hkey : key ∈ script.typeKeys) :
    L.Inventory script { s with work := { s.work with symbols := { s.work.symbols with scopes } } } where
  housing := { I.housing with
    scopes := I.housing.scopes.declareType h
    typeKeys := by
      intro id name' k hk
      change scopes.type? id name' = some k at hk
      rw [Scopes.type?_declareType h] at hk
      split at hk
      · cases hk
        exact hkey
      · exact I.housing.typeKeys hk
    registered := fun hb => I.housing.registered ((Scopes.binding?_declareType h ..).symm.trans hb)
    housed := fun f hf => (I.housing.housed f hf).mono (List.Subset.refl _)
      (I.housing.scopes.get?_of_function hgrowing (Scopes.declareType_ok h)) }
  tally := { I.tally with }
  review := I.review.congr rfl rfl (fun _ _ => Scopes.binding?_declareType h ..)
    (Nat.le_of_eq (Scopes.declareType_ok h).size.symm) rfl

/-! ### Classes -/

theorem Housing.addClass {x : Completed} {base : Option Completed} {className : String}
    {scopes : Scopes} (H : L.Housing script s.work.symbols) (hbase : ∀ y ∈ base, y ∈ L.done)
    (hextended : x.base = base.map (·.key)) (hstatic : x.scopes.static = s.work.symbols.scopes.nextId)
    (hobject : x.scopes.object = ⟨s.work.symbols.scopes.size + 1⟩)
    (T : ((s.work.symbols.scopes.child .root .static className).child s.work.symbols.scopes.nextId
      .object className).TakesOver x.scopes (base.map (·.scopes)) scopes) :
    ({ L with done := x :: L.done } : Ledger).Housing script { s.work.symbols with scopes } where
  scopes := H.scopes.addClass hbase hextended hstatic hobject T
  calls := H.calls
  typeKeys := by
    intro id name k hk
    change scopes.type? id name = some k at hk
    rw [T.types, Scopes.type?_child, Scopes.type?_child] at hk
    exact H.typeKeys hk
  registered := by
    intro id name b k hb hsymbol
    change scopes.binding? id name = some b at hb
    obtain ⟨id', b', hb', hsame⟩ := T.exists_origin hb
    rw [Scopes.binding?_child, Scopes.binding?_child] at hb'
    exact H.registered hb' (hsame.trans hsymbol)
  housed := by
    intro f hf
    refine (H.housed f hf).mono (List.subset_cons_self ..) fun {id scope} hget hkind => ?_
    have hlt := Scopes.lt_of_get? hget
    refine (T.others ?_ ?_).trans (Scopes.get?_child_of_get? (Scopes.get?_child_of_get? hget ..) ..)
    · rintro rfl
      rw [hstatic] at hlt
      exact Nat.lt_irrefl _ hlt
    · rintro rfl
      rw [hobject] at hlt
      exact Nat.not_succ_lt_self hlt

/-- The scopes of a new class declare nothing yet, and no other scope changes. -/
theorem Inventory.addClass {x : Completed} {base : Option Completed} {className : String}
    {scopes : Scopes} (I : L.Inventory script s) (hbase : ∀ y ∈ base, y ∈ L.done)
    (hextended : x.base = base.map (·.key)) (hstatic : x.scopes.static = s.work.symbols.scopes.nextId)
    (hobject : x.scopes.object = ⟨s.work.symbols.scopes.size + 1⟩)
    (T : ((s.work.symbols.scopes.child .root .static className).child s.work.symbols.scopes.nextId
      .object className).TakesOver x.scopes (base.map (·.scopes)) scopes) :
    ({ L with done := x :: L.done } : Ledger).Inventory script
      { s with work := { s.work with symbols := { s.work.symbols with scopes } } } := by
  have hside : ∀ isStatic, s.work.symbols.scopes.size ≤ (x.scopes.side isStatic).index := by
    intro isStatic
    cases isStatic
    · exact (congrArg ScopeId.index hobject) ▸ Nat.le_succ _
    · exact (congrArg ScopeId.index hstatic) ▸ Nat.le_refl _
  have hold : ∀ {id}, (∀ isStatic, id ≠ x.scopes.side isStatic) → ∀ name,
      scopes.binding? id name = s.work.symbols.scopes.binding? id name := by
    intro id hid name
    rw [T.binding?_eq (hid true) (hid false), Scopes.binding?_child, Scopes.binding?_child]
  refine ⟨I.housing.addClass hbase hextended hstatic hobject T, { I.tally with starts := ?_ },
    { I.review with own := ?_, declared := ?_, unnamed := ?_, bound := ?_ }⟩
  · intro i hi
    exact (I.tally.starts i hi).mono (List.subset_cons_self ..)
  · intro id name b hb hown
    by_cases hid : ∀ isStatic, id ≠ x.scopes.side isStatic
    · exact I.review.own ((hold hid name).symm.trans hb) hown
    · -- what a new scope binds is taken over
      obtain ⟨isStatic, hid⟩ := not_forall.mp hid
      cases not_ne_iff.mp hid
      have hb' := (T.bindings isStatic name).symm.trans hb
      rw [Scopes.binding?_child, Scopes.binding?_child, Scopes.binding?_of_size_le (hside isStatic),
        Option.none_or] at hb'
      obtain ⟨b', _, rfl⟩ := Option.map_eq_some_iff.mp hb'
      cases hown
  · intro id y hy
    refine (I.review.declared id y hy).imp_left fun ⟨b, hb, hown⟩ => ⟨b, ?_, hown⟩
    refine (hold (fun isStatic he => ?_) _).trans hb
    cases (Scopes.binding?_of_size_le (he ▸ hside isStatic) _).symm.trans hb
  · intro id hid
    have hsize := T.size
    rw [Scopes.size_child, Scopes.size_child] at hsize
    change scopes.size ≤ id.index at hid
    exact I.review.unnamed id (by omega)
  · intro hp d hd
    have hb := I.review.bound hp d hd
    refine (hold (fun isStatic he => ?_) _).trans hb
    cases (Scopes.binding?_of_size_le (he ▸ hside isStatic) _).symm.trans hb

end Ledger

end Stackless
