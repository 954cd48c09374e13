import Mathlib.Data.List.Forall2
import Stackless.Program
import Stackless.Proofs.CallLog
import Stackless.Proofs.Pass

/-!
# What declaring a script leaves behind

Functions and bodies are added together: the entry of each function matches one body, whose scope
binds nothing yet (`Symbols.Declared`) and whose text stands in the script under the key of the
function (`Script.Declares`). All callers are functions with a body, no variable holds
frames, and storage is laid out as `Layout.Inv` says. The steps of the pass keep this; what they
bind goes to scopes that are no bodies, listed in `members`.
-/

namespace Stackless

theorem exists_of_forall₂_left {α β : Type} {R : α → β → Prop} {as : List α} {bs : List β}
    (H : List.Forall₂ R as bs) {a : α} (ha : a ∈ as) : ∃ b ∈ bs, R a b := by
  induction H with
  | nil => cases ha
  | cons h _ ih =>
    rcases List.mem_cons.mp ha with rfl | ha
    · exact ⟨_, List.mem_cons_self, h⟩
    · obtain ⟨b, hb, hab⟩ := ih ha
      exact ⟨b, List.mem_cons_of_mem _ hb, hab⟩

theorem exists_of_forall₂_right {α β : Type} {R : α → β → Prop} {as : List α} {bs : List β}
    (H : List.Forall₂ R as bs) {b : β} (hb : b ∈ bs) : ∃ a ∈ as, R a b :=
  exists_of_forall₂_left (R := fun b a => R a b) H.flip hb

/-- The script has a function with this text, known by this key. -/
inductive Script.Declares (s : Script) : Key → FunctionDef → Prop where
  | function {d : FunctionDef} (hd : .functionItem d ∈ s.items) :
    Declares s (.function d.name.name) d
  | method {c : ClassDef} {d : FunctionDef} (hc : .classItem c ∈ s.items)
      (hd : .method d ∈ c.members) : Declares s (.method c.key d.name.name) d
  | constructor {c : ClassDef} {d : FunctionDef} (hc : .classItem c ∈ s.items)
      (hd : .constructor d ∈ c.members) :
    Declares s (.constructor c.key (UInt64.ofNat d.params.length)) d
  | defaultConstructor {c : ClassDef} (hc : .classItem c ∈ s.items) :
    Declares s (.constructor c.key 0) (Declare.defaultConstructor c)

/-- The entry of a function as it is first registered. -/
structure FunctionEntry.Initial (f : FunctionEntry) (script : Script) (source : FunctionDef) :
    Prop where
  declared : script.Declares f.key source
  params : f.params = source.paramNames
  marked : f.traits.isRecursive = source.isRecursive
  plain : f.parameters = [] ∧ f.stacked = false

/-- The entry of a function belongs to a body. -/
structure FunctionEntry.Matches (f : FunctionEntry) (b : Body) : Prop where
  key : b.function = f.key
  scope : f.scope = some b.scope
  params : f.params = b.source.paramNames
  marked : f.traits.isRecursive = b.source.isRecursive

/-- The symbols while functions are declared. The functions in `pending` have no body yet. -/
structure Symbols.Declared (s : Symbols) (members : List ScopeId) (pending : List FunctionEntry)
    (bodies : List Body) : Prop where
  grown : ∃ log, s.Grown log ∧ ∀ c ∈ log, c.caller ∈ bodies.map (·.function)
  entries : ∃ fs, s.functions = fs ++ pending ∧ List.Forall₂ FunctionEntry.Matches fs bodies
  plain : ∀ f ∈ s.functions, f.parameters = [] ∧ f.stacked = false
  members : ∀ id ∈ members, ∃ scope, s.scopes.get? id = some scope ∧ scope.kind ≠ .function
  fresh : ∀ b ∈ bodies, ∃ scope, s.scopes.get? b.scope = some scope ∧
    scope.kind = .function ∧ scope.bindings = {}
  distinct : (bodies.map (·.scope)).Nodup

namespace Symbols.Declared

variable {s s' : Symbols} {members : List ScopeId} {pending : List FunctionEntry}
  {bodies : List Body} {f : FunctionEntry}

theorem empty : ({} : Symbols).Declared [.root] [] [] where
  grown := ⟨[], .empty, by simp⟩
  entries := ⟨[], rfl, .nil⟩
  plain := by simp
  members := by
    intro id hid
    cases List.mem_singleton.mp hid
    exact ⟨_, rfl, by simp⟩
  fresh := by simp
  distinct := by simp

theorem withTypes (D : s.Declared members pending bodies) (types : List TypeEntry) :
    ({ s with types } : Symbols).Declared members pending bodies where
  grown := by
    obtain ⟨log, hgrown, hcallers⟩ := D.grown
    exact ⟨log, hgrown.other types s.scopes, hcallers⟩
  entries := D.entries
  plain := D.plain
  members := D.members
  fresh := D.fresh
  distinct := D.distinct

/-- A scope that is no body can be changed. -/
theorem changeScope (D : s.Declared members pending bodies) {id : ScopeId} {scopes : Scopes}
    (hid : id ∈ members) (C : s.scopes.Changes id scopes) :
    ({ s with scopes } : Symbols).Declared members pending bodies where
  grown := by
    obtain ⟨log, hgrown, hcallers⟩ := D.grown
    exact ⟨log, hgrown.other s.types scopes, hcallers⟩
  entries := D.entries
  plain := D.plain
  members id' hid' := by
    obtain ⟨scope, hscope, hkind⟩ := D.members id' hid'
    obtain ⟨scope', hscope', hsame⟩ := C.kind_of hscope
    exact ⟨scope', hscope', hsame ▸ hkind⟩
  fresh b hb := by
    obtain ⟨scope, hscope, hkind, hempty⟩ := D.fresh b hb
    obtain ⟨target, htarget, hother⟩ := D.members id hid
    refine ⟨scope, (C.others ?_).trans hscope, hkind, hempty⟩
    rintro rfl
    cases htarget.symm.trans hscope
    exact hother hkind
  distinct := D.distinct

theorem newScope (D : s.Declared members pending bodies) (parent : ScopeId) (kind : ScopeKind)
    (name : String) :
    ({ s with scopes := s.scopes.child parent kind name } : Symbols).Declared members pending
      bodies where
  grown := by
    obtain ⟨log, hgrown, hcallers⟩ := D.grown
    exact ⟨log, hgrown.other s.types _, hcallers⟩
  entries := D.entries
  plain := D.plain
  members id hid := by
    obtain ⟨scope, hscope, hkind⟩ := D.members id hid
    exact ⟨scope, Scopes.get?_child_of_get? hscope .., hkind⟩
  fresh b hb := by
    obtain ⟨scope, hscope, hrest⟩ := D.fresh b hb
    exact ⟨scope, Scopes.get?_child_of_get? hscope .., hrest⟩
  distinct := D.distinct

theorem newMember (D : s.Declared members pending bodies) {kind : ScopeKind}
    (hkind : kind ≠ .function) (parent : ScopeId) (name : String) :
    ({ s with scopes := s.scopes.child parent kind name } : Symbols).Declared
      (s.scopes.nextId :: members) pending bodies :=
  { D.newScope parent kind name with
    members := by
      intro id hid
      rcases List.mem_cons.mp hid with rfl | hid
      · exact ⟨_, by rw [Scopes.get?_child, if_pos rfl], hkind⟩
      · exact (D.newScope parent kind name).members id hid }

theorem forget {id : ScopeId} (D : s.Declared (id :: members) pending bodies) :
    s.Declared members pending bodies :=
  { D with members := fun id hid => D.members id (List.mem_cons_of_mem _ hid) }

theorem addFunction (D : s.Declared members [] bodies) (h : s.addFunction f = .ok s')
    (hplain : f.parameters = [] ∧ f.stacked = false) : s'.Declared members [f] bodies := by
  obtain ⟨_, rfl⟩ := addFunction_ok h
  refine ⟨?_, ?_, ?_, D.members, D.fresh, D.distinct⟩
  · obtain ⟨log, hgrown, hcallers⟩ := D.grown
    exact ⟨log, hgrown.addFunction h, hcallers⟩
  · obtain ⟨fs, hfs, hmatch⟩ := D.entries
    exact ⟨fs, by simp [hfs], hmatch⟩
  · intro g hg
    rcases List.mem_append.mp hg with hg | hg
    · exact D.plain g hg
    · cases List.mem_singleton.mp hg
      exact hplain

theorem keys_nodup (D : s.Declared members pending bodies) : (s.functions.map (·.key)).Nodup := by
  obtain ⟨log, hgrown, _⟩ := D.grown
  exact hgrown.keys

/-- A function that was just added gets its body, with a scope of its own. -/
theorem addBody (D : s.Declared members [f] bodies) {source : FunctionDef}
    (hparams : f.params = source.paramNames)
    (hmarked : f.traits.isRecursive = source.isRecursive) (owner : ScopeId) :
    (Symbols.updateFunction
      { s with scopes := s.scopes.child owner .function f.qualifiedName } f.key
      fun g => { g with scope := some s.scopes.nextId }).Declared members []
      (bodies ++ [{ function := f.key, scope := s.scopes.nextId, source }]) := by
  have D' := D.newScope owner .function f.qualifiedName
  obtain ⟨fs, hfs, hmatch⟩ := D.entries
  have hkeep : ∀ g ∈ fs, g.key ≠ f.key := by
    intro g hg he
    have hnd := D.keys_nodup
    rw [hfs, List.map_append, List.nodup_append] at hnd
    exact hnd.2.2 _ (List.mem_map_of_mem hg) _ (List.mem_singleton_self _) he
  have hfunctions : (Symbols.updateFunction
      { s with scopes := s.scopes.child owner .function f.qualifiedName } f.key
      fun g => { g with scope := some s.scopes.nextId }).functions =
      fs ++ [{ f with scope := some s.scopes.nextId }] := by
    simp only [updateFunction, hfs, List.map_append, List.map_cons, List.map_nil, if_true]
    congr 1
    exact (List.map_congr_left fun g hg => if_neg (hkeep g hg)).trans (List.map_id _)
  refine ⟨?_, ⟨fs ++ [{ f with scope := some s.scopes.nextId }], ?_, ?_⟩, ?_, D'.members, ?_, ?_⟩
  · obtain ⟨log, hgrown, hcallers⟩ := D'.grown
    refine ⟨log, hgrown.updateFunction f.key fun _ => rfl, fun c hc => ?_⟩
    rw [List.map_append]
    exact List.mem_append_left _ (hcallers c hc)
  · rw [hfunctions, List.append_nil]
  · exact List.rel_append hmatch (.cons ⟨rfl, rfl, hparams, hmarked⟩ .nil)
  · rw [hfunctions]
    intro g hg
    rcases List.mem_append.mp hg with hg | hg
    · exact D.plain g (hfs ▸ List.mem_append_left _ hg)
    · cases List.mem_singleton.mp hg
      exact D.plain f (hfs ▸ List.mem_append_right _ (List.mem_singleton_self _))
  · intro b hb
    rcases List.mem_append.mp hb with hb | hb
    · exact D'.fresh b hb
    · cases List.mem_singleton.mp hb
      exact ⟨_, by simp only [updateFunction]; rw [Scopes.get?_child, if_pos rfl], rfl, rfl⟩
  · rw [List.map_append, List.nodup_append]
    refine ⟨D.distinct, by simp, ?_⟩
    rintro id hid id' hid' rfl
    cases List.mem_singleton.mp hid'
    obtain ⟨b, hb, hscope⟩ := List.mem_map.mp hid
    obtain ⟨scope, hget, _⟩ := D.fresh b hb
    exact Scopes.ne_nextId hget hscope

theorem recordCall (D : s.Declared members pending bodies) {caller : Key}
    (hcaller : caller ∈ bodies.map (·.function)) (callee : Key) (site : Span) :
    (s.recordCall caller callee site).Declared members pending bodies where
  grown := by
    obtain ⟨log, hgrown, hcallers⟩ := D.grown
    refine ⟨_, hgrown.recordCall caller callee site, fun c hc => ?_⟩
    rcases List.mem_append.mp hc with hc | hc
    · exact hcallers c hc
    · cases List.mem_singleton.mp hc
      exact hcaller
  entries := D.entries
  plain := D.plain
  members := D.members
  fresh := D.fresh
  distinct := D.distinct

end Symbols.Declared

structure Workspace.Declared (w : Workspace) (script : Script) (o : Options)
    (members : List ScopeId) (pending : List FunctionEntry) (bodies : List Body) : Prop where
  symbols : w.symbols.Declared members pending bodies
  origins : ∀ b ∈ bodies, script.Declares b.function b.source
  layout : w.layout.Inv
  options : w.layout.options = o
  unstacked : ∀ {id v}, w.layout.get? id = some v → v.stacked = false

theorem Workspace.Declared.withSymbols {w : Workspace} {symbols : Symbols} {script : Script}
    {o : Options} {members members' : List ScopeId} {pending pending' : List FunctionEntry}
    {bodies : List Body} (D : w.Declared script o members pending bodies)
    (H : symbols.Declared members' pending' bodies) :
    ({ w with symbols } : Workspace).Declared script o members' pending' bodies :=
  { D with symbols := H }

namespace Declare

def Holds (script : Script) (o : Options) (members : List ScopeId) (pending : List FunctionEntry)
    (s : Stage Declarations) : Prop :=
  s.work.Declared script o members pending s.report.bodies

variable {script : Script} {o : Options} {members : List ScopeId} {pending : List FunctionEntry}
  {f : FunctionEntry} {owner : ScopeId} {source : FunctionDef}

theorem preserves_note {g : Declarations → Declarations} (hg : ∀ d, (g d).bodies = d.bodies) :
    Preserves (Holds script o members pending) (Pass.note g) :=
  Pass.ensures_note fun s hs => by
    change s.work.Declared script o members pending (g s.report).bodies
    exact hg s.report ▸ hs

theorem preserves_onScopes {change : Scopes → Except Refusal Scopes} {id : ScopeId}
    (hid : id ∈ members) (hchange : ∀ s s', change s = .ok s' → s.Changes id s') :
    Preserves (Holds script o members pending) (Pass.attempt (Workspace.onScopes change)) := by
  refine Pass.ensures_attempt_onSymbols (fun s hs symbols h => ?_) fun s hs _ => hs
  split at h
  · rename_i scopes hscopes
    cases h
    exact hs.withSymbols (hs.symbols.changeScope hid (hchange _ _ hscopes))
  · cases h

theorem preserves_addType (t : TypeEntry) :
    Preserves (Holds script o members pending) (Pass.attempt (Workspace.addType t)) := by
  refine Pass.ensures_attempt_onSymbols (fun s hs symbols h => ?_) fun s hs _ => hs
  simp only [Symbols.addType] at h
  split at h
  · cases h
  · cases h
    exact hs.withSymbols (hs.symbols.withTypes _)

theorem ensures_addFunction (hplain : f.parameters = [] ∧ f.stacked = false) :
    Ensures (Holds script o members []) (Pass.attempt (Workspace.addFunction f))
      fun added => Holds script o members (if added.isSome then [f] else []) := by
  refine Pass.ensures_attempt_onSymbols (fun s hs symbols h => ?_) fun s hs _ => hs
  cases hadd : s.work.symbols.addFunction f with
  | error p => rw [hadd] at h; cases h
  | ok symbols' =>
    rw [hadd] at h
    cases h
    exact hs.withSymbols (hs.symbols.addFunction hadd hplain)

theorem ensures_addBody (H : f.Initial script source) :
    Ensures (Holds script o members [f]) (addBody f owner source)
      fun _ => Holds script o members [] := by
  -- The scope and the entry are changed in two steps; the invariant holds again after the third.
  intro s hs a s' h
  cases h
  refine ⟨hs.symbols.addBody H.params H.marked owner, fun b hb => ?_, hs.layout, hs.options,
    hs.unstacked⟩
  rcases List.mem_append.mp hb with hb | hb
  · exact hs.origins b hb
  · cases List.mem_singleton.mp hb
    exact H.declared

theorem preserves_function (H : f.Initial script source) (howner : owner ∈ members) :
    Preserves (Holds script o members []) (function f owner source) := by
  refine (ensures_addFunction H.plain).bind fun added => ?_
  cases added with
  | none => exact .pure fun _ hs => hs
  | some _ =>
    exact (preserves_onScopes howner fun _ _ h => (Scopes.declare_ok h).1).bind fun _ =>
      ensures_addBody H

theorem preserves_constructor (H : f.Initial script source) :
    Preserves (Holds script o members []) (constructor f owner source) := by
  refine (ensures_addFunction H.plain).bind fun added => ?_
  cases added with
  | none => exact .pure fun _ hs => hs
  | some _ => exact ensures_addBody H

theorem preserves_declareVariable {scope : ScopeId} {name : String} {domain : Domain}
    {kind : VariableKind} {span : Span} (hscope : scope ∈ members) :
    Preserves (Holds script o members pending)
      (Pass.attempt (Workspace.declareVariable scope name domain kind span)) := by
  refine Pass.ensures_attempt (fun s hs id work h => ?_) fun s hs p work h => ?_
  · obtain ⟨location, D, _⟩ := Workspace.declareVariable_ok hs.layout h
    refine ⟨?_, hs.origins, D.inv, D.options.trans hs.options, fun {id v} hv => ?_⟩
    · rw [D.symbols]
      exact hs.symbols.changeScope hscope (Scopes.declare_ok D.bound).1
    · rw [D.table] at hv
      split at hv
      · cases hv; rfl
      · exact hs.unstacked hv
  · obtain ⟨rfl, _⟩ := Workspace.declareVariable_problem h
    exact hs

theorem preserves_variableDef {scope : ScopeId} (hscope : scope ∈ members) (v : VariableDef) :
    Preserves (Holds script o members pending) (variableDef scope v) := by
  refine (preserves_declareVariable hscope).bind fun id => ?_
  dsimp only
  split
  · refine (preserves_note (g := fun d => { d with variableCount := d.variableCount + 1 })
      fun _ => rfl).bind fun _ => ?_
    split
    · exact preserves_note fun _ => rfl
    · exact .pure fun _ hs => hs
  · split
    · exact preserves_note fun _ => rfl
    · exact .pure fun _ hs => hs

theorem preserves_className (hroot : .root ∈ members) (c : ClassDef) :
    Preserves (Holds script o members pending) (className c) := by
  refine (preserves_addType _).bind fun added => ?_
  cases added with
  | none => exact .pure fun _ hs => hs
  | some _ =>
    exact (preserves_onScopes hroot fun _ _ h => Scopes.declareType_ok h).bind fun _ =>
      .pure fun _ hs => hs

theorem ensures_names (hroot : .root ∈ members) {items : List Item}
    (hitems : items ⊆ script.items) :
    Ensures (Holds script o members []) (names items) fun classes s =>
      Holds script o members [] s ∧ ∀ c ∈ classes, .classItem c ∈ script.items := by
  induction items with
  | nil => exact .pure fun _ hs => ⟨hs, by simp⟩
  | cons item rest ih =>
    obtain ⟨hitem, hrest⟩ := List.cons_subset.mp hitems
    cases item with
    | classItem c =>
      refine (preserves_className hroot c).bind fun isNew => (ih hrest).bind fun classes => ?_
      refine .pure fun _ hs => ⟨hs.1, fun c' hc' => ?_⟩
      split at hc'
      · rcases List.mem_cons.mp hc' with rfl | hc'
        · exact hitem
        · exact hs.2 c' hc'
      · exact hs.2 c' hc'
    | functionItem f =>
      exact (preserves_function ⟨.function hitem, rfl, rfl, rfl, rfl⟩ hroot).bind fun _ => ih hrest
    | variableItem _ => exact ih hrest

theorem preserves_globals (hroot : .root ∈ members) (items : List Item) :
    Preserves (Holds script o members pending) (globals items) := by
  induction items with
  | nil => exact .pure fun _ hs => hs
  | cons item rest ih =>
    cases item with
    | variableItem v => exact (preserves_variableDef hroot v).bind fun _ => ih
    | classItem _ => exact ih
    | functionItem _ => exact ih

/-! ## Classes -/

theorem preserves_generics (c : ClassDef) (gs : List Ident) :
    Preserves (Holds script o members pending) (generics c gs) := by
  induction gs with
  | nil => exact .pure fun _ hs => hs
  | cons g rest ih =>
    exact (preserves_addType _).bind fun _ => ih.bind fun _ => .pure fun _ hs => hs

theorem preserves_updateType (key : Key) (g : TypeEntry → TypeEntry) :
    Preserves (Holds script o members pending) (updateType key g) := by
  refine Pass.ensures_symbols.bind fun symbols => ?_
  split
  · exact Pass.ensures_modifySymbols fun s hs => hs.1.withSymbols (hs.1.symbols.withTypes _)
  · exact .throw _

theorem preserves_openClass (c : ClassDef) :
    Preserves (Holds script o members pending) (openClass c) :=
  (preserves_updateType ..).bind fun _ => preserves_generics ..

theorem preserves_bindGenerics {m : MemberScopes} (hstatic : m.static ∈ members)
    (hobject : m.object ∈ members) (gs : List Generic) :
    Preserves (Holds script o members pending) (bindGenerics m gs) := by
  have hbind : ∀ {scope}, scope ∈ members → ∀ g, Preserves (Holds script o members pending)
      (bindGeneric scope g) := fun hscope g =>
    (preserves_onScopes hscope fun _ _ h => Scopes.declareType_ok h).bind fun _ =>
      .pure fun _ hs => hs
  induction gs with
  | nil => exact .pure fun _ hs => hs
  | cons g rest ih => exact (hbind hstatic g).bind fun _ => (hbind hobject g).bind fun _ => ih

theorem preserves_member {c : ClassDef} {m : MemberScopes} (hc : .classItem c ∈ script.items)
    (hstatic : m.static ∈ members) (hobject : m.object ∈ members) {x : Member}
    (hx : x ∈ c.members) :
    Preserves (Holds script o members []) (member c m x) := by
  have hscope : ∀ b : Bool, (if b then m.static else m.object) ∈ members := by
    intro b
    cases b
    · exact hobject
    · exact hstatic
  cases x with
  | method f => exact preserves_function ⟨.method hc hx, rfl, rfl, rfl, rfl⟩ (hscope _)
  | constructor f => exact preserves_constructor ⟨.constructor hc hx, rfl, rfl, rfl, rfl⟩
  | field v => exact preserves_variableDef (hscope _) v

theorem preserves_members {c : ClassDef} {m : MemberScopes} (hc : .classItem c ∈ script.items)
    (hstatic : m.static ∈ members) (hobject : m.object ∈ members) {xs : List Member}
    (hxs : xs ⊆ c.members) :
    Preserves (Holds script o members []) (Declare.members c m xs) := by
  induction xs with
  | nil => exact .pure fun _ hs => hs
  | cons x rest ih =>
    obtain ⟨hx, hrest⟩ := List.cons_subset.mp hxs
    exact (preserves_member hc hstatic hobject hx).bind fun _ => ih hrest

theorem preserves_merge {target source : ScopeId} (htarget : target ∈ members) :
    Preserves (Holds script o members pending) (Pass.lift (Workspace.merge target source)) := by
  refine Pass.ensures_lift fun s hs n work h => ?_
  simp only [Workspace.merge] at h
  split at h
  · rename_i hmerge
    cases h
    exact hs.withSymbols (hs.symbols.changeScope htarget (Scopes.merge_ok hmerge))
  · cases h

theorem preserves_inheritFrom {m : MemberScopes} (hstatic : m.static ∈ members)
    (hobject : m.object ∈ members) (base : Option MemberScopes) :
    Preserves (Holds script o members pending) (inheritFrom m base) := by
  cases base with
  | none => exact .pure fun _ hs => hs
  | some b =>
    exact (preserves_merge hstatic).bind fun _ => (preserves_merge hobject).bind fun _ =>
      .pure fun _ hs => hs

theorem preserves_extended (c : ClassDef) (gs : List Generic) :
    Preserves (Holds script o members pending) (extended c gs) := by
  refine Pass.ensures_symbols.bind fun symbols => ?_
  split
  · exact .throw _
  · exact .pure fun _ hs => hs.1
  · exact (Pass.ensures_addProblems (Q := fun _ => Holds script o members pending)
      fun _ hs => hs.1).bind fun _ => .pure fun _ hs => hs
  · split
    · exact .pure fun _ hs => hs.1
    · exact .throw _

theorem ensures_newMember {kind : ScopeKind} (hkind : kind ≠ .function) (parent : ScopeId)
    (name : String) : Ensures (Holds script o members pending) (Pass.newScope parent kind name)
      fun scope => Holds script o (scope :: members) pending :=
  Pass.ensures_newScope fun _ hs => hs.withSymbols (hs.symbols.newMember hkind parent name)

theorem preserves_closeClass {c : ClassDef} (hc : .classItem c ∈ script.items)
    (gs : List Generic) :
    Preserves (Holds script o members []) (closeClass c gs) := by
  refine (preserves_extended c gs).bind fun base => ?_
  refine (ensures_newMember (by simp) .root c.name.name).bind fun static => ?_
  refine (ensures_newMember (by simp) static c.name.name).bind fun object => ?_
  have hstatic : static ∈ object :: static :: members := by simp
  have hobject : object ∈ object :: static :: members := by simp
  refine (preserves_inheritFrom hstatic hobject _).bind fun _ => ?_
  refine (preserves_bindGenerics hstatic hobject gs).bind fun _ => ?_
  refine (preserves_updateType ..).bind fun _ => ?_
  refine (preserves_members hc hstatic hobject fun _ h => h).bind fun _ => ?_
  have hend : Ensures (Holds script o (object :: static :: members) [])
      (updateType c.key (fun t => { t with progress := .resolved }) >>= fun _ =>
        Pass.note fun d => { d with typeCount := d.typeCount + 1 })
      fun _ => Holds script o members [] := by
    refine (preserves_updateType ..).bind fun _ => (preserves_note ?_).weaken fun _ _ hs =>
      Workspace.Declared.withSymbols hs hs.symbols.forget.forget
    exact fun _ => rfl
  dsimp only
  split
  · exact (preserves_constructor ⟨.defaultConstructor hc, rfl, rfl, rfl, rfl⟩).bind fun _ => hend
  · exact hend

variable {classes : List ClassDef}

theorem mem_of_classOf {key : Key} {c : ClassDef} (h : classOf classes key = .ok c) :
    c ∈ classes := by
  simp only [classOf] at h
  split at h
  · rename_i hfind
    cases h
    exact List.mem_of_find?_eq_some hfind
  · cases h

theorem ensures_beginClass (key : Key) :
    Ensures (Holds script o members []) (beginClass classes key) fun x s =>
      Holds script o members [] s ∧ ∀ c gs, x = some (c, gs) → c ∈ classes := by
  refine Pass.ensures_symbols.bind fun symbols => ?_
  split
  · exact .throw _
  · split
    · split
      · exact .throw _
      · rename_i c hc
        refine ((preserves_openClass c).strengthen fun _ hs => hs.1).bind fun gs => ?_
        refine .pure fun _ hs => ⟨hs, fun c' gs' he => ?_⟩
        cases he
        exact mem_of_classOf hc
    · exact .pure fun _ hs => ⟨hs.1, by simp⟩

theorem preserves_complete (hclasses : ∀ c ∈ classes, .classItem c ∈ script.items) (key : Key) :
    Preserves (Holds script o members []) (complete classes key) := by
  intro s hs a s' h
  fun_induction complete classes key s generalizing a s' with
  | case1 key s f s₁ hbegin => cases h
  | case2 key s s₁ hbegin =>
    cases h
    exact (ensures_beginClass key hs hbegin).1
  | case3 key s c gs s₁ hbegin hpoints =>
    obtain ⟨hs₁, hc⟩ := ensures_beginClass key hs hbegin
    exact preserves_closeClass (hclasses c (hc c gs rfl)) gs hs₁ h
  | case4 key s c gs s₁ hbegin base hpoints f s₂ hbase ih => cases h
  | case5 key s c gs s₁ hbegin base hpoints u s₂ hbase ih =>
    obtain ⟨hs₁, hc⟩ := ensures_beginClass key hs hbegin
    exact preserves_closeClass (hclasses c (hc c gs rfl)) gs (ih hs₁ hbase) h

theorem preserves_completeAll (hclasses : ∀ c ∈ classes, .classItem c ∈ script.items)
    (todo : List ClassDef) :
    Preserves (Holds script o members []) (completeAll classes todo) := by
  induction todo with
  | nil => exact .pure fun _ hs => hs
  | cons c rest ih => exact (preserves_complete hclasses ..).bind fun _ => ih

/-! ## Calls -/

variable {bodies : List Body}

/-- All functions are declared, with these bodies. -/
def Settled (script : Script) (o : Options) (bodies : List Body) (s : Stage Declarations) : Prop :=
  Holds script o [.root] [] s ∧ s.report.bodies = bodies

theorem preserves_linkSite {caller : Option Key}
    (hcaller : ∀ key ∈ caller, key ∈ bodies.map (·.function)) (scope : ScopeId)
    (site : CallSite) :
    Preserves (Settled script o bodies) (linkSite caller scope site) := by
  refine Pass.ensures_symbols.bind fun symbols => ?_
  split
  · exact Pass.ensures_addProblems fun _ hs => hs.1
  · refine (Pass.ensures_addProblems (Q := fun _ => Settled script o bodies)
      fun _ hs => hs.1).bind fun _ => ?_
    cases caller with
    | none => exact .pure fun _ hs => hs
    | some key =>
      refine (Pass.ensures_modifySymbols (Q := fun _ => Settled script o bodies) fun s hs =>
        ⟨hs.1.withSymbols (hs.1.symbols.recordCall ?_ ..), hs.2⟩).bind fun _ =>
          Pass.ensures_note fun _ hs => hs
      rw [hs.2]
      exact hcaller key rfl

theorem preserves_linkSites {caller : Option Key}
    (hcaller : ∀ key ∈ caller, key ∈ bodies.map (·.function)) (scope : ScopeId)
    (sites : List CallSite) :
    Preserves (Settled script o bodies) (linkSites caller scope sites) := by
  induction sites with
  | nil => exact .pure fun _ hs => hs
  | cons site rest ih => exact (preserves_linkSite hcaller scope site).bind fun _ => ih

theorem preserves_linkBodies {bs : List Body} (hbs : bs ⊆ bodies) :
    Preserves (Settled script o bodies) (linkBodies bs) := by
  induction bs with
  | nil => exact .pure fun _ hs => hs
  | cons b rest ih =>
    refine (preserves_linkSites ?_ _ _).bind fun _ => ih fun _ h => hbs (List.mem_cons_of_mem _ h)
    rintro _ ⟨⟩
    exact List.mem_map_of_mem (hbs List.mem_cons_self)

theorem preserves_linkInitializers (is : List Initializer) :
    Preserves (Settled script o bodies) (linkInitializers is) := by
  induction is with
  | nil => exact .pure fun _ hs => hs
  | cons i rest ih => exact (preserves_linkSites (by simp) _ _).bind fun _ => ih

theorem preserves_script (s : Script) :
    Preserves (Holds s o [.root] []) (Declare.script s) := by
  refine (ensures_names (by simp) fun _ h => h).bind fun classes => ?_
  refine (Ensures.assume fun hclasses => preserves_completeAll hclasses classes).bind fun _ => ?_
  refine (preserves_globals (by simp) _).bind fun _ => ?_
  refine Ensures.get.bind fun stage => ?_
  refine ((preserves_linkBodies (List.Subset.refl stage.report.bodies)).strengthen
    fun s hs => ⟨hs.1, by rw [hs.2]⟩).bind fun _ => ?_
  exact (preserves_linkInitializers _).weaken fun _ _ hs => hs.1

end Declare

theorem Workspace.declare_ok {s : Script} {o : Options} {d : Declarations} {ps : List Problem}
    {w : Workspace} (h : Workspace.declare s (.ofOptions o) = .ok (d, ps) w) :
    w.Declared s o [.root] [] d.bodies := by
  simp only [Workspace.declare, Pass.run] at h
  split at h
  · rename_i stage hrun
    cases h
    refine Declare.preserves_script s ?_ hrun
    exact ⟨.empty, by simp, .ofOptions o, rfl, by simp [Workspace.ofOptions, Layout.get?]⟩
  · cases h

end Stackless
