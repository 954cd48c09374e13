import Stackless.Proofs.Surroundings

/-!
# The call graph

Every call in the body of a function is recorded once, as a call of the function that it means, or
it is reported once because it means none. What a call means is said here by the scopes around the
body (`Symbols.callee?`), without regard to keys. So a creation means a constructor of its type; the
compiler asks for that by key, and finds it if no other function has the key
(`Script.ConstructorsDistinct`).
-/

namespace Stackless

/-! ## Specification -/

namespace Symbols

/-- The function that a class binds to a name. Members of objects come first. -/
def method? (s : Symbols) (type : Key) (name : String) : Option Key :=
  [false, true].findSome? fun isStatic =>
    (s.member? isStatic name type).bind (·.symbol.toFunction?)

/-- The constructor of a type for a number of arguments, or else the only one that it has. -/
def constructorFor? (s : Symbols) (type : Key) (arity : Nat) : Option FunctionEntry :=
  match (s.constructors type).find? (·.arity = arity), s.constructors type with
  | some f, _ => some f
  | none, [f] => some f
  | none, _ => none

/-- The function that a call means in some scopes, nearest first. -/
def callee? (s : Symbols) (scopes : List ScopeId) (site : CallSite) : Option FunctionEntry :=
  match site.callee with
  | .function none name =>
    ((s.scopes.visible? scopes name.name).bind (·.symbol.toFunction?)).bind s.function?
  | .function (some qualifier) name =>
    ((s.typeIn? scopes qualifier.name).bind (s.method? · name.name)).bind s.function?
  | .constructor type => (s.typeIn? scopes type.name).bind (s.constructorFor? · site.arity)

end Symbols

/-- The type that a call names. -/
def CallSite.type? (site : CallSite) : Option Ident :=
  match site.callee with
  | .function qualifier _ => qualifier
  | .constructor type => some type

/-- The number of arguments of a creation. -/
def CallSite.created? (site : CallSite) : Option Nat :=
  match site.callee with
  | .function .. => none
  | .constructor _ => some site.arity

namespace Symbols

/-- Why a call means nothing. -/
def unknownCallee (s : Symbols) (scopes : List ScopeId) (site : CallSite) : Problem :=
  match site.type?.filter fun type => (s.typeIn? scopes type.name).isNone with
  | some type => .unknownType type.name type.span
  | none => .unknownFunction site.name site.span

/-- What is wrong with a call. -/
def faultsOf (s : Symbols) (scopes : List ScopeId) (site : CallSite) : List Problem :=
  match s.callee? scopes site with
  | none => [s.unknownCallee scopes site]
  | some f =>
    if f.arity = site.arity then []
    else [.argumentCount f.qualifiedName f.arity site.arity site.span]

/-- The scopes around a body. -/
def aroundBody (s : Symbols) (b : Body) : List ScopeId :=
  ((s.function? b.function).map s.surroundings).getD []

/-- Where a body calls a function, in order. -/
def calledAt (s : Symbols) (b : Body) (callee : Key) : List Span :=
  (b.source.calls.filter fun site =>
    (s.callee? (s.aroundBody b) site).map (·.key) = some callee).map (·.span)

end Symbols

namespace Script

/-- The numbers of arguments in the creations of a script. -/
def creations (s : Script) : List Nat :=
  ((s.items.flatMap (·.exprs)).flatMap (·.calls)).filterMap CallSite.created?

/-- A function that has the key of a constructor is that constructor. -/
def Reserves (s : Script) (type : Key) (arity : Nat) : Prop :=
  ∀ t ∈ s.functions, t.1.key = Callable.key (.constructor type arity) →
    t.1 = .constructor type arity

instance (s : Script) (type : Key) (arity : Nat) : Decidable (s.Reserves type arity) :=
  inferInstanceAs (Decidable (∀ t ∈ s.functions, _ → _))

/-- No function takes the key of a constructor that the script asks for. -/
def ConstructorsDistinct (s : Script) : Prop :=
  ∀ arity ∈ s.creations, ∀ type ∈ s.typeKeys, s.Reserves type arity

end Script

/-- The calls of a declared script are recorded, and what is wrong with them is reported. -/
structure Workspace.RecordsCalls (w : Workspace) (script : Script) (d : Declarations)
    (problems : List Problem) : Prop where
  /-- Every registered function has one body, which is its text in the script. -/
  bodies : d.bodies.map (·.function) = w.symbols.functions.map (·.key) ∧
    (d.bodies.map (·.function)).Nodup
  texts : ∀ b ∈ d.bodies, ∃ f, w.symbols.function? b.function = some f ∧
    (f.callable, b.source) ∈ script.functions ∧ f.params = b.source.paramNames
  /-- The places of the calls from one function to another are recorded in order. -/
  sites : ∀ b ∈ d.bodies, ∀ f ∈ w.symbols.functions,
    w.symbols.calls.sites? b.function f.key =
      if w.symbols.calledAt b f.key = [] then none else some (w.symbols.calledAt b f.key)
  /-- Nothing else is recorded: two functions have one edge, and others have none. -/
  edges : ∀ e ∈ w.symbols.calls.edges, e.caller ∈ w.symbols.functions.map (·.key) ∧
    e.callee ∈ w.symbols.functions.map (·.key)
  distinct : (w.symbols.calls.edges.map fun e => (e.caller, e.callee)).Nodup
  count : d.callCount = (w.symbols.calls.edges.flatMap (·.sites)).length
  /-- After the problems with declarations come those with calls in bodies, and then those with
  calls in first values. -/
  problems : ∃ earlier, (∀ p ∈ earlier, script.Repeats p ∨ p.ConcernsType) ∧
    problems = earlier ++
      (d.bodies.flatMap fun b =>
        b.source.calls.flatMap (w.symbols.faultsOf (w.symbols.aroundBody b))) ++
      d.initializers.flatMap fun i =>
        i.expr.calls.flatMap (w.symbols.faultsOf (w.symbols.scopes.enclosing i.scope))

/-! ## What a call means -/

namespace Symbols

variable {s : Symbols} {type : Key} {arity : Nat} {scope : ScopeId} {scopes : List ScopeId}
  {site : CallSite} {f : FunctionEntry}

theorem memberFunction?_eq (s : Symbols) (type : Key) (name : String) :
    s.memberFunction? type name = s.method? type name := by
  rw [memberFunction?, method?]
  simp only [member?]
  cases (s.type? type).bind (·.members) with
  | none => rfl
  | some m => rfl

theorem callable_of_constructor (h : f ∈ s.constructors type) :
    f.callable = .constructor type f.arity := by
  have htraits := of_decide_eq_true (List.mem_filter.mp h).2
  rw [FunctionEntry.callable, htraits.2]
  exact if_pos htraits.1

theorem mem_constructors (hf : f ∈ s.functions) (h : f.callable = .constructor type arity) :
    f ∈ s.constructors type ∧ f.arity = arity := by
  rw [FunctionEntry.callable] at h
  split at h
  · cases h
  · rename_i owner howner
    split at h
    · rename_i hconstructor
      cases h
      exact ⟨List.mem_filter.mpr ⟨hf, decide_eq_true ⟨hconstructor, howner⟩⟩, rfl⟩
    · cases h

/-- The constructor for a number of arguments is found by its key, if no other function has it. -/
theorem constructor?_eq (hkeys : (s.functions.map (·.key)).Nodup)
    (hkeyed : ∀ f ∈ s.functions, f.key = f.callable.key)
    (hdistinct : ∀ f ∈ s.functions, f.key = Callable.key (.constructor type arity) →
      f.callable = .constructor type arity) :
    s.constructor? type arity = (s.constructors type).find? (·.arity = arity) := by
  have hfound : ∀ f, s.constructor? type arity = some f ↔
      f ∈ s.functions ∧ f.callable = .constructor type arity := by
    intro f
    constructor
    · intro h
      have hf := List.mem_of_find?_eq_some h
      have hkey : f.key = Callable.key (.constructor type arity) :=
        of_decide_eq_true (List.find?_some h :)
      exact ⟨hf, hdistinct f hf hkey⟩
    · intro ⟨hf, hcallable⟩
      have hkey : f.key = Callable.key (.constructor type arity) := hcallable ▸ hkeyed f hf
      have h := function?_of_mem hkeys hf
      rw [hkey] at h
      exact h
  cases hfind : (s.constructors type).find? (·.arity = arity) with
  | some f =>
    have hf := List.mem_of_find?_eq_some hfind
    have harity : f.arity = arity := of_decide_eq_true (List.find?_some hfind :)
    exact (hfound f).mpr ⟨(List.mem_filter.mp hf).1, harity ▸ callable_of_constructor hf⟩
  | none =>
    refine Option.eq_none_iff_forall_ne_some.mpr fun f hf => ?_
    obtain ⟨hmem, hcallable⟩ := (hfound f).mp hf
    obtain ⟨hc, harity⟩ := mem_constructors hmem hcallable
    exact List.find?_eq_none.mp hfind f hc (decide_eq_true harity)

/-- In a scope names mean what the nearest of some scopes binds them to. -/
structure Sees (s : Symbols) (scope : ScopeId) (scopes : List ScopeId) : Prop where
  names : ∀ name, (s.scopes.lookup scope name).map (·.2) = s.scopes.visible? scopes name
  types : ∀ name, s.scopes.lookupType scope name = s.typeIn? scopes name

/-- Bound functions are registered, and constructors are found by their keys. -/
structure Linkable (s : Symbols) (site : CallSite) : Prop where
  registered : ∀ {id name b k}, s.scopes.binding? id name = some b → b.symbol = .ofFunction k →
    ∃ f, s.function? k = some f ∧ f.key = k
  constructors : ∀ {id name type arity}, site.created? = some arity →
    s.scopes.type? id name = some type →
      s.constructor? type arity = (s.constructors type).find? (·.arity = arity)

/-- What linking a call finds. -/
def linkOf (s : Symbols) (scopes : List ScopeId) (site : CallSite) : Except Problem Link :=
  match s.callee? scopes site with
  | none => .error (s.unknownCallee scopes site)
  | some f =>
    .ok { callee := f.key
          mismatch := if f.arity = site.arity then none else some (mismatch f site) }

theorem toFunction?_eq_some {symbol : Symbol} {k : Key} (h : symbol.toFunction? = some k) :
    symbol = .ofFunction k := by
  cases symbol with
  | ofVariable => cases h
  | ofFunction => cases h; rfl

/-- The functions that names stand for are registered. -/
theorem Linkable.visible (L : s.Linkable site) {name : String} {k : Key}
    (h : (s.scopes.visible? scopes name).bind (·.symbol.toFunction?) = some k) :
    ∃ f, s.function? k = some f ∧ f.key = k := by
  obtain ⟨b, hb, hk⟩ := Option.bind_eq_some_iff.mp h
  obtain ⟨id, _, hbinding⟩ := List.exists_of_findSome?_eq_some hb
  exact L.registered hbinding (toFunction?_eq_some hk)

theorem Linkable.method (L : s.Linkable site) {name : String} {k : Key}
    (h : s.method? type name = some k) : ∃ f, s.function? k = some f ∧ f.key = k := by
  obtain ⟨isStatic, _, hmember⟩ := List.exists_of_findSome?_eq_some h
  obtain ⟨b, hb, hk⟩ := Option.bind_eq_some_iff.mp hmember
  obtain ⟨m, _, hbinding⟩ := Option.bind_eq_some_iff.mp hb
  exact L.registered hbinding (toFunction?_eq_some hk)

theorem linkTo_eq {k : Key} (hf : s.function? k = some f) (hkey : f.key = k) :
    s.linkTo site k =
      { callee := f.key
        mismatch := if f.arity = site.arity then none else some (mismatch f site) } := by
  rw [linkTo, hf, hkey]

/-- A creation is linked to the constructor for its arguments, or to the only one there is. -/
theorem linkConstructor?_eq
    (h : s.constructor? type site.arity = (s.constructors type).find? (·.arity = site.arity)) :
    s.linkConstructor? site type = (s.constructorFor? type site.arity).map fun f =>
      { callee := f.key
        mismatch := if f.arity = site.arity then none else some (mismatch f site) } := by
  rw [linkConstructor?, constructorFor?, h]
  cases hfind : (s.constructors type).find? (·.arity = site.arity) with
  | some f =>
    have harity : f.arity = site.arity := of_decide_eq_true (List.find?_some hfind :)
    rw [Option.map_some, if_pos harity]
  | none =>
    cases hall : s.constructors type with
    | nil => rfl
    | cons f rest =>
      cases rest with
      | nil =>
        have hne : f.arity ≠ site.arity := by
          intro harity
          refine List.find?_eq_none.mp hfind f ?_ (decide_eq_true harity)
          rw [hall]
          exact List.mem_singleton_self f
        rw [Option.map_some, if_neg hne]
      | cons => rfl

theorem unknownCallee_of_unknown {t : Ident} (h : site.type? = some t)
    (htype : s.typeIn? scopes t.name = none) :
    s.unknownCallee scopes site = .unknownType t.name t.span := by
  rw [unknownCallee, h, Option.filter_some_pos (by rw [htype]; rfl)]

theorem unknownCallee_of_known {t : Ident} (h : site.type? = some t)
    (htype : s.typeIn? scopes t.name = some type) :
    s.unknownCallee scopes site = .unknownFunction site.name site.span := by
  rw [unknownCallee, h, Option.filter_some_neg (by rw [htype]; simp)]

theorem link_eq (L : s.Linkable site) (V : s.Sees scope scopes) :
    s.link scope site = s.linkOf scopes site := by
  obtain ⟨span, callee, arity⟩ := site
  rw [linkOf]
  cases callee with
  | function qualifier name =>
    cases qualifier with
    | none =>
      have hnearest : s.nearestFunction? scope name.name =
          (s.scopes.visible? scopes name.name).bind (·.symbol.toFunction?) := by
        rw [nearestFunction?, ← V.names, Option.bind_map]
        rfl
      simp only [link, callee?, hnearest]
      cases hk : (s.scopes.visible? scopes name.name).bind (·.symbol.toFunction?) with
      | none => rfl
      | some k =>
        obtain ⟨f, hf, hkey⟩ := L.visible hk
        simp only [Option.map_some, linkTo_eq hf hkey, Option.bind_some, hf]
    | some qualifier =>
      simp only [link, callee?, V.types]
      cases htype : s.typeIn? scopes qualifier.name with
      | none => exact congrArg Except.error (unknownCallee_of_unknown rfl htype).symm
      | some type =>
        simp only [memberFunction?_eq, Option.bind_some]
        cases hk : s.method? type name.name with
        | none => exact congrArg Except.error (unknownCallee_of_known rfl htype).symm
        | some k =>
          obtain ⟨f, hf, hkey⟩ := L.method hk
          simp only [Option.map_some, linkTo_eq hf hkey, Option.bind_some, hf]
  | constructor type =>
    simp only [link, callee?, V.types]
    cases htype : s.typeIn? scopes type.name with
    | none => exact congrArg Except.error (unknownCallee_of_unknown rfl htype).symm
    | some key =>
      obtain ⟨id, _, hid⟩ := List.exists_of_findSome?_eq_some htype
      simp only [linkConstructor?_eq (L.constructors rfl hid), Option.bind_some]
      cases s.constructorFor? key arity with
      | none => exact congrArg Except.error (unknownCallee_of_known rfl htype).symm
      | some f => rfl

theorem mem_of_constructorFor? (h : s.constructorFor? type arity = some f) : f ∈ s.functions := by
  refine (List.mem_filter.mp (?_ : f ∈ s.constructors type)).1
  rw [constructorFor?] at h
  split at h
  · rename_i hfind
    cases h
    exact List.mem_of_find?_eq_some hfind
  · rename_i hall
    cases h
    rw [hall]
    exact List.mem_singleton_self f
  · cases h

/-- What a call means is registered. -/
theorem mem_of_callee? (h : s.callee? scopes site = some f) : f ∈ s.functions := by
  rw [callee?] at h
  split at h
  · obtain ⟨k, _, hf⟩ := Option.bind_eq_some_iff.mp h
    exact List.mem_of_find?_eq_some hf
  · obtain ⟨k, _, hf⟩ := Option.bind_eq_some_iff.mp h
    exact List.mem_of_find?_eq_some hf
  · obtain ⟨k, _, hf⟩ := Option.bind_eq_some_iff.mp h
    exact mem_of_constructorFor? hf

/-- What is reported of a call. -/
theorem callProblems_eq (L : s.Linkable site) (V : s.Sees scope scopes) :
    s.callProblems scope site = s.faultsOf scopes site := by
  rw [callProblems, link_eq L V, linkOf, faultsOf]
  cases s.callee? scopes site with
  | none => rfl
  | some f =>
    dsimp only
    split <;> rfl

/-- What is recorded of a call. -/
theorem callRecord?_eq (L : s.Linkable site) (V : s.Sees scope scopes) (caller : Key) :
    s.callRecord? caller scope site =
      (s.callee? scopes site).map fun f => ⟨caller, f.key, site.span⟩ := by
  rw [callRecord?, link_eq L V, linkOf]
  cases s.callee? scopes site <;> rfl

end Symbols

/-! ## Recorded calls -/

namespace CallLog

variable {log : CallLog} {f g : Key}

theorem nodup_edges (log : CallLog) : (log.edges.map fun e => (e.caller, e.callee)).Nodup := by
  have hpairs : log.edges.map (fun e => (e.caller, e.callee)) = log.pairs := by
    rw [edges, List.map_map]
    exact List.map_id _
  rw [hpairs]
  exact nodup_eraseDups _

theorem sites_append (log log' : CallLog) (f g : Key) :
    CallLog.sites (log ++ log') f g = log.sites f g ++ log'.sites f g := by
  rw [sites, List.filter_append, List.map_append, sites, sites]

/-- A call is at a site of the one pair that it belongs to. -/
theorem flatMap_sites_singleton {pairs : List (Key × Key)} {c : CallRecord} (hpairs : pairs.Nodup)
    (hc : (c.caller, c.callee) ∈ pairs) :
    pairs.flatMap (fun p => CallLog.sites [c] p.1 p.2) = [c.site] := by
  have hother : ∀ rest : List (Key × Key), (c.caller, c.callee) ∉ rest →
      rest.flatMap (fun p => CallLog.sites [c] p.1 p.2) = [] := by
    intro rest hrest
    refine List.flatMap_eq_nil_iff.mpr fun p hp => ?_
    have hne : ¬(c.caller = p.1 ∧ c.callee = p.2) := fun h => by
      rw [h.1, h.2] at hrest
      exact hrest hp
    simp [sites, hne]
  obtain ⟨before, after, rfl⟩ := List.append_of_mem hc
  rw [List.nodup_middle, List.nodup_cons, List.mem_append, not_or] at hpairs
  rw [List.flatMap_append, List.flatMap_cons, hother _ hpairs.1.1, hother _ hpairs.1.2]
  simp [sites]

theorem flatMap_sites {pairs : List (Key × Key)} {log : CallLog} (hpairs : pairs.Nodup)
    (hlog : ∀ c ∈ log, (c.caller, c.callee) ∈ pairs) :
    (pairs.flatMap fun p => log.sites p.1 p.2).Perm (log.map (·.site)) := by
  induction log with
  | nil => exact .of_eq (List.flatMap_eq_nil_iff.mpr fun _ _ => rfl)
  | cons c rest ih =>
    obtain ⟨hc, hrest⟩ := List.forall_mem_cons.mp hlog
    have hsplit : ∀ p : Key × Key, CallLog.sites (c :: rest) p.1 p.2 =
        CallLog.sites [c] p.1 p.2 ++ CallLog.sites rest p.1 p.2 :=
      fun p => sites_append [c] rest p.1 p.2
    simp only [hsplit]
    refine (List.flatMap_append_perm ..).symm.trans ?_
    rw [flatMap_sites_singleton hpairs hc]
    exact (ih hrest).cons _

/-- Every call is at one site of one edge. -/
theorem perm_edges (log : CallLog) : (log.edges.flatMap (·.sites)).Perm (log.map (·.site)) := by
  rw [edges, List.flatMap_map]
  exact flatMap_sites (nodup_eraseDups _) fun c hc => mem_pairs.mpr ⟨c, hc, rfl, rfl⟩

theorem length_edges (log : CallLog) : (log.edges.flatMap (·.sites)).length = log.length :=
  log.perm_edges.length_eq.trans (List.length_map _)

/-- Each caller has its calls in one place of the log. -/
theorem sites_flatMap {bodies : List Body} {calls : Body → CallLog} {b : Body}
    (hkeys : (bodies.map (·.function)).Nodup)
    (hcallers : ∀ b, ∀ c ∈ calls b, c.caller = b.function) (hb : b ∈ bodies) (g : Key) :
    CallLog.sites (bodies.flatMap calls) b.function g = (calls b).sites b.function g := by
  -- the calls of any other body have another caller
  have hother : ∀ rest : List Body, b.function ∉ rest.map (·.function) →
      CallLog.sites (rest.flatMap calls) b.function g = [] := by
    intro rest hrest
    simp only [sites, List.map_eq_nil_iff, List.filter_eq_nil_iff, decide_eq_true_eq]
    rintro c hc ⟨hcaller, _⟩
    obtain ⟨b', hb', hc⟩ := List.mem_flatMap.mp hc
    exact hrest (List.mem_map.mpr ⟨b', hb', (hcallers b' c hc).symm.trans hcaller⟩)
  obtain ⟨before, after, rfl⟩ := List.append_of_mem hb
  rw [List.map_append, List.map_cons, List.nodup_middle, List.nodup_cons, List.mem_append,
    not_or] at hkeys
  rw [List.flatMap_append, List.flatMap_cons, sites_append, sites_append, hother _ hkeys.1.1,
    hother _ hkeys.1.2, List.append_nil, List.nil_append]

theorem sites_filterMap (callee? : CallSite → Option FunctionEntry) (f g : Key)
    (sites : List CallSite) :
    CallLog.sites (sites.filterMap fun site =>
        (callee? site).map fun e => ⟨f, e.key, site.span⟩) f g =
      (sites.filter fun site => (callee? site).map (·.key) = some g).map (·.span) := by
  induction sites with
  | nil => rfl
  | cons site rest ih =>
    rw [filterMap_cons_toList, sites_append, ih, List.filter_cons]
    cases callee? site with
    | none => rfl
    | some e =>
      by_cases hkey : e.key = g
      · simp [sites, hkey]
      · simp [sites, hkey]

end CallLog

/-! ## The whole script -/

namespace Script

variable {s : Script} {site : CallSite} {e : Expr} {arity : Nat} {t : FunctionText} {v : VariableDef}

theorem creations_eq (s : Script) : s.creations =
    ((s.items.flatMap (·.exprs)).flatMap (·.callSites)).filterMap CallSite.created? := by
  rw [creations]
  exact congrArg (List.filterMap _ <| List.flatMap · _) (funext Expr.callSites_eq).symm

theorem mem_creations (he : e ∈ s.items.flatMap (·.exprs)) (hsite : site ∈ e.calls)
    (h : site.created? = some arity) : arity ∈ s.creations :=
  List.mem_filterMap.mpr ⟨site, List.mem_flatMap.mpr ⟨e, he, hsite⟩, h⟩

theorem mem_exprs_of_function (ht : t ∈ s.functions) (he : e ∈ t.2.exprs) :
    e ∈ s.items.flatMap (·.exprs) :=
  s.exprs_perm.mem_iff.mpr (List.mem_append_left _ (List.mem_flatMap.mpr ⟨t, ht, he⟩))

theorem mem_exprs_of_variable (hv : v ∈ s.variableDefs) (h : v.init = some e) :
    e ∈ s.items.flatMap (·.exprs) := by
  refine s.exprs_perm.mem_iff.mpr (List.mem_append_right _ (List.mem_flatMap.mpr ⟨v, hv, ?_⟩))
  rw [h]
  exact List.mem_singleton_self e

end Script

namespace Workspace.Settled

variable {w : Workspace} {script : Script} {done : List Completed} {d : Declarations}
  {earlier : List Problem} {site : CallSite} {b : Body} {f : FunctionEntry} {i : Initializer}

theorem exists_text (S : w.Settled script done d earlier) (hf : f ∈ w.symbols.functions) :
    ∃ t ∈ script.functions, f.Is t := by
  obtain ⟨used, hused, his, _⟩ := S.texts
  obtain ⟨t, ht, his⟩ := exists_of_forall₂_left his hf
  exact ⟨t, hused.subset ht, his⟩

/-- Calls of functions can be linked whatever the keys are. -/
theorem linkable (S : w.Settled script done d earlier)
    (hconstructors : ∀ {type arity}, site.created? = some arity → type ∈ script.typeKeys →
      w.symbols.constructor? type arity =
        (w.symbols.constructors type).find? (·.arity = arity)) :
    w.symbols.Linkable site where
  registered hbinding hsymbol := by
    obtain ⟨f, hf, rfl, _⟩ := S.registered hbinding hsymbol
    exact ⟨f, Symbols.function?_of_mem S.keys hf, rfl⟩
  constructors hcreated htype := hconstructors hcreated (S.typeKeys htype)

/-- The constructor for a number of arguments is found by its key. -/
theorem constructor?_eq (S : w.Settled script done d earlier) {type : Key} {arity : Nat}
    (h : script.Reserves type arity) :
    w.symbols.constructor? type arity = (w.symbols.constructors type).find? (·.arity = arity) := by
  refine Symbols.constructor?_eq S.keys (fun f hf => ?_) fun f hf hkey => ?_
  · obtain ⟨t, _, his⟩ := S.exists_text hf
    rw [his.callable]
    exact his.key
  · obtain ⟨t, ht, his⟩ := S.exists_text hf
    rw [his.callable]
    exact h t ht (his.key.symm.trans hkey)

theorem linkable_of_distinct (S : w.Settled script done d earlier)
    (hdistinct : script.ConstructorsDistinct)
    (hsite : ∀ arity, site.created? = some arity → arity ∈ script.creations) :
    w.symbols.Linkable site :=
  S.linkable fun hcreated htype => S.constructor?_eq (hdistinct _ (hsite _ hcreated) _ htype)

theorem exists_entry (S : w.Settled script done d earlier) (hb : b ∈ d.bodies) :
    ∃ f ∈ w.symbols.functions, f.Matches b ∧ w.symbols.function? b.function = some f := by
  obtain ⟨f, hf, hmatches⟩ := exists_of_forall₂_right S.entries hb
  refine ⟨f, hf, hmatches, ?_⟩
  rw [hmatches.key]
  exact Symbols.function?_of_mem S.keys hf

theorem bodies_eq (S : w.Settled script done d earlier) :
    d.bodies.map (·.function) = w.symbols.functions.map (·.key) := by
  rw [← List.forall₂_eq_eq_eq, List.forall₂_map_left_iff, List.forall₂_map_right_iff]
  exact S.entries.flip.imp fun b f h => h.key

theorem bodies_nodup (S : w.Settled script done d earlier) :
    (d.bodies.map (·.function)).Nodup := by
  rw [S.bodies_eq]
  exact S.keys

theorem mem_functions (S : w.Settled script done d earlier) (hb : b ∈ d.bodies)
    (hf : f ∈ w.symbols.functions) (hkey : b.function = f.key) :
    (f.callable, b.source) ∈ script.functions := by
  obtain ⟨used, hused, his, hbodies⟩ := S.texts
  have hpair : (b.function, b.source) ∈ used.map fun t => (t.1.key, t.2) := by
    rw [← hbodies]
    exact List.mem_map.mpr ⟨b, hb, rfl⟩
  obtain ⟨t, ht, heq⟩ := List.mem_map.mp hpair
  obtain ⟨hfunction, hsource⟩ := Prod.mk.inj heq
  obtain ⟨f', hf', his⟩ := exists_of_forall₂_right his ht
  cases List.inj_on_of_nodup_map S.keys hf' hf (his.key.trans (hfunction.trans hkey))
  rw [his.callable, ← hsource]
  exact hused.subset ht

theorem created_of_body (S : w.Settled script done d earlier) (hb : b ∈ d.bodies)
    (hsite : site ∈ b.source.calls) (arity : Nat) (h : site.created? = some arity) :
    arity ∈ script.creations := by
  obtain ⟨f, hf, hmatches, _⟩ := S.exists_entry hb
  rw [← FunctionDef.callSites_eq] at hsite
  obtain ⟨e, he, hsite⟩ := List.mem_flatMap.mp hsite
  rw [Expr.callSites_eq] at hsite
  exact Script.mem_creations (Script.mem_exprs_of_function (S.mem_functions hb hf hmatches.key) he)
    hsite h

end Workspace.Settled

theorem Initializer.Starts.mem_exprs {i : Initializer} {script : Script} {done : List Completed}
    (h : i.Starts script done) (hdone : ∀ x ∈ done, script.Registers x.source) :
    i.expr ∈ script.items.flatMap (·.exprs) := by
  cases h with
  | global hv init => exact Script.mem_exprs_of_variable (List.mem_append_right _ hv) init
  | field hx hv init =>
    refine Script.mem_exprs_of_variable (List.mem_append_left _ ?_) init
    exact List.mem_flatMap.mpr ⟨_, Ledger.mem_classes (hdone _ hx), hv⟩

namespace Outline.Finished

variable {g : Outline} {script : Script} {classes : List ClassDef} {done cut : List Completed}
  {w : Workspace} {d : Declarations} {problems earlier : List Problem} {b : Body}

/-- In the body of a function names mean what they mean around it. -/
theorem sees_body (F : g.Finished script classes done cut)
    (K : g.Kept { work := w, report := d, problems }) (S : w.Settled script done d earlier)
    (hb : b ∈ d.bodies) : w.symbols.Sees b.scope (w.symbols.aroundBody b) := by
  obtain ⟨f, hf, hmatches, hfunction⟩ := S.exists_entry hb
  have hlookup := F.lookup_body K S.scopes (S.housed f hf) hmatches.scope
  rw [Symbols.aroundBody, hfunction]
  exact ⟨fun name => (hlookup name).1, fun name => (hlookup name).2⟩

theorem callLog_eq (F : g.Finished script classes done cut)
    (K : g.Kept { work := w, report := d, problems }) (S : w.Settled script done d earlier)
    (hdistinct : script.ConstructorsDistinct) :
    w.symbols.callLog d.bodies = d.bodies.flatMap fun b => b.source.calls.filterMap fun site =>
      (w.symbols.callee? (w.symbols.aroundBody b) site).map fun f =>
        ⟨b.function, f.key, site.span⟩ := by
  refine List.flatMap_congr fun b hb => ?_
  rw [FunctionDef.callSites_eq]
  refine List.filterMap_congr fun site hsite => ?_
  exact Symbols.callRecord?_eq (S.linkable_of_distinct hdistinct (S.created_of_body hb hsite))
    (F.sees_body K S hb) _

theorem linkProblems_eq (F : g.Finished script classes done cut)
    (K : g.Kept { work := w, report := d, problems }) (S : w.Settled script done d earlier)
    (hdistinct : script.ConstructorsDistinct) :
    w.symbols.linkProblems d =
      (d.bodies.flatMap fun b =>
        b.source.calls.flatMap (w.symbols.faultsOf (w.symbols.aroundBody b))) ++
      d.initializers.flatMap fun i =>
        i.expr.calls.flatMap (w.symbols.faultsOf (w.symbols.scopes.enclosing i.scope)) := by
  rw [Symbols.linkProblems]
  congr 1
  · refine List.flatMap_congr fun b hb => ?_
    rw [FunctionDef.callSites_eq]
    refine List.flatMap_congr fun site hsite => ?_
    exact Symbols.callProblems_eq (S.linkable_of_distinct hdistinct (S.created_of_body hb hsite))
      (F.sees_body K S hb)
  · refine List.flatMap_congr fun i hi => ?_
    rw [Expr.callSites_eq]
    refine List.flatMap_congr fun site hsite => ?_
    have he := (S.starts i hi).mem_exprs fun x hx => F.registers_of_done hx
    exact Symbols.callProblems_eq
      (S.linkable_of_distinct hdistinct fun _ => Script.mem_creations he hsite)
      ⟨w.symbols.scopes.lookup_eq i.scope, fun _ => rfl⟩

end Outline.Finished

/-- When a script has been declared, the recorded calls are the calls in the bodies of its functions
that mean a function, each at its place in the order of the text. Of a call that means a function it
is reported if the number of arguments is wrong, and of any other one that its type or its function
is not known. No other calls are recorded, and nothing else is reported of calls. -/
theorem Workspace.declare_recordsCalls {script : Script} {o : Options} {d : Declarations}
    {problems : List Problem} {w : Workspace}
    (h : Workspace.declare script (.ofOptions o) = .ok (d, problems) w)
    (hdistinct : script.ConstructorsDistinct) : w.RecordsCalls script d problems := by
  obtain ⟨g, classes, done, cut, earlier, F, K, S, hproblems⟩ := declare_settled h
  have hlog := F.callLog_eq K S hdistinct
  refine ⟨⟨S.bodies_eq, S.bodies_nodup⟩, fun b hb => ?_, fun b hb f hf => ?_, fun e he => ?_, ?_, ?_,
    earlier, S.repeats, ?_⟩
  · obtain ⟨f, hf, hmatches, hfunction⟩ := S.exists_entry hb
    exact ⟨f, hfunction, S.mem_functions hb hf hmatches.key, hmatches.params⟩
  · rw [S.calls.sites?, hlog, CallLog.sites_flatMap S.bodies_nodup (fun b c hc => ?_) hb,
      CallLog.sites_filterMap]
    · rfl
    · obtain ⟨site, _, hrecord⟩ := List.mem_filterMap.mp hc
      obtain ⟨f, _, rfl⟩ := Option.map_eq_some_iff.mp hrecord
      rfl
  · rw [S.calls.edges] at he
    obtain ⟨c, hc, hcaller, hcallee⟩ := (CallLog.mem_edges.mp he).1
    rw [hlog] at hc
    obtain ⟨b, hb, hc⟩ := List.mem_flatMap.mp hc
    obtain ⟨site, _, hrecord⟩ := List.mem_filterMap.mp hc
    obtain ⟨f, hf, rfl⟩ := Option.map_eq_some_iff.mp hrecord
    constructor
    · rw [← S.bodies_eq, ← hcaller]
      exact List.mem_map_of_mem hb
    · rw [← hcallee]
      exact List.mem_map_of_mem (Symbols.mem_of_callee? hf)
  · rw [S.calls.edges]
    exact CallLog.nodup_edges _
  · rw [S.callCount, ← CallLog.length_edges, S.calls.edges]
  · rw [hproblems, F.linkProblems_eq K S hdistinct, List.append_assoc]

/-- A function that calls itself in an argument, a method that is called with too many arguments,
creations with and without the constructor they ask for, and a call of nothing. -/
def Script.mixedCalls : Script where
  items :=
    [.functionItem { name := ⟨"main", ⟨1, 1, 4⟩⟩, span := ⟨1, 1, 4⟩, body := some ⟨{}, [
      .ifThen {} (.call ⟨2, 1, 4⟩ none ⟨"main", ⟨2, 1, 4⟩⟩
        [.call ⟨2, 6, 4⟩ none ⟨"main", ⟨2, 6, 4⟩⟩ []]) {}
        [.expr ⟨3, 3, 1⟩ (.call ⟨3, 3, 1⟩ (some ⟨"C", ⟨3, 1, 1⟩⟩) ⟨"m", ⟨3, 3, 1⟩⟩
          [.create ⟨3, 9, 1⟩ ⟨"C", ⟨3, 9, 1⟩⟩ []])],
      .ret {} (some (.create ⟨4, 12, 1⟩ ⟨"C", ⟨4, 12, 1⟩⟩
        [.call ⟨4, 14, 4⟩ none ⟨"lost", ⟨4, 14, 4⟩⟩ []]))]⟩ },
     .classItem { name := ⟨"C", ⟨5, 1, 1⟩⟩, span := ⟨5, 1, 1⟩,
                  members := [.constructor { name := ⟨"new", ⟨5, 3, 3⟩⟩, span := ⟨5, 3, 3⟩ },
                              .method { name := ⟨"m", ⟨6, 1, 1⟩⟩, span := ⟨6, 1, 1⟩ }] }]

def Script.mixedProblems : List Problem :=
  [.argumentCount "main" 0 1 ⟨2, 1, 4⟩, .argumentCount "C.m" 0 1 ⟨3, 3, 1⟩,
    .argumentCount "C.new" 0 1 ⟨4, 12, 1⟩, .unknownFunction "lost" ⟨4, 14, 4⟩]

theorem Workspace.declare_recordsCalls_mixed :
    ∃ d w, Workspace.declare .mixedCalls (.ofOptions {}) = .ok (d, Script.mixedProblems) w ∧
      Script.mixedCalls.ConstructorsDistinct ∧
      w.RecordsCalls .mixedCalls d Script.mixedProblems := by
  have hproblems : Script.mixedCalls.declarationProblems {} = some Script.mixedProblems := by
    decide +kernel
  have hdistinct : Script.mixedCalls.ConstructorsDistinct := by
    rw [Script.ConstructorsDistinct, Script.creations_eq]
    decide +kernel
  obtain ⟨d, w, h⟩ := Script.exists_of_declarationProblems hproblems
  exact ⟨d, w, h, hdistinct, declare_recordsCalls h hdistinct⟩

/-! ## Keys that coincide -/

/-- A script is declared without problems, and the result passes a test. -/
def Script.declaredWith (s : Script) (o : Options) (test : Declarations → Workspace → Bool) : Bool :=
  match Workspace.declare s (.ofOptions o) with
  | .ok (d, []) w => test d w
  | _ => false

theorem Script.exists_of_declaredWith {s : Script} {o : Options}
    {test : Declarations → Workspace → Bool} (h : s.declaredWith o test = true) :
    ∃ d w, Workspace.declare s (.ofOptions o) = .ok (d, []) w ∧ test d w = true := by
  simp only [declaredWith] at h
  split at h
  · rename_i d w hdeclare
    exact ⟨d, w, hdeclare, h⟩
  · cases h

/-- The function has the key of a constructor with two parameters, which the class lacks. -/
def Script.takenConstructor : Script where
  items :=
    [.functionItem { name := ⟨"zmuypC,Oaqt", ⟨1, 1, 11⟩⟩, span := ⟨1, 1, 11⟩ },
     .classItem { name := ⟨"C", ⟨3, 1, 1⟩⟩, span := ⟨3, 1, 1⟩,
                  members := [.constructor { name := ⟨"new", ⟨4, 1, 3⟩⟩, span := ⟨4, 1, 3⟩,
                                             params := [⟨⟨"a", ⟨5, 1, 1⟩⟩, ⟨5, 1, 1⟩⟩] }] },
     .functionItem { name := ⟨"main", ⟨7, 1, 4⟩⟩, span := ⟨7, 1, 4⟩, body := some ⟨{}, [
       .expr ⟨10, 1, 1⟩ (.create ⟨10, 1, 1⟩ ⟨"C", ⟨10, 1, 1⟩⟩
         [.number ⟨8, 1, 1⟩ .zero, .number ⟨9, 1, 1⟩ .zero])]⟩ }]

/-- Although the keys of its functions are distinct, a creation with two arguments is recorded as a
call of a function without parameters, and nothing is reported. -/
theorem Workspace.declare_confuses_constructor :
    (Script.takenConstructor.functions.map (·.1.key)).Nodup ∧
      ∃ d w, Workspace.declare .takenConstructor (.ofOptions {}) = .ok (d, []) w ∧
        (∃ f ∈ w.symbols.functions, f.arity = 0 ∧
          w.symbols.calls.sites? (.function "main") f.key = some [⟨10, 1, 1⟩]) ∧
        ¬w.RecordsCalls .takenConstructor d [] := by
  have htest : Script.takenConstructor.declaredWith {} (fun d w =>
      decide (∃ f ∈ w.symbols.functions, f.arity = 0 ∧
        w.symbols.calls.sites? (.function "main") f.key = some [⟨10, 1, 1⟩]) &&
      d.bodies.any fun b => b.source.callSites.any fun site =>
        decide (w.symbols.faultsOf (w.symbols.aroundBody b) site ≠ [])) = true := by
    decide +kernel
  obtain ⟨d, w, h, htest⟩ := Script.exists_of_declaredWith htest
  obtain ⟨hsites, hfaults⟩ := Bool.and_eq_true_iff.mp htest
  refine ⟨by decide +kernel, d, w, h, of_decide_eq_true hsites, fun R => ?_⟩
  obtain ⟨b, hb, hfaults⟩ := List.any_eq_true.mp hfaults
  obtain ⟨site, hsite, hfaults⟩ := List.any_eq_true.mp hfaults
  rw [FunctionDef.callSites_eq] at hsite
  obtain ⟨earlier, _, hall⟩ := R.problems
  have hnone := (List.append_eq_nil_iff.mp (List.append_eq_nil_iff.mp hall.symm).1).2
  exact of_decide_eq_true hfaults
    (List.flatMap_eq_nil_iff.mp (List.flatMap_eq_nil_iff.mp hnone b hb) site hsite)

end Stackless
