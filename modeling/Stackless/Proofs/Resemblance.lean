import Stackless.Proofs.CallGraph
import Stackless.Proofs.Recursion
import Stackless.Proofs.Rosters

/-!
# Symbol tables that resemble each other

Two symbol tables resemble each other if they differ only in the ids of scopes and variables and in
the order in which types and functions were added (`Symbols.Resembles`). What can be seen from a
place is then the same (`View`), so every call means the same, and if the same calls are recorded,
then the recursion check finds the same.
-/

namespace Stackless

/-! ## Views -/

/-- What names and types mean at some place, without the ids of variables. -/
structure View where
  names : String → Option Sight
  types : String → Option Key

namespace Symbols

/-- What can be seen from some scopes, nearest first. -/
def view (s : Symbols) (scopes : List ScopeId) : View where
  names name := (s.scopes.visible? scopes name).map (·.sight)
  types := s.typeIn? scopes

/-- What can be seen from the body of a function. -/
def viewOf (s : Symbols) (f : Key) : View :=
  s.view (((s.function? f).map s.surroundings).getD [])

/-- What is found in one of the scopes of a class. -/
def inClass {α : Type} (s : Symbols) (find : ScopeId → Option α) (isStatic : Bool) (type : Key) :
    Option α :=
  ((s.type? type).bind (·.members)).bind fun m => find (m.side isStatic)

/-- The type that a class binds to a name. -/
def memberType? (s : Symbols) (isStatic : Bool) (name : String) (type : Key) : Option Key :=
  s.inClass (s.scopes.type? · name) isStatic type

/-- What a call means to one who sees a view. -/
def linkFrom (s : Symbols) (v : View) (site : CallSite) : Except Problem Link :=
  let found (l : Option Link) : Except Problem Link :=
    match l with
    | some l => .ok l
    | none => .error (.unknownFunction site.name site.span)
  match site.callee with
  | .function none name => found (((v.names name.name).bind (·.function?)).map (s.linkTo site))
  | .function (some qualifier) name =>
    match v.types qualifier.name with
    | some type => found ((s.memberFunction? type name.name).map (s.linkTo site))
    | none => .error (.unknownType qualifier.name qualifier.span)
  | .constructor type =>
    match v.types type.name with
    | some key => found (s.linkConstructor? site key)
    | none => .error (.unknownType type.name type.span)

/-- The problems with a call. -/
def problemsFrom (s : Symbols) (v : View) (site : CallSite) : List Problem :=
  match s.linkFrom v site with
  | .error p => [p]
  | .ok link => link.mismatch.toList

/-- The calls of a function that are recorded. -/
def recordsOf (s : Symbols) (text : Key × FunctionDef) : CallLog :=
  text.2.callSites.filterMap fun site =>
    match s.linkFrom (s.viewOf text.1) site with
    | .error _ => none
    | .ok link => some ⟨text.1, link.callee, site.span⟩

variable {s : Symbols} {scope : ScopeId} {scopes : List ScopeId}

theorem link_of_sees (V : s.Sees scope scopes) (site : CallSite) :
    s.link scope site = s.linkFrom (s.view scopes) site := by
  have hnearest : ∀ name, s.nearestFunction? scope name =
      ((s.view scopes).names name).bind (·.function?) := by
    intro name
    change _ = ((s.scopes.visible? scopes name).map _).bind _
    rw [nearestFunction?, ← V.names, Option.map_map, Option.bind_map]
    rfl
  simp only [link, linkFrom, hnearest, V.types]
  rfl

theorem callProblems_of_sees (V : s.Sees scope scopes) (site : CallSite) :
    s.callProblems scope site = s.problemsFrom (s.view scopes) site := by
  rw [callProblems, link_of_sees V]
  rfl

/-- Around what belongs to a class lie the scopes of the class, and then the root. -/
theorem findSome?_around {α : Type} (s : Symbols) (owner : Option Key) (isStatic : Bool)
    (find : ScopeId → Option α) :
    (s.around owner isStatic).findSome? find =
      (owner.bind fun k => (if isStatic then none else s.inClass find false k).or
        (s.inClass find true k)).or (find .root) := by
  have hcons : ∀ (i : ScopeId) (rest : List ScopeId),
      (i :: rest).findSome? find = (find i).or (rest.findSome? find) := by
    intro i rest
    rw [List.findSome?_cons]
    cases find i <;> rfl
  cases owner with
  | none => simp [around]
  | some k =>
    simp only [around, inClass, Option.bind_some]
    cases (s.type? k).bind (·.members) with
    | none => simp
    | some m => cases isStatic <;> simp [hcons, MemberScopes.side, Option.or_assoc]

theorem map_member? (s : Symbols) (isStatic : Bool) (name : String) (type : Key) :
    (s.member? isStatic name type).map (·.sight) =
      s.inClass (fun i => (s.scopes.binding? i name).map (·.sight)) isStatic type := by
  rw [member?, inClass, Option.map_bind]
  rfl

/-- A creation linked to the only constructor there is. -/
def linkOnly (site : CallSite) : List FunctionEntry → Option Link
  | [f] => some { callee := f.key, mismatch := some (mismatch f site) }
  | _ => none

theorem linkOnly_perm {site : CallSite} {fs fs' : List FunctionEntry} (h : fs.Perm fs') :
    linkOnly site fs = linkOnly site fs' := by
  cases fs with
  | nil => rw [h.nil_eq]
  | cons f rest =>
    cases rest with
    | nil => rw [List.singleton_perm.mp h]
    | cons g rest =>
      have hlength := h.length_eq
      rcases fs' with _ | ⟨f', _ | ⟨g', rest'⟩⟩
      · cases hlength
      · cases hlength
      · rfl

/-! ## Resemblance -/

/-- The symbol tables are the same apart from the ids of scopes and variables, the recorded calls and
the order of entries. -/
structure Resembles (s s' : Symbols) : Prop where
  functions : (s.functions.map (·.bare)).Perm (s'.functions.map (·.bare))
  keys : (s.functions.map (·.key)).Nodup
  names : ∀ name, (s.scopes.binding? .root name).map (·.sight) =
    (s'.scopes.binding? .root name).map (·.sight)
  types : ∀ name, s.scopes.type? .root name = s'.scopes.type? .root name
  members : ∀ isStatic name type, (s.member? isStatic name type).map (·.sight) =
    (s'.member? isStatic name type).map (·.sight)
  memberTypes : ∀ isStatic name type,
    s.memberType? isStatic name type = s'.memberType? isStatic name type

/-- Of the function of a key, the same is known in any order. -/
theorem map_function?_perm {β : Type} {s s' : Symbols} (known : FunctionEntry → β) (key : β → Key)
    (hkey : ∀ f, key (known f) = f.key) (hkeys : (s.functions.map (·.key)).Nodup)
    (h : (s.functions.map known).Perm (s'.functions.map known)) (k : Key) :
    (s.function? k).map known = (s'.function? k).map known := by
  have hlist : ∀ fs : List FunctionEntry, fs.map (·.key) = (fs.map known).map key := by
    intro fs
    rw [List.map_map]
    exact List.map_congr_left fun f _ => (hkey f).symm
  have hkeys' : (s'.functions.map (·.key)).Nodup := by
    rw [hlist] at hkeys ⊢
    exact (h.map key).nodup_iff.mp hkeys
  have hfound : ∀ {t : Symbols}, (t.functions.map (·.key)).Nodup → ∀ x,
      (t.function? k).map known = some x ↔ x ∈ t.functions.map known ∧ key x = k := by
    intro t ht x
    rw [Option.map_eq_some_iff, List.mem_map]
    constructor
    · rintro ⟨f, hf, rfl⟩
      have hfk : f.key = k := of_decide_eq_true (List.find?_some hf :)
      exact ⟨⟨f, List.mem_of_find?_eq_some hf, rfl⟩, (hkey f).trans hfk⟩
    · rintro ⟨⟨f, hf, rfl⟩, hfk⟩
      rw [hkey] at hfk
      exact ⟨f, hfk ▸ function?_of_mem ht hf, rfl⟩
  ext x
  rw [hfound hkeys, hfound hkeys', h.mem_iff]

namespace Resembles

variable {s' : Symbols}

theorem function? (H : s.Resembles s') (k : Key) :
    (s.function? k).map (·.bare) = (s'.function? k).map (·.bare) :=
  map_function?_perm FunctionEntry.bare FunctionEntry.key (fun _ => rfl) H.keys H.functions k

theorem view (H : s.Resembles s') (owner : Option Key) (isStatic : Bool) :
    s.view (s.around owner isStatic) = s'.view (s'.around owner isStatic) := by
  have hnames : ∀ name, (s.view (s.around owner isStatic)).names name =
      (s'.view (s'.around owner isStatic)).names name := by
    intro name
    change ((s.around owner isStatic).findSome? _).map _ =
      ((s'.around owner isStatic).findSome? _).map _
    rw [List.map_findSome?, List.map_findSome?, findSome?_around, findSome?_around]
    have hmembers := fun isStatic => H.members isStatic name
    simp only [map_member?] at hmembers
    simp only [Function.comp_def, hmembers, H.names]
  have htypes : ∀ name, (s.view (s.around owner isStatic)).types name =
      (s'.view (s'.around owner isStatic)).types name := by
    intro name
    change (s.around owner isStatic).findSome? _ = (s'.around owner isStatic).findSome? _
    rw [findSome?_around, findSome?_around, H.types]
    have hmembers := fun isStatic => H.memberTypes isStatic name
    simp only [memberType?] at hmembers
    simp only [hmembers]
  rw [Symbols.view, Symbols.view, View.mk.injEq]
  exact ⟨funext hnames, funext htypes⟩

/-- The body of each function sees the same. -/
theorem viewOf (H : s.Resembles s') (k : Key) : s.viewOf k = s'.viewOf k := by
  have hbare := H.function? k
  rw [Symbols.viewOf, Symbols.viewOf]
  cases hf : s.function? k with
  | none =>
    rw [hf, Option.map_none, eq_comm, Option.map_eq_none_iff] at hbare
    rw [hbare]
    rfl
  | some f =>
    rw [hf, Option.map_some, eq_comm, Option.map_eq_some_iff] at hbare
    obtain ⟨f', hf', hbare⟩ := hbare
    have howner : f'.owner = f.owner := (congrArg FunctionEntry.owner hbare :)
    have htraits : f'.traits = f.traits := (congrArg FunctionEntry.traits hbare :)
    rw [hf', Option.map_some, Option.map_some, Option.getD_some, Option.getD_some, surroundings,
      surroundings, howner, htraits]
    exact H.view ..

/-! ### Calls -/

theorem linkTo (H : s.Resembles s') (site : CallSite) : s.linkTo site = s'.linkTo site := by
  have hbare : ∀ (t : Symbols) (k : Key), t.linkTo site k =
      { callee := k
        mismatch := ((t.function? k).map (·.bare)).bind fun f =>
          if f.arity = site.arity then none else some (mismatch f site) } := by
    intro t k
    rw [Symbols.linkTo]
    cases t.function? k <;> rfl
  funext k
  rw [hbare, hbare, H.function?]

theorem memberFunction? (H : s.Resembles s') (type : Key) (name : String) :
    s.memberFunction? type name = s'.memberFunction? type name := by
  have hsight : ∀ (t : Symbols) (isStatic : Bool),
      (t.member? isStatic name type).bind (·.symbol.toFunction?) =
        ((t.member? isStatic name type).map (·.sight)).bind (·.function?) := by
    intro t isStatic
    rw [Option.bind_map]
    rfl
  rw [memberFunction?_eq, memberFunction?_eq, method?, method?]
  simp only [hsight, H.members]

theorem constructors (H : s.Resembles s') (type : Key) :
    ((s.constructors type).map (·.bare)).Perm ((s'.constructors type).map (·.bare)) := by
  have hfilter : ∀ t : Symbols, (t.constructors type).map (·.bare) =
      (t.functions.map (·.bare)).filter fun f => f.traits.isConstructor ∧ f.owner = some type := by
    intro t
    rw [Symbols.constructors, List.filter_map]
    rfl
  rw [hfilter, hfilter]
  exact H.functions.filter _

theorem linkConstructor? (H : s.Resembles s') (site : CallSite) :
    s.linkConstructor? site = s'.linkConstructor? site := by
  have hbare : ∀ (t : Symbols) (type : Key), t.linkConstructor? site type =
      (((t.constructor? type site.arity).map (·.bare)).map fun f => { callee := f.key }).or
        (linkOnly site ((t.constructors type).map (·.bare))) := by
    intro t type
    rw [Symbols.linkConstructor?]
    cases t.constructor? type site.arity with
    | some f => rfl
    | none =>
      cases t.constructors type with
      | nil => rfl
      | cons f rest => cases rest <;> rfl
  funext type
  rw [hbare, hbare, Symbols.constructor?, Symbols.constructor?, H.function?,
    linkOnly_perm (H.constructors type)]

theorem linkFrom (H : s.Resembles s') (v : View) (site : CallSite) :
    s.linkFrom v site = s'.linkFrom v site := by
  simp only [Symbols.linkFrom, H.linkTo, H.memberFunction?, H.linkConstructor?]

theorem problemsFrom (H : s.Resembles s') (v : View) :
    s.problemsFrom v = s'.problemsFrom v := by
  funext site
  simp only [Symbols.problemsFrom, H.linkFrom]

theorem recordsOf (H : s.Resembles s') (text : Key × FunctionDef) :
    s.recordsOf text = s'.recordsOf text := by
  simp only [Symbols.recordsOf, H.linkFrom, H.viewOf]

end Resembles

end Symbols

/-! ## Recorded calls -/

namespace CallLog

/-- Each function has the same calls in the same order. -/
def SameCalls (log log' : CallLog) : Prop :=
  ∀ f, log.filter (·.caller = f) = log'.filter (·.caller = f)

variable {log log' : CallLog}

theorem SameCalls.callees (h : log.SameCalls log') (f : Key) : log.callees f = log'.callees f := by
  rw [CallLog.callees, CallLog.callees, h f]

theorem SameCalls.sites (h : log.SameCalls log') (f g : Key) : log.sites f g = log'.sites f g := by
  have hfilter : ∀ l : CallLog, l.filter (fun c => c.caller = f ∧ c.callee = g) =
      (l.filter (·.caller = f)).filter (·.callee = g) := by
    intro l
    rw [List.filter_filter]
    exact List.filter_congr fun c _ => (Bool.decide_and ..).trans (Bool.and_comm ..)
  rw [CallLog.sites, CallLog.sites, hfilter, hfilter, h f]

theorem SameCalls.hasCall (h : log.SameCalls log') : log.HasCall = log'.HasCall := by
  funext f g
  rw [← mem_callees, h.callees, mem_callees]

/-- The order of the functions whose calls are recorded does not matter. -/
theorem sameCalls_of_perm {texts texts' : List (Key × FunctionDef)}
    {calls : Key × FunctionDef → CallLog} (hperm : texts.Perm texts')
    (hkeys : (texts.map (·.1)).Nodup) (hcallers : ∀ t, ∀ c ∈ calls t, c.caller = t.1) :
    SameCalls (texts.flatMap calls) (texts'.flatMap calls) := by
  intro f
  have hcalls : ∀ t, (calls t).filter (·.caller = f) = if t.1 = f then calls t else [] := by
    intro t
    split
    · rename_i he
      exact List.filter_eq_self.mpr fun c hc => decide_eq_true ((hcallers t c hc).trans he)
    · rename_i hne
      exact List.filter_eq_nil_iff.mpr fun c hc he =>
        hne ((hcallers t c hc).symm.trans (of_decide_eq_true he))
  have hfilter : ∀ l : List (Key × FunctionDef),
      (l.flatMap calls).filter (·.caller = f) = (l.filter (·.1 = f)).flatMap calls := by
    intro l
    rw [List.filter_flatMap]
    induction l with
    | nil => rfl
    | cons t rest ih =>
      rw [List.flatMap_cons, ih, hcalls, List.filter_cons]
      by_cases he : t.1 = f <;> simp [he]
  have hsub := hperm.filter (·.1 = f)
  have hnodup := hkeys.sublist ((List.filter_sublist (p := fun t => t.1 = f)).map Prod.fst)
  have hone : ∀ t ∈ texts.filter (·.1 = f), t.1 = f := fun t ht =>
    of_decide_eq_true (List.mem_filter.mp ht).2
  rw [hfilter, hfilter]
  -- only one text has the key
  generalize texts.filter (·.1 = f) = found at hsub hnodup hone
  match found with
  | [] => rw [hsub.nil_eq]
  | [t] => rw [List.singleton_perm.mp hsub]
  | t :: t' :: rest =>
    obtain ⟨ht, ht', _⟩ := List.forall_mem_cons.mp hone |>.imp_right List.forall_mem_cons.mp
    exact absurd (List.mem_cons_self) (ht'.trans ht.symm ▸ (List.nodup_cons.mp hnodup).1)

end CallLog

namespace CallGraph.Records

variable {calls calls' : Calls} {log log' : CallLog}

theorem callees_eq (R : calls.Records log) (R' : calls'.Records log') (h : log.SameCalls log')
    (f : Key) : calls.callees f = calls'.callees f := by
  rw [R.callees, R'.callees, h.callees]
  exact List.map_congr_left fun g _ => by rw [h.sites]

theorem hasEdge_eq (R : calls.Records log) (R' : calls'.Records log') (h : log.SameCalls log')
    (f g : Key) : calls.hasEdge f g = calls'.hasEdge f g := by
  rw [Bool.eq_iff_iff, R.hasEdge_iff, R'.hasEdge_iff, h.hasCall]

theorem reaches_eq (R : calls.Records log) (R' : calls'.Records log') (h : log.SameCalls log')
    (f g : Key) : calls.reaches f g = calls'.reaches f g := by
  rw [Bool.eq_iff_iff, R.reaches_iff, R'.reaches_iff, h.hasCall]

end CallGraph.Records

namespace Symbols.Resembles

variable {s s' : Symbols} {log log' : CallLog}

theorem illegalCalls (H : s.Resembles s') (R : s.calls.Records log) (R' : s'.calls.Records log')
    (h : log.SameCalls log') (f : Key) : s.illegalCalls f = s'.illegalCalls f := by
  have hname : ∀ (t : Symbols) (k : Key),
      t.functionName k = (((t.function? k).map (·.bare)).map (·.qualifiedName)).getD k.text := by
    intro t k
    rw [Symbols.functionName]
    cases t.function? k <;> rfl
  have hallows : ∀ (t : Symbols) (k : Key), t.allowsRecursion k =
      (((t.function? k).map (·.bare)).map (·.traits.isRecursive)).getD false := by
    intro t k
    rw [Symbols.allowsRecursion]
    cases t.function? k <;> rfl
  have hillegal : s.isIllegal = s'.isIllegal := by
    funext e
    simp only [Symbols.isIllegal, hallows, H.function?, R.reaches_eq R' h]
  simp only [Symbols.illegalCalls, hname, H.function?, R.callees_eq R' h, hillegal]

/-- The recursion check finds the same, in some order. -/
theorem checkRecursion (H : s.Resembles s') (R : s.calls.Records log) (R' : s'.calls.Records log')
    (h : log.SameCalls log') :
    s.checkRecursion.1.problems.Perm s'.checkRecursion.1.problems := by
  have hbare : ∀ t : Symbols, t.checkRecursion.1.problems =
      (t.functions.map (·.bare)).flatMap fun f => t.illegalCalls f.key ++ t.unusedMark f := by
    intro t
    rw [List.flatMap_map]
    rfl
  have hmark : ∀ f, s.unusedMark f = s'.unusedMark f := by
    intro f
    simp only [unusedMark, R.hasEdge_eq R' h]
  rw [hbare, hbare]
  simp only [H.illegalCalls R R' h, hmark]
  exact H.functions.flatMap_right _

/-- The same functions keep frames. -/
theorem stacked (H : s.Resembles s') (R : s.calls.Records log) (R' : s'.calls.Records log')
    (h : log.SameCalls log') (hplain : ∀ f ∈ s.functions, f.stacked = false)
    (hplain' : ∀ f ∈ s'.functions, f.stacked = false) :
    (s.checkRecursion.2.functions.map fun f => (f.bare, f.stacked)).Perm
      (s'.checkRecursion.2.functions.map fun f => (f.bare, f.stacked)) := by
  have hbare : ∀ t : Symbols, (∀ f ∈ t.functions, f.stacked = false) →
      t.checkRecursion.2.functions.map (fun f => (f.bare, f.stacked)) =
        (t.functions.map (·.bare)).map fun f => (f, t.callsItself f) := by
    intro t ht
    simp only [Symbols.checkRecursion, List.map_map]
    refine List.map_congr_left fun f hf => ?_
    simp only [Function.comp_apply]
    split
    · rename_i hself
      exact congrArg (Prod.mk _) hself.symm
    · rename_i hself
      exact congrArg (Prod.mk _) ((ht f hf).trans (Bool.eq_false_iff.mpr hself).symm)
  have hself : ∀ f, s.callsItself f = s'.callsItself f := by
    intro f
    simp only [callsItself, R.hasEdge_eq R' h]
  rw [hbare s hplain, hbare s' hplain']
  simp only [hself]
  exact H.functions.map _

end Symbols.Resembles

end Stackless
