import Stackless.Proofs.CallGraph
import Stackless.Proofs.Enrolment

/-!
# The choice of constructors

A class has one constructor for each number of parameters with which it declares any, the first of
them, and one without parameters if it declares none. Constructors are looked up by keys and listed
by owners; both agree as long as no other function has the key that is asked for
(`Script.Reserves`). A creation then means the constructor for its number of arguments, or else the
only one there is. The members of a class are reported on one by one, and the classes in the order
in which they are completed (`Script.Reports`).
-/

namespace Stackless

/-! ## Specification -/

namespace Member

def toConstructor? : Member → Option FunctionDef
  | .constructor f => some f
  | .method _ | .field _ => none

def name : Member → Ident
  | .method f | .constructor f => f.name
  | .field v => v.name

end Member

/-- There is one problem at most, and it is at the given place. -/
inductive Problem.AtMostOneAt (span : Span) : List Problem → Prop where
  | none : AtMostOneAt span []
  | one {p : Problem} (place : p.span = span) : AtMostOneAt span [p]

namespace ClassDef

/-- The constructors that a class declares, in order. -/
def constructorDefs (c : ClassDef) : List FunctionDef := c.members.filterMap Member.toConstructor?

/-- The constructors that a class declares, or else the one that is supplied. -/
def offered (c : ClassDef) : List FunctionDef :=
  if c.constructorDefs.isEmpty then [Declare.defaultConstructor c] else c.constructorDefs

/-- What is reported of a constructor that is declared after some members. -/
def repeatProblems (c : ClassDef) (before : List Member) (f : FunctionDef) : List Problem :=
  if ∃ g ∈ before.filterMap Member.toConstructor?, g.params.length = f.params.length then
    [.redefined "function" (c.name.name ++ ".new") f.name.span]
  else []

/-- What is reported of each member: one problem at most, at its name. Of constructors only
repetitions are reported. -/
structure Accounts (c : ClassDef) (members : List Member) (reports : List (List Problem)) :
    Prop where
  each : List.Forall₂ (fun y ps => Problem.AtMostOneAt y.name.span ps) members reports
  constructors : ∀ before f after, members = before ++ .constructor f :: after →
    reports[before.length]? = some (c.repeatProblems before f)

end ClassDef

/-- What is reported while a class is completed. -/
structure ClassReport where
  source : ClassDef
  /-- Problems with types, which come first. -/
  types : List Problem
  /-- What is reported of each member. -/
  members : List (List Problem)

def ClassReport.problems (r : ClassReport) : List Problem := r.types ++ r.members.flatten

/-- What is reported of a script before its calls are linked: names of classes and functions that
are taken, then the reports of the classes, one by one, and then names of variables outside classes
that are taken. -/
inductive Script.Reports (script : Script) : List Problem → Prop where
  | intro {names globals : List Problem} {reports : List ClassReport}
      (named : names.Sublist (script.items.filterMap Item.redefinition?))
      (registered : ∀ c, script.Registers c ↔ c ∈ reports.map (·.source))
      (once : (reports.map (·.source.key)).Nodup)
      (concern : ∀ r ∈ reports, ∀ p ∈ r.types, p.ConcernsType)
      (accounts : ∀ r ∈ reports, r.source.Accounts r.source.members r.members)
      (redeclared : List.SublistForall₂ VariableDef.Redeclares globals script.globalVariables) :
    Reports script (names ++ reports.flatMap (·.problems) ++ globals)

/-- The constructor that a creation means and what is reported of the creation. -/
inductive Symbols.Chooses (s : Symbols) (type : Key) (site : CallSite) :
    Option FunctionEntry → List Problem → Prop where
  | fits {f : FunctionEntry} (only : (s.constructors type).filter (·.arity = site.arity) = [f]) :
    Chooses s type site (some f) []
  | single {f : FunctionEntry} (unfit : (s.constructors type).filter (·.arity = site.arity) = [])
      (only : s.constructors type = [f]) :
    Chooses s type site (some f) [.argumentCount f.qualifiedName f.arity site.arity site.span]
  | unknown (unfit : (s.constructors type).filter (·.arity = site.arity) = [])
      (several : (s.constructors type).length ≠ 1) :
    Chooses s type site none [.unknownFunction site.name site.span]

/-- The constructors of a class, and what the creations of its objects come to. -/
structure Workspace.SelectsConstructors (w : Workspace) (script : Script) (d : Declarations)
    (c : ClassDef) : Prop where
  /-- A class that declares no constructor has one, which is supplied and has no parameters. -/
  supplied : c.constructorDefs = [] →
    ∃ f, w.symbols.constructors c.key = [f] ∧ f.arity = 0 ∧ f.traits.isDefault = true
  /-- With each number of parameters there is the first that is declared, and no other. -/
  entries : ∀ n, ((w.symbols.constructors c.key).filter (·.arity = n)).map (·.bare) =
    (c.offered.find? (·.params.length = n)).toList.map
      (.ofConstructorDef c · c.constructorDefs.isEmpty)
  /-- Its body is the text that was chosen. -/
  bodies : ∀ n f, c.offered.find? (·.params.length = n) = some f →
    ∃ b ∈ d.bodies, b.function = .constructor c.key (UInt64.ofNat n) ∧ b.source = f
  /-- A constructor is found by its number of parameters. -/
  found : ∀ n, script.Reserves c.key n → ∀ f, w.symbols.constructor? c.key n = some f ↔
    (w.symbols.constructors c.key).filter (·.arity = n) = [f]
  /-- A creation in a body is recorded as a call of the constructor that it chooses, if any. -/
  creations : ∀ b ∈ d.bodies, ∀ site ∈ b.source.calls, ∀ type, site.callee = .constructor type →
    w.symbols.scopes.lookupType b.scope type.name = some c.key →
    script.Reserves c.key site.arity → ∃ chosen ps, w.symbols.Chooses c.key site chosen ps ∧
      w.symbols.callRecord? b.function b.scope site =
        chosen.map (fun f => ⟨b.function, f.key, site.span⟩) ∧
      (∀ f ∈ chosen, ∃ spans, w.symbols.calls.sites? b.function f.key = some spans ∧
        site.span ∈ spans) ∧
      w.symbols.callProblems b.scope site = ps
  /-- No scope binds a constructor, be it of its own or taken over. -/
  unbound : ∀ f ∈ w.symbols.constructors c.key, ∀ scope name b,
    w.symbols.scopes.binding? scope name = some b → b.symbol ≠ .ofFunction f.key

/-! ## Constructors in rosters -/

namespace Roster

variable {R : Roster} {isStatic isNamed : Bool} {f : FunctionEntry} {source : FunctionDef}

theorem mem_keys_addFunction {k : Key} :
    k ∈ (R.addFunction isStatic isNamed f source).functions.map (·.1.key) ↔
      k ∈ R.functions.map (·.1.key) ∨ k = f.key := by
  rw [functions_addFunction]
  split
  · rename_i htaken
    refine (or_iff_left_of_imp fun he => ?_).symm
    rwa [he]
  · rw [List.map_append, List.mem_append, List.map_singleton, List.mem_singleton]

/-- When something is added to a roster, one problem at most is reported. -/
theorem problems_addFunction (R : Roster) (isStatic isNamed : Bool) (f : FunctionEntry)
    (source : FunctionDef) : ∃ ps, Problem.AtMostOneAt f.span ps ∧
      (R.addFunction isStatic isNamed f source).problems = R.problems ++ ps := by
  rw [addFunction]
  split
  · exact ⟨_, .one rfl, rfl⟩
  · dsimp only
    split
    · split
      · exact ⟨_, .one rfl, rfl⟩
      · exact ⟨[], .none, (List.append_nil _).symm⟩
    · exact ⟨[], .none, (List.append_nil _).symm⟩

theorem problems_addVariable (R : Roster) (v : VariableDef) :
    ∃ ps, Problem.AtMostOneAt v.name.span ps ∧ (R.addVariable v).problems = R.problems ++ ps := by
  rw [addVariable]
  dsimp only
  split
  · exact ⟨_, .one rfl, rfl⟩
  · exact ⟨[], .none, (List.append_nil _).symm⟩

/-- A function without a name is only reported if its key is taken. -/
theorem problems_addUnnamed (R : Roster) (isStatic : Bool) (f : FunctionEntry)
    (source : FunctionDef) : (R.addFunction isStatic false f source).problems =
      R.problems ++ if f.key ∈ R.functions.map (·.1.key) then
        [.redefined "function" f.qualifiedName f.span] else [] := by
  rw [addFunction]
  split
  · rfl
  · exact (List.append_nil _).symm

end Roster

theorem filterMap_concat_toList {α β : Type} (f : α → Option β) (l : List α) (a : α) :
    (l ++ [a]).filterMap f = l.filterMap f ++ (f a).toList := by
  rw [List.filterMap_append, filterMap_cons_toList, List.filterMap_nil, List.append_nil]

theorem ClassDef.repeatProblems_atMostOne (c : ClassDef) (before : List Member) (f : FunctionDef) :
    Problem.AtMostOneAt f.name.span (c.repeatProblems before f) := by
  rw [repeatProblems]
  split
  · exact .one rfl
  · exact .none

/-- One more member is reported on. -/
theorem ClassDef.Accounts.concat {c : ClassDef} {ys : List Member} {reports : List (List Problem)}
    (A : c.Accounts ys reports) {y : Member} {ps : List Problem}
    (hone : Problem.AtMostOneAt y.name.span ps)
    (h : ∀ f, y = .constructor f → ps = c.repeatProblems ys f) :
    c.Accounts (ys ++ [y]) (reports ++ [ps]) where
  each := List.rel_append A.each (.cons hone .nil)
  constructors before f after heq := by
    have hlength := A.each.length_eq
    rcases List.eq_nil_or_concat after with rfl | ⟨older, z, rfl⟩
    · obtain ⟨rfl, hy⟩ := List.append_inj' heq rfl
      rw [hlength, List.getElem?_concat_length, h f (List.singleton_inj.mp hy)]
    · have hsplit : ys ++ [y] = (before ++ .constructor f :: older) ++ [z] := by
        rw [heq, List.concat_eq_append, List.append_assoc, List.cons_append]
      obtain ⟨rfl, _⟩ := List.append_inj' hsplit rfl
      rw [List.getElem?_append_left, A.constructors before f older rfl]
      rw [← hlength, List.length_append]
      exact Nat.lt_add_of_pos_right (Nat.succ_pos _)

/-- What a roster lists after some members of a class. -/
structure Roster.Lists (R : Roster) (c : ClassDef) (ys : List Member) : Prop where
  keys : ∀ k, k ∈ R.functions.map (·.1.key) ↔
    k ∈ (ys.filterMap (·.function? c.key)).map (·.1.key)
  constructors : ∀ n,
    R.functions.filter (fun t => t.1.traits.isConstructor ∧ t.1.arity = n) =
      ((ys.filterMap Member.toConstructor?).find? (·.params.length = n)).toList.map
        fun f => (.ofConstructorDef c f false, f)
  reports : ∃ reports, c.Accounts ys reports ∧ reports.flatten = R.problems

theorem FunctionEntry.arity_ofConstructorDef (c : ClassDef) (f : FunctionDef) (isDefault : Bool) :
    (ofConstructorDef c f isDefault).arity = f.params.length := List.length_map ..

namespace Roster.Lists

variable {R : Roster} {c : ClassDef} {ys : List Member} {n : Nat}

/-- The key of a constructor is taken if there is one with as many parameters. -/
theorem mem_keys_constructor (H : R.Lists c ys)
    (hdistinct : ∀ t ∈ ys.filterMap (·.function? c.key),
      t.1.key = Callable.key (.constructor c.key n) → t.1 = .constructor c.key n) :
    Callable.key (.constructor c.key n) ∈ R.functions.map (·.1.key) ↔
      ∃ f ∈ ys.filterMap Member.toConstructor?, f.params.length = n := by
  rw [H.keys]
  constructor
  · intro hmem
    obtain ⟨t, ht, hkey⟩ := List.mem_map.mp hmem
    have hcallable := hdistinct t ht hkey
    obtain ⟨y, hy, hfunction⟩ := List.mem_filterMap.mp ht
    cases y with
    | method f =>
      cases hfunction
      cases hcallable
    | constructor f =>
      cases hfunction
      injection hcallable with _ harity
      exact ⟨f, List.mem_filterMap.mpr ⟨.constructor f, hy, rfl⟩, harity⟩
    | field v => cases hfunction
  · rintro ⟨f, hf, rfl⟩
    obtain ⟨y, hy, hconstructor⟩ := List.mem_filterMap.mp hf
    cases y with
    | method | field => cases hconstructor
    | constructor g =>
      cases hconstructor
      exact List.mem_map.mpr ⟨(.constructor c.key f.params.length, f),
        List.mem_filterMap.mpr ⟨.constructor f, hy, rfl⟩, rfl⟩

theorem addMethod (H : R.Lists c ys) (f : FunctionDef) :
    (R.addMember c (.method f)).Lists c (ys ++ [.method f]) := by
  obtain ⟨reports, A, hreports⟩ := H.reports
  obtain ⟨ps, hone, hps⟩ := R.problems_addFunction f.isStatic true (.ofMethodDef c f) f
  refine ⟨fun k => ?_, fun n => ?_, reports ++ [ps], A.concat hone nofun, ?_⟩
  · rw [addMember, mem_keys_addFunction, H.keys, filterMap_concat_toList, List.map_append,
      List.mem_append]
    exact or_congr_right List.mem_singleton.symm
  · rw [filterMap_concat_toList, Member.toConstructor?, Option.toList_none, List.append_nil,
      ← H.constructors, addMember, functions_addFunction]
    split
    · rfl
    · rw [List.filter_append]
      exact List.append_nil _
  · rw [List.flatten_append, hreports, addMember, hps, List.flatten_singleton]

theorem addField (H : R.Lists c ys) (v : VariableDef) :
    (R.addMember c (.field v)).Lists c (ys ++ [.field v]) := by
  obtain ⟨reports, A, hreports⟩ := H.reports
  obtain ⟨ps, hone, hps⟩ := R.problems_addVariable v
  refine ⟨fun k => ?_, fun n => ?_, reports ++ [ps], A.concat hone nofun, ?_⟩
  · rw [addMember, functions_addVariable, H.keys, filterMap_concat_toList, Member.function?,
      Option.toList_none, List.append_nil]
  · rw [filterMap_concat_toList, Member.toConstructor?, Option.toList_none, List.append_nil,
      ← H.constructors, addMember, functions_addVariable]
  · rw [List.flatten_append, hreports, addMember, hps, List.flatten_singleton]

/-- Of the constructors with the same number of parameters only the first is listed. -/
theorem constructors_addConstructor (H : R.Lists c ys) {f : FunctionDef}
    (htaken : (FunctionEntry.ofConstructorDef c f false).key ∈ R.functions.map (·.1.key) ↔
      ∃ g ∈ ys.filterMap Member.toConstructor?, g.params.length = f.params.length) (n : Nat) :
    (R.addMember c (.constructor f)).functions.filter
        (fun t => t.1.traits.isConstructor ∧ t.1.arity = n) =
      ((ys.filterMap Member.toConstructor? ++ [f]).find? (·.params.length = n)).toList.map
        fun f => (.ofConstructorDef c f false, f) := by
  have harity := FunctionEntry.arity_ofConstructorDef c f false
  rw [List.find?_append, addMember, functions_addFunction]
  by_cases hn : f.params.length = n
  · have hlast : [f].find? (·.params.length = n) = some f :=
      List.find?_cons_of_pos (p := fun g : FunctionDef => g.params.length = n) (decide_eq_true hn)
    rw [hlast]
    split
    · rename_i hkey
      obtain ⟨g, hg, hsame⟩ := htaken.mp hkey
      have hsome : ((ys.filterMap Member.toConstructor?).find? (·.params.length = n)).isSome :=
        List.find?_isSome.mpr ⟨g, hg, decide_eq_true (hsame.trans hn)⟩
      obtain ⟨first, hfirst⟩ := Option.isSome_iff_exists.mp hsome
      rw [H.constructors, hfirst, Option.some_or]
    · rename_i hkey
      have hnone : (ys.filterMap Member.toConstructor?).find? (·.params.length = n) = none :=
        List.find?_eq_none.mpr fun g hg hsame =>
          hkey (htaken.mpr ⟨g, hg, (of_decide_eq_true hsame).trans hn.symm⟩)
      rw [List.filter_append, H.constructors, hnone, List.filter_cons_of_pos]
      · rfl
      · exact decide_eq_true ⟨rfl, harity.trans hn⟩
  · have hlast : [f].find? (·.params.length = n) = none :=
      List.find?_cons_of_neg (p := fun g : FunctionDef => g.params.length = n)
        (mt of_decide_eq_true hn)
    rw [hlast, Option.or_none, ← H.constructors]
    split
    · rfl
    · rw [List.filter_append, List.filter_cons_of_neg, List.filter_nil, List.append_nil]
      exact mt of_decide_eq_true fun h => hn (harity.symm.trans h.2)

theorem addConstructor (H : R.Lists c ys) (f : FunctionDef)
    (hdistinct : ∀ t ∈ ys.filterMap (·.function? c.key),
      t.1.key = Callable.key (.constructor c.key f.params.length) →
        t.1 = .constructor c.key f.params.length) :
    (R.addMember c (.constructor f)).Lists c (ys ++ [.constructor f]) := by
  obtain ⟨reports, A, hreports⟩ := H.reports
  have htaken : (FunctionEntry.ofConstructorDef c f false).key ∈ R.functions.map (·.1.key) ↔
      ∃ g ∈ ys.filterMap Member.toConstructor?, g.params.length = f.params.length :=
    H.mem_keys_constructor hdistinct
  refine ⟨fun k => ?_, fun n => ?_, reports ++ [c.repeatProblems ys f],
    A.concat (c.repeatProblems_atMostOne ys f) fun g he => ?_, ?_⟩
  · rw [addMember, mem_keys_addFunction, H.keys, filterMap_concat_toList, List.map_append,
      List.mem_append]
    exact or_congr_right List.mem_singleton.symm
  · rw [filterMap_concat_toList]
    exact H.constructors_addConstructor htaken n
  · cases he
    rfl
  · rw [List.flatten_append, hreports, addMember, problems_addUnnamed, List.flatten_singleton,
      ClassDef.repeatProblems]
    simp only [htaken]
    rfl

end Roster.Lists

/-! ## The roster of a class -/

namespace ClassDef

variable {c : ClassDef}

/-- Functions of the class that are called differently have different keys. -/
def KeysDistinct (c : ClassDef) : Prop :=
  ∀ t ∈ c.functions, ∀ t' ∈ c.functions, t.1.key = t'.1.key → t.1 = t'.1

theorem any_isConstructor (c : ClassDef) :
    c.members.any (·.isConstructor) = !c.constructorDefs.isEmpty := by
  rw [constructorDefs]
  induction c.members with
  | nil => rfl
  | cons y rest ih =>
    cases y with
    | method | field => exact ih
    | constructor => rfl

/-- The members are listed one after the other. -/
theorem lists_members (D : c.KeysDistinct) :
    (c.members.foldl (Roster.addMember c) {}).Lists c c.members := by
  have hall : ∀ (after before : List Member) (R : Roster), before ++ after = c.members →
      R.Lists c before → (after.foldl (Roster.addMember c) R).Lists c c.members := by
    intro after
    induction after with
    | nil =>
      intro before R heq H
      rw [List.append_nil] at heq
      exact heq ▸ H
    | cons y rest ih =>
      intro before R heq H
      refine ih (before ++ [y]) _ (by rw [← heq, List.append_assoc, List.singleton_append]) ?_
      cases y with
      | method f => exact H.addMethod f
      | field v => exact H.addField v
      | constructor f =>
        refine H.addConstructor f fun t ht hkey => ?_
        have hmem : ∀ {t}, t ∈ (before ++ .constructor f :: rest).filterMap (·.function? c.key) →
            t ∈ c.functions := fun h => List.mem_append_left _ (heq ▸ h)
        refine D t (hmem ?_) (.constructor c.key f.params.length, f) (hmem ?_) hkey
        · rw [List.filterMap_append]
          exact List.mem_append_left _ ht
        · rw [List.filterMap_append]
          exact List.mem_append_right _ List.mem_cons_self
  refine hall c.members [] {} rfl ⟨fun k => ?_, fun n => rfl, [], ⟨.nil, ?_⟩, rfl⟩
  · exact iff_of_false List.not_mem_nil List.not_mem_nil
  · intro before f after heq
    exact absurd heq.symm (by simp)

/-- What the roster of a class is made of. -/
theorem roster_cases (D : c.KeysDistinct) :
    (c.constructorDefs ≠ [] ∧ c.roster.Lists c c.members) ∨
    (c.constructorDefs = [] ∧ ∃ R : Roster, R.Lists c c.members ∧
      c.roster.functions = R.functions ++ [(Declare.suppliedEntry c, Declare.defaultConstructor c)] ∧
      c.roster.problems = R.problems) := by
  have H := lists_members D
  rw [roster, any_isConstructor]
  cases hdefs : c.constructorDefs with
  | cons f rest => exact .inl ⟨List.cons_ne_nil f rest, H⟩
  | nil =>
    refine .inr ⟨rfl, _, H, ?_⟩
    have hsupplied : (.constructor c.key 0, Declare.defaultConstructor c) ∈ c.functions := by
      rw [functions, supplied, any_isConstructor, hdefs]
      exact List.mem_append_right _ (List.mem_singleton_self _)
    have hfree : (Declare.suppliedEntry c).key ∉
        (c.members.foldl (Roster.addMember c) {}).functions.map (·.1.key) := by
      intro htaken
      have hkeys := H.mem_keys_constructor (n := 0) fun t ht hkey =>
        D t (List.mem_append_left _ ht) _ hsupplied hkey
      obtain ⟨f, hf, _⟩ := hkeys.mp htaken
      change f ∈ c.constructorDefs at hf
      rw [hdefs] at hf
      cases hf
    exact ⟨(Roster.functions_addFunction ..).trans (if_neg hfree),
      (Roster.problems_addUnnamed ..).trans (by rw [if_neg hfree, List.append_nil])⟩

theorem constructors_roster (D : c.KeysDistinct) (n : Nat) :
    c.roster.functions.filter (fun t => t.1.traits.isConstructor ∧ t.1.arity = n) =
      (c.offered.find? (·.params.length = n)).toList.map
        fun f => (.ofConstructorDef c f c.constructorDefs.isEmpty, f) := by
  rw [offered]
  rcases roster_cases D with ⟨hdefs, H⟩ | ⟨hdefs, R, H, hfunctions, _⟩
  · have hsome : c.constructorDefs.isEmpty = false := by simpa using hdefs
    rw [H.constructors, hsome]
    rfl
  · have hnone : R.functions.filter (fun t => t.1.traits.isConstructor ∧ t.1.arity = n) = [] := by
      rw [H.constructors, ← constructorDefs, hdefs]
      rfl
    rw [hfunctions, List.filter_append, hnone, hdefs]
    cases n <;> rfl

theorem reports_roster (D : c.KeysDistinct) :
    ∃ reports, c.Accounts c.members reports ∧ reports.flatten = c.roster.problems := by
  rcases roster_cases D with ⟨_, H⟩ | ⟨_, R, H, _, hproblems⟩
  · exact H.reports
  · rw [hproblems]
    exact H.reports

end ClassDef

/-! ## Creations -/

/-- A list in which one element at most passes a test. -/
theorem find?_eq_some_iff_filter {α : Type} {p : α → Bool} {l : List α}
    (h : (l.filter p).length ≤ 1) {a : α} : l.find? p = some a ↔ l.filter p = [a] := by
  rw [← List.head?_filter]
  cases hfilter : l.filter p with
  | nil => simp
  | cons b rest =>
    rw [hfilter, List.length_cons] at h
    have hrest : rest = [] := List.eq_nil_of_length_eq_zero (by omega)
    rw [hrest, List.head?_cons, Option.some.injEq, List.singleton_inj]

namespace Symbols

variable {s : Symbols} {key : Key} {scope : ScopeId} {site : CallSite} {type : Ident}

/-- A creation is linked by the constructors of its type. -/
theorem link_of_linked (hcallee : site.callee = .constructor type)
    (htype : s.scopes.lookupType scope type.name = some key) {l : Link}
    (h : s.linkConstructor? site key = some l) : s.link scope site = .ok l := by
  simp only [link, hcallee, htype, h]

theorem link_of_unlinked (hcallee : site.callee = .constructor type)
    (htype : s.scopes.lookupType scope type.name = some key)
    (h : s.linkConstructor? site key = none) :
    s.link scope site = .error (.unknownFunction site.name site.span) := by
  simp only [link, hcallee, htype, h]

theorem exists_chooses (hcallee : site.callee = .constructor type)
    (htype : s.scopes.lookupType scope type.name = some key)
    (hfound : s.constructor? key site.arity = (s.constructors key).find? (·.arity = site.arity))
    (hunique : ((s.constructors key).filter (·.arity = site.arity)).length ≤ 1) :
    ∃ chosen ps, s.Chooses key site chosen ps ∧
      (∀ caller, s.callRecord? caller scope site =
        chosen.map fun f => ⟨caller, f.key, site.span⟩) ∧ s.callProblems scope site = ps := by
  cases hfind : (s.constructors key).find? (·.arity = site.arity) with
  | some f =>
    have hlink := link_of_linked hcallee htype (l := { callee := f.key })
      (by rw [linkConstructor?, hfound, hfind])
    refine ⟨some f, [], .fits ((find?_eq_some_iff_filter hunique).mp hfind), fun caller => ?_, ?_⟩
    · rw [callRecord?, hlink, Option.map_some]
    · rw [callProblems, hlink]
      rfl
  | none =>
    have hunfit : (s.constructors key).filter (·.arity = site.arity) = [] :=
      List.filter_eq_nil_iff.mpr (List.find?_eq_none.mp hfind)
    by_cases hone : ∃ f, s.constructors key = [f]
    · obtain ⟨f, hf⟩ := hone
      have hlink := link_of_linked hcallee htype
        (l := { callee := f.key, mismatch := some (mismatch f site) })
        (by rw [linkConstructor?, hfound, hfind, hf])
      refine ⟨some f, _, .single hunfit hf, fun caller => ?_, ?_⟩
      · rw [callRecord?, hlink, Option.map_some]
      · rw [callProblems, hlink]
        rfl
    · have hnone : s.linkConstructor? site key = none := by
        rw [linkConstructor?, hfound, hfind]
        dsimp only
        split
        · rename_i f hf
          exact absurd ⟨f, hf⟩ hone
        · rfl
      have hlink := link_of_unlinked hcallee htype hnone
      refine ⟨none, _, .unknown hunfit fun hlength => hone (List.length_eq_one_iff.mp hlength),
        fun caller => ?_, ?_⟩
      · rw [callRecord?, hlink, Option.map_none]
      · rw [callProblems, hlink]

end Symbols

theorem CallGraph.Records.exists_sites {calls : Calls} {log : CallLog} (R : calls.Records log)
    {r : CallRecord} (h : r ∈ log) :
    ∃ spans, calls.sites? r.caller r.callee = some spans ∧ r.site ∈ spans := by
  have hmem : r.site ∈ log.sites r.caller r.callee :=
    List.mem_map.mpr ⟨r, List.mem_filter.mpr ⟨h, decide_eq_true ⟨rfl, rfl⟩⟩, rfl⟩
  refine ⟨_, ?_, hmem⟩
  rw [R.sites?, if_neg (List.ne_nil_of_mem hmem)]

/-! ## Constructors of a declared script -/

theorem Script.FunctionsDistinct.keysDistinct {script : Script} {c : ClassDef}
    (D : script.FunctionsDistinct) (hc : script.Registers c) : c.KeysDistinct := by
  have hmem : ∀ t ∈ c.functions, t ∈ script.functions := fun t ht =>
    List.mem_append_right _ (List.mem_flatMap.mpr ⟨c, List.mem_of_find?_eq_some hc, ht⟩)
  exact fun t ht t' ht' => D t (hmem t ht) t' (hmem t' ht')

namespace Declare.Enrolled

variable {opens : List Begun} {done : List Completed} {s : Stage Declarations} {x : Completed}

/-- The constructors with a number of parameters are those of the roster. -/
theorem constructors (E : Enrolled opens done s) (hx : x ∈ done) (n : Nat) :
    ((s.work.symbols.constructors x.key).filter (·.arity = n)).map (·.bare) =
      (x.source.roster.functions.filter
        fun t => t.1.traits.isConstructor ∧ t.1.arity = n).map (·.1) := by
  calc ((s.work.symbols.constructors x.key).filter (·.arity = n)).map (·.bare)
      = ((s.work.symbols.functions.filter (·.owner = some x.key)).filter
          fun f => f.traits.isConstructor ∧ f.arity = n).map (·.bare) := by
        rw [Symbols.constructors, List.filter_filter, List.filter_filter]
        refine congrArg _ (List.filter_congr fun f _ => ?_)
        rw [Bool.eq_iff_iff]
        simp only [Bool.and_eq_true, decide_eq_true_eq]
        tauto
    _ = ((s.work.symbols.functions.filter (·.owner = some x.key)).map (·.bare)).filter
          (fun f => f.traits.isConstructor ∧ f.arity = n) := by
        rw [List.filter_map]
        rfl
    _ = _ := by
        rw [E.functions x hx, List.filter_map]
        rfl

theorem entries (E : Enrolled opens done s) (hx : x ∈ done) (D : x.source.KeysDistinct) (n : Nat) :
    ((s.work.symbols.constructors x.key).filter (·.arity = n)).map (·.bare) =
      (x.source.offered.find? (·.params.length = n)).toList.map
        (.ofConstructorDef x.source · x.source.constructorDefs.isEmpty) := by
  rw [E.constructors hx, ClassDef.constructors_roster D, List.map_map]
  rfl

theorem length_le_one (E : Enrolled opens done s) (hx : x ∈ done) (D : x.source.KeysDistinct)
    (n : Nat) : ((s.work.symbols.constructors x.key).filter (·.arity = n)).length ≤ 1 := by
  rw [← List.length_map (f := FunctionEntry.bare), E.entries hx D, List.length_map]
  exact Option.length_toList_le

/-- The only constructor of a class that declares none. -/
theorem supplied (E : Enrolled opens done s) (hx : x ∈ done) (D : x.source.KeysDistinct)
    (hdefs : x.source.constructorDefs = []) :
    ∃ f, s.work.symbols.constructors x.key = [f] ∧ f.arity = 0 ∧ f.traits.isDefault = true := by
  have hentries := E.entries hx D
  rw [ClassDef.offered, hdefs] at hentries
  have hzero : ∀ f ∈ s.work.symbols.constructors x.key, f.arity = 0 := by
    intro f hf
    by_contra hne
    obtain ⟨m, hm⟩ := Nat.exists_eq_succ_of_ne_zero hne
    have hnone := List.map_eq_nil_iff.mp (hentries (m + 1))
    exact List.filter_eq_nil_iff.mp hnone f hf (decide_eq_true hm)
  have hall := hentries 0
  rw [List.filter_eq_self.mpr fun f hf => decide_eq_true (hzero f hf)] at hall
  obtain ⟨f, hf, hbare⟩ := List.map_eq_singleton_iff.mp hall
  refine ⟨f, hf, hzero f (hf ▸ List.mem_singleton_self f), ?_⟩
  exact congrArg (·.traits.isDefault) hbare

theorem exists_body (E : Enrolled opens done s) (hx : x ∈ done) (D : x.source.KeysDistinct) {n : Nat}
    {f : FunctionDef} (h : x.source.offered.find? (·.params.length = n) = some f) :
    ∃ b ∈ s.report.bodies, b.function = .constructor x.key (UInt64.ofNat n) ∧ b.source = f := by
  have hmem : (.ofConstructorDef x.source f x.source.constructorDefs.isEmpty, f) ∈
      x.source.roster.functions.filter fun t => t.1.traits.isConstructor ∧ t.1.arity = n := by
    rw [ClassDef.constructors_roster D, h]
    exact List.mem_singleton_self _
  obtain ⟨b, hb, heq⟩ := List.mem_map.mp (E.bodies x hx _ (List.mem_of_mem_filter hmem))
  obtain ⟨hfunction, hsource⟩ := Prod.mk.inj heq
  have harity : f.params.length = n := of_decide_eq_true (List.find?_some h :)
  refine ⟨b, hb, hfunction.trans ?_, hsource⟩
  rw [← harity]
  rfl

end Declare.Enrolled

/-- What is reported of the classes, with the reports on their members taken apart. -/
theorem Declare.Reported.exists_reports {done : List Completed} {ps : List Problem}
    (R : Reported done ps) (D : ∀ x ∈ done, x.source.KeysDistinct) :
    ∃ reports : List ClassReport, reports.map (·.source) = done.reverse.map (·.source) ∧
      (∀ r ∈ reports, (∀ p ∈ r.types, p.ConcernsType) ∧
        r.source.Accounts r.source.members r.members) ∧
      ps = reports.flatMap (·.problems) := by
  induction R with
  | nil => exact ⟨[], rfl, fun _ hr => absurd hr List.not_mem_nil, rfl⟩
  | @completed done ps types x before concern ih =>
    obtain ⟨hx, hdone⟩ := List.forall_mem_cons.mp D
    obtain ⟨reports, hsources, hreports, rfl⟩ := ih hdone
    obtain ⟨members, haccounts, hflatten⟩ := ClassDef.reports_roster hx
    refine ⟨reports ++ [⟨x.source, types, members⟩], ?_, ?_, ?_⟩
    · rw [List.map_append, hsources, List.reverse_cons, List.map_append]
      rfl
    · exact List.forall_mem_append.mpr
        ⟨hreports, List.forall_mem_singleton.mpr ⟨concern, haccounts⟩⟩
    · rw [List.flatMap_append, List.flatMap_singleton, ClassReport.problems, hflatten]

/-- When all is declared, the problems are those with names, with classes and with variables. -/
theorem Declare.Arrives.reports {script : Script} {o : Options} {g : Outline}
    {classes : List ClassDef} {done cut : List Completed} {s : Stage Declarations}
    (D : script.FunctionsDistinct) (F : g.Finished script classes done cut)
    (A : Arrives script o classes done s) : script.Reports s.problems := by
  obtain ⟨_, names, ps, globals, hnames, hreported, hglobals, hproblems⟩ :=
    A.enrolled D fun c hc => F.registers.mp hc
  obtain ⟨reports, hsources, hreports, rfl⟩ :=
    hreported.exists_reports fun x hx => D.keysDistinct (F.registers_of_done hx)
  rw [hproblems]
  refine .intro hnames (fun c => ?_) ?_ (fun r hr => (hreports r hr).1)
    (fun r hr => (hreports r hr).2) hglobals
  · rw [hsources, List.map_reverse, List.mem_reverse]
    constructor
    · intro hc
      obtain ⟨x, hx, rfl⟩ := F.exists_done hc
      exact List.mem_map_of_mem hx
    · intro hc
      obtain ⟨x, hx, rfl⟩ := List.mem_map.mp hc
      exact F.registers_of_done hx
  · have hkeys : reports.map (·.source.key) = (done.map (·.key)).reverse := by
      have hmap := congrArg (List.map ClassDef.key) hsources
      rw [List.map_map, List.map_map] at hmap
      exact hmap.trans (List.map_reverse ..)
    rw [hkeys, List.nodup_reverse]
    exact F.order.nodup

namespace Workspace.Settled

variable {w : Workspace} {script : Script} {done : List Completed} {d : Declarations}
  {earlier : List Problem}

/-- What is bound is no constructor. -/
theorem unbound (S : w.Settled script done d earlier) {type : Key} {f : FunctionEntry}
    (hf : f ∈ w.symbols.constructors type) {scope : ScopeId} {name : String} {b : Binding}
    (hb : w.symbols.scopes.binding? scope name = some b) : b.symbol ≠ .ofFunction f.key := by
  intro hsymbol
  obtain ⟨hmem, htraits⟩ := List.mem_filter.mp hf
  obtain ⟨g, hg, hkey, hother⟩ := S.registered hb hsymbol
  have hsame := List.inj_on_of_nodup_map S.keys hg hmem hkey
  rw [hsame, (of_decide_eq_true htraits).1] at hother
  cases hother

end Workspace.Settled

/-- When a script has been declared and functions that are called differently have different keys,
each class has the constructors that its text says, no scope binds them, and creations choose among
them. The recorded calls are those of the calls in the bodies, one by one. The problems are those
with names, those of the classes, member by member, and at last those of calls. -/
theorem Workspace.declare_selectsConstructors {script : Script} {o : Options} {d : Declarations}
    {problems : List Problem} {w : Workspace}
    (h : Workspace.declare script (.ofOptions o) = .ok (d, problems) w)
    (hdistinct : script.FunctionsDistinct) :
    (∀ c, script.Registers c → w.SelectsConstructors script d c) ∧
      w.symbols.calls.Records (w.symbols.callLog d.bodies) ∧
      ∃ earlier, script.Reports earlier ∧ (∀ p ∈ earlier, script.Repeats p ∨ p.ConcernsType) ∧
        problems = earlier ++ w.symbols.linkProblems d := by
  obtain ⟨g, classes, done, cut, s, F, _, I, A, H⟩ := declare_arrives h
  obtain ⟨S, hproblems⟩ := settled_of_links h F I H
  have E := (A.enrolled hdistinct fun c hc => F.registers.mp hc).1.sameFunctions (.ofLinks H)
  refine ⟨fun c hc => ?_, S.calls, s.problems, A.reports hdistinct F, S.repeats, hproblems⟩
  obtain ⟨x, hx, rfl⟩ := F.exists_done hc
  have D := hdistinct.keysDistinct hc
  refine ⟨E.supplied hx D, E.entries hx D, fun n f => E.exists_body hx D, fun n hreserves f => ?_,
    fun b hb site hsite type hcallee htype hreserves => ?_, fun f hf _ _ _ => S.unbound hf⟩
  · rw [S.constructor?_eq hreserves]
    exact find?_eq_some_iff_filter (E.length_le_one hx D n)
  · obtain ⟨chosen, ps, hchooses, hrecord, hreported⟩ := Symbols.exists_chooses hcallee htype
      (S.constructor?_eq hreserves) (E.length_le_one hx D site.arity)
    refine ⟨chosen, ps, hchooses, hrecord b.function, fun f hf => ?_, hreported⟩
    have hlog : ⟨b.function, f.key, site.span⟩ ∈ w.symbols.callLog d.bodies := by
      refine List.mem_flatMap.mpr ⟨b, hb, List.mem_filterMap.mpr ⟨site, ?_, ?_⟩⟩
      · rwa [FunctionDef.callSites_eq]
      · rw [hrecord, hf]
        rfl
    exact S.calls.exists_sites hlog

/-- The class declares two constructors with one parameter. A method is called like a constructor. -/
def ClassDef.repetitive : ClassDef where
  name := ⟨"B", ⟨3, 1, 1⟩⟩
  span := ⟨3, 1, 1⟩
  base := some (.mk ⟨3, 3, 1⟩ ⟨"A", ⟨3, 3, 1⟩⟩ [])
  members :=
    [.constructor { name := ⟨"new", ⟨4, 1, 3⟩⟩, span := ⟨4, 1, 3⟩,
                    params := [⟨⟨"a", ⟨4, 5, 1⟩⟩, ⟨4, 5, 1⟩⟩] },
     .method { name := ⟨"new", ⟨5, 1, 3⟩⟩, span := ⟨5, 1, 3⟩ },
     .constructor { name := ⟨"new", ⟨6, 1, 3⟩⟩, span := ⟨6, 1, 3⟩,
                    params := [⟨⟨"b", ⟨6, 5, 1⟩⟩, ⟨6, 5, 1⟩⟩] },
     .constructor { name := ⟨"new", ⟨7, 1, 3⟩⟩, span := ⟨7, 1, 3⟩ }]

/-- It extends a class without constructors, and another class has only one. -/
def Script.mixedCreations : Script where
  items :=
    [.classItem { name := ⟨"A", ⟨1, 1, 1⟩⟩, span := ⟨1, 1, 1⟩, members :=
       [.method { name := ⟨"m", ⟨2, 1, 1⟩⟩, span := ⟨2, 1, 1⟩ }] },
     .classItem .repetitive,
     .classItem { name := ⟨"D", ⟨8, 1, 1⟩⟩, span := ⟨8, 1, 1⟩, members :=
       [.constructor { name := ⟨"new", ⟨9, 1, 3⟩⟩, span := ⟨9, 1, 3⟩,
                       params := [⟨⟨"a", ⟨9, 5, 1⟩⟩, ⟨9, 5, 1⟩⟩] }] },
     .functionItem { name := ⟨"main", ⟨10, 1, 4⟩⟩, span := ⟨10, 1, 4⟩, body := some ⟨{}, [
       .expr ⟨11, 1, 1⟩ (.create ⟨11, 1, 1⟩ ⟨"A", ⟨11, 1, 1⟩⟩ []),
       .expr ⟨12, 1, 1⟩ (.create ⟨12, 1, 1⟩ ⟨"B", ⟨12, 1, 1⟩⟩
         [.create ⟨12, 3, 1⟩ ⟨"D", ⟨12, 3, 1⟩⟩ []]),
       .expr ⟨13, 1, 1⟩ (.create ⟨13, 1, 1⟩ ⟨"B", ⟨13, 1, 1⟩⟩
         [.number ⟨13, 3, 1⟩ .zero, .number ⟨13, 5, 1⟩ .zero])]⟩ }]

def Script.mixedCreationProblems : List Problem :=
  [.redefined "function" "B.new" ⟨6, 1, 3⟩, .argumentCount "D.new" 1 0 ⟨12, 3, 1⟩,
    .unknownFunction "B.new" ⟨13, 1, 1⟩]

theorem Workspace.declare_selectsConstructors_mixed :
    ∃ d w, Workspace.declare .mixedCreations (.ofOptions {}) =
        .ok (d, Script.mixedCreationProblems) w ∧
      Script.mixedCreations.FunctionsDistinct ∧
      Script.mixedCreations.Registers .repetitive ∧
      (∀ n < 3, Script.mixedCreations.Reserves ClassDef.repetitive.key n) ∧
      w.SelectsConstructors .mixedCreations d .repetitive ∧
      ∃ earlier, Script.mixedCreations.Reports earlier ∧
        Script.mixedCreationProblems = earlier ++ w.symbols.linkProblems d := by
  have hproblems : Script.mixedCreations.declarationProblems {} =
      some Script.mixedCreationProblems := by
    decide +kernel
  have hdistinct : Script.mixedCreations.FunctionsDistinct := by decide +kernel
  have hregisters : Script.mixedCreations.Registers .repetitive :=
    (List.find?_cons_of_neg (p := fun c : ClassDef => c.key = ClassDef.repetitive.key)
      (by decide +kernel)).trans (List.find?_cons_of_pos
        (p := fun c : ClassDef => c.key = ClassDef.repetitive.key) (decide_eq_true rfl))
  have hreserves : ∀ n < 3, Script.mixedCreations.Reserves ClassDef.repetitive.key n := by
    decide +kernel
  obtain ⟨d, w, h⟩ := Script.exists_of_declarationProblems hproblems
  obtain ⟨hselects, _, earlier, hreports, _, hall⟩ := declare_selectsConstructors h hdistinct
  exact ⟨d, w, h, hdistinct, hregisters, hreserves, hselects _ hregisters, earlier, hreports, hall⟩

/-! ## Keys that are asked for -/

/-- The function has the key of a constructor with two parameters, and the class has two others. -/
def Script.usurpedConstructor : Script where
  items :=
    [.functionItem { name := ⟨"zmuypC,Oaqt", ⟨1, 1, 11⟩⟩, span := ⟨1, 1, 11⟩ },
     .classItem { name := ⟨"C", ⟨3, 1, 1⟩⟩, span := ⟨3, 1, 1⟩,
                  members :=
                    [.constructor { name := ⟨"new", ⟨4, 1, 3⟩⟩, span := ⟨4, 1, 3⟩ },
                     .constructor { name := ⟨"new", ⟨5, 1, 3⟩⟩, span := ⟨5, 1, 3⟩,
                                    params := [⟨⟨"a", ⟨6, 1, 1⟩⟩, ⟨6, 1, 1⟩⟩] }] },
     .functionItem { name := ⟨"main", ⟨8, 1, 4⟩⟩, span := ⟨8, 1, 4⟩, body := some ⟨{}, [
       .expr ⟨11, 1, 1⟩ (.create ⟨11, 1, 1⟩ ⟨"C", ⟨11, 1, 1⟩⟩
         [.number ⟨9, 1, 1⟩ .zero, .number ⟨10, 1, 1⟩ .zero])]⟩ }]

/-- Although the keys of its functions are distinct, a function is found as the constructor with two
parameters of a class that has none, and a creation is recorded as a call of it. -/
theorem Workspace.declare_usurps_constructor :
    (Script.usurpedConstructor.functions.map (·.1.key)).Nodup ∧
      ∃ d w, Workspace.declare .usurpedConstructor (.ofOptions {}) = .ok (d, []) w ∧
        (∀ f ∈ w.symbols.constructors (.type "C"), f.arity ≠ 2) ∧
        ∃ f, w.symbols.constructor? (.type "C") 2 = some f ∧
          w.symbols.calls.sites? (.function "main") f.key = some [⟨11, 1, 1⟩] := by
  have htest : Script.usurpedConstructor.declaredWith {} (fun _ w =>
      decide (∀ f ∈ w.symbols.constructors (.type "C"), f.arity ≠ 2) &&
      (w.symbols.constructor? (.type "C") 2).any fun f =>
        decide (w.symbols.calls.sites? (.function "main") f.key = some [⟨11, 1, 1⟩])) = true := by
    decide +kernel
  obtain ⟨d, w, h, htest⟩ := Script.exists_of_declaredWith htest
  obtain ⟨hlacks, hfound⟩ := Bool.and_eq_true_iff.mp htest
  obtain ⟨f, hf, hsites⟩ := (Option.any_eq_true ..).mp hfound
  exact ⟨by decide +kernel, d, w, h, of_decide_eq_true hlacks, f, hf, of_decide_eq_true hsites⟩

end Stackless
