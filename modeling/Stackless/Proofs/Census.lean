import Stackless.Proofs.OrderlyScripts
import Stackless.Proofs.Rosters

/-!
# The census of a script

All that is known once an orderly script is declared and only its calls remain to be linked, without
the ids that scopes and variables happen to get (`Census`). Each step of the pass changes the census
in one way, and none depends on what was declared before, so the census of the whole script follows
from the script and the order in which its classes were completed (`Declare.Arrives.census`).
-/

namespace Stackless

/-! ## Generic parameters -/

namespace Declare

variable {s s' : Stage Declarations} {u : Unit}

/-- Of the parameters of a class, the first of each name is registered. -/
theorem generics_ok {c : ClassDef} {ps : List Ident} {seen : List String} {gs : List Generic}
    (hinj : ∀ p ∈ ps, ∀ q ∈ ps,
      Key.genericParameter c.key p.name = .genericParameter c.key q.name → p.name = q.name)
    (htaken : ∀ p ∈ ps, Key.genericParameter c.key p.name ∈ s.work.symbols.types.map (·.key) ↔
      p.name ∈ seen)
    (h : generics c ps s = .ok gs s') :
    gs = (ClassDef.splitParameters seen ps).1.map (fun p => ⟨p, .genericParameter c.key p.name⟩) ∧
    s' = { s with
      work := { s.work with symbols := { s.work.symbols with
        types := s.work.symbols.types ++ gs.map (·.entry c.key) } }
      problems := s.problems ++
        (ClassDef.splitParameters seen ps).2.map fun p => .redefined "type" p.name p.span } := by
  induction ps generalizing seen gs s with
  | nil =>
    cases h
    refine ⟨rfl, ?_⟩
    simp only [ClassDef.splitParameters, List.map_nil, List.append_nil]
  | cons p rest ih =>
    obtain ⟨added, s₁, hadd, h⟩ := exists_of_bind h
    obtain ⟨others, s₂, hrest, h⟩ := exists_of_bind h
    cases h
    obtain ⟨hp, hothers⟩ := List.forall_mem_cons.mp htaken
    have hinj' : ∀ q ∈ rest, ∀ r ∈ rest, Key.genericParameter c.key q.name =
        .genericParameter c.key r.name → q.name = r.name := fun q hq r hr =>
      hinj q (List.mem_cons_of_mem _ hq) r (List.mem_cons_of_mem _ hr)
    rw [ClassDef.splitParameters]
    rcases attempt_addType hadd with ⟨rfl, hfresh, rfl⟩ | ⟨rfl, hmem, rfl⟩
    · rw [if_neg fun hseen => hfresh (hp.mpr hseen)]
      have hothers' : ∀ q ∈ rest, Key.genericParameter c.key q.name ∈
          (s.work.symbols.types ++ [TypeEntry.ofGeneric c.key p.name p.span]).map (·.key) ↔
            q.name ∈ p.name :: seen := by
        intro q hq
        rw [List.map_append, List.mem_append, hothers q hq, List.mem_cons, or_comm,
          List.map_singleton, List.mem_singleton]
        refine or_congr_left ⟨fun he => ?_, fun he => congrArg _ he⟩
        exact hinj q (List.mem_cons_of_mem _ hq) p List.mem_cons_self he
      obtain ⟨rfl, rfl⟩ := ih hinj' hothers' hrest
      refine ⟨rfl, ?_⟩
      simp only [List.append_assoc, Option.isSome_some, if_true, List.map_cons]
      rfl
    · rw [if_pos (hp.mp hmem)]
      obtain ⟨rfl, rfl⟩ := ih (s := { s with problems := s.problems ++ _ }) hinj' hothers hrest
      refine ⟨rfl, ?_⟩
      simp only [List.append_assoc, Option.isSome_none, Bool.false_eq_true, if_false, List.map_cons]
      rfl

/-- A name that is free is bound to a type. -/
theorem bindGeneric_ok {scope : ScopeId} {y : Generic}
    (hfree : s.work.symbols.scopes.type? scope y.name.name = none)
    (h : bindGeneric scope y s = .ok u s') :
    ∃ scopes, s.work.symbols.scopes.declareType scope y.name.name y.key y.name.span = .ok scopes ∧
      s' = { s with work := { s.work with symbols := { s.work.symbols with scopes } } } := by
  obtain ⟨r, s₁, hbound, h⟩ := exists_of_bind h
  cases h
  rcases attempt_declareType hbound with hscopes | ⟨htaken, _⟩
  · exact hscopes
  · exact absurd hfree htaken

/-- A parameter is bound in both scopes of a class. -/
theorem bindSides_ok {m : MemberScopes} {y : Generic} {s₁ : Stage Declarations} {u₁ u₂ : Unit}
    (hne : m.static ≠ m.object)
    (hfree : ∀ isStatic, s.work.symbols.scopes.type? (m.side isStatic) y.name.name = none)
    (hstatic : bindGeneric m.static y s = .ok u₁ s₁)
    (hobject : bindGeneric m.object y s₁ = .ok u₂ s') :
    ∃ scopes, s' = { s with work := { s.work with symbols := { s.work.symbols with scopes } } } ∧
      (∀ id name, scopes.binding? id name = s.work.symbols.scopes.binding? id name) ∧
      (∀ {id}, (∀ isStatic, m.side isStatic ≠ id) → ∀ name,
        scopes.type? id name = s.work.symbols.scopes.type? id name) ∧
      ∀ isStatic name, scopes.type? (m.side isStatic) name =
        if y.name.name = name then some y.key
        else s.work.symbols.scopes.type? (m.side isStatic) name := by
  obtain ⟨scopes₁, hbound₁, rfl⟩ := bindGeneric_ok (hfree true) hstatic
  have hfree₁ : scopes₁.type? m.object y.name.name = none := by
    rw [Scopes.type?_declareType hbound₁, if_neg fun he => hne he.1]
    exact hfree false
  obtain ⟨scopes₂, hbound₂, rfl⟩ := bindGeneric_ok hfree₁ hobject
  refine ⟨scopes₂, rfl, fun id name => ?_, fun hid name => ?_, fun isStatic name => ?_⟩
  · exact (Scopes.binding?_declareType hbound₂ id name).trans
      (Scopes.binding?_declareType hbound₁ id name)
  · rw [Scopes.type?_declareType hbound₂, if_neg fun he => hid false he.1,
      Scopes.type?_declareType hbound₁, if_neg fun he => hid true he.1]
  · rw [Scopes.type?_declareType hbound₂, Scopes.type?_declareType hbound₁]
    cases isStatic
    · simp only [MemberScopes.side, Bool.false_eq_true, if_false, true_and, if_true, hne, false_and]
    · simp only [MemberScopes.side, if_true, hne.symm, false_and, if_false, true_and]

/-- Parameters with different names are all bound, in both scopes of the class. -/
theorem bindGenerics_ok {m : MemberScopes} {gs : List Generic} (hne : m.static ≠ m.object)
    (hnodup : (gs.map (·.name.name)).Nodup)
    (hfree : ∀ isStatic, ∀ y ∈ gs, s.work.symbols.scopes.type? (m.side isStatic) y.name.name = none)
    (h : bindGenerics m gs s = .ok u s') :
    ∃ scopes, s' = { s with work := { s.work with symbols := { s.work.symbols with scopes } } } ∧
      (∀ id name, scopes.binding? id name = s.work.symbols.scopes.binding? id name) ∧
      (∀ {id}, (∀ isStatic, m.side isStatic ≠ id) → ∀ name,
        scopes.type? id name = s.work.symbols.scopes.type? id name) ∧
      ∀ isStatic name k, scopes.type? (m.side isStatic) name = some k ↔
        s.work.symbols.scopes.type? (m.side isStatic) name = some k ∨
          ∃ y ∈ gs, y.name.name = name ∧ y.key = k := by
  induction gs generalizing s with
  | nil =>
    cases h
    exact ⟨_, rfl, fun _ _ => rfl, fun _ _ => rfl, by simp⟩
  | cons y rest ih =>
    obtain ⟨_, s₁, hstatic, h⟩ := exists_of_bind h
    obtain ⟨_, s₂, hobject, h⟩ := exists_of_bind h
    obtain ⟨hnew, hnodup⟩ := List.nodup_cons.mp hnodup
    have hy := fun isStatic => hfree isStatic y List.mem_cons_self
    obtain ⟨scopes₁, rfl, hbindings, hothers, hsides⟩ := bindSides_ok hne hy hstatic hobject
    have hfree₁ : ∀ isStatic, ∀ z ∈ rest,
        scopes₁.type? (m.side isStatic) z.name.name = none := by
      intro isStatic z hz
      have hdiffers : y.name.name ≠ z.name.name :=
        fun he => hnew (List.mem_map.mpr ⟨z, hz, he.symm⟩)
      rw [hsides, if_neg hdiffers]
      exact hfree isStatic z (List.mem_cons_of_mem _ hz)
    obtain ⟨scopes, rfl, hb, ho, ht⟩ := ih hnodup hfree₁ h
    refine ⟨scopes, rfl, fun id name => (hb id name).trans (hbindings id name),
      fun hid name => (ho hid name).trans (hothers hid name), fun isStatic name k => ?_⟩
    rw [ht]
    change scopes₁.type? (m.side isStatic) name = some k ∨ _ ↔ _
    rw [hsides]
    simp only [List.mem_cons, exists_eq_or_imp]
    by_cases hname : y.name.name = name
    · subst hname
      rw [if_pos rfl, hy isStatic, Option.some.injEq]
      simp
    · rw [if_neg hname]
      simp [hname]

end Declare

/-- A change to one entry leaves all keys as they are. -/
theorem TypeEntry.Retains.keys {f : TypeEntry → TypeEntry} (hf : Retains f) (key : Key)
    (ts : List TypeEntry) :
    (ts.map fun t => if t.key = key then f t else t).map (·.key) = ts.map (·.key) := by
  rw [List.map_map]
  refine List.map_congr_left fun t _ => ?_
  simp only [Function.comp_apply]
  split
  · exact hf.key t
  · rfl

/-- The class that a function belongs to. -/
def Callable.owner? : Callable → Option Key
  | .function _ => none
  | .method owner _ | .constructor owner _ => some owner

theorem ClassDef.owner?_of_mem {c : ClassDef} {t : FunctionText} (h : t ∈ c.functions) :
    t.1.owner? = some c.key := by
  rcases List.mem_append.mp h with h | h
  · obtain ⟨x, _, ht⟩ := List.mem_filterMap.mp h
    cases x <;> cases ht <;> rfl
  · rw [supplied] at h
    split at h
    · cases h
    · cases List.mem_singleton.mp h
      rfl

/-- No other function has the key of a function of a class that is not complete. -/
theorem Ledger.Inventory.function_free {script : Script} {L : Ledger} {done : List Completed}
    {s : Stage Declarations} {c : ClassDef} (I : (L.addClasses done).Inventory script s)
    (D : script.FunctionsDistinct) (hfunctions : L.functions = script.globalFunctions)
    (hsources : ∀ y ∈ done, y.source ∈ script.classes) (hc : c ∈ script.classes)
    (hnew : c.key ∉ done.map (·.key)) :
    ∀ t ∈ c.functions, t.1.key ∉ s.work.symbols.functions.map (·.key) := by
  have hmem : ∀ {d : ClassDef}, d ∈ script.classes → ∀ t ∈ d.functions, t ∈ script.functions :=
    fun hd t ht => List.mem_append_right _ (List.mem_flatMap.mpr ⟨_, hd, ht⟩)
  intro t ht hkey
  have howner := ClassDef.owner?_of_mem ht
  obtain ⟨t', ht', hkey'⟩ := I.tally.exists_text hkey
  rw [addClasses_functions, hfunctions] at ht'
  rcases List.mem_append.mp ht' with ht' | ht'
  · have hsame := D t' (List.mem_append_left _ ht') t (hmem hc t ht) hkey'
    obtain ⟨f, _, rfl⟩ := List.mem_map.mp ht'
    rw [← hsame] at howner
    cases howner
  · obtain ⟨y, hy, ht'⟩ := List.mem_flatMap.mp ht'
    have hy := List.mem_reverse.mp hy
    have hsame := D t' (hmem (hsources y hy) t' ht') t (hmem hc t ht) hkey'
    rw [← hsame, ClassDef.owner?_of_mem ht', Option.some.injEq] at howner
    exact hnew (List.mem_map.mpr ⟨y, hy, howner⟩)

/-! ## The census -/

/-- The names that functions and variables have at the root, with what they mean there. -/
def rootSights (fs : List FunctionDef) (vs : List VariableDef) : List (String × Sight) :=
  (fs.map fun f => (f.name.name, ⟨some (.function f.name.name), f.name.span⟩)) ++
    vs.map fun v => (v.name.name, ⟨none, v.name.span⟩)

/-- What is known when the functions `fs`, the classes `cs` and the variables `vs` outside classes
have been declared, some of the classes have been begun, and those in `done` are complete. -/
structure Census (script : Script) (fs : List FunctionDef) (cs : List ClassDef) (opens : List Begun)
    (done : List Completed) (vs : List VariableDef) (s : Stage Declarations) : Prop where
  functions : s.work.symbols.functions.map (·.bare) =
    fs.map .ofFunctionDef ++ done.reverse.flatMap fun x => x.source.roster.functions.map (·.1)
  bodies : s.report.bodies.map (fun b => (b.function, b.source)) =
    fs.map (fun f => (.function f.name.name, f)) ++
      done.reverse.flatMap fun x => x.source.roster.functions.map fun t => (t.1.key, t.2)
  initializers : s.report.initializers =
    (done.reverse.flatMap fun x =>
      x.source.roster.initializers.map fun i => ⟨x.scopes.side i.1, i.2⟩) ++
    vs.flatMap (Declare.initializersOf .root)
  profiles : s.work.layout.profiles =
    done.reverse.flatMap (·.source.roster.profiles) ++
      vs.map fun v => ⟨some v.name, .declared, v.domain⟩
  problems : s.problems.Perm
    ((begun opens done).flatMap (·.source.parameterProblems) ++
      done.flatMap fun x => (script.extension x.source).1 ++ x.source.roster.problems)
  roots : ∀ name x, (s.work.symbols.scopes.binding? .root name).map (·.sight) = some x ↔
    (name, x) ∈ rootSights fs vs
  rootTypes : ∀ {name k}, s.work.symbols.scopes.type? .root name = some k ↔
    ∃ c ∈ cs, c.name.name = name ∧ c.key = k
  keys : (s.work.symbols.types.map (·.key)).Perm
    (cs.map (·.key) ++ (begun opens done).flatMap fun x => x.generics.map (·.key))
  incomplete : ∀ t ∈ s.work.symbols.types, t.key ∉ done.map (·.key) →
    t.members = none ∧ t.base = none
  generics : ∀ x ∈ begun opens done, x.generics = x.source.registered
  members : ∀ x ∈ done, ∀ isStatic name,
    (s.work.symbols.scopes.declared? (x.scopes.side isStatic) name).map (·.sight) =
      x.source.roster.names isStatic name
  memberTypes : ∀ x ∈ done, ∀ isStatic name k,
    s.work.symbols.scopes.type? (x.scopes.side isStatic) name = some k ↔
      ∃ y ∈ x.source.registered, y.name.name = name ∧ y.key = k
  bases : ∀ x ∈ done, x.base = (script.extension x.source).2

namespace Census

variable {script : Script} {fs : List FunctionDef} {cs : List ClassDef} {opens : List Begun}
  {done : List Completed} {vs : List VariableDef} {s s' : Stage Declarations} {c : ClassDef}
  {f : FunctionDef} {v : VariableDef} {u : Unit}

theorem start (script : Script) (o : Options) :
    Census script [] [] [] [] [] { work := .ofOptions o, report := {} } where
  functions := rfl
  bodies := rfl
  initializers := rfl
  profiles := rfl
  problems := .nil
  roots name x := by
    have hnone : ({} : Scopes).binding? .root name = none := (Scopes.start_empty .root name).1
    change (({} : Scopes).binding? .root name).map _ = _ ↔ _
    rw [hnone]
    simp [rootSights]
  rootTypes := by
    intro name k
    have hnone : ({} : Scopes).type? .root name = none := (Scopes.start_empty .root name).2
    change ({} : Scopes).type? .root name = _ ↔ _
    rw [hnone]
    simp
  keys := .nil
  incomplete := fun _ ht => absurd ht List.not_mem_nil
  generics := nofun
  members := nofun
  memberTypes := nofun
  bases := nofun

/-! ### Outside classes -/

theorem keys_functions (N : Census script fs cs opens done vs s) :
    s.work.symbols.functions.map (·.key) = fs.map (fun f => .function f.name.name) ++
      done.reverse.flatMap fun x => x.source.roster.functions.map (·.1.key) := by
  have hbare : s.work.symbols.functions.map (·.key) =
      (s.work.symbols.functions.map (·.bare)).map (·.key) := by
    rw [List.map_map]
    rfl
  rw [hbare, N.functions, List.map_append, List.map_map, List.map_flatMap]
  simp only [List.map_map]
  rfl

/-- What the root binds to a name that is not in the list. -/
theorem root_free (N : Census script fs cs opens done vs s) {name : String}
    (h : name ∉ (rootSights fs vs).map (·.1)) :
    s.work.symbols.scopes.binding? .root name = none := by
  rw [← Option.map_eq_none_iff (f := Binding.sight)]
  refine Option.eq_none_iff_forall_ne_some.mpr fun x hx => h ?_
  exact List.mem_map.mpr ⟨(name, x), (N.roots name x).mp hx, rfl⟩

/-- A name that was free is bound at the root. -/
theorem roots_bind (N : Census script fs cs opens done vs s) {scopes : Scopes} {name : String}
    {symbol : Symbol} {span : Span} (hname : name ∉ (rootSights fs vs).map (·.1))
    (h : s.work.symbols.scopes.declare .root name symbol span = .ok scopes) (name' : String)
    (x : Sight) : (scopes.binding? .root name').map (·.sight) = some x ↔
      (name', x) ∈ rootSights fs vs ∨ (name', x) = (name, ⟨symbol.toFunction?, span⟩) := by
  rw [(Scopes.declare_ok h).2.2]
  by_cases he : name = name'
  · subst he
    rw [if_pos ⟨rfl, rfl⟩]
    constructor
    · intro hx
      cases hx
      exact .inr rfl
    · rintro (hx | hx)
      · exact absurd (List.mem_map.mpr ⟨_, hx, rfl⟩) hname
      · cases hx
        rfl
  · rw [if_neg fun h => he h.2, N.roots, or_iff_left]
    intro hx
    cases hx
    exact he rfl

theorem className {isNew : Bool} (N : Census script fs cs [] [] [] s)
    (hkey : c.key ∉ cs.map (·.key)) (hname : c.name.name ∉ cs.map (·.name.name))
    (h : Declare.className c s = .ok isNew s') : Census script fs (cs ++ [c]) [] [] [] s' := by
  obtain ⟨r, s₁, hadd, h⟩ := exists_of_bind h
  have hkeys : (s.work.symbols.types.map (·.key)).Perm (cs.map (·.key)) := by
    have hperm := N.keys
    rwa [begun, List.map_nil, List.append_nil, List.flatMap_nil, List.append_nil] at hperm
  rcases Declare.attempt_addType hadd with ⟨rfl, _, rfl⟩ | ⟨_, htaken, _⟩
  · obtain ⟨r, s₂, hbind, h⟩ := exists_of_bind h
    cases h
    rcases Declare.attempt_declareType hbind with ⟨scopes, hscopes, rfl⟩ | ⟨htaken, _⟩
    · refine { N with
        roots := fun name x => ?_
        rootTypes := ?_
        keys := ?_
        incomplete := fun t ht hkey => ?_
        members := fun _ hx => absurd hx List.not_mem_nil
        memberTypes := fun _ hx => absurd hx List.not_mem_nil }
      · rw [← N.roots name x]
        change (scopes.binding? .root name).map _ = _ ↔ _
        rw [Scopes.binding?_declareType hscopes]
      · intro name k
        change scopes.type? .root name = some k ↔ _
        rw [Scopes.type?_declareType hscopes]
        by_cases he : c.name.name = name
        · subst he
          rw [if_pos ⟨rfl, rfl⟩, Option.some.injEq]
          constructor
          · rintro rfl
            exact ⟨c, List.mem_append_right _ (List.mem_singleton_self c), rfl, rfl⟩
          · rintro ⟨d, hd, hdname, rfl⟩
            rcases List.mem_append.mp hd with hd | hd
            · exact absurd (List.mem_map.mpr ⟨d, hd, hdname⟩) hname
            · cases List.mem_singleton.mp hd
              rfl
        · rw [if_neg fun h => he h.2]
          change s.work.symbols.scopes.type? .root name = some k ↔ _
          rw [N.rootTypes]
          simp [he]
      · rw [begun, List.map_nil, List.append_nil, List.flatMap_nil, List.append_nil]
        change ((s.work.symbols.types ++ _).map _).Perm _
        rw [List.map_append, List.map_append]
        exact hkeys.append_right _
      · rcases List.mem_append.mp ht with ht | ht
        · exact N.incomplete t ht hkey
        · cases List.mem_singleton.mp ht
          exact ⟨rfl, rfl⟩
    · refine absurd (Option.eq_none_iff_forall_ne_some.mpr fun k hk => ?_) htaken
      obtain ⟨d, hd, hdname, _⟩ := N.rootTypes.mp hk
      exact hname (List.mem_map.mpr ⟨d, hd, hdname⟩)
  · exact absurd (hkeys.mem_iff.mp htaken) hkey

theorem function (N : Census script fs cs [] [] [] s)
    (hkey : .function f.name.name ∉ fs.map fun f => Key.function f.name.name)
    (hname : f.name.name ∉ fs.map (·.name.name))
    (h : Declare.function (.ofFunctionDef f) .root f s = .ok u s') :
    Census script (fs ++ [f]) cs [] [] [] s' := by
  have hnew : f.name.name ∉ (rootSights fs []).map (·.1) := by simpa [rootSights] using hname
  have hfree := N.root_free hnew
  have hfunctions : s.work.symbols.functions.map (·.bare) = fs.map .ofFunctionDef :=
    N.functions.trans (List.append_nil _)
  have hbodies : s.report.bodies.map (fun b => (b.function, b.source)) =
      fs.map fun f => (.function f.name.name, f) := N.bodies.trans (List.append_nil _)
  cases Declare.adds_of_function h with
  | refused taken =>
    rw [N.keys_functions, List.reverse_nil, List.flatMap_nil, List.append_nil] at taken
    exact absurd taken hkey
  | @added scopes problems fresh binds =>
    cases binds with
    | taken hb => cases hfree.symm.trans hb
    | bound hbound =>
      refine { N with
        functions := ?_
        bodies := ?_
        problems := ?_
        roots := ?_
        rootTypes := ?_
        members := fun _ hx => absurd hx List.not_mem_nil
        memberTypes := fun _ hx => absurd hx List.not_mem_nil }
      · change (s.work.symbols.functions ++ _).map _ = _
        rw [List.map_append, hfunctions, List.map_append, List.append_assoc]
        rfl
      · change (s.report.bodies ++ _).map _ = _
        rw [List.map_append, hbodies, List.map_append, List.append_assoc]
        rfl
      · change (s.problems ++ []).Perm _
        rw [List.append_nil]
        exact N.problems
      · intro name x
        change ((scopes.child _ _ _).binding? .root name).map _ = _ ↔ _
        rw [Scopes.binding?_child, N.roots_bind hnew hbound]
        simp only [rootSights, List.map_append, List.map_singleton, List.map_nil, List.append_nil,
          List.mem_append, List.mem_singleton]
        rfl
      · intro name k
        change (scopes.child _ _ _).type? .root name = some k ↔ _
        rw [Scopes.type?_child, Scopes.type?_declare hbound, N.rootTypes]

/-- The classes and functions among some items are all accepted. -/
theorem names {items : List Item} {classes : List ClassDef} (O : script.Orderly)
    (hclasses : cs ++ items.filterMap Item.toClass? = script.classes)
    (hfunctions : fs ++ items.filterMap Item.toFunction? = script.items.filterMap Item.toFunction?)
    (N : Census script fs cs [] [] [] s) (h : Declare.names items s = .ok classes s') :
    Census script (script.items.filterMap Item.toFunction?) script.classes [] [] [] s' := by
  induction items generalizing fs cs s classes with
  | nil =>
    cases h
    rw [List.filterMap_nil, List.append_nil] at hclasses hfunctions
    rw [← hclasses, ← hfunctions]
    exact N
  | cons item rest ih =>
    cases item with
    | classItem c =>
      obtain ⟨isNew, s₁, hname, h⟩ := exists_of_bind h
      obtain ⟨more, s₂, hrest, h⟩ := exists_of_bind h
      cases h
      have hsplit : cs ++ c :: rest.filterMap Item.toClass? = script.classes := hclasses
      have hkeys := O.nodup_keys
      have hnames := O.classNames
      rw [← hsplit, List.map_append, List.map_cons] at hkeys hnames
      refine ih (by rw [← hsplit, List.append_cons]) hfunctions ?_ hrest
      refine N.className (fun hc => ?_) (fun hc => ?_) hname
      · exact (List.nodup_append.mp hkeys).2.2 _ hc _ List.mem_cons_self rfl
      · exact (List.nodup_append.mp hnames).2.2 _ hc _ List.mem_cons_self rfl
    | functionItem f =>
      obtain ⟨_, s₁, hadd, h⟩ := exists_of_bind h
      have hsplit : fs ++ f :: rest.filterMap Item.toFunction? =
        script.items.filterMap Item.toFunction? := hfunctions
      have hnames := (List.nodup_append.mp (List.map_append ▸ O.rootNames)).1
      rw [Script.globalFunctions, ← hsplit, List.map_map, List.map_map, List.map_append,
        List.map_cons] at hnames
      have hfree : f.name.name ∉ fs.map (·.name.name) := fun hf =>
        (List.nodup_append.mp hnames).2.2 _ hf _ List.mem_cons_self rfl
      refine ih hclasses (by rw [← hsplit, List.append_cons]) ?_ h
      refine N.function (fun hf => hfree ?_) hfree hadd
      obtain ⟨d, hd, hkey⟩ := List.mem_map.mp hf
      have hmem : ∀ {x}, x ∈ fs ++ f :: rest.filterMap Item.toFunction? →
          (.function x.name.name, x) ∈ script.functions := by
        intro x hx
        exact List.mem_append_left _ (List.mem_map.mpr ⟨x, hsplit ▸ hx, rfl⟩)
      have hsame := O.functionKeys _ (hmem (List.mem_append_left _ hd)) _
        (hmem (List.mem_append_right _ List.mem_cons_self)) hkey
      injection hsame with hsame
      exact List.mem_map.mpr ⟨d, hd, hsame⟩
    | variableItem v => exact ih hclasses hfunctions N h

/-! ### Classes -/

/-- No other type has the key of a parameter of a class that was not begun. -/
theorem parameter_free {x : Begun} {p : Ident} (O : script.Orderly)
    (N : Census script fs script.classes opens done vs s) (hx : x.source ∈ script.classes)
    (hsources : ∀ y ∈ begun opens done, y.source ∈ script.classes)
    (hfresh : x.key ∉ (begun opens done).map (·.key)) (hp : p ∈ x.source.generics) :
    Key.genericParameter x.source.key p.name ∉ s.work.symbols.types.map (·.key) := by
  intro hmem
  rcases List.mem_append.mp (N.keys.mem_iff.mp hmem) with hmem | hmem
  · obtain ⟨d, hd, hkey⟩ := List.mem_map.mp hmem
    cases O.parameter_key hx hp (Script.Orderly.ofClass_mem hd) hkey
  · obtain ⟨y, hy, hmem⟩ := List.mem_flatMap.mp hmem
    rw [N.generics y hy] at hmem
    obtain ⟨z, hz, hkey⟩ := List.mem_map.mp hmem
    obtain ⟨q, hq, rfl⟩ := ClassDef.exists_of_mem_registered hz
    have hsame := O.parameter_key hx hp (Script.Orderly.ofParameter_mem (hsources y hy) hq) hkey
    injection hsame with hname
    exact hfresh (List.mem_map.mpr ⟨y, hy, congrArg Key.type hname⟩)

theorem openClass {x : Begun} (O : script.Orderly)
    (N : Census script fs script.classes opens done vs s) (hx : x.source ∈ script.classes)
    (hsources : ∀ y ∈ begun opens done, y.source ∈ script.classes)
    (hfresh : x.key ∉ (begun opens done).map (·.key))
    (h : Declare.openClass x.source s = .ok x.generics s') :
    Census script fs script.classes (x :: opens) done vs s' := by
  obtain ⟨_, s₁, hupdate, hgenerics⟩ := exists_of_bind h
  have hs₁ := Declare.updateType_ok hupdate
  have hkeys : s₁.work.symbols.types.map (·.key) = s.work.symbols.types.map (·.key) := by
    rw [hs₁]
    exact (TypeEntry.Retains.progress .inProgress).keys x.source.key s.work.symbols.types
  have hinj : ∀ p ∈ x.source.generics, ∀ q ∈ x.source.generics,
      Key.genericParameter x.source.key p.name = .genericParameter x.source.key q.name →
        p.name = q.name := by
    intro p hp q hq hkey
    have hsame := O.parameter_key hx hq (Script.Orderly.ofParameter_mem hx hp) hkey
    injection hsame
  have htaken : ∀ p ∈ x.source.generics, Key.genericParameter x.source.key p.name ∈
      s₁.work.symbols.types.map (·.key) ↔ p.name ∈ ([] : List String) := by
    intro p hp
    rw [hkeys]
    exact iff_of_false (N.parameter_free O hx hsources hfresh hp) List.not_mem_nil
  obtain ⟨hregistered, rfl⟩ := Declare.generics_ok hinj htaken hgenerics
  subst hs₁
  refine { N with problems := ?_, keys := ?_, incomplete := fun t ht hkey => ?_, generics := ?_ }
  · change (s.problems ++ x.source.parameterProblems).Perm _
    refine (N.problems.append_right _).trans (List.perm_append_comm.trans ?_)
    rw [← List.append_assoc]
    exact .refl _
  · change ((_ ++ x.generics.map (·.entry x.source.key)).map (·.key)).Perm _
    have hentries : (x.generics.map (·.entry x.source.key)).map (·.key) =
        x.generics.map (·.key) := by
      rw [List.map_map]
      refine List.map_congr_left fun y hy => ?_
      obtain ⟨p, _, rfl⟩ := ClassDef.exists_of_mem_registered (c := x.source) (hregistered ▸ hy)
      rfl
    rw [List.map_append, hkeys, hentries]
    refine (N.keys.append_right _).trans ?_
    rw [List.append_assoc]
    exact List.perm_append_comm.append_left _
  · rcases List.mem_append.mp ht with ht | ht
    · obtain ⟨old, hold, rfl⟩ := List.mem_map.mp ht
      split at hkey
      · rename_i he
        rw [if_pos he]
        exact N.incomplete old hold hkey
      · rename_i he
        rw [if_neg he]
        exact N.incomplete old hold hkey
    · obtain ⟨y, _, rfl⟩ := List.mem_map.mp ht
      exact ⟨rfl, rfl⟩
  · exact List.forall_mem_cons.mpr ⟨hregistered, N.generics⟩

end Census

/-- Closing a class changes the entry of the class only. -/
theorem Declare.Closes.types {done : List Completed} {x : Completed} {s s' : Stage Declarations}
    (h : Closes done x s s') : ∃ f, TypeEntry.Retains f ∧ s'.work.symbols.types =
      s.work.symbols.types.map fun t => if t.key = x.source.key then f t else t := by
  cases h with
  | @intro clause base scopes s₁ s₂ s₃ types types' typeCount u u' judged reported before accepted
      extended static object takesOver generics filled members supplied resolved =>
    have hsupplied : s₃.work.symbols.types = s₂.work.symbols.types := by
      split at supplied
      · rw [supplied]
      · obtain ⟨_, h⟩ := supplied
        exact (adds_of_constructor h).types
    have htypes : types = _ := filled
    rw [types_of_bindGenerics generics] at htypes
    refine ⟨fun t =>
      { t with
        base := x.base
        members := some x.scopes
        generics := x.generics.map (·.key)
        progress := .resolved }, ⟨fun _ => rfl, fun _ => rfl, fun _ => rfl⟩, ?_⟩
    change types' = _
    rw [resolved, hsupplied, types_of_members members]
    change types.map _ = _
    rw [htypes, List.map_map]
    refine List.map_congr_left fun t _ => ?_
    simp only [Function.comp_apply]
    split
    · rename_i hkey
      exact (if_pos hkey).symm
    · rename_i hkey
      exact (if_neg hkey).symm

/-- Two scopes were added that declare nothing themselves. The others are as before. -/
structure Scopes.Adjoins (s : Scopes) (m : MemberScopes) (s' : Scopes) : Prop where
  apart : m.static ≠ m.object
  new : ∀ {id : ScopeId}, id.index < s.size → ∀ isStatic, m.side isStatic ≠ id
  bindings : ∀ {id : ScopeId}, id.index < s.size → ∀ name, s'.binding? id name = s.binding? id name
  types : ∀ id name, s'.type? id name = s.type? id name
  undeclared : ∀ isStatic name, s'.declared? (m.side isStatic) name = none
  untyped : ∀ isStatic name, s'.type? (m.side isStatic) name = none

theorem Scopes.adjoins_of_takesOver {s s' : Scopes} {m : MemberScopes} {base : Option MemberScopes}
    {className : String} (static : m.static = s.nextId) (object : m.object = ⟨s.size + 1⟩)
    (T : ((s.child .root .static className).child s.nextId .object className).TakesOver m base s') :
    s.Adjoins m s' := by
  have hsize : ∀ isStatic, s.size ≤ (m.side isStatic).index := by
    intro isStatic
    cases isStatic
    · exact (congrArg ScopeId.index object) ▸ Nat.le_succ _
    · exact (congrArg ScopeId.index static) ▸ Nat.le_refl _
  have hnew : ∀ {id : ScopeId}, id.index < s.size → ∀ isStatic, m.side isStatic ≠ id := by
    rintro id hid isStatic rfl
    exact Nat.not_lt_of_le (hsize isStatic) hid
  have htypes : ∀ id name, s'.type? id name = s.type? id name := by
    intro id name
    rw [T.types, type?_child, type?_child]
  refine ⟨fun he => ?_, hnew, fun {id} hid name => ?_, htypes, fun isStatic name => ?_,
    fun isStatic name => ?_⟩
  · rw [static, object] at he
    exact Nat.succ_ne_self _ (congrArg ScopeId.index he).symm
  · rw [T.binding?_eq (hnew hid true).symm (hnew hid false).symm, binding?_child, binding?_child]
  · rw [declared?, T.bindings, binding?_child, binding?_child, binding?_of_size_le (hsize isStatic),
      Option.none_or, Option.filter_eq_none_iff]
    intro b hb
    obtain ⟨b', _, rfl⟩ := Option.map_eq_some_iff.mp hb
    simp [Binding.handedDown]
  · have hget : s.get? (m.side isStatic) = none := Array.getElem?_eq_none (hsize isStatic)
    rw [htypes]
    simp only [type?, hget]

/-- The scopes of a class are ready for its members: they bind its parameters and declare nothing. -/
structure Declare.Prepares (x : Completed) (clause : BaseClause) (s s' : Stage Declarations) :
    Prop where
  functions : s'.work.symbols.functions = s.work.symbols.functions
  layout : s'.work.layout = s.work.layout
  report : s'.report = s.report
  problems : s'.problems = s.problems ++ clause.problems
  reported : ∀ p ∈ clause.problems, p.ConcernsType
  new : ∀ {id : ScopeId}, id.index < s.work.symbols.scopes.size →
    ∀ isStatic, x.scopes.side isStatic ≠ id
  bindings : ∀ {id : ScopeId}, id.index < s.work.symbols.scopes.size → ∀ name,
    s'.work.symbols.scopes.binding? id name = s.work.symbols.scopes.binding? id name
  types : ∀ {id : ScopeId}, id.index < s.work.symbols.scopes.size → ∀ name,
    s'.work.symbols.scopes.type? id name = s.work.symbols.scopes.type? id name
  parameters : ∀ isStatic name k,
    s'.work.symbols.scopes.type? (x.scopes.side isStatic) name = some k ↔
      ∃ y ∈ x.generics, y.name.name = name ∧ y.key = k

/-- To close a class, its scopes are prepared and then its roster is entered. -/
theorem Declare.Closes.enters {done : List Completed} {x : Completed} {s s' : Stage Declarations}
    (hnodup : (x.generics.map (·.name.name)).Nodup)
    (hfresh : ∀ t ∈ x.source.functions, t.1.key ∉ s.work.symbols.functions.map (·.key))
    (h : Closes done x s s') : ∃ clause before,
      x.source.baseClause s.work.symbols x.generics = .ok clause ∧ x.base = clause.base? ∧
      Prepares x clause s before ∧ x.source.roster.Entered x.scopes before s' := by
  cases h with
  | @intro clause base scopes s₁ s₂ s₃ types types' typeCount u u' judged reported before accepted
      extended static object takesOver generics filled members supplied resolved =>
    have A := Scopes.adjoins_of_takesOver static object takesOver
    obtain ⟨scopes₁, rfl, hbindings, htypes, hparameters⟩ :=
      bindGenerics_ok A.apart hnodup (fun isStatic y _ => A.untyped isStatic _) generics
    have hnames : ∀ isStatic name, scopes₁.declared? (x.scopes.side isStatic) name = none := by
      intro isStatic name
      rw [Scopes.declared?, hbindings]
      exact A.undeclared isStatic name
    have E := (fun h h' => Roster.Entered.ofClass A.apart h h' members supplied) hnames hfresh
    refine ⟨clause, _, judged, extended.trans accepted.symm, ?_, E.withTypes types' typeCount⟩
    refine ⟨rfl, rfl, rfl, rfl, reported, A.new, fun hid name => ?_, fun hid name => ?_,
      fun isStatic name k => ?_⟩
    · exact (hbindings _ name).trans (A.bindings hid name)
    · exact (htypes (A.new hid) name).trans (A.types _ name)
    · refine (hparameters isStatic name k).trans (or_iff_right fun he => ?_)
      cases (A.untyped isStatic name).symm.trans he

namespace Census

variable {script : Script} {fs : List FunctionDef} {cs : List ClassDef} {opens : List Begun}
  {done : List Completed} {vs : List VariableDef} {s s' : Stage Declarations} {x : Completed}

/-- A class is closed: what it declares is added. -/
theorem closes (N : Census script fs cs (x.toBegun :: opens) done [] s)
    (F : s.work.symbols.scopes.Furnished done)
    (hclause : ∀ clause, x.source.baseClause s.work.symbols x.generics = .ok clause →
      (clause.problems, clause.base?) = script.extension x.source)
    (hfresh : ∀ t ∈ x.source.functions, t.1.key ∉ s.work.symbols.functions.map (·.key))
    (h : Declare.Closes done x s s') : Census script fs cs opens (x :: done) [] s' := by
  have hgenerics : x.generics = x.source.registered := N.generics x.toBegun List.mem_cons_self
  obtain ⟨change, hretains, htypes⟩ := h.types
  obtain ⟨clause, before, judged, hbase, P, E⟩ :=
    h.enters (hgenerics ▸ x.source.nodup_registered) hfresh
  have hextension := hclause clause judged
  have hbegun := begun_perm x opens done
  have hbinding : ∀ {id : ScopeId}, id.index < s.work.symbols.scopes.size → ∀ name,
      s'.work.symbols.scopes.binding? id name = s.work.symbols.scopes.binding? id name :=
    fun hid name => (E.others (P.new hid) name).trans (P.bindings hid name)
  have htype : ∀ {id : ScopeId}, id.index < s.work.symbols.scopes.size → ∀ name,
      s'.work.symbols.scopes.type? id name = s.work.symbols.scopes.type? id name :=
    fun hid name => (E.types _ name).trans (P.types hid name)
  have hdone : ∀ {y : Completed}, y ∈ done → ∀ isStatic,
      (y.scopes.side isStatic).index < s.work.symbols.scopes.size := fun hy isStatic =>
    Nat.lt_of_le_of_lt (F.side_le hy isStatic).2 (F.object _ hy).lt
  refine
    { functions := ?_
      bodies := ?_
      initializers := ?_
      profiles := ?_
      problems := ?_
      roots := fun name z => ?_
      rootTypes := ?_
      keys := ?_
      incomplete := fun t ht hkey => ?_
      generics := fun y hy => N.generics y (hbegun.mem_iff.mp hy)
      members := ?_
      memberTypes := ?_
      bases := List.forall_mem_cons.mpr ⟨hbase.trans (congrArg Prod.snd hextension), N.bases⟩ }
  · rw [E.functions, P.functions, N.functions, List.reverse_cons, List.flatMap_append,
      List.flatMap_singleton, List.append_assoc]
  · rw [E.bodies, P.report, N.bodies, List.reverse_cons, List.flatMap_append,
      List.flatMap_singleton, List.append_assoc]
  · rw [E.initializers, P.report, N.initializers, List.reverse_cons, List.flatMap_append,
      List.flatMap_singleton, List.flatMap_nil, List.append_nil, List.append_nil]
  · rw [E.profiles, P.layout, N.profiles, List.reverse_cons, List.flatMap_append,
      List.flatMap_singleton, List.map_nil, List.append_nil, List.append_nil]
  · have hreported : clause.problems = (script.extension x.source).1 := congrArg Prod.fst hextension
    rw [E.problems, P.problems, hreported, List.append_assoc, List.flatMap_cons]
    refine (N.problems.append_right _).trans
      (.trans ?_ ((hbegun.flatMap_right (·.source.parameterProblems)).symm.append_right _))
    rw [List.append_assoc]
    exact List.perm_append_comm.append_left _
  · rw [← N.roots name z, hbinding F.root.lt]
  · intro name k
    rw [htype F.root.lt, N.rootTypes]
  · rw [htypes, hretains.keys]
    exact N.keys.trans ((hbegun.flatMap_right _).symm.append_left _)
  · rw [List.map_cons, List.mem_cons, not_or] at hkey
    rw [htypes] at ht
    obtain ⟨old, hmem, rfl⟩ := List.mem_map.mp ht
    split at hkey
    · rename_i he
      exact absurd ((hretains.key old).trans he) hkey.1
    · rename_i he
      rw [if_neg he]
      exact N.incomplete old hmem hkey.2
  · refine List.forall_mem_cons.mpr ⟨E.names, fun y hy isStatic name => ?_⟩
    rw [Scopes.declared?, hbinding (hdone hy isStatic)]
    exact N.members y hy isStatic name
  · refine List.forall_mem_cons.mpr ⟨fun isStatic name k => ?_, fun y hy isStatic name k => ?_⟩
    · rw [E.types, ← hgenerics]
      exact P.parameters isStatic name k
    · rw [htype (hdone hy isStatic)]
      exact N.memberTypes y hy isStatic name k

/-! ### The whole script -/

theorem advances {classes : List ClassDef} {start : Stage Declarations} {L : Ledger}
    (O : script.Orderly) (hclasses : ∀ c ∈ classes, script.Registers c)
    (I : L.Inventory script start) (hnone : L.done = [])
    (hfunctions : L.functions = script.globalFunctions)
    (N : Census script (script.items.filterMap Item.toFunction?) script.classes [] [] [] start)
    (A : Declare.Advances classes start opens done s) :
    Census script (script.items.filterMap Item.toFunction?) script.classes opens done [] s := by
  have hmem : classes ⊆ script.classes := fun c hc => List.mem_of_find?_eq_some (hclasses c hc)
  induction A with
  | refl => exact N
  | begin before kept completing listed fresh step ih =>
    exact ih.openClass O (hmem listed) (fun y hy => hmem (completing.sources y hy)) fresh step
  | @close g opens done cut x u s s' before kept completing next step entry ih =>
    have I' := I.advances hnone hfunctions hclasses before
    have F := I'.housing.scopes
    rw [Ledger.addClasses_done, hnone, List.append_nil] at F
    have hroots : ∀ {name k}, g.roots name = some k ↔
        ∃ c ∈ script.classes, c.name.name = name ∧ c.key = k := by
      intro name k
      rw [← kept.roots, ih.rootTypes]
    have hdone : ∀ y ∈ done, y.source ∈ script.classes := fun y hy =>
      hmem (completing.sources y.toBegun (List.mem_append_right _ (List.mem_map_of_mem hy)))
    refine ih.closes F ?_ (I'.function_free O.functionKeys hfunctions hdone ?_ ?_)
      (Declare.closes_of_closeClass kept completing next step entry)
    · intro clause hclause
      exact O.extension_eq kept completing hmem ih.generics hroots next hclause
    · exact hmem (completing.sources x.toBegun List.mem_cons_self)
    · intro hkey
      exact (List.nodup_cons.mp completing.distinct).1 (mem_keys_begun.mpr (.inr hkey))

theorem variableDef {v : VariableDef} {u : Unit} (N : Census script fs cs [] done vs s)
    (hname : v.name.name ∉ (rootSights fs vs).map (·.1))
    (hdone : ∀ y ∈ done, ∀ isStatic, y.scopes.side isStatic ≠ .root)
    (h : Declare.variableDef .root v s = .ok u s') :
    Census script fs cs [] done (vs ++ [v]) s' := by
  have hprofiles := Declare.profiles_variableDef h
  have hfree := N.root_free hname
  rw [Scopes.declared?, hfree] at hprofiles
  cases Declare.addsVariable_of_variableDef h with
  | refused taken => cases hfree.symm.trans taken
  | @added scopes layout id w bound table name span =>
    refine { N with
      initializers := ?_
      profiles := ?_
      roots := ?_
      rootTypes := ?_
      members := fun y hy isStatic name => ?_
      memberTypes := fun y hy isStatic name k => ?_ }
    · change s.report.initializers ++ Declare.initializersOf .root v = _
      rw [N.initializers, List.flatMap_append, List.flatMap_singleton, List.append_assoc]
    · rw [hprofiles, N.profiles, List.map_append, List.append_assoc]
      rfl
    · intro name x
      change (scopes.binding? .root name).map _ = _ ↔ _
      rw [N.roots_bind hname bound]
      simp only [rootSights, List.map_append, List.map_singleton, List.mem_append,
        List.mem_singleton, or_assoc]
      rfl
    · intro name k
      change scopes.type? .root name = some k ↔ _
      rw [Scopes.type?_declare bound, N.rootTypes]
    · change (scopes.declared? _ name).map _ = _
      rw [(Scopes.declared?_declare bound).2, if_neg fun h => hdone y hy isStatic h.1.symm]
      exact N.members y hy isStatic name
    · change scopes.type? _ name = some k ↔ _
      rw [Scopes.type?_declare bound]
      exact N.memberTypes y hy isStatic name k

/-- The variables outside classes are all accepted. -/
theorem globals {items : List Item} {u : Unit} (O : script.Orderly)
    (hall : vs ++ items.filterMap Item.toVariable? = script.globalVariables)
    (hdone : ∀ y ∈ done, ∀ isStatic, y.scopes.side isStatic ≠ .root)
    (N : Census script (script.items.filterMap Item.toFunction?) cs [] done vs s)
    (h : Declare.globals items s = .ok u s') :
    Census script (script.items.filterMap Item.toFunction?) cs [] done script.globalVariables s' := by
  induction items generalizing vs s with
  | nil =>
    cases h
    rw [List.filterMap_nil, List.append_nil] at hall
    rw [← hall]
    exact N
  | cons item rest ih =>
    cases item with
    | classItem c => exact ih hall N h
    | functionItem f => exact ih hall N h
    | variableItem v =>
      obtain ⟨_, s₁, hadd, h⟩ := exists_of_bind h
      have hsplit : vs ++ v :: rest.filterMap Item.toVariable? = script.globalVariables := hall
      have hnames : ((rootSights (script.items.filterMap Item.toFunction?) vs).map (·.1) ++
          v.name.name :: (rest.filterMap Item.toVariable?).map (·.name.name)).Nodup := by
        have hnodup := O.rootNames
        rw [Script.rootNames, Script.globalFunctions, ← hsplit] at hnodup
        simpa [rootSights, Function.comp_def] using hnodup
      have hsplit' : (vs ++ [v]) ++ rest.filterMap Item.toVariable? = script.globalVariables :=
        (List.append_cons ..).symm.trans hsplit
      refine ih hsplit' (N.variableDef (fun hmem => ?_) hdone hadd) h
      exact (List.nodup_append.mp hnames).2.2 _ hmem _ List.mem_cons_self rfl

end Census

/-- The census of an orderly script. -/
theorem Declare.Arrives.census {script : Script} {o : Options} {classes : List ClassDef}
    {done : List Completed} {s : Stage Declarations} (O : script.Orderly)
    (hclasses : ∀ c ∈ classes, script.Registers c) (A : Arrives script o classes done s) :
    Census script (script.items.filterMap Item.toFunction?) script.classes [] done
      script.globalVariables s := by
  obtain ⟨s₁, s₂, u, hnames, hadvances, hglobals⟩ := A
  have I₁ := (Ledger.inventory_start script o).names rfl rfl rfl (List.Subset.refl _) hnames
  have hnone := ({} : Ledger).addGlobals_done script.items
  have hfunctions := ({} : Ledger).addGlobals_functions script.items
  have I₂ := I₁.advances hnone hfunctions hclasses hadvances
  have N₁ := (Census.start script o).names O rfl rfl hnames
  have N₂ := Census.advances O hclasses I₁ hnone hfunctions N₁ hadvances
  refine Census.globals O rfl (fun y hy isStatic he => ?_) N₂ hglobals
  have F := I₂.housing.scopes
  rw [Ledger.addClasses_done, hnone, List.append_nil] at F
  have hpos := Nat.lt_of_lt_of_le (F.root_lt_static hy) (F.side_le hy isStatic).1
  rw [he] at hpos
  exact Nat.lt_irrefl 0 hpos

end Stackless
