import Stackless.Proofs.CallGraph

/-!
# Calls in a given class

A call `C.m()` of a method that `C` declares is recorded as a call of that method, with one
exception. A static method does not win over what the objects of the class inherit: if the nearest
declaration of the name among the members of objects, on the chain of bases of `C`, is a method,
then the call means that method.
-/

namespace Stackless

/-! ## Specification -/

namespace Symbols

/-- The nearest declaration of a name among the members of objects, on the chain of bases of a
class, if it is a method. -/
def objectMethod? (s : Symbols) (type : Key) (name : String) : Option Key :=
  (s.nearestMember? false name type (s.baseChain type)).bind (·.symbol.toFunction?)

/-- The method that a class means by the name of a method that it declares. A static one gives way
to a method of its objects. -/
def meantMethod (s : Symbols) (type : Key) (f : FunctionDef) : Key :=
  if f.isStatic then (s.objectMethod? type f.name.name).getD (.method type f.name.name)
  else .method type f.name.name

/-- The call is recorded as a call of the function with the key, and of no other one if the calls of
the body stand at different places. -/
def RecordsAt (s : Symbols) (b : Body) (site : CallSite) (callee : Key) : Prop :=
  (∃ sites, s.calls.sites? b.function callee = some sites ∧ site.span ∈ sites) ∧
    ((b.source.calls.map (·.span)).Nodup →
      ∀ other sites, s.calls.sites? b.function other = some sites → site.span ∈ sites →
        other = callee)

end Symbols

/-! ## Records -/

theorem CallLog.mem_sites {log : CallLog} {f g : Key} {x : Span} :
    x ∈ log.sites f g ↔ ⟨f, g, x⟩ ∈ log := by
  simp only [sites, List.mem_map, List.mem_filter, decide_eq_true_eq]
  constructor
  · rintro ⟨⟨f', g', x'⟩, ⟨hc, rfl, rfl⟩, rfl⟩
    exact hc
  · intro h
    exact ⟨_, ⟨h, rfl, rfl⟩, rfl⟩

theorem CallGraph.Records.mem_sites? {calls : Calls} {log : CallLog} (R : calls.Records log) {f g : Key}
    {x : Span} : (∃ sites, calls.sites? f g = some sites ∧ x ∈ sites) ↔ ⟨f, g, x⟩ ∈ log := by
  rw [R.sites?, ← CallLog.mem_sites]
  constructor
  · rintro ⟨sites, h, hx⟩
    split at h
    · cases h
    · cases h
      exact hx
  · intro hx
    exact ⟨_, if_neg (List.ne_nil_of_mem hx), hx⟩

theorem Symbols.callRecord?_eq_some {s : Symbols} {caller : Key} {scope : ScopeId} {site : CallSite}
    {c : CallRecord} (h : s.callRecord? caller scope site = some c) :
    c.caller = caller ∧ c.site = site.span := by
  rw [callRecord?] at h
  split at h <;> cases h
  exact ⟨rfl, rfl⟩

namespace Workspace.Settled

variable {w : Workspace} {script : Script} {done : List Completed} {d : Declarations}
  {earlier : List Problem} {site : CallSite} {b : Body} {callee : Key}

/-- A call is recorded as it is linked. -/
theorem recordsAt (S : w.Settled script done d earlier) (hb : b ∈ d.bodies)
    (hsite : site ∈ b.source.calls)
    (h : w.symbols.callRecord? b.function b.scope site = some ⟨b.function, callee, site.span⟩) :
    w.symbols.RecordsAt b site callee := by
  constructor
  · refine S.calls.mem_sites?.mpr (List.mem_flatMap.mpr ⟨b, hb, List.mem_filterMap.mpr ⟨site, ?_, h⟩⟩)
    rwa [FunctionDef.callSites_eq]
  · intro hspans other sites hsites hspan
    obtain ⟨b', hb', hrecord⟩ := List.mem_flatMap.mp (S.calls.mem_sites?.mp ⟨sites, hsites, hspan⟩)
    obtain ⟨site', hsite', hrecord⟩ := List.mem_filterMap.mp hrecord
    obtain ⟨hcaller, hplace⟩ := Symbols.callRecord?_eq_some hrecord
    cases List.inj_on_of_nodup_map S.bodies_nodup hb' hb hcaller.symm
    rw [FunctionDef.callSites_eq] at hsite'
    cases List.inj_on_of_nodup_map hspans hsite' hsite hplace.symm
    cases h.symm.trans hrecord
    rfl

end Workspace.Settled

/-! ## Methods -/

namespace Outline.Finished

variable {g : Outline} {script : Script} {classes : List ClassDef} {done cut : List Completed}
  {w : Workspace} {d : Declarations} {problems : List Problem} {x : Completed} {f : FunctionDef}

/-- A class without problems binds a method that it declares. -/
theorem member?_of_method (F : g.Finished script classes done cut)
    (K : g.Kept { work := w, report := d, problems }) (S : w.Settled script done d [])
    (hx : x ∈ done) (hf : .method f ∈ x.source.members) :
    (w.symbols.member? f.isStatic f.name.name x.key).bind (·.symbol.toFunction?) =
      some (.method x.key f.name.name) := by
  have hmember : w.symbols.member? f.isStatic f.name.name x.key = _ := F.member?_done K hx
  have hbound : w.symbols.scopes.binding? (x.scopes.side f.isStatic) f.name.name = _ :=
    S.bound rfl hx hf
  rw [hmember, hbound]
  rfl

/-- Which method a class means by the name of one that it declares. -/
theorem method?_of_method (F : g.Finished script classes done cut)
    (K : g.Kept { work := w, report := d, problems }) (S : w.Settled script done d [])
    (hx : x ∈ done) (hf : .method f ∈ x.source.members) :
    w.symbols.method? x.key f.name.name = some (w.symbols.meantMethod x.key f) := by
  have hown := F.member?_of_method K S hx hf
  have hobject : w.symbols.member? false f.name.name x.key = _ :=
    F.member?_eq K S.scopes.inherits hx
  rw [Symbols.method?, List.findSome?_cons, Symbols.meantMethod, Symbols.objectMethod?]
  cases hstatic : f.isStatic with
  | false =>
    rw [hstatic] at hown
    rw [hown]
    rfl
  | true =>
    rw [hstatic] at hown
    rw [List.findSome?_singleton, hown, ← hobject]
    cases (w.symbols.member? false f.name.name x.key).bind (·.symbol.toFunction?) <;> rfl

end Outline.Finished

/-- In a script without problems a call in a given class is recorded as a call of the method that
the class declares. Only a static method gives way, if the objects of the class have a method of the
same name from one of its bases. -/
theorem Workspace.declare_qualifiedCall {script : Script} {o : Options} {d : Declarations}
    {w : Workspace} {c : ClassDef} {f : FunctionDef} {b : Body} {site : CallSite}
    {qualifier name : Ident} (h : Workspace.declare script (.ofOptions o) = .ok (d, []) w)
    (hc : script.Registers c) (hf : .method f ∈ c.members) (hb : b ∈ d.bodies)
    (hsite : site ∈ b.source.calls) (hcallee : site.callee = .function (some qualifier) name)
    (hname : name.name = f.name.name)
    (htype : w.symbols.typeIn? (w.symbols.aroundBody b) qualifier.name = some c.key) :
    w.symbols.RecordsAt b site (w.symbols.meantMethod c.key f) := by
  obtain ⟨g, classes, done, cut, earlier, F, K, S, hproblems⟩ := declare_settled h
  cases (List.append_eq_nil_iff.mp hproblems.symm).1
  obtain ⟨x, hx, rfl⟩ := F.exists_done hc
  have hlinkable : w.symbols.Linkable site := S.linkable fun hcreated => by
    rw [CallSite.created?, hcallee] at hcreated
    cases hcreated
  have hmethod : w.symbols.method? x.source.key name.name =
      some (w.symbols.meantMethod x.source.key f) := hname ▸ F.method?_of_method K S hx hf
  obtain ⟨e, he, hkey⟩ := hlinkable.method hmethod
  refine S.recordsAt hb hsite ?_
  rw [Symbols.callRecord?_eq hlinkable (F.sees_body K S hb), Symbols.callee?, hcallee]
  dsimp only
  rw [htype, Option.bind_some, hmethod, Option.bind_some, he, Option.map_some, hkey]

/-! ## Two classes that exchange static methods and methods of objects -/

/-- The class declares a static method and a method of its objects; its base has both names the
other way round. -/
def ClassDef.exchanged : ClassDef where
  name := ⟨"C", ⟨1, 1, 1⟩⟩
  span := ⟨1, 1, 1⟩
  base := some (.mk ⟨2, 1, 1⟩ ⟨"B", ⟨2, 1, 1⟩⟩ [])
  members := [.method { name := ⟨"m", ⟨3, 1, 1⟩⟩, span := ⟨3, 1, 1⟩, isStatic := true },
              .method { name := ⟨"n", ⟨4, 1, 1⟩⟩, span := ⟨4, 1, 1⟩ }]

def Script.exchanged : Script where
  items :=
    [.classItem .exchanged,
     .classItem { name := ⟨"B", ⟨5, 1, 1⟩⟩, span := ⟨5, 1, 1⟩,
                  members := [.method { name := ⟨"m", ⟨6, 1, 1⟩⟩, span := ⟨6, 1, 1⟩ },
                              .method { name := ⟨"n", ⟨7, 1, 1⟩⟩, span := ⟨7, 1, 1⟩,
                                        isStatic := true }] },
     .functionItem { name := ⟨"f", ⟨8, 1, 1⟩⟩, span := ⟨8, 1, 1⟩, body := some ⟨{}, [
       .expr ⟨9, 3, 1⟩ (.call ⟨9, 3, 1⟩ (some ⟨"C", ⟨9, 1, 1⟩⟩) ⟨"m", ⟨9, 3, 1⟩⟩ []),
       .expr ⟨10, 3, 1⟩ (.call ⟨10, 3, 1⟩ (some ⟨"C", ⟨10, 1, 1⟩⟩) ⟨"n", ⟨10, 3, 1⟩⟩ [])]⟩ }]

/-- The call names a type and a function. -/
def CallSite.names (site : CallSite) (type name : String) : Bool :=
  match site.callee with
  | .function (some t) n => decide (t.name = type ∧ n.name = name)
  | _ => false

theorem CallSite.exists_of_names {site : CallSite} {type name : String}
    (h : site.names type name = true) : ∃ qualifier n : Ident,
      site.callee = .function (some qualifier) n ∧ qualifier.name = type ∧ n.name = name := by
  rw [names] at h
  split at h
  · rename_i t n hcallee
    exact ⟨t, n, hcallee, of_decide_eq_true h⟩
  · cases h

theorem Workspace.declare_qualifiedCall_exchanged :
    ∃ (d : Declarations) (w : Workspace) (b : Body) (site : CallSite),
      Workspace.declare .exchanged (.ofOptions {}) = .ok (d, []) w ∧ b ∈ d.bodies ∧
        site ∈ b.source.calls ∧ site.names "C" "n" = true ∧
        w.symbols.typeIn? (w.symbols.aroundBody b) "C" = some (.type "C") ∧
        w.symbols.RecordsAt b site (.method (.type "C") "n") := by
  have htest : Script.exchanged.declaredWith {} (fun d w =>
      d.bodies.any fun b => b.source.callSites.any fun site => site.names "C" "n" &&
        decide (w.symbols.typeIn? (w.symbols.aroundBody b) "C" = some (.type "C"))) = true := by
    decide +kernel
  obtain ⟨d, w, h, htest⟩ := Script.exists_of_declaredWith htest
  obtain ⟨b, hb, htest⟩ := List.any_eq_true.mp htest
  obtain ⟨site, hsite, htest⟩ := List.any_eq_true.mp htest
  obtain ⟨hnames, htype⟩ := Bool.and_eq_true_iff.mp htest
  rw [FunctionDef.callSites_eq] at hsite
  have htype' := of_decide_eq_true htype
  obtain ⟨qualifier, name, hcallee, hqualifier, hname⟩ := CallSite.exists_of_names hnames
  refine ⟨d, w, b, site, h, hb, hsite, hnames, htype', ?_⟩
  exact declare_qualifiedCall h (c := .exchanged) (List.find?_cons_of_pos (decide_eq_true rfl))
    (List.mem_cons_of_mem _ List.mem_cons_self) hb hsite hcallee hname (hqualifier ▸ htype')

/-- A static method of a class is not called by its name in the class: the call is recorded as one
of the method that objects of the class have from its base. -/
theorem Workspace.declare_bypasses_static :
    ∃ d w, Workspace.declare .exchanged (.ofOptions {}) = .ok (d, []) w ∧
      w.symbols.calls.sites? (.function "f") (.method (.type "C") "m") = none ∧
      w.symbols.calls.sites? (.function "f") (.method (.type "B") "m") = some [⟨9, 3, 1⟩] := by
  have htest : Script.exchanged.declaredWith {} (fun d w =>
      decide (w.symbols.calls.sites? (.function "f") (.method (.type "C") "m") = none ∧
        w.symbols.calls.sites? (.function "f") (.method (.type "B") "m") = some [⟨9, 3, 1⟩])) =
      true := by
    decide +kernel
  obtain ⟨d, w, h, htest⟩ := Script.exists_of_declaredWith htest
  exact ⟨d, w, h, of_decide_eq_true htest⟩

end Stackless
