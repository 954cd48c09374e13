import Stackless.Proofs.Linking

/-!
# Inherited members

A class binds a name as the nearest class on its chain of bases declares it, whatever the order of
the classes in the script. A class that declares a name again replaces what it inherits, and that
is no problem: only names that one scope declares twice are reported, and functions with the same
key.
-/

namespace Stackless

/-! ## Specification -/

/-- The problem is that a variable or function is declared again. -/
def Problem.isRedeclaration : Problem → Bool
  | .redeclared .. | .redefined "function" .. => true
  | _ => false

namespace Symbols

/-- What a class binds to a name, as a member of the class itself or of its objects. -/
def member? (s : Symbols) (isStatic : Bool) (name : String) (type : Key) : Option Binding :=
  ((s.type? type).bind (·.members)).bind fun m => s.scopes.binding? (m.side isStatic) name

/-- What a class itself declares under a name. -/
def ownMember? (s : Symbols) (isStatic : Bool) (name : String) (type : Key) : Option Binding :=
  (s.member? isStatic name type).filter (!·.inherited)

/-- What the nearest of some classes declares under a name, as the class `type` binds it. -/
def nearestMember? (s : Symbols) (isStatic : Bool) (name : String) (type : Key)
    (chain : List Key) : Option Binding :=
  chain.findSome? fun k =>
    (s.ownMember? isStatic name k).map fun b => { b with inherited := decide (k ≠ type) }

end Symbols

theorem Problem.ConcernsType.not_redeclaration {p : Problem} (h : p.ConcernsType) :
    p.isRedeclaration = false := by
  cases h <;> rfl

theorem Problem.ConcernsCall.not_redeclaration {p : Problem} (h : p.ConcernsCall) :
    p.isRedeclaration = false := by
  cases h <;> rfl

/-! ## Along the chain of bases -/

namespace Scopes

variable {s : Scopes} {done chain : List Completed} {x y : Completed} {isStatic : Bool} {name : String}

theorem Inherits.exists_base (I : s.Inherits done) (hx : x ∈ done) :
    ∃ base : Option Completed, x.base = base.map (·.key) ∧ (∀ y ∈ base, y ∈ done) ∧
      ∀ isStatic name,
        s.binding? (x.scopes.side isStatic) name = s.inherited? base isStatic name ∨
          ∃ b, s.binding? (x.scopes.side isStatic) name = some b ∧ b.inherited = false := by
  induction I with
  | nil => cases hx
  | @cons z older base rest extended before members ih =>
    rcases List.mem_cons.mp hx with rfl | hx
    · exact ⟨base, extended, fun y hy => List.mem_cons_of_mem _ (before y hy), members⟩
    · obtain ⟨base', hbase, hmem, hmembers⟩ := ih hx
      exact ⟨base', hbase, fun y hy => List.mem_cons_of_mem _ (hmem y hy), hmembers⟩

/-- What a class itself declares. -/
def own? (s : Scopes) (isStatic : Bool) (name : String) (x : Completed) : Option Binding :=
  (s.binding? (x.scopes.side isStatic) name).filter (!·.inherited)

theorem own?_of_own {b : Binding} (h : s.binding? (x.scopes.side isStatic) name = some b)
    (hown : b.inherited = false) : s.own? isStatic name x = some b := by
  rw [own?, h, Option.filter_some_pos (by simp [hown])]

/-- A class declares nothing under a name that it takes over. -/
theorem own?_of_inherited {base : Option Completed}
    (h : s.binding? (x.scopes.side isStatic) name = s.inherited? base isStatic name) :
    s.own? isStatic name x = none := by
  rw [own?, h, Option.filter_eq_none_iff]
  intro b hb
  obtain ⟨b', _, rfl⟩ := Option.map_eq_some_iff.mp hb
  simp [Binding.handedDown]

/-- A class binds what it declares, or else what the nearest class above it declares. -/
theorem Inherits.binding?_eq (I : s.Inherits done) (hkeys : (done.map (·.key)).Nodup)
    (hmem : x :: chain ⊆ done) (hchain : (x :: chain).IsChain fun y z => y.base = some z.key)
    (hlast : ∀ y, (x :: chain).getLast? = some y → y.base = none) :
    s.binding? (x.scopes.side isStatic) name =
      (s.own? isStatic name x).or
        ((chain.findSome? (s.own? isStatic name)).map Binding.handedDown) := by
  induction chain generalizing x with
  | nil =>
    obtain ⟨base, hbase, _, hmembers⟩ := I.exists_base (hmem List.mem_cons_self)
    rw [hlast x rfl] at hbase
    cases Option.map_eq_none_iff.mp hbase.symm
    rcases hmembers isStatic name with htaken | ⟨b, hb, hown⟩
    · rw [own?_of_inherited htaken, htaken]
      rfl
    · rw [own?_of_own hb hown, hb, Option.some_or]
  | cons y rest ih =>
    obtain ⟨base, hbase, hbefore, hmembers⟩ := I.exists_base (hmem List.mem_cons_self)
    obtain ⟨hnext, hrest⟩ := List.isChain_cons_cons.mp hchain
    have hmem' := (List.cons_subset.mp hmem).2
    obtain ⟨y', rfl, hkey⟩ := Option.map_eq_some_iff.mp (hbase.symm.trans hnext)
    cases List.inj_on_of_nodup_map hkeys (hbefore y' rfl) (hmem' List.mem_cons_self) hkey
    rcases hmembers isStatic name with htaken | ⟨b, hb, hown⟩
    · rw [own?_of_inherited htaken, htaken, inherited?, Option.bind_some, ih hmem' hrest hlast,
        Option.none_or, List.findSome?_cons]
      cases s.own? isStatic name y with
      | some b => rfl
      | none =>
        rw [Option.none_or, Option.map_map]
        rfl
    · rw [own?_of_own hb hown, hb, Option.some_or]

end Scopes

namespace Outline.Finished

variable {g : Outline} {script : Script} {classes : List ClassDef} {done cut : List Completed}
  {stage : Stage Declarations} {x : Completed} {isStatic : Bool} {name : String}

theorem member?_done (F : g.Finished script classes done cut) (K : g.Kept stage) (hx : x ∈ done) :
    stage.work.symbols.member? isStatic name x.key =
      stage.work.symbols.scopes.binding? (x.scopes.side isStatic) name := by
  have htype : stage.work.symbols.type? x.key = some x.entry := F.type?_done K hx
  rw [Symbols.member?, htype]
  rfl

theorem ownMember?_done (F : g.Finished script classes done cut) (K : g.Kept stage) (hx : x ∈ done) :
    stage.work.symbols.ownMember? isStatic name x.key =
      stage.work.symbols.scopes.own? isStatic name x := by
  rw [Symbols.ownMember?, F.member?_done K hx]
  rfl

/-- A class binds what the nearest class on its chain of bases declares. -/
theorem member?_eq (F : g.Finished script classes done cut) (K : g.Kept stage)
    (I : stage.work.symbols.scopes.Inherits done) (hx : x ∈ done) :
    stage.work.symbols.member? isStatic name x.key =
      stage.work.symbols.nearestMember? isStatic name x.key
        (stage.work.symbols.baseChain x.key) := by
  obtain ⟨chain, hmem, heq, hchain, hnodup, hlast⟩ := F.baseChain_done K hx
  have hchain' : (x :: chain).IsChain fun y z => y.base = some z.key := by
    rw [List.isChain_map] at hchain
    refine hchain.imp_of_mem_imp fun y z hy _ h => ?_
    exact (F.base?_done K (hmem hy)).symm.trans h
  have hlast' : ∀ y, (x :: chain).getLast? = some y → y.base = none := by
    intro y hy
    have hbase := hlast y.key (by rw [List.getLast?_map, hy]; rfl)
    exact (F.base?_done K (hmem (List.mem_of_getLast? hy))).symm.trans hbase
  have hbinding : stage.work.symbols.scopes.binding? (x.scopes.side isStatic) name = _ :=
    I.binding?_eq F.order.nodup hmem hchain' hlast'
  obtain ⟨_, hchain_mem⟩ := List.cons_subset.mp hmem
  have hnext : ∀ y ∈ chain, (stage.work.symbols.ownMember? isStatic name y.key).map
      (fun b => { b with inherited := decide (y.key ≠ x.key) }) =
        (stage.work.symbols.scopes.own? isStatic name y).map Binding.handedDown := by
    intro y hy
    have hne : y.key ≠ x.key := by
      intro he
      have hkey : y.key ∈ chain.map (·.key) := List.mem_map_of_mem hy
      rw [he] at hkey
      exact (List.nodup_cons.mp hnodup).1 hkey
    rw [F.ownMember?_done K (hchain_mem hy), decide_eq_true hne]
    rfl
  have hbases : stage.work.symbols.baseChain x.key = (x :: chain).map (·.key) := heq
  rw [F.member?_done K hx, hbinding, hbases, Symbols.nearestMember?, List.findSome?_map,
    List.findSome?_cons, Function.comp_def]
  dsimp only
  rw [F.ownMember?_done K hx, findSome?_congr_mem hnext, List.map_findSome?]
  cases hself : stage.work.symbols.scopes.own? isStatic name x with
  | none => rfl
  | some b =>
    have hown : b.inherited = false := by
      have h := (Option.filter_eq_some_iff.mp hself).2
      simpa using h
    obtain ⟨symbol, span, inherited⟩ := b
    cases hown
    simp

end Outline.Finished

/-! ## The whole script -/

/-- When a script has been declared, every class binds what the nearest class on its chain of bases
declares, marked as inherited if that is another class; and what it declares itself it binds, apart
from functions that were refused. What is reported as declared again is declared twice by one scope
or is a function whose key is taken, so no class is blamed for replacing what it inherits. -/
theorem Workspace.declare_inherits {script : Script} {o : Options} {d : Declarations}
    {problems : List Problem} {w : Workspace}
    (h : Workspace.declare script (.ofOptions o) = .ok (d, problems) w) :
    (∀ t ∈ w.symbols.types, t.isClass = true → ∀ isStatic name,
      w.symbols.member? isStatic name t.key =
        w.symbols.nearestMember? isStatic name t.key (w.symbols.baseChain t.key)) ∧
    (∀ c, script.Registers c → ∀ isStatic, ∀ x ∈ c.names isStatic,
      (w.symbols.ownMember? isStatic x.name c.key).isSome = true ∨
        ∃ name, .redefined "function" name x.span ∈ problems) ∧
    ∀ p ∈ problems, p.isRedeclaration = true → script.Repeats p := by
  obtain ⟨g, classes, done, cut, s, F, K, I, H⟩ := declare_linked h
  have hscopes : w.symbols.scopes = s.work.symbols.scopes := H.scopes
  have hinherits : w.symbols.scopes.Inherits done := by
    rw [hscopes, ← script.ledger_done done]
    exact I.housing.scopes.inherits
  refine ⟨fun t ht hclass isStatic name => ?_, fun c hc isStatic x hx => ?_, fun p hp hre => ?_⟩
  · obtain ⟨_, c, hc, hkey⟩ := (F.hierarchy K).registered t ht hclass
    obtain ⟨x, hx, rfl⟩ := F.exists_done hc
    rw [← hkey]
    exact F.member?_eq K hinherits hx
  · obtain ⟨y, hy, rfl⟩ := F.exists_done hc
    have hown : w.symbols.ownMember? isStatic x.name y.source.key =
        w.symbols.scopes.own? isStatic x.name y := F.ownMember?_done K hy
    rcases I.review.declared _ x (Script.names_ledger hy isStatic hx) with ⟨b, hb, hb'⟩ | ⟨name, hp⟩
    · rw [← hscopes] at hb
      rw [hown, Scopes.own?_of_own hb hb']
      exact .inl rfl
    · have hproblems : problems = s.problems ++ _ := H.problems
      rw [hproblems]
      exact .inr ⟨name, List.mem_append_left _ hp⟩
  · have hproblems : problems = s.problems ++ _ := H.problems
    rw [hproblems] at hp
    rcases List.mem_append.mp hp with hp | hp
    · rcases I.review.repeats p hp with hrepeats | htype
      · exact hrepeats
      · cases htype.not_redeclaration.symm.trans hre
    · cases (Symbols.concernsCall_of_linkProblems hp).not_redeclaration.symm.trans hre

/-- Three classes, the most derived one first. The last replaces a method, and the one between them
a field. -/
def Script.threeLevels : Script where
  items :=
    [.classItem { name := ⟨"C", ⟨1, 1, 1⟩⟩, span := ⟨1, 1, 1⟩,
                  base := some (.mk ⟨1, 2, 1⟩ ⟨"B", ⟨1, 2, 1⟩⟩ []),
                  members := [.method { name := ⟨"m", ⟨1, 3, 1⟩⟩, span := ⟨1, 3, 1⟩ }] },
     .classItem { name := ⟨"B", ⟨2, 1, 1⟩⟩, span := ⟨2, 1, 1⟩,
                  base := some (.mk ⟨2, 2, 1⟩ ⟨"A", ⟨2, 2, 1⟩⟩ []),
                  members := [.field { domain := .global, name := ⟨"x", ⟨2, 3, 1⟩⟩,
                                       span := ⟨2, 3, 1⟩ }] },
     .classItem { name := ⟨"A", ⟨3, 1, 1⟩⟩, span := ⟨3, 1, 1⟩,
                  members := [.method { name := ⟨"m", ⟨3, 2, 1⟩⟩, span := ⟨3, 2, 1⟩ },
                              .field { domain := .global, name := ⟨"x", ⟨3, 3, 1⟩⟩,
                                       span := ⟨3, 3, 1⟩ },
                              .method { name := ⟨"n", ⟨3, 4, 1⟩⟩, span := ⟨3, 4, 1⟩,
                                        isStatic := true }] }]

theorem Workspace.declare_inherits_threeLevels :
    ∃ d w, Workspace.declare .threeLevels (.ofOptions {}) = .ok (d, []) w ∧
      (∀ t ∈ w.symbols.types, t.isClass = true → ∀ isStatic name,
        w.symbols.member? isStatic name t.key =
          w.symbols.nearestMember? isStatic name t.key (w.symbols.baseChain t.key)) ∧
      ∀ c, Script.threeLevels.Registers c → ∀ isStatic, ∀ x ∈ c.names isStatic,
        (w.symbols.ownMember? isStatic x.name c.key).isSome = true := by
  have hproblems : Script.threeLevels.declarationProblems {} = some [] := by decide +kernel
  obtain ⟨d, w, h⟩ := Script.exists_of_declarationProblems hproblems
  obtain ⟨hmembers, hown, _⟩ := Workspace.declare_inherits h
  refine ⟨d, w, h, hmembers, fun c hc isStatic x hx => ?_⟩
  rcases hown c hc isStatic x hx with hsome | ⟨name, hp⟩
  · exact hsome
  · cases hp

end Stackless
