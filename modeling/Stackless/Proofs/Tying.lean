import Stackless.Compile.Usage
import Stackless.Proofs.Additions
import Stackless.Proofs.Environments

/-!
# What tying references does

While a body is worked off, the scopes around a place hold the blocks of its environment
(`Workspace.Inside`). A step adds scopes and binds names in the scope at hand only
(`Scopes.Grows`), so what names mean elsewhere stays as it is. The whole effect of a step is that
every use of a variable is tied to what its name means in the environment, or reported
(`Stage.Ties`).
-/

namespace Stackless

/-! ## Scopes that are added -/

namespace Scopes

/-- Scopes are added, and of the older ones only one gets bindings. -/
structure Grows (s : Scopes) (scope : ScopeId) (s' : Scopes) : Prop where
  size : s.size ≤ s'.size
  parents : ∀ {id}, id.index < s.size → s'.parent? id = s.parent? id
  others : ∀ {id name}, id.index < s.size → id ≠ scope → s'.binding? id name = s.binding? id name
  nested : s.Nested → s'.Nested

variable {s s₁ s' : Scopes} {scope parent id a : ScopeId} {name : String}

theorem Grows.refl (s : Scopes) (scope : ScopeId) : s.Grows scope s :=
  ⟨Nat.le_refl _, fun _ => rfl, fun _ _ => rfl, fun N => N⟩

theorem Grows.trans (G : s.Grows scope s₁) (G' : s₁.Grows scope s') : s.Grows scope s' where
  size := Nat.le_trans G.size G'.size
  parents h := (G'.parents (Nat.lt_of_lt_of_le h G.size)).trans (G.parents h)
  others h hne := (G'.others (Nat.lt_of_lt_of_le h G.size) hne).trans (G.others h hne)
  nested N := G'.nested (G.nested N)

theorem grows_declare {symbol : Symbol} {span : Span}
    (h : s.declare scope name symbol span = .ok s') : s.Grows scope s' := by
  obtain ⟨C, _, hbind⟩ := declare_ok h
  refine ⟨Nat.le_of_eq C.size.symm, fun {id} _ => C.parent? id, fun {id name'} _ hne => ?_,
    fun N => N.change C⟩
  rw [hbind, if_neg]
  rintro ⟨rfl, _⟩
  exact hne rfl

/-- What happens in a new scope does not touch the older ones. -/
theorem Grows.inner {kind : ScopeKind} {label : String} (hparent : parent.index < s.size)
    (G : (s.child parent kind label).Grows s.nextId s') (scope : ScopeId) : s.Grows scope s' := by
  have hsize : (s.child parent kind label).size = s.size + 1 := size_child ..
  have hlt : ∀ {id : ScopeId}, id.index < s.size → id.index < (s.child parent kind label).size :=
    fun h => hsize ▸ Nat.lt_succ_of_lt h
  have hne : ∀ {id : ScopeId}, id.index < s.size → id ≠ s.nextId := by
    rintro id h rfl
    exact Nat.lt_irrefl _ h
  refine ⟨Nat.le_trans (hsize ▸ Nat.le_succ _) G.size, fun h => ?_, fun {id name} h _ => ?_, fun N => ?_⟩
  · rw [G.parents (hlt h), parent?_child, if_neg (hne h)]
  · rw [G.others (hlt h) (hne h), binding?_child]
  · exact G.nested (N.child hparent kind label)

theorem Nested.le_of_mem_enclosing (N : s.Nested) (h : a ∈ s.enclosing id) : a.index ≤ id.index := by
  obtain ⟨rest, hchain, hlast⟩ := N.exists_chain id
  rw [N.enclosing_eq hchain hlast] at h
  rcases List.mem_cons.mp h with rfl | h
  · exact Nat.le_refl _
  · exact Nat.le_of_lt (N.lt_of_chain hchain a h)

/-- The scopes around an older scope stay the same. -/
theorem Grows.enclosing (G : s.Grows scope s') (N : s.Nested) (h : id.index < s.size) :
    s'.enclosing id = s.enclosing id := by
  obtain ⟨rest, hchain, hlast⟩ := N.exists_chain id
  have hlt : ∀ b ∈ id :: rest, b.index < s.size := by
    intro b hb
    rw [← N.enclosing_eq hchain hlast] at hb
    exact Nat.lt_of_le_of_lt (N.le_of_mem_enclosing hb) h
  rw [N.enclosing_eq hchain hlast]
  refine (G.nested N).enclosing_eq (hchain.imp_of_mem_imp fun b c hb _ hbc => ?_) fun b hb => ?_
  · exact (G.parents (hlt b hb)).trans hbc
  · exact (G.parents (hlt b (List.mem_of_getLast? hb))).trans (hlast b hb)

/-- Away from the scope at hand names mean the same. -/
theorem Grows.visible? (G : s.Grows scope s') (N : s.Nested) (h : id.index < s.size)
    (haway : scope ∉ s.enclosing id) (name : String) :
    s'.visible? (s'.enclosing id) name = s.visible? (s.enclosing id) name := by
  rw [G.enclosing N h]
  refine findSome?_congr_mem fun b hb => G.others ?_ ?_
  · exact Nat.lt_of_le_of_lt (N.le_of_mem_enclosing hb) h
  · rintro rfl
    exact haway hb

end Scopes

/-! ## Scopes that hold an environment -/

namespace Workspace

/-- The bindings of a scope are those of a block. -/
structure Holds (w : Workspace) (scope : ScopeId) (block : Locals) : Prop where
  free : ∀ {name}, block.find? (·.name = name) = none →
    w.symbols.scopes.binding? scope name = none
  bound : ∀ {name x}, block.find? (·.name = name) = some x → ∃ id,
    w.layout.declaration? id = some x ∧
      w.symbols.scopes.binding? scope name = some { symbol := .ofVariable id, span := x.span }

/-- A scope and those around it hold the blocks of an environment. -/
inductive Inside (w : Workspace) : ScopeId → Environment → Prop where
  | outside {scope : ScopeId} {outer : String → Option Binding}
      (means : ∀ name, w.symbols.scopes.visible? (w.symbols.scopes.enclosing scope) name =
        outer name) : Inside w scope { outer }
  | block {parent scope : ScopeId} {env : Environment} {block : Locals}
      (around : Inside w parent env) (hparent : w.symbols.scopes.parent? scope = some parent)
      (holds : w.Holds scope block) : Inside w scope (env.enter block)

/-- A place in a body: the scope at hand and the environment there. -/
structure At (w : Workspace) (scope : ScopeId) (env : Environment) : Prop where
  nested : w.symbols.scopes.Nested
  known : scope.index < w.symbols.scopes.size
  inside : w.Inside scope env

variable {w w' : Workspace} {scope scope' : ScopeId} {env : Environment} {block : Locals}
  {name : String}

/-- The scopes tell what the environment says. -/
theorem Inside.means (I : w.Inside scope env) (N : w.symbols.scopes.Nested) (name : String) :
    env.Means w.layout name ((w.symbols.scopes.visible? (w.symbols.scopes.enclosing scope) name).bind
      (·.symbol.toVariable?)) := by
  induction I with
  | outside means =>
    rw [means]
    exact .outside rfl
  | @block parent scope env block around hparent holds ih =>
    rw [N.enclosing_cons hparent, Scopes.visible?, List.findSome?_cons]
    cases hfind : block.find? (·.name = name) with
    | none =>
      rw [holds.free hfind]
      exact ih.enter hfind
    | some x =>
      obtain ⟨id, hentry, hbinding⟩ := holds.bound hfind
      rw [hbinding]
      refine .declared ?_ hentry
      rw [Environment.nearest?, Environment.enter, List.findSome?_cons, hfind]

theorem Holds.congr (H : w.Holds scope block)
    (hbindings : ∀ name, w'.symbols.scopes.binding? scope name = w.symbols.scopes.binding? scope name)
    (hkept : ∀ {id x}, w.layout.declaration? id = some x → w'.layout.declaration? id = some x) :
    w'.Holds scope block where
  free h := (hbindings _).trans (H.free h)
  bound h := by
    obtain ⟨id, hentry, hbinding⟩ := H.bound h
    exact ⟨id, hkept hentry, (hbindings _).trans hbinding⟩

/-- A place away from the scope at hand stays as it is. -/
theorem Inside.grows (I : w.Inside scope env) (N : w.symbols.scopes.Nested)
    (h : scope.index < w.symbols.scopes.size)
    (G : w.symbols.scopes.Grows scope' w'.symbols.scopes)
    (hkept : ∀ {id x}, w.layout.declaration? id = some x → w'.layout.declaration? id = some x)
    (haway : scope' ∉ w.symbols.scopes.enclosing scope) : w'.Inside scope env := by
  induction I with
  | outside means => exact .outside fun name => (G.visible? N h haway name).trans (means name)
  | @block parent scope env block around hparent holds ih =>
    rw [N.enclosing_cons hparent, List.mem_cons, not_or] at haway
    refine .block (ih (Nat.lt_trans (N hparent) h) haway.2) ((G.parents h).trans hparent) ?_
    exact holds.congr (fun _ => G.others h (Ne.symm haway.1)) hkept

theorem At.grows (A : w.At scope env) (G : w.symbols.scopes.Grows scope' w'.symbols.scopes)
    (hkept : ∀ {id x}, w.layout.declaration? id = some x → w'.layout.declaration? id = some x)
    (haway : scope' ∉ w.symbols.scopes.enclosing scope) : w'.At scope env where
  nested := G.nested A.nested
  known := Nat.lt_of_lt_of_le A.known G.size
  inside := A.inside.grows A.nested A.known G hkept haway

end Workspace

/-! ## The effect of a step -/

/-- What a use is tied to. -/
abbrev Tie := Ident × Option VariableId

/-- The references after some uses were tied. -/
def Usage.tie (references : Dict Span VariableId) (ties : List Tie) : Dict Span VariableId :=
  ties.foldl (fun d t => t.2.elim d (d.put t.1.span)) references

/-- The uses are tied to what they mean, in order, and some of the names are declared. -/
structure Stage.Ties (s : Stage Usage) (uses : List VariableUse) (names : List Ident)
    (s' : Stage Usage) : Prop where
  kept : ∀ {id x}, s.work.layout.declaration? id = some x → s'.work.layout.declaration? id = some x
  declared : ∃ new : List Ident, new.Sublist names ∧
    s'.work.layout.declarations = s.work.layout.declarations ++ new
  ties : ∃ ties : List Tie, List.Forall₂ (fun (use : VariableUse) (t : Tie) =>
      t.1 = use.name ∧ use.env.Means s'.work.layout use.name.name t.2) uses ties ∧
    s'.report.references = Usage.tie s.report.references ties ∧
    ∀ x : Ident, .unknownVariable x.name x.span ∈ s'.problems ↔
      .unknownVariable x.name x.span ∈ s.problems ∨ (x, none) ∈ ties

/-- In addition, names are declared in the scope at hand or in new ones only. -/
structure Stage.TiesIn (s : Stage Usage) (scope : ScopeId) (uses : List VariableUse)
    (names : List Ident) (s' : Stage Usage) : Prop extends s.Ties uses names s' where
  scopes : s.work.symbols.scopes.Grows scope s'.work.symbols.scopes

namespace Stage

variable {s s₁ s' : Stage Usage} {scope : ScopeId} {uses uses' : List VariableUse}
  {names names' : List Ident}

/-- A step that ties nothing. -/
theorem Ties.of_untied
    (kept : ∀ {id x}, s.work.layout.declaration? id = some x →
      s'.work.layout.declaration? id = some x)
    (declared : ∃ new : List Ident, new.Sublist names ∧
      s'.work.layout.declarations = s.work.layout.declarations ++ new)
    (references : s'.report.references = s.report.references)
    (problems : ∀ x : Ident, .unknownVariable x.name x.span ∈ s'.problems ↔
      .unknownVariable x.name x.span ∈ s.problems) : s.Ties [] names s' :=
  ⟨kept, declared, [], .nil, references, fun x => by simp [problems x]⟩

theorem Ties.refl (s : Stage Usage) : s.Ties [] [] s :=
  of_untied (fun h => h) ⟨[], .refl _, (List.append_nil _).symm⟩ rfl fun _ => Iff.rfl

theorem Ties.trans (T : s.Ties uses names s₁) (T' : s₁.Ties uses' names' s') :
    s.Ties (uses ++ uses') (names ++ names') s' where
  kept h := T'.kept (T.kept h)
  declared := by
    obtain ⟨new, hnew, hdeclared⟩ := T.declared
    obtain ⟨new', hnew', hdeclared'⟩ := T'.declared
    exact ⟨new ++ new', hnew.append hnew', by rw [hdeclared', hdeclared, List.append_assoc]⟩
  ties := by
    obtain ⟨ties, hties, hreferences, hunknown⟩ := T.ties
    obtain ⟨ties', hties', hreferences', hunknown'⟩ := T'.ties
    refine ⟨ties ++ ties', ?_, ?_, fun x => ?_⟩
    · exact List.rel_append (hties.imp fun _ _ h => ⟨h.1, h.2.mono T'.kept⟩) hties'
    · rw [hreferences', hreferences, Usage.tie, Usage.tie, Usage.tie, List.foldl_append]
    · rw [hunknown', hunknown, List.mem_append, or_assoc]

theorem TiesIn.refl (s : Stage Usage) (scope : ScopeId) : s.TiesIn scope [] [] s :=
  ⟨.refl s, .refl _ _⟩

theorem TiesIn.trans (T : s.TiesIn scope uses names s₁) (T' : s₁.TiesIn scope uses' names' s') :
    s.TiesIn scope (uses ++ uses') (names ++ names') s' :=
  ⟨T.toTies.trans T'.toTies, T.scopes.trans T'.scopes⟩

end Stage

namespace Use

variable {s s' : Stage Usage} {scope : ScopeId} {env : Environment} {block : Locals} {u : Unit}

theorem ties_reference {x : Ident} (A : s.work.At scope env)
    (h : reference scope x s = .ok u s') :
    s.TiesIn scope [⟨x, env⟩] [] s' ∧ s'.work = s.work := by
  obtain ⟨symbols, s₁, hsymbols, h⟩ := exists_of_bind h
  cases hsymbols
  have hmeans := A.inside.means A.nested x.name
  rw [← Scopes.lookup_eq, Option.bind_map] at hmeans
  replace hmeans : env.Means s.work.layout x.name
    ((s.work.symbols.scopes.lookup scope x.name).bind (·.2.symbol.toVariable?)) := hmeans
  cases hfound : (s.work.symbols.scopes.lookup scope x.name).bind (·.2.symbol.toVariable?) with
  | some id =>
    rw [hfound] at h hmeans
    cases h
    refine ⟨⟨⟨fun h => h, ⟨[], .refl _, (List.append_nil _).symm⟩, [(x, some id)],
      .cons ⟨rfl, hmeans⟩ .nil, rfl, fun y => ?_⟩, .refl _ _⟩, rfl⟩
    simp
  | none =>
    rw [hfound] at h hmeans
    cases h
    refine ⟨⟨⟨fun h => h, ⟨[], .refl _, (List.append_nil _).symm⟩, [(x, none)],
      .cons ⟨rfl, hmeans⟩ .nil, rfl, fun y => ?_⟩, .refl _ _⟩, rfl⟩
    obtain ⟨name, span⟩ := x
    obtain ⟨name', span'⟩ := y
    simp

theorem ties_references {names : List Ident} (A : s.work.At scope env)
    (h : references scope names s = .ok u s') :
    s.TiesIn scope (names.map (⟨·, env⟩)) [] s' ∧ s'.work = s.work := by
  induction names generalizing s with
  | nil =>
    cases h
    exact ⟨.refl _ _, rfl⟩
  | cons x rest ih =>
    obtain ⟨_, s₁, hfirst, hrest⟩ := exists_of_bind h
    obtain ⟨T, hwork⟩ := ties_reference A hfirst
    obtain ⟨T', hwork'⟩ := ih (hwork ▸ A) hrest
    exact ⟨T.trans T', hwork'.trans hwork⟩

theorem ties_expr {e : Expr} (A : s.work.At scope env) (h : expr scope e s = .ok u s') :
    s.TiesIn scope (e.uses env) [] s' ∧ s'.work = s.work := by
  rw [expr, Expr.references_eq] at h
  exact ties_references A h

theorem ties_expr? {e : Option Expr} (A : s.work.At scope env) (h : expr? scope e s = .ok u s') :
    s.TiesIn scope (e.toList.flatMap (·.uses env)) [] s' ∧ s'.work = s.work := by
  cases e with
  | none =>
    cases h
    exact ⟨.refl _ _, rfl⟩
  | some e =>
    rw [Option.toList_some, List.flatMap_singleton]
    exact ties_expr A h

end Use

/-! ## Declarations and blocks -/

theorem find?_concat (block : Locals) (x : Ident) (name : String) :
    (block ++ [x]).find? (·.name = name) =
      (block.find? (·.name = name)).or (if x.name = name then some x else none) := by
  rw [List.find?_append, List.find?_singleton]
  simp

namespace Workspace

variable {w w' : Workspace} {scope : ScopeId} {env : Environment} {block : Locals} {x : Ident}

/-- A name that is declared again does not count. -/
theorem Holds.skip (H : w.Holds scope block) {b : Binding}
    (h : w.symbols.scopes.binding? scope x.name = some b) : w.Holds scope (block ++ [x]) := by
  have hsame : ∀ name, (block ++ [x]).find? (·.name = name) = block.find? (·.name = name) := by
    intro name
    rw [find?_concat]
    cases hfind : block.find? (·.name = name) with
    | some y => rfl
    | none =>
      rw [Option.none_or, if_neg]
      rintro rfl
      cases (H.free hfind).symm.trans h
  exact ⟨fun h => H.free (hsame _ ▸ h), fun h => H.bound (hsame _ ▸ h)⟩

theorem Holds.add (H : w.Holds scope block) {id : VariableId}
    (hfresh : ∀ b, w.symbols.scopes.binding? scope x.name = some b → b.inherited = true)
    (hbindings : ∀ name, w'.symbols.scopes.binding? scope name =
      if x.name = name then some { symbol := .ofVariable id, span := x.span }
      else w.symbols.scopes.binding? scope name)
    (hentry : w'.layout.declaration? id = some x)
    (hkept : ∀ {id y}, w.layout.declaration? id = some y → w'.layout.declaration? id = some y) :
    w'.Holds scope (block ++ [x]) := by
  have hnone : block.find? (·.name = x.name) = none := by
    cases hfind : block.find? (·.name = x.name) with
    | none => rfl
    | some y =>
      obtain ⟨id, _, hbinding⟩ := H.bound hfind
      cases hfresh _ hbinding
  constructor
  · intro name h
    rw [find?_concat, Option.or_eq_none_iff] at h
    rw [hbindings]
    split
    · rename_i hname
      rw [if_pos hname] at h
      cases h.2
    · exact H.free h.1
  · intro name y h
    rw [find?_concat] at h
    rw [hbindings]
    split
    · rename_i hname
      subst hname
      rw [hnone, Option.none_or, if_pos rfl] at h
      cases h
      exact ⟨id, hentry, rfl⟩
    · rename_i hname
      rw [if_neg hname, Option.or_none] at h
      obtain ⟨id', hentry', hbinding⟩ := H.bound h
      exact ⟨id', hkept hentry', hbinding⟩

theorem Inside.exists_parent (I : w.Inside scope (env.enter block)) :
    ∃ parent, w.Inside parent env ∧ w.symbols.scopes.parent? scope = some parent ∧
      w.Holds scope block := by
  generalize he : env.enter block = env' at I
  cases I with
  | outside => cases congrArg Environment.blocks he
  | @block parent _ env₁ block₁ around hparent holds =>
    obtain ⟨blocks, outer⟩ := env
    obtain ⟨blocks₁, outer₁⟩ := env₁
    cases he
    exact ⟨parent, around, hparent, holds⟩

/-- The workspace with one more scope. -/
def withChild (w : Workspace) (parent : ScopeId) (kind : ScopeKind) (label : String) : Workspace :=
  { w with symbols := { w.symbols with scopes := w.symbols.scopes.child parent kind label } }

theorem At.nextId_not_mem (A : w.At scope env) :
    w.symbols.scopes.nextId ∉ w.symbols.scopes.enclosing scope := fun hmem =>
  Nat.not_lt_of_le (A.nested.le_of_mem_enclosing hmem) A.known

/-- A new block is empty. -/
theorem At.withChild (A : w.At scope env) (kind : ScopeKind) (label : String) :
    (w.withChild scope kind label).At w.symbols.scopes.nextId (env.enter []) := by
  have G : w.symbols.scopes.Grows w.symbols.scopes.nextId
      (w.withChild scope kind label).symbols.scopes := .inner A.known (.refl _ _) _
  refine ⟨A.nested.child A.known kind label, ?_, ?_⟩
  · exact Nat.lt_of_lt_of_eq (Nat.lt_succ_self _) (Scopes.size_child ..).symm
  · refine .block (A.inside.grows A.nested A.known G (fun h => h) A.nextId_not_mem) ?_
      ⟨fun {name} _ => ?_, by simp⟩
    · exact (Scopes.parent?_child ..).trans (if_pos rfl)
    · refine (Scopes.binding?_child ..).trans ?_
      rw [Scopes.binding?, Scopes.get?, Scopes.nextId, Scopes.size, Array.getElem?_size]

end Workspace

/-- What is done in a new block changes nothing around it. -/
theorem Stage.TiesIn.inner {s s' : Stage Usage} {scope : ScopeId} {env : Environment}
    {uses : List VariableUse} {names : List Ident} {kind : ScopeKind} {label : String}
    (A : s.work.At scope env)
    (T : ({ s with work := s.work.withChild scope kind label } : Stage Usage).TiesIn
      s.work.symbols.scopes.nextId uses names s') :
    s.TiesIn scope uses names s' ∧ s'.work.At scope env := by
  have G : ∀ scope', s.work.symbols.scopes.Grows scope' s'.work.symbols.scopes :=
    T.scopes.inner A.known
  refine ⟨⟨⟨T.kept, T.declared, T.ties⟩, G scope⟩, ?_⟩
  exact A.grows (G s.work.symbols.scopes.nextId) T.kept A.nextId_not_mem

namespace Use

variable {s s' : Stage Usage} {scope : ScopeId} {env : Environment} {block : Locals} {u : Unit}

theorem ties_declare {x : Ident} {domain : Domain} {kind : VariableKind} {r : Option VariableId}
    (A : s.work.At scope (env.enter block)) (h : declare scope x domain kind s = .ok r s') :
    s.TiesIn scope [] [x] s' ∧ s'.work.At scope (env.enter (block ++ [x])) := by
  obtain ⟨parent, around, hparent, holds⟩ := A.inside.exists_parent
  cases Pass.declaresVariable h with
  | refused taken own =>
    refine ⟨⟨.of_untied (fun h => h) ⟨[], List.nil_sublist _, (List.append_nil _).symm⟩ rfl
      fun y => ?_, .refl _ _⟩, A.nested, A.known, .block around hparent (holds.skip taken)⟩
    simp
  | @added scopes layout location bound table =>
    obtain ⟨_, hfresh, hbindings⟩ := Scopes.declare_ok bound
    have G := Scopes.grows_declare bound
    have hentry : layout.declaration? s.work.layout.nextId = some x := by
      rw [Layout.declaration?_push table, if_pos rfl]
      rfl
    have hkept : ∀ {id y}, s.work.layout.declaration? id = some y →
        layout.declaration? id = some y := by
      intro id y hid
      rw [Layout.declaration?_push table, if_neg, hid]
      rintro rfl
      cases (Layout.declaration?_nextId _).symm.trans hid
    have haway : scope ∉ s.work.symbols.scopes.enclosing parent := by
      intro hmem
      have hle := A.nested.le_of_mem_enclosing hmem
      exact Nat.not_lt_of_le hle (A.nested hparent)
    have hplace : parent.index < s.work.symbols.scopes.size :=
      Nat.lt_trans (A.nested hparent) A.known
    refine ⟨⟨.of_untied hkept ⟨[x], .refl _, Layout.declarations_push table⟩ rfl fun _ => Iff.rfl, G⟩,
      G.nested A.nested, Nat.lt_of_lt_of_le A.known G.size, ?_⟩
    refine .block (around.grows A.nested hplace G hkept haway) ((G.parents A.known).trans hparent) ?_
    refine holds.add hfresh (fun name => (hbindings scope name).trans ?_) hentry hkept
    simp only [true_and]

theorem newScope_ok {kind : ScopeKind} {label : String} {inner : ScopeId}
    (h : Pass.newScope scope kind label s = .ok inner s') :
    inner = s.work.symbols.scopes.nextId ∧
      s' = { s with work := s.work.withChild scope kind label } := by
  cases h
  exact ⟨rfl, rfl⟩

/-- The statements of a block are worked off in a scope of their own. -/
theorem ties_block {ss : List Stmt} {u : Unit} (A : s.work.At scope env)
    (h : (Pass.newScope scope .block "block" >>= fun inner => stmts inner ss) s = .ok u s')
    (hstmts : ∀ {s₁ inner}, s₁.work.At inner (env.enter []) → stmts inner ss s₁ = .ok u s' →
      s₁.TiesIn inner (Stmt.usesIn env [] ss) (ss.flatMap (·.locals)) s') :
    s.TiesIn scope (Stmt.usesIn env [] ss) (ss.flatMap (·.locals)) s' ∧ s'.work.At scope env := by
  obtain ⟨inner, s₁, hscope, h⟩ := exists_of_bind h
  obtain ⟨rfl, rfl⟩ := newScope_ok hscope
  exact Stage.TiesIn.inner A (hstmts (A.withChild ..) h)

mutual

theorem ties_stmt (st : Stmt) {s s' : Stage Usage} {scope : ScopeId} {env : Environment}
    {block : Locals} {u : Unit} (A : s.work.At scope (env.enter block))
    (h : stmt scope st s = .ok u s') :
    s.TiesIn scope (st.uses (env.enter block)) st.locals s' ∧
      s'.work.At scope (env.enter (block ++ st.declared)) := by
  rw [Stmt.locals_eq]
  cases st with
  | expr _ e =>
    obtain ⟨T, hwork⟩ := ties_expr A h
    rw [Stmt.declared, List.append_nil, hwork]
    exact ⟨T, A⟩
  | declare v =>
    obtain ⟨_, s₁, hinit, h⟩ := exists_of_bind h
    obtain ⟨T, hwork⟩ := ties_expr? A hinit
    obtain ⟨r, s₂, hdeclare, h⟩ := exists_of_bind h
    obtain ⟨T', A'⟩ := ties_declare (hwork ▸ A) hdeclare
    have hall := T.trans T'
    rw [List.append_nil] at hall
    cases r with
    | none =>
      cases h
      exact ⟨hall, A'⟩
    | some id =>
      cases h
      exact ⟨⟨⟨hall.kept, hall.declared, hall.ties⟩, hall.scopes⟩, A'⟩
  | ret _ value =>
    obtain ⟨T, hwork⟩ := ties_expr? A h
    rw [Stmt.declared, List.append_nil, hwork]
    exact ⟨T, A⟩
  | block _ body =>
    rw [Stmt.declared, List.append_nil]
    exact ties_block A h (ties_stmts body)
  | ifThen _ condition _ body =>
    obtain ⟨_, s₁, hcondition, h⟩ := exists_of_bind h
    obtain ⟨T, hwork⟩ := ties_expr A hcondition
    obtain ⟨T', A'⟩ := ties_block (hwork ▸ A) h (ties_stmts body)
    rw [Stmt.declared, List.append_nil]
    exact ⟨T.trans T', A'⟩
  | ifElse _ condition _ body _ other =>
    obtain ⟨_, s₁, hcondition, h⟩ := exists_of_bind h
    obtain ⟨T, hwork⟩ := ties_expr A hcondition
    have hsplit : ((Pass.newScope scope .block "block" >>= fun inner => stmts inner body) >>=
        fun _ => Pass.newScope scope .block "block" >>= fun inner => stmts inner other) s₁ =
          .ok u s' := h
    obtain ⟨_, s₂, hbody, hother⟩ := exists_of_bind hsplit
    obtain ⟨T₁, A₁⟩ := ties_block (hwork ▸ A) hbody (ties_stmts body)
    obtain ⟨T₂, A₂⟩ := ties_block A₁ hother (ties_stmts other)
    rw [Stmt.declared, List.append_nil, Stmt.children, List.flatMap_append]
    exact ⟨T.trans (T₁.trans T₂), A₂⟩
  | loop _ condition _ body =>
    obtain ⟨_, s₁, hcondition, h⟩ := exists_of_bind h
    obtain ⟨T, hwork⟩ := ties_expr A hcondition
    obtain ⟨T', A'⟩ := ties_block (hwork ▸ A) h (ties_stmts body)
    rw [Stmt.declared, List.append_nil]
    exact ⟨T.trans T', A'⟩

theorem ties_stmts (ss : List Stmt) {s s' : Stage Usage} {scope : ScopeId} {env : Environment}
    {block : Locals} {u : Unit} (A : s.work.At scope (env.enter block))
    (h : stmts scope ss s = .ok u s') :
    s.TiesIn scope (Stmt.usesIn env block ss) (ss.flatMap (·.locals)) s' := by
  cases ss with
  | nil =>
    cases h
    exact .refl _ _
  | cons st rest =>
    obtain ⟨_, s₁, hfirst, hrest⟩ := exists_of_bind h
    obtain ⟨T, A₁⟩ := ties_stmt st A hfirst
    exact T.trans (ties_stmts rest A₁ hrest)

end

end Use

/-! ## Functions -/

/-- Nothing changes that matters for names. -/
structure Stage.Alike (s s' : Stage Usage) : Prop where
  scopes : s'.work.symbols.scopes = s.work.symbols.scopes
  entries : ∀ id, s'.work.layout.declaration? id = s.work.layout.declaration? id
  declarations : s'.work.layout.declarations = s.work.layout.declarations
  references : s'.report.references = s.report.references
  problems : s'.problems = s.problems

namespace Stage.Alike

variable {s s' : Stage Usage} {scope : ScopeId} {env : Environment}

theorem ties (H : s.Alike s') : s.Ties [] [] s' := by
  refine .of_untied (fun h => (H.entries _).trans h) ⟨[], .refl _, ?_⟩ H.references fun x => ?_
  · rw [H.declarations, List.append_nil]
  · rw [H.problems]

theorem tiesIn (H : s.Alike s') (scope : ScopeId) : s.TiesIn scope [] [] s' := by
  refine ⟨H.ties, ?_⟩
  rw [H.scopes]
  exact .refl _ _

theorem stays (H : s.Alike s') (A : s.work.At scope env) : s'.work.At scope env :=
  A.grows (H.tiesIn _).scopes H.ties.kept A.nextId_not_mem

end Stage.Alike

namespace Use

variable {s s' : Stage Usage} {scope : ScopeId} {env : Environment} {block : Locals} {u : Unit}

theorem alike_stack (s : Stage Usage) (id : VariableId) :
    s.Alike { s with work := { s.work with layout := s.work.layout.stack id } } :=
  ⟨rfl, Layout.declaration?_stack _ id, Layout.declarations_stack _ id, rfl, rfl⟩

theorem ties_params {stacked : Bool} {ps : List Param} {ids : List VariableId}
    (A : s.work.At scope (env.enter block)) (h : params scope stacked ps s = .ok ids s') :
    s.TiesIn scope [] (ps.map (·.name)) s' ∧
      s'.work.At scope (env.enter (block ++ ps.map (·.name))) := by
  induction ps generalizing s block ids with
  | nil =>
    cases h
    rw [List.map_nil, List.append_nil]
    exact ⟨.refl _ _, A⟩
  | cons p rest ih =>
    obtain ⟨r, s₁, hdeclare, h⟩ := exists_of_bind h
    obtain ⟨T, A₁⟩ := ties_declare A hdeclare
    rw [List.map_cons, List.append_cons]
    cases r with
    | none =>
      obtain ⟨T', A'⟩ := ih A₁ h
      exact ⟨T.trans T', A'⟩
    | some id =>
      cases stacked with
      | false =>
        obtain ⟨ids', s₂, hrest, h⟩ := exists_of_bind h
        cases h
        obtain ⟨T', A'⟩ := ih A₁ hrest
        exact ⟨T.trans T', A'⟩
      | true =>
        obtain ⟨_, s₂, hstack, h⟩ := exists_of_bind h
        cases hstack
        obtain ⟨ids', s₃, hrest, h⟩ := exists_of_bind h
        cases h
        have H := alike_stack s₁ id
        obtain ⟨T', A'⟩ := ih (H.stays A₁) hrest
        exact ⟨T.trans ((H.tiesIn scope).trans T'), A'⟩

theorem ties_body {b : Body} {outer : String → Option Binding}
    (A : s.work.At b.scope (({ outer } : Environment).enter [])) (h : body b s = .ok u s') :
    s.TiesIn b.scope (b.source.uses outer) (b.source.paramIdents ++ b.source.locals) s' := by
  obtain ⟨symbols, s₁, hsymbols, h⟩ := exists_of_bind h
  cases hsymbols
  cases hfunction : s.work.symbols.function? b.function with
  | none =>
    rw [hfunction] at h
    cases h
  | some f =>
    rw [hfunction] at h
    obtain ⟨ids, s₂, hparams, h⟩ := exists_of_bind h
    obtain ⟨T, A₂⟩ := ties_params A hparams
    obtain ⟨_, s₃, hcount, h⟩ := exists_of_bind h
    cases hcount
    obtain ⟨_, s₄, hupdate, h⟩ := exists_of_bind h
    cases hupdate
    rw [List.nil_append] at A₂
    have H : s₂.Alike { s₂ with
        work := { s₂.work with symbols :=
          s₂.work.symbols.updateFunction b.function fun f => { f with parameters := ids } }
        report := { s₂.report with parameterCount := s₂.report.parameterCount + ids.length } } :=
      ⟨rfl, fun _ => rfl, rfl, rfl, rfl⟩
    have T₄ := T.trans (H.tiesIn b.scope)
    rw [List.append_nil, List.append_nil] at T₄
    rw [FunctionDef.uses, FunctionDef.locals, FunctionDef.statements]
    cases hbody : b.source.body with
    | none =>
      rw [hbody] at h
      cases h
      rwa [Option.toList_none, List.flatMap_nil, List.flatMap_nil, List.flatMap_nil, List.append_nil]
    | some block =>
      rw [hbody] at h
      have hlocals : (block.body.flatMap (·.preorder)).flatMap (·.declared) =
          block.body.flatMap (·.locals) := List.flatMap_assoc
      rw [Option.toList_some, List.flatMap_singleton, List.flatMap_singleton, hlocals]
      exact T₄.trans (ties_stmts block.body (H.stays A₂) h)

/-- Some bodies are not worked off yet, and none of them lies in another one. -/
structure Waiting (w : Workspace) (outer : Body → String → Option Binding) (bs : List Body) :
    Prop where
  places : ∀ b ∈ bs, w.At b.scope (({ outer := outer b } : Environment).enter [])
  away : ∀ b ∈ bs, ∀ b' ∈ bs, b.scope ≠ b'.scope → b.scope ∉ w.symbols.scopes.enclosing b'.scope
  distinct : (bs.map (·.scope)).Nodup

variable {b : Body} {bs : List Body} {outer : Body → String → Option Binding}

/-- A body that is worked off changes nothing for the other ones. -/
theorem Waiting.after_body (W : Waiting s.work outer (b :: bs)) (h : body b s = .ok u s') :
    Waiting s'.work outer bs := by
  obtain ⟨A, hplaces⟩ := List.forall_mem_cons.mp W.places
  obtain ⟨hfirst, hdistinct⟩ := List.nodup_cons.mp W.distinct
  have T := ties_body A h
  have hne : ∀ b' ∈ bs, b.scope ≠ b'.scope := fun b' hb' he =>
    hfirst (List.mem_map.mpr ⟨b', hb', he.symm⟩)
  refine ⟨fun b' hb' => ?_, fun b₁ hb₁ b₂ hb₂ hne₁₂ => ?_, hdistinct⟩
  · refine (hplaces b' hb').grows T.scopes T.kept ?_
    exact W.away b List.mem_cons_self b' (List.mem_cons_of_mem _ hb') (hne b' hb')
  · rw [T.scopes.enclosing A.nested (hplaces b₂ hb₂).known]
    exact W.away b₁ (List.mem_cons_of_mem _ hb₁) b₂ (List.mem_cons_of_mem _ hb₂) hne₁₂

theorem ties_bodies (W : Waiting s.work outer bs) (h : bodies bs s = .ok u s') :
    s.Ties (bs.flatMap fun b => b.source.uses (outer b))
      (bs.flatMap fun b => b.source.paramIdents ++ b.source.locals) s' := by
  induction bs generalizing s with
  | nil =>
    cases h
    exact .refl _
  | cons b rest ih =>
    obtain ⟨_, s₁, hbody, hrest⟩ := exists_of_bind h
    have T := ties_body (W.places b List.mem_cons_self) hbody
    exact T.toTies.trans (ih (W.after_body hbody) hrest)

theorem ties_initializers {is : List Initializer} {outer : Initializer → String → Option Binding}
    (hplaces : ∀ i ∈ is, s.work.At i.scope { outer := outer i })
    (h : initializers is s = .ok u s') :
    s.Ties (is.flatMap fun i => i.expr.uses { outer := outer i }) [] s' ∧ s'.work = s.work := by
  induction is generalizing s with
  | nil =>
    cases h
    exact ⟨.refl _, rfl⟩
  | cons i rest ih =>
    obtain ⟨_, s₁, hfirst, hrest⟩ := exists_of_bind h
    obtain ⟨A, hplaces'⟩ := List.forall_mem_cons.mp hplaces
    obtain ⟨T, hwork⟩ := ties_expr A hfirst
    obtain ⟨T', hwork'⟩ := ih (fun i hi => hwork ▸ hplaces' i hi) hrest
    exact ⟨T.toTies.trans T', hwork'.trans hwork⟩

/-- The variable for arguments has no name in the script. -/
theorem alike_addInternal {name : String} {domain : Domain} {id : VariableId}
    (h : Pass.lift (Workspace.addInternal name domain) s = .ok id s') : s.Alike s' := by
  simp only [Pass.lift, Workspace.addInternal, Workspace.onLayout, Layout.addInternal] at h
  cases htake : Layout.takeLocation domain s.work.layout with
  | error f layout =>
    simp only [htake] at h
    cases h
  | ok location layout =>
    simp only [htake] at h
    cases h
    have htable := Layout.takeLocation_table htake
    have hpush : (layout.push { id := layout.nextId, name, location }).table =
        s.work.layout.table.push { id := layout.nextId, name, location } :=
      congrArg (Array.push · _) htable
    refine ⟨rfl, fun id => ?_, (Layout.declarations_push hpush).trans (List.append_nil _), rfl, rfl⟩
    refine (Layout.declaration?_push hpush id).trans ?_
    split
    · rename_i hid
      rw [hid, Layout.declaration?_nextId]
      rfl
    · rfl

theorem ties_declarations {d : Declarations} {outside : Initializer → String → Option Binding}
    (hinits : ∀ i ∈ d.initializers, s.work.At i.scope { outer := outside i })
    (W : Waiting s.work outer d.bodies) (h : declarations d s = .ok u s') :
    s.Ties ((d.initializers.flatMap fun i => i.expr.uses { outer := outside i }) ++
        d.bodies.flatMap fun b => b.source.uses (outer b))
      (d.bodies.flatMap fun b => b.source.paramIdents ++ b.source.locals) s' := by
  obtain ⟨_, s₁, hfirst, h⟩ := exists_of_bind h
  obtain ⟨T₁, hwork⟩ := ties_initializers hinits hfirst
  obtain ⟨_, s₂, hbodies, h⟩ := exists_of_bind h
  rw [← hwork] at W
  have T₂ := T₁.trans (ties_bodies W hbodies)
  obtain ⟨symbols, s₃, hsymbols, h⟩ := exists_of_bind h
  cases hsymbols
  cases hstaging : needsStaging s₂.work.symbols with
  | false =>
    rw [hstaging] at h
    cases h
    exact T₂
  | true =>
    rw [hstaging] at h
    obtain ⟨id, s₄, hadd, h⟩ := exists_of_bind h
    cases h
    have T₄ := T₂.trans (alike_addInternal hadd).ties
    rw [List.append_nil, List.append_nil] at T₄
    exact ⟨T₄.kept, T₄.declared, T₄.ties⟩

end Use

end Stackless
