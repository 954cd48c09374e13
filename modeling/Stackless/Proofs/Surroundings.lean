import Stackless.Proofs.InheritedMembers

/-!
# The scopes around a body

The body of a function outside classes lies in the root. That of a member lies in the scopes of its
class, of which the one for objects is left out if the member is static; a constructor is never
static in this sense. What a name means in a body that declares nothing is what the nearest of these
scopes binds it to.
-/

namespace Stackless

namespace Symbols

/-- The scopes around what belongs to a class, or stands outside classes, nearest first. -/
def around (s : Symbols) (owner : Option Key) (isStatic : Bool) : List ScopeId :=
  match (owner.bind s.type?).bind (·.members) with
  | none => [.root]
  | some m => if isStatic then [m.static, .root] else [m.object, m.static, .root]

/-- The scopes around the body of a function, nearest first. -/
def surroundings (s : Symbols) (f : FunctionEntry) : List ScopeId :=
  s.around f.owner (f.traits.isStatic && !f.traits.isConstructor)

/-- The type that the nearest of some scopes binds to a name. -/
def typeIn? (s : Symbols) (scopes : List ScopeId) (name : String) : Option Key :=
  scopes.findSome? (s.scopes.type? · name)

end Symbols

namespace Scopes.Furnished

variable {s : Scopes} {done : List Completed} {x : Completed}

theorem enclosing_root (F : s.Furnished done) : s.enclosing .root = [.root] := by
  refine F.nested.enclosing_eq (.singleton _) fun b hb => ?_
  cases hb
  exact F.root.parent?

theorem enclosing_static (F : s.Furnished done) (hx : x ∈ done) :
    s.enclosing x.scopes.static = [x.scopes.static, .root] := by
  refine F.nested.enclosing_eq (.cons_cons (F.static x hx).parent? (.singleton _)) fun b hb => ?_
  cases hb
  exact F.root.parent?

theorem enclosing_object (F : s.Furnished done) (hx : x ∈ done) :
    s.enclosing x.scopes.object = [x.scopes.object, x.scopes.static, .root] := by
  refine F.nested.enclosing_eq (.cons_cons (F.object x hx).parent?
    (.cons_cons (F.static x hx).parent? (.singleton _))) fun b hb => ?_
  cases hb
  exact F.root.parent?

end Scopes.Furnished

namespace Outline.Finished

variable {g : Outline} {script : Script} {classes : List ClassDef} {done cut : List Completed}
  {stage : Stage Declarations} {x : Completed} {f : FunctionEntry} {home id : ScopeId}

theorem enclosing_side (F : g.Finished script classes done cut) (K : g.Kept stage)
    (S : stage.work.symbols.scopes.Furnished done) (hx : x ∈ done) (isStatic : Bool) :
    stage.work.symbols.scopes.enclosing (x.scopes.side isStatic) =
      stage.work.symbols.around (some x.key) isStatic := by
  have htype : stage.work.symbols.type? x.key = some x.entry := F.type?_done K hx
  rw [Symbols.around, Option.bind_some, htype]
  cases isStatic
  · exact S.enclosing_object hx
  · exact S.enclosing_static hx

theorem enclosing_home (F : g.Finished script classes done cut) (K : g.Kept stage)
    (S : stage.work.symbols.scopes.Furnished done) (h : f.LivesIn done home) :
    stage.work.symbols.scopes.enclosing home = stage.work.symbols.surroundings f := by
  cases h with
  | root howner =>
    rw [Symbols.surroundings, howner]
    exact S.enclosing_root
  | member hx howner =>
    rw [Symbols.surroundings, howner]
    exact F.enclosing_side K S hx _

/-- The body of a function has a scope of its own, which is empty before it is used. -/
theorem enclosing_body (F : g.Finished script classes done cut) (K : g.Kept stage)
    (S : stage.work.symbols.scopes.Furnished done) (h : f.Housed stage.work.symbols.scopes done)
    (hscope : f.scope = some id) :
    stage.work.symbols.scopes.enclosing id = id :: stage.work.symbols.surroundings f ∧
      ∃ home, stage.work.symbols.scopes.get? id =
        some { parent := some home, kind := .function, name := f.qualifiedName } := by
  obtain ⟨id', home, hscope', hlives, hget⟩ := h
  cases hscope'.symm.trans hscope
  have hparent : stage.work.symbols.scopes.parent? id = some home := by
    rw [Scopes.parent?, hget]
  rw [S.nested.enclosing_cons hparent, F.enclosing_home K S hlives]
  exact ⟨rfl, home, hget⟩

/-- In a body that declares nothing a name means what it means around it. -/
theorem lookup_body (F : g.Finished script classes done cut) (K : g.Kept stage)
    (S : stage.work.symbols.scopes.Furnished done) (h : f.Housed stage.work.symbols.scopes done)
    (hscope : f.scope = some id) (name : String) :
    (stage.work.symbols.scopes.lookup id name).map (·.2) =
        stage.work.symbols.scopes.visible? (stage.work.symbols.surroundings f) name ∧
      stage.work.symbols.scopes.lookupType id name =
        stage.work.symbols.typeIn? (stage.work.symbols.surroundings f) name := by
  obtain ⟨henclosing, home, hget⟩ := F.enclosing_body K S h hscope
  have hbinding : stage.work.symbols.scopes.binding? id name = none := by
    rw [Scopes.binding?, hget]
    rfl
  have htype : stage.work.symbols.scopes.type? id name = none := by
    rw [Scopes.type?, hget]
    rfl
  constructor
  · rw [Scopes.lookup_eq, henclosing, Scopes.visible?, List.findSome?_cons, hbinding]
    rfl
  · rw [Scopes.lookupType, henclosing, List.findSome?_cons, htype]
    rfl

end Outline.Finished

end Stackless
