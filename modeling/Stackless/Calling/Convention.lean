import Stackless.Calling.FrameStack

/-!
# Calls

Around the code of a call, a frame is pushed for each parameter before it and popped after it.
With two or more parameters all arguments are first stored together in the staging variable, so
that none of them sees a frame that was pushed for another.
-/

namespace Stackless

/-- A parameter together with its argument in a call. -/
structure Frame where
  stack : FrameStack
  argument : Term

/-- What calls have at their disposal. -/
structure Convention where
  scratch : Slot
  staging : Option Variable

namespace Convention

/-- Push the staged arguments, the first of them at the given position. -/
def pushStaged (staged : Term) (entity : Option Term) : Nat → List Frame → Code
  | _, [] => []
  | i, f :: rest =>
    f.stack.push (.item staged (.ofNat i)) entity ++ pushStaged staged entity (i + 1) rest

/-- The code before the body of a call. -/
def enter (c : Convention) (frames : List Frame) (entity : Option Term) : Except Fault Code :=
  match frames, c.staging with
  | [], _ => .ok []
  | [f], _ => .ok (f.stack.push f.argument entity)
  | frames, some staging =>
    .ok (staging.write (.array (frames.map (·.argument))) entity none ::
      pushStaged (staging.read entity) entity 0 frames)
  | _, none => .error (.internal "multi-parameter stack call without a staging variable")

/-- The code after the body of a call. -/
def leave (frames : List Frame) (entity : Option Term) : Code :=
  frames.reverse.flatMap (·.stack.pop entity)

/-- Emit the body of a call between its frames. Nothing is popped after a body that fails. -/
def call {m : Type → Type} {α : Type} [Monad m] [MonadExceptOf Fault m] (emit : Code → m Unit)
    (c : Convention) (frames : List Frame) (entity : Option Term) (body : m α) : m α := do
  match c.enter frames entity with
  | .ok code => emit code
  | .error f => throw f
  let result ← body
  emit (leave frames entity)
  return result

end Convention

end Stackless
