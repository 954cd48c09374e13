import Stackless.Machine.Run

/-!
# Sessions

A session collects code and runs it piece by piece.
-/

namespace Stackless

structure Session where
  machine : Machine
  /-- All code emitted so far. -/
  code : Code := []
  /-- The number of actions that already ran. -/
  executed : Nat := 0

namespace Session

def emit (s : Session) (code : Code) : Session := { s with code := s.code ++ code }

/-- The actions that did not run yet. -/
def pending (s : Session) : Code := s.code.drop s.executed

/-- Run the next actions, all if no number is given; the result is how many ran. -/
def run (s : Session) (n : Option Nat) : Nat × Session :=
  let next := match n with
    | some n => s.pending.take n
    | none => s.pending
  (next.length,
    { s with machine := s.machine.run next, executed := s.executed + next.length })

/-- Run an action that is not part of the code. -/
def exec (s : Session) (a : Action) : Session := { s with machine := s.machine.exec a }

/-- Go on with the present memory, for another event and with the standard capacity. -/
def restart (s : Session) (memory : Memory) (event : Nat) : Session :=
  { s with machine := { memory, event } }

end Session

end Stackless
