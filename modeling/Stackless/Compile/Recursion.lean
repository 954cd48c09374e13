import Stackless.Symbols.Table

/-!
# Recursion

Parameters have fixed storage, so a function must not be called while a call of it is live. The
exception is a function that is marked recursive and calls itself directly: its parameters keep
a frame for each live call. A call that closes any other cycle is a problem.
-/

namespace Stackless

structure RecursionReport where
  checked : Nat
  /-- The number of functions whose parameters keep frames. -/
  stacked : Nat
  problems : List Problem

namespace Symbols

/-- The function may call itself. -/
def allowsRecursion (s : Symbols) (key : Key) : Bool :=
  match s.function? key with
  | some f => f.traits.isRecursive
  | none => false

/-- The calls along an edge close a cycle that is not allowed. -/
def isIllegal (s : Symbols) (e : CallEdge) : Bool :=
  if e.callee = e.caller then !s.allowsRecursion e.caller
  else s.calls.reaches e.callee e.caller

/-- The calls of a function that close a cycle, as problems. -/
def illegalCalls (s : Symbols) (caller : Key) : List Problem :=
  ((s.calls.callees caller).filter s.isIllegal).flatMap fun e =>
    e.sites.map (.illegalRecursion (s.functionName caller) (s.functionName e.callee) ·)

/-- The function is marked recursive and calls itself. -/
def callsItself (s : Symbols) (f : FunctionEntry) : Bool :=
  f.traits.isRecursive && s.calls.hasEdge f.key f.key

/-- A mark that no call makes use of, as a problem. -/
def unusedMark (s : Symbols) (f : FunctionEntry) : List Problem :=
  if f.traits.isRecursive && !s.calls.hasEdge f.key f.key then
    [.unusedMarker f.qualifiedName f.span]
  else []

/-- Check all functions, and let the parameters of those that call themselves keep frames. -/
def checkRecursion (s : Symbols) : RecursionReport × Symbols :=
  ({ checked := s.functions.length
     stacked := (s.functions.filter s.callsItself).length
     problems := s.functions.flatMap fun f => s.illegalCalls f.key ++ s.unusedMark f },
    { s with
      functions := s.functions.map fun f =>
        if s.callsItself f then { f with stacked := true } else f })

end Symbols

end Stackless
