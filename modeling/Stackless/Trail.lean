/-!
# Following links

Two ways of walking along links between finitely many nodes. A trail follows the single link of
each node and ends before it would meet a node again. A search follows all links of each node
and expands no node twice.
-/

namespace Stackless

variable {α : Type} [DecidableEq α]

/-- Follow links from `a` through at most `n` nodes, none of them in `seen` or met twice. -/
def trailFrom (next : α → Option α) : Nat → List α → α → List α
  | 0, _, _ => []
  | n + 1, seen, a =>
    if a ∈ seen then []
    else
      a :: match next a with
        | some b => trailFrom next n (a :: seen) b
        | none => []

/-- Follow links from `a`, when at most `n` nodes have one. -/
def trail (next : α → Option α) (n : Nat) (a : α) : List α := trailFrom next (n + 1) [] a

/-- Whether `target` can be reached from the nodes in `stack` when only the nodes in `unseen`
may still be expanded. -/
def search (next : α → List α) (target : α) (unseen stack : List α) : Bool :=
  match stack with
  | [] => false
  | a :: rest =>
    if a = target then true
    else if a ∈ unseen then search next target (unseen.erase a) (next a ++ rest)
    else search next target unseen rest
  termination_by (unseen.length, stack.length)
  decreasing_by
    · have : a ∈ unseen := by assumption
      have := List.length_erase_of_mem this
      have := List.length_pos_of_mem ‹a ∈ unseen›
      left
      omega
    · right
      simp

end Stackless
