/-!
# Indexed graphs

Directed graphs whose nodes and arcs are known by indices. `IndexedGraph` lists what can be done
with a representation of such graphs, and `LawfulIndexedGraph` what may be relied on: nodes and
arcs get their indices in the order in which they are added, and the arcs between two nodes or
from a node are found, in whatever order. A `ListGraph` is such a representation.
-/

namespace Stackless

/-- An arc from one node to another. -/
structure Arc (β : Type) where
  source : Nat
  target : Nat
  label : β

namespace Arc

variable {β : Type}

/-- Put an arc before the first one that has a higher index. -/
def insertByIndex (x : Arc β × Nat) : List (Arc β × Nat) → List (Arc β × Nat)
  | [] => [x]
  | y :: ys => if x.2 ≤ y.2 then x :: y :: ys else y :: insertByIndex x ys

/-- Put arcs in the order of their indices. -/
def sortByIndex : List (Arc β × Nat) → List (Arc β × Nat)
  | [] => []
  | x :: xs => insertByIndex x (sortByIndex xs)

/-- The arcs from a node, with or without their indices. -/
theorem map_fst_filter_zipIdx (arcs : List (Arc β)) (i : Nat) :
    (arcs.zipIdx.filter (·.1.source = i)).map (·.1) = arcs.filter (·.source = i) := by
  have hsplit : (fun x : Arc β × Nat => decide (x.1.source = i)) =
      (fun a : Arc β => decide (a.source = i)) ∘ Prod.fst := rfl
  rw [hsplit, ← List.filter_map, List.zipIdx_map_fst]

end Arc

/-- Representations of graphs with nodes of type `α` and arcs that have labels of type `β`. -/
class IndexedGraph (γ : Type) (α β : outParam Type) where
  empty : γ
  /-- The nodes in the order of their indices. -/
  nodes : γ → List α
  /-- The arcs in the order of their indices. -/
  arcs : γ → List (Arc β)
  /-- Add a node; the result tells its index. -/
  addNode : γ → α → Nat × γ
  /-- Add an arc from one node to another. -/
  addArc : γ → Nat → Nat → β → γ
  /-- Change the label of the arc that has a given index. -/
  relabel : γ → Nat → (β → β) → γ
  node? : γ → Nat → Option α
  label? : γ → Nat → Option β
  /-- The index of an arc from one node to another. -/
  findArc? : γ → Nat → Nat → Option Nat
  /-- The arcs from a node, each with its index. -/
  outgoing : γ → Nat → List (Arc β × Nat)
  /-- The nodes to which the arcs from a node lead. -/
  neighbors : γ → Nat → List Nat
  nodeCount : γ → Nat
  arcCount : γ → Nat

open IndexedGraph

class LawfulIndexedGraph (γ : Type) {α β : outParam Type} [IndexedGraph γ α β] : Prop where
  nodes_empty : nodes (empty : γ) = []
  arcs_empty : arcs (empty : γ) = []
  addNode_index (g : γ) (a : α) : (addNode g a).1 = (nodes g).length
  nodes_addNode (g : γ) (a : α) : nodes (addNode g a).2 = nodes g ++ [a]
  arcs_addNode (g : γ) (a : α) : arcs (addNode g a).2 = arcs g
  nodes_addArc (g : γ) {i j : Nat} (label : β) (hi : i < (nodes g).length)
    (hj : j < (nodes g).length) : nodes (addArc g i j label) = nodes g
  arcs_addArc (g : γ) {i j : Nat} (label : β) (hi : i < (nodes g).length)
    (hj : j < (nodes g).length) : arcs (addArc g i j label) = arcs g ++ [⟨i, j, label⟩]
  nodes_relabel (g : γ) {k : Nat} (f : β → β) (hk : k < (arcs g).length) :
    nodes (relabel g k f) = nodes g
  arcs_relabel (g : γ) {k : Nat} (f : β → β) (hk : k < (arcs g).length) :
    arcs (relabel g k f) = (arcs g).modify k fun a => { a with label := f a.label }
  node?_eq (g : γ) (i : Nat) : node? g i = (nodes g)[i]?
  label?_eq (g : γ) (k : Nat) : label? g k = (arcs g)[k]?.map (·.label)
  findArc?_eq_some {g : γ} {i j k : Nat} (h : findArc? g i j = some k) :
    ∃ a, (arcs g)[k]? = some a ∧ a.source = i ∧ a.target = j
  findArc?_eq_none {g : γ} {i j : Nat} (h : findArc? g i j = none) :
    ∀ a ∈ arcs g, ¬(a.source = i ∧ a.target = j)
  outgoing_perm (g : γ) (i : Nat) :
    (outgoing g i).Perm ((arcs g).zipIdx.filter (·.1.source = i))
  neighbors_perm (g : γ) (i : Nat) :
    (neighbors g i).Perm (((arcs g).filter (·.source = i)).map (·.target))
  nodeCount_eq (g : γ) : nodeCount g = (nodes g).length
  arcCount_eq (g : γ) : arcCount g = (arcs g).length

/-- A graph given by its nodes and arcs. The arcs from a node are found latest first. -/
structure ListGraph (α β : Type) where
  nodes : List α := []
  arcs : List (Arc β) := []

namespace ListGraph

variable {α β : Type}

def outgoing (g : ListGraph α β) (i : Nat) : List (Arc β × Nat) :=
  (g.arcs.zipIdx.filter (·.1.source = i)).reverse

instance : IndexedGraph (ListGraph α β) α β where
  empty := {}
  nodes := nodes
  arcs := arcs
  addNode g a := (g.nodes.length, { g with nodes := g.nodes ++ [a] })
  addArc g i j label := { g with arcs := g.arcs ++ [⟨i, j, label⟩] }
  relabel g k f := { g with arcs := g.arcs.modify k fun a => { a with label := f a.label } }
  node? g i := g.nodes[i]?
  label? g k := g.arcs[k]?.map (·.label)
  findArc? g i j := g.arcs.findIdx? fun a => a.source = i ∧ a.target = j
  outgoing := outgoing
  neighbors g i := (g.outgoing i).map (·.1.target)
  nodeCount g := g.nodes.length
  arcCount g := g.arcs.length

instance : LawfulIndexedGraph (ListGraph α β) where
  nodes_empty := rfl
  arcs_empty := rfl
  addNode_index _ _ := rfl
  nodes_addNode _ _ := rfl
  arcs_addNode _ _ := rfl
  nodes_addArc _ _ _ _ _ _ := rfl
  arcs_addArc _ _ _ _ _ _ := rfl
  nodes_relabel _ _ _ _ := rfl
  arcs_relabel _ _ _ _ := rfl
  node?_eq _ _ := rfl
  label?_eq _ _ := rfl
  findArc?_eq_some {g i j k} h := by
    obtain ⟨hk, hjoins, _⟩ := List.findIdx?_eq_some_iff_getElem.mp h
    exact ⟨_, List.getElem?_eq_getElem hk, of_decide_eq_true hjoins⟩
  findArc?_eq_none {g i j} h a ha := of_decide_eq_false (List.findIdx?_eq_none_iff.mp h a ha)
  outgoing_perm _ _ := List.reverse_perm _
  neighbors_perm g i := by
    refine ((List.reverse_perm _).map _).trans (.of_eq ?_)
    exact List.map_map.symm.trans
      (congrArg (List.map (·.target)) (Arc.map_fst_filter_zipIdx g.arcs i))
  nodeCount_eq _ := rfl
  arcCount_eq _ := rfl

end ListGraph

end Stackless
