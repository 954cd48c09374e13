import Stackless.Dict
import Stackless.Key
import Stackless.Script.Span
import Stackless.Symbols.IndexedGraph
import Stackless.Trail

/-!
# Calls

Which function calls which, and where. The functions are the nodes of a graph, and each of them is
found by its key. An arc stands for all calls from one function to another; its label lists their
places. Functions and calls are only ever added.
-/

namespace Stackless

/-- All places where one function calls another. -/
structure CallEdge where
  caller : Key
  callee : Key
  sites : List Span
  deriving DecidableEq

/-- The calls between functions, in a graph of type `γ`. -/
structure CallGraph (γ : Type) where
  graph : γ
  /-- The index of the node of each function. -/
  indices : Dict Key Nat := {}

namespace CallGraph

open IndexedGraph

variable {γ : Type} [IndexedGraph γ Key (List Span)]

def empty : CallGraph γ := { graph := IndexedGraph.empty }

instance : Inhabited (CallGraph γ) := ⟨empty⟩

/-- The index of the node of a function; the node is added if there is none. -/
def node (g : CallGraph γ) (f : Key) : Nat × CallGraph γ :=
  match g.indices.get? f with
  | some i => (i, g)
  | none =>
    let (i, graph) := addNode g.graph f
    (i, { graph, indices := g.indices.put f i })

def addFunction (g : CallGraph γ) (f : Key) : CallGraph γ := (g.node f).2

/-- Add a call between the functions of two nodes. The first call adds an arc. -/
def addCall (g : CallGraph γ) (i j : Nat) (site : Span) : CallGraph γ :=
  match findArc? g.graph i j with
  | some k => { g with graph := relabel g.graph k (· ++ [site]) }
  | none => { g with graph := addArc g.graph i j [site] }

/-- Record one call. -/
def record (g : CallGraph γ) (caller callee : Key) (site : Span) : CallGraph γ :=
  let (i, g) := g.node caller
  let (j, g) := g.node callee
  g.addCall i j site

/-- The calls of a function, callee by callee in the order of their first calls. -/
def callees (g : CallGraph γ) (caller : Key) : List CallEdge :=
  match g.indices.get? caller with
  | none => []
  | some i =>
    (Arc.sortByIndex (outgoing g.graph i)).filterMap fun x =>
      (node? g.graph x.1.target).map fun callee => ⟨caller, callee, x.1.label⟩

/-- The functions that a function calls. -/
def successors (g : CallGraph γ) (caller : Key) : List Key :=
  match g.indices.get? caller with
  | none => []
  | some i => (neighbors g.graph i).filterMap (node? g.graph)

/-- The places of the calls from one function to another, in order. -/
def sites? (g : CallGraph γ) (caller callee : Key) : Option (List Span) := do
  let i ← g.indices.get? caller
  let j ← g.indices.get? callee
  let k ← findArc? g.graph i j
  label? g.graph k

def hasEdge (g : CallGraph γ) (caller callee : Key) : Bool := (g.sites? caller callee).isSome

def contains (g : CallGraph γ) (f : Key) : Bool := g.indices.contains f

def functions (g : CallGraph γ) : List Key := nodes g.graph

def functionCount (g : CallGraph γ) : Nat := nodeCount g.graph

/-- The number of pairs of functions of which the first calls the second. -/
def edgeCount (g : CallGraph γ) : Nat := arcCount g.graph

/-- A chain of calls, possibly empty, leads from one function to another. -/
def reaches (g : CallGraph γ) (source target : Key) : Bool :=
  search g.successors target g.functions [source]

end CallGraph

/-- The calls between the functions of a script. -/
abbrev Calls := CallGraph (ListGraph Key (List Span))

end Stackless
