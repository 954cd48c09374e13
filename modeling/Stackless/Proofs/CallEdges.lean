import Mathlib.Data.List.Nodup
import Mathlib.Data.List.Sort
import Stackless.Symbols.Calls

/-!
# The edges of a call graph

A call graph is spread over the index from keys to nodes, the nodes and arcs, and the labels of the
arcs. `CallGraph.edges` reads it as one list, with the edges in the order of their first calls, and
`CallGraph.Sound` says that its parts fit together. Every operation keeps them so, and the list tells
what it does: a recorded call adds its place to the edge of its pair or a new edge at the end
(`CallGraph.Sound.edges_record`), and the calls of a function are its part of the list
(`CallGraph.Sound.callees`), since the arcs are put in the order of their indices. All this holds for
every lawful representation of graphs.
-/

namespace Stackless

/-! ## Arcs in the order of their indices -/

namespace Arc

variable {β : Type}

theorem insertByIndex_eq (x : Arc β × Nat) (ys : List (Arc β × Nat)) :
    insertByIndex x ys = ys.orderedInsert (fun x y => x.2 ≤ y.2) x := by
  induction ys with
  | nil => rfl
  | cons y ys ih => rw [insertByIndex, ih, List.orderedInsert_cons]

theorem sortByIndex_eq (xs : List (Arc β × Nat)) :
    sortByIndex xs = xs.insertionSort fun x y => x.2 ≤ y.2 := by
  induction xs with
  | nil => rfl
  | cons x xs ih => rw [sortByIndex, ih, insertByIndex_eq, List.insertionSort_cons]

/-- Arcs in any order are put back in the order of their indices. -/
theorem sortByIndex_of_perm {xs ys : List (Arc β × Nat)} (h : xs.Perm ys)
    (hys : ys.Pairwise (·.2 < ·.2)) : sortByIndex xs = ys := by
  have hperm : (sortByIndex xs).Perm ys := by
    rw [sortByIndex_eq]
    exact (List.perm_insertionSort ..).trans h
  have hsorted : (sortByIndex xs).Pairwise (·.2 ≤ ·.2) := by
    rw [sortByIndex_eq]
    exact List.pairwise_insertionSort ..
  have hnodup : (ys.map (·.2)).Nodup := (List.pairwise_map.mpr hys).imp Nat.ne_of_lt
  refine hperm.eq_of_pairwise (fun x y hx hy hxy hyx => ?_) hsorted (hys.imp Nat.le_of_lt)
  exact List.inj_on_of_nodup_map hnodup (hperm.mem_iff.mp hx) hy (Nat.le_antisymm hxy hyx)

theorem zipIdx_increasing (arcs : List (Arc β)) : arcs.zipIdx.Pairwise (·.2 < ·.2) := by
  rw [← List.pairwise_map (f := Prod.snd) (R := (· < ·)), List.zipIdx_map_snd]
  exact List.pairwise_lt_range'

end Arc

theorem getElem?_concat_eq_some {α : Type} {l : List α} {a b : α} {i : Nat} :
    (l ++ [a])[i]? = some b ↔ l[i]? = some b ∨ i = l.length ∧ a = b := by
  rw [List.getElem?_append]
  split
  · rename_i hi
    exact (or_iff_left fun h => Nat.ne_of_lt hi h.1).symm
  · rename_i hi
    rw [List.getElem?_eq_none (Nat.le_of_not_lt hi), List.getElem?_singleton]
    split <;> simp <;> omega

/-- An entry that is known by its index is the only one with its key. -/
theorem modify_eq_map {α κ : Type} [DecidableEq κ] {key : α → κ} {l : List α} {k : Nat} {a : α}
    (hk : l[k]? = some a) (hnodup : (l.map key).Nodup) (change : α → α) :
    l.modify k change = l.map fun b => if key b = key a then change b else b := by
  refine List.ext_getElem? fun n => ?_
  rw [List.getElem?_modify, List.getElem?_map]
  cases hn : l[n]? with
  | none => rfl
  | some b =>
    have hkey : key b = key a ↔ k = n := by
      have hlt : k < (l.map key).length := by
        rw [List.length_map]
        exact (List.getElem?_eq_some_iff.mp hk).1
      rw [← List.getElem?_inj hlt hnodup, List.getElem?_map, List.getElem?_map, hk, hn]
      simp [eq_comm]
    simp only [Option.map_eq_map, Option.map_some, hkey]

/-! ## The list of edges -/

namespace CallEdge

/-- The edge is the one from one function to another. -/
def Joins (caller callee : Key) (e : CallEdge) : Prop := e.caller = caller ∧ e.callee = callee

instance (caller callee : Key) : DecidablePred (Joins caller callee) :=
  fun _ => inferInstanceAs (Decidable (_ ∧ _))

/-- Add a place to the edge of a pair, which is appended if there is none. -/
def addSite (caller callee : Key) (site : Span) (edges : List CallEdge) : List CallEdge :=
  if ∃ e ∈ edges, e.Joins caller callee then
    edges.map fun e => if e.Joins caller callee then { e with sites := e.sites ++ [site] } else e
  else edges ++ [⟨caller, callee, [site]⟩]

end CallEdge

namespace CallGraph

open IndexedGraph LawfulIndexedGraph

variable {γ : Type} [IndexedGraph γ Key (List Span)] {g : CallGraph γ}

/-- The edge that an arc stands for. -/
def edge? (g : CallGraph γ) (a : Arc (List Span)) : Option CallEdge :=
  (node? g.graph a.source).bind fun caller =>
    (node? g.graph a.target).map fun callee => ⟨caller, callee, a.label⟩

/-- The edges in the order of their first calls. -/
def edges (g : CallGraph γ) : List CallEdge := (arcs g.graph).filterMap g.edge?

/-- The index finds the nodes of exactly the functions in the graph, and there is at most one arc
from one node to another. -/
structure Sound (g : CallGraph γ) : Prop where
  indices : ∀ f i, g.indices.get? f = some i ↔ g.functions[i]? = some f
  ends : ∀ a ∈ arcs g.graph, a.source < g.functions.length ∧ a.target < g.functions.length
  distinct : ((arcs g.graph).map fun a => (a.source, a.target)).Nodup

variable {f caller callee : Key} {i j : Nat} {a : Arc (List Span)} {e : CallEdge}

namespace Sound

theorem mem_functions (S : g.Sound) : f ∈ g.functions ↔ ∃ i, g.indices.get? f = some i := by
  simp only [S.indices, List.mem_iff_getElem?]

theorem contains_iff (S : g.Sound) : g.contains f = true ↔ f ∈ g.functions := by
  rw [contains, Dict.contains, Option.isSome_iff_exists, S.mem_functions]

theorem get?_eq_none (S : g.Sound) : g.indices.get? f = none ↔ f ∉ g.functions := by
  rw [S.mem_functions, Option.eq_none_iff_forall_ne_some, not_exists]

/-- A function has one node. -/
theorem index_unique (S : g.Sound) (hi : g.functions[i]? = some f)
    (hj : g.functions[j]? = some f) : i = j :=
  Option.some.inj (((S.indices f i).mpr hi).symm.trans ((S.indices f j).mpr hj))

theorem nodup (S : g.Sound) : g.functions.Nodup := by
  refine List.nodup_iff_getElem?_ne_getElem?.mpr fun i j hij hj heq => ?_
  rw [List.getElem?_eq_getElem hj] at heq
  exact Nat.ne_of_lt hij (S.index_unique heq (List.getElem?_eq_getElem hj))

/-- A function that is new gets the next index. -/
theorem addNode (S : g.Sound) (hnew : f ∉ g.functions) {g' : CallGraph γ}
    (hindices : g'.indices = g.indices.put f g.functions.length)
    (hfunctions : g'.functions = g.functions ++ [f]) (harcs : arcs g'.graph = arcs g.graph) :
    g'.Sound where
  indices f' i := by
    rw [hindices, hfunctions, Dict.get?_put, getElem?_concat_eq_some]
    by_cases hf : f = f'
    · subst hf
      have hold : g.functions[i]? ≠ some f := fun hi => hnew (List.mem_of_getElem? hi)
      simp [hold, eq_comm]
    · simp [hf, S.indices]
  ends a ha := by
    rw [harcs] at ha
    rw [hfunctions, List.length_append]
    obtain ⟨hsource, htarget⟩ := S.ends a ha
    exact ⟨Nat.lt_add_right _ hsource, Nat.lt_add_right _ htarget⟩
  distinct := by
    rw [harcs]
    exact S.distinct

end Sound

section
variable [LawfulIndexedGraph γ]

theorem node?_graph (g : CallGraph γ) (i : Nat) : node? g.graph i = g.functions[i]? := node?_eq ..

theorem edge?_eq_some : g.edge? a = some e ↔ g.functions[a.source]? = some e.caller ∧
    g.functions[a.target]? = some e.callee ∧ a.label = e.sites := by
  obtain ⟨caller, callee, sites⟩ := e
  simp only [edge?, node?_graph, Option.bind_eq_some_iff, Option.map_eq_some_iff,
    CallEdge.mk.injEq]
  constructor
  · rintro ⟨_, hsource, _, htarget, rfl, rfl, hlabel⟩
    exact ⟨hsource, htarget, hlabel⟩
  · rintro ⟨hsource, htarget, hlabel⟩
    exact ⟨_, hsource, _, htarget, rfl, rfl, hlabel⟩

theorem edge?_congr {g' : CallGraph γ} (h : g'.functions = g.functions) : g'.edge? = g.edge? := by
  funext a
  simp only [edge?, node?_graph, h]

namespace Sound

theorem empty : (empty : CallGraph γ).Sound := by
  have hfunctions : (CallGraph.empty : CallGraph γ).functions = [] := nodes_empty
  have harcs : arcs (CallGraph.empty : CallGraph γ).graph = [] := arcs_empty
  refine ⟨fun f i => ?_, ?_, ?_⟩
  · rw [hfunctions]
    exact iff_of_false nofun nofun
  · simp [harcs]
  · simp [harcs]

/-- Every arc stands for an edge. -/
theorem exists_edge (S : g.Sound) (ha : a ∈ arcs g.graph) : ∃ e, g.edge? a = some e := by
  obtain ⟨hsource, htarget⟩ := S.ends a ha
  refine ⟨⟨g.functions[a.source], g.functions[a.target], a.label⟩, edge?_eq_some.mpr ⟨?_, ?_, rfl⟩⟩
  · exact List.getElem?_eq_getElem hsource
  · exact List.getElem?_eq_getElem htarget

theorem joins_iff (S : g.Sound) (hi : g.functions[i]? = some caller)
    (hj : g.functions[j]? = some callee) (he : g.edge? a = some e) :
    e.Joins caller callee ↔ a.source = i ∧ a.target = j := by
  obtain ⟨hsource, htarget, _⟩ := edge?_eq_some.mp he
  constructor
  · rintro ⟨rfl, rfl⟩
    exact ⟨S.index_unique hsource hi, S.index_unique htarget hj⟩
  · rintro ⟨rfl, rfl⟩
    exact ⟨Option.some.inj (hsource.symm.trans hi), Option.some.inj (htarget.symm.trans hj)⟩

/-! ## Adding functions -/

/-- The node of a function is found or added. -/
theorem node (S : g.Sound) (f : Key) : (g.node f).2.Sound ∧
    (g.node f).2.functions[(g.node f).1]? = some f ∧
    arcs (g.node f).2.graph = arcs g.graph ∧
    (g.node f).2.functions = if f ∈ g.functions then g.functions else g.functions ++ [f] := by
  rw [CallGraph.node]
  cases hindex : g.indices.get? f with
  | some i =>
    have hi := (S.indices f i).mp hindex
    exact ⟨S, hi, rfl, (if_pos (List.mem_of_getElem? hi)).symm⟩
  | none =>
    have hnew : f ∉ g.functions := S.get?_eq_none.mp hindex
    have hlast : (IndexedGraph.addNode g.graph f).1 = g.functions.length := addNode_index ..
    have hfunctions : nodes (IndexedGraph.addNode g.graph f).2 = g.functions ++ [f] :=
      nodes_addNode ..
    have harcs : arcs (IndexedGraph.addNode g.graph f).2 = arcs g.graph := arcs_addNode ..
    have hfound : (nodes (IndexedGraph.addNode g.graph f).2)[(IndexedGraph.addNode g.graph f).1]? =
        some f := by
      rw [hfunctions, hlast, List.getElem?_concat_length]
    exact ⟨S.addNode hnew (congrArg (g.indices.put f) hlast) hfunctions harcs, hfound, harcs,
      hfunctions.trans (if_neg hnew).symm⟩

theorem addFunction (S : g.Sound) (f : Key) : (g.addFunction f).Sound := (S.node f).1

theorem functions_addFunction (S : g.Sound) (f : Key) : (g.addFunction f).functions =
    if f ∈ g.functions then g.functions else g.functions ++ [f] := (S.node f).2.2.2

/-- A node keeps its function. -/
theorem getElem?_node (S : g.Sound) (f : Key) (hi : i < g.functions.length) :
    (g.node f).2.functions[i]? = g.functions[i]? := by
  rw [(S.node f).2.2.2]
  split
  · rfl
  · exact List.getElem?_append_left hi

theorem edges_addFunction (S : g.Sound) (f : Key) : (g.addFunction f).edges = g.edges := by
  rw [edges, edges, CallGraph.addFunction, (S.node f).2.2.1]
  refine List.filterMap_congr fun a ha => ?_
  obtain ⟨hsource, htarget⟩ := S.ends a ha
  simp only [edge?, node?_graph, S.getElem?_node f hsource, S.getElem?_node f htarget]

/-! ## Adding calls -/

/-- The first call between two functions adds an edge. -/
theorem addArc (S : g.Sound) (hi : g.functions[i]? = some caller)
    (hj : g.functions[j]? = some callee) (hnone : ∀ a ∈ arcs g.graph, ¬(a.source = i ∧ a.target = j))
    {g' : CallGraph γ} (hindices : g'.indices = g.indices) (hfunctions : g'.functions = g.functions)
    {site : Span} (harcs : arcs g'.graph = arcs g.graph ++ [⟨i, j, [site]⟩]) :
    g'.Sound ∧ g'.edges = CallEdge.addSite caller callee site g.edges := by
  refine ⟨⟨?_, fun a ha => ?_, ?_⟩, ?_⟩
  · rw [hindices, hfunctions]
    exact S.indices
  · rw [harcs, List.mem_append, List.mem_singleton] at ha
    rw [hfunctions]
    rcases ha with ha | rfl
    · exact S.ends a ha
    · exact ⟨(List.getElem?_eq_some_iff.mp hi).1, (List.getElem?_eq_some_iff.mp hj).1⟩
  · rw [harcs, List.map_append, List.nodup_append]
    refine ⟨S.distinct, List.nodup_singleton _, fun p hp q hq => ?_⟩
    obtain ⟨a, ha, rfl⟩ := List.mem_map.mp hp
    rintro rfl
    obtain ⟨hsource, htarget⟩ := Prod.mk.inj (List.mem_singleton.mp hq)
    exact hnone a ha ⟨hsource, htarget⟩
  · have hnew : ¬∃ e ∈ g.edges, e.Joins caller callee := by
      rintro ⟨e, he, hjoins⟩
      obtain ⟨a, ha, hedge⟩ := List.mem_filterMap.mp he
      exact hnone a ha ((S.joins_iff hi hj hedge).mp hjoins)
    have hlast : g.edge? ⟨i, j, [site]⟩ = some ⟨caller, callee, [site]⟩ :=
      edge?_eq_some.mpr ⟨hi, hj, rfl⟩
    rw [CallEdge.addSite, if_neg hnew, edges, edge?_congr hfunctions, harcs,
      List.filterMap_append, List.filterMap_cons_some hlast]
    rfl

/-- A later call adds its place to the edge. -/
theorem relabel (S : g.Sound) (hi : g.functions[a.source]? = some caller)
    (hj : g.functions[a.target]? = some callee) {k : Nat} (hk : (arcs g.graph)[k]? = some a)
    {g' : CallGraph γ} (hindices : g'.indices = g.indices) (hfunctions : g'.functions = g.functions)
    {site : Span} (harcs : arcs g'.graph =
      (arcs g.graph).modify k fun b => { b with label := b.label ++ [site] }) :
    g'.Sound ∧ g'.edges = CallEdge.addSite caller callee site g.edges := by
  rw [modify_eq_map hk S.distinct] at harcs
  refine ⟨⟨?_, fun b hb => ?_, ?_⟩, ?_⟩
  · rw [hindices, hfunctions]
    exact S.indices
  · rw [harcs] at hb
    obtain ⟨b', hb', rfl⟩ := List.mem_map.mp hb
    rw [hfunctions]
    split <;> exact S.ends b' hb'
  · rw [harcs, List.map_map]
    refine (congrArg List.Nodup (List.map_congr_left fun b _ => ?_)).mpr S.distinct
    simp only [Function.comp_apply]
    split <;> rfl
  · have hmem := List.mem_of_getElem? hk
    have hold : ∃ e ∈ g.edges, e.Joins caller callee := by
      obtain ⟨e, he⟩ := S.exists_edge hmem
      exact ⟨e, List.mem_filterMap.mpr ⟨a, hmem, he⟩, (S.joins_iff hi hj he).mpr ⟨rfl, rfl⟩⟩
    rw [CallEdge.addSite, if_pos hold, edges, edge?_congr hfunctions, harcs, List.filterMap_map,
      edges, List.map_filterMap]
    refine List.filterMap_congr fun b hb => ?_
    obtain ⟨e, he⟩ := S.exists_edge hb
    obtain ⟨hsource, htarget, hlabel⟩ := edge?_eq_some.mp he
    simp only [Function.comp_apply, Prod.mk.injEq, he, Option.map_some, S.joins_iff hi hj he]
    split
    · exact edge?_eq_some.mpr ⟨hsource, htarget, congrArg (· ++ [site]) hlabel⟩
    · exact he

theorem addCall (S : g.Sound) (hi : g.functions[i]? = some caller)
    (hj : g.functions[j]? = some callee) (site : Span) :
    (g.addCall i j site).functions = g.functions ∧ (g.addCall i j site).Sound ∧
      (g.addCall i j site).edges = CallEdge.addSite caller callee site g.edges := by
  rw [CallGraph.addCall]
  cases hfind : findArc? g.graph i j with
  | none =>
    have hilt := (List.getElem?_eq_some_iff.mp hi).1
    have hjlt := (List.getElem?_eq_some_iff.mp hj).1
    have hfunctions := nodes_addArc g.graph [site] hilt hjlt
    refine ⟨hfunctions, S.addArc hi hj (findArc?_eq_none hfind) ?_ ?_ ?_⟩
    · rfl
    · exact hfunctions
    · exact arcs_addArc g.graph [site] hilt hjlt
  | some k =>
    obtain ⟨a, hk, rfl, rfl⟩ := findArc?_eq_some hfind
    have hklt := (List.getElem?_eq_some_iff.mp hk).1
    have hfunctions := nodes_relabel g.graph (· ++ [site]) hklt
    refine ⟨hfunctions, S.relabel hi hj hk ?_ ?_ ?_⟩
    · rfl
    · exact hfunctions
    · exact arcs_relabel g.graph _ hklt

/-- A call is recorded between the nodes of two functions, which are added first if need be. -/
theorem record_eq (S : g.Sound) (caller callee : Key) (site : Span) :
    (g.record caller callee site).functions =
      ((g.addFunction caller).addFunction callee).functions ∧
    (g.record caller callee site).Sound ∧
    (g.record caller callee site).edges = CallEdge.addSite caller callee site g.edges := by
  obtain ⟨S₁, hi, _⟩ := S.node caller
  obtain ⟨S₂, hj, _⟩ := S₁.node callee
  have hi₂ := (S₁.getElem?_node callee (List.getElem?_eq_some_iff.mp hi).1).trans hi
  obtain ⟨hfunctions, S₃, hedges⟩ := S₂.addCall hi₂ hj site
  refine ⟨hfunctions, S₃, hedges.trans ?_⟩
  exact congrArg _ (((S.addFunction caller).edges_addFunction callee).trans
    (S.edges_addFunction caller))

theorem record (S : g.Sound) (caller callee : Key) (site : Span) :
    (g.record caller callee site).Sound := (S.record_eq caller callee site).2.1

theorem functions_record (S : g.Sound) (caller callee : Key) (site : Span) :
    (g.record caller callee site).functions =
      ((g.addFunction caller).addFunction callee).functions := (S.record_eq caller callee site).1

theorem edges_record (S : g.Sound) (caller callee : Key) (site : Span) :
    (g.record caller callee site).edges = CallEdge.addSite caller callee site g.edges :=
  (S.record_eq caller callee site).2.2

end Sound

/-! ## Answers -/

/-- Whatever order the arcs from a node are found in, their indices tell the order of addition. -/
theorem map_fst_sortByIndex (graph : γ) (i : Nat) :
    (Arc.sortByIndex (outgoing graph i)).map (·.1) = (arcs graph).filter (·.source = i) := by
  have hincreasing := (Arc.zipIdx_increasing (arcs graph)).filter (·.1.source = i)
  rw [Arc.sortByIndex_of_perm (outgoing_perm graph i) hincreasing, Arc.map_fst_filter_zipIdx]

theorem callees_eq_filterMap (hindex : g.indices.get? f = some i) :
    g.callees f = ((arcs g.graph).filter (·.source = i)).filterMap fun a =>
      (node? g.graph a.target).map fun callee => ⟨f, callee, a.label⟩ := by
  rw [← map_fst_sortByIndex, List.filterMap_map, CallGraph.callees, hindex]
  rfl

theorem successors_perm (g : CallGraph γ) (f : Key) :
    (g.successors f).Perm ((g.callees f).map (·.callee)) := by
  cases hindex : g.indices.get? f with
  | none =>
    rw [CallGraph.successors, CallGraph.callees, hindex]
    exact .nil
  | some i =>
    rw [callees_eq_filterMap hindex, List.map_filterMap, CallGraph.successors, hindex]
    refine ((neighbors_perm g.graph i).filterMap _).trans (.of_eq ?_)
    rw [List.filterMap_map]
    refine List.filterMap_congr fun a _ => ?_
    rw [Option.map_map]
    exact Option.map_id.symm ▸ rfl

namespace Sound

/-- The calls of a function are found in the order of their first calls. -/
theorem callees (S : g.Sound) (f : Key) : g.callees f = g.edges.filter (·.caller = f) := by
  cases hindex : g.indices.get? f with
  | none =>
    have hnone : g.edges.filter (·.caller = f) = [] := by
      refine List.filter_eq_nil_iff.mpr fun e he hcaller => S.get?_eq_none.mp hindex ?_
      obtain ⟨a, _, hedge⟩ := List.mem_filterMap.mp he
      exact of_decide_eq_true hcaller ▸ List.mem_of_getElem? (edge?_eq_some.mp hedge).1
    rw [hnone, CallGraph.callees, hindex]
  | some i =>
    have hi := (S.indices f i).mp hindex
    rw [callees_eq_filterMap hindex, edges, List.filter_filterMap, List.filterMap_filter]
    refine List.filterMap_congr fun a ha => ?_
    obtain ⟨e, he⟩ := S.exists_edge ha
    obtain ⟨hsource, htarget, hlabel⟩ := edge?_eq_some.mp he
    rw [he, node?_graph, htarget, hlabel, Option.map_some, Option.filter_some]
    by_cases hcaller : e.caller = f
    · subst hcaller
      simp [S.index_unique hsource hi]
    · have hne : a.source ≠ i := by
        rintro rfl
        exact hcaller (Option.some.inj (hsource.symm.trans hi))
      simp [hcaller, hne]

/-- The places of the calls between two functions are those of their edge. -/
theorem sites?_eq_some (S : g.Sound) {sites : List Span} :
    g.sites? caller callee = some sites ↔ ⟨caller, callee, sites⟩ ∈ g.edges := by
  simp only [CallGraph.sites?, Option.bind_eq_bind, Option.bind_eq_some_iff, S.indices, label?_eq,
    Option.map_eq_some_iff]
  constructor
  · rintro ⟨i, hi, j, hj, k, hfind, b, hk, hlabel⟩
    obtain ⟨a, hk', rfl, rfl⟩ := findArc?_eq_some hfind
    cases hk.symm.trans hk'
    exact List.mem_filterMap.mpr ⟨b, List.mem_of_getElem? hk, edge?_eq_some.mpr ⟨hi, hj, hlabel⟩⟩
  · intro he
    obtain ⟨a, ha, hedge⟩ := List.mem_filterMap.mp he
    obtain ⟨hi, hj, hlabel⟩ := edge?_eq_some.mp hedge
    refine ⟨_, hi, _, hj, ?_⟩
    cases hfind : findArc? g.graph a.source a.target with
    | none => exact absurd ⟨rfl, rfl⟩ (findArc?_eq_none hfind a ha)
    | some k =>
      obtain ⟨b, hk, hsource, htarget⟩ := findArc?_eq_some hfind
      have hsame : b = a := List.inj_on_of_nodup_map S.distinct (List.mem_of_getElem? hk) ha
        (Prod.ext hsource htarget)
      exact ⟨k, rfl, b, hk, hsame ▸ hlabel⟩

theorem hasEdge_iff (S : g.Sound) :
    g.hasEdge caller callee = true ↔ ∃ e ∈ g.edges, e.Joins caller callee := by
  rw [hasEdge, Option.isSome_iff_exists]
  simp only [S.sites?_eq_some]
  constructor
  · rintro ⟨sites, he⟩
    exact ⟨_, he, rfl, rfl⟩
  · rintro ⟨e, he, rfl, rfl⟩
    exact ⟨e.sites, he⟩

theorem edgeCount (S : g.Sound) : g.edgeCount = g.edges.length := by
  have hsome : ∀ a ∈ arcs g.graph, (g.edge? a).isSome := by
    intro a ha
    obtain ⟨e, he⟩ := S.exists_edge ha
    exact he ▸ rfl
  rw [CallGraph.edgeCount, arcCount_eq, edges, List.filterMap_length_eq_length.mpr hsome]

end Sound

theorem functionCount_eq (g : CallGraph γ) : g.functionCount = g.functions.length := nodeCount_eq ..

end

end CallGraph

end Stackless
