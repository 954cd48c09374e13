import Mathlib.Data.Finset.Card
import Stackless.Proofs.CallLog

/-!
# Histories of recorded calls

Functions are made known and calls are recorded in any order, each of them any number of times.
`CallGraph.Logs` says how the call graph that comes about is read off that history: the edges are
those of its log, and the functions are the ones it mentions. Every entry keeps this
(`CallGraph.Logs.enter`), so every question that can be put to the graph is answered by the history
alone (`CallGraph.ofHistory_reads_history`), in whatever way the graph is represented.
-/

namespace Stackless

/-- One entry: a function is made known, or a call is recorded. -/
inductive CallEntry where
  | function (f : Key)
  | call (c : CallRecord)

namespace CallEntry

def record? : CallEntry → Option CallRecord
  | .function _ => none
  | .call c => some c

/-- The functions that an entry mentions. -/
def functions : CallEntry → List Key
  | .function f => [f]
  | .call c => [c.caller, c.callee]

end CallEntry

/-- Entries in the order in which they were made. -/
abbrev CallHistory := List CallEntry

namespace CallHistory

def log (history : CallHistory) : CallLog := history.filterMap CallEntry.record?

def mentioned (history : CallHistory) : List Key := history.flatMap CallEntry.functions

theorem log_function (history : CallHistory) (f : Key) :
    CallHistory.log (history ++ [.function f]) = history.log := by
  rw [log, List.filterMap_append]
  exact List.append_nil _

theorem log_call (history : CallHistory) (c : CallRecord) :
    CallHistory.log (history ++ [.call c]) = history.log ++ [c] := by
  rw [log, List.filterMap_append]
  rfl

theorem mem_mentioned_concat {f : Key} {e : CallEntry} {history : CallHistory} :
    f ∈ CallHistory.mentioned (history ++ [e]) ↔ f ∈ history.mentioned ∨ f ∈ e.functions := by
  simp [mentioned]

end CallHistory

/-! ## What a log answers -/

namespace CallLog

variable {log : CallLog} {f g : Key}

/-- The position of the first call from `f` to `g`. -/
def firstCall (log : CallLog) (f g : Key) : Nat :=
  log.findIdx fun c => c.caller = f ∧ c.callee = g

theorem firstCall_lt (h : log.HasCall f g) : log.firstCall f g < log.length := by
  obtain ⟨c, hc, hfg⟩ := h
  exact List.findIdx_lt_length_of_exists ⟨c, hc, by simpa using hfg⟩

theorem firstCall_concat_of_hasCall (h : log.HasCall f g) (c : CallRecord) :
    CallLog.firstCall (log ++ [c]) f g = log.firstCall f g := by
  rw [firstCall, List.findIdx_append]
  exact if_pos (firstCall_lt h)

theorem firstCall_concat_self (h : ¬log.HasCall f g) (site : Span) :
    CallLog.firstCall (log ++ [⟨f, g, site⟩]) f g = log.length := by
  have hend : log.firstCall f g = log.length := by
    refine List.findIdx_eq_length_of_false fun c hc => decide_eq_false fun hfg => ?_
    exact h ⟨c, hc, hfg⟩
  have hnot : ¬log.firstCall f g < log.length := by omega
  rw [firstCall, List.findIdx_append]
  exact (if_neg hnot).trans (by simp)

/-- The callees of a function stand in the order of their first calls. -/
theorem callees_ordered (log : CallLog) (f : Key) :
    (log.callees f).Pairwise fun g g' => log.firstCall f g < log.firstCall f g' := by
  induction log using List.reverseRecOn with
  | nil => exact .nil
  | append_singleton log c ih =>
    have hold : (CallLog.callees log f).Pairwise fun g g' =>
        CallLog.firstCall (log ++ [c]) f g < CallLog.firstCall (log ++ [c]) f g' := by
      refine ih.imp_of_mem fun {g g'} hg hg' hlt => ?_
      rw [firstCall_concat_of_hasCall (mem_callees.mp hg),
        firstCall_concat_of_hasCall (mem_callees.mp hg')]
      exact hlt
    obtain ⟨f', g, site⟩ := c
    by_cases hf : f' = f
    · subst hf
      rw [callees_concat]
      by_cases hg : CallLog.HasCall log f' g
      · rw [eraseDups_concat_of_mem (List.mem_eraseDups.mp (mem_callees.mpr hg))]
        exact hold
      · rw [eraseDups_concat_of_not_mem fun h => hg (mem_callees.mp (List.mem_eraseDups.mpr h))]
        refine List.pairwise_append.mpr ⟨hold, List.pairwise_singleton .., ?_⟩
        intro g' hg' _ hlast
        rw [List.mem_singleton.mp hlast, firstCall_concat_self hg]
        have hcall := mem_callees.mp hg'
        rw [firstCall_concat_of_hasCall hcall]
        exact firstCall_lt hcall
    · rw [callees_concat_of_ne hf]
      exact hold

theorem nodup_callees (log : CallLog) (f : Key) : (log.callees f).Nodup := nodup_eraseDups _

theorem nodup_pairs (log : CallLog) : log.pairs.Nodup := nodup_eraseDups _

end CallLog

/-! ## What the calls answer -/

namespace CallGraph

variable {γ : Type} [IndexedGraph γ Key (List Span)] {calls : CallGraph γ} {log : CallLog}
  {history : CallHistory}

/-- The calls are those of the history, and so are the functions. -/
structure Logs (calls : CallGraph γ) (history : CallHistory) : Prop where
  records : calls.Records history.log
  functions : ∀ f, f ∈ calls.functions ↔ f ∈ history.mentioned

/-- Make one entry. -/
def enter (calls : CallGraph γ) : CallEntry → CallGraph γ
  | .function f => calls.addFunction f
  | .call c => calls.record c.caller c.callee c.site

/-- The calls after all entries of a history, of which there were none before. -/
def ofHistory (γ : Type) [IndexedGraph γ Key (List Span)] (history : CallHistory) : CallGraph γ :=
  history.foldl enter empty

variable [LawfulIndexedGraph γ]

theorem Records.edgeCount (R : calls.Records log) :
    calls.edgeCount = (log.map fun c => (c.caller, c.callee)).toFinset.card := by
  have hset : log.pairs.toFinset = (log.map fun c => (c.caller, c.callee)).toFinset := by
    ext p
    simp only [List.mem_toFinset, CallLog.pairs, List.mem_eraseDups]
  rw [R.sound.edgeCount, R.edges, CallLog.edges, List.length_map, ← hset,
    List.toFinset_card_of_nodup log.nodup_pairs]

theorem Logs.enter (L : calls.Logs history) (e : CallEntry) :
    (calls.enter e).Logs (history ++ [e]) := by
  cases e with
  | function f =>
    refine ⟨?_, fun f' => ?_⟩
    · rw [CallHistory.log_function]
      exact L.records.addFunction f
    · rw [CallGraph.enter, L.records.sound.mem_addFunction, L.functions,
        CallHistory.mem_mentioned_concat]
      simp [CallEntry.functions]
  | call c =>
    refine ⟨?_, fun f' => ?_⟩
    · rw [CallHistory.log_call]
      exact L.records.record c.caller c.callee c.site
    · rw [CallGraph.enter, L.records.sound.mem_record, L.functions,
        CallHistory.mem_mentioned_concat]
      simp [CallEntry.functions]

theorem logs_ofHistory (history : CallHistory) : (ofHistory γ history).Logs history := by
  induction history using List.reverseRecOn with
  | nil =>
    have hfunctions : (empty : CallGraph γ).functions = [] := LawfulIndexedGraph.nodes_empty
    refine ⟨.empty, fun f => ?_⟩
    rw [ofHistory, List.foldl_nil, hfunctions]
    rfl
  | append_singleton history e ih =>
    rw [ofHistory, List.foldl_append]
    exact ih.enter e

theorem Logs.functionCount (L : calls.Logs history) :
    calls.functionCount = history.mentioned.toFinset.card := by
  have hset : calls.functions.toFinset = history.mentioned.toFinset := by
    ext f
    rw [List.mem_toFinset, List.mem_toFinset, L.functions]
  rw [functionCount_eq, ← hset, List.toFinset_card_of_nodup L.records.sound.nodup]

/-- What the calls answer after any history of entries, for every lawful representation of the
graph that they are kept in. -/
theorem ofHistory_reads_history (history : CallHistory) (a b : Key) :
    (ofHistory γ history).sites? a b =
      (if history.log.sites a b = [] then none else some (history.log.sites a b)) ∧
    ((ofHistory γ history).hasEdge a b = true ↔ history.log.sites a b ≠ []) ∧
    (ofHistory γ history).callees a =
      (history.log.callees a).map (fun g => ⟨a, g, history.log.sites a g⟩) ∧
    (history.log.callees a).Nodup ∧
    (history.log.callees a).Pairwise
      (fun g g' => history.log.firstCall a g < history.log.firstCall a g') ∧
    (∀ g, g ∈ history.log.callees a ↔ history.log.sites a g ≠ []) ∧
    ((ofHistory γ history).successors a).Nodup ∧
    (∀ g, g ∈ (ofHistory γ history).successors a ↔ g ∈ history.log.callees a) ∧
    ((ofHistory γ history).contains a = true ↔ a ∈ history.mentioned) ∧
    (ofHistory γ history).edgeCount =
      (history.log.map fun c => (c.caller, c.callee)).toFinset.card ∧
    (ofHistory γ history).functionCount = history.mentioned.toFinset.card := by
  have L := logs_ofHistory (γ := γ) history
  have hnodup := history.log.nodup_callees a
  have hsuccessors := L.records.successors a
  refine ⟨L.records.sites? a b, ?_, L.records.callees a, hnodup, history.log.callees_ordered a,
    fun g => ?_, hsuccessors.nodup_iff.mpr hnodup, fun g => hsuccessors.mem_iff, ?_,
    L.records.edgeCount, L.functionCount⟩
  · rw [L.records.hasEdge_iff, CallLog.sites_ne_nil]
  · rw [CallLog.mem_callees, CallLog.sites_ne_nil]
  · rw [L.records.sound.contains_iff, L.functions]

/-- Two functions call others in turn, one of them also itself, and a third one calls nothing. -/
def interleaved : CallHistory :=
  [.function ⟨9⟩, .call ⟨⟨1⟩, ⟨3⟩, .point 1 1⟩, .call ⟨⟨2⟩, ⟨2⟩, .point 2 1⟩,
   .call ⟨⟨1⟩, ⟨2⟩, .point 3 1⟩, .call ⟨⟨1⟩, ⟨3⟩, .point 4 1⟩]

theorem ofHistory_reads_history_interleaved :
    let calls : Calls := ofHistory _ interleaved
    calls.sites? ⟨1⟩ ⟨3⟩ = some [.point 1 1, .point 4 1] ∧
    calls.callees ⟨1⟩ = [⟨⟨1⟩, ⟨3⟩, [.point 1 1, .point 4 1]⟩, ⟨⟨1⟩, ⟨2⟩, [.point 3 1]⟩] ∧
    calls.contains ⟨9⟩ = true ∧ calls.edgeCount = 3 ∧ calls.functionCount = 4 := by
  obtain ⟨hsites, _, hcallees, _⟩ :=
    ofHistory_reads_history (γ := ListGraph Key (List Span)) interleaved ⟨1⟩ ⟨3⟩
  obtain ⟨_, _, _, _, _, _, _, _, hcontains, hedges, hfunctions⟩ :=
    ofHistory_reads_history (γ := ListGraph Key (List Span)) interleaved ⟨9⟩ ⟨9⟩
  refine ⟨hsites.trans (by decide), hcallees.trans (by decide), hcontains.mpr (by decide),
    hedges.trans (by decide), hfunctions.trans (by decide)⟩

end CallGraph

end Stackless
