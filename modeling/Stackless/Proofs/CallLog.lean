import Mathlib.Data.List.Induction
import Mathlib.Logic.Relation
import Stackless.Proofs.CallEdges
import Stackless.Symbols.Table

/-!
# The log of recorded calls

The calls of a symbol table are read here off the log of what was recorded, in the order in which
it was recorded. `CallGraph.Records` ties the two: the edges are the pairs of the log in the order of
their first calls, each with its sites in order (`CallLog.edges`). A search over the successors
that expands nodes of a given list only finds exactly what paths through that list reach
(`search_iff`), so `CallGraph.reaches` decides whether a chain of logged calls leads from one
function to another (`CallGraph.Records.reaches_iff`).

`Symbols.Grown` describes all symbol tables that come about by registering functions, changing
registered ones and recording calls.
-/

namespace Stackless

/-! ## Searching -/

section
variable {α : Type} [DecidableEq α] {next : α → List α} {target a b : α} {unseen stack : List α}

/-- A link from a node that may be expanded. -/
def Expands (next : α → List α) (unseen : List α) (a b : α) : Prop := a ∈ unseen ∧ b ∈ next a

omit [DecidableEq α] in
theorem Expands.mono {unseen' : List α} (hsub : unseen ⊆ unseen')
    (h : Relation.ReflTransGen (Expands next unseen) a b) :
    Relation.ReflTransGen (Expands next unseen') a b :=
  h.lift id fun _ _ hl => ⟨hsub hl.1, hl.2⟩

omit [DecidableEq α] in
theorem Expands.eq_of_not_mem (ha : a ∉ unseen)
    (h : Relation.ReflTransGen (Expands next unseen) a b) : a = b := by
  rcases h.cases_head with h | ⟨c, hc, _⟩
  · exact h
  · exact absurd hc.1 ha

/-- After its last visit to `c` a path avoids `c`. -/
theorem Expands.erase {c : α} (h : Relation.ReflTransGen (Expands next unseen) a b) :
    Relation.ReflTransGen (Expands next (unseen.erase c)) a b ∨
      ∃ d ∈ next c, Relation.ReflTransGen (Expands next (unseen.erase c)) d b := by
  induction h using Relation.ReflTransGen.head_induction_on with
  | refl => exact .inl .refl
  | @head x y hxy _ ih =>
    rcases ih with ih | ih
    · by_cases hx : x = c
      · exact .inr ⟨y, hx ▸ hxy.2, ih⟩
      · exact .inl (ih.head ⟨(List.mem_erase_of_ne hx).mpr hxy.1, hxy.2⟩)
    · exact .inr ih

/-- The search finds what paths through the nodes it may expand reach. -/
theorem search_iff (hnd : unseen.Nodup) : search next target unseen stack = true ↔
    ∃ a ∈ stack, Relation.ReflTransGen (Expands next unseen) a target := by
  induction unseen, stack using search.induct next target with
  | case1 unseen => simp [search]
  | case2 unseen rest =>
    rw [search, if_pos rfl]
    exact ⟨fun _ => ⟨target, List.mem_cons_self, .refl⟩, fun _ => rfl⟩
  | case3 unseen a rest hne hmem ih =>
    rw [search, if_neg hne, if_pos hmem, ih (hnd.erase a)]
    have hgone : a ∉ unseen.erase a := hnd.not_mem_erase
    constructor
    · rintro ⟨b, hb, hpath⟩
      have hpath := Expands.mono List.erase_subset hpath
      rcases List.mem_append.mp hb with hb | hb
      · exact ⟨a, List.mem_cons_self, hpath.head ⟨hmem, hb⟩⟩
      · exact ⟨b, List.mem_cons_of_mem _ hb, hpath⟩
    · rintro ⟨b, hb, hpath⟩
      rcases Expands.erase (c := a) hpath with hpath | ⟨d, hd, hpath⟩
      · rcases List.mem_cons.mp hb with rfl | hb
        · exact absurd (Expands.eq_of_not_mem hgone hpath) hne
        · exact ⟨b, List.mem_append_right _ hb, hpath⟩
      · exact ⟨d, List.mem_append_left _ hd, hpath⟩
  | case4 unseen a rest hne hmem ih =>
    rw [search, if_neg hne, if_neg hmem, ih hnd]
    constructor
    · rintro ⟨b, hb, hpath⟩
      exact ⟨b, List.mem_cons_of_mem _ hb, hpath⟩
    · rintro ⟨b, hb, hpath⟩
      rcases List.mem_cons.mp hb with rfl | hb
      · exact absurd (Expands.eq_of_not_mem hmem hpath) hne
      · exact ⟨b, hb, hpath⟩

end

/-! ## Logs -/

/-- One recorded call. -/
structure CallRecord where
  caller : Key
  callee : Key
  site : Span
  deriving DecidableEq

abbrev CallLog := List CallRecord

namespace CallLog

variable {log : CallLog} {f g : Key}

/-- A call from `f` to `g` was recorded. -/
def HasCall (log : CallLog) (f g : Key) : Prop := ∃ c ∈ log, c.caller = f ∧ c.callee = g

/-- The callees of a function, in the order of their first calls. -/
def callees (log : CallLog) (f : Key) : List Key :=
  ((log.filter (·.caller = f)).map (·.callee)).eraseDups

/-- Where a function calls another, in order. -/
def sites (log : CallLog) (f g : Key) : List Span :=
  (log.filter fun c => c.caller = f ∧ c.callee = g).map (·.site)

/-- The pairs of caller and callee, in the order of their first calls. -/
def pairs (log : CallLog) : List (Key × Key) := (log.map fun c => (c.caller, c.callee)).eraseDups

def edges (log : CallLog) : List CallEdge :=
  log.pairs.map fun (f, g) => ⟨f, g, log.sites f g⟩

theorem mem_pairs : (f, g) ∈ log.pairs ↔ log.HasCall f g := by
  simp [pairs, HasCall]

theorem mem_callees : g ∈ log.callees f ↔ log.HasCall f g := by
  simp [callees, HasCall, and_assoc]

section
variable {α : Type} [BEq α] [LawfulBEq α] {xs : List α} {x : α}

theorem eraseDups_concat_of_mem (h : x ∈ xs) : (xs ++ [x]).eraseDups = xs.eraseDups := by
  simp [List.eraseDups_append, List.removeAll, h]

theorem eraseDups_concat_of_not_mem (h : x ∉ xs) :
    (xs ++ [x]).eraseDups = xs.eraseDups ++ [x] := by
  simp [List.eraseDups_append, List.removeAll, h, List.eraseDups_cons]

theorem nodup_eraseDups (xs : List α) : xs.eraseDups.Nodup := by
  induction xs using List.reverseRecOn with
  | nil => simp
  | append_singleton xs x ih =>
    by_cases h : x ∈ xs
    · rw [eraseDups_concat_of_mem h]
      exact ih
    · rw [eraseDups_concat_of_not_mem h]
      refine List.nodup_append.mpr ⟨ih, by simp, ?_⟩
      rintro a ha b hb rfl
      exact h (List.mem_singleton.mp hb ▸ List.mem_eraseDups.mp ha)

end

theorem sites_concat (log : CallLog) (f g : Key) (site : Span) (a b : Key) :
    CallLog.sites (log ++ [⟨f, g, site⟩]) a b =
      if f = a ∧ g = b then log.sites a b ++ [site] else log.sites a b := by
  simp only [sites, List.filter_append, List.map_append, List.filter_cons, List.filter_nil]
  by_cases h : f = a ∧ g = b <;> simp [h]

theorem pairs_concat_of_mem (h : (f, g) ∈ log.pairs) (site : Span) :
    CallLog.pairs (log ++ [⟨f, g, site⟩]) = log.pairs := by
  rw [pairs, List.map_append]
  exact eraseDups_concat_of_mem (List.mem_eraseDups.mp h)

theorem pairs_concat_of_not_mem (h : (f, g) ∉ log.pairs) (site : Span) :
    CallLog.pairs (log ++ [⟨f, g, site⟩]) = log.pairs ++ [(f, g)] := by
  rw [pairs, List.map_append]
  exact eraseDups_concat_of_not_mem fun hm => h (List.mem_eraseDups.mpr hm)

theorem sites_ne_nil : log.sites f g ≠ [] ↔ log.HasCall f g := by
  simp [sites, HasCall]

theorem mem_edges {e : CallEdge} :
    e ∈ log.edges ↔ log.HasCall e.caller e.callee ∧ e.sites = log.sites e.caller e.callee := by
  rw [edges, List.mem_map]
  constructor
  · rintro ⟨⟨f, g⟩, hp, rfl⟩
    exact ⟨mem_pairs.mp hp, rfl⟩
  · rintro ⟨hcall, hsites⟩
    exact ⟨(e.caller, e.callee), mem_pairs.mpr hcall,
      congrArg (CallEdge.mk e.caller e.callee) hsites.symm⟩

theorem exists_joins : (∃ e ∈ log.edges, e.Joins f g) ↔ log.HasCall f g := by
  constructor
  · rintro ⟨e, he, rfl, rfl⟩
    exact (mem_edges.mp he).1
  · intro h
    exact ⟨⟨f, g, log.sites f g⟩, mem_edges.mpr ⟨h, rfl⟩, rfl, rfl⟩

/-- A new call extends the edge of its pair, or adds an edge at the end. -/
theorem addSite_edges (log : CallLog) (f g : Key) (site : Span) :
    CallEdge.addSite f g site log.edges = CallLog.edges (log ++ [⟨f, g, site⟩]) := by
  by_cases h : log.HasCall f g
  · rw [CallEdge.addSite, if_pos (exists_joins.mpr h), edges, edges,
      pairs_concat_of_mem (mem_pairs.mpr h), List.map_map]
    refine List.map_congr_left fun p _ => ?_
    simp only [Function.comp_apply, sites_concat, CallEdge.Joins, eq_comm]
    split <;> rfl
  · have hnew : (f, g) ∉ log.pairs := fun hp => h (mem_pairs.mp hp)
    rw [CallEdge.addSite, if_neg fun he => h (exists_joins.mp he), edges, edges,
      pairs_concat_of_not_mem hnew, List.map_append]
    congr 1
    · refine List.map_congr_left fun p hp => ?_
      simp only [sites_concat]
      rw [if_neg]
      rintro ⟨rfl, rfl⟩
      exact hnew hp
    · have hnil : log.sites f g = [] := not_not.mp fun hsites => h (sites_ne_nil.mp hsites)
      simp only [List.map_cons, List.map_nil, sites_concat, and_self, if_true, hnil,
        List.nil_append]

theorem callees_concat_of_ne {f' : Key} (h : f' ≠ f) (g : Key) (site : Span) :
    CallLog.callees (log ++ [⟨f', g, site⟩]) f = log.callees f := by
  simp [callees, List.filter_append, h]

theorem callees_concat (log : CallLog) (f g : Key) (site : Span) :
    CallLog.callees (log ++ [⟨f, g, site⟩]) f =
      ((log.filter (·.caller = f)).map (·.callee) ++ [g]).eraseDups := by
  simp [callees, List.filter_append]

/-- The pairs of one caller are its callees. -/
theorem filter_pairs (log : CallLog) (f : Key) :
    log.pairs.filter (·.1 = f) = (log.callees f).map (f, ·) := by
  induction log using List.reverseRecOn with
  | nil => rfl
  | append_singleton log c ih =>
    obtain ⟨f', g, site⟩ := c
    by_cases hf : f' = f
    · subst hf
      rw [callees_concat]
      by_cases h : (f', g) ∈ CallLog.pairs log
      · rw [pairs_concat_of_mem h, ih, eraseDups_concat_of_mem, callees]
        exact List.mem_eraseDups.mp (mem_callees.mpr (mem_pairs.mp h))
      · rw [pairs_concat_of_not_mem h, List.filter_append, ih, eraseDups_concat_of_not_mem,
          List.map_append, callees]
        · simp
        · exact fun hm => h (mem_pairs.mpr (mem_callees.mp (List.mem_eraseDups.mpr hm)))
    · rw [callees_concat_of_ne hf, ← ih]
      by_cases h : (f', g) ∈ CallLog.pairs log
      · rw [pairs_concat_of_mem h]
      · rw [pairs_concat_of_not_mem h, List.filter_append]
        simp [hf]

theorem filter_edges (log : CallLog) (f : Key) :
    log.edges.filter (·.caller = f) = (log.callees f).map fun g => ⟨f, g, log.sites f g⟩ := by
  have hcomp : ((fun e : CallEdge => decide (e.caller = f)) ∘
      fun p : Key × Key => ⟨p.1, p.2, log.sites p.1 p.2⟩) = fun p => decide (p.1 = f) := rfl
  rw [edges, List.filter_map, hcomp, filter_pairs, List.map_map]
  rfl

end CallLog

/-! ## Calls that a log stands behind -/

namespace CallGraph

variable {γ : Type} [IndexedGraph γ Key (List Span)] {calls : CallGraph γ} {log : CallLog} {f g : Key}

/-- The calls are those of the log. -/
structure Records (calls : CallGraph γ) (log : CallLog) : Prop where
  sound : calls.Sound
  edges : calls.edges = log.edges
  callers : ∀ c ∈ log, c.caller ∈ calls.functions

variable [LawfulIndexedGraph γ]

theorem Records.empty : Records (.empty : CallGraph γ) [] where
  sound := .empty
  edges := by
    have harcs : IndexedGraph.arcs (CallGraph.empty : CallGraph γ).graph = [] :=
      LawfulIndexedGraph.arcs_empty
    rw [CallGraph.edges, harcs]
    rfl
  callers c hc := absurd hc List.not_mem_nil

theorem Sound.mem_addFunction (S : calls.Sound) :
    g ∈ (calls.addFunction f).functions ↔ g ∈ calls.functions ∨ g = f := by
  rw [S.functions_addFunction]
  split
  · rename_i hf
    exact ⟨.inl, fun h => h.elim id (· ▸ hf)⟩
  · simp

theorem Sound.mem_record (S : calls.Sound) {caller callee : Key} {site : Span} :
    f ∈ (calls.record caller callee site).functions ↔
      f ∈ calls.functions ∨ f = caller ∨ f = callee := by
  rw [S.functions_record, (S.addFunction caller).mem_addFunction, S.mem_addFunction, or_assoc]

theorem Records.addFunction (R : calls.Records log) (f : Key) :
    (calls.addFunction f).Records log where
  sound := R.sound.addFunction f
  edges := (R.sound.edges_addFunction f).trans R.edges
  callers c hc := R.sound.mem_addFunction.mpr (.inl (R.callers c hc))

theorem Records.record (R : calls.Records log) (f g : Key) (site : Span) :
    (calls.record f g site).Records (log ++ [⟨f, g, site⟩]) where
  sound := R.sound.record f g site
  edges := by rw [R.sound.edges_record, R.edges, CallLog.addSite_edges]
  callers c hc := by
    rw [R.sound.mem_record]
    rw [List.mem_append, List.mem_singleton] at hc
    rcases hc with hc | rfl
    · exact .inl (R.callers c hc)
    · exact .inr (.inl rfl)

theorem Records.callees (R : calls.Records log) (f : Key) :
    calls.callees f = (log.callees f).map fun g => ⟨f, g, log.sites f g⟩ := by
  rw [R.sound.callees, R.edges, CallLog.filter_edges]

theorem Records.successors (R : calls.Records log) (f : Key) :
    (calls.successors f).Perm (log.callees f) := by
  have hsuccessors := successors_perm calls f
  rwa [R.callees, List.map_map, List.map_id''] at hsuccessors
  exact fun _ => rfl

theorem Records.sites? (R : calls.Records log) (f g : Key) :
    calls.sites? f g = if log.sites f g = [] then none else some (log.sites f g) := by
  have hsome : ∀ sites, calls.sites? f g = some sites ↔ log.HasCall f g ∧ sites = log.sites f g := by
    intro sites
    rw [R.sound.sites?_eq_some, R.edges, CallLog.mem_edges]
  split
  · rename_i hnil
    refine Option.eq_none_iff_forall_ne_some.mpr fun sites hsites => ?_
    exact CallLog.sites_ne_nil.mpr ((hsome sites).mp hsites).1 hnil
  · rename_i hne
    exact (hsome _).mpr ⟨CallLog.sites_ne_nil.mp hne, rfl⟩

theorem Records.hasEdge_iff (R : calls.Records log) :
    calls.hasEdge f g = true ↔ log.HasCall f g := by
  rw [R.sound.hasEdge_iff, R.edges, CallLog.exists_joins]

/-- Chains of logged calls are what `reaches` looks for. -/
theorem Records.reaches_iff (R : calls.Records log) :
    calls.reaches f g = true ↔ Relation.ReflTransGen log.HasCall f g := by
  have hstep : Expands calls.successors calls.functions = log.HasCall := by
    funext a b
    rw [Expands, (R.successors a).mem_iff, CallLog.mem_callees]
    refine propext ⟨And.right, fun h => ⟨?_, h⟩⟩
    obtain ⟨c, hc, rfl, _⟩ := h
    exact R.callers c hc
  rw [reaches, search_iff R.sound.nodup, hstep]
  simp

end CallGraph

/-! ## Symbol tables -/

namespace Symbols

/-- The symbol tables that come about by registering functions, changing registered ones and
recording calls, with the log of the calls. -/
inductive Grown : Symbols → CallLog → Prop where
  | empty : Grown {} []
  | addFunction {s s' log f} : Grown s log → s.addFunction f = .ok s' → Grown s' log
  | updateFunction {s log} (key : Key) {change : FunctionEntry → FunctionEntry} :
    (∀ f, (change f).key = f.key) → Grown s log → Grown (s.updateFunction key change) log
  | addCaller {s log} (key : Key) : Grown s log →
    Grown { s with calls := s.calls.addFunction key } log
  | recordCall {s log} (caller callee : Key) (site : Span) : Grown s log →
    Grown (s.recordCall caller callee site) (log ++ [⟨caller, callee, site⟩])
  | other {s log} (types : List TypeEntry) (scopes : Scopes) : Grown s log →
    Grown { s with types, scopes } log

variable {s s' : Symbols} {log : CallLog} {f : FunctionEntry}

theorem keys_updateFunction (s : Symbols) (key : Key) {change : FunctionEntry → FunctionEntry}
    (h : ∀ f, (change f).key = f.key) :
    (s.updateFunction key change).functions.map (·.key) = s.functions.map (·.key) := by
  simp only [updateFunction, List.map_map]
  apply List.map_congr_left
  intro f _
  simp only [Function.comp_apply]
  split
  · exact h f
  · rfl

theorem addFunction_ok (h : s.addFunction f = .ok s') : f.key ∉ s.functions.map (·.key) ∧
    s' = { s with functions := s.functions ++ [f], calls := s.calls.addFunction f.key } := by
  simp only [Symbols.addFunction] at h
  split at h
  · cases h
  · rename_i hnone
    cases h
    refine ⟨fun hm => ?_, rfl⟩
    obtain ⟨f', hf', hk⟩ := List.mem_map.mp hm
    have := List.find?_eq_none.mp hnone f' hf'
    simp [hk] at this

theorem Grown.keys (H : s.Grown log) : (s.functions.map (·.key)).Nodup := by
  induction H with
  | empty => exact .nil
  | addFunction _ h ih =>
    obtain ⟨hfresh, rfl⟩ := addFunction_ok h
    rw [List.map_append, List.nodup_append]
    refine ⟨ih, by simp, ?_⟩
    rintro a ha b hb rfl
    cases List.mem_singleton.mp hb
    exact hfresh ha
  | updateFunction key h _ ih => rwa [keys_updateFunction _ _ h]
  | addCaller | recordCall | other => assumption

theorem Grown.records (H : s.Grown log) : s.calls.Records log := by
  induction H with
  | empty => exact .empty
  | addFunction _ h ih =>
    obtain ⟨_, rfl⟩ := addFunction_ok h
    exact ih.addFunction _
  | addCaller key _ ih => exact ih.addFunction key
  | recordCall f g site _ ih => exact ih.record f g site
  | updateFunction | other => assumption

/-- A registered function is found by its key. -/
theorem function?_of_mem (hnd : (s.functions.map (·.key)).Nodup) (hf : f ∈ s.functions) :
    s.function? f.key = some f := by
  rw [function?]
  induction hs : s.functions generalizing s with
  | nil => rw [hs] at hf; cases hf
  | cons f' fs ih =>
    rw [hs, List.map_cons, List.nodup_cons] at hnd
    rw [hs] at hf
    rcases List.mem_cons.mp hf with rfl | hf
    · simp
    · have hne : f'.key ≠ f.key := fun h => hnd.1 (h ▸ List.mem_map_of_mem hf)
      rw [List.find?_cons_of_neg (by simpa using hne)]
      exact ih (s := { s with functions := fs }) hnd.2 hf rfl

end Symbols

end Stackless
