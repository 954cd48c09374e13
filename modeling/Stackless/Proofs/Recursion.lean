import Mathlib.Data.List.Basic
import Stackless.Compile.Recursion
import Stackless.Proofs.CallLog

/-!
# Illegal recursion

The check of recursion reports a call exactly if it closes a cycle of calls that no mark allows
(`CallLog.ClosesCycle`): a call of a function by itself without the mark, or a call of another
function from which a chain of calls leads back. So nothing is reported exactly if the calls form
no cycle apart from those of marked functions to themselves.
-/

namespace Stackless

def Problem.isIllegalRecursion : Problem → Bool
  | .illegalRecursion .. => true
  | _ => false

def Problem.isUnusedMarker : Problem → Bool
  | .unusedMarker .. => true
  | _ => false

namespace CallLog

/-- The calls from `f` to `g` close a cycle that is not allowed. -/
def ClosesCycle (log : CallLog) (f : FunctionEntry) (g : Key) : Prop :=
  (g = f.key ∧ f.traits.isRecursive = false) ∨
    (g ≠ f.key ∧ Relation.ReflTransGen log.HasCall g f.key)

end CallLog

namespace Symbols

variable {s : Symbols} {log : CallLog} {f : FunctionEntry}

theorem Grown.allowsRecursion (H : s.Grown log) (hf : f ∈ s.functions) :
    s.allowsRecursion f.key = f.traits.isRecursive := by
  simp [Symbols.allowsRecursion, function?_of_mem H.keys hf]

theorem Grown.functionName (H : s.Grown log) (hf : f ∈ s.functions) :
    s.functionName f.key = f.qualifiedName := by
  simp [Symbols.functionName, function?_of_mem H.keys hf]

theorem Grown.isIllegal_iff (H : s.Grown log) (hf : f ∈ s.functions) (g : Key)
    (sites : List Span) : s.isIllegal ⟨f.key, g, sites⟩ = true ↔ log.ClosesCycle f g := by
  simp only [isIllegal, CallLog.ClosesCycle]
  split
  · rename_i hg
    simp [hg, H.allowsRecursion hf]
  · rename_i hg
    simp [hg, H.records.reaches_iff]

open scoped Classical in
theorem Grown.illegalCalls (H : s.Grown log) (hf : f ∈ s.functions) :
    s.illegalCalls f.key =
      ((log.callees f.key).filter (log.ClosesCycle f ·)).flatMap fun g =>
        (log.sites f.key g).map (.illegalRecursion f.qualifiedName (s.functionName g) ·) := by
  have hfilter : (s.isIllegal ∘ fun g => ⟨f.key, g, log.sites f.key g⟩) =
      fun g => decide (log.ClosesCycle f g) := by
    funext g
    rw [Bool.eq_iff_iff, Function.comp_apply, H.isIllegal_iff hf, decide_eq_true_iff]
  rw [Symbols.illegalCalls, H.records.callees, List.filter_map, hfilter, List.flatMap_map,
    H.functionName hf]

theorem isIllegalRecursion_of_mem {p : Problem} {key : Key} (h : p ∈ s.illegalCalls key) :
    p.isIllegalRecursion = true ∧ p.isUnusedMarker = false := by
  simp only [Symbols.illegalCalls, List.mem_flatMap, List.mem_map] at h
  obtain ⟨e, _, site, _, rfl⟩ := h
  exact ⟨rfl, rfl⟩

theorem isUnusedMarker_of_mem {p : Problem} (h : p ∈ s.unusedMark f) :
    p.isIllegalRecursion = false ∧ p.isUnusedMarker = true := by
  simp only [unusedMark] at h
  split at h
  · cases List.mem_singleton.mp h
    exact ⟨rfl, rfl⟩
  · cases h

theorem filter_isIllegalRecursion (s : Symbols) :
    s.checkRecursion.1.problems.filter (·.isIllegalRecursion) =
      s.functions.flatMap fun f => s.illegalCalls f.key := by
  simp only [checkRecursion, List.filter_flatMap]
  refine List.flatMap_congr fun f _ => ?_
  rw [List.filter_append, List.filter_eq_self.mpr fun p hp => (isIllegalRecursion_of_mem hp).1,
    List.filter_eq_nil_iff.mpr fun p hp => by simp [(isUnusedMarker_of_mem hp).1], List.append_nil]

theorem filter_isUnusedMarker (s : Symbols) :
    s.checkRecursion.1.problems.filter (·.isUnusedMarker) = s.functions.flatMap s.unusedMark := by
  simp only [checkRecursion, List.filter_flatMap]
  refine List.flatMap_congr fun f _ => ?_
  rw [List.filter_append, List.filter_eq_nil_iff.mpr fun p hp => by
    simp [(isIllegalRecursion_of_mem hp).2], List.filter_eq_self.mpr fun p hp =>
    (isUnusedMarker_of_mem hp).2, List.nil_append]

open scoped Classical in
theorem Grown.unusedMarks (H : s.Grown log) : s.functions.flatMap s.unusedMark =
    (s.functions.filter fun f => f.traits.isRecursive ∧ ¬log.HasCall f.key f.key).map
      fun f => .unusedMarker f.qualifiedName f.span := by
  induction s.functions with
  | nil => rfl
  | cons f fs ih =>
    have hedge : s.calls.hasEdge f.key f.key = decide (log.HasCall f.key f.key) := by
      rw [Bool.eq_iff_iff, H.records.hasEdge_iff, decide_eq_true_iff]
    rw [List.flatMap_cons, ih, List.filter_cons]
    simp only [unusedMark, hedge]
    by_cases hr : f.traits.isRecursive = true <;> by_cases hc : log.HasCall f.key f.key <;>
      simp [hr, hc]

/-! ## Cycles -/

/-- A recorded call other than that of a marked function to itself. -/
def Constrained (s : Symbols) (log : CallLog) (f g : Key) : Prop :=
  log.HasCall f g ∧ ¬(f = g ∧ s.allowsRecursion f = true)

theorem Grown.exists_illegal_iff (H : s.Grown log) :
    (∃ p ∈ s.checkRecursion.1.problems, p.isIllegalRecursion = true) ↔
      ∃ f ∈ s.functions, ∃ g, log.HasCall f.key g ∧ log.ClosesCycle f g := by
  classical
  have hmem : (∃ p ∈ s.checkRecursion.1.problems, p.isIllegalRecursion = true) ↔
      ∃ p, p ∈ s.checkRecursion.1.problems.filter (·.isIllegalRecursion) := by
    simp only [List.mem_filter]
  rw [hmem, filter_isIllegalRecursion]
  constructor
  · rintro ⟨p, hp⟩
    obtain ⟨f, hf, hp⟩ := List.mem_flatMap.mp hp
    rw [H.illegalCalls hf] at hp
    obtain ⟨g, hg, _⟩ := List.mem_flatMap.mp hp
    obtain ⟨hg, hcycle⟩ := List.mem_filter.mp hg
    exact ⟨f, hf, g, CallLog.mem_callees.mp hg, of_decide_eq_true hcycle⟩
  · rintro ⟨f, hf, g, hcall, hcycle⟩
    obtain ⟨c, hc, hcaller, hcallee⟩ := hcall
    refine ⟨.illegalRecursion f.qualifiedName (s.functionName g) c.site,
      List.mem_flatMap.mpr ⟨f, hf, ?_⟩⟩
    rw [H.illegalCalls hf]
    refine List.mem_flatMap.mpr ⟨g, List.mem_filter.mpr ⟨?_, decide_eq_true hcycle⟩, ?_⟩
    · exact CallLog.mem_callees.mpr ⟨c, hc, hcaller, hcallee⟩
    · refine List.mem_map.mpr ⟨c.site, List.mem_map.mpr ⟨c, List.mem_filter.mpr ⟨hc, ?_⟩, rfl⟩, rfl⟩
      exact decide_eq_true ⟨hcaller, hcallee⟩

/-- A chain of calls needs no call of a function to itself. -/
theorem Constrained.of_chain {a b : Key} (h : Relation.ReflTransGen log.HasCall a b) :
    Relation.ReflTransGen (s.Constrained log) a b := by
  induction h with
  | refl => exact .refl
  | @tail b c _ hbc ih =>
    by_cases hne : b = c
    · exact hne ▸ ih
    · exact ih.tail ⟨hbc, fun h => hne h.1⟩

theorem Grown.closesCycle_iff (H : s.Grown log)
    (hcallers : ∀ c ∈ log, c.caller ∈ s.functions.map (·.key)) :
    (∃ f ∈ s.functions, ∃ g, log.HasCall f.key g ∧ log.ClosesCycle f g) ↔
      ∃ k, Relation.TransGen (s.Constrained log) k k := by
  constructor
  · rintro ⟨f, hf, g, hcall, ⟨rfl, hmark⟩ | ⟨hne, hback⟩⟩
    · refine ⟨f.key, .single ⟨hcall, ?_⟩⟩
      simp [H.allowsRecursion hf, hmark]
    · exact ⟨f.key, .head' ⟨hcall, fun h => hne h.1.symm⟩ (Constrained.of_chain hback)⟩
  · rintro ⟨k, hcycle⟩
    obtain ⟨g, ⟨hcall, hmark⟩, hback⟩ := Relation.TransGen.head'_iff.mp hcycle
    obtain ⟨c, hc, rfl, hcallee⟩ := id hcall
    obtain ⟨f, hf, hkey⟩ := List.mem_map.mp (hcallers c hc)
    rw [← hkey] at hcall hmark hback
    refine ⟨f, hf, g, hcall, ?_⟩
    by_cases hg : g = f.key
    · subst hg
      simp only [true_and, H.allowsRecursion hf, Bool.not_eq_true] at hmark
      exact .inl ⟨rfl, hmark⟩
    · exact .inr ⟨hg, hback.lift id fun _ _ h => h.1⟩

open scoped Classical in
/-- The recursion check reports the calls that close a cycle, function by function, callee by
callee and site by site, and each mark that no call makes use of. If all callers are registered,
it reports no call exactly if calls form no cycle but those of marked functions to themselves. -/
theorem checkRecursion_reports (H : s.Grown log) :
    s.checkRecursion.1.problems.filter (·.isIllegalRecursion) =
      (s.functions.flatMap fun f =>
        ((log.callees f.key).filter (log.ClosesCycle f ·)).flatMap fun g =>
          (log.sites f.key g).map (.illegalRecursion f.qualifiedName (s.functionName g) ·)) ∧
    s.checkRecursion.1.problems.filter (·.isUnusedMarker) =
      ((s.functions.filter fun f => f.traits.isRecursive ∧ ¬log.HasCall f.key f.key).map
        fun f => .unusedMarker f.qualifiedName f.span) ∧
    ((∀ c ∈ log, c.caller ∈ s.functions.map (·.key)) →
      ((∀ p ∈ s.checkRecursion.1.problems, p.isIllegalRecursion = false) ↔
        ∀ k, ¬Relation.TransGen (s.Constrained log) k k)) := by
  refine ⟨?_, ?_, fun hcallers => ?_⟩
  · rw [filter_isIllegalRecursion]
    exact List.flatMap_congr fun f hf => H.illegalCalls hf
  · rw [filter_isUnusedMarker, H.unusedMarks]
  · have hcycle := H.exists_illegal_iff.trans (H.closesCycle_iff hcallers)
    rw [← not_exists, ← hcycle]
    simp

def ringEntry (n : UInt64) : FunctionEntry :=
  { FunctionEntry.ofGlobal "f" {} with key := ⟨n⟩, traits := { isRecursive := true } }

def ringLog : CallLog :=
  [⟨⟨1⟩, ⟨1⟩, .point 1 1⟩, ⟨⟨1⟩, ⟨2⟩, .point 2 1⟩, ⟨⟨2⟩, ⟨3⟩, .point 3 1⟩, ⟨⟨3⟩, ⟨1⟩, .point 4 1⟩]

/-- Three functions that call each other in a ring; all are marked, one also calls itself. -/
def ring : Symbols :=
  { functions := [ringEntry 1, ringEntry 2, ringEntry 3]
    calls := ringLog.foldl (fun calls c => calls.record c.caller c.callee c.site)
      (((CallGraph.empty.addFunction ⟨1⟩).addFunction ⟨2⟩).addFunction ⟨3⟩) }

theorem ring_grown : ring.Grown ringLog :=
  have h := ((Grown.empty.addFunction (f := ringEntry 1) rfl).addFunction (f := ringEntry 2) rfl)
    |>.addFunction (f := ringEntry 3) rfl
  (((h.recordCall ⟨1⟩ ⟨1⟩ (.point 1 1)).recordCall ⟨1⟩ ⟨2⟩ (.point 2 1)).recordCall ⟨2⟩ ⟨3⟩
    (.point 3 1)).recordCall ⟨3⟩ ⟨1⟩ (.point 4 1)

theorem checkRecursion_reports_ring : ring.Grown ringLog ∧
    ∃ p ∈ ring.checkRecursion.1.problems, p.isIllegalRecursion = true := by
  refine ⟨ring_grown, Classical.byContradiction fun hnone => ?_⟩
  have hacyclic := ((checkRecursion_reports ring_grown).2.2 (by decide)).mp (by simpa using hnone)
  have hcall : ∀ {c : CallRecord}, c ∈ ringLog → c.caller ≠ c.callee →
      ring.Constrained ringLog c.caller c.callee :=
    fun h hne => ⟨⟨_, h, rfl, rfl⟩, fun he => hne he.1⟩
  have h₁ := hcall (c := ⟨⟨1⟩, ⟨2⟩, .point 2 1⟩) (by decide) (by decide)
  have h₂ := hcall (c := ⟨⟨2⟩, ⟨3⟩, .point 3 1⟩) (by decide) (by decide)
  have h₃ := hcall (c := ⟨⟨3⟩, ⟨1⟩, .point 4 1⟩) (by decide) (by decide)
  exact hacyclic ⟨1⟩ (.head h₁ (.head h₂ (.single h₃)))

end Symbols

end Stackless
