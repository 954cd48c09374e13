import Stackless.Proofs.CallHistory

/-!
# Exploring the calls

An exploration looks at one pending function after the other. The target ends it, a function that
was expanded before is dropped, and any other function is expanded: its callees become pending, in
any order, and those that were expanded already may be left out. `Exploration.Runs` are the runs of
this loop for all orders. Each of them expands a function at most once and ends within a number of
steps that the number of edges bounds. Its answer is the one of `CallGraph.reaches`, which is such a
run too and decides whether a chain of calls leads to the target (`CallGraph.reaches_decides`).
-/

namespace Stackless

/-- An exploration under way: the functions that were expanded, the latest first, and the functions
that are pending, the next one first. -/
structure Exploration where
  expanded : List Key
  pending : List Key

namespace Exploration

variable {γ : Type} [IndexedGraph γ Key (List Span)] {calls : CallGraph γ} {source target : Key}
  {x y : Exploration} {n : Nat}

def start (source : Key) : Exploration := ⟨[], [source]⟩

/-- The answer, if the exploration is over. -/
def answer? (target : Key) (x : Exploration) : Option Bool :=
  match x.pending with
  | [] => some false
  | f :: _ => if f = target then some true else none

inductive Step (calls : CallGraph γ) (target : Key) : Exploration → Exploration → Prop where
  | skip {expanded rest : List Key} {f : Key} (other : f ≠ target) (again : f ∈ expanded) :
    Step calls target ⟨expanded, f :: rest⟩ ⟨expanded, rest⟩
  | expand {expanded rest pushed : List Key} {f : Key} (other : f ≠ target) (first : f ∉ expanded)
      (only : pushed.Subperm (calls.successors f))
      (all : ∀ g ∈ calls.successors f, g ∈ pushed ∨ g ∈ f :: expanded) :
    Step calls target ⟨expanded, f :: rest⟩ ⟨f :: expanded, pushed ++ rest⟩

/-- What `n` steps from the source on can lead to. -/
inductive Runs (calls : CallGraph γ) (source target : Key) : Nat → Exploration → Prop where
  | refl : Runs calls source target 0 (start source)
  | step {n : Nat} {x y : Exploration} (before : Runs calls source target n x)
      (step : Step calls target x y) : Runs calls source target (n + 1) y

theorem exists_step (h : x.answer? target = none) : ∃ y, Step calls target x y := by
  obtain ⟨expanded, pending⟩ := x
  cases pending with
  | nil => cases h
  | cons f rest =>
    have hother : f ≠ target := by
      rintro rfl
      simp [answer?] at h
    by_cases hagain : f ∈ expanded
    · exact ⟨_, .skip hother hagain⟩
    · exact ⟨_, .expand hother hagain (.refl _) fun g hg => .inl hg⟩

/-! ## What every step keeps -/

/-- The number of edges that no expansion has followed yet. -/
def edgesLeft (calls : CallGraph γ) (x : Exploration) : Nat :=
  calls.edges.countP fun e => e.caller ∉ x.expanded

theorem edgesLeft_expand [LawfulIndexedGraph γ] (G : calls.Sound) {expanded : List Key} {f : Key}
    (h : f ∉ expanded) (pending pending' : List Key) : edgesLeft calls ⟨expanded, pending⟩ =
      (calls.successors f).length + edgesLeft calls ⟨f :: expanded, pending'⟩ := by
  have hlength : (calls.successors f).length = calls.edges.countP fun e => e.caller = f := by
    rw [(CallGraph.successors_perm calls f).length_eq, List.length_map, G.callees,
      List.countP_eq_length_filter]
  rw [hlength, edgesLeft, edgesLeft]
  induction calls.edges with
  | nil => rfl
  | cons e es ih =>
    simp only [List.countP_cons, ih, List.mem_cons, not_or, decide_eq_true_eq]
    by_cases he : e.caller = f
    · simp only [he, h, not_true_eq_false, not_false_eq_true, and_true, if_true, if_false]
      omega
    · simp only [he, not_false_eq_true, true_and, if_false]
      omega

/-- A chain of calls, possibly empty. -/
abbrev Leads (calls : CallGraph γ) : Key → Key → Prop :=
  Relation.ReflTransGen fun f g => g ∈ calls.successors f

/-- What holds of an exploration after `n` steps. -/
structure Sound (calls : CallGraph γ) (source target : Key) (n : Nat) (x : Exploration) : Prop where
  nodup : x.expanded.Nodup
  missed : target ∉ x.expanded
  begun : source ∈ x.expanded ∨ source ∈ x.pending
  reached : ∀ f, f ∈ x.expanded ∨ f ∈ x.pending → Leads calls source f
  closed : ∀ f ∈ x.expanded, ∀ g ∈ calls.successors f, g ∈ x.expanded ∨ g ∈ x.pending
  steps : n + x.pending.length + x.edgesLeft calls ≤ 1 + calls.edgeCount

theorem sound_start [LawfulIndexedGraph γ] (G : calls.Sound) :
    Sound calls source target 0 (start source) where
  nodup := .nil
  missed := List.not_mem_nil
  begun := .inr (List.mem_singleton_self source)
  reached f hf := by
    rcases hf with hf | hf
    · exact absurd hf List.not_mem_nil
    · rw [List.mem_singleton.mp hf]
  closed f hf := absurd hf List.not_mem_nil
  steps := by
    rw [G.edgeCount]
    exact Nat.add_le_add_left List.countP_le_length _

theorem Sound.step [LawfulIndexedGraph γ] (G : calls.Sound) (S : Sound calls source target n x)
    (h : Step calls target x y) : Sound calls source target (n + 1) y := by
  cases h with
  | @skip expanded rest f other again =>
    have hdrop : ∀ {g}, g ∈ expanded ∨ g ∈ f :: rest → g ∈ expanded ∨ g ∈ rest := by
      rintro g (hg | hg)
      · exact .inl hg
      · rcases List.mem_cons.mp hg with rfl | hg
        · exact .inl again
        · exact .inr hg
    refine ⟨S.nodup, S.missed, hdrop S.begun, fun g hg => S.reached g ?_,
      fun g hg k hk => hdrop (S.closed g hg k hk), ?_⟩
    · exact hg.imp_right (List.mem_cons_of_mem f)
    · have hsteps := S.steps
      simp only [List.length_cons] at hsteps
      change n + 1 + rest.length + edgesLeft calls ⟨expanded, f :: rest⟩ ≤ _
      omega
  | @expand expanded rest pushed f other first only all =>
    have hmove : ∀ {g}, g ∈ expanded ∨ g ∈ f :: rest → g ∈ f :: expanded ∨ g ∈ pushed ++ rest := by
      rintro g (hg | hg)
      · exact .inl (List.mem_cons_of_mem f hg)
      · rcases List.mem_cons.mp hg with rfl | hg
        · exact .inl List.mem_cons_self
        · exact .inr (List.mem_append_right pushed hg)
    have hf : Leads calls source f := S.reached f (.inr List.mem_cons_self)
    refine ⟨List.nodup_cons.mpr ⟨first, S.nodup⟩, ?_, hmove S.begun, ?_, ?_, ?_⟩
    · exact fun h => (List.mem_cons.mp h).elim (fun h => other h.symm) S.missed
    · rintro g (hg | hg)
      · rcases List.mem_cons.mp hg with rfl | hg
        · exact hf
        · exact S.reached g (.inl hg)
      · rcases List.mem_append.mp hg with hg | hg
        · exact hf.tail (only.subset hg)
        · exact S.reached g (.inr (List.mem_cons_of_mem f hg))
    · intro g hg k hk
      rcases List.mem_cons.mp hg with rfl | hg
      · exact (all k hk).symm.imp_right (List.mem_append_left rest)
      · exact hmove (S.closed g hg k hk)
    · have hsteps := S.steps
      have hpushed := only.length_le
      have hleft := edgesLeft_expand G first (f :: rest) (pushed ++ rest)
      simp only [List.length_cons, List.length_append] at hsteps ⊢
      omega

theorem Runs.sound [LawfulIndexedGraph γ] (G : calls.Sound) (h : Runs calls source target n x) :
    Sound calls source target n x := by
  induction h with
  | refl => exact sound_start G
  | step _ hstep ih => exact ih.step G hstep

/-- Nothing is pending, so what was expanded is all that can be reached. -/
theorem Sound.mem_expanded {expanded : List Key} (S : Sound calls source target n ⟨expanded, []⟩)
    {f : Key} (h : Leads calls source f) : f ∈ expanded := by
  induction h with
  | refl => exact S.begun.resolve_right List.not_mem_nil
  | tail _ hlink ih => exact (S.closed _ ih _ hlink).resolve_right List.not_mem_nil

theorem Sound.answer_iff (S : Sound calls source target n x) {b : Bool}
    (h : x.answer? target = some b) : b = true ↔ Leads calls source target := by
  obtain ⟨expanded, pending⟩ := x
  cases pending with
  | nil =>
    cases h
    exact iff_of_false Bool.false_ne_true fun hleads => S.missed (S.mem_expanded hleads)
  | cons f rest =>
    simp only [answer?] at h
    split at h
    · rename_i htarget
      cases h
      exact iff_of_true rfl (htarget ▸ S.reached f (.inr List.mem_cons_self))
    · cases h

/-! ## The search is a run -/

/-- A search from here on, which may expand the functions in `unseen` only, is the rest of a run. -/
theorem Runs.search {next : Key → List Key} (hnext : ∀ f, (next f).Perm (calls.successors f))
    {unseen expanded stack : List Key} (hnodup : unseen.Nodup)
    (hunseen : ∀ f, f ∉ unseen → f ∈ expanded ∨ calls.successors f = [])
    (hexpanded : ∀ f ∈ expanded, f ∉ unseen)
    (before : Runs calls source target n ⟨expanded, stack⟩) :
    ∃ m x, Runs calls source target m x ∧
      x.answer? target = some (Stackless.search next target unseen stack) := by
  induction unseen, stack using search.induct next target generalizing n expanded with
  | case1 unseen => exact ⟨n, _, before, by rw [Stackless.search]; rfl⟩
  | case2 unseen rest =>
    refine ⟨n, _, before, ?_⟩
    rw [Stackless.search, if_pos rfl]
    exact if_pos rfl
  | case3 unseen f rest hother hmem ih =>
    rw [Stackless.search, if_neg hother, if_pos hmem]
    have hfirst : f ∉ expanded := fun h => hexpanded f h hmem
    refine ih (hnodup.erase f) (fun g hg => ?_) (fun g hg => ?_)
      (before.step (.expand hother hfirst (hnext f).subperm fun g hg => ?_))
    · by_cases hgf : g = f
      · exact .inl (hgf ▸ List.mem_cons_self)
      · have hg' : g ∉ unseen := fun h => hg ((List.mem_erase_of_ne hgf).mpr h)
        exact (hunseen g hg').imp_left (List.mem_cons_of_mem f)
    · rcases List.mem_cons.mp hg with rfl | hg
      · exact hnodup.not_mem_erase
      · exact fun h => hexpanded g hg (List.mem_of_mem_erase h)
    · exact .inl ((hnext f).mem_iff.mpr hg)
  | case4 unseen f rest hother hmem ih =>
    rw [Stackless.search, if_neg hother, if_neg hmem]
    by_cases hagain : f ∈ expanded
    · exact ih hnodup hunseen hexpanded (before.step (.skip hother hagain))
    · -- a function that no call mentions: to expand it adds nothing
      have hnone : calls.successors f = [] := (hunseen f hmem).resolve_left hagain
      have hstep : Step calls target ⟨expanded, f :: rest⟩ ⟨f :: expanded, rest⟩ := by
        refine .expand hother hagain List.nil_subperm fun g hg => ?_
        exact absurd (hnone ▸ hg) List.not_mem_nil
      refine ih hnodup (fun g hg => (hunseen g hg).imp_left (List.mem_cons_of_mem f))
        (fun g hg => ?_) (before.step hstep)
      rcases List.mem_cons.mp hg with rfl | hg
      · exact hmem
      · exact hexpanded g hg

end Exploration

/-! ## Reachability -/

namespace CallGraph

open Exploration (Runs Step Leads)

variable {γ : Type} [IndexedGraph γ Key (List Span)] {calls : CallGraph γ} {f g : Key}

theorem successors_eq_nil (hf : calls.indices.get? f = none) : calls.successors f = [] := by
  rw [successors, hf]

/-- A search in which the callees of a function come in any order is a run. -/
theorem Sound.exists_run (S : calls.Sound) (source target : Key) {next : Key → List Key}
    (hnext : ∀ f, (next f).Perm (calls.successors f)) :
    ∃ n x, Runs calls source target n x ∧
      x.answer? target = some (search next target calls.functions [source]) :=
  Runs.search hnext S.nodup (fun _ hf => .inr (successors_eq_nil (S.get?_eq_none.mpr hf)))
    (fun _ hf => absurd hf List.not_mem_nil) Runs.refl

variable [LawfulIndexedGraph γ]

theorem Sound.mem_successors (S : calls.Sound) :
    g ∈ calls.successors f ↔ calls.hasEdge f g = true := by
  rw [(successors_perm calls f).mem_iff, S.callees, S.hasEdge_iff]
  simp [CallEdge.Joins, and_assoc]

theorem Sound.leads_iff (S : calls.Sound) {source target : Key} : Leads calls source target ↔
    source = target ∨ Relation.TransGen (fun f g => calls.hasEdge f g = true) source target := by
  have hlink : (fun f g => g ∈ calls.successors f) = fun f g => calls.hasEdge f g = true := by
    funext f g
    exact propext S.mem_successors
  rw [Leads, hlink, Relation.reflTransGen_iff_eq_or_transGen]
  exact or_congr_left eq_comm

/-- Whether a chain of calls leads from one function to another is decided within one step for each
edge and one more. The order in which callees are looked at does not matter. -/
theorem reaches_decides (history : CallHistory) (source target : Key) :
    ((ofHistory γ history).reaches source target = true ↔
      source = target ∨
        Relation.TransGen (fun f g => (ofHistory γ history).hasEdge f g = true) source target) ∧
    (∀ next : Key → List Key, (∀ f, (next f).Perm ((ofHistory γ history).successors f)) →
      ∃ n x, Runs (ofHistory γ history) source target n x ∧
        x.answer? target = some (search next target (ofHistory γ history).functions [source])) ∧
    ∀ n x, Runs (ofHistory γ history) source target n x →
      n ≤ 1 + (ofHistory γ history).edgeCount ∧ x.expanded.Nodup ∧
      (x.answer? target = some ((ofHistory γ history).reaches source target) ∨
        x.answer? target = none ∧ ∃ y, Step (ofHistory γ history) target x y) := by
  have G := (logs_ofHistory (γ := γ) history).records.sound
  obtain ⟨m, y, hy, hanswer⟩ := G.exists_run source target fun f => .refl _
  have hreaches : (ofHistory γ history).reaches source target = true ↔
      Leads (ofHistory γ history) source target := (hy.sound G).answer_iff hanswer
  refine ⟨hreaches.trans G.leads_iff, fun next hnext => G.exists_run source target hnext, ?_⟩
  intro n x hx
  have S := hx.sound G
  have hsteps := S.steps
  refine ⟨by omega, S.nodup, ?_⟩
  cases hb : x.answer? target with
  | none => exact .inr ⟨rfl, Exploration.exists_step hb⟩
  | some b =>
    have hsame : b = (ofHistory γ history).reaches source target :=
      Bool.eq_iff_iff.mpr ((S.answer_iff hb).trans hreaches.symm)
    exact .inl (congrArg some hsame)

/-- Two functions that call each other, the second of which calls a third one. -/
def cycle : CallHistory :=
  [.call ⟨⟨1⟩, ⟨2⟩, .point 1 1⟩, .call ⟨⟨2⟩, ⟨1⟩, .point 2 1⟩, .call ⟨⟨2⟩, ⟨3⟩, .point 3 1⟩]

theorem reaches_decides_cycle :
    let calls : Calls := ofHistory _ cycle
    calls.reaches ⟨1⟩ ⟨3⟩ = true ∧
    ∃ n x, Runs calls ⟨1⟩ ⟨3⟩ n x ∧ n ≤ 4 ∧ x.expanded.Nodup ∧ x.answer? ⟨3⟩ = some true := by
  intro calls
  obtain ⟨hreaches, hsearch, hruns⟩ :=
    reaches_decides (γ := ListGraph Key (List Span)) cycle ⟨1⟩ ⟨3⟩
  have hfirst : calls.hasEdge ⟨1⟩ ⟨2⟩ = true := by decide
  have hsecond : calls.hasEdge ⟨2⟩ ⟨3⟩ = true := by decide
  have htrue := hreaches.mpr (.inr (.tail (.single hfirst) hsecond))
  obtain ⟨n, x, hx, hanswer⟩ := hsearch (fun f => (calls.successors f).reverse)
    fun f => List.reverse_perm _
  obtain ⟨hn, hnodup, hsame | ⟨hnone, _⟩⟩ := hruns n x hx
  · exact ⟨htrue, n, x, hx, hn, hnodup, hsame.trans (congrArg some htrue)⟩
  · cases hnone.symm.trans hanswer

end CallGraph

end Stackless
