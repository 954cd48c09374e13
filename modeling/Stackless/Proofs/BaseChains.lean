import Mathlib.Data.List.Nodup
import Mathlib.Data.List.Perm.Subperm
import Stackless.Proofs.Nesting
import Stackless.Symbols.Table

/-!
# Chains of extended types

What a type extends is followed link by link. Nothing is assumed about the links: they may form
cycles or lead to types that the table does not have. The climb is a loop that notes the types it
meets and is over where a type extends nothing or extends one that was met before (`Ascent.step?`).
It takes at most one step for each type of the table and one more for a type that is missing, and
what it leaves is the only chain that starts with the type, repeats nothing and cannot be continued
(`Symbols.IsBaseChain`). The trail of `Symbols.baseChain` is that chain (`Symbols.baseChain_ends`).
-/

namespace Stackless

namespace Symbols

variable {s : Symbols} {key k b : Key} {chain : List Key}

/-- The types from one on, followed until one would be repeated. -/
structure IsBaseChain (s : Symbols) (key : Key) (chain : List Key) : Prop where
  head : chain.head? = some key
  nodup : chain.Nodup
  /-- Each type after the first is what the one before it extends. -/
  linked : chain.IsChain fun a b => s.base? a = some b
  /-- The last type is missing in the table, extends nothing or extends a type of the chain. -/
  closed : ∃ last, chain.getLast? = some last ∧
    (s.type? last = none ∨
      ∃ t, s.type? last = some t ∧ (t.base = none ∨ ∃ b ∈ chain, t.base = some b))

/-- No link leads out of the chain from a type that is missing, extends nothing or extends one of
its types. -/
theorem closed_iff : (s.type? k = none ∨
      ∃ t, s.type? k = some t ∧ (t.base = none ∨ ∃ b ∈ chain, t.base = some b)) ↔
    ∀ b, s.base? k = some b → b ∈ chain := by
  rw [base?]
  cases s.type? k with
  | none => simp
  | some t => cases hbase : t.base <;> simp [hbase]

theorem mem_keys_of_base? (h : s.base? k = some b) : k ∈ s.types.map (·.key) := by
  rw [base?] at h
  cases htype : s.type? k with
  | none => simp only [htype, reduceCtorEq] at h
  | some t =>
    have hkey : t.key = k := of_decide_eq_true (List.find?_some htype :)
    exact List.mem_map.mpr ⟨t, List.mem_of_find?_eq_some htype, hkey⟩

/-- All types of a chain but the last have entries of their own. -/
theorem length_le_of_linked (hlinked : chain.IsChain fun a b => s.base? a = some b)
    (hnodup : chain.Nodup) : chain.length ≤ s.types.length + 1 := by
  have hkeys : chain.dropLast ⊆ s.types.map (·.key) := by
    intro k hk
    obtain ⟨i, hi, rfl⟩ := List.mem_iff_getElem.mp hk
    have hnext : i + 1 < chain.length := by
      rw [List.length_dropLast] at hi
      omega
    rw [List.getElem_dropLast]
    exact mem_keys_of_base? (hlinked.getElem i hnext)
  have hroom := (List.Nodup.subperm (hnodup.sublist chain.dropLast_sublist) hkeys).length_le
  rw [List.length_dropLast, List.length_map] at hroom
  omega

/-- Only one chain cannot be continued. -/
theorem IsBaseChain.eq_baseChain (h : s.IsBaseChain key chain) : s.baseChain key = chain := by
  obtain ⟨hhead, hnodup, hlinked, last, hlast, hclosed⟩ := h
  cases chain with
  | nil => cases hhead
  | cons a rest =>
    cases hhead
    refine trailFrom_eq hlinked hnodup (fun _ _ => List.not_mem_nil) ?_ ?_
    · intro b hb c hc
      cases hlast.symm.trans hb
      exact .inr (closed_iff.mp hclosed c hc)
    · exact length_le_of_linked hlinked hnodup

end Symbols

/-! ## The climb -/

/-- A climb under way: the chain so far, the types that were met and the type to look at next. -/
structure Ascent where
  chain : List Key
  seen : List Key
  next : Option Key

namespace Ascent

variable {s : Symbols} {key : Key} {a b : Ascent} {n : Nat}

def start (key : Key) : Ascent := ⟨[], [], some key⟩

/-- Add the next type and go on to what it extends, unless the climb is over. -/
def step? (s : Symbols) (a : Ascent) : Option Ascent :=
  match a.next with
  | none => none
  | some k => if k ∈ a.seen then none else some ⟨a.chain ++ [k], k :: a.seen, s.base? k⟩

/-- What `n` steps from a type on lead to. -/
inductive Runs (s : Symbols) (key : Key) : Nat → Ascent → Prop where
  | refl : Runs s key 0 (start key)
  | step {n : Nat} {a b : Ascent} (before : Runs s key n a) (step : a.step? s = some b) :
    Runs s key (n + 1) b

theorem step?_eq_none : a.step? s = none ↔ ∀ k, a.next = some k → k ∈ a.seen := by
  rw [step?]
  cases a.next <;> simp

theorem step?_eq_some (h : a.step? s = some b) :
    ∃ k, a.next = some k ∧ k ∉ a.seen ∧ b = ⟨a.chain ++ [k], k :: a.seen, s.base? k⟩ := by
  rw [step?] at h
  cases hnext : a.next with
  | none => simp only [hnext, reduceCtorEq] at h
  | some k =>
    simp only [hnext] at h
    split at h
    · cases h
    · exact ⟨k, rfl, ‹_›, (Option.some.inj h).symm⟩

/-- What holds of a climb after `n` steps. -/
structure Sound (s : Symbols) (key : Key) (n : Nat) (a : Ascent) : Prop where
  steps : a.chain.length = n
  seen : ∀ k, k ∈ a.seen ↔ k ∈ a.chain
  nodup : a.chain.Nodup
  head : a.chain.head?.or a.next = some key
  linked : a.chain.IsChain fun a b => s.base? a = some b
  last : ∀ k, a.chain.getLast? = some k → s.base? k = a.next

theorem sound_start : Sound s key 0 (start key) where
  steps := rfl
  seen _ := .rfl
  nodup := .nil
  head := rfl
  linked := .nil
  last k hk := by cases hk

theorem Sound.step (S : Sound s key n a) (h : a.step? s = some b) : Sound s key (n + 1) b := by
  obtain ⟨k, hnext, hfirst, rfl⟩ := step?_eq_some h
  have hfresh : k ∉ a.chain := fun hk => hfirst ((S.seen k).mpr hk)
  constructor
  case steps =>
    rw [List.length_append, S.steps]
    rfl
  case seen =>
    intro j
    rw [List.mem_cons, S.seen, List.mem_append, List.mem_singleton, or_comm]
  case nodup =>
    exact List.Nodup.append S.nodup (List.nodup_singleton k) (List.disjoint_singleton.mpr hfresh)
  case head =>
    -- the first step puts the type itself at the head, where it stays
    have hhead := S.head
    rw [hnext] at hhead
    rw [List.head?_append, List.head?_singleton, hhead]
    rfl
  case linked =>
    refine List.isChain_append.mpr ⟨S.linked, .singleton k, fun j hj i hi => ?_⟩
    cases hi
    exact (S.last j hj).trans hnext
  case last =>
    intro j hj
    rw [List.getLast?_append, List.getLast?_singleton] at hj
    cases hj
    rfl

theorem Runs.sound (h : Runs s key n a) : Sound s key n a := by
  induction h with
  | refl => exact sound_start
  | step _ hstep ih => exact ih.step hstep

theorem Runs.le (h : Runs s key n a) : n ≤ s.types.length + 1 :=
  h.sound.steps ▸ Symbols.length_le_of_linked h.sound.linked h.sound.nodup

/-- A climb comes to its end, because the steps it can take are bounded. -/
theorem exists_over (s : Symbols) (key : Key) : ∃ n a, Runs s key n a ∧ a.step? s = none := by
  by_contra hnever
  have hruns : ∀ n, ∃ a, Runs s key n a := by
    intro n
    induction n with
    | zero => exact ⟨_, .refl⟩
    | succ n ih =>
      obtain ⟨a, ha⟩ := ih
      obtain ⟨b, hb⟩ := Option.ne_none_iff_exists'.mp fun hover => hnever ⟨n, a, ha, hover⟩
      exact ⟨b, ha.step hb⟩
  obtain ⟨a, ha⟩ := hruns (s.types.length + 2)
  exact absurd ha.le (by omega)

/-- The end of a climb is where its chain cannot be continued. -/
theorem Sound.isBaseChain (S : Sound s key n a) (hover : a.step? s = none) :
    s.IsBaseChain key a.chain := by
  have hmet : ∀ k, a.next = some k → k ∈ a.chain := fun k hk =>
    (S.seen k).mp (step?_eq_none.mp hover k hk)
  rcases Option.or_eq_some_iff.mp S.head with hhead | ⟨hnone, hnext⟩
  · have hne : a.chain ≠ [] := List.ne_nil_of_mem (List.mem_of_mem_head? hhead)
    have hlast := List.getLast?_eq_some_getLast hne
    refine ⟨hhead, S.nodup, S.linked, _, hlast, Symbols.closed_iff.mpr fun b hb => ?_⟩
    exact hmet b ((S.last _ hlast).symm.trans hb)
  · -- before its first step a climb is not over
    rw [List.head?_eq_none_iff.mp hnone] at hmet
    exact absurd (hmet key hnext) List.not_mem_nil

end Ascent

/-! ## Base chains -/

namespace Symbols

open Ascent (Runs)

/-- Whatever the links between types are, following them ends, and it ends with the one chain that
cannot be continued without a repetition. -/
theorem baseChain_ends (s : Symbols) (key : Key) :
    s.IsBaseChain key (s.baseChain key) ∧
    (∀ chain, s.IsBaseChain key chain → chain = s.baseChain key) ∧
    (∃ n a, Runs s key n a ∧ a.step? s = none) ∧
    ∀ n a, Runs s key n a →
      n ≤ s.types.length + 1 ∧ (a.step? s = none → a.chain = s.baseChain key) := by
  have hover : ∀ {n a}, Runs s key n a → a.step? s = none → a.chain = s.baseChain key :=
    fun hrun hover => (hrun.sound.isBaseChain hover).eq_baseChain.symm
  obtain ⟨n, a, hrun, hend⟩ := Ascent.exists_over s key
  have hchain := hrun.sound.isBaseChain hend
  refine ⟨hover hrun hend ▸ hchain, fun chain h => h.eq_baseChain.symm, ⟨n, a, hrun, hend⟩, ?_⟩
  exact fun n a hrun => ⟨hrun.le, hover hrun⟩

/-- Two types that extend each other, one that extends the first of them, and one that extends a
type that is not there. -/
def corrupt : Symbols where
  types :=
    [{ name := "A", key := ⟨1⟩, span := {}, base := some ⟨2⟩ },
     { name := "B", key := ⟨2⟩, span := {}, base := some ⟨3⟩ },
     { name := "C", key := ⟨3⟩, span := {}, base := some ⟨2⟩ },
     { name := "D", key := ⟨4⟩, span := {}, base := some ⟨5⟩ }]

theorem baseChain_ends_corrupt :
    corrupt.IsBaseChain ⟨1⟩ [⟨1⟩, ⟨2⟩, ⟨3⟩] ∧ corrupt.baseChain ⟨1⟩ = [⟨1⟩, ⟨2⟩, ⟨3⟩] ∧
    corrupt.IsBaseChain ⟨4⟩ [⟨4⟩, ⟨5⟩] ∧ corrupt.baseChain ⟨4⟩ = [⟨4⟩, ⟨5⟩] ∧
    ∃ n a, Runs corrupt ⟨1⟩ n a ∧ n ≤ 5 ∧ a.step? corrupt = none ∧
      a.chain = [⟨1⟩, ⟨2⟩, ⟨3⟩] := by
  have hcycle : corrupt.IsBaseChain ⟨1⟩ [⟨1⟩, ⟨2⟩, ⟨3⟩] :=
    ⟨rfl, by decide, .cons_cons rfl (.cons_cons rfl (.singleton _)), ⟨3⟩, rfl,
      .inr ⟨_, rfl, .inr ⟨⟨2⟩, by decide, rfl⟩⟩⟩
  have hmissing : corrupt.IsBaseChain ⟨4⟩ [⟨4⟩, ⟨5⟩] :=
    ⟨rfl, by decide, .cons_cons rfl (.singleton _), ⟨5⟩, rfl, .inl rfl⟩
  obtain ⟨_, hunique, ⟨n, a, hrun, hover⟩, hruns⟩ := baseChain_ends corrupt ⟨1⟩
  have hchain := hunique _ hcycle
  obtain ⟨hn, hend⟩ := hruns n a hrun
  exact ⟨hcycle, hchain.symm, hmissing, ((baseChain_ends corrupt ⟨4⟩).2.1 _ hmissing).symm,
    n, a, hrun, hn, hover, (hend hover).trans hchain.symm⟩

end Symbols

end Stackless
