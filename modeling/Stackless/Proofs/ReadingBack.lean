import Stackless.Number.Decimal
import Stackless.Proofs.Count

/-!
# Reading numbers back

The decimals that read back as a magnitude lie between its midpoints to its two neighbours. Of two
magnitudes the upper midpoint of the smaller one is not above the lower midpoint of the larger one,
and where the two meet one of the magnitudes is odd and leaves the midpoint to the other
(`midpoint_le`, `odd_of_midpoint_eq`). So a decimal reads back as at most one magnitude
(`ReadsAs.unique`). The shortest decimal of a magnitude reads back as it (`readsAs_shortest`), so it
determines the magnitude.
-/

namespace Stackless.Number

variable {n m d : Nat}

/-! ## Neighbours -/

theorem twoPow_succ (k : Nat) : twoPow (k + 1) = 2 * twoPow k := Nat.pow_succ'

theorem spacing_pos (n : Nat) : 0 < spacing n := twoPow_pos _

theorem log2_le_log2 (h : n ≤ m) : n.log2 ≤ m.log2 := by
  by_cases hn : n = 0
  · subst hn
    exact Nat.zero_le _
  · have hm : m ≠ 0 := by omega
    exact (Nat.le_log2 hm).mpr (Nat.le_trans (Nat.log2_self_le hn) h)

theorem spacing_dvd_spacing (h : n ≤ m) : spacing n ∣ spacing m := by
  have hlog := log2_le_log2 h
  exact twoPow_dvd_twoPow (by omega)

theorem Representable.spacing_dvd (h : Representable n) : spacing n ∣ n := by
  obtain ⟨_, a, k, ha, rfl⟩ := h
  exact Number.spacing_dvd ha

theorem add_le_of_dvd {a b s : Nat} (ha : s ∣ a) (hb : s ∣ b) (h : a < b) : a + s ≤ b := by
  have hle : s ≤ b - a := Nat.le_of_dvd (by omega) (Nat.dvd_sub hb ha)
  omega

/-- The next magnitude is not nearer than the spacing. -/
theorem add_spacing_le (hn : spacing n ∣ n) (hm : spacing m ∣ m) (h : n < m) :
    n + spacing n ≤ m :=
  add_le_of_dvd hn (Nat.dvd_trans (spacing_dvd_spacing (Nat.le_of_lt h)) hm) h

theorem quarterBelow_le (m : Nat) : quarterBelow m ≤ 2 * spacing m := by
  rw [quarterBelow]
  split <;> omega

/-- Where the midpoint below `m` is further from `m` than the midpoint above `n` is from `n`, a
power of two lies between them, and the midpoints stay apart. -/
theorem midpoint_lt (hm : spacing m ∣ m) (h : n < m) (hwide : 2 * spacing n < quarterBelow m) :
    4 * n + 2 * spacing n + quarterBelow m < 4 * m := by
  have hpower : twoPow m.log2 ≤ m := Nat.log2_self_le (by omega)
  have hbelow := quarterBelow_le m
  have hlog : n.log2 < m.log2 := by
    refine Nat.lt_of_le_of_ne (log2_le_log2 (Nat.le_of_lt h)) fun hsame => ?_
    have hspacing : spacing n = spacing m := by rw [spacing, spacing, hsame]
    omega
  have hn : n < twoPow (n.log2 + 1) := Nat.lt_log2_self
  have hnp : n < twoPow m.log2 := Nat.lt_of_lt_of_le hn (twoPow_le_twoPow hlog)
  have hsp : spacing m ≤ twoPow m.log2 := twoPow_le_twoPow (by omega)
  rw [quarterBelow] at hwide ⊢
  split at hwide
  · rename_i hedge
    rw [if_pos hedge]
    -- the spacing doubles more than once, so `n` is below half of the power of two that `m` is
    have hhalf : n.log2 + 1 < m.log2 := by
      refine Nat.lt_of_le_of_ne hlog fun hsame => ?_
      have hspacing : spacing m = 2 * spacing n := by
        rw [spacing, spacing, ← twoPow_succ]
        exact congrArg twoPow (by omega)
      omega
    have hle : 2 * twoPow (n.log2 + 1) ≤ twoPow m.log2 := by
      rw [← twoPow_succ]
      exact twoPow_le_twoPow hhalf
    omega
  · rename_i hedge
    rw [if_neg hedge]
    have hlarge : 53 ≤ m.log2 := by
      refine Nat.not_lt.mp fun hsmall => ?_
      have hone : spacing m = 1 := by
        rw [spacing, Nat.sub_eq_zero_of_le (by omega)]
        rfl
      have := spacing_pos n
      omega
    have hlt : twoPow m.log2 < m := by
      refine Nat.lt_of_le_of_ne hpower fun heq => ?_
      exact hedge ⟨hlarge, heq.symm⟩
    have hgap : twoPow m.log2 + spacing m ≤ m := by
      refine add_le_of_dvd (twoPow_dvd_twoPow ?_) hm hlt
      exact Nat.sub_le _ _
    omega

theorem midpoint_le (hn : spacing n ∣ n) (hm : spacing m ∣ m) (h : n < m) :
    4 * n + 2 * spacing n + quarterBelow m ≤ 4 * m := by
  rcases Nat.lt_or_ge (2 * spacing n) (quarterBelow m) with hwide | hnarrow
  · exact Nat.le_of_lt (midpoint_lt hm h hwide)
  · have hnext := add_spacing_le hn hm h
    omega

/-- Of two magnitudes whose midpoints meet, one is odd. -/
theorem odd_of_midpoint_eq (hn : spacing n ∣ n) (hm : spacing m ∣ m) (h : n < m)
    (hmeet : 4 * n + 2 * spacing n + quarterBelow m = 4 * m) :
    n / spacing n % 2 = 1 ∨ m / spacing m % 2 = 1 := by
  have hnext := add_spacing_le hn hm h
  have hpos := spacing_pos n
  have hbelow : quarterBelow m = 2 * spacing n := by
    rcases Nat.lt_or_ge (2 * spacing n) (quarterBelow m) with hwide | hnarrow
    · have hlt := midpoint_lt hm h hwide
      omega
    · omega
  have hm' : m = n + spacing n := by omega
  obtain ⟨a, ha⟩ := hn
  have hn' : n / spacing n = a := Nat.div_eq_of_eq_mul_right hpos ha
  have hsucc : m = spacing n * (a + 1) := by rw [hm', Nat.mul_add, ← ha, Nat.mul_one]
  rw [quarterBelow] at hbelow
  split at hbelow
  · -- `m` is a power of two, and `n` has the largest significand before it
    rename_i hedge
    left
    have hhalf : spacing n = twoPow (m.log2 - 53) := by
      have htwice : spacing m = 2 * twoPow (m.log2 - 53) := by
        rw [spacing, ← twoPow_succ]
        exact congrArg twoPow (by omega)
      omega
    have hpower : m = spacing n * twoPow 53 := by
      rw [hhalf, ← twoPow_add, Nat.sub_add_cancel hedge.1]
      exact hedge.2
    have hcount : a + 1 = twoPow 53 := Nat.eq_of_mul_eq_mul_left hpos (hsucc.symm.trans hpower)
    have heven : twoPow 53 = 2 * twoPow 52 := twoPow_succ 52
    omega
  · have hsame : spacing m = spacing n := by omega
    have hquot : m / spacing m = a + 1 := by
      rw [hsame]
      exact Nat.div_eq_of_eq_mul_right hpos hsucc
    omega

/-! ## Decimals -/

theorem decimalUnit_pos : 0 < decimalUnit := by decide +kernel

theorem ReadsAs.lower (h : ReadsAs n d) : (4 * n - quarterBelow n) * decimalUnit ≤ 4 * d := by
  simp only [ReadsAs] at h
  split at h
  · exact h.1
  · exact Nat.le_of_lt h.1

theorem ReadsAs.upper (h : ReadsAs n d) : 4 * d ≤ (4 * n + 2 * spacing n) * decimalUnit := by
  simp only [ReadsAs] at h
  split at h
  · exact h.2
  · exact Nat.le_of_lt h.2

/-- The midpoints of an odd magnitude are left to its neighbours. -/
theorem ReadsAs.of_odd (h : ReadsAs n d) (hodd : n / spacing n % 2 = 1) :
    (4 * n - quarterBelow n) * decimalUnit < 4 * d ∧
      4 * d < (4 * n + 2 * spacing n) * decimalUnit := by
  simp only [ReadsAs] at h
  rwa [if_neg (by omega)] at h

theorem not_readsAs_of_lt (hn : spacing n ∣ n) (hm : spacing m ∣ m) (h : n < m)
    (hread : ReadsAs n d) : ¬ReadsAs m d := by
  intro hread'
  have hle : 4 * m - quarterBelow m ≤ 4 * n + 2 * spacing n :=
    Nat.le_of_mul_le_mul_right (Nat.le_trans hread'.lower hread.upper) decimalUnit_pos
  have hmid := midpoint_le hn hm h
  have hmeet : 4 * m - quarterBelow m = 4 * n + 2 * spacing n := by omega
  have hlower := hread'.lower
  have hupper := hread.upper
  rw [hmeet] at hlower
  rcases odd_of_midpoint_eq hn hm h (by omega) with hodd | hodd
  · exact absurd (hread.of_odd hodd).2 (Nat.not_lt.mpr hlower)
  · have hstrict := (hread'.of_odd hodd).1
    rw [hmeet] at hstrict
    exact absurd hstrict (Nat.not_lt.mpr hupper)

/-- A decimal reads back as at most one magnitude. -/
theorem ReadsAs.unique (hn : Representable n) (hm : Representable m) (h : ReadsAs n d)
    (h' : ReadsAs m d) : n = m := by
  rcases Nat.lt_trichotomy n m with hlt | heq | hgt
  · exact absurd h' (not_readsAs_of_lt hn.spacing_dvd hm.spacing_dvd hlt h)
  · exact heq
  · exact absurd h (not_readsAs_of_lt hm.spacing_dvd hn.spacing_dvd hgt h')

theorem readsAs_exact (n : Nat) : ReadsAs n (exact n) := by
  have hspacing := spacing_pos n
  have hvalue : 4 * exact n = 4 * n * decimalUnit := by rw [exact, Nat.mul_assoc]
  simp only [ReadsAs, hvalue]
  split
  · exact ⟨Nat.mul_le_mul_right _ (Nat.sub_le _ _), Nat.mul_le_mul_right _ (Nat.le_add_right _ _)⟩
  · rename_i hodd
    have hpos : 0 < n := by
      refine Nat.pos_of_ne_zero fun hzero => hodd ?_
      rw [hzero, Nat.zero_div]
    have hbelow : 0 < quarterBelow n := by
      rw [quarterBelow]
      split <;> omega
    exact ⟨Nat.mul_lt_mul_of_pos_right (by omega) decimalUnit_pos,
      Nat.mul_lt_mul_of_pos_right (by omega) decimalUnit_pos⟩

theorem readsAs_of_onGrid {grid : Nat} (h : onGrid n grid = some d) : ReadsAs n d := by
  simp only [onGrid] at h
  split at h
  · rename_i hboth
    rw [← Option.some.inj h]
    split
    · exact hboth.1
    · exact hboth.2
  · split at h
    · rename_i hlower
      rwa [← Option.some.inj h]
    · split at h
      · rename_i hupper
        rwa [← Option.some.inj h]
      · exact absurd h (by simp)

theorem readsAs_coarsest (n k : Nat) : ReadsAs n (coarsest n k) := by
  induction k with
  | zero => exact readsAs_exact n
  | succ k ih =>
    rw [coarsest]
    cases hgrid : onGrid n (tenPow (k + 1)) with
    | none => exact ih
    | some d => exact readsAs_of_onGrid hgrid

theorem readsAs_shortest (n : Nat) : ReadsAs n (shortest n) := readsAs_coarsest n _

/-- The shortest decimal of a magnitude determines it. -/
theorem Representable.eq_of_shortest_eq (hn : Representable n) (hm : Representable m)
    (h : shortest n = shortest m) : n = m :=
  ReadsAs.unique hn hm (readsAs_shortest n) (h ▸ readsAs_shortest m)

end Stackless.Number
