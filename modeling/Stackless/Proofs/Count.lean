import Stackless.Number.Basic

/-!
# Exact counts

Rounding leaves a representable magnitude alone, so the natural numbers up to `2 ^ 53` are exact
numbers of the target. On them the operations that code uses for counts and indices agree with
those of the natural numbers: cutting to an integer (`floor?_ofNat`), cutting to a word
(`toWord_ofNat`) and taking the predecessor (`ofNat_sub_one`). The predecessor of 0 is below 0,
which an index ignores and a length takes for 0.
-/

namespace Stackless.Number

/-! ## Rounding -/

theorem twoPow_lt_twoPow {j k : Nat} (h : j < k) : twoPow j < twoPow k :=
  Nat.pow_lt_pow_right (by decide) h

theorem twoPow_dvd_twoPow {j k : Nat} (h : j ≤ k) : twoPow j ∣ twoPow k := Nat.pow_dvd_pow 2 h

theorem spacing_dvd {m k : Nat} (h : m < twoPow 53) : spacing (m * twoPow k) ∣ m * twoPow k := by
  by_cases hm : m * twoPow k = 0
  · rw [hm]; exact Nat.dvd_zero _
  · have hlt : m * twoPow k < twoPow (53 + k) := by
      rw [twoPow_add]
      exact Nat.mul_lt_mul_of_pos_right h (twoPow_pos k)
    have hlog : (m * twoPow k).log2 < 53 + k := (Nat.log2_lt hm).mpr hlt
    have hk : (m * twoPow k).log2 - 52 ≤ k := by omega
    exact Nat.dvd_trans (twoPow_dvd_twoPow hk) (Nat.dvd_mul_left ..)

theorem round_of_dvd {n : Nat} (h : spacing n ∣ n) : round n = n := by
  have hs : 0 < spacing n := twoPow_pos _
  have hr : n % spacing n = 0 := Nat.mod_eq_zero_of_dvd h
  simp only [round, hr]
  rw [if_pos (.inl (by omega)), Nat.div_mul_cancel h]

theorem Representable.round_eq {n : Nat} (h : Representable n) : round n = n := by
  obtain ⟨_, m, k, hm, rfl⟩ := h
  exact round_of_dvd (spacing_dvd hm)

theorem ofUnits_of_representable {n : Nat} (h : Representable n) (negative : Bool) :
    ofUnits negative n = .finite negative n h := by
  simp only [ofUnits, h.round_eq]
  exact dif_pos h.1

/-- Rounding does not cross a power of two downwards. -/
theorem twoPow_le_round {k n : Nat} (h : twoPow k ≤ n) : twoPow k ≤ round n := by
  have hn : n ≠ 0 := Nat.ne_of_gt (Nat.lt_of_lt_of_le (twoPow_pos k) h)
  have hk : k ≤ n.log2 := (Nat.le_log2 hn).mpr h
  have hlog : twoPow n.log2 ≤ n := Nat.log2_self_le hn
  obtain ⟨c, hc⟩ : spacing n ∣ twoPow n.log2 := twoPow_dvd_twoPow (by omega)
  have hq : twoPow n.log2 ≤ n / spacing n * spacing n := by
    rw [hc, Nat.mul_comm]
    refine Nat.mul_le_mul_right _ ((Nat.le_div_iff_mul_le
      (show 0 < spacing n from twoPow_pos _)).mpr ?_)
    rw [Nat.mul_comm, ← hc]
    exact hlog
  refine Nat.le_trans (twoPow_le_twoPow hk) (Nat.le_trans hq ?_)
  simp only [round]
  split
  · exact Nat.le_refl _
  · exact Nat.mul_le_mul_right _ (Nat.le_succ _)

/-! ## Natural numbers -/

theorem one_pos : 0 < one := twoPow_pos _

theorem one_ne_zero : one ≠ 0 := Nat.ne_of_gt one_pos

theorem twoPow_mul_one (k : Nat) : twoPow k * one = twoPow (k + 1074) := by rw [one, twoPow_add]

theorem mul_one_lt_limit {n : Nat} (h : n ≤ twoPow 53) : n * one < limit := by
  have hlt : twoPow 53 < twoPow 1024 := twoPow_lt_twoPow (by decide)
  calc n * one ≤ twoPow 53 * one := Nat.mul_le_mul_right _ h
    _ < twoPow 1024 * one := Nat.mul_lt_mul_of_pos_right hlt one_pos
    _ = limit := by rw [one, limit, ← twoPow_add]

theorem representable_mul_one {n : Nat} (h : n ≤ twoPow 53) : Representable (n * one) := by
  refine ⟨mul_one_lt_limit h, ?_⟩
  by_cases hn : n < twoPow 53
  · exact ⟨n, 1074, hn, rfl⟩
  · -- the bound itself has one significant bit
    have hn : n = twoPow 52 * twoPow 1 := (Nat.le_antisymm h (Nat.not_lt.1 hn)).trans (twoPow_add 52 1)
    refine ⟨twoPow 52, 1 + 1074, twoPow_lt_twoPow (by decide), ?_⟩
    rw [hn, one, Nat.mul_assoc, ← twoPow_add]

theorem ofNat_eq {n : Nat} (h : n ≤ twoPow 53) :
    ofNat n = .finite false (n * one) (representable_mul_one h) := by
  have hsign : decide ((n : Int) < 0) = false := by simp
  simp only [ofNat, ofInt, hsign, Int.natAbs_natCast]
  exact ofUnits_of_representable (representable_mul_one h) false

theorem ofNat_zero : ofNat 0 = zero := by
  rw [ofNat_eq (Nat.zero_le _)]
  simp [zero, signedZero]

theorem floor?_ofNat {n : Nat} (h : n ≤ twoPow 53) : (ofNat n).floor? = some n := by
  rw [ofNat_eq h]
  simp [floor?, Nat.mul_div_cancel _ one_pos]

theorem toWord_ofNat {n : Nat} (h : n ≤ twoPow 53) : (ofNat n).toWord = n := by
  have hfloor := floor?_ofNat h
  have hword : twoPow 53 < twoPow 64 := twoPow_lt_twoPow (by decide)
  rw [ofNat_eq h] at hfloor ⊢
  simp only [toWord, hfloor, Option.getD_some]
  omega

theorem representable_one : Representable one := by
  have h : Representable (1 * one) := representable_mul_one Nat.one_le_two_pow
  rwa [Nat.one_mul] at h

theorem neg_ofNat_one : (ofNat 1).neg = .finite true one representable_one := by
  rw [ofNat_eq (n := 1) Nat.one_le_two_pow]
  simp only [neg, Nat.one_mul, Bool.not_false]

/-- The predecessor of a positive count. -/
theorem ofNat_sub_one {n : Nat} (h : n + 1 ≤ twoPow 53) :
    (ofNat (n + 1)).sub (ofNat 1) = ofNat n := by
  have hn : n ≤ twoPow 53 := by omega
  have hsum : signed false ((n + 1) * one) + signed true one = ((n * one : Nat) : Int) := by
    simp only [signed, Bool.false_eq_true, if_false, if_true]
    rw [Nat.succ_mul]
    omega
  rw [sub, neg_ofNat_one, ofNat_eq h]
  simp only [add, hsum]
  by_cases hz : n = 0
  · subst hz
    rw [ofNat_zero]
    simp [zero]
  · have hpos : n * one ≠ 0 := Nat.mul_ne_zero hz one_ne_zero
    have hsign : decide (((n * one : Nat) : Int) < 0) = false := decide_eq_false (by omega)
    rw [if_neg (by exact_mod_cast hpos), hsign, Int.natAbs_natCast,
      ofUnits_of_representable (representable_mul_one hn), ofNat_eq hn]

/-- The predecessor of a count that is not exact is still large, or infinite. -/
theorem twoPow_le_floor?_sub_one {n i : Nat} (h : twoPow 53 ≤ n)
    (hi : ((ofNat n).sub (ofNat 1)).floor? = some i) : twoPow 52 ≤ i := by
  have hsign : decide ((n : Int) < 0) = false := by simp
  have hround : twoPow 53 * one ≤ round (n * one) := by
    rw [twoPow_mul_one]
    refine twoPow_le_round ?_
    rw [← twoPow_mul_one]
    exact Nat.mul_le_mul_right _ h
  have hdouble : twoPow 53 * one = twoPow 52 * one + twoPow 52 * one := by
    rw [show twoPow 53 = twoPow 52 * twoPow 1 from twoPow_add 52 1, show twoPow 1 = 2 from rfl]
    rw [Nat.mul_two, Nat.add_mul]
  have hle : one ≤ twoPow 52 * one := Nat.le_mul_of_pos_left _ (twoPow_pos 52)
  rw [sub, neg_ofNat_one] at hi
  simp only [ofNat, ofInt, hsign, Int.natAbs_natCast, ofUnits] at hi
  split at hi
  · have hsum : signed false (round (n * one)) + signed true one =
        ((round (n * one) - one : Nat) : Int) := by
      simp only [signed, Bool.false_eq_true, if_false, if_true]
      omega
    have hpos : round (n * one) - one ≠ 0 := by have := one_pos; omega
    simp only [add, hsum] at hi
    rw [if_neg (by exact_mod_cast hpos), decide_eq_false (by omega), Int.natAbs_natCast,
      ofUnits] at hi
    split at hi
    · simp only [floor?, Bool.false_and, if_neg Bool.false_ne_true, Option.some.injEq] at hi
      rw [← hi, Nat.le_div_iff_mul_le one_pos, twoPow_mul_one]
      refine twoPow_le_round ?_
      rw [← twoPow_mul_one]
      omega
    · simp [floor?] at hi
  · simp [add, floor?] at hi

/-- The predecessor of 0 is below 0. -/
theorem zero_sub_one : (ofNat 0).sub (ofNat 1) = (ofNat 1).neg := by
  rw [sub, neg_ofNat_one, ofNat_zero]
  have hsum : signed false 0 + signed true one = -(one : Int) := by
    simp only [signed, Bool.false_eq_true, if_false, if_true]
    omega
  have hpos := one_pos
  have hne : -(one : Int) ≠ 0 := by omega
  have hsign : decide (-(one : Int) < 0) = true := decide_eq_true (by omega)
  simp only [zero, signedZero, add, hsum]
  rw [if_neg hne, hsign, Int.natAbs_neg, Int.natAbs_natCast]
  exact ofUnits_of_representable _ true

theorem floor?_neg_one : (ofNat 1).neg.floor? = none := by
  rw [neg_ofNat_one]
  simp [floor?, one_ne_zero]

theorem toWord_neg_one : (ofNat 1).neg.toWord = 0 := by
  have hfloor := floor?_neg_one
  rw [neg_ofNat_one] at hfloor ⊢
  simp [toWord, hfloor]

end Stackless.Number
