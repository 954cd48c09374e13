/-!
# Digits

Texts hold numbers in decimal notation. The digits of a number are digits only, there is at least
one, and they determine the number. Where they are followed by something else, they are split off in
one way only (`append_inj_of_forall`).
-/

namespace Stackless

theorem isDigit_of_mem_toDigits {n : Nat} {c : Char} (h : c ∈ Nat.toDigits 10 n) :
    c.isDigit = true :=
  Nat.isDigit_of_mem_toDigits (by decide) (by decide) h

theorem exists_toDigits_eq_cons (n : Nat) :
    ∃ c cs, Nat.toDigits 10 n = c :: cs ∧ c.isDigit = true := by
  cases hn : Nat.toDigits 10 n with
  | nil => exact absurd hn Nat.toDigits_ne_nil
  | cons c cs => exact ⟨c, cs, rfl, isDigit_of_mem_toDigits (hn ▸ List.mem_cons_self)⟩

theorem toDigits_inj {a b : Nat} (h : Nat.toDigits 10 a = Nat.toDigits 10 b) : a = b := by
  rw [← Nat.ofDigitChars_ten_toDigits (n := a), h, Nat.ofDigitChars_ten_toDigits]

theorem digitChar_inj {a b : Nat} (ha : a < 10) (hb : b < 10)
    (h : Nat.digitChar a = Nat.digitChar b) : a = b := by
  rw [← Nat.toNat_digitChar_sub_48_of_lt_ten ha, ← Nat.toNat_digitChar_sub_48_of_lt_ten hb, h]

theorem ne_of_isDigit {c c' : Char} (h : c.isDigit = true) (h' : c'.isDigit = false) : c ≠ c' := by
  rintro rfl
  rw [h] at h'
  cases h'

/-- A text that ends where a property of its characters ends is split off in one way only. -/
theorem append_inj_of_forall {p : Char → Bool} {v w r s : List Char}
    (hv : ∀ c ∈ v, p c = true) (hw : ∀ c ∈ w, p c = true) (hr : ∀ c ∈ r.head?, p c = false)
    (hs : ∀ c ∈ s.head?, p c = false) (h : v ++ r = w ++ s) : v = w ∧ r = s := by
  have hstop : ∀ l : List Char, (∀ c ∈ l.head?, p c = false) → l.takeWhile p = [] := by
    intro l hl
    cases l with
    | nil => rfl
    | cons c l => rw [List.takeWhile_cons_of_neg (by simpa using hl c rfl)]
  have hword : v = w := by
    have htake := congrArg (List.takeWhile p) h
    rwa [List.takeWhile_append_of_pos hv, List.takeWhile_append_of_pos hw, hstop r hr, hstop s hs,
      List.append_nil, List.append_nil] at htake
  subst hword
  exact ⟨rfl, List.append_cancel_left h⟩

end Stackless
