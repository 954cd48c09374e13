import Mathlib.Logic.Function.Basic
import Stackless.Proofs.Phrases
import Stackless.Proofs.ReadingBack

/-!
# Texts of numbers

The text of a number determines it (`text_injective`): a sign is told apart from what follows it,
positional notation determines a decimal (`positional_injective`), and the decimal determines the
number it reads back as. Two bit patterns stand for the same number only if they are equal or both
stand for NaN (`ofBits_eq_iff`), so equal texts come from equal bit patterns.
-/

namespace Stackless.Number

/-! ## Positional notation -/

theorem decimalOne_pos : 0 < decimalOne := by decide +kernel

theorem ten_mul_div_lt {d : Nat} (h : d < decimalOne) : 10 * d / decimalOne < 10 := by
  rw [Nat.div_lt_iff_lt_mul decimalOne_pos]
  omega

theorem isDigit_of_mem_fractionDigits {k d : Nat} {c : Char} (h : d < decimalOne)
    (hc : c ∈ fractionDigits k d) : c.isDigit = true := by
  induction k generalizing d with
  | zero => exact absurd hc List.not_mem_nil
  | succ k ih =>
    rw [fractionDigits] at hc
    split at hc
    · exact absurd hc List.not_mem_nil
    · rcases List.mem_cons.mp hc with rfl | hc
      · rw [Nat.isDigit_digitChar]
        exact decide_eq_true (ten_mul_div_lt h)
      · exact ih (Nat.mod_lt _ decimalOne_pos) hc

/-- If all digits after the point are written, they determine a decimal below one. -/
theorem fractionDigits_inj {k d d' : Nat} (hd : d < decimalOne) (hd' : d' < decimalOne)
    (hend : decimalOne ∣ tenPow k * d) (hend' : decimalOne ∣ tenPow k * d')
    (h : fractionDigits k d = fractionDigits k d') : d = d' := by
  induction k generalizing d d' with
  | zero =>
    have hzero : tenPow 0 = 1 := rfl
    rw [hzero, Nat.one_mul] at hend hend'
    rw [Nat.eq_zero_of_dvd_of_lt hend hd, Nat.eq_zero_of_dvd_of_lt hend' hd']
  | succ k ih =>
    have hrest : ∀ {d}, decimalOne ∣ tenPow (k + 1) * d →
        decimalOne ∣ tenPow k * (10 * d % decimalOne) := by
      intro d hend
      have hstep : tenPow (k + 1) * d = tenPow k * (10 * d) := by
        rw [← Nat.mul_assoc]
        rfl
      rw [hstep, ← Nat.div_add_mod (10 * d) decimalOne, Nat.mul_add] at hend
      refine (Nat.dvd_add_right ?_).mp hend
      exact Nat.dvd_trans (Nat.dvd_mul_right _ _) (Nat.dvd_mul_left _ _)
    simp only [fractionDigits] at h
    split at h <;> split at h
    · omega
    · cases h
    · cases h
    · obtain ⟨hchar, htail⟩ := List.cons.inj h
      have hquot := digitChar_inj (ten_mul_div_lt hd) (ten_mul_div_lt hd') hchar
      have hmod := ih (Nat.mod_lt _ decimalOne_pos) (Nat.mod_lt _ decimalOne_pos) (hrest hend)
        (hrest hend') htail
      have hten : 10 * d = 10 * d' := by
        rw [← Nat.div_add_mod (10 * d) decimalOne, hquot, hmod, Nat.div_add_mod]
      omega

/-- The digits after the point, with the point, if there are any. -/
def fractionText (d : Nat) : List Char :=
  if d % decimalOne = 0 then [] else '.' :: fractionDigits 1074 (d % decimalOne)

theorem positional_toList (d : Nat) :
    (positional d).toList = Nat.toDigits 10 (d / decimalOne) ++ fractionText d := by
  rw [positional, fractionText]
  split <;> simp

theorem fractionText_inj {d d' : Nat} (h : fractionText d = fractionText d') :
    d % decimalOne = d' % decimalOne := by
  simp only [fractionText] at h
  split at h <;> split at h
  · omega
  · cases h
  · cases h
  · exact fractionDigits_inj (Nat.mod_lt _ decimalOne_pos) (Nat.mod_lt _ decimalOne_pos)
      (Nat.dvd_mul_right decimalOne _) (Nat.dvd_mul_right decimalOne _) (List.cons.inj h).2

theorem head_fractionText {d : Nat} {c : Char} (hc : c ∈ (fractionText d).head?) :
    c.isDigit = false := by
  rw [fractionText] at hc
  split at hc
  · exact absurd hc (Option.not_mem_none c)
  · cases hc
    rfl

theorem positional_injective : Function.Injective positional := by
  intro d d' h
  have htext := congrArg String.toList h
  rw [positional_toList, positional_toList] at htext
  obtain ⟨hwhole, hfraction⟩ := append_inj_of_forall (fun _ => isDigit_of_mem_toDigits)
    (fun _ => isDigit_of_mem_toDigits) (fun _ => head_fractionText) (fun _ => head_fractionText) htext
  rw [← Nat.div_add_mod d decimalOne, toDigits_inj hwhole, fractionText_inj hfraction,
    Nat.div_add_mod]

/-! ## Signs -/

/-- The text of a number without its sign. -/
def unsignedText : Number → List Char
  | .nan => ['N', 'a', 'N']
  | .infinite _ => ['i', 'n', 'f']
  | .finite _ n _ => (positional (shortest n)).toList

def isNegative : Number → Bool
  | .nan => false
  | .infinite s => s
  | .finite s _ _ => s

theorem shortest_zero : shortest 0 = 0 := by
  have hzero : exact 0 = 0 := Nat.zero_mul _
  rw [shortest, hzero]
  exact hzero

theorem positional_zero : positional 0 = "0" := by
  apply String.toList_inj.mp
  rw [positional_toList, fractionText, Nat.zero_div, Nat.zero_mod]
  rfl

/-- Zero is written like other numbers. -/
theorem text_finite (s : Bool) (n : Nat) (h : Representable n) :
    (finite s n h).text = (if s then "-" else "") ++ positional (shortest n) := by
  rw [text]
  congr 1
  split
  · rename_i hn
    rw [hn, shortest_zero, positional_zero]
  · rfl

theorem text_toList (x : Number) :
    x.text.toList = (if x.isNegative then ['-'] else []) ++ x.unsignedText := by
  cases x with
  | nan => rfl
  | infinite s => cases s <;> rfl
  | finite s n h =>
    rw [text_finite, String.toList_append, unsignedText, isNegative]
    congr 1
    cases s <;> rfl

theorem exists_positional_eq_cons (d : Nat) :
    ∃ c cs, (positional d).toList = c :: cs ∧ c.isDigit = true := by
  obtain ⟨c, cs, hwhole, hc⟩ := exists_toDigits_eq_cons (d / decimalOne)
  refine ⟨c, cs ++ fractionText d, ?_, hc⟩
  rw [positional_toList, hwhole, List.cons_append]

theorem exists_unsignedText_eq_cons (x : Number) : ∃ c cs, x.unsignedText = c :: cs ∧ c ≠ '-' := by
  cases x with
  | nan => exact ⟨'N', _, rfl, by decide⟩
  | infinite s => exact ⟨'i', _, rfl, by decide⟩
  | finite s n h =>
    obtain ⟨c, cs, heq, hc⟩ := exists_positional_eq_cons (shortest n)
    exact ⟨c, cs, heq, ne_of_isDigit hc (by decide)⟩

theorem isNegative_eq_of_text_eq {x y : Number} (h : x.text = y.text) :
    x.isNegative = y.isNegative ∧ x.unsignedText = y.unsignedText := by
  have htext := congrArg String.toList h
  rw [text_toList, text_toList] at htext
  obtain ⟨c, cs, hx, hc⟩ := x.exists_unsignedText_eq_cons
  obtain ⟨c', cs', hy, hc'⟩ := y.exists_unsignedText_eq_cons
  cases hsx : x.isNegative <;> cases hsy : y.isNegative <;> rw [hsx, hsy] at htext
  · exact ⟨rfl, htext⟩
  · rw [hx] at htext
    exact absurd (List.cons.inj htext).1 hc
  · rw [hy] at htext
    exact absurd (List.cons.inj htext).1.symm hc'
  · exact ⟨rfl, (List.cons.inj htext).2⟩

theorem positional_head_ne {d : Nat} {c : Char} {cs : List Char} (hc : c.isDigit = false) :
    (positional d).toList ≠ c :: cs := by
  obtain ⟨c', cs', heq, hc'⟩ := exists_positional_eq_cons d
  rw [heq]
  exact fun h => ne_of_isDigit hc' hc (List.cons.inj h).1

theorem text_injective : Function.Injective text := by
  intro x y h
  obtain ⟨hsign, hunsigned⟩ := isNegative_eq_of_text_eq h
  cases x with
  | nan =>
    cases y with
    | nan => rfl
    | infinite s => exact absurd hunsigned (by simp [unsignedText])
    | finite s n hn => exact absurd hunsigned.symm (positional_head_ne (by decide))
  | infinite s =>
    cases y with
    | nan => exact absurd hunsigned (by simp [unsignedText])
    | infinite s' => exact congrArg infinite hsign
    | finite s' n hn => exact absurd hunsigned.symm (positional_head_ne (by decide))
  | finite s n hn =>
    cases y with
    | nan => exact absurd hunsigned (positional_head_ne (by decide))
    | infinite s' => exact absurd hunsigned (positional_head_ne (by decide))
    | finite s' m hm =>
      have hshortest := positional_injective (String.toList_inj.mp hunsigned)
      have hunits : n = m := hn.eq_of_shortest_eq hm hshortest
      have hneg : s = s' := hsign
      subst hunits hneg
      rfl

/-! ## Words -/

/-- A finite number is written with digits, a sign and a point. -/
theorem mem_text_finite {s : Bool} {n : Nat} {h : Representable n} {c : Char}
    (hc : c ∈ (finite s n h).text.toList) : c.isDigit = true ∨ c = '-' ∨ c = '.' := by
  rw [text_toList, List.mem_append, unsignedText, positional_toList, List.mem_append] at hc
  rcases hc with hc | hc | hc
  · split at hc
    · exact .inr (.inl (List.mem_singleton.mp hc))
    · exact absurd hc List.not_mem_nil
  · exact .inl (isDigit_of_mem_toDigits hc)
  · rw [fractionText] at hc
    split at hc
    · exact absurd hc List.not_mem_nil
    · rcases List.mem_cons.mp hc with hc | hc
      · exact .inr (.inr hc)
      · exact .inl (isDigit_of_mem_fractionDigits (Nat.mod_lt _ decimalOne_pos) hc)

theorem plain_text (x : Number) : Plain x.text.toList := by
  have hne : x.text.toList ≠ [] := by
    obtain ⟨c, cs, heq, _⟩ := x.exists_unsignedText_eq_cons
    simp [text_toList, heq]
  cases x with
  | nan => exact plain_of_all hne rfl
  | infinite s =>
    refine plain_of_all hne ?_
    cases s <;> rfl
  | finite s n h => exact plain_of_digits hne fun _ => mem_text_finite

/-- The text of a number is a word. -/
def word (x : Number) : Word := ⟨x.text.toList, x.plain_text⟩

theorem word_chars (x : Number) : x.word.chars = x.text.toList := rfl

theorem word_inj {x y : Number} (h : x.word = y.word) : x = y :=
  text_injective (String.toList_inj.mp (congrArg Word.chars h))

/-! ## Bit patterns -/

/-- The magnitude that the fields of a finite bit pattern stand for. -/
def magnitude (exponent fraction : Nat) : Nat :=
  if exponent = 0 then fraction else (twoPow 52 + fraction) * twoPow (exponent - 1)

theorem magnitude_lt {e f : Nat} (hf : f < twoPow 52) : magnitude e f < twoPow (52 + e) := by
  rw [magnitude]
  split
  · rename_i he
    rw [he]
    exact hf
  · have hsig : twoPow 52 + f < twoPow 53 := by
      rw [twoPow_succ 52]
      omega
    calc (twoPow 52 + f) * twoPow (e - 1) < twoPow 53 * twoPow (e - 1) :=
          Nat.mul_lt_mul_of_pos_right hsig (twoPow_pos _)
      _ = twoPow (52 + e) := by
          rw [← twoPow_add]
          exact congrArg twoPow (by omega)

theorem le_magnitude {e f : Nat} (he : e ≠ 0) : twoPow (51 + e) ≤ magnitude e f := by
  rw [magnitude, if_neg he]
  calc twoPow (51 + e) = twoPow 52 * twoPow (e - 1) := by
        rw [← twoPow_add]
        exact congrArg twoPow (by omega)
    _ ≤ (twoPow 52 + f) * twoPow (e - 1) := Nat.mul_le_mul_right _ (Nat.le_add_right _ _)

theorem magnitude_lt_magnitude {e e' f f' : Nat} (hf : f < twoPow 52) (h : e < e') :
    magnitude e f < magnitude e' f' := by
  refine Nat.lt_of_lt_of_le (magnitude_lt hf) (Nat.le_trans ?_ (le_magnitude (by omega)))
  exact twoPow_le_twoPow (by omega)

theorem magnitude_inj {e e' f f' : Nat} (hf : f < twoPow 52) (hf' : f' < twoPow 52)
    (h : magnitude e f = magnitude e' f') : e = e' ∧ f = f' := by
  have he : e = e' := by
    rcases Nat.lt_trichotomy e e' with hlt | heq | hgt
    · exact absurd h (Nat.ne_of_lt (magnitude_lt_magnitude hf hlt))
    · exact heq
    · exact absurd h.symm (Nat.ne_of_lt (magnitude_lt_magnitude hf' hgt))
  subst he
  refine ⟨rfl, ?_⟩
  simp only [magnitude] at h
  split at h
  · exact h
  · exact Nat.add_left_cancel (Nat.eq_of_mul_eq_mul_right (twoPow_pos _) h)

theorem representable_magnitude {e f : Nat} (he : e < 2047) (hf : f < twoPow 52) :
    Representable (magnitude e f) := by
  refine ⟨Nat.lt_of_lt_of_le (magnitude_lt hf) (twoPow_le_twoPow (by omega)), ?_⟩
  rw [magnitude]
  split
  · exact ⟨f, 0, Nat.lt_trans hf (twoPow_lt_twoPow (by decide)), (Nat.mul_one f).symm⟩
  · refine ⟨twoPow 52 + f, e - 1, ?_, rfl⟩
    rw [twoPow_succ 52]
    omega

def signField (bits : UInt64) : Bool := bits.toNat / twoPow 63 == 1

def exponentField (bits : UInt64) : Nat := bits.toNat / twoPow 52 % 2048

def fractionField (bits : UInt64) : Nat := bits.toNat % twoPow 52

theorem fractionField_lt (bits : UInt64) : fractionField bits < twoPow 52 :=
  Nat.mod_lt _ (twoPow_pos _)

theorem eq_of_fields_eq {b c : UInt64} (hs : signField b = signField c)
    (he : exponentField b = exponentField c) (hf : fractionField b = fractionField c) : b = c := by
  have h63 : twoPow 63 = 9223372036854775808 := rfl
  have h52 : twoPow 52 = 4503599627370496 := rfl
  simp only [signField, exponentField, fractionField, h63, h52] at hs he hf
  rw [Bool.eq_iff_iff, beq_iff_eq, beq_iff_eq] at hs
  have hb := b.toNat_lt
  have hc := c.toNat_lt
  apply UInt64.toNat_inj.mp
  omega

/-- What a bit pattern stands for, by its fields. -/
theorem ofBits_cases (b : UInt64) :
    (exponentField b = 2047 ∧ fractionField b = 0 ∧ ofBits b = .infinite (signField b)) ∨
    (exponentField b = 2047 ∧ fractionField b ≠ 0 ∧ ofBits b = .nan) ∨
    ∃ h : Representable (magnitude (exponentField b) (fractionField b)),
      ofBits b = .finite (signField b) _ h := by
  have hdef : ofBits b =
      if exponentField b = 2047 then
        if fractionField b = 0 then .infinite (signField b) else .nan
      else if exponentField b = 0 then ofUnits (signField b) (fractionField b)
      else ofUnits (signField b) ((twoPow 52 + fractionField b) * twoPow (exponentField b - 1)) :=
    rfl
  by_cases he : exponentField b = 2047
  · rw [if_pos he] at hdef
    by_cases hf : fractionField b = 0
    · exact .inl ⟨he, hf, hdef.trans (if_pos hf)⟩
    · exact .inr (.inl ⟨he, hf, hdef.trans (if_neg hf)⟩)
  · have hlt : exponentField b < 2048 := Nat.mod_lt _ (by decide)
    have hrep := representable_magnitude (by omega : exponentField b < 2047) (fractionField_lt b)
    have hunits : ofBits b = ofUnits (signField b) (magnitude (exponentField b) (fractionField b)) := by
      rw [hdef, if_neg he, magnitude]
      split <;> rfl
    exact .inr (.inr ⟨hrep, hunits.trans (ofUnits_of_representable hrep _)⟩)

/-- Numbers are told apart like their bit patterns, of which all that stand for NaN count as one. -/
theorem ofBits_eq_iff (b c : UInt64) :
    ofBits b = ofBits c ↔ b = c ∨ ofBits b = .nan ∧ ofBits c = .nan := by
  constructor
  · intro h
    rcases ofBits_cases b with ⟨heb, hfb, hb⟩ | ⟨_, _, hb⟩ | ⟨hrb, hb⟩
    · rcases ofBits_cases c with ⟨hec, hfc, hc⟩ | ⟨_, _, hc⟩ | ⟨hrc, hc⟩
      · rw [hb, hc] at h
        exact .inl (eq_of_fields_eq (Number.infinite.inj h) (heb.trans hec.symm) (hfb.trans hfc.symm))
      · rw [hb, hc] at h
        cases h
      · rw [hb, hc] at h
        cases h
    · exact .inr ⟨hb, h ▸ hb⟩
    · rcases ofBits_cases c with ⟨_, _, hc⟩ | ⟨_, _, hc⟩ | ⟨hrc, hc⟩
      · rw [hb, hc] at h
        cases h
      · rw [hb, hc] at h
        cases h
      · rw [hb, hc] at h
        injection h with hsign hunits
        obtain ⟨he, hf⟩ := magnitude_inj (fractionField_lt b) (fractionField_lt c) hunits
        exact .inl (eq_of_fields_eq hsign he hf)
  · rintro (rfl | ⟨hb, hc⟩)
    · rfl
    · rw [hb, hc]

end Stackless.Number
