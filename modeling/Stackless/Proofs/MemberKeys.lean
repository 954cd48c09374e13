import Mathlib.Data.Fintype.EquivFin
import Mathlib.Data.UInt
import Stackless.Key

/-!
# Keys of members

Every step by which a word is absorbed into a digest can be undone: a product with an odd number, a
rotation, a word mixed in by `xor` or by a sum, and the `xor` with a shifted copy. So the digest of
a single word is a permutation of all words (`Digest.ofWord_bijective`), and no two constructors
of a class have the same key. The key of the owner goes into the key of a member by a rotation
alone, so members of the same name or arity have different keys in different classes.
-/

namespace Stackless

namespace Digest

variable {x y p q k : UInt64} {i : Nat}

/-! ## Bits of words -/

/-- A bit of a word, counted from the lowest. -/
def bit (x : UInt64) (i : Nat) : Bool := x.toBitVec.getLsbD i

theorem eq_of_bit_eq (h : ∀ i < 64, bit x i = bit y i) : x = y :=
  UInt64.eq_of_toBitVec_eq (BitVec.eq_of_getLsbD_eq h)

theorem bit_of_le (x : UInt64) (h : 64 ≤ i) : bit x i = false := BitVec.getLsbD_of_ge _ _ h

theorem bit_or (x y : UInt64) (i : Nat) : bit (x ||| y) i = (bit x i || bit y i) := by
  simp [bit]

theorem bit_xor (x y : UInt64) (i : Nat) : bit (x ^^^ y) i = (bit x i ^^ bit y i) := by
  simp [bit]

theorem bit_shiftRight (x : UInt64) (h : k < 64) (i : Nat) :
    bit (x >>> k) i = bit x (k.toNat + i) := by
  have hk : k.toNat < 64 := UInt64.lt_iff_toNat_lt.mp h
  simp [bit, Nat.mod_eq_of_lt hk]

theorem bit_shiftLeft (x : UInt64) (h : k < 64) (i : Nat) :
    bit (x <<< k) i = (decide (i < 64) && !decide (i < k.toNat) && bit x (i - k.toNat)) := by
  have hk : k.toNat < 64 := UInt64.lt_iff_toNat_lt.mp h
  simp [bit, Nat.mod_eq_of_lt hk]

/-! ## Steps that can be undone -/

theorem mul_injective (h : p * q = 1) : Function.Injective (· * p) := by
  intro x y hxy
  have hq : x * p * q = y * p * q := congrArg (· * q) hxy
  rwa [UInt64.mul_assoc, UInt64.mul_assoc, h, UInt64.mul_one, UInt64.mul_one] at hq

/-- A rotation moves every bit to a place of its own. -/
theorem bit_rotateLeft (x : UInt64) (hpos : 0 < k) (h : k < 64) (hi : i < 64) :
    bit (rotateLeft x k) ((i + k.toNat) % 64) = bit x i := by
  have hk : k.toNat < 64 := UInt64.lt_iff_toNat_lt.mp h
  have hkpos : 0 < k.toNat := UInt64.lt_iff_toNat_lt.mp hpos
  have hback : 64 - k < 64 := by
    rw [UInt64.lt_iff_toNat_lt, UInt64.toNat_sub_of_le _ _ (UInt64.le_of_lt h)]
    exact Nat.sub_lt (by decide) hkpos
  have hrest : (64 - k).toNat = 64 - k.toNat := UInt64.toNat_sub_of_le _ _ (UInt64.le_of_lt h)
  rw [rotateLeft, bit_or, bit_shiftLeft x h, bit_shiftRight x hback, hrest]
  rcases Nat.lt_or_ge (i + k.toNat) 64 with hlt | hge
  · -- the bit does not leave the word on the left, and nothing comes in from the right
    have hplace : (i + k.toNat) % 64 = i + k.toNat := Nat.mod_eq_of_lt hlt
    have hnone : bit x (64 - k.toNat + (i + k.toNat)) = false := bit_of_le x (by omega)
    rw [hplace, hnone, Nat.add_sub_cancel]
    simp [hlt]
  · have hplace : (i + k.toNat) % 64 = i + k.toNat - 64 := by omega
    have hsame : 64 - k.toNat + (i + k.toNat - 64) = i := by omega
    have hlow : i + k.toNat - 64 < k.toNat := by omega
    rw [hplace, hsame]
    simp [hlow]

theorem rotateLeft_injective (hpos : 0 < k) (h : k < 64) : Function.Injective (rotateLeft · k) := by
  intro x y hxy
  apply eq_of_bit_eq
  intro i hi
  rw [← bit_rotateLeft x hpos h hi, ← bit_rotateLeft y hpos h hi]
  exact congrArg (bit · _) hxy

/-- The highest bits stay as they are, and each lower one is recovered from a higher one. -/
theorem xorShift_injective (hpos : 0 < k) (h : k < 64) :
    Function.Injective fun x : UInt64 => x ^^^ (x >>> k) := by
  intro x y hxy
  have hkpos : 0 < k.toNat := UInt64.lt_iff_toNat_lt.mp hpos
  have hbits : ∀ n i, 64 - i ≤ n → bit x i = bit y i := by
    intro n
    induction n with
    | zero =>
      intro i hi
      rw [bit_of_le x (by omega), bit_of_le y (by omega)]
    | succ n ih =>
      intro i hi
      have hhigher : bit x (k.toNat + i) = bit y (k.toNat + i) := ih _ (by omega)
      have hbit : bit (x ^^^ (x >>> k)) i = bit (y ^^^ (y >>> k)) i := congrArg (bit · i) hxy
      rw [bit_xor, bit_xor, bit_shiftRight x h, bit_shiftRight y h, hhigher] at hbit
      exact Bool.xor_left_inj.mp hbit
  exact eq_of_bit_eq fun i _ => hbits (64 - i) i (Nat.le_refl _)

/-! ## The digest of a word -/

theorem bit_toUInt8_toUInt64 (w : UInt64) (hi : i < 64) :
    bit w.toUInt8.toUInt64 i = (decide (i < 8) && bit w i) := by
  simp only [bit, UInt8.toBitVec_toUInt64, UInt64.toBitVec_toUInt8, BitVec.getLsbD_setWidth, hi,
    decide_true, Bool.true_and]

/-- A word is put together again from its lowest byte and the others. -/
theorem littleEndian_cons {w : UInt64} {bytes : List UInt8} (h : littleEndian bytes = w >>> 8) :
    littleEndian (w.toUInt8 :: bytes) = w := by
  rw [littleEndian, h]
  apply eq_of_bit_eq
  intro i hi
  rw [bit_or, bit_toUInt8_toUInt64 _ hi, bit_shiftLeft _ (by decide), bit_shiftRight _ (by decide)]
  rcases Nat.lt_or_ge i 8 with hlow | hhigh
  · simp [hlow]
  · have hplace : (8 : UInt64).toNat + (i - (8 : UInt64).toNat) = i := Nat.add_sub_cancel' hhigh
    rw [hplace]
    simp [hi, Nat.not_lt.mpr hhigh]

theorem shiftRight_shiftRight (w : UInt64) {j k : UInt64} (hj : j < 64) (hk : k < 64)
    (h : j.toNat + k.toNat < 64) : w >>> j >>> k = w >>> (j + k) := by
  have hsum : (j + k).toNat = j.toNat + k.toNat := by
    rw [UInt64.toNat_add]
    exact Nat.mod_eq_of_lt (by omega)
  have hlt : j + k < 64 := by
    rw [UInt64.lt_iff_toNat_lt, hsum]
    exact h
  apply eq_of_bit_eq
  intro i _
  rw [bit_shiftRight _ hk, bit_shiftRight _ hj, bit_shiftRight _ hlt, hsum, Nat.add_assoc]

theorem littleEndian_bytesOf (w : UInt64) : littleEndian (bytesOf w) = w := by
  have hlast : littleEndian [] = w >>> 56 >>> 8 := by
    apply eq_of_bit_eq
    intro i _
    rw [bit_shiftRight _ (by decide), bit_shiftRight _ (by decide), bit_of_le w]
    · simp [littleEndian, bit]
    · exact Nat.le_trans (by decide) (Nat.add_le_add_left (Nat.le_add_right 8 i) 56)
  have hstep (j : UInt64) (hj : j < 56) {bytes : List UInt8}
      (h : littleEndian bytes = w >>> (j + 8)) :
      littleEndian ((w >>> j).toUInt8 :: bytes) = w >>> j := by
    have hlt : j.toNat < 56 := UInt64.lt_iff_toNat_lt.mp hj
    apply littleEndian_cons
    rw [h, shiftRight_shiftRight w (UInt64.lt_trans hj (by decide)) (by decide)]
    exact Nat.add_lt_add_right hlt 8
  apply littleEndian_cons
  apply hstep 8 (by decide)
  apply hstep 16 (by decide)
  apply hstep 24 (by decide)
  apply hstep 32 (by decide)
  apply hstep 40 (by decide)
  apply hstep 48 (by decide)
  exact littleEndian_cons hlast

theorem words_bytesOf (w : UInt64) : words (bytesOf w) = ([w], []) := by
  calc words (bytesOf w) = ([littleEndian (bytesOf w)], []) := rfl
    _ = ([w], []) := by rw [littleEndian_bytesOf]

theorem prime1_mul_injective : Function.Injective (· * prime1) :=
  mul_injective (q := 0x887493432badb37) (by decide)

theorem prime2_mul_injective : Function.Injective (· * prime2) :=
  mul_injective (q := 0xba79078168d4baf) (by decide)

theorem prime3_mul_injective : Function.Injective (· * prime3) :=
  mul_injective (q := 0xe9e9f4c41d6df849) (by decide)

theorem mix_injective (lane : UInt64) : Function.Injective (mix lane) := by
  intro v w h
  have hrotated := prime1_mul_injective h
  have hsum := rotateLeft_injective (by decide) (by decide) hrotated
  exact prime2_mul_injective ((UInt64.add_right_inj _).mp hsum)

theorem absorbWord_injective (h : UInt64) : Function.Injective (absorbWord h) := by
  intro v w heq
  have hproduct := (UInt64.add_left_inj _).mp heq
  have hrotated := prime1_mul_injective hproduct
  have hmixed := rotateLeft_injective (by decide) (by decide) hrotated
  exact mix_injective 0 ((UInt64.xor_right_inj h).mp hmixed)

theorem avalanche_injective : Function.Injective avalanche := by
  intro v w h
  have hsecond := xorShift_injective (k := 32) (by decide) (by decide) h
  have hfirst := xorShift_injective (k := 29) (by decide) (by decide) (prime3_mul_injective hsecond)
  exact xorShift_injective (k := 33) (by decide) (by decide) (prime2_mul_injective hfirst)

theorem ofWord_eq (w : UInt64) : ofWord w = avalanche (absorbWord (prime5 + 8) w) := by
  rw [ofWord, ofBytes, words_bytesOf]
  rfl

theorem ofWord_injective : Function.Injective ofWord := by
  intro v w h
  rw [ofWord_eq, ofWord_eq] at h
  exact absorbWord_injective _ (avalanche_injective h)

theorem ofWord_bijective : Function.Bijective ofWord := by
  have : Finite UInt64 := Finite.of_injective UInt64.toFin fun _ _ => UInt64.toFin_inj.mp
  exact Finite.injective_iff_bijective.mp ofWord_injective

end Digest

/-! ## Keys -/

namespace Key

/-- The key of a member determines the key of its owner. -/
theorem owner_injective (marker digest : UInt64) {k : UInt64} (hpos : 0 < k) (h : k < 64) :
    Function.Injective fun owner : Key =>
      (⟨marker ^^^ Digest.rotateLeft owner.word k ^^^ digest⟩ : Key) := by
  intro owner owner' heq
  have hword : marker ^^^ Digest.rotateLeft owner.word k ^^^ digest =
      marker ^^^ Digest.rotateLeft owner'.word k ^^^ digest := congrArg Key.word heq
  have hrotated := (UInt64.xor_right_inj marker).mp ((UInt64.xor_left_inj digest).mp hword)
  have howner : owner.word = owner'.word := Digest.rotateLeft_injective hpos h hrotated
  cases owner
  cases owner'
  exact congrArg Key.mk howner

theorem constructor_injective (owner : Key) : Function.Injective (constructor owner) := by
  intro arity arity' heq
  exact Digest.ofWord_injective ((UInt64.xor_right_inj _).mp (congrArg Key.word heq))

/-- Constructors of a class are told apart by their arities, and members of the same name or arity
by their owners. -/
theorem members_distinct :
    Function.Bijective Digest.ofWord ∧
    (∀ owner, Function.Injective (constructor owner)) ∧
    (∀ arity, Function.Injective fun owner => constructor owner arity) ∧
    (∀ name, Function.Injective fun owner => method owner name) ∧
    (∀ name, Function.Injective fun owner => genericParameter owner name) :=
  ⟨Digest.ofWord_bijective, constructor_injective,
    fun _ => owner_injective _ _ (by decide) (by decide),
    fun _ => owner_injective _ _ (by decide) (by decide),
    fun _ => owner_injective _ _ (by decide) (by decide)⟩

end Key

end Stackless
