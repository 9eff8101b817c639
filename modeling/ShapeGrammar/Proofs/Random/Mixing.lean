import Mathlib.Algebra.Ring.Parity
import Mathlib.Data.Nat.ModEq
import Mathlib.Data.Nat.Prime.Basic
import ShapeGrammar.Random.Generator

/-!
# Mixing words

The bits of a word are mixed by multiplying it with an odd number, by adding a shifted copy of it
bit by bit, and by moving them in a circle. None of these loses anything of the word. Main
statement: `splitMix_injective`.
-/
namespace ShapeGrammar

/-! ## Odd factors -/

/-- Modulo 64 bits an odd factor can be cancelled. -/
theorem eq_of_mul_odd_modEq {a b m : ℕ} (hodd : Odd m) (ha : a < 2 ^ 64) (hb : b < 2 ^ 64)
    (h : a * m ≡ b * m [MOD 2 ^ 64]) : a = b := by
  have hcoprime : Nat.Coprime (2 ^ 64) m := hodd.coprime_two_left.pow_left 64
  exact (h.cancel_right_of_coprime hcoprime).eq_of_lt_of_lt ha hb

theorem mul_odd_injective (c : UInt64) (hodd : Odd c.toNat) : Function.Injective (· * c) := by
  intro x y hxy
  have hbits := congrArg UInt64.toNat hxy
  rw [UInt64.toNat_mul, UInt64.toNat_mul] at hbits
  exact UInt64.toNat_inj.mp (eq_of_mul_odd_modEq hodd x.toNat_lt y.toNat_lt hbits)

/-! ## Shifted copies -/

theorem xor_xor_cancel (x y z : UInt64) : (x ^^^ y) ^^^ (y ^^^ z) = x ^^^ z := by
  rw [UInt64.xor_assoc, ← UInt64.xor_assoc y, UInt64.xor_self, UInt64.zero_xor]

/-- Two words that have the same sum with their images differ by a word that is its own image, if
the image respects such sums. -/
theorem xor_image_injective {f : UInt64 → UInt64} (hxor : ∀ x y, f (x ^^^ y) = f x ^^^ f y)
    (hfixed : ∀ z, f z = z → z = 0) : Function.Injective fun z => z ^^^ f z := by
  intro x y hxy
  have hsum : (x ^^^ f x) ^^^ (y ^^^ f y) = 0 := UInt64.xor_eq_zero_iff.mpr hxy
  have hdifference : f (x ^^^ y) = x ^^^ y := by
    rw [hxor, ← UInt64.xor_eq_zero_iff, ← hsum]
    ac_rfl
  exact UInt64.xor_eq_zero_iff.mp (hfixed _ hdifference)

section Shift

variable {count z : UInt64}

/-- A shift to the right divides by a power of two. -/
theorem eq_zero_of_shiftRight_eq (hcount : 0 < count.toNat % 64) (h : z >>> count = z) :
    z = 0 := by
  by_contra hz
  have hpos : 0 < z.toNat := Nat.pos_of_ne_zero fun hzero => hz (UInt64.toNat_inj.mp hzero)
  have hless := Nat.div_lt_self hpos (Nat.one_lt_two_pow hcount.ne')
  have hbits := congrArg UInt64.toNat h
  rw [UInt64.toNat_shiftRight, Nat.shiftRight_eq_div_pow] at hbits
  omega

/-- A shift to the left multiplies by a power of two, and one less than that is odd. -/
theorem eq_zero_of_shiftLeft_eq (hcount : 0 < count.toNat % 64) (h : z <<< count = z) :
    z = 0 := by
  obtain ⟨m, hm⟩ := Nat.exists_eq_add_one_of_ne_zero (Nat.two_pow_pos (count.toNat % 64)).ne'
  have hodd : Odd m := by
    rw [← Nat.not_even_iff_odd, ← Nat.even_add_one, ← hm]
    exact even_two.pow_of_ne_zero hcount.ne'
  have hbits := congrArg UInt64.toNat h
  rw [UInt64.toNat_shiftLeft, Nat.shiftLeft_eq, hm, Nat.mul_add_one] at hbits
  have hmod : z.toNat * m + z.toNat ≡ 0 * m + z.toNat [MOD 2 ^ 64] := by
    rw [Nat.ModEq, hbits, Nat.zero_mul, Nat.zero_add, Nat.mod_eq_of_lt z.toNat_lt]
  exact UInt64.toNat_inj.mp
    (eq_of_mul_odd_modEq hodd z.toNat_lt (Nat.two_pow_pos 64) (hmod.add_right_cancel' _))

theorem xor_shiftRight_injective (count : UInt64) (hcount : 0 < count.toNat % 64) :
    Function.Injective fun z : UInt64 => z ^^^ (z >>> count) :=
  xor_image_injective (fun _ _ => UInt64.shiftRight_xor) fun _ => eq_zero_of_shiftRight_eq hcount

theorem xor_shiftLeft_injective (count : UInt64) (hcount : 0 < count.toNat % 64) :
    Function.Injective fun z : UInt64 => z ^^^ (z <<< count) :=
  xor_image_injective (fun _ _ => UInt64.shiftLeft_xor) fun _ => eq_zero_of_shiftLeft_eq hcount

end Shift

/-! ## Rotations -/

section Rotation

variable {x count : UInt64} {i : ℕ}

theorem testBit_eq_false_of_le (h : 64 ≤ i) : x.toNat.testBit i = false :=
  Nat.testBit_lt_two_pow (x.toNat_lt.trans_le (Nat.pow_le_pow_right Nat.two_pos h))

/-- Every bit moves on by the same number of places, past the last one to the first. -/
theorem testBit_rotateLeft (hpos : 0 < count.toNat) (hlt : count.toNat < 64) (hi : i < 64) :
    (rotateLeft x count).toNat.testBit ((i + count.toNat) % 64) = x.toNat.testBit i := by
  have hle : count ≤ 64 := UInt64.le_iff_toNat_le.mpr hlt.le
  have hrest : (64 - count).toNat = 64 - count.toNat := UInt64.toNat_sub_of_le 64 count hle
  rw [rotateLeft, UInt64.toNat_or, UInt64.toNat_shiftLeft, UInt64.toNat_shiftRight, hrest,
    Nat.mod_eq_of_lt hlt, Nat.mod_eq_of_lt (by omega : 64 - count.toNat < 64), Nat.testBit_or,
    Nat.testBit_mod_two_pow, Nat.testBit_shiftLeft, Nat.testBit_shiftRight]
  by_cases hwithin : i + count.toNat < 64
  · have hover : x.toNat.testBit (64 - count.toNat + (i + count.toNat)) = false :=
      testBit_eq_false_of_le (by omega)
    simp [Nat.mod_eq_of_lt hwithin, hwithin, hover]
  · have hplace : (i + count.toNat) % 64 = i + count.toNat - 64 := by omega
    have hsame : 64 - count.toNat + (i + count.toNat - 64) = i := by omega
    have hunder : ¬count.toNat ≤ i + count.toNat - 64 := by omega
    simp [hplace, hsame, hunder]

theorem rotateLeft_injective (count : UInt64) (hpos : 0 < count.toNat) (hlt : count.toNat < 64) :
    Function.Injective (rotateLeft · count) := by
  intro x y (hxy : rotateLeft x count = rotateLeft y count)
  refine UInt64.toNat_inj.mp (Nat.eq_of_testBit_eq fun i => ?_)
  by_cases hi : i < 64
  · rw [← testBit_rotateLeft hpos hlt hi, hxy, testBit_rotateLeft hpos hlt hi]
  · rw [testBit_eq_false_of_le (by omega), testBit_eq_false_of_le (by omega)]

end Rotation

/-! ## The mixed counter -/

/-- Different counters give different words. -/
theorem splitMix_injective : Function.Injective splitMix := by
  have hfirst := xor_shiftRight_injective 30 (by decide)
  have hsecond := mul_odd_injective 0xbf58476d1ce4e5b9 (by decide)
  have hthird := xor_shiftRight_injective 27 (by decide)
  have hfourth := mul_odd_injective 0x94d049bb133111eb (by decide)
  have hlast := xor_shiftRight_injective 31 (by decide)
  exact hlast.comp (hfourth.comp (hthird.comp (hsecond.comp hfirst)))

end ShapeGrammar
