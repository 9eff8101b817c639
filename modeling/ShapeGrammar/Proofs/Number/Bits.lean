import Mathlib
import ShapeGrammar.Number.Machine
import ShapeGrammar.Proofs.Number.Nearest

/-!
# The bits of single precision numbers

A machine number is operated on in three parts: its sign, its exponent and its mantissa. A finite
one that is taken apart and put together, with its own sign or with the opposite one, has the bits
it had. Main statements: `ofBits_toBits`, `neg_ofBits`.
-/
namespace ShapeGrammar

namespace Float32

open Float.Model Float.Model.UnpackedFloat BinaryFormat

/-! ## The fields of a bit pattern -/

theorem toNat_append {v w : ℕ} (a : BitVec v) (b : BitVec w) :
    (a ++ b).toNat = a.toNat * 2 ^ w + b.toNat := by
  rw [BitVec.toNat_append, ← Nat.shiftLeft_add_eq_or_of_lt b.isLt, Nat.shiftLeft_eq]

theorem toNat_packComponents (s : Sign) (exponent : BitVec 8) (mantissa : BitVec 23) :
    (packComponents Format.binary32 s exponent mantissa).toNat =
      s.toBitVec.toNat * 2 ^ 31 + exponent.toNat * 2 ^ 23 + mantissa.toNat := by
  rw [packComponents, toNat_append, toNat_append]
  ring

theorem toNat_unpackExponent (b : BitVec 32) :
    (@unpackExponent Format.binary32 b).toNat = b.toNat / 2 ^ 23 % 256 := by
  rw [unpackExponent, BitVec.toNat_cast, BitVec.extractLsb_toNat, Nat.shiftRight_eq_div_pow]
  rfl

theorem toNat_unpackMantissa (b : BitVec 32) :
    (@unpackMantissa Format.binary32 b).toNat = b.toNat % 2 ^ 23 := by
  rw [unpackMantissa, BitVec.toNat_cast, BitVec.extractLsb_toNat, Nat.shiftRight_zero]
  rfl

theorem toNat_unpackSign (b : BitVec 32) :
    (@unpackSign Format.binary32 b).toNat = b.toNat / 2 ^ 31 := by
  rw [unpackSign, BitVec.toNat_cast, BitVec.extractLsb_toNat, Nat.shiftRight_eq_div_pow]
  have hb := b.isLt
  have hsmall : b.toNat / 2 ^ 31 < 2 := by omega
  exact Nat.mod_eq_of_lt hsmall

/-! ## Taking apart and putting together -/

def sign (negative : Bool) : Sign :=
  if negative then .negative else .positive

/-- A finite number by its parts. -/
def finite (negative : Bool) (m : ℕ) (e : ℤ) : UnpackedFloat :=
  if h : 0 < m then .finite (sign negative) m e h else .zero (sign negative)

theorem finite_of_pos (negative : Bool) {m : ℕ} (h : 0 < m) (e : ℤ) :
    finite negative m e = .finite (sign negative) m e h :=
  dif_pos h

theorem sign_ofBitVec (b : BitVec 32) :
    Sign.ofBitVec (@unpackSign Format.binary32 b) = sign (2 ^ 31 ≤ b.toNat) := by
  have hsign := toNat_unpackSign b
  rw [Sign.ofBitVec, sign]
  by_cases h : 2 ^ 31 ≤ b.toNat
  · rw [if_neg, if_pos (by simpa using h)]
    intro hzero
    rw [hzero] at hsign
    change 0 = _ at hsign
    omega
  · rw [if_pos, if_neg (by simpa using h)]
    apply BitVec.eq_of_toNat_eq
    rw [hsign]
    exact Nat.div_eq_of_lt (by omega)

theorem single_signBit : single.signBit = 2 ^ 31 := by decide

theorem single_infinityBits : single.infinityBits = 255 * 2 ^ 23 := by decide

theorem single_fraction : Nat.pow 2 single.fractionBits = 2 ^ 23 := by decide

theorem single_leastExponent : single.leastExponent = -149 := by decide

theorem exponentBias_eq : Format.binary32.exponentBias = 127 := by decide

theorem finite_eq {s : Sign} {negative : Bool} {m n : ℕ} {e i : ℤ} (hs : s = sign negative)
    (hm : 0 < m) (hn : m = n) (he : e = i) :
    UnpackedFloat.finite s m e hm = finite negative n i := by
  subst hs hn he
  exact (finite_of_pos negative hm e).symm

/-- A finite number is taken apart into the parts that its bits stand for. -/
theorem unpack_of_decode {b : BitVec 32} {negative : Bool} {m : ℕ} {e : ℤ}
    (h : single.decode b.toNat = .finite negative m e) :
    UnpackedFloat.unpack Format.binary32 b = finite negative m e := by
  have hsign := sign_ofBitVec b
  have hmantissa := toNat_unpackMantissa b
  have hexponent := toNat_unpackExponent b
  rw [decode, single_signBit, single_infinityBits, single_fraction, single_leastExponent] at h
  rw [UnpackedFloat.unpack, hsign, exponentBias_eq]
  dsimp only at h ⊢
  generalize @unpackExponent Format.binary32 b = exponent at *
  split_ifs at h with hnan hinf hsmall
  · obtain ⟨rfl, rfl, rfl⟩ := BinaryFormat.Value.finite.inj h
    have hzero : exponent = 0#8 := BitVec.eq_of_toNat_eq (by simp; omega)
    rw [hzero, if_neg (by decide), if_pos rfl]
    split_ifs with hm
    · have hnone : b.toNat % 2 ^ 31 % 2 ^ 23 = 0 := by
        rw [hm] at hmantissa
        change 0 = _ at hmantissa
        omega
      rw [hnone]
      rfl
    · refine finite_eq rfl _ (by rw [hmantissa]; omega) ?_
      norm_num
  · obtain ⟨rfl, rfl, rfl⟩ := BinaryFormat.Value.finite.inj h
    have hzero : exponent ≠ 0#8 := by
      rintro rfl
      change 0 = _ at hexponent
      omega
    have hones : exponent ≠ -1#8 := by
      rintro rfl
      change 255 = _ at hexponent
      omega
    rw [if_neg hones, if_neg hzero]
    refine finite_eq rfl _ ?_ ?_
    · rw [toNat_append, hmantissa]
      change 1 * 2 ^ 23 + _ = _
      omega
    · change (exponent.toNat : ℤ) - (127 + 23) = _
      omega

/-- Putting the parts of a finite number together gives the bits that stand for them. -/
theorem toNat_pack (negative : Bool) {m : ℕ} {e : ℤ} (h : single.Canonical m e)
    (hfinite : single.pattern m e < single.infinityBits) :
    (UnpackedFloat.pack Format.binary32 (finite negative m e)).toNat =
      single.signBits negative + single.pattern m e := by
  obtain ⟨hleast, hwidth, hfull⟩ := h
  have hsigned : (sign negative).toBitVec.toNat * 2 ^ 31 = single.signBits negative := by
    cases negative <;> rfl
  have hwhole : Format.binary32.mantissaBits = 24 := by decide
  rw [pattern, single_fraction, single_leastExponent] at *
  rw [single_infinityBits] at hfinite
  rcases Nat.eq_zero_or_pos m with rfl | hm
  · rw [finite, dif_neg (lt_irrefl 0), if_pos (by decide), ← hsigned]
    change (packComponents Format.binary32 (sign negative) 0#8 0#23).toNat = _
    rw [toNat_packComponents]
    simp only [BitVec.toNat_zero, Nat.zero_mul]
  · rw [finite_of_pos _ hm, UnpackedFloat.pack]
    dsimp only
    rw [exponentBias_eq, hwhole]
    by_cases hsmall : m < 2 ^ 23
    · have hlog : m.log2 < 23 := (Nat.log2_lt hm.ne').mpr hsmall
      have he : e = -149 := hfull.resolve_right (by omega)
      rw [if_pos hsmall, he, if_neg (by decide), if_neg (by omega), ← hsigned,
        toNat_packComponents, BitVec.toNat_ofNat, BitVec.toNat_ofNat, Nat.mod_eq_of_lt hsmall]
      simp only [Nat.zero_mod, Nat.zero_mul, Nat.add_zero]
    · have hlog : m.log2 = 23 := (Nat.log2_eq_iff hm.ne').mpr ⟨by omega, hwidth⟩
      rw [if_neg hsmall] at hfinite ⊢
      have hbiased : (e + (127 : ℕ) + (23 : ℕ)).toNat = (e - -149 + 1).toNat := by
        congr 1
        omega
      rw [hbiased]
      generalize (e - -149 + 1).toNat = biased at *
      have hless : biased < 2 ^ 8 := by omega
      have hrest : m % 2 ^ 23 = m - 2 ^ 23 := by omega
      rw [if_neg (by norm_num; omega), if_pos (by rw [hlog]), ← hsigned, toNat_packComponents,
        BitVec.toNat_ofNat, BitVec.toNat_ofNat, Nat.mod_eq_of_lt hless, hrest, Nat.add_assoc]

/-! ## Machine numbers -/

theorem toNat_lt (a : UInt32) : a.toNat < 2 * single.signBit :=
  a.toNat_lt

/-- A machine number is finite if its bits stand for a number. -/
theorem isFinite_iff (x : Float32) : x.isFinite = true ↔
    ∃ negative m e, single.decode x.toBits.toNat = .finite negative m e := by
  change (UnpackedFloat.unpack Format.binary32 x.toBits.toBitVec).isFinite = true ↔
    ∃ negative m e, single.decode x.toBits.toBitVec.toNat = .finite negative m e
  generalize x.toBits.toBitVec = b
  constructor
  · intro h
    have hexponent := toNat_unpackExponent b
    rw [UnpackedFloat.unpack] at h
    have hones : @unpackExponent Format.binary32 b ≠ -1#8 := by
      intro hones
      dsimp only at h
      rw [if_pos hones] at h
      split_ifs at h <;> exact absurd h Bool.false_ne_true
    have hless : b.toNat / 2 ^ 23 % 256 ≠ 255 := by
      intro heq
      exact hones (BitVec.eq_of_toNat_eq (hexponent.trans heq))
    rw [decode, single_signBit, single_infinityBits, if_neg (by omega), if_neg (by omega)]
    split_ifs <;> exact ⟨_, _, _, rfl⟩
  · rintro ⟨negative, m, e, h⟩
    rw [unpack_of_decode h, finite]
    split_ifs <;> rfl

/-- Bits that stand for a number are kept. -/
theorem toBits_ofBits {a : UInt32} {negative : Bool} {m : ℕ} {e : ℤ}
    (h : single.decode a.toNat = .finite negative m e) : (Float32.ofBits a).toBits = a := by
  obtain ⟨hcanonical, hfinite, hbits⟩ := pattern_of_decode (toNat_lt a) h
  apply UInt32.toNat_inj.mp
  change (UnpackedFloat.pack Format.binary32
    (UnpackedFloat.unpack Format.binary32 a.toBitVec)).toNat = _
  rw [unpack_of_decode h, toNat_pack negative hcanonical hfinite]
  exact hbits.symm

theorem toBits_inj {x y : Float32} (h : x.toBits = y.toBits) : x = y := by
  obtain ⟨⟨a, ha⟩⟩ := x
  obtain ⟨⟨b, hb⟩⟩ := y
  obtain rfl : a = b := h
  rfl

/-- A finite number is the one with its bits. -/
theorem ofBits_toBits {x : Float32} (h : x.isFinite = true) : Float32.ofBits x.toBits = x := by
  obtain ⟨negative, m, e, hdecode⟩ := (isFinite_iff x).mp h
  exact toBits_inj (toBits_ofBits hdecode)

theorem neg_finite (m : ℕ) (e : ℤ) : (finite false m e).neg = finite true m e := by
  rw [finite, finite]
  split_ifs <;> rfl

/-- The opposite of a number has its bits and a sign. -/
theorem neg_ofBits {m : ℕ} {e : ℤ} (h : single.Canonical m e)
    (hfinite : single.pattern m e < single.infinityBits) :
    -Float32.ofBits (.ofNat (single.pattern m e)) =
      Float32.ofBits (.ofNat (single.signBit + single.pattern m e)) := by
  have hinfinity := single_infinityBits
  have hsign := single_signBit
  have hpos : single.decode (UInt32.ofNat (single.pattern m e)).toNat = .finite false m e := by
    rw [UInt32.toNat_ofNat_of_lt' (by change _ < 2 ^ 32; omega)]
    have := decode_pattern false h hfinite
    rwa [signBits_false, Nat.zero_add] at this
  have hneg : (UInt32.ofNat (single.signBit + single.pattern m e)).toNat =
      single.signBits true + single.pattern m e :=
    UInt32.toNat_ofNat_of_lt' (by change _ < 2 ^ 32; omega)
  apply toBits_inj
  rw [toBits_ofBits (hneg ▸ decode_pattern true h hfinite)]
  apply UInt32.toNat_inj.mp
  change (UnpackedFloat.pack Format.binary32 (UnpackedFloat.unpack Format.binary32
    (Float32.ofBits (.ofNat (single.pattern m e))).toBits.toBitVec).neg).toNat = _
  rw [toBits_ofBits hpos, unpack_of_decode hpos, neg_finite, toNat_pack true h hfinite, hneg]

/-! ## Numbers that cancel themselves -/

theorem beq_of_notANumber (x y : Float32) (h : x.toModel.unpack = .notANumber) :
    (x == y) = false := by
  change UnpackedFloat.beq x.toModel.unpack y.toModel.unpack = false
  rw [h]
  rfl

/-- Only a finite number cancels itself. -/
theorem isFinite_of_cancel {x : Float32} (h : Scalar.isFinite x = true) : x.isFinite = true := by
  by_contra hinfinite
  have hnan : UnpackedFloat.sub Format.binary32 x.toModel.unpack x.toModel.unpack =
      .notANumber := by
    change ¬x.toModel.unpack.isFinite = true at hinfinite
    cases hx : x.toModel.unpack with
    | notANumber => rfl
    | infinity s => cases s <;> rfl
    | zero s => exact absurd (by rw [hx]; rfl) hinfinite
    | finite s m e hm => exact absurd (by rw [hx]; rfl) hinfinite
  have hkept : (x - x).toModel.unpack = .notANumber := by
    change UnpackedFloat.unpack Format.binary32 (UnpackedFloat.pack Format.binary32
      (UnpackedFloat.sub Format.binary32 x.toModel.unpack x.toModel.unpack)) = .notANumber
    rw [hnan]
    rfl
  exact absurd h (Bool.eq_false_iff.mp (beq_of_notANumber _ _ hkept))

end Float32

end ShapeGrammar
