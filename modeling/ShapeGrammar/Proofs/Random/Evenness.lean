import Mathlib.Data.Int.CardIntervalMod
import Mathlib.Data.Set.Card
import ShapeGrammar.Random.Generator

/-!
# Evenness of draws

What a word gives below a range is its remainder, also where it is found by masking, and the words
that are rejected are the first ones, as many as are too many for an even share. Main statement:
`ncard_accept`.
-/
namespace ShapeGrammar

namespace Generator

variable {range : UInt64}

theorem toNat_surplus (hpos : 0 < range.toNat) :
    (surplus range).toNat = 2 ^ 64 % range.toNat := by
  have hsize := range.toNat_lt
  have hneg : (0 - range).toNat = 2 ^ 64 - range.toNat := by
    rw [UInt64.toNat_sub]
    simp only [UInt64.toNat_zero, Nat.add_zero]
    exact Nat.mod_eq_of_lt (by omega)
  rw [surplus, UInt64.toNat_mod, hneg, ← Nat.mod_eq_sub_mod hsize.le]

/-- The ranges for which masking serves are the powers of two. -/
theorem exists_two_pow (hpos : 0 < range.toNat) (h : range &&& (range - 1) = 0) :
    ∃ k ≤ 64, range.toNat = 2 ^ k := by
  have hone : (1 : UInt64) ≤ range := UInt64.le_iff_toNat_le.mpr hpos
  have hand : range.toNat &&& (range.toNat - 1) = 0 := by
    have hbits := congrArg UInt64.toNat h
    rwa [UInt64.toNat_and, UInt64.toNat_sub_of_le range 1 hone] at hbits
  obtain ⟨k, hk⟩ := (Nat.and_sub_one_eq_zero_iff_isPowerOfTwo hpos.ne').mp hand
  refine ⟨k, ?_, hk⟩
  have hsize := range.toNat_lt
  rw [hk] at hsize
  exact ((Nat.pow_lt_pow_iff_right (by decide)).mp hsize).le

/-- A word gives its remainder, unless it is one of the first ones. -/
theorem accept_eq (hpos : 0 < range.toNat) (word : UInt64) :
    accept range word = if word.toNat < 2 ^ 64 % range.toNat then none else some (word % range) := by
  unfold accept
  split
  next hmask =>
    obtain ⟨k, hk, hpow⟩ := exists_two_pow hpos hmask
    have hnone : 2 ^ 64 % range.toNat = 0 := by
      rw [hpow]
      exact Nat.mod_eq_zero_of_dvd (pow_dvd_pow 2 hk)
    have hone : (1 : UInt64) ≤ range := UInt64.le_iff_toNat_le.mpr hpos
    have hmod : word &&& (range - 1) = word % range := by
      rw [← UInt64.toNat_inj, UInt64.toNat_and, UInt64.toNat_sub_of_le range 1 hone,
        UInt64.toNat_mod, hpow]
      exact Nat.and_two_pow_sub_one_eq_mod _ _
    rw [hnone, if_neg (Nat.not_lt_zero _), hmod]
  · simp only [UInt64.lt_iff_toNat_lt, toNat_surplus hpos]

/-- From the remainder of a bound up to the bound every remainder comes up equally often. -/
theorem card_filter_modEq {bound divisor r : ℕ} (hr : r < divisor) :
    {x ∈ Finset.range bound | bound % divisor ≤ x ∧ x ≡ r [MOD divisor]}.card =
      bound / divisor := by
  have hpos : 0 < divisor := by omega
  have hrest : bound % divisor < divisor := Nat.mod_lt _ hpos
  have hle : bound % divisor ≤ bound := Nat.mod_le _ _
  have hsplit : {x ∈ Finset.range bound | bound % divisor ≤ x ∧ x ≡ r [MOD divisor]} =
      {x ∈ Finset.range bound | x ≡ r [MOD divisor]} \
        {x ∈ Finset.range (bound % divisor) | x ≡ r [MOD divisor]} := by
    ext x
    simp only [Finset.mem_filter, Finset.mem_sdiff, Finset.mem_range, not_and]
    constructor
    · rintro ⟨hx, hfirst, hmod⟩
      exact ⟨⟨hx, hmod⟩, fun hlt => absurd hlt (by omega)⟩
    · rintro ⟨⟨hx, hmod⟩, hfirst⟩
      exact ⟨hx, Nat.le_of_not_lt fun hlt => hfirst hlt hmod, hmod⟩
  have hsub : {x ∈ Finset.range (bound % divisor) | x ≡ r [MOD divisor]} ⊆
      {x ∈ Finset.range bound | x ≡ r [MOD divisor]} :=
    Finset.filter_subset_filter _ (Finset.range_mono hle)
  have hall := Nat.count_modEq_card bound hpos r
  have hfirst := Nat.count_modEq_card (bound % divisor) hpos r
  rw [Nat.count_eq_card_filter_range] at hall hfirst
  rw [Nat.mod_mod, Nat.div_eq_of_lt hrest, Nat.zero_add] at hfirst
  rw [hsplit, Finset.card_sdiff_of_subset hsub, hall, hfirst, Nat.add_sub_cancel]

/-- Every number below a range is given by equally many words. -/
theorem ncard_accept {r : UInt64} (hr : r.toNat < range.toNat) :
    {word | accept range word = some r}.ncard = 2 ^ 64 / range.toNat := by
  have hpos : 0 < range.toNat := by omega
  have hinj : Function.Injective UInt64.toNat := fun _ _ h => UInt64.toNat_inj.mp h
  rw [← card_filter_modEq hr, ← Set.ncard_coe_finset, ← Set.ncard_image_of_injective _ hinj]
  congr 1
  ext x
  simp only [Set.mem_image, Set.mem_ofPred_eq, Finset.coe_filter, Finset.mem_range, Nat.ModEq,
    Nat.mod_eq_of_lt hr]
  constructor
  · rintro ⟨word, hword, rfl⟩
    rw [accept_eq hpos] at hword
    split at hword
    · cases hword
    next hkept =>
      rw [Option.some.injEq] at hword
      exact ⟨word.toNat_lt, Nat.le_of_not_lt hkept, by rw [← hword, UInt64.toNat_mod]⟩
  · rintro ⟨hx, hkept, hmod⟩
    have hword : (UInt64.ofNat x).toNat = x := by
      rw [UInt64.toNat_ofNat', Nat.mod_eq_of_lt hx]
    refine ⟨.ofNat x, ?_, hword⟩
    rw [accept_eq hpos, hword, if_neg (Nat.not_lt.mpr hkept), Option.some.injEq,
      ← UInt64.toNat_inj, UInt64.toNat_mod, hword, hmod]

end Generator

end ShapeGrammar
