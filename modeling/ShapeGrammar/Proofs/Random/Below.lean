import ShapeGrammar.Random.Generator

/-!
# Drawing below a bound

What a draw below a bound gives lies below it, also if no word was accepted. Main statement:
`below_lt`, for bounds of any size.
-/
namespace ShapeGrammar

namespace Generator

theorem toNat_accept_lt {range word r : UInt64} (hpos : 0 < range.toNat)
    (h : accept range word = some r) : r.toNat < range.toNat := by
  unfold accept at h
  split at h
  · cases h
    have hone : (1 : UInt64) ≤ range := by
      rw [UInt64.le_iff_toNat_le]
      exact hpos
    have hmask : (range - 1).toNat = range.toNat - 1 := UInt64.toNat_sub_of_le range 1 hone
    have hand : (word &&& (range - 1)).toNat ≤ (range - 1).toNat := by
      rw [UInt64.toNat_and]
      exact Nat.and_le_right
    omega
  · split at h
    · cases h
    · cases h
      rw [UInt64.toNat_mod]
      exact Nat.mod_lt _ hpos

theorem toNat_firstAccepted_lt {range : UInt64} (hpos : 0 < range.toNat) (attempts : Nat)
    (g : Generator) : (firstAccepted range attempts g).1.toNat < range.toNat := by
  induction attempts generalizing g with
  | zero => simpa [firstAccepted] using hpos
  | succ attempts ih =>
    unfold firstAccepted
    split
    next r hr => exact toNat_accept_lt hpos hr
    · exact ih g.advance

/-- A number that is drawn below `n` lies below `n`. A word holds `n` modulo its range; where that
is zero, every word is below `n`. -/
theorem below_lt {n : Nat} (hn : 0 < n) (g : Generator) :
    (g.below (.ofNat n)).1.toNat < n := by
  have hword : (UInt64.ofNat n).toNat = n % 2 ^ 64 := UInt64.toNat_ofNat'
  by_cases hzero : n % 2 ^ 64 = 0
  · have hsize := UInt64.toNat_lt (g.below (.ofNat n)).1
    omega
  · have hpos : 0 < (UInt64.ofNat n).toNat := by omega
    have hlt := toNat_firstAccepted_lt hpos attempts g
    have hle := Nat.mod_le n (2 ^ 64)
    simp only [below]
    omega

end Generator

end ShapeGrammar
