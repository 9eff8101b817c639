import Mathlib.Combinatorics.Pigeonhole
import Mathlib.Data.Finset.Prod
import Mathlib.Logic.Function.Iterate
import ShapeGrammar.Proofs.Random.Below
import ShapeGrammar.Proofs.Random.Evenness

/-!
# Drawing from an interval

A draw looks at the words of a generator one after the other and takes the first one that is
accepted. A generator has finitely many states, so if it ever gives out such a word it does so
within as many words as a draw may look at. Main statement: `between_unbiased`, that words are
rejected so that every number of an interval is given by equally many of the others.
-/
namespace ShapeGrammar

namespace Generator

variable {range r : UInt64} {g : Generator} {n : ℕ}

/-! ## The words of a generator -/

/-- The word that a generator gives out after `n` others. -/
def word (g : Generator) (n : ℕ) : UInt64 :=
  (advance^[n] g).output

/-- After as many words as there are states a generator has come back to one that it was in. -/
theorem exists_state_again (g : Generator) :
    ∃ i j, i < j ∧ j ≤ attempts ∧ advance^[i] g = advance^[j] g := by
  let words : Finset ℕ := Finset.range (2 ^ 64)
  let code (k : ℕ) : ℕ × ℕ × ℕ × ℕ :=
    let h := advance^[k] g
    (h.s0.toNat, h.s1.toNat, h.s2.toNat, h.s3.toNat)
  have hmaps : Set.MapsTo code (Finset.range (attempts + 1))
      (words ×ˢ words ×ˢ words ×ˢ words : Finset (ℕ × ℕ × ℕ × ℕ)) := by
    intro k _
    simp only [code, words, Finset.mem_coe, Finset.mem_product, Finset.mem_range]
    exact ⟨UInt64.toNat_lt _, UInt64.toNat_lt _, UInt64.toNat_lt _, UInt64.toNat_lt _⟩
  have hcard : (words ×ˢ words ×ˢ words ×ˢ words).card < (Finset.range (attempts + 1)).card := by
    have hattempts : attempts = 2 ^ 256 := rfl
    simp only [words, Finset.card_product, Finset.card_range]
    rw [hattempts, Nat.lt_add_one_iff, ← pow_add, ← pow_add, ← pow_add]
  obtain ⟨i, hi, j, hj, hne, hcode⟩ := Finset.exists_ne_map_eq_of_card_lt_of_maps_to hcard hmaps
  have hsame : advance^[i] g = advance^[j] g := by
    simp only [code, Prod.mk.injEq, UInt64.toNat_inj] at hcode
    exact (Generator.mk.injEq ..).mpr hcode
  rw [Finset.mem_range] at hi hj
  rcases Nat.lt_or_gt_of_ne hne with hlt | hgt
  · exact ⟨i, j, hlt, by omega, hsame⟩
  · exact ⟨j, i, hgt, by omega, hsame.symm⟩

/-- A word that no word before it equals comes early enough for a draw to find it. -/
theorem lt_attempts (hnew : ∀ m < n, g.word m ≠ g.word n) : n < attempts := by
  by_contra hlate
  obtain ⟨i, j, hlt, hj, hsame⟩ := g.exists_state_again
  refine hnew (n - j + i) (by omega) ?_
  have hn : n = n - j + j := by omega
  calc
    g.word (n - j + i) = (advance^[n - j] (advance^[i] g)).output := by
      rw [word, Function.iterate_add_apply]
    _ = (advance^[n - j + j] g).output := by rw [hsame, Function.iterate_add_apply]
    _ = g.word n := by rw [← hn, word]

/-! ## The first accepted word -/

theorem firstAccepted_eq {attempts : ℕ} (hn : n < attempts)
    (hrejected : ∀ m < n, accept range (g.word m) = none)
    (haccepted : accept range (g.word n) = some r) :
    firstAccepted range attempts g = (r, advance^[n + 1] g) := by
  induction attempts generalizing g n with
  | zero => omega
  | succ attempts ih =>
    rw [firstAccepted]
    cases n with
    | zero =>
      have hfirst : accept range g.output = some r := haccepted
      rw [hfirst]
      rfl
    | succ n =>
      have hfirst : accept range g.output = none := hrejected 0 n.succ_pos
      rw [hfirst]
      exact ih (by omega) (fun m hm => hrejected (m + 1) (by omega)) haccepted

/-- A draw gives what the first word gives that is accepted, however many are rejected before. -/
theorem below_eq (hrejected : ∀ m < n, accept range (g.word m) = none)
    (haccepted : accept range (g.word n) = some r) :
    g.below range = (r, advance^[n + 1] g) := by
  have hnew : ∀ m < n, g.word m ≠ g.word n := by
    intro m hm heq
    have hnone := hrejected m hm
    rw [heq, haccepted] at hnone
    cases hnone
  exact firstAccepted_eq (lt_attempts hnew) hrejected haccepted

/-! ## Rejected words -/

theorem accept_eq_none_iff (hpos : 0 < range.toNat) (word : UInt64) :
    accept range word = none ↔ word.toNat < 2 ^ 64 % range.toNat := by
  rw [accept_eq hpos]
  split
  next h => exact iff_of_true rfl h
  next h => exact iff_of_false (nomatch ·) h

/-- As many words are rejected as are too many for an even share. -/
theorem ncard_rejected (hpos : 0 < range.toNat) :
    {word | accept range word = none}.ncard = 2 ^ 64 % range.toNat := by
  have hinj : Function.Injective UInt64.toNat := fun _ _ h => UInt64.toNat_inj.mp h
  rw [← Set.ncard_image_of_injective _ hinj]
  have hbelow : UInt64.toNat '' {word | accept range word = none} =
      (Finset.range (2 ^ 64 % range.toNat) : Set ℕ) := by
    ext x
    simp only [Set.mem_image, Set.mem_ofPred_eq, accept_eq_none_iff hpos, Finset.coe_range,
      Set.mem_Iio]
    constructor
    · rintro ⟨word, hword, rfl⟩
      exact hword
    · intro hx
      have hsize : x < 2 ^ 64 := hx.trans_le (Nat.mod_le _ _)
      have hword : (UInt64.ofNat x).toNat = x := by
        rw [UInt64.toNat_ofNat', Nat.mod_eq_of_lt hsize]
      exact ⟨.ofNat x, by rwa [hword], hword⟩
  rw [hbelow, Set.ncard_coe_finset, Finset.card_range]

/-- Of a range that is a power of two all words are an even share. -/
theorem mod_eq_zero_of_two_pow {k : ℕ} (hk : range.toNat = 2 ^ k) : 2 ^ 64 % range.toNat = 0 := by
  have hsize := range.toNat_lt
  rw [hk] at hsize ⊢
  have hlt : k < 64 := (Nat.pow_lt_pow_iff_right (by decide)).mp hsize
  exact Nat.mod_eq_zero_of_dvd (pow_dvd_pow 2 hlt.le)

/-- The remainder of a number by one that is not greater is less than half of it. -/
theorem two_mul_mod_lt {bound divisor : ℕ} (hpos : 0 < divisor) (hle : divisor ≤ bound) :
    2 * (bound % divisor) < bound := by
  have hrest : bound % divisor < divisor := Nat.mod_lt _ hpos
  have hquotient : 1 ≤ bound / divisor := (Nat.one_le_div_iff hpos).mpr hle
  have hsplit := Nat.div_add_mod bound divisor
  have hshare : divisor ≤ divisor * (bound / divisor) := Nat.le_mul_of_pos_right _ hquotient
  omega

/-! ## Intervals -/

section Interval

variable {low high v : UInt64}

theorem toNat_sub_of_lt (h : low < high) :
    (high - low).toNat = high.toNat - low.toNat ∧ 0 < (high - low).toNat := by
  have hlt := UInt64.lt_iff_toNat_lt.mp h
  have hsub := UInt64.toNat_sub_of_le _ _ (UInt64.le_of_lt h)
  exact ⟨hsub, by omega⟩

/-- What is added to the lower end to give a number of an interval is no more than a word holds. -/
theorem toNat_add_of_lt (h : low < high) (hr : r.toNat < (high - low).toNat) :
    (low + r).toNat = low.toNat + r.toNat := by
  have hsize := high.toNat_lt
  rw [(toNat_sub_of_lt h).1] at hr
  rw [UInt64.toNat_add]
  exact Nat.mod_eq_of_lt (by omega)

/-- Every number of an interval is given by equally many words. -/
theorem ncard_between (hlow : low ≤ v) (hhigh : v < high) :
    {word | (accept (high - low) word).map (low + ·) = some v}.ncard =
      2 ^ 64 / (high.toNat - low.toNat) := by
  have hlt : low < high := UInt64.lt_of_le_of_lt hlow hhigh
  have hoffset : (v - low).toNat < (high - low).toNat := by
    rw [(toNat_sub_of_lt hlt).1, UInt64.toNat_sub_of_le _ _ hlow]
    have := UInt64.lt_iff_toNat_lt.mp hhigh
    have := UInt64.le_iff_toNat_le.mp hlow
    omega
  rw [← (toNat_sub_of_lt hlt).1, ← ncard_accept hoffset]
  congr 1
  ext word
  simp only [Set.mem_ofPred_eq, Option.map_eq_some_iff]
  constructor
  · rintro ⟨r, hr, rfl⟩
    rw [hr, UInt64.add_comm, UInt64.add_sub_cancel]
  · intro hword
    exact ⟨v - low, hword, by rw [UInt64.add_comm, UInt64.sub_add_cancel]⟩

end Interval

/-- Drawing from an interval favours no number of it. A word that is not rejected gives a number of
the interval, by an offset that is added to the lower end within 64 bits, and every number is given
by equally many words, as many as fit. The words that are rejected are those that are left over:
none if the length of the interval is a power of two, and less than half of all words. Whatever
words a generator gives out, what is drawn is what the first of them gives that is not rejected, and
no word after it is used up. -/
theorem between_unbiased {low high : UInt64} (h : low < high) :
    let range := high - low
    range.toNat = high.toNat - low.toNat ∧
    (∀ word r, accept range word = some r → (low + r).toNat = low.toNat + r.toNat ∧
      low ≤ low + r ∧ low + r < high) ∧
    (∀ v, low ≤ v → v < high →
      {word | (accept range word).map (low + ·) = some v}.ncard = 2 ^ 64 / range.toNat) ∧
    {word | accept range word = none}.ncard = 2 ^ 64 % range.toNat ∧
    (∀ k, range.toNat = 2 ^ k → ∀ word, accept range word ≠ none) ∧
    2 * {word | accept range word = none}.ncard < 2 ^ 64 ∧
    ∀ (g : Generator) (n : ℕ) (r : UInt64), (∀ m < n, accept range (g.word m) = none) →
      accept range (g.word n) = some r →
      between low high g = .ok (low + r, advance^[n + 1] g) := by
  intro range
  obtain ⟨hrange, hpos⟩ := toNat_sub_of_lt h
  refine ⟨hrange, fun word r hr => ?_, fun v hlow hhigh => ?_, ncard_rejected hpos,
    fun k hk word => ?_, ?_, fun g n r hrejected haccepted => ?_⟩
  · have hlt := toNat_accept_lt hpos hr
    have hsum := toNat_add_of_lt h hlt
    rw [UInt64.le_iff_toNat_le, UInt64.lt_iff_toNat_lt, hsum]
    omega
  · rw [ncard_between hlow hhigh, hrange]
  · rw [Ne, accept_eq_none_iff hpos, mod_eq_zero_of_two_pow hk]
    exact Nat.not_lt_zero _
  · rw [ncard_rejected hpos]
    exact two_mul_mod_lt hpos (UInt64.toNat_lt _).le
  · rw [between, if_pos h, below_eq hrejected haccepted]

/-- The upper half of all words but the last one: nearly half of the words are rejected, the one
that gives the greatest number has no other beside it, and the second word of this generator is the
first that counts. -/
theorem between_unbiased_upper :
    (0x7ffffffffffffffe : UInt64) < 0xffffffffffffffff ∧
    {word | accept 0x8000000000000001 word = none}.ncard = 2 ^ 63 - 1 ∧
    {word | (accept 0x8000000000000001 word).map (0x7ffffffffffffffe + ·) =
      some 0xfffffffffffffffe}.ncard = 1 ∧
    between 0x7ffffffffffffffe 0xffffffffffffffff (seeded 3) =
      .ok (11951969155603786017, (seeded 3).advance.advance) := by
  have h : (0x7ffffffffffffffe : UInt64) < 0xffffffffffffffff := by decide
  obtain ⟨_, _, heven, hrejected, _, _, hdrawn⟩ := between_unbiased h
  have hfirst : ∀ m < 1, accept 0x8000000000000001 ((seeded 3).word m) = none := by decide
  have hsecond : accept 0x8000000000000001 ((seeded 3).word 1) = some 2728597118749010211 := by
    decide
  exact ⟨h, hrejected, heven 0xfffffffffffffffe (by decide) (by decide),
    hdrawn (seeded 3) 1 2728597118749010211 hfirst hsecond⟩

end Generator

end ShapeGrammar
