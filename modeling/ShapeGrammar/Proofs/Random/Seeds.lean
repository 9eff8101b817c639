import Mathlib.Data.FinEnum
import Mathlib.Data.Finite.Prod
import Mathlib.Logic.Function.Iterate
import ShapeGrammar.Number.Machine
import ShapeGrammar.Proofs.Random.Mixing

/-!
# Generators of different seeds

A step of a generator can be undone, and only zero leads to zero. Whatever is drawn, a generator
makes one step for each word that it gives out. Main statement: `seeds_apart`, that no seed ever
leads to zero and that two seeds do not lead to the same state by equally many words.
-/
namespace ShapeGrammar

namespace Generator

/-- The state all of whose words are zero. -/
def zero : Generator :=
  ⟨0, 0, 0, 0⟩

/-! ## Seeds -/

theorem seeded_injective : Function.Injective seeded := by
  intro seed other h
  exact (UInt64.add_left_inj _).mp (splitMix_injective (congrArg s0 h))

/-- The first two words of a seed are mixed from different counters, so they are not both zero. -/
theorem seeded_ne_zero (seed : UInt64) : seeded seed ≠ zero := by
  intro h
  have hsame : splitMix (seed + splitMixStep) = splitMix (seed + splitMixStep + splitMixStep) :=
    (congrArg s0 h).trans (congrArg s1 h).symm
  have hstep : splitMixStep = 0 := UInt64.left_eq_add.mp (splitMix_injective hsame)
  exact absurd hstep (by decide)

/-! ## Steps -/

instance : Finite Generator :=
  Finite.of_injective (fun g => (g.s0, g.s1, g.s2, g.s3)) fun _ _ h =>
    (Generator.mk.injEq ..).mpr (by simpa only [Prod.mk.injEq] using h)

/-- A step leaves sums of words. The last of them is rotated back first; the second word is then
found in its sum with its shifted copy. -/
theorem advance_injective : Function.Injective advance := by
  intro g h hgh
  have hfirst : g.s0 ^^^ (g.s3 ^^^ g.s1) = h.s0 ^^^ (h.s3 ^^^ h.s1) := congrArg s0 hgh
  have hsecond : g.s1 ^^^ (g.s2 ^^^ g.s0) = h.s1 ^^^ (h.s2 ^^^ h.s0) := congrArg s1 hgh
  have hthird : (g.s2 ^^^ g.s0) ^^^ (g.s1 <<< 17) = (h.s2 ^^^ h.s0) ^^^ (h.s1 <<< 17) :=
    congrArg s2 hgh
  have hlast : g.s3 ^^^ g.s1 = h.s3 ^^^ h.s1 :=
    rotateLeft_injective 45 (by decide) (by decide) (congrArg s3 hgh)
  have h0 : g.s0 = h.s0 := by rwa [hlast, UInt64.xor_left_inj] at hfirst
  have hcopy : g.s1 ^^^ (g.s1 <<< 17) = h.s1 ^^^ (h.s1 <<< 17) := by
    rw [← xor_xor_cancel g.s1 (g.s2 ^^^ g.s0), hsecond, hthird, xor_xor_cancel]
  have h1 : g.s1 = h.s1 := xor_shiftLeft_injective 17 (by decide) hcopy
  have h2 : g.s2 = h.s2 := by rwa [h0, h1, UInt64.xor_right_inj, UInt64.xor_left_inj] at hsecond
  have h3 : g.s3 = h.s3 := by rwa [h1, UInt64.xor_left_inj] at hlast
  exact (Generator.mk.injEq ..).mpr ⟨h0, h1, h2, h3⟩

theorem advance_bijective : Function.Bijective advance :=
  Finite.injective_iff_bijective.mp advance_injective

theorem advance_eq_zero_iff {g : Generator} : g.advance = zero ↔ g = zero :=
  advance_injective.eq_iff' rfl

theorem iterate_advance_ne_zero {g : Generator} (h : g ≠ zero) (n : ℕ) : advance^[n] g ≠ zero := by
  induction n with
  | zero => exact h
  | succ n ih =>
    rw [Function.iterate_succ_apply', Ne, advance_eq_zero_iff]
    exact ih

/-! ## Draws -/

/-- How many words are looked at until one is accepted or no attempt is left. -/
def examined (range : UInt64) : ℕ → Generator → ℕ
  | 0, _ => 0
  | attempts + 1, g =>
    match accept range g.output with
    | some _ => 1
    | none => examined range attempts g.advance + 1

theorem firstAccepted_snd (range : UInt64) (attempts : ℕ) (g : Generator) :
    (firstAccepted range attempts g).2 = advance^[examined range attempts g] g := by
  induction attempts generalizing g with
  | zero => rfl
  | succ attempts ih =>
    cases h : accept range g.output with
    | some r =>
      simp only [firstAccepted, examined, h]
      rfl
    | none =>
      simp only [firstAccepted, examined, h]
      rw [ih, Function.iterate_succ_apply]

/-- Something that is drawn from a generator. -/
inductive Draw (β : Type) where
  | word
  | unit
  | between (low high : UInt64)
  | level
  | chance (p : β)

section Draws

variable {β : Type}

/-- How many words a draw takes. From an empty interval nothing is drawn. -/
def Draw.words : Draw β → Generator → ℕ
  | word, _ | unit, _ | chance _, _ => 1
  | between low high, g => if low < high then examined (high - low) attempts g else 0
  | level, g => examined 10 attempts g

variable [Scalar β]

/-- The generator that a draw leaves behind. -/
def Draw.after : Draw β → Generator → Generator
  | word, g => g.next.2
  | unit, g => (g.unit : β × Generator).2
  | between low high, g =>
    match g.between low high with
    | .ok (_, rest) => rest
    | .error _ => g
  | level, g => g.level.2
  | chance p, g => (g.chance p).2

/-- A generator makes one step for each word that a draw takes. -/
theorem Draw.after_eq_iterate (d : Draw β) (g : Generator) :
    d.after g = advance^[d.words g] g := by
  cases d with
  | word => rfl
  | unit => rfl
  | between low high =>
    by_cases h : low < high
    · simp only [after, words, Generator.between, if_pos h]
      exact firstAccepted_snd ..
    · simp only [after, words, Generator.between, if_neg h]
      rfl
  | level => exact firstAccepted_snd 10 attempts g
  | chance p => rfl

/-- The generator that draws leave behind, one after the other. -/
def after (g : Generator) (draws : List (Draw β)) : Generator :=
  draws.foldl (fun g d => d.after g) g

/-- How many words draws take, one after the other. -/
def wordsTaken (g : Generator) : List (Draw β) → ℕ
  | [] => 0
  | d :: draws => d.words g + wordsTaken (d.after g) draws

theorem after_eq_iterate (g : Generator) (draws : List (Draw β)) :
    g.after draws = advance^[g.wordsTaken draws] g := by
  induction draws generalizing g with
  | nil => rfl
  | cons d draws ih =>
    have hrest : g.after (d :: draws) = (d.after g).after draws := rfl
    rw [hrest, ih, wordsTaken, Nat.add_comm, Function.iterate_add_apply, d.after_eq_iterate]

/-- Seeds give different generators. A step can be undone, and only zero leads to zero; every word
that is drawn is one step. So no seed leads to zero, whatever is drawn, and two generators that have
given out equally many words are in the same state only if they have the same seed; then they are,
even if the draws differ. -/
theorem seeds_apart :
    Function.Injective seeded ∧ (∀ seed, seeded seed ≠ zero) ∧
    Function.Bijective advance ∧ (∀ g : Generator, g.advance = zero ↔ g = zero) ∧
    (∀ (g : Generator) (draws : List (Draw β)), g.after draws = advance^[g.wordsTaken draws] g) ∧
    (∀ seed (draws : List (Draw β)), (seeded seed).after draws ≠ zero) ∧
    ∀ seed other (draws others : List (Draw β)),
      (seeded seed).wordsTaken draws = (seeded other).wordsTaken others →
      ((seeded seed).after draws = (seeded other).after others ↔ seed = other) := by
  refine ⟨seeded_injective, seeded_ne_zero, advance_bijective, fun _ => advance_eq_zero_iff,
    after_eq_iterate, fun seed draws => ?_, fun seed other draws others hwords => ?_⟩
  · rw [after_eq_iterate]
    exact iterate_advance_ne_zero (seeded_ne_zero seed) _
  · rw [after_eq_iterate, after_eq_iterate, hwords, (advance_injective.iterate _).eq_iff,
      seeded_injective.eq_iff]

end Draws

/-- Two words each: of the long interval the first word is rejected, and nothing is drawn from the
empty one. -/
theorem seeds_apart_rejected :
    let long : List (Draw Float) := [.between 0x7ffffffffffffffe 0xffffffffffffffff]
    let short : List (Draw Float) := [.between 5 5, .level, .chance 0.5]
    (seeded 3).wordsTaken long = 2 ∧ (seeded 4).wordsTaken short = 2 ∧
      (seeded 3).after long ≠ (seeded 4).after short := by
  intro long short
  have hlong : (seeded 3).wordsTaken long = 2 := by decide
  have hshort : (seeded 4).wordsTaken short = 2 := by decide
  obtain ⟨-, -, -, -, -, -, happart⟩ := @seeds_apart Float _
  have hiff := happart 3 4 long short (hlong.trans hshort.symm)
  exact ⟨hlong, hshort, fun hsame => absurd (hiff.mp hsame) (by decide)⟩

end Generator

end ShapeGrammar
