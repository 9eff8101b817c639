import Mathlib.Algebra.Group.Nat.Defs
import ShapeGrammar.Grammar.ActionSpace

/-!
# Actions as digits

The levels of an action are its decimal digits, the last one first, and an action is made of levels
by writing them as digits. Main statements: either undoes the other, and nothing that is counted on
the way exceeds a word as long as there are no more choices than a rule may have.
-/
namespace ShapeGrammar

namespace ActionSpace

@[simp] theorem length_digits (count action : Nat) : (digits count action).length = count := by
  induction count generalizing action with
  | zero => rfl
  | succ count ih => simp [digits, ih]

/-- Each digit is what its power of ten contributes. -/
theorem getElem?_digits {count i : Nat} (hi : i < count) (action : Nat) :
    (digits count action)[i]? = some (action / 10 ^ i % 10) := by
  induction count generalizing i action with
  | zero => omega
  | succ count ih =>
    cases i with
    | zero => simp [digits]
    | succ i =>
      rw [digits, List.getElem?_cons_succ, ih (by omega), Nat.div_div_eq_div_mul, Nat.pow_succ,
        Nat.mul_comm]

theorem lt_ten_of_mem_digits {count action level : Nat} (h : level ∈ digits count action) :
    level < 10 := by
  obtain ⟨i, hi, rfl⟩ := List.mem_iff_getElem.mp h
  rw [length_digits] at hi
  have hdigit := getElem?_digits hi action
  rw [List.getElem?_eq_getElem (by simpa using hi), Option.some.injEq] at hdigit
  rw [hdigit]
  exact Nat.mod_lt _ (by decide)

theorem encode_cons (level : Nat) (levels : List Nat) :
    encode (level :: levels) = encode levels * 10 + min level 9 :=
  rfl

theorem encode_lt (levels : List Nat) : encode levels < 10 ^ levels.length := by
  induction levels with
  | nil => decide
  | cons level rest ih =>
    rw [encode_cons, List.length_cons, Nat.pow_succ]
    omega

/-- The digits of an action make the action again. -/
theorem encode_digits {count action : Nat} (h : action < 10 ^ count) :
    encode (digits count action) = action := by
  induction count generalizing action with
  | zero =>
    rw [Nat.pow_zero] at h
    have hzero : action = 0 := by omega
    rw [hzero]
    rfl
  | succ count ih =>
    rw [Nat.pow_succ] at h
    have hrest : encode (digits count (action / 10)) = action / 10 := ih (by omega)
    rw [digits, encode_cons, hrest]
    omega

/-- The digits of an action that is made of levels are the levels. -/
theorem digits_encode {levels : List Nat} (h : ∀ level ∈ levels, level < 10) :
    digits levels.length (encode levels) = levels := by
  induction levels with
  | nil => rfl
  | cons level rest ih =>
    have hlevel := h level List.mem_cons_self
    have hrest := ih fun l hl => h l (List.mem_cons_of_mem _ hl)
    rw [List.length_cons, digits, encode_cons, List.cons.injEq]
    refine ⟨by omega, ?_⟩
    rw [show (encode rest * 10 + min level 9) / 10 = encode rest by omega, hrest]

theorem pow_le_limit {count : Nat} (h : count ≤ maxFree) : 10 ^ count ≤ limit :=
  calc
    10 ^ count ≤ 10 ^ maxFree := Nat.pow_le_pow_right (by decide) h
    _ ≤ limit := by decide

/-- However far levels have been made into an action, the next step stays within a word. -/
theorem encode_step_le_limit {levels rest : List Nat} {level : Nat}
    (hcount : levels.length ≤ maxFree) (h : level :: rest <:+ levels) :
    encode rest * 10 + min level 9 ≤ limit := by
  have hle := pow_le_limit (Nat.le_trans h.length_le hcount)
  have hlt := encode_lt (level :: rest)
  rw [encode_cons] at hlt
  omega

theorem size_eq_pow {s : ActionSpace} (h : s.free.length ≤ maxFree) :
    s.size = 10 ^ s.free.length :=
  Nat.min_eq_left (pow_le_limit h)

end ActionSpace

end ShapeGrammar
