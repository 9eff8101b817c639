import Mathlib.Tactic.SplitIfs
import ShapeGrammar.Json.Printer
import ShapeGrammar.Json.Reader

/-!
# Numbers and texts are read back

What is written of a number or a text is read as that number or text again, whatever follows it, as
long as a number is not followed by something that could go on with it. Main statements:
`magnitude_render` and `stringTail_quote`.
-/
namespace ShapeGrammar

namespace Json

/-! ## Digits -/

/-- Whether a text does not go on with a digit. -/
def DigitsEnd (cs : List Char) : Prop :=
  ∀ c rest, cs = c :: rest → c.isDigit = false

theorem digitRun_append {digits rest : List Char} (hdigits : ∀ c ∈ digits, c.isDigit = true)
    (hrest : DigitsEnd rest) : digitRun (digits ++ rest) = (digits, rest) := by
  induction digits with
  | nil =>
    cases rest with
    | nil => rfl
    | cons c rest => simp [digitRun, hrest c rest rfl]
  | cons c digits ih =>
    have hc := hdigits c List.mem_cons_self
    have hrun := ih fun d hd => hdigits d (List.mem_cons_of_mem c hd)
    simp only [digitRun, Prod.mk.injEq] at hrun
    simp [digitRun, hc, hrun]

theorem isDigit_of_mem_toDigits {n : Nat} {c : Char} (h : c ∈ Nat.toDigits 10 n) :
    c.isDigit = true :=
  Nat.isDigit_of_mem_toDigits (by decide) (by decide) h

/-- A number is written with a digit first. -/
theorem toDigits_eq_cons (n : Nat) :
    ∃ c digits, Nat.toDigits 10 n = c :: digits ∧ c.isDigit = true := by
  cases hd : Nat.toDigits 10 n with
  | nil => exact absurd hd Nat.toDigits_ne_nil
  | cons c digits => exact ⟨c, digits, rfl, isDigit_of_mem_toDigits (hd ▸ List.mem_cons_self)⟩

theorem digitRun_toDigits (n : Nat) {rest : List Char} (hrest : DigitsEnd rest) :
    digitRun (Nat.toDigits 10 n ++ rest) = (Nat.toDigits 10 n, rest) :=
  digitRun_append (fun _ => isDigit_of_mem_toDigits) hrest

theorem digitsValue_eq (cs : List Char) : digitsValue cs = Nat.ofDigitChars 10 cs 0 := by
  rw [Nat.ofDigitChars_eq_foldl, digitsValue]
  congr 1
  funext total c
  rw [Nat.mul_comm]
  rfl

theorem digitsValue_toDigits (n : Nat) : digitsValue (Nat.toDigits 10 n) = n := by
  rw [digitsValue_eq, Nat.ofDigitChars_ten_toDigits]

theorem digitRun_eq_cons (n : Nat) {rest : List Char} (hrest : DigitsEnd rest) :
    ∃ c digits, digitRun (Nat.toDigits 10 n ++ rest) = (c :: digits, rest) ∧
      digitsValue (c :: digits) = n := by
  obtain ⟨c, digits, hd, _⟩ := toDigits_eq_cons n
  have hrun := digitRun_toDigits n hrest
  have hvalue := digitsValue_toDigits n
  rw [hd] at hvalue
  rw [hrun, hd]
  exact ⟨c, digits, rfl, hvalue⟩

/-- A number is written with a leading zero only if it is zero. -/
theorem head_toDigits_ne_zero {n : Nat} (hn : n ≠ 0) {c : Char} {rest : List Char}
    (h : Nat.toDigits 10 n = c :: rest) : c ≠ '0' := by
  induction n using Nat.strongRecOn generalizing rest with
  | ind n ih =>
    by_cases hlt : n < 10
    · rw [Nat.toDigits_of_lt_base hlt, List.cons.injEq] at h
      simp [← h.1, hn]
    · rw [Nat.toDigits_of_base_le (by decide) (by omega)] at h
      obtain ⟨d, digits, hd, _⟩ := toDigits_eq_cons (n / 10)
      rw [hd, List.cons_append, List.cons.injEq] at h
      rw [h.1] at hd
      exact ih (n / 10) (by omega) (by omega) hd

theorem wholePart_toDigits (n : Nat) {rest : List Char} (hrest : DigitsEnd rest) :
    wholePart (Nat.toDigits 10 n ++ rest) = some (n, rest) := by
  rw [wholePart, digitRun_toDigits n hrest]
  by_cases hn : n = 0
  · subst hn
    rfl
  · have hvalue := digitsValue_toDigits n
    obtain ⟨c, digits, hd, _⟩ := toDigits_eq_cons n
    have hc := head_toDigits_ne_zero hn hd
    rw [hd] at hvalue ⊢
    split
    next heq => cases heq
    next heq => exact absurd (List.cons.inj (Prod.mk.inj heq).1).1 hc
    next heq => exact absurd (List.cons.inj (Prod.mk.inj heq).1).1 hc
    next heq =>
      obtain ⟨rfl, rfl⟩ := Prod.mk.inj heq
      rw [hvalue]

/-! ## Numbers -/

/-- Whether a text does not go on with anything that could belong to a number. -/
structure NumberEnds (cs : List Char) : Prop where
  digit : DigitsEnd cs
  point : ∀ rest, cs ≠ '.' :: rest
  lower : ∀ rest, cs ≠ 'e' :: rest
  upper : ∀ rest, cs ≠ 'E' :: rest

theorem digitOf_digitChar (d : Fin 10) : digitOf (Nat.digitChar d.val) = d := by
  revert d
  decide

/-- The digits of a fraction behind their point, if there are any. -/
def renderFraction (fraction : List (Fin 10)) : List Char :=
  if fraction.isEmpty then [] else '.' :: fraction.map fun digit => Nat.digitChar digit.val

/-- The power of ten with its sign, if there is one. -/
def renderExponent : Option Int → List Char
  | none => []
  | some (.ofNat e) => 'e' :: '+' :: Nat.toDigits 10 e
  | some (.negSucc e) => 'e' :: '-' :: Nat.toDigits 10 (e + 1)

theorem digitsEnd_cons {c : Char} (h : c.isDigit = false) (rest : List Char) :
    DigitsEnd (c :: rest) := by
  intro d tail heq
  rw [List.cons.injEq] at heq
  exact heq.1 ▸ h

theorem digitsEnd_exponent (exponent : Option Int) {rest : List Char} (hrest : NumberEnds rest) :
    DigitsEnd (renderExponent exponent ++ rest) := by
  rcases exponent with _ | _ | _
  · exact hrest.digit
  · exact digitsEnd_cons (by decide) _
  · exact digitsEnd_cons (by decide) _

theorem digitsEnd_fraction (fraction : List (Fin 10)) (exponent : Option Int) {rest : List Char}
    (hrest : NumberEnds rest) :
    DigitsEnd (renderFraction fraction ++ (renderExponent exponent ++ rest)) := by
  cases fraction with
  | nil => exact digitsEnd_exponent exponent hrest
  | cons digit digits => exact digitsEnd_cons (by decide) _

theorem fractionPart_render (fraction : List (Fin 10)) (exponent : Option Int) {rest : List Char}
    (hrest : NumberEnds rest) :
    fractionPart (renderFraction fraction ++ (renderExponent exponent ++ rest)) =
      some (fraction, renderExponent exponent ++ rest) := by
  cases fraction with
  | nil =>
    have hpoint : ∀ tail, renderExponent exponent ++ rest ≠ '.' :: tail := by
      intro tail
      rcases exponent with _ | _ | _
      · exact hrest.point tail
      · simp [renderExponent]
      · simp [renderExponent]
    simp only [renderFraction, List.isEmpty_nil, if_true, List.nil_append]
    unfold fractionPart
    split
    next cs heq => exact absurd heq (hpoint cs)
    · rfl
  | cons digit digits =>
    have hdigits : ∀ c ∈ (digit :: digits).map fun d => Nat.digitChar d.val, c.isDigit = true := by
      intro c hc
      obtain ⟨d, _, rfl⟩ := List.mem_map.mp hc
      simp [d.isLt]
    have hrun := digitRun_append hdigits (digitsEnd_exponent exponent hrest)
    have hback : ((digit :: digits).map fun d => Nat.digitChar d.val).map digitOf =
        digit :: digits := by
      rw [List.map_map]
      exact List.map_id'' digitOf_digitChar _
    simp only [renderFraction, List.isEmpty_cons, Bool.false_eq_true, if_false, List.cons_append,
      fractionPart]
    simp only [List.map_cons, List.cons_append] at hrun hback ⊢
    rw [hrun]
    simp only [List.map_cons, hback]

theorem exponentPart_render (exponent : Option Int) {rest : List Char} (hrest : NumberEnds rest) :
    exponentPart (renderExponent exponent ++ rest) = some (exponent, rest) := by
  rcases exponent with _ | e | e
  · simp only [renderExponent, List.nil_append]
    unfold exponentPart
    split
    · exact absurd rfl (hrest.lower _)
    · exact absurd rfl (hrest.upper _)
    · exact absurd rfl (hrest.lower _)
    · exact absurd rfl (hrest.upper _)
    · exact absurd rfl (hrest.lower _)
    · exact absurd rfl (hrest.upper _)
    · rfl
  · obtain ⟨c, digits, hrun, hvalue⟩ := digitRun_eq_cons e hrest.digit
    simp only [renderExponent, List.cons_append, exponentPart, hrun, hvalue]
    rfl
  · obtain ⟨c, digits, hrun, hvalue⟩ := digitRun_eq_cons (e + 1) hrest.digit
    simp only [renderExponent, List.cons_append, exponentPart, hrun, hvalue]
    rfl

theorem render_eq (n : Numeral) :
    n.render = (if n.negative then ['-'] else []) ++
      (Nat.toDigits 10 n.whole ++ (renderFraction n.fraction ++ renderExponent n.exponent)) := by
  rw [Numeral.render, List.append_assoc, List.append_assoc]
  rfl

/-- A number without its sign is read back, if nothing that follows belongs to it. -/
theorem magnitude_render (n : Numeral) {rest : List Char} (hrest : NumberEnds rest) :
    magnitude n.negative (Nat.toDigits 10 n.whole ++
      (renderFraction n.fraction ++ (renderExponent n.exponent ++ rest))) =
        some (.number n, rest) := by
  rw [magnitude, wholePart_toDigits _ (digitsEnd_fraction n.fraction n.exponent hrest)]
  simp only [Option.bind_eq_bind, Option.bind_some]
  rw [fractionPart_render n.fraction n.exponent hrest]
  simp only [Option.bind_some]
  rw [exponentPart_render n.exponent hrest]
  rfl

/-! ## Texts -/

theorem hexValue_digitChar {d : Nat} (hd : d < 16) : hexValue (Nat.digitChar d) = some d := by
  revert d
  decide

/-- A control character is read back from its code. -/
theorem hexCode_escapeCode {c : Char} (hc : c.toNat < 32) (rest : List Char) :
    hexCode ('0' :: '0' :: Nat.digitChar (c.toNat / 16) :: Nat.digitChar (c.toNat % 16) :: rest) =
      some (c.toNat, rest) := by
  have hzero : hexValue '0' = some 0 := by decide
  have hhigh := hexValue_digitChar (d := c.toNat / 16) (by omega)
  have hlow := hexValue_digitChar (d := c.toNat % 16) (by omega)
  simp only [hexCode, hzero, hhigh, hlow, Option.bind_eq_bind, Option.bind_some, Option.pure_def,
    Option.some.injEq, Prod.mk.injEq, and_true]
  omega

theorem codeEscape_of_lt {code : Nat} (h : code < 32) (rest : List Char) :
    codeEscape code rest = (some (Char.ofNat code), rest) := by
  have hhigh : isHighSurrogate code = false := by simp [isHighSurrogate]; omega
  have hlow : isLowSurrogate code = false := by simp [isLowSurrogate]; omega
  simp [codeEscape, hhigh, hlow]

theorem stringTail_escapeCode (fuel : Nat) (sound : Bool) (done : List Char) {c : Char}
    (hc : c.toNat < 32) (rest : List Char) :
    stringTail (fuel + 1) sound done (escapeCode c ++ rest) =
      stringTail fuel sound (c :: done) rest := by
  simp only [escapeCode, List.cons_append, List.nil_append, stringTail]
  rw [hexCode_escapeCode hc]
  simp only [codeEscape_of_lt hc, Char.ofNat_toNat]

theorem stringTail_plain (fuel : Nat) (sound : Bool) (done : List Char) {c : Char}
    (hquote : c ≠ '"') (hback : c ≠ '\\') (hc : ¬c.toNat < 32) (rest : List Char) :
    stringTail (fuel + 1) sound done (c :: rest) = stringTail fuel sound (c :: done) rest := by
  have hle : 32 ≤ c.toNat := Nat.le_of_not_lt hc
  rw [stringTail.eq_def]
  split <;> simp_all [Nat.not_lt_of_ge hle]

/-- Each character is read back from the way it is written inside quotes. -/
theorem stringTail_escape (fuel : Nat) (sound : Bool) (done : List Char) (c : Char)
    (rest : List Char) :
    stringTail (fuel + 1) sound done (escape c ++ rest) =
      stringTail fuel sound (c :: done) rest := by
  unfold escape
  split_ifs with hquote hback hline hreturn htab hbackspace hfeed hcode
  -- the seven characters that have a letter of their own come first
  iterate 7
    · subst c
      simp [stringTail, letterEscape]
  · exact stringTail_escapeCode fuel sound done hcode rest
  · exact stringTail_plain fuel sound done hquote hback hcode rest

theorem stringTail_flatMap_escape {fuel : Nat} {cs : List Char} (hfuel : cs.length < fuel)
    (done rest : List Char) :
    stringTail fuel true done (cs.flatMap escape ++ '"' :: rest) =
      some (some (String.ofList (done.reverse ++ cs)), rest) := by
  induction cs generalizing fuel done with
  | nil =>
    obtain ⟨fuel, rfl⟩ := Nat.exists_eq_succ_of_ne_zero (Nat.ne_of_gt hfuel)
    simp [stringTail]
  | cons c cs ih =>
    obtain ⟨fuel, rfl⟩ := Nat.exists_eq_succ_of_ne_zero (Nat.ne_of_gt (Nat.zero_lt_of_lt hfuel))
    rw [List.flatMap_cons, List.append_assoc, stringTail_escape, ih (by simpa using hfuel)]
    simp

/-- A text is read back behind its opening quote. -/
theorem stringTail_quote {fuel : Nat} {s : String} (hfuel : s.length < fuel) (rest : List Char) :
    stringTail fuel true [] (s.toList.flatMap escape ++ '"' :: rest) = some (some s, rest) := by
  rw [stringTail_flatMap_escape (by rwa [String.length_toList])]
  simp

theorem escape_ne_nil (c : Char) : escape c ≠ [] := by
  unfold escape
  split_ifs <;> simp [escapeCode]

/-- Writing a text makes it no shorter. -/
theorem length_le_flatMap_escape (cs : List Char) : cs.length ≤ (cs.flatMap escape).length := by
  induction cs with
  | nil => exact Nat.zero_le _
  | cons c cs ih =>
    have hc : 0 < (escape c).length := List.length_pos_iff.mpr (escape_ne_nil c)
    rw [List.flatMap_cons, List.length_append, List.length_cons]
    omega

end Json

end ShapeGrammar
