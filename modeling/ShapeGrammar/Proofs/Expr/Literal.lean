import ShapeGrammar.Proofs.Expr.Blanks
import ShapeGrammar.Proofs.Json.Leaf
import ShapeGrammar.Proofs.Number.Bits
import ShapeGrammar.Proofs.Number.Shortest

/-!
# Numbers as parameters

A parameter that is a number is saved as the shortest decimal of it, without an exponent. That text
is one run of digits with at most one point, behind a sign at most, and spells the number. The words
for what is infinite or no number spell attributes. Main statements: `parse_literal`,
`parse_literal_ne`.
-/
namespace ShapeGrammar

namespace CharClass

theorem trim_of_not_blank {cs : List Char} (h : ∀ c ∈ cs, isBlank c = false) : trim cs = cs := by
  have hfirst : ∀ c ∈ cs.head?, isBlank c = false := fun c hc => h c (List.mem_of_mem_head? hc)
  have hlast : ∀ c ∈ cs.reverse.head?, isBlank c = false := fun c hc =>
    h c (List.mem_reverse.mp (List.mem_of_mem_head? hc))
  rw [trim, dropWhile_of_head hfirst, dropWhile_of_head hlast, List.reverse_reverse]

end CharClass

namespace Token

/-! ## Runs of digits and of letters -/

theorem digitsOf_eq (cs : List Char) : digitsOf cs = Nat.ofDigitChars 10 cs 0 :=
  Json.digitsValue_eq cs

theorem digitsOf_toDigits_append_zeros (n count : ℕ) :
    digitsOf (Nat.toDigits 10 n ++ List.replicate count '0') = n * 10 ^ count := by
  rw [digitsOf_eq, Nat.ofDigitChars_append, Nat.ofDigitChars_ten_toDigits,
    Nat.ofDigitChars_replicate_zero, Nat.mul_comm]

theorem digitsOf_zeros_append_toDigits (n count : ℕ) :
    digitsOf (List.replicate count '0' ++ Nat.toDigits 10 n) = n := by
  rw [digitsOf_eq, Nat.ofDigitChars_append, Nat.ofDigitChars_replicate_zero, Nat.mul_zero,
    Nat.ofDigitChars_ten_toDigits]

/-- The digits behind a point, if there are any. -/
def pointed (fraction : List Char) : List Char :=
  if fraction = [] then [] else '.' :: fraction

theorem isDigit_of_mem_zeros {c : Char} {count : ℕ} (h : c ∈ List.replicate count '0') :
    c.isDigit = true := by
  rw [List.eq_of_mem_replicate h]
  decide

theorem bne_point_of_isDigit {c : Char} (h : c.isDigit = true) : decide (c ≠ '.') = true := by
  refine decide_eq_true fun hpoint => ?_
  rw [hpoint] at h
  exact absurd h (by decide)

theorem ofNumberRun_pointed {whole fraction : List Char} (hwhole : whole ≠ [])
    (hdigits : ∀ c ∈ whole ++ fraction, c.isDigit = true) :
    ofNumberRun (whole ++ pointed fraction) =
      .number (digitsOf (whole ++ fraction)) fraction.length := by
  have hbefore : ∀ c ∈ whole, decide (c ≠ '.') = true := fun c hc =>
    bne_point_of_isDigit (hdigits c (List.mem_append_left _ hc))
  have hafter : '.' ∉ fraction := fun hpoint =>
    absurd (hdigits '.' (List.mem_append_right _ hpoint)) (by decide)
  have htake : (pointed fraction).takeWhile (· ≠ '.') = [] := by
    rw [pointed]
    split_ifs <;> rfl
  have hdrop : ((pointed fraction).dropWhile (· ≠ '.')).drop 1 = fraction := by
    rw [pointed]
    split_ifs with hnone
    · exact hnone.symm
    · rfl
  rw [ofNumberRun, List.takeWhile_append_of_pos hbefore, List.dropWhile_append_of_pos hbefore,
    htake, hdrop, List.append_nil]
  rw [if_neg]
  simp [hwhole, hafter]

theorem isNumberChar_of_mem {whole fraction : List Char}
    (hdigits : ∀ c ∈ whole ++ fraction, c.isDigit = true) :
    ∀ c ∈ whole ++ pointed fraction, isNumberChar c = true := by
  intro c hc
  rw [isNumberChar, Bool.or_eq_true]
  rcases List.mem_append.mp hc with hwhole | hpointed
  · exact .inl (hdigits c (List.mem_append_left _ hwhole))
  · rw [pointed] at hpointed
    split_ifs at hpointed
    · cases hpointed
    · rcases List.mem_cons.mp hpointed with rfl | hfraction
      · exact .inr rfl
      · exact .inl (hdigits c (List.mem_append_right _ hfraction))

/-- A text of digits and a point is one token. -/
theorem scan_pointed (position : ℕ) {whole fraction : List Char} (hwhole : whole ≠ [])
    (hdigits : ∀ c ∈ whole ++ fraction, c.isDigit = true) :
    ∃ first, scan position (whole ++ pointed fraction) =
      [⟨.number (digitsOf (whole ++ fraction)) fraction.length, first, position⟩] := by
  have hrun := ofNumberRun_pointed hwhole hdigits
  have hall := isNumberChar_of_mem hdigits
  cases whole with
  | nil => exact absurd rfl hwhole
  | cons first rest =>
    rw [List.cons_append] at hrun hall ⊢
    have hfirst := hall first List.mem_cons_self
    have hrest : ∀ c ∈ rest ++ pointed fraction, isNumberChar c = true := fun c hc =>
      hall c (List.mem_cons_of_mem _ hc)
    have hblank := CharClass.not_blank_of_number hfirst
    refine ⟨first, ?_⟩
    rw [scan, if_neg (by rw [hblank]; decide), if_pos hfirst, List.takeWhile_eq_self_iff.mpr hrest,
      List.dropWhile_eq_nil_iff.mpr hrest]
    dsimp only
    rw [hrun, scan_nil]

/-- A text of a letter and what may follow it in a name is one token. -/
theorem scan_word (position : ℕ) {c : Char} {rest : List Char}
    (hblank : CharClass.isBlank c = false) (hnumber : isNumberChar c = false)
    (hstart : isNameStart c = true) (hrest : rest.all isNameChar = true) :
    scan position (c :: rest) = [⟨ofNameRun (c :: rest), c, position⟩] := by
  rw [scan, if_neg (by rw [hblank]; decide), if_neg (by rw [hnumber]; decide), if_pos hstart,
    List.takeWhile_eq_self_iff.mpr (List.all_eq_true.mp hrest),
    List.dropWhile_eq_nil_iff.mpr (List.all_eq_true.mp hrest)]
  dsimp only
  rw [scan_nil]

end Token

namespace Decimal

open Token

/-- A text of digits with a point between them that spells a number. -/
structure Spells (text : String) (value : ℚ) (whole fraction : List Char) : Prop where
  whole_ne_nil : whole ≠ []
  digits : ∀ c ∈ whole ++ fraction, c.isDigit = true
  chars : text.toList = whole ++ pointed fraction
  value_eq : (digitsOf (whole ++ fraction) : ℚ) / 10 ^ fraction.length = value

theorem zeros_toList (count : ℕ) : (zeros count).toList = List.replicate count '0' :=
  String.toList_ofList

theorem spells_whole (n e : ℕ) : Spells (toString n ++ zeros e) (n * 10 ^ e)
    (Nat.toDigits 10 n ++ List.replicate e '0') [] := by
  refine ⟨?_, ?_, ?_, ?_⟩
  · exact List.append_ne_nil_of_left_ne_nil Nat.toDigits_ne_nil _
  · intro c hc
    rw [List.append_nil] at hc
    rcases List.mem_append.mp hc with hdigit | hzero
    · exact Json.isDigit_of_mem_toDigits hdigit
    · exact isDigit_of_mem_zeros hzero
  · rw [String.toList_append, Nat.toString_eq_repr, Nat.toList_repr, zeros_toList]
    exact (List.append_nil _).symm
  · rw [List.append_nil, digitsOf_toDigits_append_zeros, List.length_nil, pow_zero, div_one]
    push_cast
    rfl

/-- A list of digits is cut before its last `places` ones. -/
theorem spells_cut {padded : List Char} {places : ℕ} (hplaces : 0 < places)
    (hlength : places < padded.length) (hdigits : ∀ c ∈ padded, c.isDigit = true) :
    ∃ whole fraction : List Char,
      Spells (String.ofList (padded.take (padded.length - places)) ++ "." ++
          String.ofList (padded.drop (padded.length - places)))
        (digitsOf padded / 10 ^ places) whole fraction ∧ fraction.length = places := by
  have hcut : (padded.drop (padded.length - places)).length = places := by
    rw [List.length_drop]
    omega
  have hne : padded.drop (padded.length - places) ≠ [] := by
    intro hnil
    rw [hnil, List.length_nil] at hcut
    omega
  refine ⟨padded.take (padded.length - places), _, ⟨?_, ?_, ?_, ?_⟩, hcut⟩
  · intro hnil
    have := congrArg List.length hnil
    rw [List.length_take, List.length_nil] at this
    omega
  · rwa [List.take_append_drop]
  · simp [pointed, hne]
  · rw [List.take_append_drop, hcut]

theorem spells_fraction (n e : ℕ) : ∃ whole fraction : List Char,
    Spells (positional ⟨n, .negSucc e⟩) (n / 10 ^ (e + 1)) whole fraction ∧
      fraction.length = e + 1 := by
  have hlist : (zeros (e + 1 + 1 - width n) ++ toString n).toList =
      List.replicate (e + 1 + 1 - width n) '0' ++ Nat.toDigits 10 n := by
    rw [String.toList_append, Nat.toString_eq_repr, Nat.toList_repr, zeros_toList]
  have hvalue := digitsOf_zeros_append_toDigits n (e + 1 + 1 - width n)
  have hdigits : ∀ c ∈ List.replicate (e + 1 + 1 - width n) '0' ++ Nat.toDigits 10 n,
      c.isDigit = true := by
    intro c hc
    rcases List.mem_append.mp hc with hzero | hdigit
    · exact isDigit_of_mem_zeros hzero
    · exact Json.isDigit_of_mem_toDigits hdigit
  have hlength : e + 1 <
      (List.replicate (e + 1 + 1 - width n) '0' ++ Nat.toDigits 10 n).length := by
    have hpos : 0 < width n := Nat.length_toDigits_pos
    rw [List.length_append, List.length_replicate]
    rw [width] at *
    omega
  obtain ⟨whole, fraction, hspells, hplaces⟩ := spells_cut e.succ_pos hlength hdigits
  refine ⟨whole, fraction, ?_, hplaces⟩
  rw [positional]
  dsimp only
  rw [← String.length_toList, hlist]
  rwa [hvalue] at hspells

/-- The text of a decimal is digits, of which the last ones stand behind a point, and they spell
its value. -/
theorem positional_spec (d : Decimal) : ∃ whole fraction : List Char,
    Spells d.positional d.value whole fraction ∧ (fraction.length : ℤ) ≤ max 0 (-d.exponent) := by
  obtain ⟨n, e⟩ := d
  cases e with
  | ofNat e =>
    by_cases hzero : n = 0
    · refine ⟨['0'], [], ⟨by decide, List.all_eq_true.mp (by decide), ?_, ?_⟩, by simp⟩
      · rw [positional]
        exact congrArg String.toList (if_pos hzero)
      · rw [value, hzero, Nat.cast_zero, zero_mul]
        exact div_eq_zero_iff.mpr (.inl (Nat.cast_eq_zero.mpr rfl))
    · refine ⟨Nat.toDigits 10 n ++ List.replicate e '0', [], ?_, by simp⟩
      rw [positional, value]
      dsimp only
      rw [if_neg hzero, Int.ofNat_eq_natCast, zpow_natCast]
      exact spells_whole n e
  | negSucc e =>
    obtain ⟨whole, fraction, hspells, hlength⟩ := spells_fraction n e
    refine ⟨whole, fraction, ?_, ?_⟩
    · rw [value]
      dsimp only
      rwa [zpow_negSucc, ← div_eq_mul_inv]
    · rw [hlength]
      simp [Int.negSucc_eq]

end Decimal

/-! ## The expression of a number -/

namespace Expr

variable {α : Type} [Scalar α]

theorem ofTokens_number (digits places : ℕ) (first : Char) (position : ℕ) :
    ofTokens [⟨.number digits places, first, position⟩] =
      .ok (.number (Scalar.ofDecimal digits places) : Expr α) :=
  rfl

theorem ofTokens_minus (digits places : ℕ) (first sign : Char) (position next : ℕ) :
    ofTokens [⟨.symbol '-', sign, position⟩, ⟨.number digits places, first, next⟩] =
      .ok (.number (-Scalar.ofDecimal digits places) : Expr α) :=
  rfl

end Expr

namespace Param

open Decimal

variable {α : Type} [Scalar α] {text : String} {value : ℚ} {whole fraction : List Char}

theorem parse_of_spells (h : Spells text value whole fraction) :
    parse text = .ok (⟨text, .number (Scalar.ofDecimal (Token.digitsOf (whole ++ fraction))
      fraction.length)⟩ : Param α) := by
  obtain ⟨first, hscan⟩ := Token.scan_pointed 0 h.whole_ne_nil h.digits
  have hnone : ∀ c ∈ text.toList, CharClass.isBlank c = false := by
    rw [h.chars]
    exact fun c hc => CharClass.not_blank_of_number (Token.isNumberChar_of_mem h.digits c hc)
  rw [parse, CharClass.trim_of_not_blank hnone, Expr.parse, h.chars, hscan, Expr.ofTokens_number,
    ← h.chars, String.ofList_toList]
  rfl

theorem parse_minus_of_spells (h : Spells text value whole fraction) :
    parse ("-" ++ text) = .ok (⟨"-" ++ text,
      .number (-Scalar.ofDecimal (Token.digitsOf (whole ++ fraction)) fraction.length)⟩ :
        Param α) := by
  obtain ⟨first, hscan⟩ := Token.scan_pointed 1 h.whole_ne_nil h.digits
  have hchars : ("-" ++ text).toList = '-' :: text.toList := String.toList_append
  have hnone : ∀ c ∈ ("-" ++ text).toList, CharClass.isBlank c = false := by
    rw [hchars, h.chars]
    intro c hc
    rcases List.mem_cons.mp hc with rfl | hc
    · decide
    · exact CharClass.not_blank_of_number (Token.isNumberChar_of_mem h.digits c hc)
  have hsign : Token.scan 0 ('-' :: text.toList) =
      ⟨.symbol '-', '-', 0⟩ :: Token.scan 1 text.toList := by
    rw [Token.scan, if_neg (by decide), if_neg (by decide), if_neg (by decide)]
  rw [parse, CharClass.trim_of_not_blank hnone, String.ofList_toList, Expr.parse, hchars, hsign,
    h.chars, hscan, Expr.ofTokens_minus]
  rfl

end Param

/-! ## Single precision numbers -/

namespace BinaryFormat

theorem single_ofDecimal {m : ℕ} {e : ℤ} (h : single.Canonical m e)
    (hfinite : single.pattern m e < single.infinityBits) {n p : ℕ} (hn : 0 < n) (hp : p ≤ 1000)
    (hrounds : single.RoundsTo m e (n / 10 ^ p)) :
    single.ofDecimal false n (-p) = single.pattern m e := by
  have hsize : ¬(n = 0 ∨ -(p : ℤ) + ((Nat.log2 n : ℤ) / 3 + 1) < -2000) := by
    omega
  unfold BinaryFormat.ofDecimal
  rw [if_neg hsize]
  cases p with
  | zero =>
    rw [pow_zero] at hrounds
    change (if 2000 < 0 then _ else single.encode false (n * Nat.pow 10 0) 1) = _
    rw [if_neg (by decide), encode, if_neg Bool.false_ne_true, Nat.zero_add]
    exact nearestBits_eq_pattern h hfinite (by simpa using hn) Nat.one_pos (by simpa using hrounds)
  | succ k =>
    change single.encode false n (Nat.pow 10 (k + 1)) = _
    rw [encode, if_neg Bool.false_ne_true, Nat.zero_add]
    refine nearestBits_eq_pattern h hfinite hn (Nat.pow_pos (by decide)) ?_
    rw [Nat.pow_eq]
    push_cast
    exact hrounds

end BinaryFormat

namespace Float32

open BinaryFormat Decimal

/-- The number that the digits of a shortest decimal spell. -/
theorem ofDecimal_shortest {m : ℕ} {e : ℤ} (h : single.Canonical m e)
    (hfinite : single.pattern m e < single.infinityBits) {text : String}
    {whole fraction : List Char}
    (hspells : Spells text (shortest single .up m e).value whole fraction)
    (hlength : (fraction.length : ℤ) ≤ max 0 (-(shortest single .up m e).exponent)) :
    single.ofDecimal false (Token.digitsOf (whole ++ fraction)) (-fraction.length) =
      single.pattern m e := by
  have hvalue := hspells.value_eq
  generalize Token.digitsOf (whole ++ fraction) = n at *
  rcases Nat.eq_zero_or_pos m with rfl | hm
  · have hn : n = 0 := by
      have hzero : (shortest single .up 0 e).value = 0 := by
        rw [shortest, if_pos rfl, value]
        norm_num
      rw [hzero, div_eq_zero_iff] at hvalue
      exact_mod_cast hvalue.resolve_right (by positivity)
    rw [hn, pattern, if_pos (by decide)]
    unfold BinaryFormat.ofDecimal
    exact if_pos (.inl rfl)
  · obtain ⟨hpos, _, hleast, _⟩ := shortest_bounds h hm hfinite .up
    have hrounds := roundsTo_shortest h hm .up
    have hn : 0 < n := by
      refine Nat.pos_of_ne_zero fun hzero => ?_
      rw [hzero, Nat.cast_zero, zero_div, value] at hvalue
      exact (mul_pos (Nat.cast_pos.mpr hpos) (by positivity)).ne hvalue
    rw [← hvalue] at hrounds
    exact single_ofDecimal h hfinite hn (by omega) hrounds

end Float32

namespace Param

open BinaryFormat Decimal

/-- A finite number is read from its text. -/
theorem parse_literal {v : Float32} (h : v.isFinite = true) :
    parse (Float32.text v) = .ok (literal v) := by
  obtain ⟨negative, m, e, hdecode⟩ := (Float32.isFinite_iff v).mp h
  obtain ⟨hcanonical, hfinite, hbits⟩ := pattern_of_decode (Float32.toNat_lt v.toBits) hdecode
  obtain ⟨whole, fraction, hspells, hlength⟩ := positional_spec (shortest single .up m e)
  have hvalue : Scalar.ofDecimal (Token.digitsOf (whole ++ fraction)) fraction.length =
      Float32.ofBits (.ofNat (single.pattern m e)) :=
    congrArg (fun bits => Float32.ofBits (.ofNat bits))
      (Float32.ofDecimal_shortest hcanonical hfinite hspells hlength)
  have hback : Float32.ofBits (.ofNat (single.signBits negative + single.pattern m e)) = v := by
    rw [← hbits, UInt32.ofNat_toNat, Float32.ofBits_toBits h]
  rw [literal, Float32.text, hdecode, Value.text]
  cases negative with
  | false =>
    rw [signBits_false, Nat.zero_add] at hback
    rw [if_neg Bool.false_ne_true, String.empty_append, parse_of_spells hspells, hvalue, hback]
  | true =>
    rw [if_pos rfl, parse_minus_of_spells hspells, hvalue,
      Float32.neg_ofBits hcanonical hfinite, ← signBits_true, hback]

/-- The words for what is infinite or no number are read as attributes. -/
theorem parse_words :
    Expr.parse "NaN" = .ok (.attribute "NaN" : Expr Float32) ∧
      Expr.parse "inf" = .ok (.attribute "inf" : Expr Float32) ∧
      Expr.parse "-inf" = .ok (.neg (.attribute "inf") : Expr Float32) := by
  refine ⟨?_, ?_, ?_⟩
  · change Expr.ofTokens (Token.scan 0 ['N', 'a', 'N']) = _
    rw [Token.scan_word 0 (by decide) (by decide) (by decide) (by decide)]
    rfl
  · change Expr.ofTokens (Token.scan 0 ['i', 'n', 'f']) = _
    rw [Token.scan_word 0 (by decide) (by decide) (by decide) (by decide)]
    rfl
  · change Expr.ofTokens (Token.scan 0 ['-', 'i', 'n', 'f']) = _
    rw [Token.scan, if_neg (by decide), if_neg (by decide), if_neg (by decide),
      Token.scan_word 1 (by decide) (by decide) (by decide) (by decide)]
    rfl

/-- What is infinite or no number is not read from its text. -/
theorem parse_literal_ne {v : Float32} (h : v.isFinite = false) :
    parse (Float32.text v) ≠ .ok (literal v) := by
  obtain ⟨hnan, hinf, hneg⟩ := parse_words
  intro hparse
  have hexpr := (parse_eq_ok.mp hparse).1
  rw [Float32.text] at hexpr
  cases hdecode : single.decode v.toBits.toNat with
  | notANumber =>
    rw [hdecode] at hexpr
    cases hnan.symm.trans hexpr
  | infinite negative =>
    rw [hdecode] at hexpr
    cases negative with
    | false => cases hinf.symm.trans hexpr
    | true => cases hneg.symm.trans hexpr
  | finite negative m e =>
    rw [(Float32.isFinite_iff v).mpr ⟨negative, m, e, hdecode⟩] at h
    cases h

end Param

end ShapeGrammar
