import Mathlib.Data.List.DropRight
import ShapeGrammar.Expr.Param

/-!
# Blanks around an expression

A parameter is kept without the blanks around its text. What is left spells the same expression:
blanks separate tokens and are no part of any, and where a token stands matters to messages only.
Main statement: `Param.parse_text`.
-/
namespace ShapeGrammar

/-! ## Runs before blanks -/

section Runs

variable {β : Type} {p : β → Bool} {ends : List β} (hends : ∀ x ∈ ends, p x = false)
include hends

theorem takeWhile_append_ends (xs : List β) : (xs ++ ends).takeWhile p = xs.takeWhile p := by
  have hnone : ends.takeWhile p = [] := by
    cases ends with
    | nil => rfl
    | cons x rest => rw [List.takeWhile_cons_of_neg (by simp [hends x List.mem_cons_self])]
  rw [List.takeWhile_append, hnone]
  split_ifs with hlength
  · rw [List.append_nil]
    exact ((List.takeWhile_prefix p).eq_of_length hlength).symm
  · rfl

theorem dropWhile_append_ends (xs : List β) :
    (xs ++ ends).dropWhile p = xs.dropWhile p ++ ends := by
  have hall : ends.dropWhile p = ends := by
    cases ends with
    | nil => rfl
    | cons x rest => rw [List.dropWhile_cons_of_neg (by simp [hends x List.mem_cons_self])]
  rw [List.dropWhile_append, hall]
  split_ifs with hempty
  · rw [List.isEmpty_iff.mp hempty, List.nil_append]
  · rfl

end Runs

namespace CharClass

/-- The code points of blanks. -/
def blankCodes : List ℕ :=
  [9, 10, 11, 12, 13, 0x20, 0x85, 0xa0, 0x1680, 0x2000, 0x2001, 0x2002, 0x2003, 0x2004, 0x2005,
    0x2006, 0x2007, 0x2008, 0x2009, 0x200a, 0x2028, 0x2029, 0x202f, 0x205f, 0x3000]

theorem toNat_mem_blankCodes {c : Char} (h : isBlank c = true) : c.toNat ∈ blankCodes := by
  simp only [isBlank, Bool.or_eq_true, Bool.and_eq_true, decide_eq_true_eq, beq_iff_eq] at h
  simp only [blankCodes, List.mem_cons, List.not_mem_nil, or_false]
  omega

theorem isNameChar_blankCodes : ∀ code ∈ blankCodes,
    Token.isNumberChar (Char.ofNat code) = false ∧ Token.isNameChar (Char.ofNat code) = false := by
  decide +kernel

/-- No blank is part of a number or a name. -/
theorem not_run_of_isBlank {c : Char} (h : isBlank c = true) :
    Token.isNumberChar c = false ∧ Token.isNameChar c = false := by
  rw [← Char.ofNat_toNat c]
  exact isNameChar_blankCodes _ (toNat_mem_blankCodes h)

theorem not_blank_of_number {c : Char} (h : Token.isNumberChar c = true) : isBlank c = false := by
  by_contra hblank
  rw [(not_run_of_isBlank (Bool.of_not_eq_false hblank)).1] at h
  cases h

theorem not_blank_of_name {c : Char} (h : Token.isNameChar c = true) : isBlank c = false := by
  by_contra hblank
  rw [(not_run_of_isBlank (Bool.of_not_eq_false hblank)).2] at h
  cases h

theorem dropWhile_of_head {cs : List Char} (h : ∀ c ∈ cs.head?, isBlank c = false) :
    cs.dropWhile isBlank = cs := by
  cases cs with
  | nil => rfl
  | cons c rest => exact List.dropWhile_cons_of_neg (by simp [h c rfl])

/-- What is left of a text that ends in no blank, with blanks around it. -/
theorem trim_of_blanks {before core after : List Char} (hne : core ≠ [])
    (hbefore : ∀ c ∈ before, isBlank c = true) (hafter : ∀ c ∈ after, isBlank c = true)
    (hfirst : ∀ c ∈ core.head?, isBlank c = false)
    (hlast : ∀ c ∈ core.getLast?, isBlank c = false) : trim (before ++ (core ++ after)) = core := by
  have hopen : ∀ c ∈ (core ++ after).head?, isBlank c = false := by
    rwa [List.head?_append_of_ne_nil _ hne]
  have hafter' : ∀ c ∈ after.reverse, isBlank c = true := fun c hc =>
    hafter c (List.mem_reverse.mp hc)
  have hclose : ∀ c ∈ core.reverse.head?, isBlank c = false := by
    rwa [List.head?_reverse]
  rw [trim, List.dropWhile_append_of_pos hbefore, dropWhile_of_head hopen, List.reverse_append,
    List.dropWhile_append_of_pos hafter', dropWhile_of_head hclose, List.reverse_reverse]

/-- A text is blanks, what is left of it without blanks around it, and blanks. -/
theorem exists_trim (cs : List Char) : ∃ ends, (∀ c ∈ ends, isBlank c = true) ∧
    cs.dropWhile isBlank = trim cs ++ ends :=
  ⟨(cs.dropWhile isBlank).rtakeWhile isBlank, fun _ hc => List.mem_rtakeWhile_imp hc,
    List.rdropWhile_append_rtakeWhile.symm⟩

theorem trim_trim (cs : List Char) : trim (trim cs) = trim cs := by
  have hfirst : (trim cs).dropWhile isBlank = trim cs := by
    obtain ⟨ends, _, hends⟩ := exists_trim cs
    cases htrim : trim cs with
    | nil => rfl
    | cons c rest =>
      refine List.dropWhile_cons_of_neg (fun hc => ?_)
      rw [htrim, List.cons_append] at hends
      have hkept := List.dropWhile_idempotent isBlank cs
      rw [hends, List.dropWhile_cons_of_pos hc] at hkept
      have := congrArg List.length hkept
      have := (List.dropWhile_suffix isBlank (l := rest ++ ends)).length_le
      simp at *
      omega
  calc trim (trim cs) = ((trim cs).dropWhile isBlank).rdropWhile isBlank := rfl
    _ = (trim cs).rdropWhile isBlank := by rw [hfirst]
    _ = trim cs := List.rdropWhile_idempotent isBlank _

end CharClass

namespace Token

open CharClass

@[simp] theorem scan_nil (position : ℕ) : scan position [] = [] := by
  rw [scan.eq_def]

/-- Where a text stands does not matter to what its tokens say. -/
theorem scan_position (cs : List Char) (p q : ℕ) :
    (scan p cs).map lexeme = (scan q cs).map lexeme := by
  fun_induction scan p cs generalizing q with
  | case1 => rw [scan_nil]
  | case2 p c rest hblank ih =>
    rw [scan, if_pos hblank]
    exact ih _
  | case3 p c rest hblank hnumber run ih =>
    rw [scan, if_neg hblank, if_pos hnumber, List.map_cons, List.map_cons, ih]
  | case4 p c rest hblank hnumber hname run ih =>
    rw [scan, if_neg hblank, if_neg hnumber, if_pos hname, List.map_cons, List.map_cons, ih]
  | case5 p c rest hblank hnumber hname ih =>
    rw [scan, if_neg hblank, if_neg hnumber, if_neg hname, List.map_cons, List.map_cons, ih]

theorem scan_dropWhile_isBlank (cs : List Char) (p q : ℕ) :
    (scan p (cs.dropWhile isBlank)).map lexeme = (scan q cs).map lexeme := by
  induction cs generalizing q with
  | nil => rw [List.dropWhile_nil, scan_nil, scan_nil]
  | cons c rest ih =>
    by_cases hblank : isBlank c = true
    · rw [List.dropWhile_cons_of_pos hblank, scan, if_pos hblank]
      exact ih (q + 1)
    · rw [List.dropWhile_cons_of_neg hblank]
      exact scan_position _ _ _

/-- Blanks after a text are no token. -/
theorem scan_append_blanks {ends : List Char} (hends : ∀ c ∈ ends, isBlank c = true)
    (p : ℕ) (cs : List Char) : scan p (cs ++ ends) = scan p cs := by
  have hnumber : ∀ c ∈ ends, isNumberChar c = false := fun c hc =>
    (not_run_of_isBlank (hends c hc)).1
  have hname : ∀ c ∈ ends, isNameChar c = false := fun c hc =>
    (not_run_of_isBlank (hends c hc)).2
  fun_induction scan p cs with
  | case1 p =>
    induction ends generalizing p with
    | nil => rw [List.append_nil, scan_nil]
    | cons c rest ih =>
      rw [List.nil_append, scan, if_pos (hends c List.mem_cons_self)]
      exact ih (fun c hc => hends c (List.mem_cons_of_mem _ hc))
        (fun c hc => hnumber c (List.mem_cons_of_mem _ hc))
        (fun c hc => hname c (List.mem_cons_of_mem _ hc)) (p + 1)
  | case2 p c rest hblank ih =>
    rw [List.cons_append, scan, if_pos hblank, ih]
  | case3 p c rest hblank hdigit run ih =>
    rw [List.cons_append, scan, if_neg hblank, if_pos hdigit, takeWhile_append_ends hnumber,
      dropWhile_append_ends hnumber]
    exact congrArg _ ih
  | case4 p c rest hblank hdigit hstart run ih =>
    rw [List.cons_append, scan, if_neg hblank, if_neg hdigit, if_pos hstart,
      takeWhile_append_ends hname, dropWhile_append_ends hname]
    exact congrArg _ ih
  | case5 p c rest hblank hdigit hstart ih =>
    rw [List.cons_append, scan, if_neg hblank, if_neg hdigit, if_neg hstart, ih]

/-- A text without the blanks around it has the tokens that it has with them. -/
theorem scan_trim (cs : List Char) (p q : ℕ) :
    (scan p (trim cs)).map lexeme = (scan q cs).map lexeme := by
  obtain ⟨ends, hends, htrim⟩ := exists_trim cs
  rw [← scan_append_blanks hends, ← htrim]
  exact scan_dropWhile_isBlank cs p q

end Token

namespace Expr

variable {α : Type}

theorem bind_eq_ok {ε β γ : Type} {x : Except ε β} {f : β → Except ε γ} {c : γ}
    (h : x >>= f = .ok c) : ∃ b, x = .ok b ∧ f b = .ok c := by
  cases x with
  | error fault => cases h
  | ok b => exact ⟨b, rfl, h⟩

/-- A reading that depends on what tokens say and not on where they stand. -/
def Unplaced (r : Reading α) : Prop :=
  ∀ {ts us : List Token}, ts.map Token.lexeme = us.map Token.lexeme →
    ∀ {e : Expr α} {rest : List Token}, r ts = .ok (e, rest) →
      ∃ left, r us = .ok (e, left) ∧ rest.map Token.lexeme = left.map Token.lexeme

theorem ok_unplaced (e : Expr α) : Unplaced fun ts => .ok (e, ts) := by
  intro ts us hsame f rest h
  cases h
  exact ⟨us, rfl, hsame⟩

theorem Unplaced.bind {r : Reading α} (hr : Unplaced r)
    {next : Expr α × List Token → Except ParseFault (Expr α × List Token)}
    (hnext : ∀ e, Unplaced fun ts => next (e, ts)) : Unplaced fun ts => r ts >>= next := by
  intro ts us hsame e rest h
  dsimp only at h ⊢
  obtain ⟨⟨f, after⟩, hread, h⟩ := bind_eq_ok h
  obtain ⟨left, hleft, hsame'⟩ := hr hsame hread
  rw [hleft]
  exact hnext f hsame' h

theorem chain_unplaced (op? : Lexeme → Option BinaryOp) {operand : Reading α}
    (hoperand : Unplaced operand) (rounds : ℕ) (left : Expr α) :
    Unplaced (chain op? operand rounds left) := by
  induction rounds generalizing left with
  | zero => exact ok_unplaced left
  | succ rounds ih =>
    intro ts us hsame e rest h
    match ts, us, hsame with
    | [], [], _ =>
      cases h
      exact ⟨[], rfl, rfl⟩
    | t :: ts, u :: us, hsame =>
      obtain ⟨hlexeme, hsame'⟩ := List.cons.inj hsame
      rw [chain] at h ⊢
      rw [← hlexeme]
      cases hop : op? t.lexeme with
      | none =>
        rw [hop] at h
        exact ok_unplaced left hsame h
      | some op =>
        rw [hop] at h
        exact hoperand.bind (fun right => ih (.binary op left right)) hsame' h

theorem joined_unplaced (op? : Lexeme → Option BinaryOp) {operand : Reading α}
    (hoperand : Unplaced operand) (rounds : ℕ) : Unplaced (joined op? operand rounds) :=
  hoperand.bind (chain_unplaced op? hoperand rounds)

theorem sum_unplaced {operand : Reading α} (hoperand : Unplaced operand) (rounds : ℕ) :
    Unplaced (sum operand rounds) :=
  joined_unplaced sumOp (joined_unplaced productOp hoperand rounds) rounds

theorem close_unplaced (e : Expr α) : Unplaced fun ts => close (e, ts) := by
  intro ts us hsame f rest h
  match ts, us, hsame with
  | [], [], _ => cases h
  | t :: ts, u :: us, hsame =>
    obtain ⟨hlexeme, hsame'⟩ := List.cons.inj hsame
    dsimp only at h ⊢
    rw [close] at h ⊢
    rw [← hlexeme]
    split_ifs at h ⊢
    cases h
    exact ⟨us, rfl, hsame'⟩

variable [Scalar α]

theorem operand_unplaced (rounds levels : ℕ) :
    Unplaced (operand rounds levels : Reading α) := by
  induction levels using Nat.strong_induction_on with
  | _ levels ih =>
    intro ts us hsame e rest h
    match ts, us, hsame with
    | [], [], _ =>
      rw [operand.eq_def] at h
      cases h
    | t :: ts, u :: us, hsame =>
      obtain ⟨hlexeme, hsame'⟩ := List.cons.inj hsame
      rw [operand.eq_def] at h ⊢
      dsimp only at h ⊢
      rw [← hlexeme]
      split at h
      case h_1 | h_3 | h_4 => exact ok_unplaced _ hsame' h
      case h_2 | h_5 | h_8 => cases h
      case h_6 =>
        cases levels with
        | zero => cases h
        | succ levels =>
          have hoperand : Unplaced (operand (α := α) rounds levels) := ih _ levels.lt_succ_self
          exact hoperand.bind (fun e => ok_unplaced e.negate) hsame' h
      case h_7 =>
        cases levels with
        | zero => cases h
        | succ levels =>
          have hsum : Unplaced (sum (operand (α := α) rounds levels) rounds) :=
            sum_unplaced (ih _ levels.lt_succ_self) rounds
          exact hsum.bind close_unplaced hsame' h

/-- The expression of a list of tokens depends on what they say only. -/
theorem ofTokens_unplaced {ts us : List Token}
    (hsame : ts.map Token.lexeme = us.map Token.lexeme) {e : Expr α}
    (h : ofTokens ts = .ok e) : ofTokens us = .ok e := by
  have hlength : ts.length = us.length := by
    simpa only [List.length_map] using congrArg List.length hsame
  rw [ofTokens] at h ⊢
  rw [← hlength]
  obtain ⟨⟨f, rest⟩, hread, h⟩ := bind_eq_ok h
  obtain ⟨left, hleft, hsame'⟩ := sum_unplaced (operand_unplaced _ _) _ hsame hread
  rw [hleft]
  match rest, left, hsame' with
  | [], [], _ => exact h
  | _ :: _, _ :: _, _ => cases h

/-- Blanks around a text do not matter to the expression it spells. -/
theorem parse_trim {text : String} {e : Expr α} (h : parse text = .ok e) :
    parse (String.ofList (CharClass.trim text.toList)) = .ok e := by
  rw [parse, String.toList_ofList]
  exact ofTokens_unplaced (Token.scan_trim text.toList 0 0).symm h

end Expr

namespace Param

variable {α : Type} [Scalar α]

theorem parse_eq_ok {text : String} {p : Param α} : parse text = .ok p ↔
    Expr.parse text = .ok p.expr ∧ String.ofList (CharClass.trim text.toList) = p.text := by
  obtain ⟨kept, expr⟩ := p
  rw [parse]
  cases Expr.parse (α := α) text with
  | error fault => exact iff_of_false (nomatch ·) (nomatch ·.1)
  | ok e =>
    change Except.ok (⟨_, e⟩ : Param α) = _ ↔ _
    simp [and_comm]

/-- A parameter that was read from text is read from its own text. -/
theorem parse_text {text : String} {p : Param α} (h : parse text = .ok p) :
    parse p.text = .ok p := by
  obtain ⟨hexpr, htext⟩ := parse_eq_ok.mp h
  refine parse_eq_ok.mpr ⟨?_, ?_⟩
  · rw [← htext]
    exact Expr.parse_trim hexpr
  · rw [← htext, String.toList_ofList, CharClass.trim_trim]

end Param

end ShapeGrammar
