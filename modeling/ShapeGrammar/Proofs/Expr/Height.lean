import ShapeGrammar.Proofs.Expr.Notation

/-!
# How deep an expression is

Signs and parentheses are counted while a text is read, but operators of one rank are joined in a
loop, and each of them puts one more expression around what was read before it. So the limit on
nesting bounds the height of an expression as long as chains of left operands count once; the height
itself grows with the number of operators in the text. Main statements: `height_le_of_parse`,
`height_unbounded`.
-/
namespace ShapeGrammar

variable {α : Type}

namespace Expr

/-! ## Two measures of an expression -/

/-- The operators between two operands. -/
def operators : Expr α → ℕ
  | .number _ | .attribute _ | .extent _ => 0
  | .neg operand => operand.operators
  | .binary _ left right => left.operators + right.operators + 1

/-- The height of an expression if the left operand of an operator lies no deeper than the operator
itself, as for a walk that goes on to left operands in a loop. -/
def rightHeight : Expr α → ℕ
  | .number _ | .attribute _ | .extent _ => 1
  | .neg operand => operand.rightHeight + 1
  | .binary _ left right => max left.rightHeight (right.rightHeight + 1)

section Negate

variable [Scalar α] (e : Expr α)

@[simp] theorem operators_negate : e.negate.operators = e.operators := by
  cases e <;> rfl

theorem height_negate_le : e.negate.height ≤ e.height + 1 := by
  cases e <;> simp [negate, height]

theorem rightHeight_negate_le : e.negate.rightHeight ≤ e.rightHeight + 1 := by
  cases e <;> simp [negate, rightHeight]

end Negate

/-! ## What the notation bounds -/

/-- The right height that expressions of a rank can have with `n` signs and parentheses open. -/
def Rank.reach (n : ℕ) : Rank → ℕ
  | .sum => 2 * n + 3
  | .product => 2 * n + 2
  | .signed | .atom => 2 * n + 1

/-- Whether a lexeme can stand between two operands. -/
def isOperator (l : Lexeme) : Bool :=
  (sumOp l).isSome || (productOp l).isSome

section Derivations

variable [Scalar α] {rank : Rank} {n : ℕ} {ls : List Lexeme} {e : Expr α}

/-- Each sign or parenthesis adds one to the height at most, and so does each operator. -/
theorem Derives.height_le (h : Derives rank n ls e) : e.height ≤ n + 1 + e.operators := by
  induction h with
  | product _ ih | signed _ ih | atom _ ih => exact ih
  | sum _ _ _ ihl ihr | multiple _ _ _ ihl ihr =>
    rw [height, operators]
    omega
  | minus _ ih =>
    rw [operators_negate]
    exact (height_negate_le _).trans (by omega)
  | number | «attribute» | extent =>
    rw [height]
    omega
  | group _ ih => omega

/-- The right operand of a sum is a product and that of a product is signed, so to go on to right
operands uses up ranks, and going back to the loosest one takes a parenthesis. -/
theorem Derives.rightHeight_le (h : Derives rank n ls e) : e.rightHeight ≤ rank.reach n := by
  induction h with
  | product _ ih | signed _ ih | atom _ ih =>
    simp only [Rank.reach] at ih ⊢
    omega
  | sum _ _ _ ihl ihr | multiple _ _ _ ihl ihr =>
    simp only [rightHeight, Rank.reach] at ihl ihr ⊢
    omega
  | minus _ ih =>
    simp only [Rank.reach] at ih ⊢
    exact (rightHeight_negate_le _).trans (by omega)
  | number | «attribute» | extent =>
    simp only [rightHeight, Rank.reach]
    omega
  | group _ ih =>
    simp only [Rank.reach] at ih ⊢
    omega

theorem isOperator_of_sumOp {l : Lexeme} {op : BinaryOp} (h : sumOp l = some op) :
    isOperator l = true := by
  rw [isOperator, h]
  rfl

theorem isOperator_of_productOp {l : Lexeme} {op : BinaryOp} (h : productOp l = some op) :
    isOperator l = true := by
  rw [isOperator, h, Option.isSome_some, Bool.or_true]

/-- Each operator of an expression was written. A minus may have been read as a sign. -/
theorem Derives.operators_le (h : Derives rank n ls e) : e.operators ≤ ls.countP isOperator := by
  induction h with
  | product _ ih | signed _ ih | atom _ ih => exact ih
  | sum hop _ _ ihl ihr =>
    rw [operators, List.countP_append, List.countP_cons_of_pos (isOperator_of_sumOp hop)]
    omega
  | multiple hop _ _ ihl ihr =>
    rw [operators, List.countP_append, List.countP_cons_of_pos (isOperator_of_productOp hop)]
    omega
  | minus _ ih =>
    rw [operators_negate, List.countP_cons]
    omega
  | number | «attribute» | extent => exact Nat.zero_le _
  | group _ ih =>
    rw [List.countP_cons, List.countP_append]
    omega

end Derivations

/-! ## Operators in a text -/

/-- The characters that are operators. -/
def isOperatorSign (c : Char) : Bool :=
  isOperator (.symbol c)

theorem countP_told {runs : List (List Char)} {ls : List Lexeme}
    (h : List.Forall₂ Token.Says runs ls) :
    ls.countP isOperator ≤ runs.flatten.countP isOperatorSign := by
  induction h with
  | nil => exact Nat.le_refl _
  | cons htold _ ih =>
    rw [List.countP_cons, List.flatten_cons, List.countP_append]
    cases htold with
    | symbol =>
      rw [List.countP_singleton]
      exact Nat.add_comm _ _ ▸ Nat.add_le_add_left ih _
    | whole | pointed | name | measure => exact Nat.le_add_left_of_le ih

theorem countP_scan {cs : List Char} {position : ℕ}
    (h : ∀ l ∈ (Token.scan position cs).map Token.lexeme, l.isProper = true) :
    ((Token.scan position cs).map Token.lexeme).countP isOperator ≤ cs.countP isOperatorSign := by
  obtain ⟨runs, hruns⟩ := Token.exists_runs cs
  have htold := (hruns.says_iff position _).mpr ⟨rfl, h⟩
  refine (countP_told htold).trans ?_
  rw [hruns.flatten]
  exact List.filter_sublist.countP_le

/-! ## A sum of any length -/

/-- The text of a sum of ones with `n` operators. -/
def ones : ℕ → List Char
  | 0 => ['1']
  | n + 1 => '1' :: '+' :: ones n

def onesLexemes : ℕ → List Lexeme
  | 0 => [.number 1 0]
  | n + 1 => .number 1 0 :: .symbol '+' :: onesLexemes n

/-- The sum of ones, joined from the left. -/
def onesSum [Scalar α] : ℕ → Expr α
  | 0 => .number (Scalar.ofDecimal 1 0)
  | n + 1 => .binary .add (onesSum n) (.number (Scalar.ofDecimal 1 0))

theorem height_onesSum [Scalar α] (n : ℕ) : (onesSum n : Expr α).height = n + 1 := by
  induction n with
  | zero => rfl
  | succ n ih =>
    rw [onesSum, height, ih, height]
    omega

theorem onesLexemes_succ (n : ℕ) :
    onesLexemes (n + 1) = onesLexemes n ++ .symbol '+' :: [.number 1 0] := by
  induction n with
  | zero => rfl
  | succ n ih => exact congrArg (fun ls => .number 1 0 :: .symbol '+' :: ls) ih

theorem derives_ones [Scalar α] (n : ℕ) :
    Derives .sum maxNesting (onesLexemes n) (onesSum n : Expr α) := by
  induction n with
  | zero => exact .product (.signed (.atom .number))
  | succ n ih =>
    rw [onesLexemes_succ]
    exact .sum rfl ih (.signed (.atom .number))

theorem runs_ones (n : ℕ) : ∃ runs, Token.Runs (ones n) runs ∧
    List.Forall₂ Token.Says runs (onesLexemes n) := by
  have hone : Token.Says ['1'] (.number 1 0) :=
    .whole (List.cons_ne_nil _ _) (List.forall_mem_singleton.mpr rfl)
  have hplus : Token.Says ['+'] (.symbol '+') := .symbol rfl rfl
  induction n with
  | zero =>
    have hrun : Token.Runs ('1' :: ([] ++ [])) [['1']] :=
      .run (.number (by decide)) (List.forall_mem_nil _) (by simp) .nil
    exact ⟨_, hrun, .cons hone .nil⟩
  | succ n ih =>
    obtain ⟨runs, hruns, htold⟩ := ih
    have hrest : Token.Runs ('+' :: ([] ++ ones n)) (['+'] :: runs) :=
      .run (.other rfl rfl rfl) (List.forall_mem_nil _) (fun _ _ => rfl) hruns
    have hrun : Token.Runs ('1' :: ([] ++ '+' :: ones n)) (['1'] :: ['+'] :: runs) :=
      .run (.number rfl) (List.forall_mem_nil _) (by rintro _ ⟨⟩; rfl) hrest
    exact ⟨_, hrun, .cons hone (.cons hplus htold)⟩

theorem parse_ones [Scalar α] (n : ℕ) :
    Expr.parse (String.ofList (ones n)) = .ok (onesSum n : Expr α) := by
  obtain ⟨runs, hruns, htold⟩ := runs_ones n
  rw [Expr.parse, String.toList_ofList, ofTokens_iff, ((hruns.says_iff 0 _).mp htold).1]
  exact derives_ones n

end Expr

namespace Param

open ShapeGrammar.Expr

/-- The height of what a text spells is bounded by the limit on nesting and the number of operator
signs in the text. What the limit bounds alone is the height with chains of left operands counted
once. -/
theorem height_le_of_parse [Scalar α] {text : String} {p : Param α}
    (h : Param.parse text = .ok p) :
    p.expr.height ≤ maxNesting + 1 + text.toList.countP isOperatorSign ∧
      p.expr.rightHeight ≤ 2 * maxNesting + 3 := by
  have hderives := ofTokens_iff.mp (parse_eq_ok.mp h).1
  have hheight := hderives.height_le
  have hwritten := hderives.operators_le.trans (countP_scan hderives.isProper)
  exact ⟨by omega, hderives.rightHeight_le⟩

/-- What is left of the pitch of two slopes. -/
def slopes : Param Float32 where
  text := "-(a + b) * c - d"
  expr := .binary .sub
    (.binary .mul (.neg (.binary .add (.attribute "a") (.attribute "b"))) (.attribute "c"))
    (.attribute "d")

/-- Four operator signs in the text, one of which is no operator, and a height of five. -/
theorem height_le_of_parse_slopes :
    Param.parse "-(a + b) * c - d" = .ok slopes ∧ slopes.expr.height = 5 ∧
      slopes.expr.height ≤ 65 + 4 ∧ slopes.expr.rightHeight ≤ 131 := by
  have hparse : Param.parse "-(a + b) * c - d" = .ok slopes := by decide +kernel
  have hsigns : "-(a + b) * c - d".toList.countP isOperatorSign = 4 := by decide
  obtain ⟨hheight, hright⟩ := height_le_of_parse hparse
  rw [hsigns] at hheight
  exact ⟨hparse, rfl, hheight, hright⟩

/-- No number bounds the heights of all that is read, although neither a sign nor a parenthesis may
be needed. -/
theorem height_unbounded :
    ¬∃ bound, ∀ (text : String) (p : Param Float32), Param.parse text = .ok p →
      p.expr.height ≤ bound := by
  rintro ⟨bound, hbound⟩
  have hparse : Param.parse (String.ofList (ones bound)) =
      .ok (⟨_, onesSum bound⟩ : Param Float32) := parse_eq_ok.mpr ⟨parse_ones bound, rfl⟩
  have hle := hbound _ _ hparse
  rw [height_onesSum] at hle
  omega

end Param

end ShapeGrammar
