import ShapeGrammar.Proofs.Expr.Lexical

/-!
# Which texts are expressions

The notation of expressions is a grammar on what the runs of a text say. Sums and products are
derived from the left, so their operators associate to the left; signs and parentheses count how
many of them are open. Reading finds every derivation and nothing else, and it finds one tree, so
there is no other. Main statement: `Param.parse_iff_derives`.
-/
namespace ShapeGrammar

variable {α : Type}

namespace Expr

/-! ## The grammar -/

/-- The ranks of the notation, from the loosest to the tightest. -/
inductive Rank where
  | sum
  | product
  | signed
  | atom

/-- What some lexemes spell at a rank, with `n` signs and parentheses open at once at most. A minus
before a number is part of the number. -/
inductive Derives [Scalar α] : Rank → ℕ → List Lexeme → Expr α → Prop where
  | product {n : ℕ} {ls : List Lexeme} {e : Expr α} : Derives .product n ls e → Derives .sum n ls e
  | sum {n : ℕ} {l : Lexeme} {op : BinaryOp} {ls ks : List Lexeme} {left right : Expr α} :
    sumOp l = some op → Derives .sum n ls left → Derives .product n ks right →
    Derives .sum n (ls ++ l :: ks) (.binary op left right)
  | signed {n : ℕ} {ls : List Lexeme} {e : Expr α} : Derives .signed n ls e →
    Derives .product n ls e
  | multiple {n : ℕ} {l : Lexeme} {op : BinaryOp} {ls ks : List Lexeme} {left right : Expr α} :
    productOp l = some op → Derives .product n ls left → Derives .signed n ks right →
    Derives .product n (ls ++ l :: ks) (.binary op left right)
  | atom {n : ℕ} {ls : List Lexeme} {e : Expr α} : Derives .atom n ls e → Derives .signed n ls e
  | minus {n : ℕ} {ls : List Lexeme} {e : Expr α} : Derives .signed n ls e →
    Derives .signed (n + 1) (.symbol '-' :: ls) e.negate
  | number {n digits places : ℕ} :
    Derives .atom n [.number digits places] (.number (Scalar.ofDecimal digits places))
  | attribute {n : ℕ} {name : String} : Derives .atom n [.attribute name] (.attribute name)
  | extent {n : ℕ} {axis : Axis} : Derives .atom n [.extent axis] (.extent axis)
  | group {n : ℕ} {ls : List Lexeme} {e : Expr α} : Derives .sum n ls e →
    Derives .atom (n + 1) (.symbol '(' :: (ls ++ [.symbol ')'])) e

/-! ## What is read is derived -/

/-- What a reading reads from the front of some tokens is derived from what they say. -/
def Sound (r : Reading α) (D : List Lexeme → Expr α → Prop) : Prop :=
  ∀ ⦃ts rest : List Token⦄ ⦃e : Expr α⦄, r ts = .ok (e, rest) →
    ∃ us, ts = us ++ rest ∧ D (us.map Token.lexeme) e

theorem ok_sound {D : List Lexeme → Expr α → Prop} {ls : List Lexeme} {e : Expr α} (h : D ls e) :
    Sound (fun ts => .ok (e, ts)) fun ks f => D (ls ++ ks) f := by
  intro ts rest f hread
  cases hread
  exact ⟨[], rfl, by simpa using h⟩

/-- What is read one after the other is derived from both parts. -/
theorem Sound.bind {r : Reading α} {D E : List Lexeme → Expr α → Prop} (hr : Sound r D)
    {next : Expr α × List Token → Except ParseFault (Expr α × List Token)}
    (hnext : ∀ {ls e}, D ls e → Sound (fun ts => next (e, ts)) fun ks f => E (ls ++ ks) f) :
    Sound (fun ts => r ts >>= next) E := by
  intro ts rest f h
  obtain ⟨⟨e, left⟩, hread, hrest⟩ := bind_eq_ok h
  obtain ⟨us, rfl, hus⟩ := hr hread
  obtain ⟨vs, rfl, hvs⟩ := hnext hus hrest
  exact ⟨us ++ vs, by simp, by simpa using hvs⟩

theorem close_sound {D : List Lexeme → Expr α → Prop} {e : Expr α} (h : D [.symbol ')'] e) :
    Sound (fun ts => close (e, ts)) D := by
  intro ts rest f hread
  cases ts with
  | nil => cases hread
  | cons t ts =>
    dsimp only at hread
    rw [close] at hread
    split_ifs at hread with hclose
    cases hread
    exact ⟨[t], rfl, by rwa [List.map_singleton, hclose]⟩

section Ranks

variable {op? : Lexeme → Option BinaryOp} {operand : Reading α}
  {Low High : List Lexeme → Expr α → Prop}
  (hoperand : Sound operand Low)
  (hjoin : ∀ {l op ls ks left right}, op? l = some op → High ls left → Low ks right →
    High (ls ++ l :: ks) (.binary op left right))
include hoperand hjoin

theorem chain_sound {rounds : ℕ} {left : Expr α} {ls : List Lexeme} (hleft : High ls left) :
    Sound (chain op? operand rounds left) fun ks e => High (ls ++ ks) e := by
  induction rounds generalizing left ls with
  | zero => exact ok_sound hleft
  | succ rounds ih =>
    intro ts rest e h
    cases ts with
    | nil => exact ok_sound hleft h
    | cons t ts =>
      rw [chain] at h
      cases hop : op? t.lexeme with
      | none =>
        rw [hop] at h
        exact ok_sound hleft h
      | some op =>
        rw [hop] at h
        have hnext {ks right} (hright : Low ks right) :
            Sound (chain op? operand rounds (.binary op left right)) fun js =>
              High (ls ++ t.lexeme :: (ks ++ js)) := by
          simpa using ih (hjoin hop hleft hright)
        obtain ⟨us, rfl, hus⟩ :=
          hoperand.bind (E := fun js => High (ls ++ t.lexeme :: js)) hnext h
        exact ⟨t :: us, rfl, hus⟩

theorem joined_sound (hfirst : ∀ {ls e}, Low ls e → High ls e) (rounds : ℕ) :
    Sound (joined op? operand rounds) High :=
  hoperand.bind fun hleft => chain_sound hoperand hjoin (hfirst hleft)

end Ranks

section Soundness

variable [Scalar α]

/-- What an operand is read from is derived at its rank, and a sum of operands at the loosest. -/
theorem sum_sound {operand : Reading α} {n : ℕ} (hoperand : Sound operand (Derives .signed n))
    (rounds : ℕ) : Sound (sum operand rounds) (Derives .sum n) :=
  joined_sound (joined_sound hoperand .multiple .signed rounds) .sum .product rounds

theorem operand_sound (rounds levels : ℕ) :
    Sound (operand (α := α) rounds levels) (Derives .signed levels) := by
  induction levels using Nat.strong_induction_on with
  | _ levels ih =>
    intro ts rest e h
    cases ts with
    | nil =>
      rw [operand.eq_def] at h
      cases h
    | cons t ts =>
      obtain ⟨l, first, position⟩ := t
      rw [operand.eq_def] at h
      dsimp only at h
      split at h
      case h_1 digits places =>
        cases h
        exact ⟨[⟨.number digits places, first, position⟩], rfl, .atom .number⟩
      case h_2 | h_5 | h_8 => cases h
      case h_3 name =>
        cases h
        exact ⟨[⟨.attribute name, first, position⟩], rfl, .atom .attribute⟩
      case h_4 axis =>
        cases h
        exact ⟨[⟨.extent axis, first, position⟩], rfl, .atom .extent⟩
      case h_6 =>
        cases levels with
        | zero => cases h
        | succ levels =>
          have hsigned : Sound (operand (α := α) rounds levels) (Derives .signed levels) :=
            ih levels levels.lt_succ_self
          obtain ⟨us, rfl, hus⟩ :=
            hsigned.bind (E := fun ls => Derives .signed (levels + 1) (.symbol '-' :: ls))
              (fun hls => ok_sound (Derives.minus hls)) h
          exact ⟨⟨.symbol '-', first, position⟩ :: us, rfl, hus⟩
      case h_7 =>
        cases levels with
        | zero => cases h
        | succ levels =>
          have hsum : Sound (sum (operand (α := α) rounds levels) rounds) (Derives .sum levels) :=
            sum_sound (ih levels levels.lt_succ_self) rounds
          obtain ⟨us, rfl, hus⟩ :=
            hsum.bind (E := fun ls => Derives .signed (levels + 1) (.symbol '(' :: ls))
              (fun hls => close_sound (.atom (.group hls))) h
          exact ⟨⟨.symbol '(', first, position⟩ :: us, rfl, hus⟩

end Soundness

/-! ## What is derived is read -/

/-- That no operator of a rank comes next. -/
def NotNext (op? : Lexeme → Option BinaryOp) (rest : List Token) : Prop :=
  ∀ t ∈ rest.head?, op? t.lexeme = none

/-- What some lexemes spell is read from the front of tokens that say so, if what follows allows. -/
def Reads (r : Reading α) (follows : List Token → Prop) (ls : List Lexeme) (e : Expr α) : Prop :=
  ∀ ts rest, ts.map Token.lexeme = ls → follows rest → r (ts ++ rest) = .ok (e, rest)

/-- Some lexemes are read as the first operands that are joined, of which there are `k` and one. -/
def Begins (op? : Lexeme → Option BinaryOp) (operand : Reading α) (follows : List Token → Prop)
    (k : ℕ) (ls : List Lexeme) (e : Expr α) : Prop :=
  ∀ rounds ts rest, ts.map Token.lexeme = ls → follows rest →
    joined op? operand (k + rounds) (ts ++ rest) = chain op? operand rounds e rest

theorem notNext_nil (op? : Lexeme → Option BinaryOp) : NotNext op? [] :=
  fun _ h => nomatch h

theorem notNext_cons {op? : Lexeme → Option BinaryOp} {t : Token} (rest : List Token)
    (h : op? t.lexeme = none) : NotNext op? (t :: rest) := by
  intro u hu
  rwa [← Option.some.inj hu]

theorem chain_of_notNext {op? : Lexeme → Option BinaryOp} (operand : Reading α) (rounds : ℕ)
    (e : Expr α) {rest : List Token} (h : NotNext op? rest) :
    chain op? operand rounds e rest = .ok (e, rest) := by
  cases rounds with
  | zero => rfl
  | succ rounds =>
    cases rest with
    | nil => rfl
    | cons t rest => rw [chain, h t rfl]

section Joining

variable {op? : Lexeme → Option BinaryOp} {operand : Reading α} {follows : List Token → Prop}
  {ls ks : List Lexeme} {left right : Expr α}

theorem Reads.begins (h : Reads operand follows ls left) :
    Begins op? operand follows 0 ls left := by
  intro rounds ts rest hts hrest
  rw [joined, h ts rest hts hrest, Nat.zero_add]
  rfl

/-- One more operand is joined in one more round. -/
theorem Begins.next {k : ℕ} {l : Lexeme} {op : BinaryOp}
    (hleft : Begins op? operand follows k ls left)
    (hop : op? l = some op) (hright : Reads operand follows ks right)
    (hfollows : ∀ t rest, t.lexeme = l → follows (t :: rest)) :
    Begins op? operand follows (k + 1) (ls ++ l :: ks) (.binary op left right) := by
  intro rounds ts rest hts hrest
  obtain ⟨us, vs, rfl, hus, hvs⟩ := List.map_eq_append_iff.mp hts
  obtain ⟨t, ws, rfl, ht, hws⟩ := List.map_eq_cons_iff.mp hvs
  rw [Nat.add_assoc, Nat.add_comm 1, List.append_assoc, List.cons_append,
    hleft (rounds + 1) us _ hus (hfollows t _ ht), chain, ht, hop]
  dsimp only
  rw [hright ws rest hws hrest]
  rfl

theorem Begins.reads {k rounds : ℕ} (h : Begins op? operand follows k ls left) (hk : k ≤ rounds) :
    Reads (joined op? operand rounds) (fun rest => follows rest ∧ NotNext op? rest) ls left := by
  intro ts rest hts hrest
  obtain ⟨more, rfl⟩ := Nat.exists_eq_add_of_le hk
  rw [h more ts rest hts hrest.1, chain_of_notNext _ _ _ hrest.2]

end Joining

section Completeness

variable [Scalar α] {n rounds : ℕ} {ls : List Lexeme} {e : Expr α}

/-- How what is derived at a rank is read: an operand as it is, a product or a sum as the first
operands of the chain that it begins. -/
def Found (rounds n : ℕ) (ls : List Lexeme) (e : Expr α) : Rank → Prop
  | .sum => ∃ k ≤ ls.length, Begins sumOp (joined productOp (operand rounds n) rounds)
    (NotNext productOp) k ls e
  | .product => ∃ k ≤ ls.length, Begins productOp (operand rounds n) (fun _ => True) k ls e
  | .signed | .atom => Reads (operand rounds n) (fun _ => True) ls e

theorem productOp_of_sumOp {l : Lexeme} {op : BinaryOp} (h : sumOp l = some op) :
    productOp l = none := by
  unfold sumOp at h
  split at h <;> first | rfl | cases h

theorem Found.reads_product (h : Found rounds n ls e .product) (hrounds : ls.length ≤ rounds) :
    Reads (joined productOp (operand rounds n) rounds) (NotNext productOp) ls e := by
  obtain ⟨k, hk, hbegins⟩ := h
  intro ts rest hts hrest
  exact hbegins.reads (hk.trans hrounds) ts rest hts ⟨trivial, hrest⟩

theorem Found.reads_sum (h : Found rounds n ls e .sum) (hrounds : ls.length ≤ rounds) :
    Reads (sum (operand rounds n) rounds)
      (fun rest => NotNext productOp rest ∧ NotNext sumOp rest) ls e := by
  obtain ⟨k, hk, hbegins⟩ := h
  exact hbegins.reads (hk.trans hrounds)

theorem reads_single {l : Lexeme}
    (h : ∀ first position rest, operand rounds n (⟨l, first, position⟩ :: rest) = .ok (e, rest)) :
    Reads (operand rounds n) (fun _ => True) [l] e := by
  intro ts rest hts _
  obtain ⟨t, us, rfl, rfl, hus⟩ := List.map_eq_cons_iff.mp hts
  rw [List.map_eq_nil_iff.mp hus]
  exact h t.first t.position rest

theorem Reads.minus (h : Reads (operand rounds n) (fun _ => True) ls e) :
    Reads (operand rounds (n + 1)) (fun _ => True) (.symbol '-' :: ls) e.negate := by
  intro ts rest hts _
  obtain ⟨⟨l, first, position⟩, us, rfl, ht, hus⟩ := List.map_eq_cons_iff.mp hts
  cases ht
  rw [List.cons_append, operand.eq_def]
  dsimp only
  rw [h us rest hus trivial]
  rfl

/-- The closing parenthesis is no operator, so the sum before it is read to its end. -/
theorem Reads.group (h : Reads (sum (operand rounds n) rounds)
    (fun rest => NotNext productOp rest ∧ NotNext sumOp rest) ls e) :
    Reads (operand rounds (n + 1)) (fun _ => True) (.symbol '(' :: (ls ++ [.symbol ')'])) e := by
  intro ts rest hts _
  obtain ⟨⟨l, first, position⟩, us, rfl, ht, hus⟩ := List.map_eq_cons_iff.mp hts
  obtain ⟨vs, ws, rfl, hvs, hws⟩ := List.map_eq_append_iff.mp hus
  obtain ⟨last, xs, rfl, hlast, hxs⟩ := List.map_eq_cons_iff.mp hws
  obtain rfl := List.map_eq_nil_iff.mp hxs
  cases ht
  have hread : sum (operand rounds n) rounds (vs ++ last :: rest) = .ok (e, last :: rest) :=
    h vs (last :: rest) hvs
      ⟨notNext_cons rest (by rw [hlast]; rfl), notNext_cons rest (by rw [hlast]; rfl)⟩
  rw [List.cons_append, List.append_assoc, operand.eq_def]
  dsimp only [List.cons_append, List.nil_append]
  rw [hread]
  change close (e, last :: rest) = _
  rw [close, if_pos hlast]

/-- Every derivation is found, in as many rounds as there are lexemes. -/
theorem Derives.found {rank : Rank} (h : Derives rank n ls e) :
    ls.length ≤ rounds → Found rounds n ls e rank := by
  induction h with
  | product _ ih =>
    intro hrounds
    exact ⟨0, Nat.zero_le _, ((ih hrounds).reads_product hrounds).begins⟩
  | sum hop _ _ ihl ihr =>
    intro hrounds
    rw [List.length_append, List.length_cons] at hrounds
    obtain ⟨k, hk, hbegins⟩ := ihl (by omega)
    refine ⟨k + 1, by rw [List.length_append, List.length_cons]; omega, ?_⟩
    refine hbegins.next hop ((ihr (by omega)).reads_product (by omega)) fun t rest ht => ?_
    exact notNext_cons rest (ht ▸ productOp_of_sumOp hop)
  | signed _ ih =>
    intro hrounds
    have hreads : Reads _ _ _ _ := ih hrounds
    exact ⟨0, Nat.zero_le _, hreads.begins⟩
  | multiple hop _ _ ihl ihr =>
    intro hrounds
    rw [List.length_append, List.length_cons] at hrounds
    obtain ⟨k, hk, hbegins⟩ := ihl (by omega)
    refine ⟨k + 1, by rw [List.length_append, List.length_cons]; omega, ?_⟩
    have hreads : Reads _ _ _ _ := ihr (by omega)
    exact hbegins.next hop hreads fun _ _ _ => trivial
  | atom _ ih => exact ih
  | minus _ ih =>
    intro hrounds
    rw [List.length_cons] at hrounds
    have hreads : Reads _ _ _ _ := ih (by omega)
    exact hreads.minus
  | number => exact fun _ => reads_single fun _ _ _ => by rw [operand.eq_def]
  | «attribute» => exact fun _ => reads_single fun _ _ _ => by rw [operand.eq_def]
  | extent => exact fun _ => reads_single fun _ _ _ => by rw [operand.eq_def]
  | group _ ih =>
    intro hrounds
    rw [List.length_cons, List.length_append, List.length_singleton] at hrounds
    exact ((ih (by omega)).reads_sum (by omega)).group

/-- A list of tokens spells what is derived from it as a sum, and nothing else. -/
theorem ofTokens_iff {ts : List Token} :
    ofTokens ts = .ok e ↔ Derives .sum maxNesting (ts.map Token.lexeme) e := by
  rw [ofTokens]
  constructor
  · intro h
    obtain ⟨⟨f, rest⟩, hread, h⟩ := bind_eq_ok h
    cases rest with
    | cons => cases h
    | nil =>
      cases h
      obtain ⟨us, hus, hderives⟩ := sum_sound (operand_sound _ _) _ hread
      rw [List.append_nil] at hus
      rwa [hus]
  · intro h
    have hrounds : (ts.map Token.lexeme).length ≤ ts.length := (List.length_map _).le
    have hreads := (h.found hrounds).reads_sum hrounds ts [] rfl ⟨notNext_nil _, notNext_nil _⟩
    rw [List.append_nil] at hreads
    rw [hreads]
    rfl

/-- No lexemes spell two expressions. -/
theorem Derives.unique {f : Expr α} (h : Derives .sum n ls e) (h' : Derives .sum n ls f) :
    e = f := by
  have hlexemes : (ls.map fun l => (⟨l, ' ', 0⟩ : Token)).map Token.lexeme = ls := by
    rw [List.map_map]
    exact List.map_id ls
  have hend : NotNext productOp [] ∧ NotNext sumOp [] := ⟨notNext_nil _, notNext_nil _⟩
  have hread := (h.found ls.length.le_refl).reads_sum ls.length.le_refl _ [] hlexemes hend
  have hread' := (h'.found ls.length.le_refl).reads_sum ls.length.le_refl _ [] hlexemes hend
  rw [hread, Except.ok.injEq, Prod.mk.injEq] at hread'
  exact hread'.1

theorem isProper_of_op {l : Lexeme} {op : BinaryOp}
    (h : sumOp l = some op ∨ productOp l = some op) : l.isProper = true := by
  cases l with
  | badNumber | badName => rcases h with h | h <;> cases h
  | number | «attribute» | extent | symbol => rfl

/-- What is derived contains no run that says nothing. -/
theorem Derives.isProper {rank : Rank} (h : Derives rank n ls e) :
    ∀ l ∈ ls, l.isProper = true := by
  induction h with
  | product _ ih | signed _ ih | atom _ ih => exact ih
  | sum hop _ _ ihl ihr =>
    exact List.forall_mem_append.mpr
      ⟨ihl, List.forall_mem_cons.mpr ⟨isProper_of_op (.inl hop), ihr⟩⟩
  | multiple hop _ _ ihl ihr =>
    exact List.forall_mem_append.mpr
      ⟨ihl, List.forall_mem_cons.mpr ⟨isProper_of_op (.inr hop), ihr⟩⟩
  | minus _ ih => exact List.forall_mem_cons.mpr ⟨rfl, ih⟩
  | number | «attribute» | extent => exact List.forall_mem_singleton.mpr rfl
  | group _ ih =>
    exact List.forall_mem_cons.mpr
      ⟨rfl, List.forall_mem_append.mpr ⟨ih, List.forall_mem_singleton.mpr rfl⟩⟩

end Completeness

end Expr

namespace Param

open Token ShapeGrammar.Expr

variable [Scalar α]

/-- A text is a parameter exactly if what its runs say is derived from the notation of expressions,
with no more than 64 signs and parentheses open at once. A text falls into runs in one way only,
which leaves out nothing but blanks; what the runs say is one list of lexemes, and no list of
lexemes spells two expressions. -/
theorem parse_iff_derives (text : String) :
    ∃ runs, Runs text.toList runs ∧ (∀ other, Runs text.toList other → other = runs) ∧
      runs.flatten = text.toList.filter (fun c => !CharClass.isBlank c) ∧
      (∀ p : Param α, Param.parse text = .ok p ↔
        p.text = String.ofList (CharClass.trim text.toList) ∧
        ∃ lexemes, List.Forall₂ Says runs lexemes ∧ Derives .sum 64 lexemes p.expr) ∧
      ∀ n lexemes lexemes' (e e' : Expr α),
        List.Forall₂ Says runs lexemes → List.Forall₂ Says runs lexemes' →
        Derives .sum n lexemes e → Derives .sum n lexemes' e' → lexemes = lexemes' ∧ e = e' := by
  obtain ⟨runs, hruns, hunique⟩ := exists_unique_runs text.toList
  refine ⟨runs, hruns, hunique, hruns.flatten, fun p => ?_, ?_⟩
  · rw [parse_eq_ok, Expr.parse, ofTokens_iff, and_comm, eq_comm]
    refine and_congr_right fun _ => ⟨fun hderives => ?_, ?_⟩
    · exact ⟨_, (hruns.says_iff 0 _).mpr ⟨rfl, hderives.isProper⟩, hderives⟩
    · rintro ⟨lexemes, htold, hderives⟩
      rw [((hruns.says_iff 0 lexemes).mp htold).1]
      exact hderives
  · intro n lexemes lexemes' e e' htold htold' hderives hderives'
    have hsame : lexemes = lexemes' :=
      ((hruns.says_iff 0 _).mp htold).1.symm.trans ((hruns.says_iff 0 _).mp htold').1
    rw [← hsame] at hderives'
    exact ⟨hsame, hderives.unique hderives'⟩

end Param

end ShapeGrammar
