import ShapeGrammar.Proofs.Expr.Literal

/-!
# Runs of characters

How a text falls into runs is said without going through it from the left: blanks separate, a run
goes on as long as its first character allows, and each run that is a number, a name, a measure of
the scope or a single other character says one thing. There is exactly one way to take a text apart,
nothing but blanks is left over, and the tokens are what the runs say. Main statements:
`exists_unique_runs`, `Runs.says_iff`.
-/
namespace ShapeGrammar

/-- The name of a measure of the scope. -/
def Axis.measure : Axis → String
  | .x => "scope.sx"
  | .y => "scope.sy"
  | .z => "scope.sz"

/-- Whether a token may stand in an expression. -/
def Lexeme.isProper : Lexeme → Bool
  | .badNumber _ | .badName _ => false
  | .number .. | .attribute _ | .extent _ | .symbol _ => true

namespace Token

open CharClass

/-- Which characters a run goes on with after its first one: digits and points after a digit or a
point, characters of names after a letter or an underline, none after any other that is no blank. -/
inductive Opens (c : Char) : (Char → Bool) → Prop where
  | number : isNumberChar c = true → Opens c isNumberChar
  | name : isNameStart c = true → Opens c isNameChar
  | other : isBlank c = false → isNumberChar c = false → isNameStart c = false →
    Opens c fun _ => false

/-- The runs of a text, each as long as it can be. -/
inductive Runs : List Char → List (List Char) → Prop where
  | nil : Runs [] []
  | blank {c : Char} {cs : List Char} {runs : List (List Char)} : isBlank c = true → Runs cs runs →
    Runs (c :: cs) runs
  | run {c : Char} {inside : Char → Bool} {tail rest : List Char} {runs : List (List Char)} :
    Opens c inside → (∀ d ∈ tail, inside d = true) → (∀ d ∈ rest.head?, inside d = false) →
    Runs rest runs → Runs (c :: (tail ++ rest)) ((c :: tail) :: runs)

/-- What a run says. Digits with at most one point among them are a number, a name without points is
an attribute, and of names with points only three say something. -/
inductive Says : List Char → Lexeme → Prop where
  | whole {digits : List Char} : digits ≠ [] → (∀ c ∈ digits, c.isDigit = true) →
    Says digits (.number (Nat.ofDigitChars 10 digits 0) 0)
  | pointed {whole fraction : List Char} : whole ++ fraction ≠ [] →
    (∀ c ∈ whole ++ fraction, c.isDigit = true) → Says (whole ++ '.' :: fraction)
      (.number (Nat.ofDigitChars 10 (whole ++ fraction) 0) fraction.length)
  | name {c : Char} {tail : List Char} : isNameStart c = true →
    (∀ d ∈ tail, isNameChar d = true) → '.' ∉ c :: tail →
    Says (c :: tail) (.attribute (String.ofList (c :: tail)))
  | measure (axis : Axis) : Says axis.measure.toList (.extent axis)
  | symbol {c : Char} : isNumberChar c = false → isNameStart c = false → Says [c] (.symbol c)

/-! ## Kinds of characters -/

theorem isNameChar_of_isNameStart {c : Char} (h : isNameStart c = true) : isNameChar c = true := by
  simp only [isNameStart, isNameChar, isLetter, isLetterOrNumber, Bool.or_eq_true] at h ⊢
  rcases h with h | h
  · refine .inl (.inl ?_)
    split_ifs at h ⊢
    · rw [Char.isAlphanum, h, Bool.true_or]
    · rw [h, Bool.true_or]
  · exact .inl (.inr h)

/-- The code points of digits and the point. -/
def numberCodes : List ℕ :=
  [46, 48, 49, 50, 51, 52, 53, 54, 55, 56, 57]

theorem isNameStart_numberCodes :
    ∀ code ∈ numberCodes, isNameStart (Char.ofNat code) = false := by
  decide +kernel

theorem toNat_mem_numberCodes {c : Char} (h : isNumberChar c = true) : c.toNat ∈ numberCodes := by
  simp only [isNumberChar, Bool.or_eq_true, beq_iff_eq, Char.isDigit_iff_toNat] at h
  simp only [numberCodes, List.mem_cons, List.not_mem_nil, or_false]
  have hzero : '0'.toNat = 48 := rfl
  have hnine : '9'.toNat = 57 := rfl
  rcases h with h | rfl
  · omega
  · decide

/-- No digit or point begins a name. -/
theorem not_isNameStart_of_isNumberChar {c : Char} (h : isNumberChar c = true) :
    isNameStart c = false := by
  rw [← Char.ofNat_toNat c]
  exact isNameStart_numberCodes _ (toNat_mem_numberCodes h)

variable {c : Char} {inside : Char → Bool}

theorem Opens.not_isBlank (h : Opens c inside) : isBlank c = false := by
  cases h with
  | number h => exact not_blank_of_number h
  | name h => exact not_blank_of_name (isNameChar_of_isNameStart h)
  | other h => exact h

/-- The first character decides how a run goes on. -/
theorem Opens.eq {inside' : Char → Bool} (h : Opens c inside) (h' : Opens c inside') :
    inside = inside' := by
  cases h with
  | number h =>
    cases h' with
    | number => rfl
    | name h' => rw [not_isNameStart_of_isNumberChar h] at h'; cases h'
    | other _ h' => rw [h] at h'; cases h'
  | name h =>
    cases h' with
    | number h' => rw [not_isNameStart_of_isNumberChar h'] at h; cases h
    | name => rfl
    | other _ _ h' => rw [h] at h'; cases h'
  | other _ hnumber hname =>
    cases h' with
    | number h' => rw [hnumber] at h'; cases h'
    | name h' => rw [hname] at h'; cases h'
    | other => rfl

theorem exists_opens (hblank : isBlank c = false) : ∃ inside, Opens c inside := by
  cases hnumber : isNumberChar c with
  | true => exact ⟨_, .number hnumber⟩
  | false =>
    cases hname : isNameStart c with
    | true => exact ⟨_, .name hname⟩
    | false => exact ⟨_, .other hblank hnumber hname⟩

/-! ## Taking a text apart -/

theorem takeWhile_append_run {tail rest : List Char} (htail : ∀ d ∈ tail, inside d = true)
    (hrest : ∀ d ∈ rest.head?, inside d = false) :
    (tail ++ rest).takeWhile inside = tail ∧ (tail ++ rest).dropWhile inside = rest := by
  rw [List.takeWhile_append_of_pos htail, List.dropWhile_append_of_pos htail]
  cases rest with
  | nil => exact ⟨List.append_nil tail, rfl⟩
  | cons d rest =>
    have hstop : ¬inside d = true := by simp [hrest d rfl]
    rw [List.takeWhile_cons_of_neg hstop, List.dropWhile_cons_of_neg hstop]
    exact ⟨List.append_nil tail, rfl⟩

theorem head?_dropWhile (inside : Char → Bool) (cs : List Char) :
    ∀ d ∈ (cs.dropWhile inside).head?, inside d = false := by
  intro d hd
  have hnot := List.head?_dropWhile_not inside cs
  rw [Option.mem_def.mp hd] at hnot
  exact hnot

theorem exists_runs (cs : List Char) : ∃ runs, Runs cs runs := by
  induction hlength : cs.length using Nat.strong_induction_on generalizing cs with
  | _ length ih =>
    cases cs with
    | nil => exact ⟨[], .nil⟩
    | cons c rest =>
      rw [List.length_cons] at hlength
      cases hblank : isBlank c with
      | true =>
        obtain ⟨runs, hruns⟩ := ih rest.length (by omega) rest rfl
        exact ⟨runs, .blank hblank hruns⟩
      | false =>
        obtain ⟨inside, hopens⟩ := exists_opens hblank
        have hle := length_dropWhile_le inside rest
        obtain ⟨runs, hruns⟩ := ih (rest.dropWhile inside).length (by omega) _ rfl
        have htail : ∀ d ∈ rest.takeWhile inside, inside d = true := fun _ =>
          List.mem_takeWhile_imp
        have hrun := Runs.run hopens htail (head?_dropWhile inside rest) hruns
        rw [List.takeWhile_append_dropWhile] at hrun
        exact ⟨_, hrun⟩

theorem Runs.unique {cs : List Char} {runs runs' : List (List Char)} (h : Runs cs runs)
    (h' : Runs cs runs') : runs = runs' := by
  induction h generalizing runs' with
  | nil =>
    cases h'
    rfl
  | blank hblank _ ih =>
    cases h' with
    | blank _ h' => exact ih h'
    | run hopens => rw [hopens.not_isBlank] at hblank; cases hblank
  | @run c inside tail rest runs hopens htail hrest _ ih =>
    generalize hcs : tail ++ rest = cs at h'
    cases h' with
    | blank hblank => rw [hopens.not_isBlank] at hblank; cases hblank
    | @run _ inside' tail' rest' _ hopens' htail' hrest' h' =>
      obtain rfl := hopens.eq hopens'
      obtain ⟨htake, hdrop⟩ := takeWhile_append_run htail hrest
      obtain ⟨htake', hdrop'⟩ := takeWhile_append_run htail' hrest'
      rw [hcs] at htake hdrop
      obtain rfl : tail = tail' := htake.symm.trans htake'
      obtain rfl : rest = rest' := hdrop.symm.trans hdrop'
      rw [ih h']

/-- Nothing but blanks is left between the runs. -/
theorem Runs.flatten {cs : List Char} {runs : List (List Char)} (h : Runs cs runs) :
    runs.flatten = cs.filter fun c => !isBlank c := by
  induction h with
  | nil => rfl
  | blank hblank _ ih => rw [ih, List.filter_cons, hblank]; rfl
  | @run c inside tail rest runs hopens htail _ _ ih =>
    have hall : (c :: tail).filter (fun c => !isBlank c) = c :: tail := by
      refine List.filter_eq_self.mpr fun d hd => ?_
      rw [Bool.not_eq_true']
      rcases List.mem_cons.mp hd with rfl | hd
      · exact hopens.not_isBlank
      · cases hopens with
        | number => exact not_blank_of_number (htail d hd)
        | name => exact not_blank_of_name (htail d hd)
        | other => cases htail d hd
    rw [List.flatten_cons, ih, ← List.cons_append, List.filter_append, hall]

/-- Every text falls into runs in exactly one way. -/
theorem exists_unique_runs (cs : List Char) : ∃! runs, Runs cs runs := by
  obtain ⟨runs, hruns⟩ := exists_runs cs
  exact ⟨runs, hruns, fun _ h => h.unique hruns⟩

/-! ## What runs say -/

theorem ne_point_of_isDigit {cs : List Char} (h : ∀ c ∈ cs, c.isDigit = true) : '.' ∉ cs :=
  fun hpoint => absurd (h '.' hpoint) (by decide)

theorem isDigit_of_isNumberChar (h : isNumberChar c = true) (hpoint : c ≠ '.') :
    c.isDigit = true := by
  rw [isNumberChar, Bool.or_eq_true, beq_iff_eq] at h
  exact h.resolve_right hpoint

theorem ofNumberRun_digits {digits : List Char} (hne : digits ≠ [])
    (hdigits : ∀ c ∈ digits, c.isDigit = true) :
    ofNumberRun digits = .number (Nat.ofDigitChars 10 digits 0) 0 := by
  have hall : ∀ c ∈ digits ++ [], c.isDigit = true := by rwa [List.append_nil]
  have h := ofNumberRun_pointed hne hall
  rwa [pointed, if_pos rfl, List.append_nil, digitsOf_eq] at h

theorem ofNumberRun_point {whole fraction : List Char} (hne : whole ++ fraction ≠ [])
    (hdigits : ∀ c ∈ whole ++ fraction, c.isDigit = true) :
    ofNumberRun (whole ++ '.' :: fraction) =
      .number (Nat.ofDigitChars 10 (whole ++ fraction) 0) fraction.length := by
  have hbefore : ∀ c ∈ whole, decide (c ≠ '.') = true := fun c hc =>
    bne_point_of_isDigit (hdigits c (List.mem_append_left _ hc))
  have hafter : '.' ∉ fraction := ne_point_of_isDigit fun c hc =>
    hdigits c (List.mem_append_right _ hc)
  have hpoint : ('.' :: fraction).takeWhile (· ≠ '.') = [] := rfl
  have hdrop : (('.' :: fraction).dropWhile (· ≠ '.')).drop 1 = fraction := rfl
  rw [ofNumberRun, List.takeWhile_append_of_pos hbefore, List.dropWhile_append_of_pos hbefore,
    hpoint, hdrop, List.append_nil]
  rw [if_neg, digitsOf_eq]
  simp [hne, hafter]

/-- A run of digits and points says a number or nothing. -/
theorem says_ofNumberRun {run : List Char} (hrun : ∀ d ∈ run, isNumberChar d = true)
    (hproper : (ofNumberRun run).isProper = true) : Says run (ofNumberRun run) := by
  have hcut := List.takeWhile_append_dropWhile (p := (· ≠ '.')) (l := run)
  have hwhole : ∀ d ∈ run.takeWhile (· ≠ '.'), d.isDigit = true := by
    intro d hd
    have hpoint := List.mem_takeWhile_imp hd
    rw [decide_eq_true_iff] at hpoint
    exact isDigit_of_isNumberChar (hrun d ((List.takeWhile_prefix _).subset hd)) hpoint
  rw [ofNumberRun] at hproper
  split_ifs at hproper with hbad
  · cases hproper
  · rw [not_or, List.isEmpty_iff, List.contains_iff_mem] at hbad
    obtain ⟨hne, hone⟩ := hbad
    cases hrest : run.dropWhile (· ≠ '.') with
    | nil =>
      rw [hrest, List.append_nil] at hcut
      rw [hrest, List.drop_nil, List.append_nil] at hne
      rw [hcut] at hwhole hne
      rw [ofNumberRun_digits hne hwhole]
      exact .whole hne hwhole
    | cons d fraction =>
      rw [hrest] at hcut hne hone
      rw [List.drop_one, List.tail_cons] at hne hone
      have hd : d = '.' := by
        have hstop := head?_dropWhile (· ≠ '.') run d (by rw [hrest]; rfl)
        exact Classical.not_not.mp (of_decide_eq_false hstop)
      subst hd
      have hdigits : ∀ c ∈ run.takeWhile (· ≠ '.') ++ fraction, c.isDigit = true := by
        intro c hc
        rcases List.mem_append.mp hc with hc | hc
        · exact hwhole c hc
        · have hpoint : c ≠ '.' := fun h => hone (h ▸ hc)
          refine isDigit_of_isNumberChar (hrun c ?_) hpoint
          rw [← hcut]
          exact List.mem_append_right _ (List.mem_cons_of_mem _ hc)
      rw [← hcut, ofNumberRun_point hne hdigits]
      exact .pointed hne hdigits

theorem Says.isProper {run : List Char} {l : Lexeme} (h : Says run l) : l.isProper = true := by
  cases h <;> rfl

theorem ofNumberRun_eq {run : List Char} {l : Lexeme} (hrun : ∀ d ∈ run, isNumberChar d = true)
    (h : Says run l) : ofNumberRun run = l := by
  cases h with
  | whole hne hdigits => exact ofNumberRun_digits hne hdigits
  | pointed hne hdigits => exact ofNumberRun_point hne hdigits
  | name hstart =>
    rw [not_isNameStart_of_isNumberChar (hrun _ List.mem_cons_self)] at hstart
    cases hstart
  | measure axis =>
    have hletter := hrun 's' (by cases axis <;> decide)
    exact absurd hletter (by decide)
  | symbol hnumber =>
    rw [hrun _ List.mem_cons_self] at hnumber
    cases hnumber

/-- A run that starts like a name says an attribute, a measure or nothing. -/
theorem says_ofNameRun {tail : List Char} (hstart : isNameStart c = true)
    (htail : ∀ d ∈ tail, isNameChar d = true)
    (hproper : (ofNameRun (c :: tail)).isProper = true) :
    Says (c :: tail) (ofNameRun (c :: tail)) := by
  have hmeasure (axis : Axis) (h : String.ofList (c :: tail) = axis.measure) :
      Says (c :: tail) (.extent axis) := by
    have hchars := congrArg String.toList h
    rw [String.toList_ofList] at hchars
    rw [hchars]
    exact .measure axis
  rw [ofNameRun] at hproper ⊢
  split_ifs at hproper ⊢ with hx hy hz hpoint
  · exact hmeasure .x hx
  · exact hmeasure .y hy
  · exact hmeasure .z hz
  · cases hproper
  · rw [List.contains_iff_mem] at hpoint
    exact .name hstart htail hpoint

theorem point_mem_measure (axis : Axis) : '.' ∈ axis.measure.toList := by
  cases axis <;> decide

theorem isNumberChar_of_isDigit (h : c.isDigit = true) : isNumberChar c = true := by
  rw [isNumberChar, h, Bool.true_or]

theorem ofNameRun_eq {run : List Char} {l : Lexeme} (hstart : ∀ d ∈ run.head?, isNameStart d = true)
    (h : Says run l) : ofNameRun run = l := by
  have hnumber (d : Char) (hd : run.head? = some d) : isNumberChar d = false := by
    cases hnumber : isNumberChar d with
    | false => rfl
    | true =>
      have hname := hstart d hd
      rw [not_isNameStart_of_isNumberChar hnumber] at hname
      cases hname
  cases h with
  | whole hne hdigits =>
    cases run with
    | nil => exact absurd rfl hne
    | cons d rest =>
      have hdigit := isNumberChar_of_isDigit (hdigits d List.mem_cons_self)
      rw [hnumber d rfl] at hdigit
      cases hdigit
  | @pointed whole fraction _ hdigits =>
    cases whole with
    | nil => exact absurd (hnumber '.' rfl) (by decide)
    | cons d rest =>
      have hdigit := isNumberChar_of_isDigit (hdigits d List.mem_cons_self)
      rw [hnumber d rfl] at hdigit
      cases hdigit
  | @name c tail _ _ hpoint =>
    have hmeasure (axis : Axis) : ¬String.ofList (c :: tail) = axis.measure := by
      intro heq
      have hchars := congrArg String.toList heq
      rw [String.toList_ofList] at hchars
      exact hpoint (hchars ▸ point_mem_measure axis)
    have hx : ¬String.ofList (c :: tail) = "scope.sx" := hmeasure .x
    have hy : ¬String.ofList (c :: tail) = "scope.sy" := hmeasure .y
    have hz : ¬String.ofList (c :: tail) = "scope.sz" := hmeasure .z
    rw [ofNameRun, if_neg hx, if_neg hy, if_neg hz, if_neg]
    rwa [List.contains_iff_mem]
  | measure axis => cases axis <;> decide
  | symbol _ hname =>
    rw [hstart _ rfl] at hname
    cases hname

theorem symbol_eq {l : Lexeme} (hnumber : isNumberChar c = false) (hstart : isNameStart c = false)
    (h : Says [c] l) : .symbol c = l := by
  have hpoint : '.' ∉ [c] := by
    intro hmem
    rw [← List.mem_singleton.mp hmem] at hnumber
    exact absurd hnumber (by decide)
  generalize hrun : [c] = run at h hpoint
  cases h with
  | whole _ hdigits =>
    have hdigit := isNumberChar_of_isDigit (hdigits c (hrun ▸ List.mem_singleton_self c))
    rw [hnumber] at hdigit
    cases hdigit
  | pointed => exact absurd (List.mem_append_right _ List.mem_cons_self) hpoint
  | name hname =>
    cases hrun
    rw [hstart] at hname
    cases hname
  | measure axis => exact absurd (point_mem_measure axis) hpoint
  | symbol =>
    cases hrun
    rfl

/-- Each run is a token, and what it says is what the token says if that is proper. -/
theorem scan_run {tail rest : List Char} (hopens : Opens c inside)
    (htail : ∀ d ∈ tail, inside d = true) (hrest : ∀ d ∈ rest.head?, inside d = false)
    (position : ℕ) : ∃ l, scan position (c :: (tail ++ rest)) =
        ⟨l, c, position⟩ :: scan (position + (c :: tail).length) rest ∧
      ∀ k, Says (c :: tail) k ↔ l = k ∧ k.isProper = true := by
  obtain ⟨htake, hdrop⟩ := takeWhile_append_run htail hrest
  have hblank := hopens.not_isBlank
  cases hopens with
  | number hnumber =>
    have hrun : ∀ d ∈ c :: tail, isNumberChar d = true :=
      List.forall_mem_cons.mpr ⟨hnumber, htail⟩
    refine ⟨ofNumberRun (c :: tail), ?_,
      fun k => ⟨fun h => ⟨ofNumberRun_eq hrun h, h.isProper⟩, ?_⟩⟩
    · rw [scan, if_neg (by simp [hblank]), if_pos hnumber, htake, hdrop]
    · rintro ⟨rfl, hproper⟩
      exact says_ofNumberRun hrun hproper
  | name hstart =>
    have hnumber : ¬isNumberChar c = true := fun h => by
      rw [not_isNameStart_of_isNumberChar h] at hstart
      cases hstart
    have hhead : ∀ d ∈ (c :: tail).head?, isNameStart d = true := by
      intro d hd
      rw [List.head?_cons, Option.mem_some_iff] at hd
      exact hd ▸ hstart
    refine ⟨ofNameRun (c :: tail), ?_, fun k => ⟨fun h => ⟨ofNameRun_eq hhead h, h.isProper⟩, ?_⟩⟩
    · rw [scan, if_neg (by simp [hblank]), if_neg hnumber, if_pos hstart, htake, hdrop]
    · rintro ⟨rfl, hproper⟩
      exact says_ofNameRun hstart htail hproper
  | other _ hnumber hstart =>
    obtain rfl : tail = [] := by
      cases tail with
      | nil => rfl
      | cons d tail => cases htail d List.mem_cons_self
    refine ⟨.symbol c, ?_, fun k => ⟨fun h => ⟨?_, h.isProper⟩, ?_⟩⟩
    · rw [scan, if_neg (by simp [hblank]), if_neg (by simp [hnumber]), if_neg (by simp [hstart])]
      rfl
    · exact symbol_eq hnumber hstart h
    · rintro ⟨rfl, _⟩
      exact .symbol hnumber hstart

/-- What the runs of a text say are its tokens, if all of them are proper. -/
theorem Runs.says_iff {cs : List Char} {runs : List (List Char)} (h : Runs cs runs)
    (position : ℕ) (lexemes : List Lexeme) : List.Forall₂ Says runs lexemes ↔
      (scan position cs).map lexeme = lexemes ∧ ∀ l ∈ lexemes, l.isProper = true := by
  induction h generalizing position lexemes with
  | nil =>
    rw [List.forall₂_nil_left_iff, scan_nil, List.map_nil]
    exact ⟨fun h => ⟨h.symm, fun l hl => by rw [h] at hl; cases hl⟩, fun h => h.1.symm⟩
  | blank hblank _ ih =>
    rw [scan, if_pos hblank]
    exact ih _ _
  | run hopens htail hrest _ ih =>
    obtain ⟨l, hscan, htold⟩ := scan_run hopens htail hrest position
    rw [hscan, List.map_cons, List.forall₂_cons_left_iff]
    constructor
    · rintro ⟨k, rest, hk, hrest, rfl⟩
      obtain ⟨rfl, hproper⟩ := (htold k).mp hk
      obtain ⟨hsame, hall⟩ := (ih _ _).mp hrest
      exact ⟨congrArg _ hsame, List.forall_mem_cons.mpr ⟨hproper, hall⟩⟩
    · rintro ⟨rfl, hall⟩
      obtain ⟨hproper, hall⟩ := List.forall_mem_cons.mp hall
      exact ⟨l, _, (htold l).mpr ⟨rfl, hproper⟩, (ih _ _).mpr ⟨rfl, hall⟩, rfl⟩

end Token

end ShapeGrammar
