import ShapeGrammar.Grammar.ActionSpace
import ShapeGrammar.Proofs.Expr.Notation

/-!
# Parameters that name an attribute

Whether a parameter names an attribute is decided on its expression, and parentheses leave no trace
there. So the texts that name an attribute are its identifier and the identifier in parentheses, as
many pairs of them as may be open at once, with blanks anywhere but within it; every other text is
no choice of its rule. Main statements: `attributeName_iff_enclosed`, `attributeName_parenthesis`.
-/
namespace ShapeGrammar

variable {α : Type}

/-- Something within `n` pairs of an opening and a closing one. -/
def enclose {β : Type} (opening closing x : β) : ℕ → List β
  | 0 => [x]
  | n + 1 => opening :: (enclose opening closing x n ++ [closing])

/-! ## Expressions that are an attribute -/

namespace Expr

variable [Scalar α] {rank : Rank} {n k : ℕ} {ls : List Lexeme} {e : Expr α} {name : String}

theorem negate_ne_attribute (e : Expr α) (name : String) : e.negate ≠ .attribute name := by
  cases e <;> simp [negate]

/-- What an attribute is derived from is its name in parentheses. -/
theorem Derives.eq_enclose (h : Derives rank n ls e) (he : e = .attribute name) :
    ∃ k ≤ n, ls = enclose (.symbol '(') (.symbol ')') (.attribute name) k := by
  induction h with
  | product _ ih | signed _ ih | atom _ ih => exact ih he
  | sum | multiple | number | extent => cases he
  | minus => exact absurd he (negate_ne_attribute _ name)
  | «attribute» =>
    cases he
    exact ⟨0, Nat.zero_le _, rfl⟩
  | group _ ih =>
    obtain ⟨k, hk, rfl⟩ := ih he
    exact ⟨k + 1, Nat.succ_le_succ hk, rfl⟩

theorem derives_enclose (hk : k ≤ n) (name : String) :
    Derives .atom n (enclose (.symbol '(') (.symbol ')') (.attribute name) k)
      (.attribute name : Expr α) := by
  induction k generalizing n with
  | zero => exact .attribute
  | succ k ih =>
    cases n with
    | zero => omega
    | succ n => exact .group (.product (.signed (.atom (ih (Nat.le_of_succ_le_succ hk)))))

end Expr

/-! ## Identifiers -/

open CharClass

/-- A letter or an underline, and letters, digits and underlines after it. -/
def IsIdentifier (cs : List Char) : Prop :=
  ∃ c tail, cs = c :: tail ∧ (isLetter c = true ∨ c = '_') ∧
    ∀ d ∈ tail, isLetterOrNumber d = true ∨ d = '_'

/-- A name in `n` pairs of parentheses, with blanks anywhere but within the name. -/
inductive Enclosed (name : List Char) : ℕ → List Char → Prop where
  | bare {cs : List Char} : trim cs = name → Enclosed name 0 cs
  | parenthesis {n : ℕ} {cs inner : List Char} : trim cs = '(' :: (inner ++ [')']) →
    Enclosed name n inner → Enclosed name (n + 1) cs

namespace Token

theorem says_symbol {run : List Char} {c : Char} (h : Says run (.symbol c)) : run = [c] := by
  cases h
  rfl

theorem not_point_of_isNameStart {c : Char} (h : isNameStart c = true) : c ≠ '.' := by
  rintro rfl
  exact absurd h (by decide)

theorem isNameChar_iff {d : Char} (h : d ≠ '.') :
    isNameChar d = true ↔ isLetterOrNumber d = true ∨ d = '_' := by
  simp [isNameChar, h]

/-- An identifier is a run that starts like a name and has no point. -/
theorem isIdentifier_cons_iff {c : Char} {tail : List Char} : IsIdentifier (c :: tail) ↔
    isNameStart c = true ∧ (∀ d ∈ tail, isNameChar d = true) ∧ '.' ∉ c :: tail := by
  have hstart_iff : isNameStart c = true ↔ isLetter c = true ∨ c = '_' := by
    rw [isNameStart, Bool.or_eq_true, beq_iff_eq]
  constructor
  · rintro ⟨_, _, hcons, hstart, htail⟩
    cases hcons
    have hstart' := hstart_iff.mpr hstart
    have hne : ∀ d ∈ tail, d ≠ '.' := by
      rintro d hd rfl
      exact absurd (htail '.' hd) (by decide)
    refine ⟨hstart', fun d hd => (isNameChar_iff (hne d hd)).mpr (htail d hd), fun h => ?_⟩
    rcases List.mem_cons.mp h with h | h
    · exact not_point_of_isNameStart hstart' h.symm
    · exact hne '.' h rfl
  · rintro ⟨hstart, htail, hpoint⟩
    refine ⟨c, tail, rfl, hstart_iff.mp hstart, fun d hd => ?_⟩
    have hne : d ≠ '.' := fun h => hpoint (h ▸ List.mem_cons_of_mem c hd)
    exact (isNameChar_iff hne).mp (htail d hd)

/-- The runs that say an attribute are the identifiers. -/
theorem says_attribute_iff {run : List Char} {name : String} :
    Says run (.attribute name) ↔ run = name.toList ∧ IsIdentifier run := by
  constructor
  · rintro (_ | _ | ⟨hstart, htail, hpoint⟩)
    exact ⟨String.toList_ofList.symm, isIdentifier_cons_iff.mpr ⟨hstart, htail, hpoint⟩⟩
  · rintro ⟨hname, hrun⟩
    obtain ⟨c, tail, rfl, _⟩ := id hrun
    obtain ⟨hstart, htail, hpoint⟩ := isIdentifier_cons_iff.mp hrun
    have hsays := Says.name hstart htail hpoint
    rw [hname] at hsays ⊢
    rwa [String.ofList_toList] at hsays

theorem forall₂_says_enclose {runs : List (List Char)} {name : String} {n : ℕ} :
    List.Forall₂ Says runs (enclose (.symbol '(') (.symbol ')') (.attribute name) n) ↔
      runs = enclose ['('] [')'] name.toList n ∧ IsIdentifier name.toList := by
  induction n generalizing runs with
  | zero =>
    rw [enclose, List.forall₂_cons_right_iff]
    simp only [List.forall₂_nil_right_iff, says_attribute_iff, enclose]
    constructor
    · rintro ⟨_, _, ⟨rfl, hname⟩, rfl, rfl⟩
      exact ⟨rfl, hname⟩
    · rintro ⟨rfl, hname⟩
      exact ⟨_, _, ⟨rfl, hname⟩, rfl, rfl⟩
  | succ n ih =>
    constructor
    · intro h
      obtain ⟨_, rest, hopening, hrest, rfl⟩ := List.forall₂_cons_right_iff.mp h
      have hinner := ih.mp (List.forall₂_take_append _ _ _ hrest)
      obtain ⟨_, _, hclosing, hnil, hlast⟩ :=
        List.forall₂_cons_right_iff.mp (List.forall₂_drop_append _ _ _ hrest)
      rw [List.forall₂_nil_right_iff] at hnil
      have hsplit := List.take_append_drop
        (enclose (.symbol '(') (.symbol ')') (.attribute name) n : List Lexeme).length rest
      rw [hinner.1, hlast, hnil, says_symbol hclosing] at hsplit
      exact ⟨by rw [says_symbol hopening, ← hsplit, enclose], hinner.2⟩
    · rintro ⟨rfl, hname⟩
      refine .cons (.symbol (by decide) (by decide)) ?_
      refine List.rel_append (ih.mpr ⟨rfl, hname⟩) (.cons ?_ .nil)
      exact .symbol (by decide) (by decide)

/-! ## Runs within a text -/

/-- Characters with which every run before them ends. -/
def Separates (d : Char) : Prop :=
  ∀ c inside, Opens c inside → inside d = false

theorem separates_of_not_run {d : Char} (hnumber : isNumberChar d = false)
    (hname : isNameChar d = false) : Separates d := by
  rintro c inside (_ | _ | _)
  · exact hnumber
  · exact hname
  · rfl

variable {cs ds : List Char} {runs more : List (List Char)}

theorem Runs.append (h : Runs cs runs) (h' : Runs ds more) (hends : ∀ d ∈ ds.head?, Separates d) :
    Runs (cs ++ ds) (runs ++ more) := by
  induction h with
  | nil => exact h'
  | blank hblank _ ih => exact .blank hblank ih
  | @run c inside tail rest runs hopens htail hrest _ ih =>
    rw [List.cons_append, List.append_assoc, List.cons_append]
    refine .run hopens htail (fun d hd => ?_) ih
    cases rest with
    | nil => exact hends d hd c inside hopens
    | cons e rest => exact hrest d hd

theorem Runs.blanks_append {start : List Char} (h : Runs cs runs)
    (hstart : ∀ c ∈ start, isBlank c = true) : Runs (start ++ cs) runs := by
  induction start with
  | nil => exact h
  | cons c start ih =>
    obtain ⟨hblank, hrest⟩ := List.forall_mem_cons.mp hstart
    exact .blank hblank (ih hrest)

theorem Runs.append_blanks {ends : List Char} (h : Runs cs runs)
    (hends : ∀ c ∈ ends, isBlank c = true) : Runs (cs ++ ends) runs := by
  have hnone : Runs ends [] := by
    have hblanks := Runs.nil.blanks_append hends
    rwa [List.append_nil] at hblanks
  have hseparates : ∀ d ∈ ends.head?, Separates d := by
    intro d hd
    have hrun := not_run_of_isBlank (hends d (List.mem_of_mem_head? hd))
    exact separates_of_not_run hrun.1 hrun.2
  have hwhole := h.append hnone hseparates
  rwa [List.append_nil] at hwhole

/-- Runs may be counted off one after the other. -/
theorem Runs.split {front back all : List (List Char)} (h : Runs cs all)
    (hall : all = front ++ back) :
    ∃ before after, cs = before ++ after ∧ Runs before front ∧ Runs after back := by
  induction h generalizing front with
  | nil =>
    obtain ⟨rfl, rfl⟩ := List.append_eq_nil_iff.mp hall.symm
    exact ⟨[], [], rfl, .nil, .nil⟩
  | @blank c _ _ hblank _ ih =>
    obtain ⟨before, after, rfl, hbefore, hafter⟩ := ih hall
    exact ⟨c :: before, after, rfl, .blank hblank hbefore, hafter⟩
  | @run c inside tail rest runs hopens htail hrest hruns ih =>
    cases front with
    | nil =>
      rw [List.nil_append] at hall
      exact ⟨[], _, rfl, .nil, hall ▸ .run hopens htail hrest hruns⟩
    | cons first front =>
      obtain ⟨rfl, hothers⟩ := List.cons.inj hall
      obtain ⟨before, after, rfl, hbefore, hafter⟩ := ih hothers
      refine ⟨c :: (tail ++ before), after, by simp, .run hopens htail (fun d hd => ?_) hbefore,
        hafter⟩
      refine hrest d ?_
      cases before with
      | nil => cases hd
      | cons e before => exact hd

/-- A text with one run is that run with blanks around it. -/
theorem Runs.single {run : List Char} (h : Runs cs [run]) :
    ∃ before after, (∀ c ∈ before, isBlank c = true) ∧ (∀ c ∈ after, isBlank c = true) ∧
      cs = before ++ (run ++ after) := by
  generalize hone : [run] = one at h
  induction h with
  | nil => cases hone
  | @blank c _ _ hblank _ ih =>
    obtain ⟨before, after, hbefore, hafter, rfl⟩ := ih hone
    exact ⟨c :: before, after, List.forall_mem_cons.mpr ⟨hblank, hbefore⟩, hafter, rfl⟩
  | @run c inside tail rest runs _ _ _ hruns _ =>
    obtain ⟨rfl, rfl⟩ := List.cons.inj hone
    refine ⟨[], rest, List.forall_mem_nil _, fun d hd => ?_, rfl⟩
    have hnone := hruns.flatten.symm
    rw [List.flatten_nil, List.filter_eq_nil_iff] at hnone
    simpa using hnone d hd

/-- Blanks around a text are part of no run. -/
theorem runs_trim_iff : Runs (trim cs) runs ↔ Runs cs runs := by
  obtain ⟨ends, hends, htrim⟩ := exists_trim cs
  have hcut : cs = cs.takeWhile isBlank ++ (trim cs ++ ends) := by
    rw [← htrim, List.takeWhile_append_dropWhile]
  have hwhole {all : List (List Char)} (h : Runs (trim cs) all) : Runs cs all := by
    rw [hcut]
    exact (h.append_blanks hends).blanks_append fun _ => List.mem_takeWhile_imp
  refine ⟨hwhole, fun h => ?_⟩
  obtain ⟨others, hothers⟩ := exists_runs (trim cs)
  rwa [h.unique (hwhole hothers)]

end Token

/-! ## Texts that are a name in parentheses -/

namespace IsIdentifier

variable {name : List Char}

theorem not_isBlank (h : IsIdentifier name) : ∀ c ∈ name, isBlank c = false := by
  obtain ⟨first, tail, rfl, _⟩ := id h
  obtain ⟨hstart, htail, _⟩ := Token.isIdentifier_cons_iff.mp h
  have hall : ∀ c ∈ first :: tail, Token.isNameChar c = true :=
    List.forall_mem_cons.mpr ⟨Token.isNameChar_of_isNameStart hstart, htail⟩
  exact fun c hc => not_blank_of_name (hall c hc)

theorem runs (h : IsIdentifier name) : Token.Runs name [name] := by
  obtain ⟨first, tail, rfl, _⟩ := id h
  obtain ⟨hstart, htail, _⟩ := Token.isIdentifier_cons_iff.mp h
  have hrun : Token.Runs (first :: (tail ++ [])) [first :: tail] :=
    .run (.name hstart) htail (fun _ hd => nomatch hd) .nil
  rwa [List.append_nil] at hrun

end IsIdentifier

namespace Enclosed

open Token

variable {name cs : List Char} {n : ℕ}

theorem runs (h : Enclosed name n cs) (hname : IsIdentifier name) :
    Runs cs (enclose ['('] [')'] name n) := by
  induction h with
  | bare htrim =>
    rw [← runs_trim_iff, htrim]
    exact hname.runs
  | parenthesis htrim _ ih =>
    have hopening : Opens '(' fun _ => false := .other (by decide) (by decide) (by decide)
    have hclosing : Opens ')' fun _ => false := .other (by decide) (by decide) (by decide)
    have hclose : Runs (')' :: ([] ++ [])) [[')']] :=
      .run hclosing (List.forall_mem_nil _) (fun _ hd => nomatch hd) .nil
    have hends : ∀ d ∈ [')'].head?, Separates d := by
      rintro _ ⟨⟩
      exact separates_of_not_run (by decide) (by decide)
    have hinner := ih.append hclose hends
    have hwhole : Runs ('(' :: ([] ++ _)) (['('] :: _) :=
      .run hopening (List.forall_mem_nil _) (fun _ _ => rfl) hinner
    rwa [List.nil_append, List.nil_append, ← htrim, runs_trim_iff] at hwhole

theorem of_runs (hname : IsIdentifier name) (h : Runs cs (enclose ['('] [')'] name n)) :
    Enclosed name n cs := by
  induction n generalizing cs with
  | zero =>
    obtain ⟨before, after, hbefore, hafter, rfl⟩ := h.single
    obtain ⟨first, tail, rfl, _⟩ := id hname
    refine .bare (trim_of_blanks (List.cons_ne_nil _ _) hbefore hafter ?_ ?_)
    · exact fun c hc => hname.not_isBlank c (List.mem_of_mem_head? hc)
    · exact fun c hc => hname.not_isBlank c (List.mem_of_mem_getLast? hc)
  | succ n ih =>
    have hparts : enclose ['('] [')'] name (n + 1) =
        [['(']] ++ (enclose ['('] [')'] name n ++ [[')']]) := rfl
    obtain ⟨front, _, rfl, hfront, hrest⟩ := h.split hparts
    obtain ⟨inner, back, rfl, hinner, hback⟩ := hrest.split rfl
    obtain ⟨before, lead, hbefore, hlead, rfl⟩ := hfront.single
    obtain ⟨trail, after, htrail, hafter, rfl⟩ := hback.single
    -- the blanks next to the parentheses belong to the text within them
    have hwithin := ih ((hinner.append_blanks htrail).blanks_append hlead)
    have hlast : ('(' :: (lead ++ (inner ++ trail) ++ [')'])).getLast? = some ')' := by
      rw [← List.cons_append]
      exact List.getLast?_concat
    have htrim := trim_of_blanks (List.cons_ne_nil '(' (lead ++ (inner ++ trail) ++ [')']))
      hbefore hafter (by rintro _ ⟨⟩; decide) (by rw [hlast]; rintro _ ⟨⟩; decide)
    refine .parenthesis ?_ hwithin
    rw [← htrim]
    simp

end Enclosed

namespace Param

open Token ShapeGrammar.Expr

theorem attributeName_eq_some_iff {p : Param α} {name : String} :
    p.attributeName = some name ↔ p.expr = .attribute name := by
  unfold attributeName
  split
  next h => rw [h, Option.some.injEq, Expr.attribute.injEq]
  next h => exact iff_of_false (nomatch ·) (h name)

/-- A parameter without a name of its own is no choice of a rule: the choices are those of the other
parameters. -/
theorem ofShape_of_attributeName_eq_none {p : Param α} (hnone : p.attributeName = none)
    {g : Grammar α} {shape : String} {rule : Rule α} {before after : List (Param α)}
    (hrule : g.rule? shape = some rule) (hparams : rule.params = before ++ p :: after) :
    ActionSpace.ofShape g shape = some
      ⟨ActionSpace.distinct (((before ++ after).filterMap attributeName).filter g.isFree)⟩ := by
  rw [ActionSpace.ofShape, hrule, Option.map_some, Rule.namedAttributes, hparams,
    List.filterMap_append, List.filterMap_cons_none hnone, List.filterMap_append]

/-- The texts that name an attribute are its identifier and the identifier in at most 64 pairs of
parentheses, with blanks anywhere but within it. A parameter with any other text is no choice of the
rule that it stands in, whatever its value: the rule has the choices that it has without it. -/
theorem attributeName_iff_enclosed [Scalar α] {text : String} {p : Param α}
    (h : Param.parse text = .ok p) :
    (∀ name, p.attributeName = some name ↔
      IsIdentifier name.toList ∧ ∃ n ≤ 64, Enclosed name.toList n text.toList) ∧
    ((¬∃ name : String, IsIdentifier name.toList ∧ ∃ n ≤ 64, Enclosed name.toList n text.toList) →
      ∀ (g : Grammar α) (shape : String) (rule : Rule α) (before after : List (Param α)),
        g.rule? shape = some rule → rule.params = before ++ p :: after →
        ActionSpace.ofShape g shape = some
          ⟨ActionSpace.distinct
            (((before ++ after).filterMap attributeName).filter g.isFree)⟩) := by
  obtain ⟨runs, hruns⟩ := exists_runs text.toList
  have hderives := ofTokens_iff.mp (parse_eq_ok.mp h).1
  have hsays := (hruns.says_iff 0 _).mpr ⟨rfl, hderives.isProper⟩
  have hnames (name : String) : p.attributeName = some name ↔
      IsIdentifier name.toList ∧ ∃ n ≤ 64, Enclosed name.toList n text.toList := by
    rw [attributeName_eq_some_iff]
    constructor
    · intro hattribute
      obtain ⟨n, hn, hlexemes⟩ := hderives.eq_enclose hattribute
      rw [hlexemes, forall₂_says_enclose] at hsays
      obtain ⟨rfl, hname⟩ := hsays
      exact ⟨hname, n, hn, .of_runs hname hruns⟩
    · rintro ⟨hname, n, hn, henclosed⟩
      rw [hruns.unique (henclosed.runs hname)] at hsays hruns
      have hlexemes := ((hruns.says_iff 0 _).mp (forall₂_says_enclose.mpr ⟨rfl, hname⟩)).1
      rw [hlexemes] at hderives
      exact hderives.unique (.product (.signed (.atom (derives_enclose hn name))))
  refine ⟨hnames, fun hnone g shape rule before after => ?_⟩
  have hnameless : p.attributeName = none :=
    Option.eq_none_iff_forall_ne_some.mpr fun name hname => hnone ⟨name, (hnames name).mp hname⟩
  exact ofShape_of_attributeName_eq_none hnameless

/-- The height of a ridge as a sum, which has the value of the attribute and is not its name. -/
def raised : Param Float32 where
  text := "ridge_2 + 0"
  expr := .binary .add (.attribute "ridge_2") (.number 0.0)

/-- A roof whose height could be chosen. -/
def roof : Grammar Float32 where
  attributes := ⟨[("ridge_2", .choice "ridge_2" 1.0 10.0)], by decide⟩
  rules := ⟨[("Roof", ⟨"Roof", [.extrude raised]⟩)], by decide⟩

/-- Two pairs of parentheses leave a name; a sum leaves the roof without a choice. -/
theorem attributeName_iff_enclosed_ridge :
    (∃ p : Param Float32, Param.parse " ( (ridge_2))" = .ok p ∧
      IsIdentifier "ridge_2".toList ∧
        ∃ n ≤ 64, Enclosed "ridge_2".toList n " ( (ridge_2))".toList) ∧
    Param.parse "ridge_2 + 0" = .ok raised ∧ ActionSpace.ofShape roof "Roof" = some ⟨[]⟩ := by
  have hname : Param.parse " ( (ridge_2))" =
      .ok (⟨"( (ridge_2))", .attribute "ridge_2"⟩ : Param Float32) := by decide +kernel
  have hsum : Param.parse "ridge_2 + 0" = .ok raised := by decide +kernel
  obtain ⟨hnames, hother⟩ := attributeName_iff_enclosed hsum
  have hnone : ¬∃ name : String, IsIdentifier name.toList ∧
      ∃ n ≤ 64, Enclosed name.toList n "ridge_2 + 0".toList := by
    rintro ⟨name, henclosed⟩
    cases (hnames name).mpr henclosed
  exact ⟨⟨_, hname, ((attributeName_iff_enclosed hname).1 "ridge_2").mp rfl⟩, hsum,
    hother hnone roof "Roof" ⟨"Roof", [.extrude raised]⟩ [] [] rfl rfl⟩

/-- It is not so that nothing but an identifier names an attribute: in parentheses it does too. -/
theorem attributeName_parenthesis :
    ¬∀ (text : String) (p : Param Float32), Param.parse text = .ok p → ∀ name : String,
      p.attributeName = some name ↔
        IsIdentifier name.toList ∧ trim text.toList = name.toList := by
  intro hclaim
  have hparse : Param.parse "(height)" =
      .ok (⟨"(height)", .attribute "height"⟩ : Param Float32) := by decide +kernel
  have htrim := ((hclaim _ _ hparse "height").mp rfl).2
  exact absurd htrim (by decide)

end Param

end ShapeGrammar
