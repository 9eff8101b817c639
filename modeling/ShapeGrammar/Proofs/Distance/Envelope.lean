import Mathlib.Order.Bounds.Basic
import Mathlib.Tactic.Linarith
import Mathlib.Tactic.Ring
import ShapeGrammar.Distance.Envelope
import ShapeGrammar.Proofs.Number.Exact

/-!
# The envelope is the least of all parabolas

What the buffers of an envelope hold is here a list of arcs. A stack of arcs is tight if at every
place the arc that reigns there is the least of the stack. Parabolas of one shape cross once, so
pushing the next one keeps a stack tight, and what reigns afterwards is the lesser of what reigned
before and the new one. The walk from left to right meets the arc that reigns at each place. Main
statement: `isLeast_squaredDistances`.
-/
namespace ShapeGrammar

/-- A parabola of the envelope, and where it starts to be the least one. The first one of an
envelope is the least from the beginning, wherever it says it starts. -/
structure Arc (α : Type) where
  site : ℕ
  height : α
  start : α

namespace Arc

section Lists

variable {α : Type} [Scalar α]

/-- The value of a parabola at a place. -/
def value (a : Arc α) (q : ℕ) : α :=
  Envelope.valueAt a.site a.height q

/-- Where the parabola of a later site meets an earlier one. -/
def meet (site : ℕ) (height : α) (earlier : Arc α) : α :=
  Envelope.meet site height earlier.site earlier.height

/-- Puts the parabola of the next site on an envelope, its last arc first. Arcs that it lies below
of all along are dropped; the first arc stays. -/
def push (site : ℕ) (height : α) : List (Arc α) → List (Arc α)
  | [] => [⟨site, height, 0.0⟩]
  | [first] => [⟨site, height, meet site height first⟩, first]
  | last :: before :: rest =>
    let start := meet site height last
    if start ≤ last.start then push site height (before :: rest)
    else ⟨site, height, start⟩ :: last :: before :: rest

/-- The envelope of the parabolas of consecutive sites from `site` on, over those before them. -/
def envelopeFrom (site : ℕ) (arcs : List (Arc α)) : List α → List (Arc α)
  | [] => arcs
  | height :: rest => envelopeFrom (site + 1) (push site height arcs) rest

/-- The envelope of the parabolas of all sites, its first arc first. -/
def envelope (heights : List α) : List (Arc α) :=
  (envelopeFrom 0 [] heights).reverse

/-- The arcs from the one on that is least at a place. -/
def advance (q : ℕ) : List (Arc α) → List (Arc α)
  | first :: next :: rest =>
    if next.start < (q : α) then advance q (next :: rest) else first :: next :: rest
  | arcs => arcs

/-- The values of an envelope at `count` places from `q` on. -/
def values (q : ℕ) : ℕ → List (Arc α) → List α
  | 0, _ => []
  | count + 1, arcs =>
    let arcs := advance q arcs
    let value := match arcs with
      | [] => 0.0
      | a :: _ => a.value q
    value :: values (q + 1) count arcs

@[simp] theorem length_values (q count : ℕ) (arcs : List (Arc α)) :
    (values q count arcs).length = count := by
  induction count generalizing q arcs with
  | zero => rfl
  | succ count ih => simp [values, ih]

/-- At every place of a line, the least of the parabolas of all its places. -/
def squaredDistances (heights : List α) : List α :=
  values 0 heights.length (envelope heights)

@[simp] theorem length_squaredDistances (heights : List α) :
    (squaredDistances heights).length = heights.length :=
  length_values ..

end Lists

open Exact

variable {α : Type} [Scalar α] [Exact α]

/-- The value at a place of the parabola of a site. -/
noncomputable def parabola (site : ℕ) (height : α) (q : ℕ) : ℝ :=
  ((q : ℝ) - site) ^ 2 + real height

theorem real_value (a : Arc α) (q : ℕ) : real (a.value q) = parabola a.site a.height q := by
  simp only [value, Envelope.valueAt, parabola, real_add, real_mul, real_sub, real_natCast]
  ring

/-- Parabolas of two sites differ by the distance from where they meet, times twice the distance of
the sites. -/
theorem parabola_sub {site : ℕ} {earlier : Arc α} (h : earlier.site < site) (height : α) (q : ℕ) :
    ∃ slope : ℝ, 0 < slope ∧
      parabola earlier.site earlier.height q - parabola site height q =
        (q - real (meet site height earlier)) * slope := by
  have hpos : (0 : ℝ) < 2 * ((site : ℝ) - earlier.site) := by
    have : (earlier.site : ℝ) < site := Nat.cast_lt.mpr h
    linarith
  refine ⟨2 * ((site : ℝ) - earlier.site), hpos, ?_⟩
  have hmeet : real (meet site height earlier) * (2 * ((site : ℝ) - earlier.site)) =
      (real height + site * site) - (real earlier.height + earlier.site * earlier.site) := by
    simp only [meet, Envelope.meet, real_div, real_sub, real_add, real_mul, real_natCast]
    rw [show (site : ℝ) + site - (earlier.site + earlier.site) =
      2 * ((site : ℝ) - earlier.site) by ring]
    exact div_mul_cancel₀ _ hpos.ne'
  rw [sub_mul, hmeet]
  simp only [parabola]
  ring

/-- From where it meets the parabola of an earlier site on, a parabola is the lower one. -/
theorem parabola_le_of_meet_le {site : ℕ} {height : α} {earlier : Arc α} {q : ℕ}
    (h : earlier.site < site) (hq : real (meet site height earlier) ≤ q) :
    parabola site height q ≤ parabola earlier.site earlier.height q := by
  obtain ⟨slope, hslope, hsub⟩ := parabola_sub h height q
  rw [← sub_nonneg, hsub]
  exact mul_nonneg (sub_nonneg.mpr hq) hslope.le

/-- Up to there it is the upper one. -/
theorem parabola_le_of_le_meet {site : ℕ} {height : α} {earlier : Arc α} {q : ℕ}
    (h : earlier.site < site) (hq : (q : ℝ) ≤ real (meet site height earlier)) :
    parabola earlier.site earlier.height q ≤ parabola site height q := by
  obtain ⟨slope, hslope, hsub⟩ := parabola_sub h height q
  rw [← sub_nonpos, hsub]
  exact mul_nonpos_of_nonpos_of_nonneg (sub_nonpos.mpr hq) hslope.le

/-! ## Stacks of arcs, the last one first -/

/-- The value at a place of the arc that reigns there: the last one that starts before it. -/
noncomputable def reigning (q : ℕ) : List (Arc α) → ℝ
  | [] => 0
  | [first] => parabola first.site first.height q
  | last :: before :: rest =>
    if last.start < (q : α) then parabola last.site last.height q
    else reigning q (before :: rest)

/-- At every place the arc that reigns is the least one, in the stack and in all that lies below
its top. -/
def Tight : List (Arc α) → Prop
  | last :: before :: rest => Tight (before :: rest) ∧
    ∀ q, reigning q (last :: before :: rest) =
      min (parabola last.site last.height q) (reigning q (before :: rest))
  | _ => True

theorem reigning_of_lt {last before : Arc α} {rest : List (Arc α)} {q : ℕ}
    (h : real last.start < q) :
    reigning q (last :: before :: rest) = parabola last.site last.height q := by
  rw [reigning, if_pos]
  rwa [real_lt, real_natCast]

theorem reigning_of_le {last before : Arc α} {rest : List (Arc α)} {q : ℕ}
    (h : (q : ℝ) ≤ real last.start) :
    reigning q (last :: before :: rest) = reigning q (before :: rest) := by
  rw [reigning, if_neg]
  rwa [real_lt, real_natCast, not_lt]

theorem Tight.reigning_le {last : Arc α} {rest : List (Arc α)} (h : Tight (last :: rest))
    (q : ℕ) : reigning q (last :: rest) ≤ parabola last.site last.height q := by
  cases rest with
  | nil => exact le_refl _
  | cons before rest =>
    rw [h.2 q]
    exact min_le_left _ _

/-- An arc that starts where its parabola meets the one on top lies below it from there on. -/
theorem Tight.cons {site : ℕ} {last : Arc α} {rest : List (Arc α)}
    (h : Tight (last :: rest)) (hsite : last.site < site) (height : α)
    (hlast : ∀ q : ℕ, real (meet site height last) < q →
      reigning q (last :: rest) = parabola last.site last.height q) :
    Tight (⟨site, height, meet site height last⟩ :: last :: rest) := by
  refine ⟨h, fun q => ?_⟩
  rcases lt_or_ge (real (meet site height last)) (q : ℝ) with hlt | hge
  · rw [reigning_of_lt hlt, hlast q hlt, min_eq_left]
    exact parabola_le_of_meet_le hsite hlt.le
  · rw [reigning_of_le hge, min_eq_right]
    exact (h.reigning_le q).trans (parabola_le_of_le_meet hsite hge)

/-- Pushing the parabola of a later site keeps a stack tight, and at every place the lesser of it
and of what reigned there reigns. -/
theorem tight_push {site : ℕ} {arcs : List (Arc α)} (hne : arcs ≠ [])
    (hsites : ∀ a ∈ arcs, a.site < site) (h : Tight arcs) (height : α) :
    Tight (push site height arcs) ∧
      ∀ q, reigning q (push site height arcs) = min (parabola site height q) (reigning q arcs) := by
  induction arcs with
  | nil => exact absurd rfl hne
  | cons last rest ih =>
    have hsite : last.site < site := hsites last List.mem_cons_self
    cases rest with
    | nil =>
      have hcons := h.cons hsite height fun _ _ => rfl
      exact ⟨hcons, hcons.2⟩
    | cons before rest =>
      rw [push]
      split
      next hbelow =>
        rw [real_le] at hbelow
        obtain ⟨htight, hreigning⟩ := ih (by simp)
          (fun a ha => hsites a (List.mem_cons_of_mem last ha)) h.1
        refine ⟨htight, fun q => ?_⟩
        rw [hreigning, h.2, ← min_assoc]
        -- the arc on top is nowhere the only least one: where it reigned the new one lies below it
        rcases lt_or_ge (real last.start) (q : ℝ) with hlt | hge
        · rw [min_eq_left (parabola_le_of_meet_le hsite (hbelow.trans hlt.le))]
        · have hle := h.reigning_le q
          rw [reigning_of_le hge] at hle
          rw [min_assoc, min_eq_right hle]
      next hover =>
        rw [real_le, not_le] at hover
        have hcons := h.cons hsite height fun q hq =>
          reigning_of_lt (hover.trans hq)
        exact ⟨hcons, hcons.2⟩

/-- In a stack every arc starts behind the one below it; where the first one starts does not
matter. -/
def Rising : List (Arc α) → Prop
  | last :: before :: rest => Rising (before :: rest) ∧ (rest = [] ∨ before.start < last.start)
  | _ => True

theorem rising_push (site : ℕ) (height : α) {arcs : List (Arc α)} (h : Rising arcs) :
    Rising (push site height arcs) := by
  induction arcs with
  | nil => trivial
  | cons last rest ih =>
    cases rest with
    | nil => exact ⟨trivial, .inl rfl⟩
    | cons before rest =>
      rw [push]
      split
      · exact ih h.1
      next hover => exact ⟨h, .inr ((real_lt _ _).mpr (not_le.mp (mt (real_le _ _).mpr hover)))⟩

omit [Exact α] in
theorem push_ne_nil (site : ℕ) (height : α) (arcs : List (Arc α)) : push site height arcs ≠ [] := by
  fun_induction push site height arcs <;> simp_all

omit [Exact α] in
theorem mem_push {site : ℕ} {height : α} {arcs : List (Arc α)} {a : Arc α}
    (ha : a ∈ push site height arcs) : a.site = site ∨ a ∈ arcs := by
  induction arcs with
  | nil =>
    rw [push, List.mem_singleton] at ha
    exact .inl (congrArg Arc.site ha)
  | cons last rest ih =>
    cases rest with
    | nil =>
      rw [push, List.mem_cons] at ha
      exact ha.imp_left (congrArg Arc.site)
    | cons before rest =>
      rw [push] at ha
      split at ha
      · exact (ih ha).imp_right (List.mem_cons_of_mem last)
      · rw [List.mem_cons] at ha
        exact ha.imp_left (congrArg Arc.site)

/-! ## The envelope -/

/-- The values at a place of the parabolas of all sites. -/
def valuesAt (heights : List α) (q : ℕ) : Set ℝ :=
  {v | ∃ p height, heights[p]? = some height ∧ v = parabola p height q}

theorem valuesAt_concat (heights : List α) (height : α) (q : ℕ) :
    valuesAt (heights ++ [height]) q =
      insert (parabola heights.length height q) (valuesAt heights q) := by
  ext v
  simp only [valuesAt, Set.mem_ofPred_eq, Set.mem_insert_iff]
  constructor
  · rintro ⟨p, h, hp, rfl⟩
    rcases Nat.lt_trichotomy p heights.length with hlt | rfl | hgt
    · rw [List.getElem?_append_left hlt] at hp
      exact .inr ⟨p, h, hp, rfl⟩
    · rw [List.getElem?_concat_length, Option.some.injEq] at hp
      exact .inl (hp ▸ rfl)
    · have hlength := (List.getElem?_eq_some_iff.mp hp).1
      rw [List.length_append, List.length_singleton] at hlength
      omega
  · rintro (rfl | ⟨p, h, hp, rfl⟩)
    · exact ⟨heights.length, height, List.getElem?_concat_length, rfl⟩
    · refine ⟨p, h, ?_, rfl⟩
      rw [List.getElem?_append_left (List.getElem?_eq_some_iff.mp hp).1, hp]

/-- A stack is the envelope of the parabolas of some sites. -/
structure Envelops (heights : List α) (arcs : List (Arc α)) : Prop where
  ne_nil : arcs ≠ []
  sites : ∀ a ∈ arcs, a.site < heights.length
  rising : Rising arcs
  tight : Tight arcs
  least : ∀ q, IsLeast (valuesAt heights q) (reigning q arcs)

namespace Envelops

theorem first (height : α) : Envelops [height] (push 0 height []) where
  ne_nil := by simp [Arc.push]
  sites := by simp [Arc.push]
  rising := trivial
  tight := trivial
  least := by
    intro q
    have hone : valuesAt [height] q = {parabola 0 height q} := by
      have hnone : valuesAt ([] : List α) q = ∅ := by simp [valuesAt]
      rw [← List.nil_append [height], valuesAt_concat, hnone]
      simp
    rw [hone]
    exact isLeast_singleton

theorem push {heights : List α} {arcs : List (Arc α)} (h : Envelops heights arcs) (height : α) :
    Envelops (heights ++ [height]) (push heights.length height arcs) := by
  obtain ⟨htight, hreigning⟩ := tight_push h.ne_nil h.sites h.tight height
  refine ⟨push_ne_nil _ _ _, fun a ha => ?_, rising_push _ height h.rising, htight, fun q => ?_⟩
  · rw [List.length_append, List.length_singleton]
    rcases mem_push ha with heq | hold
    · omega
    · have := h.sites a hold
      omega
  · rw [valuesAt_concat, hreigning]
    exact (h.least q).insert _

theorem envelopeFrom {heights : List α} {arcs : List (Arc α)} (h : Envelops heights arcs)
    (rest : List α) : Envelops (heights ++ rest) (envelopeFrom heights.length arcs rest) := by
  induction rest generalizing heights arcs with
  | nil => simpa [Arc.envelopeFrom] using h
  | cons height rest ih =>
    have hnext := ih (h.push height)
    rwa [List.append_assoc, List.singleton_append, List.length_append, List.length_singleton]
      at hnext

end Envelops

/-! ## The walk along the envelope -/

theorem advance_advance {q q' : ℕ} (h : q ≤ q') (arcs : List (Arc α)) :
    advance q' (advance q arcs) = advance q' arcs := by
  induction arcs with
  | nil => rfl
  | cons first rest ih =>
    cases rest with
    | nil => rfl
    | cons next rest =>
      by_cases hpassed : next.start < (q : α)
      · have hpassed' : next.start < (q' : α) := by
          rw [real_lt, real_natCast] at hpassed ⊢
          exact hpassed.trans_le (Nat.cast_le.mpr h)
        rw [advance, if_pos hpassed, ih, advance, if_pos hpassed']
      · rw [advance, if_neg hpassed]

/-- The value at a place is that of the arc that a walk from the beginning meets there. -/
theorem getElem?_values {q count i : ℕ} (arcs : List (Arc α)) (hi : i < count) {a : Arc α}
    {onward : List (Arc α)} (h : advance (q + i) arcs = a :: onward) :
    (values q count arcs)[i]? = some (a.value (q + i)) := by
  induction count generalizing q i arcs with
  | zero => omega
  | succ count ih =>
    cases i with
    | zero =>
      rw [Nat.add_zero] at h ⊢
      simp [values, h]
    | succ i =>
      have hshift : q + (i + 1) = q + 1 + i := by omega
      rw [hshift] at h ⊢
      rw [values, List.getElem?_cons_succ]
      refine ih _ (by omega) ?_
      rwa [advance_advance (by omega)]

omit [Exact α] in
/-- A walk passes an arc at the end if it is the next one and starts before the place. -/
theorem advance_concat {q : ℕ} {arcs : List (Arc α)} (hne : arcs ≠ []) (last : Arc α) :
    advance q (arcs ++ [last]) =
      if (advance q arcs).length = 1 ∧ last.start < (q : α) then [last]
      else advance q arcs ++ [last] := by
  induction arcs with
  | nil => exact absurd rfl hne
  | cons first rest ih =>
    cases rest with
    | nil =>
      by_cases hpassed : last.start < (q : α) <;> simp [advance, hpassed]
    | cons next rest =>
      by_cases hpassed : next.start < (q : α)
      · have hrest := ih (by simp)
        simp only [List.cons_append, advance, if_pos hpassed] at hrest ⊢
        exact hrest
      · simp [advance, hpassed]

omit [Exact α] in
/-- The walk to a place behind the start of the last arc ends there. -/
theorem advance_reverse_of_lt {q : ℕ} {last : Arc α} {rest : List (Arc α)}
    (h : Rising (last :: rest)) (hlast : rest = [] ∨ last.start < (q : α)) :
    advance q (last :: rest).reverse = [last] := by
  induction rest generalizing last with
  | nil => rfl
  | cons before rest ih =>
    have hlt : last.start < (q : α) := hlast.resolve_left (by simp)
    have hbefore : advance q (before :: rest).reverse = [before] :=
      ih h.1 (h.2.imp_right fun hstart => Scalar.lt_trans hstart hlt)
    rw [List.reverse_cons, advance_concat (by simp), hbefore, if_pos ⟨rfl, hlt⟩]

/-- The walk to a place ends at the arc that reigns there. -/
theorem exists_advance_reverse {arcs : List (Arc α)} (hne : arcs ≠ []) (h : Rising arcs) (q : ℕ) :
    ∃ a onward, advance q arcs.reverse = a :: onward ∧
      parabola a.site a.height q = reigning q arcs := by
  induction arcs with
  | nil => exact absurd rfl hne
  | cons last rest ih =>
    cases rest with
    | nil => exact ⟨last, [], rfl, rfl⟩
    | cons before rest =>
      by_cases hlt : last.start < (q : α)
      · refine ⟨last, [], advance_reverse_of_lt h (.inr hlt), ?_⟩
        rw [reigning, if_pos hlt]
      · obtain ⟨a, onward, hadvance, hreigns⟩ := ih (by simp) h.1
        refine ⟨a, onward ++ [last], ?_, ?_⟩
        · rw [List.reverse_cons, advance_concat (by simp), if_neg fun hboth => hlt hboth.2,
            hadvance, List.cons_append]
        · rw [reigning, if_neg hlt, hreigns]

/-- At every place of a line the result is the least value that the parabolas of its places have
there. -/
theorem isLeast_squaredDistances {heights : List α} {q : ℕ} (hq : q < heights.length) :
    ∃ v, (squaredDistances heights)[q]? = some v ∧ IsLeast (valuesAt heights q) (real v) := by
  cases heights with
  | nil => simp at hq
  | cons height rest =>
    have henvelops : Envelops (height :: rest) (envelopeFrom 0 [] (height :: rest)) :=
      (Envelops.first height).envelopeFrom rest
    obtain ⟨a, onward, hadvance, hreigns⟩ :=
      exists_advance_reverse henvelops.ne_nil henvelops.rising q
    refine ⟨a.value q, ?_, ?_⟩
    · have hvalue := getElem?_values _ hq (by rwa [Nat.zero_add])
      rwa [Nat.zero_add] at hvalue
    · rw [real_value, hreigns]
      exact henvelops.least q

end Arc

end ShapeGrammar
