import ShapeGrammar.Proofs.Distance.Envelope

/-!
# The buffers of an envelope hold a stack of arcs

Buffers with room for a line never lose a step, whatever they held before: what stands in them up to
the last arc is a stack of arcs, and what stands behind that is not looked at. The number of arcs is
at most the number of places taken in, the first arc stays, and a walk along the arcs stops before
the border behind the last one. Main statement: `squaredDistances?_least`.
-/
namespace ShapeGrammar

namespace Envelope

/-- Buffers with room for a line of some length. -/
structure HasRoom {α : Type} (e : Envelope α) (length : ℕ) : Prop where
  sites : length ≤ e.sites.size
  borders : length + 1 ≤ e.borders.size

theorem put?_eq {β : Type} {cells : Array β} {i : ℕ} (h : i < cells.size) (x : β) :
    put? cells i x = some (cells.setIfInBounds i x) := by
  rw [put?, dif_pos h, Array.setIfInBounds_def, dif_pos h]

variable {α : Type}

theorem hasRoom_ofLength [Scalar α] (length : ℕ) :
    (ofLength length : Envelope α).HasRoom length :=
  ⟨by simp [ofLength], by simp [ofLength]⟩

/-- The buffers hold an arc at some index. Where the first one starts does not matter. -/
structure HasArc (e : Envelope α) (heights : Array α) (k : ℕ) (a : Arc α) : Prop where
  site : e.sites[k]? = some a.site
  height : heights[a.site]? = some a.height
  border : e.borders[k]? = some (if k = 0 then .before else .cross a.start)

/-- The buffers hold a stack of arcs, the last one first. -/
def Holds (e : Envelope α) (heights : Array α) (arcs : List (Arc α)) : Prop :=
  ∀ k a, arcs.reverse[k]? = some a → e.HasArc heights k a

/-- They hold nothing but a stack of arcs: nothing starts behind the last one. -/
structure Represents (e : Envelope α) (heights : Array α) (arcs : List (Arc α)) : Prop where
  ne_nil : arcs ≠ []
  holds : e.Holds heights arcs
  behind : e.borders[arcs.length]? = some .behind

variable {e : Envelope α} {heights : Array α} {length : ℕ}

theorem holds_nil : e.Holds heights [] :=
  fun _ _ h => nomatch h

theorem Holds.last {last : Arc α} {rest : List (Arc α)} (h : e.Holds heights (last :: rest)) :
    e.HasArc heights rest.length last :=
  h _ _ (by simp)

theorem Holds.of_suffix {arcs upper : List (Arc α)} (h : e.Holds heights upper)
    (hsuffix : arcs <:+ upper) : e.Holds heights arcs := by
  obtain ⟨front, rfl⟩ := hsuffix
  intro k a ha
  refine h k a ?_
  rw [List.reverse_append, List.getElem?_append_left (List.getElem?_eq_some_iff.mp ha).1, ha]

/-! ## Putting an arc on the stack -/

/-- The buffers with an arc at an index and nothing behind it. -/
def placed (e : Envelope α) (k site : ℕ) (border : Border α) : Envelope α where
  sites := e.sites.setIfInBounds k site
  borders := (e.borders.setIfInBounds k border).setIfInBounds (k + 1) .behind

section Placed

variable {k i site : ℕ} {border : Border α} {a : Arc α}

theorem place?_eq (hroom : e.HasRoom length) (hk : k < length) (site : ℕ) (border : Border α) :
    e.place? k site border = some (e.placed k site border) := by
  have hsites : k < e.sites.size := hk.trans_le hroom.sites
  have hborders : k + 1 < e.borders.size := (Nat.succ_lt_succ hk).trans_le hroom.borders
  simp only [place?, put?_eq hsites, put?_eq (Nat.lt_of_succ_lt hborders), Option.bind_eq_bind,
    Option.bind_some, put?_eq (Array.size_setIfInBounds.symm ▸ hborders)]
  rfl

theorem HasRoom.placed (h : e.HasRoom length) (k site : ℕ) (border : Border α) :
    (e.placed k site border).HasRoom length :=
  ⟨by simpa [Envelope.placed] using h.sites, by simpa [Envelope.placed] using h.borders⟩

/-- An arc that is put on a stack leaves the arcs below it as they are. -/
theorem HasArc.placed (h : e.HasArc heights i a) (hi : i < k) :
    (e.placed k site border).HasArc heights i a := by
  refine ⟨?_, h.height, ?_⟩
  · exact (Array.getElem?_setIfInBounds_ne hi.ne').trans h.site
  · refine (Array.getElem?_setIfInBounds_ne (by omega)).trans ?_
    exact (Array.getElem?_setIfInBounds_ne hi.ne').trans h.border

theorem hasArc_placed (hroom : e.HasRoom length) (hk : k < length)
    (hheight : heights[a.site]? = some a.height) :
    (e.placed k a.site (if k = 0 then .before else .cross a.start)).HasArc heights k a := by
  have hborders : k < e.borders.size := (Nat.lt_succ_of_lt hk).trans_le hroom.borders
  refine ⟨Array.getElem?_setIfInBounds_self_of_lt (hk.trans_le hroom.sites), hheight, ?_⟩
  refine (Array.getElem?_setIfInBounds_ne (Nat.succ_ne_self k)).trans ?_
  exact Array.getElem?_setIfInBounds_self_of_lt hborders

theorem behind_placed (hroom : e.HasRoom length) (hk : k < length) :
    (e.placed k site border).borders[k + 1]? = some .behind := by
  have hborders : k + 1 < e.borders.size := (Nat.succ_lt_succ hk).trans_le hroom.borders
  exact Array.getElem?_setIfInBounds_self_of_lt (by simpa using hborders)

theorem Holds.represents_placed {rest : List (Arc α)} (h : e.Holds heights rest)
    (hroom : e.HasRoom length) (hlt : rest.length < length)
    (hheight : heights[a.site]? = some a.height) :
    (e.placed rest.length a.site
      (if rest.length = 0 then .before else .cross a.start)).Represents heights (a :: rest) := by
  refine ⟨by simp, fun k b hb => ?_, behind_placed hroom hlt⟩
  rw [List.reverse_cons] at hb
  rcases Nat.lt_or_ge k rest.length with hk | hk
  · rw [List.getElem?_append_left (by simpa using hk)] at hb
    exact (h k b hb).placed hk
  · rw [List.getElem?_append_right (by simpa using hk), List.length_reverse,
      List.getElem?_singleton, Option.ite_none_right_eq_some, Option.some.injEq] at hb
    obtain ⟨hzero, rfl⟩ := hb
    obtain rfl : k = rest.length := by omega
    exact hasArc_placed hroom hlt hheight

end Placed

/-! ## Pushing a parabola -/

variable [Scalar α]

/-- From the last arc on down, the arcs that lie above a parabola are found by following the
stack: the parabola is pushed on the others. -/
theorem Holds.exists_follow? {arcs : List (Arc α)} (h : e.Holds heights arcs) (hne : arcs ≠ [])
    {site : ℕ} {height : α} (hheight : heights[site]? = some height) :
    ∃ last rest, last :: rest <:+ arcs ∧
      e.follow? heights site (arcs.length - 1) = some (rest.length, Arc.meet site height last) ∧
      Arc.push site height arcs = ⟨site, height, Arc.meet site height last⟩ :: last :: rest := by
  induction arcs with
  | nil => exact absurd rfl hne
  | cons last rest ih =>
    obtain ⟨hsite, hearlier, hborder⟩ := h.last
    have hcontact : e.contact? heights site rest.length = some (Arc.meet site height last,
        (if rest.length = 0 then .before else .cross last.start : Border α).reaches
          (Arc.meet site height last)) := by
      simp only [contact?, hsite, hborder, hheight, Option.bind_eq_bind, Option.bind_some, hearlier]
      rfl
    cases rest with
    | nil =>
      refine ⟨last, [], List.suffix_rfl, ?_, rfl⟩
      exact (congrArg (Option.bind · _) hcontact).trans rfl
    | cons before rest =>
      have hfollow : e.follow? heights site (rest.length + 1) =
          if Arc.meet site height last ≤ last.start then e.follow? heights site rest.length
          else some (rest.length + 1, Arc.meet site height last) := by
        rw [follow?]
        refine (congrArg (Option.bind · _) hcontact).trans ?_
        simp [Border.reaches]
      by_cases habove : Arc.meet site height last ≤ last.start
      · obtain ⟨top, below, hsuffix, htop, hpush⟩ :=
          ih (h.of_suffix (List.suffix_cons ..)) (by simp)
        refine ⟨top, below, hsuffix.trans (List.suffix_cons ..), ?_, ?_⟩
        · exact hfollow.trans (by rw [if_pos habove]; exact htop)
        · rw [Arc.push, if_pos habove, hpush]
      · refine ⟨last, before :: rest, List.suffix_rfl, ?_, ?_⟩
        · exact hfollow.trans (by rw [if_neg habove]; rfl)
        · rw [Arc.push, if_neg habove]

/-- One more parabola stands on the stack afterwards, and in the buffers. -/
theorem Represents.exists_push? {arcs : List (Arc α)} (h : e.Represents heights arcs)
    (hroom : e.HasRoom length) (hlt : arcs.length < length) {site : ℕ} {height : α}
    (hheight : heights[site]? = some height) :
    ∃ e', e.push? heights site (arcs.length - 1) =
        some (e', (Arc.push site height arcs).length - 1) ∧
      e'.Represents heights (Arc.push site height arcs) ∧ e'.HasRoom length ∧
      (Arc.push site height arcs).length ≤ arcs.length + 1 := by
  obtain ⟨last, rest, hsuffix, hfollow, hpush⟩ := h.holds.exists_follow? h.ne_nil hheight
  have hle : (last :: rest).length ≤ arcs.length := hsuffix.length_le
  have hk : (last :: rest).length < length := hle.trans_lt hlt
  have hrepresents := (h.holds.of_suffix hsuffix).represents_placed
    (a := ⟨site, height, Arc.meet site height last⟩) hroom hk hheight
  rw [hpush]
  refine ⟨_, ?_, hrepresents, hroom.placed .., Nat.succ_le_succ hle⟩
  rw [push?, hfollow]
  exact (congrArg (Option.bind · _) (place?_eq hroom hk ..)).trans rfl

/-- All parabolas of a line are put on the stack, and the buffers keep their room. -/
theorem Represents.exists_pushFrom? {arcs : List (Arc α)} (count site : ℕ)
    (h : e.Represents heights arcs) (hroom : e.HasRoom length) (hsites : arcs.length ≤ site)
    (hcount : site + count = heights.size) (hlength : heights.size ≤ length) :
    ∃ e', pushFrom? heights count site e (arcs.length - 1) = some e' ∧
      e'.Represents heights (Arc.envelopeFrom site arcs (heights.toList.drop site)) ∧
      e'.HasRoom length := by
  induction count generalizing e arcs site with
  | zero =>
    refine ⟨e, rfl, ?_, hroom⟩
    rwa [List.drop_of_length_le (by simp; omega)]
  | succ count ih =>
    have hsite : site < heights.size := by omega
    obtain ⟨next, hpush, hnext, hroom', hle⟩ :=
      h.exists_push? hroom (by omega) (Array.getElem?_eq_getElem hsite)
    obtain ⟨e', hrun, hrepresents, hroom''⟩ := ih (site + 1) hnext hroom' (by omega) (by omega)
    refine ⟨e', ?_, ?_, hroom''⟩
    · rw [pushFrom?, hpush]
      exact hrun
    · rwa [List.drop_eq_getElem_cons (by simpa using hsite), Array.getElem_toList]

/-! ## Walking along the stack -/

/-- A walk passes an arc exactly if there is a next one and that starts before the place. -/
theorem advance_drop (q k : ℕ) (arcs : List (Arc α)) :
    Arc.advance q (arcs.drop k) =
      if arcs[k + 1]?.any fun next => decide (next.start < (q : α)) then
        Arc.advance q (arcs.drop (k + 1))
      else arcs.drop k := by
  rw [← List.getElem?_drop (i := k) (j := 1), ← List.drop_drop]
  rcases arcs.drop k with _ | ⟨first, _ | ⟨next, rest⟩⟩
  · rfl
  · rfl
  · simp [Arc.advance]

/-- Behind every arc stands the border of the next one, or the one that no place is behind. -/
theorem Represents.border_next {arcs : List (Arc α)} (h : e.Represents heights arcs) (q : ℕ) {k : ℕ}
    (hk : k < arcs.length) :
    ∃ border, e.borders[k + 1]? = some border ∧
      border.isPassed q = arcs.reverse[k + 1]?.any fun next => decide (next.start < (q : α)) := by
  rcases Nat.lt_or_ge (k + 1) arcs.length with hnext | hend
  · have hnext' := List.getElem?_eq_getElem (by simpa using hnext : k + 1 < arcs.reverse.length)
    exact ⟨_, (h.holds _ _ hnext').border, by simp [hnext', Border.isPassed]⟩
  · obtain hlast : arcs.length = k + 1 := by omega
    refine ⟨.behind, hlast ▸ h.behind, ?_⟩
    simp [hlast, Border.isPassed]

theorem Represents.exists_reign? {arcs : List (Arc α)} (h : e.Represents heights arcs) (q : ℕ)
    {k : ℕ} (hk : k < arcs.length) :
    ∃ k', e.reign? q k = some k' ∧ k' < arcs.length ∧
      Arc.advance q (arcs.reverse.drop k) = arcs.reverse.drop k' := by
  fun_induction reign? e q k with
  | case1 k hin hpassed ih =>
    obtain ⟨border, hborder, hsame⟩ := h.border_next q hk
    obtain rfl : e.borders[k + 1] = border := (Array.getElem?_eq_some_iff.mp hborder).2
    rw [hpassed] at hsame
    have hlt : k + 1 < arcs.length := by
      by_contra hend
      simp [List.getElem?_eq_none (l := arcs.reverse) (i := k + 1) (by simpa using hend)] at hsame
    obtain ⟨k', hreign, hk', hadvance⟩ := ih hlt
    exact ⟨k', hreign, hk', by rw [advance_drop, if_pos hsame.symm, hadvance]⟩
  | case2 k hin hpassed =>
    obtain ⟨border, hborder, hsame⟩ := h.border_next q hk
    obtain rfl : e.borders[k + 1] = border := (Array.getElem?_eq_some_iff.mp hborder).2
    exact ⟨k, rfl, hk, by rw [advance_drop, ← hsame, if_neg hpassed]⟩
  | case3 k hout =>
    obtain ⟨border, hborder, -⟩ := h.border_next q hk
    exact absurd (Array.getElem?_eq_some_iff.mp hborder).1 hout

theorem Represents.valuesFrom?_eq {arcs : List (Arc α)} (h : e.Represents heights arcs)
    (count q : ℕ) {k : ℕ} (hk : k < arcs.length) (found : Array α) :
    e.valuesFrom? heights count q k found =
      some (found ++ (Arc.values q count (arcs.reverse.drop k)).toArray) := by
  induction count generalizing q k found with
  | zero => simp [valuesFrom?, Arc.values]
  | succ count ih =>
    obtain ⟨k', hreign, hk', hadvance⟩ := h.exists_reign? q hk
    have hlt : k' < arcs.reverse.length := by simpa using hk'
    obtain ⟨hsite, hheight, -⟩ := h.holds _ _ (List.getElem?_eq_getElem hlt)
    simp only [valuesFrom?, hreign, Option.bind_eq_bind, Option.bind_some, hsite, hheight]
    rw [ih (q + 1) hk', Arc.values, hadvance, List.drop_eq_getElem_cons hlt]
    simp [Arc.value]

theorem exists_squaredDistances? (hroom : e.HasRoom length) (hlength : heights.size ≤ length) :
    ∃ e', squaredDistances? heights e =
        some ((Arc.squaredDistances heights.toList).toArray, e') ∧ e'.HasRoom length := by
  rcases Nat.eq_zero_or_pos heights.size with hzero | hpos
  · obtain rfl := Array.eq_empty_of_size_eq_zero hzero
    exact ⟨e, rfl, hroom⟩
  have hfirst : (e.placed 0 0 .before).Represents heights [⟨0, heights[0], 0.0⟩] :=
    holds_nil.represents_placed (a := ⟨0, heights[0], 0.0⟩) hroom (hpos.trans_le hlength)
      (Array.getElem?_eq_getElem hpos)
  obtain ⟨e', hpush, hrepresents, hroom'⟩ :=
    hfirst.exists_pushFrom? (heights.size - 1) 1 (hroom.placed ..) le_rfl (by omega) hlength
  have harcs : Arc.envelopeFrom 1 [⟨0, heights[0], 0.0⟩] (heights.toList.drop 1) =
      Arc.envelopeFrom 0 [] heights.toList := by
    conv_rhs => rw [← List.drop_zero (l := heights.toList), List.drop_eq_getElem_cons (by simpa)]
    rfl
  rw [harcs] at hrepresents
  have hne : 0 < (Arc.envelopeFrom 0 [] heights.toList).length :=
    List.length_pos_iff.mpr hrepresents.ne_nil
  have hvalues := hrepresents.valuesFrom?_eq heights.size 0 hne #[]
  refine ⟨e', ?_, hroom'⟩
  rw [squaredDistances?, if_neg (by simpa using hpos.ne')]
  simp only [place?_eq hroom (hpos.trans_le hlength), Option.bind_eq_bind, Option.bind_some]
  simp only [List.length_singleton, Nat.sub_self] at hpush
  simp only [hpush, Option.bind_some, hvalues]
  simp [Arc.squaredDistances, Arc.envelope]

theorem exists_sweep? (hroom : e.HasRoom length) (lines : List (Array α))
    (hlines : ∀ line ∈ lines, line.size ≤ length) :
    ∃ e', sweep? lines e =
        some (lines.map fun line => (Arc.squaredDistances line.toList).toArray, e') ∧
      e'.HasRoom length := by
  induction lines generalizing e with
  | nil => exact ⟨e, rfl, hroom⟩
  | cons line rest ih =>
    rw [List.forall_mem_cons] at hlines
    obtain ⟨next, hline, hnext⟩ := exists_squaredDistances? hroom hlines.1
    obtain ⟨e', hrest, hroom'⟩ := ih hnext hlines.2
    refine ⟨e', ?_, hroom'⟩
    simp only [sweep?, hline, Option.bind_eq_bind, Option.bind_some, hrest, List.map_cons]
    rfl

/-! ## The result -/

/-- Without rounding, whatever buffers with room for a line held before: taking in the line and
walking along it stays within them and never takes off the first arc, and at every place of the line
the result is the least of the parabolas of its places. The buffers keep their room. -/
theorem squaredDistances?_least (heights : Array ℚ) (e : Envelope ℚ)
    (hroom : e.HasRoom heights.size) :
    ∃ found e', squaredDistances? heights e = some (found, e') ∧ e'.HasRoom heights.size ∧
      found.size = heights.size ∧
      ∀ q < heights.size, ∃ v, found[q]? = some v ∧
        IsLeast {u | ∃ (p : ℕ) (h : ℚ), heights[p]? = some h ∧ u = ((q : ℚ) - p) ^ 2 + h} v := by
  obtain ⟨e', hfound, hroom'⟩ := exists_squaredDistances? hroom le_rfl
  refine ⟨_, e', hfound, hroom', by simp, fun q hq => ?_⟩
  obtain ⟨v, hv, ⟨p, h, hp, hleast⟩, hlower⟩ :=
    Arc.isLeast_squaredDistances (by simpa using hq : q < heights.toList.length)
  simp only [Array.getElem?_toList, Arc.parabola, Exact.real] at hp hleast
  refine ⟨v, by simpa using hv, ⟨p, h, hp, by exact_mod_cast hleast⟩, ?_⟩
  rintro _ ⟨p', h', hp', rfl⟩
  have hle := hlower ⟨p', h', by simpa using hp', rfl⟩
  simp only [Arc.parabola, Exact.real] at hle
  exact_mod_cast hle

/-- Buffers with leftovers of another line. -/
def leftovers : Envelope ℚ :=
  ⟨#[7, 2, 5], #[.behind, .cross (-3), .before, .cross 8]⟩

theorem squaredDistances?_least_leftovers :
    leftovers.HasRoom 3 ∧ ∃ e', squaredDistances? #[4, 0, 9] leftovers = some (#[1, 0, 1], e') := by
  have hroom : leftovers.HasRoom 3 := ⟨by decide, by decide⟩
  obtain ⟨found, e', hfound, -⟩ := squaredDistances?_least #[4, 0, 9] leftovers hroom
  have hvalues : (squaredDistances? #[4, 0, 9] leftovers).map Prod.fst = some #[1, 0, 1] := by
    decide +kernel
  rw [hfound, Option.map_some, Option.some.injEq] at hvalues
  exact ⟨hroom, e', hvalues ▸ hfound⟩

end Envelope

end ShapeGrammar
