import Mathlib.Data.Real.Basic
import ShapeGrammar.Distance.Score
import ShapeGrammar.Proofs.Distance.Field

/-!
# What the score of a drawing tells

Without rounding, the distances of a field are zero at the edges of its image and positive
everywhere else, whether or not there is an edge at all. A sum of distances at the edges of one
field is then zero exactly if all of them are edges of the other. Main statement: `score_separates`.
-/
namespace ShapeGrammar

namespace DistanceField

/-- The edge pixels of an image. -/
def edgeSet (threshold : UInt8) (image : GrayImage) : Set (ℕ × ℕ) :=
  {p | EdgeAt threshold image p.1 p.2}

/-! ## The cells of a field -/

/-- Distances of the pixels of an image of some size, zero at the pixels of a set and positive at
all others. -/
structure Separates (field : DistanceField ℝ) (width height : ℕ) (edges : Set (ℕ × ℕ)) : Prop where
  size : field.cells.size = width * height
  inside : ∀ p ∈ edges, p.1 < width ∧ p.2 < height
  cell : ∀ x y, x < width → y < height → ∃ d, field.cells[y * width + x]? = some d ∧ 0 ≤ d ∧
    (d = 0 ↔ (x, y) ∈ edges)

section Cells

variable {threshold : UInt8} {image : GrayImage}

theorem separates_ofImage (threshold : UInt8) (image : GrayImage) :
    (ofImage threshold image : DistanceField ℝ).Separates image.width.toNat image.height.toNat
      (edgeSet threshold image) := by
  refine ⟨size_cells threshold image, fun p hp => ⟨hp.1, hp.2.1⟩, fun x y hx hy => ?_⟩
  by_cases hedge : ∃ x y, EdgeAt threshold image x y
  · refine ⟨_, getElem?_cells hedge hx hy, Real.sqrt_nonneg _, ?_⟩
    obtain ⟨⟨x', y', _, heq⟩, _⟩ := squares_isLeast (β := ℝ) hedge hx hy
    have hnonneg : 0 ≤ (cellOf (squares threshold image) y x : ℝ) :=
      (add_nonneg (sq_nonneg _) (sq_nonneg _)).trans_eq heq.symm
    rw [Real.sqrt_eq_zero hnonneg]
    exact squares_eq_zero_iff (β := ℝ) hedge hx hy
  · -- every cell holds the diagonal, which is positive if there is a pixel at all
    have hpos := squaredDiagonal_pos (Nat.zero_lt_of_lt hx) (Nat.zero_lt_of_lt hy)
    have hdiagonal : 0 < √((squaredDiagonal image.width image.height).toNat : ℝ) :=
      Real.sqrt_pos.mpr (Nat.cast_pos.mpr hpos)
    refine ⟨_, ?_, hdiagonal.le, iff_of_false hdiagonal.ne' fun h => hedge ⟨x, y, h⟩⟩
    rw [cells_of_noEdge hedge, Array.getElem?_replicate, if_pos (cell_lt hx hy)]

end Cells

/-! ## The distances at edges -/

/-- The distances that are summed: those beside the zeros of the first field. -/
noncomputable def atEdges (edges distances : DistanceField ℝ) : List ℝ :=
  ((edges.cells.toList.zip distances.cells.toList).filter fun pair => pair.1 == 0).map Prod.snd

theorem distanceAtEdges_eq_sum (edges distances : DistanceField ℝ) :
    (distanceAtEdges edges distances : ℝ) = (atEdges edges distances).sum := by
  have hzero : (0.0 : ℝ) = 0 := by norm_num
  have hfold (pairs : List (ℝ × ℝ)) (sum : ℝ) :
      pairs.foldl (fun sum pair => if pair.1 == (0 : ℝ) then sum + pair.2 else sum) sum =
        sum + ((pairs.filter fun pair => pair.1 == 0).map Prod.snd).sum := by
    induction pairs generalizing sum with
    | nil => simp
    | cons pair rest ih =>
      rw [List.foldl_cons, ih, List.filter_cons]
      cases pair.1 == 0 with
      | true => simp [add_assoc]
      | false => simp
  calc
    (distanceAtEdges edges distances : ℝ) =
        (edges.cells.toList.zip distances.cells.toList).foldl
          (fun sum pair => if pair.1 == (0.0 : ℝ) then sum + pair.2 else sum) 0.0 := by
      rw [← Array.toList_zip, Array.foldl_toList]
      rfl
    _ = (atEdges edges distances).sum := by
      rw [hzero, hfold, zero_add]
      rfl

variable {first second : DistanceField ℝ} {width height : ℕ} {edges others : Set (ℕ × ℕ)}

theorem mem_atEdges (hfirst : first.Separates width height edges) {d : ℝ} :
    d ∈ atEdges first second ↔
      ∃ x y, (x, y) ∈ edges ∧ second.cells[y * width + x]? = some d := by
  simp only [atEdges, List.mem_map, List.mem_filter, beq_iff_eq, Prod.exists]
  simp only [List.mem_iff_getElem?, List.getElem?_zip_eq_some, Array.getElem?_toList]
  constructor
  · rintro ⟨edge, _, ⟨⟨i, hedge, hd⟩, hzero⟩, rfl⟩
    obtain ⟨hi, -⟩ := Array.getElem?_eq_some_iff.mp hedge
    rw [hfirst.size] at hi
    have hwidth : 0 < width := Nat.pos_of_mul_pos_right (Nat.zero_lt_of_lt hi)
    refine ⟨i % width, i / width, ?_, by rwa [Nat.div_add_mod']⟩
    obtain ⟨d', hd', -, hiff⟩ :=
      hfirst.cell (i % width) (i / width) (Nat.mod_lt i hwidth) (Nat.div_lt_of_lt_mul hi)
    rw [Nat.div_add_mod', hedge, Option.some.injEq] at hd'
    exact hiff.mp (hd'.symm.trans hzero)
  · rintro ⟨x, y, hmem, hd⟩
    obtain ⟨hx, hy⟩ := hfirst.inside _ hmem
    obtain ⟨edge, hedge, -, hiff⟩ := hfirst.cell x y hx hy
    exact ⟨edge, d, ⟨⟨_, hedge, hd⟩, hiff.mpr hmem⟩, rfl⟩

theorem nonneg_of_mem_atEdges (hfirst : first.Separates width height edges)
    (hsecond : second.Separates width height others) {d : ℝ} (hd : d ∈ atEdges first second) :
    0 ≤ d := by
  obtain ⟨x, y, hmem, hcell⟩ := (mem_atEdges hfirst).mp hd
  obtain ⟨hx, hy⟩ := hfirst.inside _ hmem
  obtain ⟨d', hcell', hnonneg, -⟩ := hsecond.cell x y hx hy
  rw [hcell, Option.some.injEq] at hcell'
  rwa [hcell']

theorem distanceAtEdges_nonneg (hfirst : first.Separates width height edges)
    (hsecond : second.Separates width height others) :
    0 ≤ (distanceAtEdges first second : ℝ) := by
  rw [distanceAtEdges_eq_sum]
  exact List.sum_nonneg fun d hd => nonneg_of_mem_atEdges hfirst hsecond hd

/-- The sum is zero exactly if every edge of the first image is one of the second. -/
theorem distanceAtEdges_eq_zero_iff (hfirst : first.Separates width height edges)
    (hsecond : second.Separates width height others) :
    (distanceAtEdges first second : ℝ) = 0 ↔ edges ⊆ others := by
  rw [distanceAtEdges_eq_sum]
  constructor
  · rintro hsum ⟨x, y⟩ hmem
    obtain ⟨hx, hy⟩ := hfirst.inside _ hmem
    obtain ⟨d, hcell, -, hiff⟩ := hsecond.cell x y hx hy
    refine hiff.mp ?_
    exact List.all_zero_of_le_zero_le_of_sum_eq_zero
      (fun _ hd => nonneg_of_mem_atEdges hfirst hsecond hd) hsum
      ((mem_atEdges hfirst).mpr ⟨x, y, hmem, hcell⟩)
  · intro hsubset
    refine List.sum_eq_zero fun d hd => ?_
    obtain ⟨x, y, hmem, hcell⟩ := (mem_atEdges hfirst).mp hd
    obtain ⟨hx, hy⟩ := hfirst.inside _ hmem
    obtain ⟨d', hcell', -, hiff⟩ := hsecond.cell x y hx hy
    rw [hcell, Option.some.injEq] at hcell'
    rw [hcell', hiff]
    exact hsubset hmem

theorem normalizer_pos {width height : UInt32} (hwidth : width ≠ 0) (hheight : height ≠ 0) :
    0 < (normalizer width height : ℝ) := by
  have hpos {size : UInt32} (h : size ≠ 0) : 0 < (size.toNat : ℝ) := by
    have hne : size.toNat ≠ 0 := fun hzero => h (UInt32.toNat_inj.mp hzero)
    exact_mod_cast Nat.pos_of_ne_zero hne
  have hcols := hpos hwidth
  have hrows := hpos hheight
  have heq : (normalizer width height : ℝ) =
      height.toNat * width.toNat * (height.toNat + width.toNat) / 2.0 := rfl
  rw [heq]
  positivity

/-! ## The score -/

/-- A part of a score is zero exactly if nothing is summed, unless its weight is zero. -/
theorem weighted_eq_zero_iff {weight sum z : ℝ} (hweight : 0 < weight) (hz : 0 < z) :
    weight * sum / z = 0 ↔ sum = 0 := by
  rw [div_eq_zero_iff, or_iff_left hz.ne', mul_eq_zero, or_iff_right hweight.ne']

/-- Without rounding and with weights that are not negative, two images can be compared exactly if
their sizes agree. Unless that size is zero, the score is not negative, and it is made of two sums:
one is zero exactly if every edge wanted is drawn, the other exactly if every edge drawn is wanted.
A part with a positive weight is zero exactly if its sum is, so with two positive weights the score
is zero exactly if the edges are the same. Exchanging both the images and the weights does not
change it. -/
theorem score_separates (s t : UInt8) (drawn wanted : GrayImage) (metric : Metric ℝ)
    (halpha : 0 ≤ metric.alpha) (hbeta : 0 ≤ metric.beta) :
    let candidate : DistanceField ℝ := ofImage s drawn
    let target : DistanceField ℝ := ofImage t wanted
    let z : ℝ := normalizer wanted.width wanted.height
    let missed : ℝ := distanceAtEdges target candidate
    let excess : ℝ := distanceAtEdges candidate target
    let total := metric.alpha * missed / z + metric.beta * excess / z
    ((∃ e, score metric candidate target = .error e) ↔
      ¬(drawn.width = wanted.width ∧ drawn.height = wanted.height)) ∧
    (drawn.width = wanted.width → drawn.height = wanted.height →
      wanted.width ≠ 0 → wanted.height ≠ 0 →
      score metric candidate target = .ok total ∧ 0 ≤ total ∧
      (missed = 0 ↔ edgeSet t wanted ⊆ edgeSet s drawn) ∧
      (excess = 0 ↔ edgeSet s drawn ⊆ edgeSet t wanted) ∧
      (0 < metric.alpha →
        (metric.alpha * missed / z = 0 ↔ edgeSet t wanted ⊆ edgeSet s drawn)) ∧
      (0 < metric.beta →
        (metric.beta * excess / z = 0 ↔ edgeSet s drawn ⊆ edgeSet t wanted)) ∧
      (0 < metric.alpha → 0 < metric.beta →
        (total = 0 ↔ edgeSet s drawn = edgeSet t wanted)) ∧
      score ⟨metric.beta, metric.alpha, metric.edgeThreshold⟩ target candidate =
        score metric candidate target) := by
  intro candidate target z missed excess total
  have hcandidate : candidate.width = drawn.width ∧ candidate.height = drawn.height :=
    size_ofImage s drawn
  have htarget : target.width = wanted.width ∧ target.height = wanted.height :=
    size_ofImage t wanted
  refine ⟨?_, fun hwidth hheight hwidth₀ hheight₀ => ?_⟩
  · rw [score, hcandidate.1, hcandidate.2, htarget.1, htarget.2]
    split <;> simp_all
  have hsame : candidate.width = target.width ∧ candidate.height = target.height := by
    rw [hcandidate.1, hcandidate.2, htarget.1, htarget.2]
    exact ⟨hwidth, hheight⟩
  have hz : 0 < z := normalizer_pos hwidth₀ hheight₀
  have hdrawn : candidate.Separates wanted.width.toNat wanted.height.toNat (edgeSet s drawn) := by
    rw [← hwidth, ← hheight]
    exact separates_ofImage s drawn
  have hwanted : target.Separates wanted.width.toNat wanted.height.toNat (edgeSet t wanted) :=
    separates_ofImage t wanted
  have hscore : score metric candidate target = .ok total := by
    rw [score, if_pos hsame, htarget.1, htarget.2]
  have hmissed : 0 ≤ metric.alpha * missed / z :=
    div_nonneg (mul_nonneg halpha (distanceAtEdges_nonneg hwanted hdrawn)) hz.le
  have hexcess : 0 ≤ metric.beta * excess / z :=
    div_nonneg (mul_nonneg hbeta (distanceAtEdges_nonneg hdrawn hwanted)) hz.le
  have hmissed_iff : missed = 0 ↔ edgeSet t wanted ⊆ edgeSet s drawn :=
    distanceAtEdges_eq_zero_iff hwanted hdrawn
  have hexcess_iff : excess = 0 ↔ edgeSet s drawn ⊆ edgeSet t wanted :=
    distanceAtEdges_eq_zero_iff hdrawn hwanted
  refine ⟨hscore, add_nonneg hmissed hexcess, hmissed_iff, hexcess_iff, fun halpha₀ => ?_,
    fun hbeta₀ => ?_, fun halpha₀ hbeta₀ => ?_, ?_⟩
  · rw [weighted_eq_zero_iff halpha₀ hz, hmissed_iff]
  · rw [weighted_eq_zero_iff hbeta₀ hz, hexcess_iff]
  · rw [add_eq_zero_iff_of_nonneg hmissed hexcess, weighted_eq_zero_iff halpha₀ hz,
      weighted_eq_zero_iff hbeta₀ hz, hmissed_iff, hexcess_iff, and_comm,
      ← Set.Subset.antisymm_iff]
  · rw [hscore, score, if_pos ⟨hsame.1.symm, hsame.2.symm⟩, hsame.1, hsame.2, htarget.1,
      htarget.2]
    exact congrArg Except.ok (add_comm _ _)

/-- A row of two pixels of which only the first is dark. -/
def dot : GrayImage where
  width := 2
  height := 1
  pixels := #[0, 255]
  size_eq := rfl

/-- A row of two light pixels. -/
def blank : GrayImage where
  width := 2
  height := 1
  pixels := #[255, 255]
  size_eq := rfl

theorem score_separates_dot :
    ∃ v, score (⟨1, 2, 128⟩ : Metric ℝ) (ofImage 128 dot : DistanceField ℝ)
      (ofImage 128 blank) = .ok v ∧ 0 < v := by
  have hdark : (0, 0) ∈ edgeSet 128 dot := ⟨by decide, by decide, by decide⟩
  have hlight : (0, 0) ∉ edgeSet 128 blank := fun h => absurd h.2.2 (by decide)
  obtain ⟨-, hsizes⟩ := score_separates 128 128 dot blank ⟨1, 2, 128⟩ zero_le_one zero_le_two
  obtain ⟨hscore, hnonneg, -, -, -, -, hiff, -⟩ := hsizes rfl rfl (by decide) (by decide)
  refine ⟨_, hscore, hnonneg.lt_of_ne' fun hzero => hlight ?_⟩
  rwa [← (hiff zero_lt_one zero_lt_two).mp hzero]

end DistanceField

end ShapeGrammar
