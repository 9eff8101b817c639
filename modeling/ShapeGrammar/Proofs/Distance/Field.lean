import Mathlib.Tactic.NormNum
import ShapeGrammar.Distance.Field
import ShapeGrammar.Proofs.Distance.Buffers
import ShapeGrammar.Proofs.Number.Real

/-!
# Exact distance fields

Without rounding the two passes find the square of the distance to the nearest edge pixel. The first
finds the least within a column, the second the least of those along a row; a place without an edge
counts as far away, and in an image of at most `2 ^ 32` rows and columns no edge is as far. Main
statement: `squares_isLeast`, and what follows for the field of an image.
-/
namespace ShapeGrammar

namespace DistanceField

open Exact

/-- The square of the distance between two pixels. -/
def apart (x y x' y' : ℕ) : ℝ :=
  ((x : ℝ) - x') ^ 2 + ((y : ℝ) - y') ^ 2

theorem apart_eq_zero_iff {x y x' y' : ℕ} : apart x y x' y' = 0 ↔ x = x' ∧ y = y' := by
  rw [apart, add_eq_zero_iff_of_nonneg (sq_nonneg _) (sq_nonneg _), sq_eq_zero_iff,
    sq_eq_zero_iff, sub_eq_zero, sub_eq_zero, Nat.cast_inj, Nat.cast_inj]

/-- A pixel of an image that is dark enough for an edge. -/
def EdgeAt (threshold : UInt8) (image : GrayImage) (x y : ℕ) : Prop :=
  x < image.width.toNat ∧ y < image.height.toNat ∧ isEdge threshold (image.get x y) = true

/-- The least of some sums, if the least of the second terms have been found first. -/
theorem isLeast_add {P : ℕ → Prop} {c g : ℕ → ℝ} {S : ℕ → Set ℝ} {m : ℝ}
    (hg : ∀ i, P i → IsLeast (S i) (g i)) (h : IsLeast {v | ∃ i, P i ∧ v = c i + g i} m) :
    IsLeast {v | ∃ i, P i ∧ ∃ u ∈ S i, v = c i + u} m := by
  obtain ⟨⟨i, hi, hm⟩, hlower⟩ := h
  refine ⟨⟨i, hi, g i, (hg i hi).1, hm⟩, ?_⟩
  rintro v ⟨j, hj, u, hu, rfl⟩
  calc
    m ≤ c j + g j := hlower ⟨j, hj, rfl⟩
    _ ≤ c j + u := by
      have := (hg j hj).2 hu
      linarith

section Passes

variable {β : Type} [Scalar β]

/-- The squares within each column, column after column. -/
def columns (threshold : UInt8) (image : GrayImage) : Array (Array β) :=
  (Array.range image.width.toNat).map fun x =>
    (Arc.squaredDistances (seeds threshold image x)).toArray

/-- The buffers have room for every column and every row, so that no pass loses a line. -/
theorem squares_eq (threshold : UInt8) (image : GrayImage) :
    (squares threshold image : Array (Array β)) =
      (Array.range image.height.toNat).map fun y =>
        (Arc.squaredDistances ((List.range image.width.toNat).map fun x =>
          cellOf (columns threshold image) x y)).toArray := by
  have hroom : (Envelope.ofLength (max image.width.toNat image.height.toNat) :
      Envelope β).HasRoom (max image.width.toNat image.height.toNat) :=
    Envelope.hasRoom_ofLength _
  obtain ⟨e, hcolumns, hroom⟩ := Envelope.exists_sweep? hroom
    ((List.range image.width.toNat).map fun x => (seeds threshold image x).toArray)
    (by simp [seeds])
  have hwithin : ((List.range image.width.toNat).map fun x =>
      (seeds threshold image x : List β).toArray).map
        (fun line => (Arc.squaredDistances line.toList).toArray) =
      (columns threshold image).toList := by
    simp [columns]
  rw [hwithin] at hcolumns
  obtain ⟨e', hrows, -⟩ := Envelope.exists_sweep? hroom
    ((List.range image.height.toNat).map fun y =>
      (Array.range image.width.toNat).map fun x => cellOf (columns threshold image) x y)
    (by simp)
  rw [squares, squares?]
  simp only [hcolumns, Option.bind_eq_bind, Option.bind_some, hrows]
  exact Array.ext' (by simp)

variable [Exact β] {threshold : UInt8} {image : GrayImage} {x y : ℕ}

/-- What a pixel counts before the passes. -/
noncomputable def seed (threshold : UInt8) (image : GrayImage) (x y : ℕ) : ℝ :=
  if isEdge threshold (image.get x y) then 0 else (10 ^ 20 : ℕ)

theorem real_far : real (far : β) = (10 ^ 20 : ℕ) := by
  rw [far, real_ofScientific]
  norm_num

theorem valuesAt_seeds (threshold : UInt8) (image : GrayImage) (x q : ℕ) :
    Arc.valuesAt (seeds threshold image x : List β) q =
      {v | ∃ y, y < image.height.toNat ∧ v = ((q : ℝ) - y) ^ 2 + seed threshold image x y} := by
  have hzero : real (0.0 : β) = 0 := by
    rw [real_ofScientific]
    norm_num
  ext v
  simp only [Arc.valuesAt, seeds, Set.mem_ofPred_eq, List.getElem?_map, Option.map_eq_some_iff]
  constructor
  · rintro ⟨p, _, ⟨y, hp, rfl⟩, rfl⟩
    obtain ⟨hlt, rfl⟩ := List.getElem?_eq_some_iff.mp hp
    rw [List.length_range] at hlt
    refine ⟨p, hlt, ?_⟩
    rw [List.getElem_range, Arc.parabola, seed]
    split <;> simp only [hzero, real_far]
  · rintro ⟨y, hy, rfl⟩
    refine ⟨y, _, ⟨y, List.getElem?_range hy, rfl⟩, ?_⟩
    rw [Arc.parabola, seed]
    split <;> simp only [hzero, real_far]

omit [Exact β] in
theorem cellOf_map_range {count line place : ℕ} {f : ℕ → Array β} {v : β} (h : line < count)
    (hv : (f line)[place]? = some v) : cellOf ((Array.range count).map f) line place = v := by
  simp [cellOf, h, hv]

/-- The first pass finds the least within each column. -/
theorem isLeast_columns (threshold : UInt8) (hx : x < image.width.toNat)
    (hy : y < image.height.toNat) :
    IsLeast {v | ∃ y', y' < image.height.toNat ∧
      v = ((y : ℝ) - y') ^ 2 + seed threshold image x y'}
      (real (cellOf (columns threshold image : Array (Array β)) x y)) := by
  have hlength : y < (seeds threshold image x : List β).length := by simpa [seeds] using hy
  obtain ⟨v, hv, hleast⟩ := Arc.isLeast_squaredDistances hlength
  rw [valuesAt_seeds] at hleast
  rwa [columns, cellOf_map_range hx (by simpa using hv)]

/-- The second pass finds the least along each row. -/
theorem isLeast_rows (threshold : UInt8) (hx : x < image.width.toNat)
    (hy : y < image.height.toNat) :
    IsLeast {v | ∃ x', x' < image.width.toNat ∧ v = ((x : ℝ) - x') ^ 2 +
        real (cellOf (columns threshold image : Array (Array β)) x' y)}
      (real (cellOf (squares threshold image : Array (Array β)) y x)) := by
  let row := (List.range image.width.toNat).map fun x =>
    cellOf (columns threshold image : Array (Array β)) x y
  have hlength : x < row.length := by simpa [row] using hx
  obtain ⟨v, hv, hleast⟩ := Arc.isLeast_squaredDistances hlength
  have hvalues : Arc.valuesAt row x = {v | ∃ x', x' < image.width.toNat ∧
      v = ((x : ℝ) - x') ^ 2 +
        real (cellOf (columns threshold image : Array (Array β)) x' y)} := by
    ext u
    simp only [Arc.valuesAt, row, Set.mem_ofPred_eq, List.getElem?_map, Option.map_eq_some_iff]
    constructor
    · rintro ⟨p, _, ⟨x', hp, rfl⟩, rfl⟩
      obtain ⟨hlt, rfl⟩ := List.getElem?_eq_some_iff.mp hp
      rw [List.length_range] at hlt
      exact ⟨p, hlt, by rw [List.getElem_range, Arc.parabola]⟩
    · rintro ⟨x', hx', rfl⟩
      exact ⟨x', _, ⟨x', List.getElem?_range hx', rfl⟩, rfl⟩
  rw [hvalues] at hleast
  rwa [squares_eq, cellOf_map_range hy (by simpa [row] using hv)]

/-- Both passes together find the least within the image. -/
theorem isLeast_passes (threshold : UInt8) (hx : x < image.width.toNat)
    (hy : y < image.height.toNat) :
    IsLeast {v | ∃ x' y', x' < image.width.toNat ∧ y' < image.height.toNat ∧
        v = apart x y x' y' + seed threshold image x' y'}
      (real (cellOf (squares threshold image : Array (Array β)) y x)) := by
  have hsum := isLeast_add (fun x' hx' => isLeast_columns (β := β) threshold hx' hy)
    (isLeast_rows (β := β) threshold hx hy)
  have hset : {v | ∃ x' y', x' < image.width.toNat ∧ y' < image.height.toNat ∧
      v = apart x y x' y' + seed threshold image x' y'} =
      {v | ∃ x', x' < image.width.toNat ∧ ∃ u ∈ {u | ∃ y', y' < image.height.toNat ∧
        u = ((y : ℝ) - y') ^ 2 + seed threshold image x' y'}, v = ((x : ℝ) - x') ^ 2 + u} := by
    ext v
    simp only [Set.mem_ofPred_eq, apart, add_assoc]
    constructor
    · rintro ⟨x', y', hx', hy', rfl⟩
      exact ⟨x', hx', _, ⟨y', hy', rfl⟩, rfl⟩
    · rintro ⟨x', hx', _, ⟨y', hy', rfl⟩, rfl⟩
      exact ⟨x', y', hx', hy', rfl⟩
  rwa [hset]

theorem sq_sub_le {size p q : ℕ} (hp : p < size) (hq : q < size) :
    ((p : ℝ) - q) ^ 2 ≤ (size : ℝ) ^ 2 := by
  have hp' : (p : ℝ) ≤ size := Nat.cast_le.mpr hp.le
  have hq' : (q : ℝ) ≤ size := Nat.cast_le.mpr hq.le
  have hpos : (0 : ℝ) ≤ p := Nat.cast_nonneg p
  have hpos' : (0 : ℝ) ≤ q := Nat.cast_nonneg q
  refine sq_le_sq' ?_ ?_ <;> linarith

/-- No two pixels are further apart than opposite corners. -/
theorem apart_le {x' y' : ℕ} (hx : x < image.width.toNat) (hy : y < image.height.toNat)
    (hx' : x' < image.width.toNat) (hy' : y' < image.height.toNat) :
    apart x y x' y' ≤ (image.width.toNat : ℝ) ^ 2 + (image.height.toNat : ℝ) ^ 2 :=
  add_le_add (sq_sub_le hx hx') (sq_sub_le hy hy')

/-- Opposite corners are not as far apart as a pixel without an edge counts. -/
theorem corners_lt_far (width height : UInt32) :
    (width.toNat : ℝ) ^ 2 + (height.toNat : ℝ) ^ 2 < (10 ^ 20 : ℕ) := by
  have hside (size : UInt32) : (size.toNat : ℝ) ^ 2 ≤ (2 ^ 32) ^ 2 := by
    have hsize : (size.toNat : ℝ) ≤ 2 ^ 32 := by exact_mod_cast size.toNat_lt.le
    exact pow_le_pow_left₀ (Nat.cast_nonneg _) hsize 2
  calc
    _ ≤ (2 ^ 32 : ℝ) ^ 2 + (2 ^ 32) ^ 2 := add_le_add (hside width) (hside height)
    _ < (10 ^ 20 : ℕ) := by norm_num

/-- If there is an edge, the square found for a pixel is that of the distance to the nearest. -/
theorem squares_isLeast (hedge : ∃ x y, EdgeAt threshold image x y)
    (hx : x < image.width.toNat) (hy : y < image.height.toNat) :
    IsLeast {d | ∃ x' y', EdgeAt threshold image x' y' ∧ d = apart x y x' y'}
      (real (cellOf (squares threshold image : Array (Array β)) y x)) := by
  have hseed {x' y' : ℕ} (h : EdgeAt threshold image x' y') : seed threshold image x' y' = 0 := by
    rw [seed, if_pos h.2.2]
  obtain ⟨⟨x', y', hx', hy', heq⟩, hlower⟩ := isLeast_passes (β := β) threshold hx hy
  have hleast {i j : ℕ} (h : EdgeAt threshold image i j) :
      real (cellOf (squares threshold image : Array (Array β)) y x) ≤ apart x y i j :=
    hlower ⟨i, j, h.1, h.2.1, by rw [hseed h, add_zero]⟩
  -- the least is found at an edge: any other place counts more than the edge there is
  have hfound : EdgeAt threshold image x' y' := by
    refine ⟨hx', hy', ?_⟩
    by_contra hlight
    obtain ⟨i, j, hij⟩ := hedge
    have hbound := hleast hij
    have hnear := apart_le hx hy hij.1 hij.2.1
    have hfar := corners_lt_far image.width image.height
    rw [heq, seed, if_neg hlight] at hbound
    have hpos : 0 ≤ apart x y x' y' := add_nonneg (sq_nonneg _) (sq_nonneg _)
    linarith
  refine ⟨⟨x', y', hfound, by rw [heq, hseed hfound, add_zero]⟩, ?_⟩
  rintro d ⟨i, j, hij, rfl⟩
  exact hleast hij

/-- It is zero at the edge pixels and nowhere else. -/
theorem squares_eq_zero_iff (hedge : ∃ x y, EdgeAt threshold image x y)
    (hx : x < image.width.toNat) (hy : y < image.height.toNat) :
    real (cellOf (squares threshold image : Array (Array β)) y x) = 0 ↔
      EdgeAt threshold image x y := by
  obtain ⟨⟨x', y', hfound, heq⟩, hlower⟩ := squares_isLeast (β := β) hedge hx hy
  constructor
  · intro hzero
    rw [hzero, eq_comm, apart_eq_zero_iff] at heq
    obtain ⟨rfl, rfl⟩ := heq
    exact hfound
  · intro h
    refine le_antisymm (hlower ⟨x, y, h, ?_⟩) ?_
    · simp [apart]
    · rw [heq]
      exact add_nonneg (sq_nonneg _) (sq_nonneg _)

end Passes

/-! ## Fields -/

variable {threshold : UInt8} {image : GrayImage}

/-- The place of a pixel in its buffer. -/
theorem cell_lt {width height x y : ℕ} (hx : x < width) (hy : y < height) :
    y * width + x < width * height := by
  calc
    y * width + x < (y + 1) * width := by
      rw [Nat.succ_mul]
      omega
    _ ≤ width * height := by
      rw [Nat.mul_comm]
      exact Nat.mul_le_mul_left _ hy

theorem any_isEdge_iff :
    image.pixels.any (isEdge threshold) = true ↔ ∃ x y, EdgeAt threshold image x y := by
  rw [Array.any_eq_true]
  constructor
  · rintro ⟨i, hi, hdark⟩
    rw [image.size_eq] at hi
    have hwidth : 0 < image.width.toNat := Nat.pos_of_ne_zero fun hzero => by
      rw [hzero, Nat.zero_mul] at hi
      exact Nat.not_lt_zero i hi
    refine ⟨i % image.width.toNat, i / image.width.toNat, Nat.mod_lt i hwidth,
      Nat.div_lt_of_lt_mul hi, ?_⟩
    rw [GrayImage.get, Nat.div_add_mod', Array.getElem?_eq_getElem, Option.getD_some]
    exact hdark
  · rintro ⟨x, y, hx, hy, hdark⟩
    have hi : y * image.width.toNat + x < image.pixels.size := by
      rw [image.size_eq]
      exact cell_lt hx hy
    rw [GrayImage.get, Array.getElem?_eq_getElem hi, Option.getD_some] at hdark
    exact ⟨_, hi, hdark⟩

theorem getElem?_flatMap_of_length {ι γ : Type} {f : ι → List γ} {lines : List ι} {count : ℕ}
    (h : ∀ line ∈ lines, (f line).length = count) {x : ℕ} (hx : x < count) (y : ℕ) :
    (lines.flatMap f)[y * count + x]? = lines[y]?.bind fun line => (f line)[x]? := by
  induction lines generalizing y with
  | nil => simp
  | cons line rest ih =>
    have hline : (f line).length = count := h line List.mem_cons_self
    rw [List.flatMap_cons]
    cases y with
    | zero =>
      rw [Nat.zero_mul, Nat.zero_add, List.getElem?_append_left (hline ▸ hx)]
      rfl
    | succ y =>
      rw [List.getElem?_append_right (by rw [Nat.succ_mul]; omega), hline,
        show (y + 1) * count + x - count = y * count + x by rw [Nat.succ_mul]; omega,
        ih (fun l hl => h l (List.mem_cons_of_mem line hl)), List.getElem?_cons_succ]

theorem size_of_mem_squares {β : Type} [Scalar β] {row : Array β}
    (h : row ∈ (squares threshold image : Array (Array β))) : row.size = image.width.toNat := by
  simp only [squares_eq, Array.mem_map] at h
  obtain ⟨y, _, rfl⟩ := h
  simp

theorem getElem?_squares {β : Type} [Scalar β] (threshold : UInt8) {x y : ℕ}
    (hx : x < image.width.toNat) (hy : y < image.height.toNat) :
    ∃ row, (squares threshold image : Array (Array β))[y]? = some row ∧
      row[x]? = some (cellOf (squares threshold image) y x) := by
  obtain ⟨row, hrow⟩ : ∃ row, (squares threshold image : Array (Array β))[y]? = some row := by
    simp [squares_eq, hy]
  have hsize := size_of_mem_squares (Array.mem_of_getElem? hrow)
  refine ⟨row, hrow, ?_⟩
  simp [cellOf, hrow, hsize, hx]

section Size

variable {α β : Type} [Elementary β] [Precision α β]

theorem size_ofImage (threshold : UInt8) (image : GrayImage) :
    (ofImage threshold image : DistanceField α).width = image.width ∧
      (ofImage threshold image : DistanceField α).height = image.height := by
  rw [ofImage]
  split <;> exact ⟨rfl, rfl⟩

/-- A field has a cell for every pixel of its image. -/
theorem size_cells (threshold : UInt8) (image : GrayImage) :
    (ofImage threshold image : DistanceField α).cells.size =
      image.width.toNat * image.height.toNat := by
  rw [ofImage]
  split
  · have hrows : ((squares threshold image : Array (Array β)).map fun row =>
        (row.map fun square => (Precision.narrow (Elementary.sqrt square) : α)).size) =
        Array.replicate image.height.toNat image.width.toNat := by
      refine Array.ext (by simp [squares_eq]) fun i hi _ => ?_
      rw [Array.getElem_map, Array.getElem_replicate, Array.size_map]
      exact size_of_mem_squares (Array.getElem_mem _)
    rw [Array.size_flatMap, hrows, Array.sum_replicate_nat, Nat.mul_comm]
  · exact Array.size_replicate

end Size

/-- The cells of a field, where there is an edge, are the roots of the squares. -/
theorem cells_of_edge (hedge : ∃ x y, EdgeAt threshold image x y) :
    (ofImage threshold image : DistanceField ℝ).cells =
      (squares threshold image : Array (Array ℝ)).flatMap fun row =>
        row.map fun square => √square := by
  rw [ofImage, if_pos (any_isEdge_iff.mpr hedge)]
  rfl

/-! ### The diagonal -/

theorem toNat_squaredDiagonal (width height : UInt32) :
    (squaredDiagonal width height).toNat = (width.toNat ^ 2 + height.toNat ^ 2) % 2 ^ 64 := by
  rw [squaredDiagonal, UInt64.toNat_add, UInt64.toNat_mul, UInt64.toNat_mul,
    UInt32.toNat_toUInt64, UInt32.toNat_toUInt64, ← Nat.add_mod, sq, sq]

/-- A power of four is a sum of two squares only if one of them is zero. -/
theorem eq_zero_of_sq_add_sq_eq_pow {a b : ℕ} (k : ℕ) (h : a ^ 2 + b ^ 2 = 4 ^ k) :
    a = 0 ∨ b = 0 := by
  induction k generalizing a b with
  | zero =>
    by_contra hne
    have ha : 1 ≤ a ^ 2 := Nat.one_le_pow _ _ (by omega)
    have hb : 1 ≤ b ^ 2 := Nat.one_le_pow _ _ (by omega)
    omega
  | succ k ih =>
    -- a square is a multiple of four or one more
    have hodd (c : ℕ) : (2 * c + 1) ^ 2 = 4 * (c ^ 2 + c) + 1 := by ring
    have heven (c : ℕ) : (2 * c) ^ 2 = 4 * c ^ 2 := by ring
    rw [pow_succ' 4 k] at h
    obtain ⟨c, rfl | rfl⟩ := a.even_or_odd'
    all_goals obtain ⟨d, rfl | rfl⟩ := b.even_or_odd'
    · rw [heven, heven] at h
      have := ih (a := c) (b := d) (by omega)
      omega
    · rw [heven, hodd] at h
      omega
    · rw [hodd, heven] at h
      omega
    · rw [hodd, hodd] at h
      omega

/-- The square of the diagonal is never lost altogether. -/
theorem squaredDiagonal_pos {width height : UInt32} (hwidth : 0 < width.toNat)
    (hheight : 0 < height.toNat) : 0 < (squaredDiagonal width height).toNat := by
  rw [toNat_squaredDiagonal]
  have hw : width.toNat ^ 2 < 2 ^ 64 := Nat.pow_lt_pow_left width.toNat_lt two_ne_zero
  have hh : height.toNat ^ 2 < 2 ^ 64 := Nat.pow_lt_pow_left height.toNat_lt two_ne_zero
  have hpos : 0 < width.toNat ^ 2 := Nat.pow_pos hwidth
  by_contra hzero
  have hsum : width.toNat ^ 2 + height.toNat ^ 2 = 4 ^ 32 := by omega
  have := eq_zero_of_sq_add_sq_eq_pow 32 hsum
  omega

/-- Sides whose squares together do not fit in a word bound many pixels: the longer one has at least
half of the sum, and alone it falls short of a word. -/
theorem two_pow_le_mul {long short : ℕ} (hle : short ≤ long) (hlong : long < 2 ^ 32)
    (hsum : 2 ^ 64 ≤ long ^ 2 + short ^ 2) : 2 ^ 48 ≤ long * short := by
  have hhalf : 3037000500 ≤ long := by
    by_contra hlt
    have hsquare : long ^ 2 ≤ 3037000499 ^ 2 := Nat.pow_le_pow_left (by omega) 2
    have := Nat.pow_le_pow_left hle 2
    omega
  have hrest : 92682 ≤ short := by
    by_contra hlt
    have hsquare : short ^ 2 ≤ 92681 ^ 2 := Nat.pow_le_pow_left (by omega) 2
    have := Nat.pow_le_pow_left (Nat.le_sub_one_of_lt hlong) 2
    omega
  calc
    2 ^ 48 ≤ 3037000500 * 92682 := by norm_num
    _ ≤ long * short := Nat.mul_le_mul hhalf hrest

/-- The square of the diagonal fits in its word if the image has less than `2 ^ 48` pixels. -/
theorem squares_lt_of_pixels_lt {width height : UInt32}
    (hfew : width.toNat * height.toNat < 2 ^ 48) :
    width.toNat ^ 2 + height.toNat ^ 2 < 2 ^ 64 := by
  by_contra hmany
  rcases Nat.le_total height.toNat width.toNat with hle | hle
  · have := two_pow_le_mul hle width.toNat_lt (by omega)
    omega
  · have := two_pow_le_mul hle height.toNat_lt (by omega)
    rw [Nat.mul_comm] at this
    omega

theorem cells_of_noEdge (hnone : ¬∃ x y, EdgeAt threshold image x y) :
    (ofImage threshold image : DistanceField ℝ).cells =
      Array.replicate (image.width.toNat * image.height.toNat)
        √((squaredDiagonal image.width image.height).toNat : ℝ) := by
  rw [ofImage, if_neg (mt any_isEdge_iff.mp hnone)]
  rfl

theorem getElem?_cells (hedge : ∃ x y, EdgeAt threshold image x y) {x y : ℕ}
    (hx : x < image.width.toNat) (hy : y < image.height.toNat) :
    (ofImage threshold image : DistanceField ℝ).cells[y * image.width.toNat + x]? =
      some √(cellOf (squares threshold image : Array (Array ℝ)) y x) := by
  obtain ⟨row, hrow, hcell⟩ := getElem?_squares (β := ℝ) threshold hx hy
  rw [cells_of_edge hedge, ← Array.getElem?_toList, Array.toList_flatMap,
    getElem?_flatMap_of_length (fun line hline => ?_) hx]
  · simp [hrow, hcell]
  · simpa using size_of_mem_squares (Array.mem_toList_iff.mp hline)

/-- No cell of any field holds more than the diagonal of its image. -/
theorem cells_le {d : ℝ} (hd : d ∈ (ofImage threshold image : DistanceField ℝ).cells) :
    d ≤ √((image.width.toNat : ℝ) ^ 2 + (image.height.toNat : ℝ) ^ 2) := by
  by_cases hedge : ∃ x y, EdgeAt threshold image x y
  · rw [cells_of_edge hedge, Array.mem_flatMap] at hd
    obtain ⟨row, hrow, hd⟩ := hd
    obtain ⟨square, hsquare, rfl⟩ := Array.mem_map.mp hd
    obtain ⟨y, hy⟩ := Array.mem_iff_getElem?.mp hrow
    obtain ⟨x, hx⟩ := Array.mem_iff_getElem?.mp hsquare
    have hcell : cellOf (squares threshold image) y x = square := by simp [cellOf, hy, hx]
    have hy' : y < image.height.toNat := by
      simpa [squares_eq] using (Array.getElem?_eq_some_iff.mp hy).1
    have hx' : x < image.width.toNat := by
      rw [← size_of_mem_squares hrow]
      exact (Array.getElem?_eq_some_iff.mp hx).1
    obtain ⟨⟨i, j, hij, heq⟩, _⟩ := squares_isLeast (β := ℝ) hedge hx' hy'
    rw [hcell] at heq
    refine Real.sqrt_le_sqrt (heq.trans_le ?_)
    exact apart_le hx' hy' hij.1 hij.2.1
  · rw [cells_of_noEdge hedge, Array.mem_replicate] at hd
    rw [hd.2, toNat_squaredDiagonal]
    refine Real.sqrt_le_sqrt ?_
    exact_mod_cast Nat.mod_le (image.width.toNat ^ 2 + image.height.toNat ^ 2) (2 ^ 64)

/-- Without rounding, the field of an image is its distance transform. If some pixel is an edge, the
square that the two passes find for a pixel is the least of those of its distances to the edges, it
is zero exactly at the edges, and the cell of the pixel holds its root. If none is, every cell holds
the root of a sum of squares in a word of 64 bits. That is the diagonal of the image if the word
holds the sum, as it does for less than `2 ^ 48` pixels, and no cell of any image of that size holds
more than the diagonal. -/
theorem ofImage_exact (threshold : UInt8) (image : GrayImage) :
    ((∃ x y, EdgeAt threshold image x y) →
      ∀ x y, x < image.width.toNat → y < image.height.toNat →
        let square : ℚ := cellOf (squares threshold image) y x
        IsLeast {d | ∃ x' y', EdgeAt threshold image x' y' ∧ d = apart x y x' y'} (square : ℝ) ∧
        (square = 0 ↔ EdgeAt threshold image x y) ∧
        (ofImage threshold image : DistanceField ℝ).cells[y * image.width.toNat + x]? =
          some √(square : ℝ)) ∧
    ((¬∃ x y, EdgeAt threshold image x y) →
      (ofImage threshold image : DistanceField ℝ).cells =
        Array.replicate (image.width.toNat * image.height.toNat)
          √(((image.width.toNat ^ 2 + image.height.toNat ^ 2) % 2 ^ 64 : ℕ) : ℝ) ∧
      (image.width.toNat ^ 2 + image.height.toNat ^ 2 < 2 ^ 64 →
        (ofImage threshold image : DistanceField ℝ).cells =
          Array.replicate (image.width.toNat * image.height.toNat)
            √((image.width.toNat : ℝ) ^ 2 + (image.height.toNat : ℝ) ^ 2)) ∧
      (image.width.toNat * image.height.toNat < 2 ^ 48 →
        image.width.toNat ^ 2 + image.height.toNat ^ 2 < 2 ^ 64) ∧
      ∀ (threshold' : UInt8) (other : GrayImage), other.width = image.width →
        other.height = image.height →
        ∀ d ∈ (ofImage threshold' other : DistanceField ℝ).cells,
          d ≤ √((image.width.toNat : ℝ) ^ 2 + (image.height.toNat : ℝ) ^ 2)) := by
  refine ⟨fun hedge x y hx hy => ?_,
    fun hnone => ⟨?_, fun hfits => ?_, squares_lt_of_pixels_lt, ?_⟩⟩
  · intro square
    have hleast := squares_isLeast (β := ℚ) hedge hx hy
    have hsame : cellOf (squares threshold image : Array (Array ℝ)) y x = (square : ℝ) :=
      (squares_isLeast (β := ℝ) hedge hx hy).unique hleast
    refine ⟨hleast, ?_, ?_⟩
    · rw [← squares_eq_zero_iff (β := ℚ) hedge hx hy]
      exact Rat.cast_eq_zero.symm
    · rw [getElem?_cells hedge hx hy, hsame]
  · rw [cells_of_noEdge hnone, toNat_squaredDiagonal]
  · rw [cells_of_noEdge hnone, toNat_squaredDiagonal, Nat.mod_eq_of_lt hfits]
    push_cast
    rfl
  · intro threshold' other hwidth hheight d hd
    rw [← hwidth, ← hheight]
    exact cells_le hd

end DistanceField

end ShapeGrammar
