import ShapeGrammar.Proofs.Distance.Field
import ShapeGrammar.Proofs.Image.Visibility
import ShapeGrammar.Search.Config

/-!
# Where pixels stand in their buffers

Pixels are addressed with 32 bits. Whatever the coordinates of a corner are, what is drawn of a
polygon lies within the image: spans are cut at its borders and points outside are left out. If the
image has fewer than `2 ^ 32` pixels, no address wraps around, and each lies within the buffers.
Main statement: `addresses_exact`.
-/
namespace ShapeGrammar

/-! ## Addresses -/

theorem toNat_cellCount (width height : UInt32) :
    (cellCount width height).toNat = width.toNat * height.toNat % 2 ^ 32 :=
  UInt32.toNat_mul width height

theorem toNat_cellCount_eq_iff (width height : UInt32) :
    (cellCount width height).toNat = width.toNat * height.toNat ↔
      width.toNat * height.toNat < 2 ^ 32 := by
  rw [toNat_cellCount]
  exact Nat.mod_eq_iff_lt (by decide)

/-- Addresses are those of the rows one after the other, as long as none of them wraps around. -/
theorem toNat_cellIndex {width height x y : UInt32} (hx : x < width) (hy : y < height)
    (hfits : width.toNat * height.toNat ≤ 2 ^ 32) :
    (cellIndex width x y).toNat = y.toNat * width.toNat + x.toNat := by
  have hlt : y.toNat * width.toNat + x.toNat < 2 ^ 32 :=
    (DistanceField.cell_lt hx hy).trans_le hfits
  rw [cellIndex, UInt32.toNat_add, UInt32.toNat_mul, Nat.mod_add_mod, Nat.mod_eq_of_lt hlt]

/-! ## What is drawn lies within the image -/

namespace ScreenVertex

variable {α : Type} [Scalar α] {width height : UInt32} {f : Fragment α}

theorem spanStop_le (size : UInt32) (a b c : α) : spanStop size a b c ≤ size.toNat :=
  Nat.min_le_right ..

theorem within_triangle {a b c : ScreenVertex α} (h : f ∈ triangle width height a b c) :
    f.x < width ∧ f.y < height := by
  rw [triangle] at h
  split at h
  · simp at h
  simp only [List.mem_flatMap, List.mem_filterMap, List.mem_range'_1] at h
  obtain ⟨py, ⟨htop, hbottom⟩, px, ⟨hleft, hright⟩, hf⟩ := h
  have hpx : px < width.toNat := by
    have := spanStop_le width a.x b.x c.x
    omega
  have hpy : py < height.toNat := by
    have := spanStop_le height a.y b.y c.y
    omega
  simp only [fragment?, Option.ite_none_left_eq_some, Option.some.injEq] at hf
  obtain ⟨-, rfl⟩ := hf
  refine ⟨UInt32.lt_iff_toNat_lt.mpr ?_, UInt32.lt_iff_toNat_lt.mpr ?_⟩
  · rwa [UInt32.toNat_ofNat_of_lt' (hpx.trans width.toNat_lt)]
  · rwa [UInt32.toNat_ofNat_of_lt' (hpy.trans height.toNat_lt)]

theorem within_polygon {corners : List (ScreenVertex α)} (h : f ∈ polygon width height corners) :
    f.x < width ∧ f.y < height := by
  cases corners with
  | nil => simp [polygon] at h
  | cons first rest =>
    obtain ⟨_, _, hf⟩ := List.mem_flatMap.mp h
    exact within_triangle hf

theorem within_segmentPoint? {a b : ScreenVertex α} {steps step : ℕ}
    (h : segmentPoint? width height a b steps step = some f) : f.x < width ∧ f.y < height := by
  simp only [segmentPoint?, Option.ite_none_left_eq_some, Option.some.injEq, not_or,
    UInt32.not_le] at h
  obtain ⟨-, hwithin, rfl⟩ := h
  exact hwithin

theorem mem_segmentUpTo {a b : ScreenVertex α} {steps count : ℕ} {found : List (Fragment α)}
    (h : f ∈ segmentUpTo width height a b steps count found) :
    f ∈ found ∨ ∃ step, segmentPoint? width height a b steps step = some f := by
  induction count generalizing found with
  | zero => exact (List.mem_append.mp h).symm.imp_right fun hf => ⟨0, Option.mem_toList.mp hf⟩
  | succ count ih =>
    rcases ih h with hf | hf
    · exact (List.mem_append.mp hf).symm.imp_right fun hf => ⟨count + 1, Option.mem_toList.mp hf⟩
    · exact .inr hf

theorem within_outline {corners : List (ScreenVertex α)} (h : f ∈ outline width height corners) :
    f.x < width ∧ f.y < height := by
  cases corners with
  | nil => simp [outline] at h
  | cons first rest =>
    obtain ⟨_, _, hf⟩ := List.mem_flatMap.mp h
    obtain ⟨_, hpoint⟩ := (mem_segmentUpTo hf).resolve_left (by simp)
    exact within_segmentPoint? hpoint

end ScreenVertex

/-! ## One fragment after the other -/

namespace Viewport

variable {α : Type} [Elementary α] {v : Viewport α} {faces : List (Face α)}

/-- Takes in a fragment with its gray. -/
def brush (painted : DepthBuffer α × Array UInt8) (stroke : UInt8 × Fragment α) :
    DepthBuffer α × Array UInt8 :=
  paint stroke.1 painted stroke.2

/-- The fragments of the surfaces of faces, each with the gray of its face. -/
def strokes (v : Viewport α) (faces : List (Face α)) : List (UInt8 × Fragment α) :=
  (v.projected faces).flatMap fun (face, corners) =>
    (ScreenVertex.polygon v.width v.height corners).map fun f => (shade face, f)

theorem map_snd_strokes (v : Viewport α) (faces : List (Face α)) :
    (v.strokes faces).map Prod.snd =
      v.fragments (ScreenVertex.polygon v.width v.height) faces := by
  simp [strokes, fragments, List.map_flatMap, List.flatMap_map, Function.comp_def]

/-- The grays of an image on which nothing has been drawn. -/
def white (v : Viewport α) : Array UInt8 :=
  Array.replicate (cellCount v.width v.height).toNat 255

theorem foldl_brush_fst (strokes : List (UInt8 × Fragment α))
    (painted : DepthBuffer α × Array UInt8) :
    (strokes.foldl brush painted).1 = (strokes.map Prod.snd).foldl DepthBuffer.cover painted.1 := by
  rw [List.foldl_map]
  refine (List.foldl_hom Prod.fst fun painted stroke => ?_).symm
  exact (paint_fst stroke.1 painted stroke.2).symm

theorem size_brush (painted : DepthBuffer α × Array UInt8) (stroke : UInt8 × Fragment α) :
    (brush painted stroke).2.size = painted.2.size := by
  rw [brush, paint]
  split
  · exact Array.size_setIfInBounds
  · rfl

theorem size_foldl_brush (strokes : List (UInt8 × Fragment α))
    (painted : DepthBuffer α × Array UInt8) :
    (strokes.foldl brush painted).2.size = painted.2.size := by
  induction strokes generalizing painted with
  | nil => rfl
  | cons stroke rest ih => rw [List.foldl_cons, ih, size_brush]

theorem drawShaded_eq (v : Viewport α) (blank : DepthBuffer α) (faces : List (Face α)) :
    v.drawShaded blank faces =
      let (buffer, grays) := (v.strokes faces).foldl brush (blank, v.white)
      (GrayImage.ofFn v.width v.height fun i => grays[i]?.getD 255, buffer) := by
  simp only [strokes, List.foldl_flatMap, List.foldl_map]
  rfl

end Viewport

/-! ## Drawings and distances -/

/-- In a field of an image whose addresses do not wrap around, the distance at each pixel is found
where it stands. -/
theorem DistanceField.isSome_get? {α β : Type} [Elementary β] [Precision α β] (threshold : UInt8)
    {image : GrayImage} (hfits : image.width.toNat * image.height.toNat ≤ 2 ^ 32) {x y : UInt32}
    (hx : x < image.width) (hy : y < image.height) :
    let field : DistanceField α := ofImage threshold image
    (cellIndex field.width x y).toNat = y.toNat * image.width.toNat + x.toNat ∧
      (field.get? x y).isSome := by
  intro field
  have hindex : (cellIndex field.width x y).toNat = y.toNat * image.width.toNat + x.toNat := by
    rw [(size_ofImage threshold image).1, toNat_cellIndex hx hy hfits]
  refine ⟨hindex, ?_⟩
  rw [get?, isSome_getElem?, hindex, size_cells]
  exact cell_lt hx hy

namespace Canvas

open Viewport

variable {α β : Type} [Elementary α] [Elementary β] [Precision α β]

/-- In both modes the buffer takes in the surfaces of the faces, one fragment after the other. -/
theorem Kept.buffer_draw {v : Viewport α} {c : Canvas α} (h : c.Kept v) (mode : DrawMode)
    (faces : List (Face α)) :
    (c.draw mode faces).2.buffer =
      ((v.strokes faces).foldl brush (c.buffer.clear, v.white)).1 := by
  rw [foldl_brush_fst, map_snd_strokes, draw_snd, h.view_eq, depth_eq_foldl]

/-- The grays of a shaded image are painted by the same strokes. -/
theorem Kept.draw_shaded {v : Viewport α} {c : Canvas α} (h : c.Kept v) (faces : List (Face α)) :
    (c.draw .shaded faces).1 = GrayImage.ofFn v.width v.height fun i =>
      ((v.strokes faces).foldl brush (c.buffer.clear, v.white)).2[i]?.getD 255 := by
  rw [Canvas.draw, h.view_eq]
  simp only [drawShaded_eq]

/-- Whatever was drawn on a canvas before, its buffer has a cell for every pixel exactly if there
are fewer than `2 ^ 32` pixels. It is the strokes of the faces, one after the other, that a drawing
leaves in the buffer in both modes and in the grays of a shaded image. Whatever the coordinates of
a polygon are, its fragments lie within the image. If there are fewer than `2 ^ 32` pixels, then
after any strokes the address of each of them is the one of the rows one after the other, and within
the buffer and the grays. In a field of distances of such an image, the distance of every pixel is
found there. -/
theorem addresses_exact (v : Viewport α) (history : List (DrawMode × List (Face α)))
    (mode : DrawMode) (faces : List (Face α)) :
    let c := (ofView v).after history
    let blank := (c.buffer.clear, v.white)
    let painted := (v.strokes faces).foldl brush blank
    let drawn (corners : List (ScreenVertex α)) :=
      ScreenVertex.polygon v.width v.height corners ++ ScreenVertex.outline v.width v.height corners
    let pixels := v.width.toNat * v.height.toNat
    (c.buffer.cells.size = pixels ↔ pixels < 2 ^ 32) ∧
    (c.draw mode faces).2.buffer = painted.1 ∧
    (c.draw .shaded faces).1 =
      GrayImage.ofFn v.width v.height (fun i => painted.2[i]?.getD 255) ∧
    (∀ corners, ∀ f ∈ drawn corners, f.x < v.width ∧ f.y < v.height) ∧
    (pixels < 2 ^ 32 → ∀ taken : List (UInt8 × Fragment α),
      let (buffer, grays) := taken.foldl brush blank
      buffer.cells.size = pixels ∧ grays.size = pixels ∧
      ∀ corners, ∀ f ∈ drawn corners,
        buffer.indexOf f.x f.y = f.y.toNat * v.width.toNat + f.x.toNat ∧
        buffer.indexOf f.x f.y < pixels) ∧
    (pixels ≤ 2 ^ 32 → ∀ (threshold : UInt8) (image : GrayImage),
      image.width = v.width → image.height = v.height →
      ∀ x y, x < image.width → y < image.height →
        let field : DistanceField α := DistanceField.ofImage threshold image
        (cellIndex field.width x y).toNat = y.toNat * image.width.toNat + x.toNat ∧
        (field.get? x y).isSome) := by
  intro c blank painted drawn pixels
  have hkept : c.Kept v := (kept_ofView v).after history
  have hwithin (corners : List (ScreenVertex α)) (f : Fragment α) (hf : f ∈ drawn corners) :
      f.x < v.width ∧ f.y < v.height :=
    (List.mem_append.mp hf).elim ScreenVertex.within_polygon ScreenVertex.within_outline
  refine ⟨?_, hkept.buffer_draw mode faces, hkept.draw_shaded faces, hwithin, fun hfits taken => ?_,
    fun hfits threshold image hwidth hheight x y hx hy => ?_⟩
  · rw [hkept.shape.size_eq, ← toNat_cellCount_eq_iff, DepthBuffer.empty, Array.size_replicate]
  · have hcount : (cellCount v.width v.height).toNat = pixels :=
      (toNat_cellCount_eq_iff v.width v.height).mpr hfits
    have hshape : (taken.foldl brush blank).1.SameShape (.empty v.width v.height) := by
      rw [foldl_brush_fst, show blank.1 = _ from hkept.shape.clear_eq]
      exact DepthBuffer.SameShape.foldl_cover ⟨rfl, rfl⟩ _
    refine ⟨?_, ?_, fun corners f hf => ?_⟩
    · rw [hshape.size_eq, ← hcount, DepthBuffer.empty, Array.size_replicate]
    · rw [size_foldl_brush, ← hcount]
      exact Array.size_replicate
    · obtain ⟨hx, hy⟩ := hwithin corners f hf
      have hindex : (taken.foldl brush blank).1.indexOf f.x f.y =
          f.y.toNat * v.width.toNat + f.x.toNat := by
        rw [hshape.indexOf_eq]
        exact toNat_cellIndex hx hy hfits.le
      exact ⟨hindex, hindex ▸ DistanceField.cell_lt hx hy⟩
  · refine DistanceField.isSome_get? threshold ?_ hx hy
    rwa [hwidth, hheight]

/-- A polygon with a corner outside of every image, one infinitely far away and one that is
nowhere. -/
def astray : List (ScreenVertex Float32) :=
  [⟨-1.0, 2.0, 1.0⟩, ⟨1e39, 7.0, 1.0⟩, ⟨4.0, 0.0 / 0.0, 1.0⟩]

/-- The usual configuration is accepted, and what is drawn with it is addressed within an image of
256 rows and columns. -/
theorem addresses_exact_usual :
    let v : Viewport Float32 := .usual
    let c := (ofView v).after [(.shaded, [sheet 1.0])]
    (SearchConfig.usual : SearchConfig Float32 Float).validate = .ok () ∧
    c.buffer.cells.size = 65536 ∧
    ∀ f ∈ ScreenVertex.outline v.width v.height astray,
      (c.draw .line [sheet 0.0]).2.buffer.indexOf f.x f.y < 65536 := by
  intro v c
  have hpixels : v.width.toNat * v.height.toNat = 65536 := by decide
  have hfits : v.width.toNat * v.height.toNat < 2 ^ 32 := by decide
  obtain ⟨hsize, hbuffer, -, -, hdrawn, -⟩ :=
    addresses_exact (β := Float) v [(.shaded, [sheet 1.0])] .line [sheet 0.0]
  refine ⟨rfl, (hsize.mpr hfits).trans hpixels, fun f hf => ?_⟩
  rw [← hpixels, hbuffer]
  exact ((hdrawn hfits (v.strokes [sheet 0.0])).2.2 _ f (List.mem_append_right _ hf)).2

/-- A configuration for images of `2 ^ 16` rows and columns. -/
def vast : SearchConfig Float32 Float :=
  { (SearchConfig.usual : SearchConfig Float32 Float) with view := ⟨65536, 65536, .usual⟩ }

/-- Such a configuration is accepted, but the number of its pixels wraps around: its buffer is
empty. -/
theorem vast_wraps_around :
    ¬∀ c : SearchConfig Float32 Float, c.validate = .ok () →
      (ofView c.view).buffer.cells.size = c.view.width.toNat * c.view.height.toNat := by
  intro h
  have haccepted : vast.validate = .ok () := rfl
  have hempty : (ofView vast.view).buffer.cells.size = 0 := Array.size_replicate
  exact absurd ((h vast haccepted).symm.trans hempty) (by decide)

end Canvas

end ShapeGrammar
