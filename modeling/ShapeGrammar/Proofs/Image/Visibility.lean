import Mathlib.Data.List.Basic
import Mathlib.Data.List.Induction
import ShapeGrammar.Image.Drawing
import ShapeGrammar.Proofs.Number.Comparison

/-!
# What hides what

A buffer takes in one fragment after the other, and a fragment is kept if it is nearer than the one
that was kept before. In the end each cell holds the greatest nearness at its pixel, whatever the
order was, and an outline shows where it is not far behind that. Main statement:
`draw_line_eq_of_mem_iff`, that a line drawing depends on nothing but which faces there are.
-/
namespace ShapeGrammar

namespace DepthBuffer

variable {α : Type} {b b' b'' : DepthBuffer α} {fragments fragments' : List (Fragment α)}

/-- Buffers for the same image. -/
structure SameShape (b b' : DepthBuffer α) : Prop where
  width_eq : b.width = b'.width
  size_eq : b.cells.size = b'.cells.size

theorem SameShape.symm (h : b.SameShape b') : b'.SameShape b :=
  ⟨h.width_eq.symm, h.size_eq.symm⟩

theorem SameShape.trans (h : b.SameShape b') (h' : b'.SameShape b'') :
    b.SameShape b'' :=
  ⟨h.width_eq.trans h'.width_eq, h.size_eq.trans h'.size_eq⟩

theorem SameShape.indexOf_eq (h : b.SameShape b') (x y : UInt32) :
    b.indexOf x y = b'.indexOf x y := by
  rw [indexOf, h.width_eq, indexOf]

variable [Scalar α]

/-! ## One fragment after the other -/

/-- What a buffer holds at a place; zero beyond its end. -/
def nearest (b : DepthBuffer α) (i : Nat) : α :=
  b.cells[i]?.getD 0.0

theorem nearest_of_size_le {i : Nat} (hi : b.cells.size ≤ i) : b.nearest i = 0.0 := by
  rw [nearest, Array.getElem?_eq_none hi, Option.getD_none]

@[simp] theorem width_cover (b : DepthBuffer α) (f : Fragment α) : (b.cover f).width = b.width := by
  unfold cover
  split <;> rfl

@[simp] theorem size_cover (b : DepthBuffer α) (f : Fragment α) :
    (b.cover f).cells.size = b.cells.size := by
  unfold cover
  split
  · exact Array.size_setIfInBounds
  · rfl

@[simp] theorem indexOf_cover (b : DepthBuffer α) (f : Fragment α) (x y : UInt32) :
    (b.cover f).indexOf x y = b.indexOf x y := by
  rw [indexOf, width_cover, indexOf]

/-- A fragment that hides what was there takes its place. -/
theorem nearest_cover (b : DepthBuffer α) (f : Fragment α) {i : Nat} (hi : i < b.cells.size) :
    (b.cover f).nearest i =
      if b.indexOf f.x f.y = i ∧ b.nearest i < f.nearness then f.nearness else b.nearest i := by
  by_cases hindex : b.indexOf f.x f.y = i
  · subst hindex
    have hhides : b.isHiding f = decide (b.nearest (b.indexOf f.x f.y) < f.nearness) := rfl
    rw [cover, hhides]
    split_ifs <;> simp_all [nearest]
  · rw [if_neg fun h => hindex h.1, cover]
    split
    · simp [nearest, Array.getElem?_setIfInBounds_ne hindex]
    · rfl

/-- What a buffer holds that has taken in some fragments: nothing less than the nearness of any of
them at its pixel, and nothing but zero or what one of them has that lies above zero. -/
structure Holds (b : DepthBuffer α) (fragments : List (Fragment α)) : Prop where
  not_lt : ∀ f ∈ fragments, b.indexOf f.x f.y < b.cells.size →
    ¬b.nearest (b.indexOf f.x f.y) < f.nearness
  source : ∀ i < b.cells.size, b.nearest i = 0.0 ∨
    ∃ f ∈ fragments, b.indexOf f.x f.y = i ∧ 0.0 < f.nearness ∧ b.nearest i = f.nearness

theorem Holds.cover (h : b.Holds fragments) (f : Fragment α) :
    (b.cover f).Holds (fragments ++ [f]) := by
  constructor
  · intro g hg hi
    rw [size_cover, indexOf_cover] at hi
    rw [indexOf_cover, nearest_cover b f hi]
    rcases List.mem_append.mp hg with hg | hg
    · split_ifs with hhides
      -- what a nearer fragment has taken the place of was no less than `g` already
      · exact fun hless => h.not_lt g hg hi (Scalar.lt_trans hhides.2 hless)
      · exact h.not_lt g hg hi
    · rw [List.mem_singleton.mp hg] at hi ⊢
      split_ifs with hhides
      · exact Scalar.lt_irrefl _
      · exact fun hless => hhides ⟨rfl, hless⟩
  · intro i hi
    rw [size_cover] at hi
    simp only [indexOf_cover, nearest_cover b f hi]
    have hold := h.source i hi
    split_ifs with hhides
    · refine .inr ⟨f, by simp, hhides.1, ?_, rfl⟩
      rcases hold with hzero | ⟨g, _, _, hpos, heq⟩
      · exact hzero ▸ hhides.2
      · exact Scalar.lt_trans hpos (heq ▸ hhides.2)
    · exact hold.imp_right fun ⟨g, hg, hrest⟩ => ⟨g, List.mem_append_left _ hg, hrest⟩

theorem holds_empty (width height : UInt32) : (empty width height : DepthBuffer α).Holds [] where
  not_lt := by simp
  source := by
    intro i hi
    left
    rw [nearest, Array.getElem?_eq_getElem hi, Option.getD_some]
    exact Array.getElem_replicate hi

/-- A buffer that was empty at first holds what it has taken in. -/
theorem holds_foldl_cover (width height : UInt32) (fragments : List (Fragment α)) :
    (fragments.foldl cover (.empty width height)).Holds fragments := by
  induction fragments using List.reverseRecOn with
  | nil => exact holds_empty width height
  | append_singleton rest f ih =>
    rw [List.foldl_append]
    exact ih.cover f

theorem Holds.eq_zero_or_pos (h : b.Holds fragments) (i : Nat) :
    b.nearest i = 0.0 ∨ 0.0 < b.nearest i := by
  rcases Nat.lt_or_ge i b.cells.size with hi | hi
  · exact (h.source i hi).imp_right fun ⟨f, _, _, hpos, heq⟩ => heq ▸ hpos
  · exact .inl (nearest_of_size_le hi)

/-! ## Whatever the order -/

theorem SameShape.foldl_cover (h : b.SameShape b') (fragments : List (Fragment α)) :
    (fragments.foldl DepthBuffer.cover b).SameShape b' := by
  induction fragments generalizing b with
  | nil => exact h
  | cons f rest ih =>
    exact ih ⟨by rw [width_cover, h.width_eq], by rw [size_cover, h.size_eq]⟩

theorem SameShape.clear_eq {width height : UInt32} (h : b.SameShape (.empty width height)) :
    b.clear = .empty width height := by
  obtain ⟨hwidth, hsize⟩ := h
  rw [clear, hwidth, hsize, empty, Array.size_replicate]

/-- A buffer holds nowhere less than another one that has taken in none but its fragments. -/
theorem Holds.nearest_not_lt (h : b.Holds fragments) (h' : b'.Holds fragments')
    (hmem : ∀ f ∈ fragments', f ∈ fragments) (hshape : b.SameShape b') (i : Nat) :
    ¬b.nearest i < b'.nearest i := by
  rcases Nat.lt_or_ge i b.cells.size with hi | hi
  · rcases h'.source i (hshape.size_eq ▸ hi) with hzero | ⟨f, hf, rfl, _, heq⟩
    · rw [hzero]
      rcases h.eq_zero_or_pos i with hzero' | hpos
      · rw [hzero']
        exact Scalar.lt_irrefl _
      · exact fun hless => Scalar.lt_irrefl _ (Scalar.lt_trans hpos hless)
    · rw [heq]
      rw [← hshape.indexOf_eq] at hi ⊢
      exact h.not_lt f (hmem f hf) hi
  · rw [nearest_of_size_le hi, nearest_of_size_le (hshape.size_eq ▸ hi)]
    exact Scalar.lt_irrefl _

/-- Buffers that have taken in the same fragments let the same outlines show. -/
theorem Holds.shows_eq [Scalar.LawfulLe α] (h : b.Holds fragments) (h' : b'.Holds fragments')
    (hmem : ∀ f, f ∈ fragments ↔ f ∈ fragments') (hshape : b.SameShape b') :
    b.shows = b'.shows := by
  have hsame (i : Nat) (z : α) : b.nearest i ≤ z ↔ b'.nearest i ≤ z := by
    have hless := h.nearest_not_lt h' (fun f => (hmem f).mpr) hshape i
    have hmore := h'.nearest_not_lt h (fun f => (hmem f).mp) hshape.symm i
    -- it is not asked that the values have the same bits, only that they compare alike
    rcases h.eq_zero_or_pos i with hzero | hpos <;> rcases h'.eq_zero_or_pos i with hzero' | hpos'
    · rw [hzero, hzero']
    · exact absurd (hzero ▸ hpos') hless
    · exact absurd (hzero' ▸ hpos) hmore
    · have hself := (Scalar.beq_self_of_lt hpos).2
      have hself' := (Scalar.beq_self_of_lt hpos').2
      exact Scalar.le_iff_of_not_lt hself hself' hless hmore
  funext f
  have hat : b.nearnessAt f.x f.y ≤ f.nearness * (1.0 + 0.001) ↔
      b'.nearnessAt f.x f.y ≤ f.nearness * (1.0 + 0.001) := by
    rw [nearnessAt, nearnessAt, ← hshape.indexOf_eq]
    exact hsame (b.indexOf f.x f.y) _
  exact decide_eq_decide.mpr hat

/-- What shows depends on which fragments there are, not on their order. -/
theorem shows_foldl_cover [Scalar.LawfulLe α] (width height : UInt32)
    (hmem : ∀ f, f ∈ fragments ↔ f ∈ fragments') :
    (fragments.foldl cover (.empty width height)).shows =
      (fragments'.foldl cover (.empty width height)).shows := by
  have hshape (taken : List (Fragment α)) :
      (taken.foldl cover (.empty width height)).SameShape (.empty width height) :=
    SameShape.foldl_cover ⟨rfl, rfl⟩ taken
  exact (holds_foldl_cover width height fragments).shows_eq
    (holds_foldl_cover width height fragments') hmem
    ((hshape fragments).trans (hshape fragments').symm)

end DepthBuffer

/-! ## Images -/

namespace GrayImage

theorem eq_of_pixels {a b : GrayImage} (hwidth : a.width = b.width) (hheight : a.height = b.height)
    (hpixels : ∀ k : Nat, a.pixels[k]? = b.pixels[k]?) : a = b := by
  obtain ⟨_, _, pixels, _⟩ := a
  obtain ⟨_, _, pixels', _⟩ := b
  obtain rfl : pixels = pixels' := Array.ext_getElem? hpixels
  cases hwidth
  cases hheight
  rfl

variable {α : Type}

/-- Blackens the pixel of a fragment if it shows. -/
def mark (shows : Fragment α → Bool) (image : GrayImage) (f : Fragment α) : GrayImage :=
  if shows f then image.set f.x.toNat f.y.toNat 0 else image

/-- Where the pixel of a fragment is. -/
def placeOf (image : GrayImage) (f : Fragment α) : Nat :=
  f.y.toNat * image.width.toNat + f.x.toNat

section Mark

variable (shows : Fragment α → Bool) (image : GrayImage) (f : Fragment α)

@[simp] theorem width_mark : (image.mark shows f).width = image.width := by
  unfold mark
  split <;> rfl

@[simp] theorem height_mark : (image.mark shows f).height = image.height := by
  unfold mark
  split <;> rfl

theorem pixels_mark (k : Nat) : (image.mark shows f).pixels[k]? =
    if shows f = true ∧ image.placeOf f = k then image.pixels[k]?.map fun _ => 0
    else image.pixels[k]? := by
  unfold mark
  by_cases hshows : shows f = true
  · rw [if_pos hshows]
    by_cases hplace : image.placeOf f = k
    · rw [if_pos ⟨hshows, hplace⟩, ← hplace]
      refine Array.getElem?_setIfInBounds_self.trans ?_
      rw [getElem?_def, apply_dite (Option.map _)]
      rfl
    · rw [if_neg fun h => hplace h.2]
      exact Array.getElem?_setIfInBounds_ne hplace
  · rw [if_neg hshows, if_neg fun h => hshows h.1]

end Mark

/-- A pixel is black in the end if a fragment shows there, and as it was otherwise. -/
structure Marked (shows : Fragment α → Bool) (fragments : List (Fragment α))
    (image marked : GrayImage) : Prop where
  width_eq : marked.width = image.width
  height_eq : marked.height = image.height
  black : ∀ k : Nat, (∃ f ∈ fragments, shows f = true ∧ image.placeOf f = k) →
    marked.pixels[k]? = image.pixels[k]?.map fun _ => 0
  kept : ∀ k : Nat, (∀ f ∈ fragments, ¬(shows f = true ∧ image.placeOf f = k)) →
    marked.pixels[k]? = image.pixels[k]?

variable {shows : Fragment α → Bool} {fragments fragments' : List (Fragment α)}
  {image marked marked' : GrayImage}

theorem Marked.concat (h : Marked shows fragments image marked) (f : Fragment α) :
    Marked shows (fragments ++ [f]) image (marked.mark shows f) := by
  have hplace : marked.placeOf f = image.placeOf f := by
    rw [placeOf, h.width_eq, placeOf]
  refine ⟨(width_mark shows marked f).trans h.width_eq,
    (height_mark shows marked f).trans h.height_eq, fun k hblack => ?_, fun k hnone => ?_⟩
  · rw [pixels_mark, hplace]
    by_cases hbefore : ∃ g ∈ fragments, shows g = true ∧ image.placeOf g = k
    · rw [h.black k hbefore, Option.map_map]
      exact ite_self _
    · obtain ⟨g, hg, hmarks⟩ := hblack
      rcases List.mem_append.mp hg with hg | hg
      · exact absurd ⟨g, hg, hmarks⟩ hbefore
      · rw [List.mem_singleton.mp hg] at hmarks
        rw [if_pos hmarks, h.kept k fun g hg hmarks => hbefore ⟨g, hg, hmarks⟩]
  · rw [pixels_mark, hplace, if_neg (hnone f (by simp))]
    exact h.kept k fun g hg => hnone g (List.mem_append_left _ hg)

theorem marked_foldl (shows : Fragment α → Bool) (fragments : List (Fragment α))
    (image : GrayImage) : Marked shows fragments image (fragments.foldl (mark shows) image) := by
  induction fragments using List.reverseRecOn with
  | nil => exact ⟨rfl, rfl, by simp, fun _ _ => rfl⟩
  | append_singleton rest f ih =>
    rw [List.foldl_append]
    exact ih.concat f

/-- The order in which pixels are blackened does not matter, nor that some are blackened again. -/
theorem Marked.congr (h : Marked shows fragments image marked)
    (h' : Marked shows fragments' image marked') (hmem : ∀ f, f ∈ fragments ↔ f ∈ fragments') :
    marked = marked' := by
  refine eq_of_pixels (h.width_eq.trans h'.width_eq.symm) (h.height_eq.trans h'.height_eq.symm)
    fun k => ?_
  by_cases hblack : ∃ f ∈ fragments, shows f = true ∧ image.placeOf f = k
  · obtain ⟨f, hf, hmarks⟩ := hblack
    rw [h.black k ⟨f, hf, hmarks⟩, h'.black k ⟨f, (hmem f).mp hf, hmarks⟩]
  · have hnone (f : Fragment α) (hf : f ∈ fragments) :
        ¬(shows f = true ∧ image.placeOf f = k) := fun hmarks => hblack ⟨f, hf, hmarks⟩
    rw [h.kept k hnone, h'.kept k fun f hf => hnone f ((hmem f).mpr hf)]

end GrayImage

/-! ## Views -/

namespace Viewport

variable {α : Type} [Elementary α] {v : Viewport α} {faces faces' : List (Face α)}

/-- What is made of the corners of all faces that are in front of the camera. -/
def fragments (v : Viewport α) (make : List (ScreenVertex α) → List (Fragment α))
    (faces : List (Face α)) : List (Fragment α) :=
  ((v.projected faces).map Prod.snd).flatMap make

theorem mem_fragments_iff {make : List (ScreenVertex α) → List (Fragment α)} {f : Fragment α} :
    f ∈ v.fragments make faces ↔
      ∃ face ∈ faces, ∃ corners, v.project face = some corners ∧ f ∈ make corners := by
  simp only [fragments, projected, List.mem_flatMap, List.mem_map, List.mem_filterMap,
    Option.map_eq_some_iff]
  constructor
  · rintro ⟨_, ⟨_, ⟨face, hface, corners, hcorners, rfl⟩, rfl⟩, hf⟩
    exact ⟨face, hface, corners, hcorners, hf⟩
  · rintro ⟨face, hface, corners, hcorners, hf⟩
    exact ⟨corners, ⟨_, ⟨face, hface, corners, hcorners, rfl⟩, rfl⟩, hf⟩

/-- The fragments are those of the faces that there are. -/
theorem mem_fragments_congr (v : Viewport α) (h : ∀ face, face ∈ faces ↔ face ∈ faces')
    (make : List (ScreenVertex α) → List (Fragment α)) (f : Fragment α) :
    f ∈ v.fragments make faces ↔ f ∈ v.fragments make faces' := by
  simp only [mem_fragments_iff, h]

theorem depth_eq_foldl (v : Viewport α) (blank : DepthBuffer α) (faces : List (Face α)) :
    v.depth blank ((v.projected faces).map Prod.snd) =
      (v.fragments (ScreenVertex.polygon v.width v.height) faces).foldl DepthBuffer.cover blank := by
  rw [fragments, List.foldl_flatMap]
  rfl

theorem outlines_eq_foldl (v : Viewport α) (buffer : DepthBuffer α) (faces : List (Face α)) :
    v.outlines buffer ((v.projected faces).map Prod.snd) =
      (v.fragments (ScreenVertex.outline v.width v.height) faces).foldl
        (GrayImage.mark buffer.shows) (.filled v.width v.height 255) := by
  rw [fragments, List.foldl_flatMap]
  rfl

/-- A line drawing on a blank buffer depends on nothing but which faces there are. -/
theorem drawLines_congr [Scalar.LawfulLe α]
    (h : ∀ face, face ∈ faces ↔ face ∈ faces') :
    (v.drawLines (.empty v.width v.height) faces).1 =
      (v.drawLines (.empty v.width v.height) faces').1 := by
  have hshows := DepthBuffer.shows_foldl_cover v.width v.height
    (v.mem_fragments_congr h (ScreenVertex.polygon v.width v.height))
  simp only [drawLines, depth_eq_foldl, outlines_eq_foldl, hshows]
  exact (GrayImage.marked_foldl _ _ _).congr (GrayImage.marked_foldl _ _ _)
    (v.mem_fragments_congr h (ScreenVertex.outline v.width v.height))

theorem paint_fst (gray : UInt8) (painted : DepthBuffer α × Array UInt8) (f : Fragment α) :
    (paint gray painted f).1 = painted.1.cover f := by
  rw [paint]
  split
  · rfl
  next hhides => rw [DepthBuffer.cover, if_neg hhides]

theorem foldl_paint_fst (gray : UInt8) (fragments : List (Fragment α))
    (painted : DepthBuffer α × Array UInt8) :
    (fragments.foldl (paint gray) painted).1 = fragments.foldl DepthBuffer.cover painted.1 :=
  (List.foldl_hom Prod.fst fun painted f => (paint_fst gray painted f).symm).symm

/-- Filling faces leaves the buffer as drawing their outlines does. -/
theorem drawShaded_snd (v : Viewport α) (blank : DepthBuffer α) (faces : List (Face α)) :
    (v.drawShaded blank faces).2 = v.depth blank ((v.projected faces).map Prod.snd) := by
  rw [depth, List.foldl_map, drawShaded]
  dsimp only
  rw [← List.foldl_hom Prod.fst]
  · intro painted front
    exact (foldl_paint_fst (shade front.1) _ painted).symm

end Viewport

/-! ## One image after the other -/

namespace Canvas

variable {α : Type} [Elementary α]

/-- A canvas after some images have been drawn on it. -/
def after (c : Canvas α) (history : List (DrawMode × List (Face α))) : Canvas α :=
  history.foldl (fun c call => (c.draw call.1 call.2).2) c

/-- Both ways of drawing leave the same. -/
theorem draw_snd (c : Canvas α) (mode : DrawMode) (faces : List (Face α)) :
    (c.draw mode faces).2 = { c with
      buffer := c.view.depth c.buffer.clear ((c.view.projected faces).map Prod.snd) } := by
  cases mode with
  | line => rfl
  | shaded => rw [← c.view.drawShaded_snd]; rfl

/-- A canvas keeps its view and the size of its buffer. -/
structure Kept (v : Viewport α) (c : Canvas α) : Prop where
  view_eq : c.view = v
  shape : c.buffer.SameShape (.empty v.width v.height)

theorem Kept.draw {v : Viewport α} {c : Canvas α} (h : c.Kept v) (mode : DrawMode)
    (faces : List (Face α)) : (c.draw mode faces).2.Kept v := by
  obtain ⟨rfl, hshape⟩ := h
  rw [draw_snd, hshape.clear_eq, Viewport.depth_eq_foldl]
  exact ⟨rfl, DepthBuffer.SameShape.foldl_cover ⟨rfl, rfl⟩ _⟩

theorem Kept.after {v : Viewport α} {c : Canvas α} (h : c.Kept v)
    (history : List (DrawMode × List (Face α))) : (c.after history).Kept v := by
  induction history generalizing c with
  | nil => exact h
  | cons call rest ih => exact ih (h.draw call.1 call.2)

theorem kept_ofView (v : Viewport α) : (ofView v).Kept v :=
  ⟨rfl, rfl, rfl⟩

/-- A canvas blanks its buffer before it draws. -/
theorem Kept.draw_fst {v : Viewport α} {c : Canvas α} (h : c.Kept v) (mode : DrawMode)
    (faces : List (Face α)) :
    (c.draw mode faces).1 = match mode with
      | .line => (v.drawLines (.empty v.width v.height) faces).1
      | .shaded => (v.drawShaded (.empty v.width v.height) faces).1 := by
  obtain ⟨rfl, hshape⟩ := h
  cases mode with
  | line => rw [Canvas.draw, hshape.clear_eq]
  | shaded => rw [Canvas.draw, hshape.clear_eq]

/-- Nothing of what was drawn before is left. -/
theorem draw_after (v : Viewport α) (history : List (DrawMode × List (Face α))) (mode : DrawMode)
    (faces : List (Face α)) :
    (((ofView v).after history).draw mode faces).1 = v.draw mode faces := by
  rw [((kept_ofView v).after history).draw_fst, Viewport.draw, (kept_ofView v).draw_fst]

/-- A line drawing depends on nothing but which faces there are. For every view, whatever was drawn
on the canvas before and in whichever mode, and in whatever order the faces come and however often
each of them: the image is the same. -/
theorem draw_line_eq_of_mem_iff (v : Viewport Float32)
    (history history' : List (DrawMode × List (Face Float32))) {faces faces' : List (Face Float32)}
    (h : ∀ face, face ∈ faces ↔ face ∈ faces') :
    (((ofView v).after history).draw .line faces).1 =
      (((ofView v).after history').draw .line faces').1 := by
  rw [((kept_ofView v).after history).draw_fst, ((kept_ofView v).after history').draw_fst]
  exact Viewport.drawLines_congr h

/-- A triangle across the view, at some distance. -/
def sheet (z : Float32) : Face Float32 where
  vertices := [⟨-1.0, -1.0, z⟩, ⟨1.0, -1.0, z⟩, ⟨0.0, 1.0, z⟩]
  normal := ⟨0.0, 0.0, 1.0⟩
  color := Vec3.ones

/-- Two triangles of which one hides the other come out alike from front to back, and from back to
front with one of them twice and another image before. -/
theorem draw_line_sheets :
    (((ofView ⟨48, 48, .usual⟩).after []).draw .line [sheet 1.0, sheet 0.0]).1 =
      (((ofView ⟨48, 48, .usual⟩).after [(.shaded, [sheet 2.0])]).draw .line
        [sheet 0.0, sheet 1.0, sheet 0.0]).1 := by
  have hmem : ∀ face, face ∈ [sheet 1.0, sheet 0.0] ↔ face ∈ [sheet 0.0, sheet 1.0, sheet 0.0] := by
    intro face
    simp only [List.mem_cons, List.not_mem_nil, or_false]
    tauto
  exact draw_line_eq_of_mem_iff _ _ _ hmem

end Canvas

end ShapeGrammar
