import Mathlib.Analysis.Convex.Combination
import Mathlib.Analysis.Convex.Segment
import ShapeGrammar.Operator.Apply
import ShapeGrammar.Proofs.Number.Real
import ShapeGrammar.Proofs.Shape.Faces

/-!
# The surface of a box

The sides of a box are laid out by frames of their own, each composed of a translation and turns by
one or two right angles. At real numbers these turns are exact, and what is drawn of a box can be
told from its corners alone. Main statement: `box_closed`.
-/
namespace ShapeGrammar

/-- A vector as a triple. -/
@[simps]
def Vec3.triple (α : Type) : Vec3 α ≃ α × α × α where
  toFun v := (v.x, v.y, v.z)
  invFun p := ⟨p.1, p.2.1, p.2.2⟩
  left_inv _ := rfl
  right_inv _ := rfl

/-! ## Corners -/

/-- A corner of a box: whether it is at the far end of each axis. -/
abbrev Corner : Type :=
  Vec3 Bool

namespace Corner

instance : Fintype Corner :=
  Fintype.ofEquiv _ (Vec3.triple Bool).symm

instance : LawfulBEq Corner where
  eq_of_beq := by
    intro c d
    revert c d
    decide
  rfl := by
    intro c
    revert c
    decide

def point (size : Vec3 ℝ) (c : Corner) : Vec3 ℝ :=
  ⟨if c.x then size.x else 0, if c.y then size.y else 0, if c.z then size.z else 0⟩

/-- Whether an edge of the box joins two corners: they differ along one axis. -/
def Adjacent (c d : Corner) : Prop :=
  (c.x != d.x).toNat + (c.y != d.y).toNat + (c.z != d.z).toNat = 1

instance (c d : Corner) : Decidable (Adjacent c d) :=
  inferInstanceAs (Decidable (_ = _))

theorem Adjacent.symm : ∀ {c d : Corner}, c.Adjacent d → d.Adjacent c := by
  decide

/-- In a box with some extent along every axis no two corners meet. -/
theorem point_injective {size : Vec3 ℝ} (hsize : ∀ axis, 0 < size.get axis) :
    Function.Injective (point size) := by
  have hend {extent : ℝ} (hextent : 0 < extent) :
      Function.Injective fun far : Bool => if far then extent else 0 :=
    Bool.injective_iff.mpr hextent.ne
  rintro ⟨x, y, z⟩ ⟨x', y', z'⟩ h
  obtain ⟨hx, hy, hz⟩ := Vec3.mk.inj h
  rw [Vec3.mk.injEq]
  exact ⟨hend (hsize .x) hx, hend (hsize .y) hy, hend (hsize .z) hz⟩

end Corner

/-! ## Sides by their corners -/

namespace Side

instance : Fintype Side where
  elems := Side.all.toFinset
  complete k := by cases k <;> decide

/-- The axis that a side stands across. -/
def axis : Side → Axis
  | .front | .back => .y
  | .left | .right => .x
  | .top | .bottom => .z

/-- Whether the side is at the far end of its axis. -/
def isFar : Side → Bool
  | .back | .right | .top => true
  | .front | .left | .bottom => false

/-- The corners of a side, counter-clockwise for someone who looks at it from outside. -/
def ring : Side → List Corner
  | .front => [⟨false, false, false⟩, ⟨true, false, false⟩, ⟨true, false, true⟩,
      ⟨false, false, true⟩]
  | .right => [⟨true, false, false⟩, ⟨true, true, false⟩, ⟨true, true, true⟩,
      ⟨true, false, true⟩]
  | .back => [⟨true, true, false⟩, ⟨false, true, false⟩, ⟨false, true, true⟩,
      ⟨true, true, true⟩]
  | .left => [⟨false, true, false⟩, ⟨false, false, false⟩, ⟨false, false, true⟩,
      ⟨false, true, true⟩]
  | .top => [⟨false, false, true⟩, ⟨true, false, true⟩, ⟨true, true, true⟩,
      ⟨false, true, true⟩]
  | .bottom => [⟨false, true, false⟩, ⟨true, true, false⟩, ⟨true, false, false⟩,
      ⟨false, false, false⟩]

/-- The edges of a side, each from corner to corner. -/
def edges (k : Side) : List (Corner × Corner) :=
  k.ring.zip (k.ring.rotate 1)

theorem mem_ring_iff : ∀ (k : Side) (c : Corner), c ∈ k.ring ↔ c.get k.axis = k.isFar := by
  decide

theorem nodup_edges : ∀ k : Side, k.edges.Nodup := by
  decide

theorem adjacent_of_mem_edges : ∀ k : Side, ∀ e ∈ k.edges, e.1.Adjacent e.2 := by
  decide

/-- Every edge of the box, in either direction, belongs to exactly one side. -/
theorem exists_side_of_adjacent :
    ∀ c d : Corner, c.Adjacent d → ∃ k : Side, ∀ j : Side, (c, d) ∈ j.edges ↔ j = k := by
  decide +kernel

theorem swap_notMem_edges : ∀ k : Side, ∀ e ∈ k.edges, e.swap ∉ k.edges := by
  decide

/-! ## What a side takes up -/

/-- Where a side stands on its axis. -/
def level (size : Vec3 ℝ) (k : Side) : ℝ :=
  if k.isFar then size.get k.axis else 0

/-- What a side takes of an axis. -/
def range (size : Vec3 ℝ) (k : Side) (axis : Axis) : Set ℝ :=
  if axis = k.axis then {k.level size} else Set.Icc 0 (size.get axis)

/-- The points of a side. -/
def region (size : Vec3 ℝ) (k : Side) : Set (ℝ × ℝ × ℝ) :=
  k.range size .x ×ˢ k.range size .y ×ˢ k.range size .z

/-- The unit vector that points out of a box through a side. -/
def outward (k : Side) : Vec3 ℝ :=
  Vec3.set ⟨0, 0, 0⟩ k.axis (if k.isFar then 1 else -1)

/-- The ends of an axis that corners of a side are at. -/
def ends (size : Vec3 ℝ) (k : Side) (axis : Axis) : Set ℝ :=
  (fun far => if far then size.get axis else 0) '' {far | axis = k.axis → far = k.isFar}

variable {size : Vec3 ℝ}

theorem image_ring (size : Vec3 ℝ) (k : Side) :
    Vec3.triple ℝ '' {v | v ∈ k.ring.map (Corner.point size)} =
      k.ends size .x ×ˢ k.ends size .y ×ˢ k.ends size .z := by
  ext p
  constructor
  · rintro ⟨_, hv, rfl⟩
    obtain ⟨c, hc, rfl⟩ := List.mem_map.mp hv
    have hfar (axis : Axis) (h : axis = k.axis) : c.get axis = k.isFar :=
      h ▸ (mem_ring_iff k c).mp hc
    exact ⟨⟨c.x, hfar .x, rfl⟩, ⟨c.y, hfar .y, rfl⟩, ⟨c.z, hfar .z, rfl⟩⟩
  · rintro ⟨⟨x, hx, hx'⟩, ⟨y, hy, hy'⟩, ⟨z, hz, hz'⟩⟩
    have hmem : (⟨x, y, z⟩ : Corner) ∈ k.ring := by
      rw [mem_ring_iff]
      cases hk : k.axis with
      | x => exact hx hk.symm
      | y => exact hy hk.symm
      | z => exact hz hk.symm
    refine ⟨_, List.mem_map_of_mem hmem, ?_⟩
    exact Prod.ext hx' (Prod.ext hy' hz')

theorem convexHull_ends (hsize : ∀ axis, 0 < size.get axis) (k : Side) (axis : Axis) :
    convexHull ℝ (k.ends size axis) = k.range size axis := by
  unfold ends range
  by_cases haxis : axis = k.axis
  · have hone : {far | axis = k.axis → far = k.isFar} = {k.isFar} := by simp [haxis]
    rw [hone, Set.image_singleton, convexHull_singleton, if_pos haxis, level, haxis]
  · have hboth : {far | axis = k.axis → far = k.isFar} = {false, true} := by
      ext far
      simp [haxis]
    rw [hboth, Set.image_pair, convexHull_pair, if_neg haxis]
    exact segment_eq_Icc (hsize axis).le

/-- What lies between the corners of a side is the side. -/
theorem convexHull_ring (hsize : ∀ axis, 0 < size.get axis) (k : Side) :
    convexHull ℝ (Vec3.triple ℝ '' {v | v ∈ k.ring.map (Corner.point size)}) = k.region size := by
  rw [image_ring, convexHull_prod, convexHull_prod]
  simp only [convexHull_ends hsize, region]

theorem get_point_of_mem_ring (size : Vec3 ℝ) (k : Side) {c : Corner} (hc : c ∈ k.ring) :
    (c.point size).get k.axis = k.level size := by
  have hfar := (mem_ring_iff k c).mp hc
  rw [level, ← hfar]
  cases k.axis <;> rfl

end Side

/-! ## Faces -/

/-- The edges of a face, each from vertex to vertex. -/
def Face.edges {α : Type} (f : Face α) : List (Vec3 α × Vec3 α) :=
  f.vertices.zip (f.vertices.rotate 1)

/-- A face that is a side of a box: it lies in the plane of the side and takes up all of it and
nothing else, its normal points out of the box, and going round its vertices one turns about the
normal at each of them. -/
structure Face.Covers (f : Face ℝ) (size : Vec3 ℝ) (k : Side) : Prop where
  plane : ∀ v ∈ f.vertices, v.get k.axis = k.level size
  region : convexHull ℝ (Vec3.triple ℝ '' {v | v ∈ f.vertices}) = k.region size
  normal : f.normal = k.outward
  winding : ∀ t ∈ f.edges.zip (f.edges.rotate 1), ∃ area > 0,
    (t.1.2.sub t.1.1).cross (t.2.2.sub t.2.1) = f.normal.map (area * ·)

namespace Side

/-- The quad between the corners of a side. -/
def face (size color : Vec3 ℝ) (k : Side) : Face ℝ :=
  ⟨k.ring.map (Corner.point size), k.outward, color⟩

variable {size : Vec3 ℝ}

theorem edges_face (size color : Vec3 ℝ) (k : Side) :
    (k.face size color).edges = k.edges.map (Prod.map (Corner.point size) (Corner.point size)) := by
  rw [face, Face.edges, edges, ← List.map_rotate, List.zip_map]

theorem mem_edges_face_iff (hsize : ∀ axis, 0 < size.get axis) (color : Vec3 ℝ) (k : Side)
    (c d : Corner) : (c.point size, d.point size) ∈ (k.face size color).edges ↔
      (c, d) ∈ k.edges := by
  have hinjective := Corner.point_injective hsize
  rw [edges_face]
  exact List.mem_map_of_injective (a := (c, d)) (hinjective.prodMap hinjective)

theorem covers_face (hsize : ∀ axis, 0 < size.get axis) (color : Vec3 ℝ) (k : Side) :
    (k.face size color).Covers size k where
  plane := by
    intro v hv
    obtain ⟨c, hc, rfl⟩ := List.mem_map.mp hv
    exact get_point_of_mem_ring size k hc
  region := convexHull_ring hsize k
  normal := rfl
  winding := by
    have hx : 0 < size.x := hsize .x
    have hy : 0 < size.y := hsize .y
    have hz : 0 < size.z := hsize .z
    -- all four turns of a side span its whole area
    intro t ht
    refine ⟨(k.extent size).x * (k.extent size).y, ?_, ?_⟩
    · cases k <;> simp only [extent] <;> positivity
    · revert t
      cases k <;>
        simp [face, Face.edges, ring, outward, axis, isFar, extent, Corner.point, Vec3.sub,
          Vec3.cross, Vec3.map, Vec3.set, mul_comm]

end Side

/-! ## Frames at right angles -/

namespace Elementary

theorem quarterTurn_eq : (quarterTurn : ℝ) = Real.pi / 2 := by
  have htwo : (2.0 : ℝ) = 2 := by norm_num
  unfold quarterTurn
  rw [htwo]
  rfl

theorem sin_quarterTurn : sin (quarterTurn : ℝ) = 1 := by
  rw [quarterTurn_eq]
  exact Real.sin_pi_div_two

theorem cos_quarterTurn : cos (quarterTurn : ℝ) = 0 := by
  rw [quarterTurn_eq]
  exact Real.cos_pi_div_two

theorem sin_neg_quarterTurn : sin (-quarterTurn : ℝ) = -1 :=
  (Real.sin_neg _).trans (congrArg _ sin_quarterTurn)

theorem cos_neg_quarterTurn : cos (-quarterTurn : ℝ) = 0 :=
  (Real.cos_neg _).trans cos_quarterTurn

theorem sin_halfTurn : sin (halfTurn : ℝ) = 0 :=
  Real.sin_pi

theorem cos_halfTurn : cos (halfTurn : ℝ) = -1 :=
  Real.cos_pi

end Elementary

namespace Shape

variable {name : String} {size color : Vec3 ℝ}

/-- A box that is neither moved nor turned. -/
noncomputable def box (name : String) (size color : Vec3 ℝ) : Shape ℝ :=
  ⟨name, .identity, size, color⟩

open Elementary in
/-- The frame of a side takes the corners of its rectangle to those of the side, one by one. -/
theorem quad_side_box (hsize : ∀ axis, 0 < size.get axis) (k : Side) (sideName : String) :
    ((box name size color).side k sideName).quad = [k.face size color] := by
  have hx : 0 < size.x := hsize .x
  have hy : 0 < size.y := hsize .y
  have hz : 0 < size.z := hsize .z
  have hlong : ¬(1 : ℝ) ≤ 1.1920928955078125e-7 := by norm_num
  have hsqrt : sqrt (1 : ℝ) = 1 := Real.sqrt_one
  cases k <;>
    simp [quad, side, box, corners, Side.face, Side.frame, Side.extent, Side.ring, Side.outward,
      Side.axis, Side.isFar, Corner.point, Matrix.place, Matrix.direct, Matrix.mul, Matrix.apply,
      Matrix.identity, Matrix.translation, Matrix.rotationX, Matrix.rotationZ, Vec3.normalize,
      Vec3.dot, Vec3.set, sin_quarterTurn, cos_quarterTurn, sin_neg_quarterTurn,
      cos_neg_quarterTurn, sin_halfTurn, cos_halfTurn, Scalar.zero_real, Scalar.one_real, hlong,
      hsqrt, hx, hy, hz]

theorem isBox_box (hsize : ∀ axis, 0 < size.get axis) : (box name size color).isBox = true := by
  rw [isBox, Scalar.zero_real]
  exact decide_eq_true (hsize .z)

theorem faces_box (hsize : ∀ axis, 0 < size.get axis) :
    (box name size color).faces = Side.all.map (Side.face size color) := by
  simp [faces, isBox_box hsize, quad_side_box hsize, Side.all]

theorem faces_side_box (hsize : ∀ axis, 0 < size.get axis) (k : Side) (sideName : String) :
    ((box name size color).side k sideName).faces = [k.face size color] := by
  rw [faces, isBox_side, if_neg Bool.false_ne_true, quad_side_box hsize]

open Elementary in
/-- Up on an upright side is up on the box. -/
theorem direct_side_box {k : Side} (hupright : k.isUpright = true) (sideName : String) :
    ((box name size color).side k sideName).transform.direct ⟨0, 1, 0⟩ = ⟨0, 0, 1⟩ := by
  cases k <;> cases hupright <;>
    simp [side, box, Side.frame, Matrix.direct, Matrix.mul, Matrix.apply, Matrix.identity,
      Matrix.translation, Matrix.rotationX, Matrix.rotationZ, sin_quarterTurn, cos_quarterTurn,
      Scalar.zero_real, Scalar.one_real]

theorem size_side_y {k : Side} (hupright : k.isUpright = true) (s : Shape ℝ) (sideName : String) :
    (s.side k sideName).size.y = s.size.z := by
  cases k <;> cases hupright <;> rfl

theorem apply_decompose_box (hsize : ∀ axis, 0 < size.get axis) (values : String → Option ℝ)
    (names : SideNames) :
    (Operator.decompose names).apply values (box name size color) =
      .ok ⟨Side.all.filterMap fun k => ((names.name k).filter (· ≠ discardName)).map
        ((box name size color).side k), none⟩ := by
  rw [Operator.apply, Operator.effect, if_pos (isBox_box hsize)]
  rfl

/-- What is drawn of a box is closed and faces outward. Its six quads cover its sides and face out;
each of its edges, in either direction, belongs to exactly one of them, and the two directions of an
edge to different ones; on the upright sides local y is the height of the box. Taking the box apart
makes shapes of its sides, of which the same quads are drawn. -/
theorem box_closed (name : String) (size color : Vec3 ℝ) (hsize : ∀ axis, 0 < size.get axis) :
    ∃ quad : Side → Face ℝ,
      (box name size color).faces = Side.all.map quad ∧
      (∀ k, (quad k).Covers size k) ∧
      (∀ k, (quad k).edges.Nodup ∧ ∀ e ∈ (quad k).edges,
        ∃ c d : Corner, c.Adjacent d ∧ e = (c.point size, d.point size)) ∧
      (∀ c d : Corner, c.Adjacent d → ∃ k k' : Side, k ≠ k' ∧
        (∀ j, (c.point size, d.point size) ∈ (quad j).edges ↔ j = k) ∧
        ∀ j, (d.point size, c.point size) ∈ (quad j).edges ↔ j = k') ∧
      (∀ k sideName, ((box name size color).side k sideName).faces = [quad k] ∧
        (k.isUpright = true →
          ((box name size color).side k sideName).size.y = size.z ∧
          ((box name size color).side k sideName).transform.direct ⟨0, 1, 0⟩ = ⟨0, 0, 1⟩)) ∧
      ∀ values names, (Operator.decompose names).apply values (box name size color) =
        .ok ⟨Side.all.filterMap fun k => ((names.name k).filter (· ≠ discardName)).map
          ((box name size color).side k), none⟩ := by
  refine ⟨Side.face size color, faces_box hsize, Side.covers_face hsize color, fun k => ⟨?_, ?_⟩,
    fun c d hadjacent => ?_, fun k sideName => ⟨faces_side_box hsize k sideName, fun hupright =>
      ⟨size_side_y hupright _ sideName, direct_side_box hupright sideName⟩⟩,
    apply_decompose_box hsize⟩
  · have hinjective := Corner.point_injective hsize
    rw [Side.edges_face]
    exact k.nodup_edges.map (hinjective.prodMap hinjective)
  · intro e he
    rw [Side.edges_face] at he
    obtain ⟨⟨c, d⟩, hmem, rfl⟩ := List.mem_map.mp he
    exact ⟨c, d, k.adjacent_of_mem_edges _ hmem, rfl⟩
  · simp only [Side.mem_edges_face_iff hsize]
    obtain ⟨k, hk⟩ := Side.exists_side_of_adjacent c d hadjacent
    obtain ⟨k', hk'⟩ := Side.exists_side_of_adjacent d c hadjacent.symm
    refine ⟨k, k', ?_, hk, hk'⟩
    rintro rfl
    exact k.swap_notMem_edges _ ((hk k).mpr rfl) ((hk' k).mpr rfl)

/-- The back of a block of two by three by four stands at three, faces along y and is four high. -/
theorem box_closed_block :
    (∀ axis, 0 < (⟨2, 3, 4⟩ : Vec3 ℝ).get axis) ∧
    ∃ quad : Side → Face ℝ,
      (box "Block" ⟨2, 3, 4⟩ .ones).faces = Side.all.map quad ∧
      (quad .back).normal = ⟨0, 1, 0⟩ ∧
      convexHull ℝ (Vec3.triple ℝ '' {v | v ∈ (quad .back).vertices}) =
        Set.Icc 0 2 ×ˢ {3} ×ˢ Set.Icc 0 4 ∧
      ((box "Block" ⟨2, 3, 4⟩ .ones).side .back "Rear").size.y = 4 := by
  have hsize : ∀ axis, 0 < (⟨2, 3, 4⟩ : Vec3 ℝ).get axis := by
    intro axis
    cases axis <;> norm_num [Vec3.get]
  obtain ⟨quad, hfaces, hcovers, -, -, hsides, -⟩ := box_closed "Block" ⟨2, 3, 4⟩ .ones hsize
  refine ⟨hsize, quad, hfaces, ?_, ?_, ((hsides .back "Rear").2 rfl).1⟩
  · exact (hcovers .back).normal
  · exact (hcovers .back).region

end Shape

end ShapeGrammar
