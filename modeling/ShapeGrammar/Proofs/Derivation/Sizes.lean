import ShapeGrammar.Proofs.Derivation.Budget
import ShapeGrammar.Proofs.Derivation.Kept
import ShapeGrammar.Proofs.Expr.Blanks
import ShapeGrammar.Proofs.Number.Arithmetic
import ShapeGrammar.Proofs.Number.Comparison
import ShapeGrammar.Proofs.Shape.Faces

/-!
# Sizes of machine numbers

Expressions come to negative numbers, to infinities and to no number at all, and the products and
quotients that lengths are made of do so too. None of this gets into the size of a shape: an
operator cuts what it is given off at zero, or it keeps a part only if its length compares with
zero. Main statement: `sizes_after`.
-/
namespace ShapeGrammar

/-! ## Shapes of a property -/

section Kept

variable {α : Type} [Elementary α] {P : Shape α → Prop}

/-- The shapes that an effect hands on and those that it makes. -/
def Effect.All (P : Shape α → Prop) : Effect α → Prop
  | .continues next => P next
  | .ends made => ∀ s ∈ made.toList, P s

/-- A property that no operator takes from a shape, whatever its parameters come to. -/
def Operator.Keeps (P : Shape α → Prop) : Prop :=
  ∀ {values : String → Option α} {op : Operator α} {shape : Shape α} {e : Effect α},
    P shape → op.effect values shape = .ok e → e.All P

namespace Operator.Keeps

variable {values : String → Option α} {shape : Shape α}

theorem apply (h : Keeps P) {op : Operator α} {made : Yield α} (hshape : P shape)
    (happly : op.apply values shape = .ok made) :
    (∀ s ∈ made.emitted, P s) ∧ ∀ s ∈ made.current, P s := by
  obtain ⟨e, heffect, hmade⟩ := Expr.bind_eq_ok happly
  have hall := h hshape heffect
  cases e <;> cases hmade
  · exact ⟨by simp, by simpa [Effect.All] using hall⟩
  · exact ⟨hall, by simp⟩

theorem unlimited (h : Keeps P) {ops : List (Operator α)} {made : List (Shape α)}
    (hshape : P shape) (hmade : Growth.unlimited values ops shape = .ok made) :
    ∀ s ∈ made, P s := by
  induction ops generalizing shape with
  | nil =>
    cases hmade
    simpa using hshape
  | cons op rest ih =>
    unfold Growth.unlimited at hmade
    split at hmade
    · cases hmade
    next emitted next happly =>
      exact ih ((h.apply hshape happly).2 next rfl) hmade
    next emitted happly =>
      cases hmade
      exact (h.apply hshape happly).1

end Operator.Keeps

namespace Derivation

/-- What operators keep of a shape, every node of a derivation has. -/
theorem invariant_shapes (h : Operator.Keeps P) :
    Invariant (α := α) fun d => ∀ id n, d.tree.node? id = some n → P n.shape where
  toSteady := by
    refine .of_expand (fun {d popped id} hd taken => ?_) fun {d} id maxNodes hd j m hm => ?_
    · rw [(pop?_eq_some taken).1]
      exact hd
    have hset {status : Status} {m : Node α}
        (hm : (d.tree.setStatus id status).node? j = some m) : P m.shape := by
      obtain ⟨k, hk, rfl⟩ := Tree.node?_setStatus_eq_some.mp hm
      have := hd j k hk
      split <;> exact this
    cases hn : d.tree.node? id with
    | none =>
      simp only [Derivation.expand, hn] at hm
      exact hd j m hm
    | some n =>
      rcases expand_alternatives hn with
        ⟨_, he⟩ | ⟨rule, _, ⟨_, _, he⟩ | ⟨all, hall, he⟩⟩
      · rw [he] at hm
        exact hset hm
      · rw [he] at hm
        exact hset hm
      · rw [he] at hm
        have hn' : (d.tree.setStatus id .expanded).node? id = some { n with status := .expanded } :=
          Tree.node?_setStatus_eq_some.mpr ⟨n, hn, by simp⟩
        rcases Tree.node?_attach_cases _ hn' hm with ⟨k, hk, rfl⟩ | ⟨k, hk, _, rfl⟩
        · exact (hset hk : P k.shape)
        · have hmem := List.mem_of_mem_take (List.getElem_mem hk)
          exact h.unlimited (hd id n hn) hall _ (List.mem_map_of_mem hmem)
  fixChoices := fun _ _ hd => hd
  redraw := fun _ hd => hd
  copy := fun hd => hd

end Derivation

end Kept

/-! ## Guards of machine numbers -/

namespace Float32

open Scalar

theorem zero_le_positivePart (x : Float32) : 0.0 ≤ positivePart x := by
  unfold positivePart
  split
  next hx => exact le_of_lt hx
  next => decide +kernel

theorem isSelf_of_number {x : Float32} (h : x.toModel.unpack ≠ .notANumber) : (x == x) = true := by
  obtain ⟨place, hplace, _⟩ := placed h
  exact (LinePlace.beq_self_iff _).mpr ⟨place, hplace⟩

/-- A length is cut into equal parts that are not negative, if their number is that of a word. -/
theorem zero_le_div_natCast {total : Float32} (hfinite : total.isFinite = true)
    (hpos : 0.0 < total) {count : ℕ} (hcount : 0 < count) (hword : count < 2 ^ 64) :
    0.0 ≤ total / (count : Float32) := by
  have hnumber := number_of_isFinite toRat_zero.1
  have htotal : 0 < toRat total := by
    rwa [lt_iff hnumber (number_of_isFinite hfinite), toRat_zero.2] at hpos
  obtain ⟨hcountFinite, hrounded⟩ := (rounds_natCast count).of_le_largest (Nat.cast_nonneg count)
    (natCast_le_largest (by omega))
  have hone : 1 ≤ toRat (count : Float32) := by
    rw [hrounded, ← Nat.cast_one, ← round_natCast (by norm_num : 1 < 2 ^ 24)]
    exact BinaryFormat.single.round_mono (by exact_mod_cast hcount)
  have hquotient := rounds_div hfinite hcountFinite (by linarith)
  have hlow : 0 ≤ toRat (total / (count : Float32)) := by
    rw [hquotient.toRat_eq, ← toRat_zero.2, ← nearest_toRat toRat_zero.1, toRat_zero.2]
    exact BinaryFormat.single.nearest_mono (by positivity)
  rw [le_iff, lt_iff hquotient.number hnumber, toRat_zero.2]
  exact ⟨isSelf_of_number hnumber, isSelf_of_number hquotient.number, not_lt.mpr hlow⟩

end Float32

/-! ## What operators make -/

/-- A shape of which no size is negative, nor no number at all. -/
def Shape.Sized (s : Shape Float32) : Prop :=
  ∀ axis, 0.0 ≤ s.size.get axis

theorem Vec3.get_set {α : Type} (v : Vec3 α) (axis axis' : Axis) (x : α) :
    (v.set axis x).get axis' = if axis' = axis then x else v.get axis' := by
  cases axis <;> cases axis' <;> rfl

namespace Shape

variable {s : Shape Float32}

theorem Sized.slice (h : s.Sized) (axis : Axis) (offset : Float32) {length : Float32}
    (hlength : 0.0 ≤ length) (name : String) : (s.slice axis offset length name).Sized := by
  intro axis'
  rw [Shape.slice, Vec3.get_set]
  split
  · exact hlength
  · exact h axis'

theorem Sized.side (h : s.Sized) (k : Side) (name : String) : (s.side k name).Sized := by
  have hzero : (0.0 : Float32) ≤ 0.0 := by decide +kernel
  have hx := h .x
  have hy := h .y
  have hz := h .z
  intro axis
  cases k <;> cases axis <;> assumption

end Shape

namespace Operator

variable {values : String → Option Float32} {shape : Shape Float32}

/-- A part of a split is kept if its length lies above zero. -/
theorem exists_of_mem_splitShapes {α : Type} [Elementary α] {shape s : Shape α} {axis : Axis}
    {parts : List (SplitPart α)} {lengths : List α}
    (h : s ∈ splitShapes shape axis parts lengths) :
    ∃ offset length name, 0.0 < length ∧ s = shape.slice axis offset length name := by
  obtain ⟨⟨part, offset, length⟩, _, hkept⟩ := List.mem_filterMap.mp h
  simp only [Option.ite_none_right_eq_some, Option.some.injEq] at hkept
  obtain ⟨⟨_, hpos⟩, rfl⟩ := hkept
  exact ⟨offset, length, part.name, hpos, rfl⟩

theorem exists_of_mem_sideShapes {α : Type} [Elementary α] {shape s : Shape α}
    {names : SideNames} (h : s ∈ sideShapes shape names) : ∃ k name, s = shape.side k name := by
  obtain ⟨k, _, hkept⟩ := List.mem_filterMap.mp h
  obtain ⟨name, _, rfl⟩ := Option.map_eq_some_iff.mp hkept
  exact ⟨k, name, rfl⟩

/-- Tiles are counted by a word, and not at all unless their number is finite. -/
theorem sized_tiles (h : shape.Sized) {axis : Axis} {size : Float32} {count : ℕ}
    (htotal : ¬shape.size.get axis ≤ 0.0)
    (hcount : tileCount (shape.size.get axis) size = .ok count) (name : String) :
    ∀ s ∈ (tiles shape axis name count).toList, s.Sized := by
  rw [tileCount] at hcount
  split at hcount
  next hratio =>
    cases hcount
    obtain ⟨_, hnumber, _⟩ := (Float32.le_iff _ _).mp (h axis)
    have hpos := Scalar.lt_of_not_le hnumber (by decide +kernel) htotal
    have hfinite := Float32.isFinite_of_div (Float32.isFinite_of_cancel hratio)
    have hword := UInt64.toNat_lt (shape.size.get axis / size).toUInt64
    intro s hs
    obtain ⟨i, _, rfl⟩ := List.mem_map.mp hs
    refine h.slice axis _ (Float32.zero_le_div_natCast hfinite hpos ?_ ?_) name
    · exact Nat.lt_of_lt_of_le Nat.one_pos (Nat.le_max_right _ _)
    · exact Nat.max_lt.mpr ⟨hword, by norm_num⟩
  next => cases hcount

/-- What an application makes, it makes by ending the rule. -/
theorem exists_of_mem_applyWithin {α : Type} [Elementary α] {values : String → Option α}
    {limit : ℕ} {op : Operator α} {shape s : Shape α} {made : Yield α}
    (happly : op.applyWithin values limit shape = .ok made) (hs : s ∈ made.emitted) :
    ∃ ends, op.effect values shape = .ok (.ends ends) ∧ s ∈ ends.toList := by
  rw [applyWithin_eq_map, apply] at happly
  rcases heffect : op.effect values shape with cause | ⟨next | ends⟩ <;>
    rw [heffect] at happly <;> cases happly
  · exact absurd (List.mem_of_mem_take hs) List.not_mem_nil
  · exact ⟨ends, rfl, List.mem_of_mem_take hs⟩

theorem lt_size_of_mem_split {α : Type} [Elementary α] {values : String → Option α}
    {shape s : Shape α} {axis : Axis} {parts : List (SplitPart α)} {ends : Successors α}
    (heffect : (split axis parts).effect values shape = .ok (.ends ends)) (hs : s ∈ ends.toList) :
    0.0 < s.size.get axis := by
  obtain ⟨specs, _, hmade⟩ := Expr.bind_eq_ok heffect
  split at hmade <;> cases hmade
  · exact absurd hs List.not_mem_nil
  · obtain ⟨offset, length, name, hpos, rfl⟩ := exists_of_mem_splitShapes hs
    rw [Shape.slice, Vec3.get_set, if_pos rfl]
    exact hpos

theorem size_z_of_mem_decompose {α : Type} [Elementary α] {values : String → Option α}
    {shape s : Shape α} {names : SideNames} {ends : Successors α}
    (heffect : (decompose names).effect values shape = .ok (.ends ends)) (hs : s ∈ ends.toList) :
    s.size.z = 0.0 := by
  rw [effect] at heffect
  split at heffect <;> cases heffect
  · obtain ⟨k, name, rfl⟩ := exists_of_mem_sideShapes hs
    exact Shape.size_side_z shape k name
  · exact absurd hs List.not_mem_nil

theorem keeps_sized : Keeps Shape.Sized := by
  intro values op shape e h heffect
  cases op with
  | extrude height =>
    obtain ⟨value, _, hmade⟩ := Expr.bind_eq_ok heffect
    cases hmade
    intro axis
    cases axis with
    | x => exact h .x
    | y => exact h .y
    | z => exact Float32.zero_le_positivePart value
  | split axis parts =>
    obtain ⟨specs, _, hmade⟩ := Expr.bind_eq_ok heffect
    split at hmade <;> cases hmade
    · exact fun s hs => absurd hs List.not_mem_nil
    · intro s hs
      obtain ⟨offset, length, name, hpos, rfl⟩ := exists_of_mem_splitShapes hs
      exact h.slice axis offset (Scalar.le_of_lt hpos) name
  | tile axis size name =>
    obtain ⟨tile, _, hmade⟩ := Expr.bind_eq_ok heffect
    split at hmade
    · cases hmade
      exact fun s hs => absurd hs List.not_mem_nil
    next hsizes =>
      obtain ⟨count, hcount, hends⟩ := Expr.bind_eq_ok hmade
      cases hends
      exact sized_tiles h (fun htotal => hsizes (.inl htotal)) hcount name
  | translate v | rotate v =>
    obtain ⟨_, _, hmade⟩ := Expr.bind_eq_ok heffect
    cases hmade
    exact h
  | resize v =>
    obtain ⟨size, _, hmade⟩ := Expr.bind_eq_ok heffect
    cases hmade
    intro axis
    cases axis <;> exact Float32.zero_le_positivePart _
  | decompose names =>
    rw [effect] at heffect
    split at heffect <;> cases heffect
    · intro s hs
      obtain ⟨k, name, rfl⟩ := exists_of_mem_sideShapes hs
      exact h.side k name
    · exact fun s hs => absurd hs List.not_mem_nil
  | copy name =>
    cases heffect
    exact fun s hs => List.mem_singleton.mp hs ▸ h
  | paint color =>
    cases heffect
    exact h

end Operator

namespace Derivation

/-- However expressions come out, under whatever grammar and whatever the clocks show: if the shape
that a derivation starts from has sizes that are not negative, then so has every shape that any
calls lead to, no size is ever not a number, and what is drawn of a shape are six faces at most,
those of the shape itself or of its sides. A split makes parts of a length above zero only, and a
box is taken apart into flat shapes. -/
theorem sizes_after (shape : Shape Float32) (hshape : ∀ axis, 0.0 ≤ shape.size.get axis)
    (g : Grammar Float32) (calls : List Call) (clocks : ℕ → Clock) :
    (∀ id n, ((start shape g).after calls clocks).tree.node? id = some n →
      (∀ axis, 0.0 ≤ n.shape.size.get axis ∧ Scalar.isNaN (n.shape.size.get axis) = false) ∧
      n.shape.facesWithin 1 = some n.shape.faces ∧ n.shape.faces.length ≤ 6) ∧
    ∀ (values : String → Option Float32) (limit : ℕ) (s : Shape Float32) (made : Yield Float32),
      (∀ axis parts, (Operator.split axis parts).applyWithin values limit s = .ok made →
        ∀ child ∈ made.emitted, 0.0 < child.size.get axis) ∧
      ∀ names, (Operator.decompose names).applyWithin values limit s = .ok made →
        ∀ child ∈ made.emitted, child.size.z = 0.0 := by
  refine ⟨fun id n hn => ?_, fun values limit s made => ⟨fun axis parts happly => ?_,
    fun names happly => ?_⟩⟩
  · have hstart : ∀ id n, (start shape g).tree.node? id = some n → n.shape.Sized := by
      intro id n hn
      obtain ⟨_, rfl⟩ := Tree.node?_ofRoot.mp hn
      exact hshape
    have hsized := (invariant_shapes Operator.keeps_sized).after hstart calls clocks id n hn
    refine ⟨fun axis => ⟨hsized axis, ?_⟩, n.shape.facesWithin_one, n.shape.length_faces_le⟩
    exact (Scalar.isNaN_eq_false_of_le (hsized axis)).2
  · intro child hchild
    obtain ⟨ends, heffect, hmem⟩ := Operator.exists_of_mem_applyWithin happly hchild
    exact Operator.lt_size_of_mem_split heffect hmem
  · intro child hchild
    obtain ⟨ends, heffect, hmem⟩ := Operator.exists_of_mem_applyWithin happly hchild
    exact Operator.size_z_of_mem_decompose heffect hmem

/-- A hall without an end, cut into a part of its length and one that is no part of it: no number
at all. -/
def hall : Grammar Float32 where
  attributes := .empty
  rules := ⟨[("Start", ⟨"Start", [
    .resize ⟨⟨"1e39", .number (1.0 / 0.0)⟩, ⟨"2", .number 2.0⟩, ⟨"-1", .number (-1.0)⟩⟩,
    .split .x [⟨⟨"0", .number 0.0⟩, .relative, "Gap"⟩, ⟨⟨"1", .number 1.0⟩, .relative, "Hall"⟩]]⟩)],
    by decide⟩

/-- A run that is out of time leaves the hall to a guided step. The endless part is kept, with no
height, and the other one is not. -/
theorem sizes_after_hall :
    let calls : List Call := [.full { maxMillis := some 1 }, .guided 0 10, .copy]
    let clocks : ℕ → Clock := fun _ k => k + 1
    (∀ axis, 0.0 ≤ (Shape.start (α := Float32)).size.get axis) ∧
    ((start .start hall).after calls clocks).tree.size = 2 ∧
    ∃ n, ((start .start hall).after calls clocks).tree.node? 1 = some n ∧
      n.shape.name = "Hall" ∧ n.shape.size = ⟨1.0 / 0.0, 2.0, 0.0⟩ ∧
      (∀ axis, 0.0 ≤ n.shape.size.get axis ∧ Scalar.isNaN (n.shape.size.get axis) = false) ∧
      n.shape.facesWithin 1 = some n.shape.faces := by
  intro calls clocks
  have hstart : ∀ axis, 0.0 ≤ (Shape.start (α := Float32)).size.get axis := by
    intro axis
    cases axis <;> decide +kernel
  -- the clock stops the run before its first turn
  have hlate : (start .start hall).perform (.full { maxMillis := some 1 }) (clocks 0) =
      start .start hall := by
    rw [perform, complete, runFrom_of_stop rfl]
  have hafter : (start .start hall).after calls clocks =
      ((start .start hall).perform (.guided 0 10)).copy := by
    rw [after, hlate]
    rfl
  obtain ⟨hnodes, -⟩ := sizes_after .start hstart hall calls clocks
  rw [hafter] at hnodes ⊢
  obtain ⟨n, hn, hname, hsize⟩ : ∃ n,
      ((start .start hall).perform (.guided 0 10)).copy.tree.node? 1 = some n ∧
        n.shape.name = "Hall" ∧ n.shape.size = ⟨1.0 / 0.0, 2.0, 0.0⟩ := by
    refine ⟨_, rfl, rfl, ?_⟩
    decide +kernel
  obtain ⟨hsizes, hfaces, -⟩ := hnodes 1 n hn
  exact ⟨hstart, rfl, n, hn, hname, hsize, hsizes, hfaces⟩

end Derivation

end ShapeGrammar
