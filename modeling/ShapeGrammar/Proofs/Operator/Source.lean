import ShapeGrammar.Grammar.Source
import ShapeGrammar.Proofs.Expr.Literal
import ShapeGrammar.Proofs.Json.Decode
import ShapeGrammar.Proofs.Json.Number

/-!
# Saved operators are read back

A parameter is saved as its text and an operator as a record of its fields next to its word. A
parameter of a source is read back from its text unless it was written as a number beyond the
greatest finite one, and an operator is if its parameters are and its color is finite. Main
statements: `Param.restored_iff`, `Operator.ofJson?_toJson`.
-/
namespace ShapeGrammar

open Json

/-! ## Parameters -/

namespace Param

theorem ofJson?_text (text : String) (p : Param Float32) :
    ofJson? (.text text) = some p ↔ parse text = .ok p := by
  change (parse text).toOption = some p ↔ _
  cases parse (α := Float32) text with
  | error fault => exact ⟨(nomatch ·), (nomatch ·)⟩
  | ok q => exact (Option.some.injEq q p).to_iff.trans (Except.ok.injEq q p).to_iff.symm

/-- Whether a parameter is read from what it is saved as. -/
def Restored (p : Param Float32) : Prop :=
  ofJson? p.toJson = some p

/-- Whether a parameter is a number that is not finite: it was written as one, beyond the greatest
finite number. -/
def Overflows (p : Param Float32) : Prop :=
  ∃ v : Float32, v.isFinite = false ∧ p = literal v

/-- Whether a parameter came from a source: from text or from a number. -/
def Sourced (p : Param Float32) : Prop :=
  (∃ text, parse text = .ok p) ∨ ∃ v, p = literal v

theorem sourced_of_ofJson? {j : Json} {p : Param Float32} (h : ofJson? j = some p) : p.Sourced := by
  by_cases htext : ∃ text, j = .text text
  · obtain ⟨text, rfl⟩ := htext
    exact .inl ⟨text, (ofJson?_text text p).mp h⟩
  · have hnumber : ofJson? j = j.float32?.map literal := by
      rw [ofJson?]
      exact fun text heq => htext ⟨text, heq⟩
    rw [hnumber] at h
    obtain ⟨v, _, rfl⟩ := Option.map_eq_some_iff.mp h
    exact .inr ⟨v, rfl⟩

/-- A parameter of a source is read back unless it overflows. -/
theorem restored_iff {p : Param Float32} (h : p.Sourced) : p.Restored ↔ ¬p.Overflows := by
  rw [Restored, toJson, ofJson?_text]
  rcases h with ⟨text, htext⟩ | ⟨v, rfl⟩
  · refine ⟨?_, fun _ => parse_text htext⟩
    rintro hparse ⟨v, hv, rfl⟩
    exact parse_literal_ne hv hparse
  · cases hv : v.isFinite with
    | false => exact iff_of_false (parse_literal_ne hv) (not_not_intro ⟨v, hv, rfl⟩)
    | true =>
      refine ⟨?_, fun _ => parse_literal hv⟩
      rintro hparse ⟨w, hw, heq⟩
      rw [heq] at hparse
      exact parse_literal_ne hw hparse

end Param

/-! ## Parts -/

namespace SplitPart

theorem ofJson?_toJson (p : SplitPart Float32) : ofJson? p.toJson = some p ↔ p.size.Restored := by
  have hread : ofJson? p.toJson = (Param.ofJson? p.size.toJson).bind fun size =>
      (SizeMode.ofJson? (.text p.mode.word)).bind fun mode => some ⟨size, mode, p.name⟩ := by
    rw [ofJson?]
    exact bind_record?_object (by rfl) (by decide) _
  have hmode : SizeMode.ofJson? (.text p.mode.word) = some p.mode := by
    cases p.mode <;> rfl
  rw [hread, hmode, Option.bind_eq_some_iff, Param.Restored]
  constructor
  · rintro ⟨size, hsize, heq⟩
    obtain rfl : size = p.size := congrArg SplitPart.size (Option.some.inj heq)
    exact hsize
  · exact fun h => ⟨p.size, h, rfl⟩

end SplitPart

/-! ## Operators -/

namespace Operator

variable {α : Type}

/-- The color that an operator paints in, if it paints. -/
def colors : Operator α → List α
  | .paint color => color.toList
  | _ => []

/-- Whether an operator is read from what it is saved as. -/
def Restored (op : Operator Float32) : Prop :=
  (∀ p ∈ op.params, p.Restored) ∧ ∀ c ∈ op.colors, c.isFinite = true

/-! What is looked at before the fields of an operator are told apart. -/

theorem depthOfItems_parts (parts : List (SplitPart Float32)) :
    depth.depthOfItems (parts.map SplitPart.toJson) ≤ 1 := by
  induction parts with
  | nil => decide
  | cons part parts ih =>
    rw [List.map_cons, depth.depthOfItems]
    exact Nat.max_le.mpr ⟨le_refl 1, ih⟩

theorem depth_ofOption (name : Option String) : (Json.ofOption .text name).depth = 0 := by
  cases name <;> rfl

theorem depth_ofFloat32 (x : Float32) : (ofFloat32 x).depth = 0 := by
  rw [ofFloat32]
  cases BinaryFormat.single.decode x.toBits.toNat <;> rfl

/-- An operator nests at most a list of parts. -/
theorem depth_toJson (op : Operator Float32) : op.toJson.depth ≤ 3 := by
  cases op with
  | split axis parts =>
    have hparts := depthOfItems_parts parts
    simp only [toJson, fields, depth, depth.depthOfMembers]
    omega
  | _ =>
    simp [toJson, fields, vectorFields, Param.toJson, depth, depth.depthOfMembers,
      depth.depthOfItems, depth_ofOption, depth_ofFloat32, Vec3.toList]

theorem soundItems_parts (parts : List (SplitPart Float32)) :
    isSound.soundItems (parts.map SplitPart.toJson) = true := by
  induction parts with
  | nil => rfl
  | cons part parts ih =>
    rw [List.map_cons, isSound.soundItems, ih, Bool.and_true]
    rfl

theorem isSound_ofOption (name : Option String) : (Json.ofOption .text name).isSound = true := by
  cases name <;> rfl

theorem isSound_toJson (op : Operator Float32) : op.toJson.isSound = true := by
  cases op <;>
  simp [toJson, fields, vectorFields, Param.toJson, isSound, isSound.soundMembers,
    isSound.soundItems, isSound_ofOption, isSound_ofFloat32, Vec3.toList, soundItems_parts]

theorem vectorOfJson?_fields (default : Option (Param Float32)) (v : Vec3 (Param Float32)) :
    vectorOfJson? default (.object (vectorFields v)) = some v ↔ ∀ p ∈ v.toList, p.Restored := by
  have hread : vectorOfJson? default (.object (vectorFields v)) =
      (Param.ofJson? v.x.toJson).bind fun x => (Param.ofJson? v.y.toJson).bind fun y =>
        (Param.ofJson? v.z.toJson).bind fun z => some ⟨x, y, z⟩ := by
    rw [vectorOfJson?]
    cases default <;>
    exact bind_record?_object (by rfl) (by decide) _
  rw [hread]
  simp only [Option.bind_eq_some_iff, Vec3.toList, List.forall_mem_cons, Param.Restored]
  constructor
  · rintro ⟨x, hx, y, hy, z, hz, heq⟩
    obtain rfl := Option.some.inj heq
    exact ⟨hx, hy, hz, List.forall_mem_nil _⟩
  · rintro ⟨hx, hy, hz, _⟩
    exact ⟨v.x, hx, v.y, hy, v.z, hz, rfl⟩

theorem axis_ofJson? (axis : Axis) : Axis.ofJson? (.text axis.word) = some axis := by
  cases axis <;> rfl

theorem orNull?_ofOption (name : Option String) :
    orNull? text? (.ofOption .text name) = some name := by
  cases name <;> rfl

theorem sideNames_ofJson? (names : SideNames) :
    SideNames.ofJson? (.object (decompose names : Operator Float32).fields) = some names := by
  have hrecord : (Json.object (decompose names : Operator Float32).fields).record?
      ["front", "right", "back", "left", "top", "bottom", "side"] =
        some ⟨false, [some (.ofOption .text names.front), some (.ofOption .text names.right),
          some (.ofOption .text names.back), some (.ofOption .text names.left),
          some (.ofOption .text names.top), some (.ofOption .text names.bottom),
          some (.ofOption .text names.side)]⟩ :=
    record?_object rfl (by decide)
  rw [SideNames.ofJson?, hrecord]
  simp [Record.orElse, Record.slot, orNull?_ofOption]

theorem vec3_ofJson?_eq_some {j : Json} {v : Vec3 Float32} :
    Vec3.ofJson? j = some v ↔ j.list? float32? = some v.toList := by
  rw [Vec3.ofJson?]
  cases j.list? float32? with
  | none => exact ⟨(nomatch ·), (nomatch ·)⟩
  | some items =>
    match items with
    | [x, y, z] =>
      constructor
      · intro h
        obtain rfl := Option.some.inj h
        rfl
      · intro h
        obtain ⟨rfl, rfl, rfl⟩ : x = v.x ∧ y = v.y ∧ z = v.z := by
          simpa [Vec3.toList] using h
        rfl
    | [] | [_] | [_, _] | _ :: _ :: _ :: _ :: _ => simp [Vec3.toList]

theorem color_ofJson? (color : Vec3 Float32) :
    Vec3.ofJson? (.array (color.toList.map ofFloat32)) = some color ↔
      ∀ c ∈ color.toList, c.isFinite = true := by
  rw [vec3_ofJson?_eq_some, list?_map_eq]
  refine forall₂_congr fun c _ => ?_
  rw [float32?_ofFloat32]
  split_ifs with hfinite <;> simp [hfinite]

/-- An operator is read from its word and its fields if its parameters are and it paints in a
finite color. -/
theorem ofWord?_fields (op : Operator Float32) :
    ofWord? op.word (.object op.fields) = some op ↔ op.Restored := by
  cases op with
  | extrude height =>
    have hread : ofWord? (extrude height).word (.object (extrude height).fields) =
        (Param.ofJson? height.toJson).bind fun height => some (extrude height) := by
      rw [word, ofWord?]
      exact bind_record?_object (by rfl) (by decide) _
    rw [hread]
    simp [Option.bind_eq_some_iff, Restored, params, colors, Param.Restored]
  | split axis parts =>
    have hread : ofWord? (split axis parts).word (.object (split axis parts).fields) =
        (Axis.ofJson? (.text axis.word)).bind fun axis =>
          (list? SplitPart.ofJson? (.array (parts.map SplitPart.toJson))).bind fun parts =>
            some (split axis parts) := by
      rw [word, ofWord?]
      exact bind_record?_object (by rfl) (by decide) _
    rw [hread, axis_ofJson?]
    simp [Option.bind_eq_some_iff, Restored, params, colors, list?_map_eq,
      SplitPart.ofJson?_toJson]
  | tile axis size name =>
    have hread : ofWord? (tile axis size name).word (.object (tile axis size name).fields) =
        (Axis.ofJson? (.text axis.word)).bind fun axis =>
          (Param.ofJson? size.toJson).bind fun size => some (tile axis size name) := by
      rw [word, ofWord?]
      exact bind_record?_object (by rfl) (by decide) _
    rw [hread, axis_ofJson?]
    simp [Option.bind_eq_some_iff, Restored, params, colors, Param.Restored]
  | translate v | rotate v | resize v =>
    rw [word, ofWord?, fields]
    simp [Restored, params, colors, vectorOfJson?_fields]
  | decompose names =>
    rw [word, ofWord?, sideNames_ofJson?]
    simp [Restored, params, colors]
  | copy name =>
    have hread : ofWord? (copy name : Operator Float32).word
        (.object (copy name : Operator Float32).fields) = some (copy name) := by
      rw [word, ofWord?]
      exact bind_record?_object (by rfl) (by decide) _
    rw [hread]
    simp [Restored, params, colors]
  | paint color =>
    have hread : ofWord? (paint color).word (.object (paint color).fields) =
        (Vec3.ofJson? (.array (color.toList.map ofFloat32))).bind fun color =>
          some (paint color) := by
      rw [word, ofWord?]
      exact bind_record?_object (by rfl) (by decide) _
    rw [hread]
    simp [Option.bind_eq_some_iff, Restored, params, colors, color_ofJson?]

theorem ne_op_of_mem_fields {op : Operator Float32} {field : String × Json}
    (h : field ∈ op.fields) : field.1 ≠ "op" := by
  have hnames : "op" ∉ op.fields.map Prod.fst := by
    cases op <;> simp [fields, vectorFields]
  rintro heq
  exact hnames (heq ▸ List.mem_map_of_mem h)

/-- An operator that is neither too deep nor unsound is read from its word and its fields. -/
theorem ofJson?_object {outer : ℕ} {word : String} {fields : List (String × Json)}
    (hdepth : outer + (Json.object (("op", .text word) :: fields)).depth ≤ maxDepth)
    (hsound : (Json.object (("op", .text word) :: fields)).isSound = true)
    (hother : ∀ field ∈ fields, field.1 ≠ "op") :
    ofJson? outer (.object (("op", .text word) :: fields)) = ofWord? word (.object fields) := by
  have hlooked : ¬(maxDepth < outer + (Json.object (("op", .text word) :: fields)).depth ∨
      (Json.object (("op", .text word) :: fields)).isSound = false) := by
    rintro (hdeep | hunsound)
    · exact absurd hdepth (Nat.not_le_of_lt hdeep)
    · rw [hsound] at hunsound
      cases hunsound
  have honce : occurrences "op" (("op", .text word) :: fields) ≤ 1 := by
    have hnone : fields.filter (·.1 == "op") = [] :=
      List.filter_eq_nil_iff.mpr fun field hfield => by simp [hother field hfield]
    rw [occurrences, List.filter_cons_of_pos (by simp), hnone, List.length_singleton]
  have hrest : (("op", .text word) :: fields).filter (·.1 != "op") = fields := by
    rw [List.filter_cons_of_neg (by simp), List.filter_eq_self]
    exact fun field hfield => by simp [hother field hfield]
  rw [ofJson?.eq_def, if_neg hlooked]
  dsimp only
  rw [if_pos honce, hrest]
  rfl

/-- An operator is read from what it is saved as if its parameters are and it paints in a finite
color. -/
theorem ofJson?_toJson {outer : ℕ} (houter : outer ≤ 100) (op : Operator Float32) :
    ofJson? outer op.toJson = some op ↔ op.Restored := by
  have hdepth : outer + op.toJson.depth ≤ maxDepth := by
    have := depth_toJson op
    rw [maxDepth]
    omega
  rw [← ofWord?_fields]
  exact (ofJson?_object hdepth (isSound_toJson op) fun _ => ne_op_of_mem_fields) ▸ Iff.rfl

/-! Where the parameters of an operator come from. -/

theorem sourced_zero (p : Param Float32) (h : some Param.zero = some p) : p.Sourced :=
  .inr ⟨0.0, (Option.some.inj h).symm⟩

theorem sourced_of_vectorOfJson? {default : Option (Param Float32)} {j : Json}
    {v : Vec3 (Param Float32)} (hdefault : ∀ p, default = some p → p.Sourced)
    (h : vectorOfJson? default j = some v) : ∀ p ∈ v.toList, p.Sourced := by
  cases default with
  | none =>
    simp only [vectorOfJson?, Option.bind_eq_bind, Option.bind_eq_some_iff] at h
    obtain ⟨r, _, x, hx, y, hy, z, hz, hv⟩ := h
    obtain rfl := Option.some.inj hv
    have hone {i p} (hp : r.required i Param.ofJson? = some p) : p.Sourced := by
      obtain ⟨item, hitem⟩ := Record.exists_of_required hp
      exact Param.sourced_of_ofJson? hitem
    simp only [Vec3.toList, List.forall_mem_cons]
    exact ⟨hone hx, hone hy, hone hz, List.forall_mem_nil _⟩
  | some zero =>
    simp only [vectorOfJson?, Option.bind_eq_bind, Option.bind_eq_some_iff] at h
    obtain ⟨r, _, x, hx, y, hy, z, hz, hv⟩ := h
    obtain rfl := Option.some.inj hv
    have hone {i p} (hp : r.orElse i Param.ofJson? zero = some p) : p.Sourced := by
      rcases Record.exists_of_orElse hp with rfl | ⟨item, hitem⟩
      · exact hdefault _ rfl
      · exact Param.sourced_of_ofJson? hitem
    simp only [Vec3.toList, List.forall_mem_cons]
    exact ⟨hone hx, hone hy, hone hz, List.forall_mem_nil _⟩

theorem sourced_of_splitPart {j : Json} {part : SplitPart Float32}
    (h : SplitPart.ofJson? j = some part) : part.size.Sourced := by
  simp only [SplitPart.ofJson?, Option.bind_eq_bind, Option.bind_eq_some_iff] at h
  obtain ⟨r, _, size, hsize, _, _, _, _, hpart⟩ := h
  obtain rfl := Option.some.inj hpart
  obtain ⟨item, hitem⟩ := Record.exists_of_required hsize
  exact Param.sourced_of_ofJson? hitem

theorem sourced_of_ofWord? {word : String} {body : Json} {op : Operator Float32}
    (h : ofWord? word body = some op) : ∀ p ∈ op.params, p.Sourced := by
  rw [ofWord?.eq_def] at h
  split at h
  case h_1 =>
    simp only [Option.bind_eq_bind, Option.bind_eq_some_iff] at h
    obtain ⟨r, _, height, hheight, hop⟩ := h
    obtain rfl := Option.some.inj hop
    obtain ⟨item, hitem⟩ := Record.exists_of_required hheight
    exact List.forall_mem_singleton.mpr (Param.sourced_of_ofJson? hitem)
  case h_2 =>
    simp only [Option.bind_eq_bind, Option.bind_eq_some_iff] at h
    obtain ⟨r, _, axis, _, parts, hparts, hop⟩ := h
    obtain rfl := Option.some.inj hop
    obtain ⟨list, hlist⟩ := Record.exists_of_required hparts
    refine List.forall_mem_map.mpr fun part hpart => ?_
    obtain ⟨item, hitem⟩ := exists_of_mem_list? hlist hpart
    exact sourced_of_splitPart hitem
  case h_3 =>
    simp only [Option.bind_eq_bind, Option.bind_eq_some_iff] at h
    obtain ⟨r, _, axis, _, size, hsize, _, _, hop⟩ := h
    obtain rfl := Option.some.inj hop
    obtain ⟨item, hitem⟩ := Record.exists_of_required hsize
    exact List.forall_mem_singleton.mpr (Param.sourced_of_ofJson? hitem)
  case h_4 | h_5 =>
    obtain ⟨v, hv, rfl⟩ := Option.map_eq_some_iff.mp h
    exact sourced_of_vectorOfJson? sourced_zero hv
  case h_6 =>
    obtain ⟨v, hv, rfl⟩ := Option.map_eq_some_iff.mp h
    exact sourced_of_vectorOfJson? (by rintro _ ⟨⟩) hv
  case h_7 =>
    obtain ⟨names, _, rfl⟩ := Option.map_eq_some_iff.mp h
    exact List.forall_mem_nil _
  case h_8 | h_9 =>
    simp only [Option.bind_eq_bind, Option.bind_eq_some_iff] at h
    obtain ⟨r, _, _, _, hop⟩ := h
    obtain rfl := Option.some.inj hop
    exact List.forall_mem_nil _
  case h_10 => cases h

/-- Every parameter of an operator that was read was read from text or from a number. -/
theorem sourced_of_ofJson? {outer : ℕ} {j : Json} {op : Operator Float32}
    (h : ofJson? outer j = some op) : ∀ p ∈ op.params, p.Sourced := by
  rw [ofJson?.eq_def] at h
  split_ifs at h
  split at h
  · split_ifs at h
    obtain ⟨_, _, hmember⟩ := Option.bind_eq_some_iff.mp h
    obtain ⟨word, _, hword⟩ := Option.bind_eq_some_iff.mp hmember
    exact sourced_of_ofWord? hword
  · exact sourced_of_ofWord? h
  · cases h

end Operator

end ShapeGrammar
