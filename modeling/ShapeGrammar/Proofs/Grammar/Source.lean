import ShapeGrammar.Proofs.Grammar.Choices
import ShapeGrammar.Proofs.Json.Document
import ShapeGrammar.Proofs.Operator.Source

/-!
# Saved grammars are read back

A grammar is saved as the text of a document that holds its attributes, rules, operators and
parameters under the names they are read from. A grammar that was loaded is read back from it unless
some number of it was written beyond the greatest finite one: a parameter that overflows is saved as
a word, a color component as nothing. Main statement: `Grammar.load_save`.
-/
namespace ShapeGrammar

open Json

/-! ## Attributes -/

namespace Attribute

/-- Whether the numbers of an attribute are finite. -/
def AllFinite (a : Attribute Float32) : Prop :=
  a.start.isFinite = true ∧ a.stop.isFinite = true ∧ a.value.isFinite = true

theorem orNull?_float32 {x : Float32} (h : x.isFinite = true) :
    orNull? float32? (ofFloat32 x) = some (some x) := by
  have hread := float32?_ofFloat32 x
  rw [if_pos h] at hread
  cases hj : ofFloat32 x with
  | null =>
    rw [hj] at hread
    cases hread
  | _ =>
    rw [hj] at hread
    exact congrArg (Option.map some) hread

theorem ofJson?_toJson {a : Attribute Float32} (h : a.AllFinite) : ofJson? a.toJson = some a := by
  obtain ⟨hstart, hstop, hvalue⟩ := h
  have hrecord : a.toJson.record? ["name", "range_start", "range_end", "value", "fixed",
      "has_range"] = some ⟨false, [some (.text a.name), some (.ofFloat32 a.start),
        some (.ofFloat32 a.stop), some (.ofFloat32 a.value), some (.bool a.fixed),
        some (.bool a.ranged)]⟩ :=
    record?_object rfl (by decide)
  have hread : (ofFloat32 a.value).float32? = some a.value := by
    rw [float32?_ofFloat32, if_pos hvalue]
  have hranged : orNull? bool? (.bool a.ranged) = some (some a.ranged) := rfl
  rw [ofJson?, hrecord]
  simp [Record.required, Record.optional, Record.orElse, Record.slot, orNull?_float32 hstart,
    orNull?_float32 hstop, hread, hranged, text?, bool?]

end Attribute

/-! ## Rules -/

namespace Rule

/-- Whether a rule is read from what it is saved as. -/
def Restored (r : Rule Float32) : Prop :=
  ∀ op ∈ r.operators, op.Restored

theorem ofJson?_toJson (r : Rule Float32) : ofJson? r.toJson = some r ↔ r.Restored := by
  have hread : ofJson? r.toJson =
      (list? (Operator.ofJson? 4) (.array (r.operators.map Operator.toJson))).bind
        fun operators => some { r with operators } := by
    rw [ofJson?]
    exact bind_record?_object (by rfl) (by decide) _
  have hlist : list? (Operator.ofJson? 4) (.array (r.operators.map Operator.toJson)) =
      some r.operators ↔ r.Restored :=
    (list?_map_eq Operator.toJson r.operators).trans
      (forall₂_congr fun op _ => Operator.ofJson?_toJson (by decide) op)
  rw [hread, ← hlist, Option.bind_eq_some_iff]
  constructor
  · rintro ⟨operators, hoperators, heq⟩
    obtain rfl : operators = r.operators := congrArg Rule.operators (Option.some.inj heq)
    exact hoperators
  · exact fun h => ⟨r.operators, h, rfl⟩

theorem sourced_of_ofJson? {j : Json} {r : Rule Float32} (h : ofJson? j = some r) :
    ∀ p ∈ r.params, p.Sourced := by
  simp only [ofJson?, Option.bind_eq_bind, Option.bind_eq_some_iff] at h
  obtain ⟨record, _, name, _, operators, hoperators, hr⟩ := h
  obtain rfl := Option.some.inj hr
  obtain ⟨list, hlist⟩ := Record.exists_of_required hoperators
  intro p hp
  obtain ⟨op, hop, hp⟩ := List.mem_flatMap.mp hp
  obtain ⟨item, hitem⟩ := exists_of_mem_list? hlist hop
  exact Operator.sourced_of_ofJson? hitem p hp

end Rule

/-! ## Documents -/

theorem isClean_ofFloat32 (x : Float32) : (ofFloat32 x).isClean = true := by
  rw [ofFloat32]
  cases BinaryFormat.single.decode x.toBits.toNat <;> rfl

theorem isClean_ofOption (name : Option String) : (Json.ofOption .text name).isClean = true := by
  cases name <;> rfl

theorem Attribute.isClean_toJson (a : Attribute Float32) : a.toJson.isClean = true := by
  simp [Attribute.toJson, isClean, isClean.cleanMembers, isClean_ofFloat32]

theorem Operator.isClean_toJson (op : Operator Float32) : op.toJson.isClean = true := by
  have hparts (parts : List (SplitPart Float32)) :
      isClean.cleanItems (parts.map SplitPart.toJson) = true :=
    cleanItems_map (fun _ => rfl) parts
  cases op <;>
  simp [Operator.toJson, fields, vectorFields, Param.toJson, isClean, isClean.cleanMembers,
    isClean.cleanItems, isClean_ofOption, isClean_ofFloat32, Vec3.toList, hparts]

theorem Rule.isClean_toJson (r : Rule Float32) : r.toJson.isClean = true := by
  simp [Rule.toJson, isClean, isClean.cleanMembers, cleanItems_map Operator.isClean_toJson]

namespace Grammar

theorem isClean_toJson (g : Grammar Float32) : g.toJson.isClean = true := by
  simp [Grammar.toJson, tableToJson, Table.toList, isClean, isClean.cleanMembers,
    cleanMembers_map Attribute.isClean_toJson, cleanMembers_map Rule.isClean_toJson]

/-- A grammar with finite attributes is read from what it is saved as if its rules are. -/
theorem ofJson?_toJson {g : Grammar Float32} (hfinite : ∀ a ∈ g.attributes.values, a.AllFinite) :
    ofJson? g.toJson = some g ↔ ∀ r ∈ g.rules.values, r.Restored := by
  have hattributes : table? Attribute.ofJson? (tableToJson Attribute.toJson g.attributes) =
      some g.attributes :=
    (table?_map_eq Attribute.toJson g.attributes).mpr fun a ha =>
      Attribute.ofJson?_toJson (hfinite a ha)
  have hrules : table? Rule.ofJson? (tableToJson Rule.toJson g.rules) = some g.rules ↔
      ∀ r ∈ g.rules.values, r.Restored :=
    (table?_map_eq Rule.toJson g.rules).trans
      (forall₂_congr fun r _ => Rule.ofJson?_toJson r)
  have hread : ofJson? g.toJson =
      (table? Attribute.ofJson? (tableToJson Attribute.toJson g.attributes)).bind fun attributes =>
        (table? Rule.ofJson? (tableToJson Rule.toJson g.rules)).bind fun rules =>
          some { attributes, rules } := by
    rw [ofJson?]
    exact bind_record?_object (by rfl) (by decide) _
  rw [hread, hattributes, Option.bind_some, ← hrules, Option.bind_eq_some_iff]
  constructor
  · rintro ⟨rules, hsome, heq⟩
    obtain rfl : rules = g.rules := congrArg Grammar.rules (Option.some.inj heq)
    exact hsome
  · exact fun h => ⟨g.rules, h, rfl⟩

theorem sourced_of_ofJson? {j : Json} {g : Grammar Float32} (h : ofJson? j = some g) :
    ∀ r ∈ g.rules.values, ∀ p ∈ r.params, p.Sourced := by
  simp only [ofJson?, Option.bind_eq_bind, Option.bind_eq_some_iff] at h
  obtain ⟨record, _, attributes, _, rules, hrules, hg⟩ := h
  obtain rfl := Option.some.inj hg
  intro r hr
  rcases Record.exists_of_orElse hrules with rfl | ⟨item, hitem⟩
  · cases hr
  · obtain ⟨member, hmember⟩ := exists_of_mem_table? hitem hr
    exact Rule.sourced_of_ofJson? hmember

theorem allFinite_of_validate {g : Grammar Float32} (h : g.validate = .ok ()) :
    ∀ a ∈ g.attributes.values, a.AllFinite := by
  intro a ha
  have hvalid := (validate_eq_ok_iff.mp h).1 a ha
  obtain ⟨hvalue, hstart, hstop⟩ := (Attribute.validate_eq_ok_iff.mp hvalid).1
  exact ⟨Float32.isFinite_of_cancel hstart, Float32.isFinite_of_cancel hstop,
    Float32.isFinite_of_cancel hvalue⟩

/-- A grammar that was read from a text is loaded if it is valid. -/
theorem load_of_read {text : String} {g : Grammar Float32}
    (h : (Json.read? text).bind ofJson? = some g) : load text = g.validate.map fun _ => g := by
  rw [load, read, h]
  change (g.validate >>= fun _ => .ok g) = _
  cases g.validate <;> rfl

/-- What a text loads as is read from it and valid. -/
theorem load_eq_ok {text : String} {g : Grammar Float32} :
    load text = .ok g ↔ (Json.read? text).bind ofJson? = some g ∧ g.validate = .ok () := by
  cases hread : (Json.read? text).bind ofJson? with
  | none =>
    rw [load, read, hread]
    exact iff_of_false (nomatch ·) (nomatch ·.1)
  | some found =>
    rw [load_of_read hread, Option.some.injEq]
    constructor
    · intro h
      cases hvalid : found.validate with
      | error cause =>
        rw [hvalid] at h
        cases h
      | ok done =>
        rw [hvalid] at h
        obtain rfl := Except.ok.inj h
        exact ⟨rfl, hvalid⟩
    · rintro ⟨rfl, hvalid⟩
      rw [hvalid]
      rfl

/-- A grammar that was loaded is loaded again from what it is saved as, unless a parameter overflows
or a color is not finite. -/
theorem load_save {text : String} {g : Grammar Float32} (h : load text = .ok g) :
    load g.save = .ok g ↔ ∀ r ∈ g.rules.values, ∀ op ∈ r.operators,
      (∀ p ∈ op.params, ¬p.Overflows) ∧ ∀ c ∈ op.colors, c.isFinite = true := by
  obtain ⟨hread, hvalid⟩ := load_eq_ok.mp h
  obtain ⟨j, _, hj⟩ := Option.bind_eq_some_iff.mp hread
  have hsourced := sourced_of_ofJson? hj
  have hdocument : Json.read? g.save = some g.toJson := read?_pretty g.isClean_toJson
  rw [load_eq_ok, hdocument, Option.bind_some, ofJson?_toJson (allFinite_of_validate hvalid),
    and_iff_left hvalid]
  refine forall₂_congr fun r hr => forall₂_congr fun op hop => ?_
  refine and_congr_left fun _ => forall₂_congr fun p hp => ?_
  exact Param.restored_iff (hsourced r hr p (List.mem_flatMap.mpr ⟨op, hop, hp⟩))

/-- A source of one rule, which extrudes the lot to a height. -/
def towerSource (height : Json) : Json :=
  .object [("attrs", .object []), ("rules", .object [("Lot", .object [("name", .text "Lot"),
    ("operators", .array [.object [("op", .text "extrude"), ("height", height)]])])])]

/-- The grammar of such a source. -/
def tower (height : Param Float32) : Grammar Float32 :=
  ⟨.empty, Table.ofList [("Lot", ⟨"Lot", [.extrude height]⟩)]⟩

theorem read_towerSource {j : Json} {height : Param Float32} (hclean : j.isClean = true)
    (hdepth : j.depth = 0) (hsound : j.isSound = true) (hj : Param.ofJson? j = some height) :
    (Json.read? (towerSource j).pretty).bind ofJson? = some (tower height) := by
  have hdocument : (towerSource j).isClean = true := by
    simp [towerSource, isClean, isClean.cleanMembers, isClean.cleanItems, hclean]
  have hop : Operator.ofJson? 4 (.object [("op", .text "extrude"), ("height", j)]) =
      some (.extrude height) := by
    rw [Operator.ofJson?_object (by simp [depth, depth.depthOfMembers, hdepth, Operator.maxDepth])
      (by simp [isSound, isSound.soundMembers, hsound]) (by simp), Operator.ofWord?]
    refine (bind_record?_object (by rfl) (by decide) _).trans ?_
    simp [Record.required, Record.slot, hj]
  have hrule : Rule.ofJson? (.object [("name", .text "Lot"),
      ("operators", .array [.object [("op", .text "extrude"), ("height", j)]])]) =
        some ⟨"Lot", [.extrude height]⟩ := by
    rw [Rule.ofJson?]
    refine (bind_record?_object (by rfl) (by decide) _).trans ?_
    simp [Record.required, Record.slot, text?, list?, hop]
  rw [read?_pretty hdocument, Option.bind_some, towerSource, ofJson?]
  refine (bind_record?_object (by rfl) (by decide) _).trans ?_
  simp [Record.orElse, Record.slot, table?_object, readEntry, hrule, tower]
  rfl

/-- A number beyond the greatest finite one is saved as a word that is read as an attribute. -/
theorem load_save_overflow :
    load (towerSource (.number { whole := 1, exponent := some 39 })).pretty =
        .ok (tower (.literal (.ofBits 0x7f800000))) ∧
      load (tower (.literal (.ofBits 0x7f800000))).save =
        .error (.unknownAttribute "inf" "Lot") := by
  have hdouble : Numeral.doubleBits? { whole := 1, exponent := some 39 } =
      some 0x48078287f49c4a1d := by
    have hkept : Numeral.significant { whole := 1, exponent := some 39 } = (1, 39) :=
      Numeral.significant_digitList (n := 1) (by decide) 0 false (some 39)
    rw [Numeral.doubleBits?, Numeral.magnitudeBits?, hkept]
    decide +kernel
  have hnumber : Param.ofJson? (.number { whole := 1, exponent := some 39 }) =
      some (.literal (.ofBits 0x7f800000)) := by
    have hsingle : BinaryFormat.double.convert .single 0x48078287f49c4a1d = 0x7f800000 := by
      decide +kernel
    change (float32? _).map _ = _
    rw [float32?, if_neg (by decide), hdouble, Option.map_some, hsingle]
    rfl
  have hword : Param.ofJson? (.text "inf") = some ⟨"inf", .attribute "inf"⟩ := by
    rw [Param.ofJson?_text, Param.parse, Param.parse_words.2.1]
    rfl
  constructor
  · refine load_eq_ok.mpr ⟨read_towerSource rfl rfl ?_ hnumber, rfl⟩
    rw [isSound, hdouble]
    rfl
  · have hsave : (tower (.literal (.ofBits 0x7f800000))).save =
        (towerSource (.text "inf")).pretty := rfl
    rw [hsave, load_of_read (read_towerSource rfl rfl rfl hword)]
    rfl

/-- A finite number is read back. -/
theorem load_save_tower :
    load (towerSource (.number (.ofNat 2))).pretty = .ok (tower (.literal 2.0)) ∧
      load (tower (.literal 2.0)).save = .ok (tower (.literal 2.0)) := by
  have hdouble : Numeral.doubleBits? (.ofNat 2) = some 0x4000000000000000 := by
    have hkept : Numeral.significant (.ofNat 2) = (2, 0) :=
      Numeral.significant_digitList (n := 2) (by decide) 0 false none
    rw [Numeral.doubleBits?, Numeral.magnitudeBits?, hkept]
    decide +kernel
  have hnumber : Param.ofJson? (.number (.ofNat 2)) = some (.literal 2.0) := by
    have hvalue : Float32.ofDecimal false 2 0 = 2.0 := by
      decide +kernel
    rw [← hvalue]
    rfl
  have hload : load (towerSource (.number (.ofNat 2))).pretty = .ok (tower (.literal 2.0)) := by
    refine load_eq_ok.mpr ⟨read_towerSource rfl rfl ?_ hnumber, rfl⟩
    rw [isSound, hdouble]
    rfl
  have hfinite : ¬(Param.literal 2.0).Overflows := by
    rintro ⟨v, hv, heq⟩
    have hvalue : (2.0 : Float32) = v := Expr.number.inj (congrArg Param.expr heq)
    rw [← hvalue] at hv
    exact absurd hv (by decide +kernel)
  refine ⟨hload, (load_save hload).mpr ?_⟩
  intro r hr op hop
  obtain rfl := List.mem_singleton.mp hr
  obtain rfl := List.mem_singleton.mp hop
  exact ⟨List.forall_mem_singleton.mpr hfinite, List.forall_mem_nil _⟩

end Grammar

end ShapeGrammar
