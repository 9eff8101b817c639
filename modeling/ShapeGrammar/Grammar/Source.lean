import ShapeGrammar.Grammar.Validity
import ShapeGrammar.Json.Printer
import ShapeGrammar.Json.Reader

/-!
# Grammar sources

Grammars are written as JSON. An attribute is a choice if either end of a range is given, unless
it says otherwise; parameters are expressions or numbers, and are saved as text.
-/
namespace ShapeGrammar

/-! ## Reading -/

namespace Attribute

def ofJson? (j : Json) : Option (Attribute Float32) := do
  let r ← j.record? ["name", "range_start", "range_end", "value", "fixed", "has_range"]
  let name ← r.required 0 Json.text?
  let start ← r.optional 1 Json.float32?
  let stop ← r.optional 2 Json.float32?
  let value ← r.required 3 Json.float32?
  let fixed ← r.orElse 4 Json.bool? false
  let ranged ← r.optional 5 Json.bool?
  return { name, value, fixed
           start := start.getD 0.0
           stop := stop.getD 0.0
           ranged := ranged.getD (start.isSome || stop.isSome) }

end Attribute

/-- The parameter that stands where none is written. -/
def Param.zero : Param Float32 :=
  .literal 0.0

/-- A word, which may also be written as the one key of an object that holds nothing. -/
def Json.word? : Json → Option String
  | .text word => some word
  | .object [(word, .null)] => some word
  | .object [(word, .object [])] => some word
  | _ => none

def Axis.ofJson? (j : Json) : Option Axis :=
  match j.word? with
  | some "x" => some .x
  | some "y" => some .y
  | some "z" => some .z
  | _ => none

def SizeMode.ofJson? (j : Json) : Option SizeMode :=
  match j.word? with
  | some "absolute" => some .absolute
  | some "relative" => some .relative
  | some "floating" => some .floating
  | _ => none

def SplitPart.ofJson? (j : Json) : Option (SplitPart Float32) := do
  let r ← j.record? ["size", "mode", "name"]
  let size ← r.required 0 Param.ofJson?
  let mode ← r.orElse 1 SizeMode.ofJson? .absolute
  let name ← r.required 2 Json.text?
  return { size, mode, name }

def SideNames.ofJson? (j : Json) : Option SideNames := do
  let r ← j.record? ["front", "right", "back", "left", "top", "bottom", "side"]
  let name (i : Nat) : Option (Option String) := r.orElse i (Json.orNull? Json.text?) none
  return { front := ← name 0, right := ← name 1, back := ← name 2, left := ← name 3
           top := ← name 4, bottom := ← name 5, side := ← name 6 }

/-- Three numbers. -/
def Vec3.ofJson? (j : Json) : Option (Vec3 Float32) := do
  match ← j.list? Json.float32? with
  | [x, y, z] => return ⟨x, y, z⟩
  | _ => none

namespace Operator

/-- Three parameters; without a `default` all of them must be written. -/
def vectorOfJson? (default : Option (Param Float32)) (j : Json) :
    Option (Vec3 (Param Float32)) := do
  let r ← j.record? ["x", "y", "z"]
  let param (i : Nat) : Option (Param Float32) :=
    match default with
    | none => r.required i Param.ofJson?
    | some zero => r.orElse i Param.ofJson? zero
  return ⟨← param 0, ← param 1, ← param 2⟩

/-- The operator of a word, from the record of its fields. -/
def ofWord? (word : String) (body : Json) : Option (Operator Float32) :=
  match word with
  | "extrude" => do
    let r ← body.record? ["height"]
    return .extrude (← r.required 0 Param.ofJson?)
  | "split" => do
    let r ← body.record? ["axis", "parts"]
    return .split (← r.required 0 Axis.ofJson?) (← r.required 1 (Json.list? SplitPart.ofJson?))
  | "repeat" => do
    let r ← body.record? ["axis", "size", "name"]
    return .tile (← r.required 0 Axis.ofJson?) (← r.required 1 Param.ofJson?)
      (← r.required 2 Json.text?)
  | "translate" => (vectorOfJson? (some Param.zero) body).map .translate
  | "rotate" => (vectorOfJson? (some Param.zero) body).map .rotate
  | "size" => (vectorOfJson? none body).map .resize
  | "comp" => (SideNames.ofJson? body).map .decompose
  | "copy" => do
    let r ← body.record? ["name"]
    return .copy (← r.required 0 Json.text?)
  | "color" => do
    let r ← body.record? ["rgb"]
    return .paint (← r.required 0 Vec3.ofJson?)
  | _ => none

/-- How many containers a source may nest where all of it is looked at. -/
def maxDepth : Nat :=
  127

/-- The operator of an object with its word under `op`, or of an array that starts with its word;
`outer` counts the containers around it. The fields are only told apart once the word is known, so
all of them have to be sound. -/
def ofJson? (outer : Nat) (j : Json) : Option (Operator Float32) :=
  if maxDepth < outer + j.depth ∨ j.isSound = false then none
  else
    match j with
    | .object members =>
      if Json.occurrences "op" members ≤ 1 then do
        let word ← (← members.lookup "op").text?
        ofWord? word (.object (members.filter (·.1 != "op")))
      else none
    | .array (.text word :: fields) => ofWord? word (.array fields)
    | _ => none

end Operator

/-- Rules stand three containers deep in a source, their operators four. -/
def Rule.ofJson? (j : Json) : Option (Rule Float32) := do
  let r ← j.record? ["name", "operators"]
  let name ← r.required 0 Json.text?
  let operators ← r.required 1 (Json.list? (Operator.ofJson? 4))
  return { name, operators }

namespace Grammar

def ofJson? (j : Json) : Option (Grammar Float32) := do
  let r ← j.record? ["attrs", "rules"]
  let attributes ← r.orElse 0 (Json.table? Attribute.ofJson?) .empty
  let rules ← r.orElse 1 (Json.table? Rule.ofJson?) .empty
  return { attributes, rules }

/-- The grammar of a text, as it stands there. -/
def read (text : String) : Except (GrammarError Float32) (Grammar Float32) :=
  match (Json.read? text).bind ofJson? with
  | some g => .ok g
  | none => .error .source

/-- The grammar of a text, if it is valid. -/
def load (text : String) : Except (GrammarError Float32) (Grammar Float32) := do
  let g ← read text
  g.validate
  return g

end Grammar

/-! ## Writing -/

namespace Attribute

def toJson (a : Attribute Float32) : Json :=
  .object [
    ("name", .text a.name),
    ("range_start", .ofFloat32 a.start),
    ("range_end", .ofFloat32 a.stop),
    ("value", .ofFloat32 a.value),
    ("fixed", .bool a.fixed),
    ("has_range", .bool a.ranged)]

end Attribute

def Axis.word : Axis → String
  | .x => "x"
  | .y => "y"
  | .z => "z"

def SizeMode.word : SizeMode → String
  | .absolute => "absolute"
  | .relative => "relative"
  | .floating => "floating"

def SplitPart.toJson (p : SplitPart Float32) : Json :=
  .object [("size", p.size.toJson), ("mode", .text p.mode.word), ("name", .text p.name)]

namespace Operator

/-- Three parameters under the names of the axes. -/
def vectorFields (v : Vec3 (Param Float32)) : List (String × Json) :=
  [("x", v.x.toJson), ("y", v.y.toJson), ("z", v.z.toJson)]

/-- The fields of an operator. -/
def fields : Operator Float32 → List (String × Json)
  | .extrude height => [("height", height.toJson)]
  | .split axis parts =>
    [("axis", .text axis.word), ("parts", .array (parts.map SplitPart.toJson))]
  | .tile axis size name =>
    [("axis", .text axis.word), ("size", size.toJson), ("name", .text name)]
  | .translate v | .rotate v | .resize v => vectorFields v
  | .decompose names =>
    [("front", .ofOption .text names.front), ("right", .ofOption .text names.right),
      ("back", .ofOption .text names.back), ("left", .ofOption .text names.left),
      ("top", .ofOption .text names.top), ("bottom", .ofOption .text names.bottom),
      ("side", .ofOption .text names.side)]
  | .copy name => [("name", .text name)]
  | .paint color => [("rgb", .array (color.toList.map Json.ofFloat32))]

def toJson (op : Operator Float32) : Json :=
  .object (("op", .text op.word) :: op.fields)

end Operator

def Rule.toJson (r : Rule Float32) : Json :=
  .object [("name", .text r.name), ("operators", .array (r.operators.map Operator.toJson))]

namespace Grammar

/-- The members of a table. -/
def tableToJson {β : Type} (f : β → Json) (t : Table β) : Json :=
  .object (t.toList.map fun (key, x) => (key, f x))

def toJson (g : Grammar Float32) : Json :=
  .object [("attrs", tableToJson Attribute.toJson g.attributes),
    ("rules", tableToJson Rule.toJson g.rules)]

/-- The text a grammar is saved as. -/
def save (g : Grammar Float32) : String :=
  g.toJson.pretty

end Grammar

end ShapeGrammar
