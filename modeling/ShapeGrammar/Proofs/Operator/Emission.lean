import Mathlib.Data.List.Basic
import ShapeGrammar.Operator.Emission

/-!
# What an operator puts on a list

Whichever way an operator looks at the room that is left, it puts the first of its successors on the
list, as many as fit, and nothing if it fails. Main statement: `onto_applyOnto`.
-/
namespace ShapeGrammar

variable {α : Type}

/-! ## Filling up a list -/

/-- A list that is filled up with shapes until it has reached a limit. -/
def filled (limit : ℕ) (shapes : List (Shape α)) (out : Array (Shape α)) : Array (Shape α) :=
  out ++ (shapes.take (limit - out.size)).toArray

@[simp] theorem filled_nil (limit : ℕ) (out : Array (Shape α)) : filled limit [] out = out := by
  simp [filled]

theorem filled_cons (limit : ℕ) (s : Shape α) (rest : List (Shape α)) (out : Array (Shape α)) :
    filled limit (s :: rest) out =
      filled limit rest (if out.size < limit then out.push s else out) := by
  by_cases hfits : out.size < limit
  · have hroom : limit - out.size = limit - (out.size + 1) + 1 := by omega
    rw [if_pos hfits, filled, filled, Array.size_push, hroom, List.take_succ_cons,
      Array.push_eq_append, Array.append_assoc]
    simp
  · have hroom : limit - out.size = 0 := by omega
    simp [filled, hfits, hroom]

/-! ## Work and what it comes to -/

/-- What work on a list comes to if it does what was described: the rule goes on and the list stays,
or the rule ends and the list is filled up with successors. A failure leaves the list alone. -/
def Effect.onto (limit : ℕ) (out : Array (Shape α)) :
    Except (EvalError α) (Effect α) → Except (EvalError α) (Option (Shape α)) × Array (Shape α)
  | .error cause => (.error cause, out)
  | .ok (.continues next) => (.ok (some next), out)
  | .ok (.ends made) => (.ok none, filled limit made.toList out)

namespace Emission

/-- Work on a list that is not to grow past a limit does what was described. -/
def Does (limit : ℕ) (work : Emission α (Option (Shape α)))
    (described : Except (EvalError α) (Effect α)) : Prop :=
  ∀ out, work.onto out = Effect.onto limit out described

variable {limit : ℕ} {γ : Type}

/-- An evaluation leaves the list as it is. -/
theorem Does.bind (x : Except (EvalError α) γ) {rest : γ → Emission α (Option (Shape α))}
    {described : γ → Except (EvalError α) (Effect α)}
    (h : ∀ v, Does limit (rest v) (described v)) :
    Does limit (liftM x >>= rest) (x >>= described) := by
  intro out
  cases x with
  | error cause => rfl
  | ok v => exact h v out

theorem does_continues (next : Shape α) :
    Does limit (pure (some next)) (.ok (.continues next)) :=
  fun _ => rfl

theorem does_nothing : Does (α := α) limit (pure none) (.ok (.ends (.listed []))) :=
  fun out => congrArg (Prod.mk _) (filled_nil limit out).symm

theorem does_ends {change : Array (Shape α) → Array (Shape α)} (made : Successors α)
    (h : ∀ out, change out = filled limit made.toList out) :
    Does limit (do modify change; return none) (.ok (.ends made)) :=
  fun out => congrArg (Prod.mk _) (h out)

end Emission

namespace Operator

theorem emitCopy_eq (limit : ℕ) (shape : Shape α) (name : String) (out : Array (Shape α)) :
    emitCopy limit shape name out = filled limit [shape.rename name] out := by
  rw [filled_cons, filled_nil, emitCopy]

variable [Elementary α] {values : String → Option α}

theorem emitParts_eq (limit : ℕ) (shape : Shape α) (axis : Axis) (offset : α)
    (parts : List (SplitPart α)) (lengths : List α) (out : Array (Shape α)) :
    emitParts limit shape axis offset (parts.zip lengths) out =
      filled limit ((parts.zip (Split.cuts offset lengths)).filterMap fun (part, offset, length) =>
        if part.name ≠ discardName ∧ 0.0 < length then
          some (shape.slice axis offset length part.name)
        else none) out := by
  induction lengths generalizing offset parts out with
  | nil => simp [emitParts, Split.cuts]
  | cons length lengths ih =>
    cases parts with
    | nil => simp [emitParts]
    | cons part parts =>
      simp only [List.zip_cons_cons, Split.cuts, List.filterMap_cons, emitParts, ih]
      by_cases hkept : part.name ≠ discardName ∧ 0.0 < length
      · simp [hkept, filled_cons]
      · have hdropped : ¬(part.name ≠ discardName ∧ 0.0 < length ∧ out.size < limit) :=
          fun h => hkept ⟨h.1, h.2.1⟩
        rw [if_neg hkept, if_neg hdropped]

theorem emitTiles_eq (limit : ℕ) (shape : Shape α) (axis : Axis) (name : String) (count : ℕ)
    (out : Array (Shape α)) :
    emitTiles limit shape axis name count out =
      filled limit (tiles shape axis name count).toList out := by
  simp only [emitTiles, List.foldl_push_eq_append, filled, tiles, Successors.toList,
    ← List.map_take, List.take_range, Nat.min_comm]

theorem emitSides_eq (limit : ℕ) (shape : Shape α) (names : SideNames) (out : Array (Shape α)) :
    emitSides limit shape names out = filled limit (sideShapes shape names) out := by
  rw [emitSides, sideShapes]
  induction Side.all generalizing out with
  | nil => simp
  | cons k rest ih =>
    rw [List.foldl_cons, ih, List.filterMap_cons]
    cases names.name k with
    | none => rfl
    | some name =>
      by_cases hkept : name = discardName
      · simp [Option.filter, hkept]
      · by_cases hfits : out.size < limit <;> simp [Option.filter, hkept, hfits, filled_cons]

/-! ## Whole applications -/

open Emission in
/-- An operator does onto a list what it does to a shape. -/
theorem applyOnto_does (limit : ℕ) (op : Operator α) (shape : Shape α) :
    Does limit (op.applyOnto values limit shape) (op.effect values shape) := by
  cases op with
  | extrude height => exact .bind _ fun h => does_continues _
  | split axis parts =>
    refine .bind _ fun specs => ?_
    cases Split.lengths (shape.size.get axis) specs with
    | none => exact does_nothing
    | some lengths =>
      exact does_ends (.listed _) (emitParts_eq limit shape axis 0.0 parts lengths)
  | tile axis size name =>
    refine .bind _ fun tile => ?_
    split
    · exact does_nothing
    · exact .bind _ fun count => does_ends _ (emitTiles_eq limit shape axis name count)
  | translate v | rotate v | resize v => exact .bind _ fun v => does_continues _
  | decompose names =>
    by_cases hbox : shape.isBox = true
    · simp only [applyOnto, effect, if_pos hbox]
      exact does_ends (.listed _) (emitSides_eq limit shape names)
    · simp only [applyOnto, effect, if_neg hbox]
      exact does_nothing
  | copy name => exact does_ends (.listed _) (emitCopy_eq limit shape name)
  | paint color => exact does_continues _

/-- An application leaves the shape at hand and fills the list up with the successors, or it fails
and leaves the list alone. -/
theorem onto_applyOnto (values : String → Option α) (limit : ℕ) (op : Operator α)
    (shape : Shape α) (out : Array (Shape α)) :
    (op.applyOnto values limit shape).onto out =
      match op.apply values shape with
      | .error cause => (.error cause, out)
      | .ok made => (.ok made.current, filled limit made.emitted out) := by
  rw [applyOnto_does limit op shape out, apply]
  rcases op.effect values shape with cause | ⟨next | made⟩
  · rfl
  · exact congrArg (Prod.mk _) (filled_nil limit out).symm
  · rfl

/-- An application with a limit makes the first of the successors that one without limit makes. -/
theorem applyWithin_eq_map (values : String → Option α) (limit : ℕ) (op : Operator α)
    (shape : Shape α) :
    op.applyWithin values limit shape =
      (op.apply values shape).map fun made => ⟨made.emitted.take limit, made.current⟩ := by
  rw [applyWithin, onto_applyOnto]
  cases op.apply values shape with
  | error cause => rfl
  | ok made => simp [filled, Except.map]

end Operator

end ShapeGrammar
