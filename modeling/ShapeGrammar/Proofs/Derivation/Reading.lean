import Mathlib.Data.List.Basic
import ShapeGrammar.Derivation.Expansion
import ShapeGrammar.Proofs.Operator.Emission

/-!
# What a rule reads

A rule looks at a grammar through the values of the attributes that its parameters read, and through
nothing else. Values that agree on those attributes are the same to it: from expressions to
operators to all that a rule makes of a shape. Main statement: `Growth.ofOperators_congr`.
-/
namespace ShapeGrammar

variable {α : Type}

/-- Whether two readings of attributes agree on some names. -/
def AgreeOn (names : List String) (values values' : String → Option α) : Prop :=
  ∀ name ∈ names, values name = values' name

theorem AgreeOn.of_subset {names more : List String} {values values' : String → Option α}
    (h : AgreeOn more values values') (hsub : ∀ name ∈ names, name ∈ more) :
    AgreeOn names values values' :=
  fun name hname => h name (hsub name hname)

variable {values values' : String → Option α}

theorem Expr.eval_congr [Scalar α] (scope : Vec3 α) :
    ∀ {e : Expr α}, AgreeOn e.attributeNames values values' →
      e.eval values scope = e.eval values' scope
  | .number _, _ => rfl
  | .attribute name, h => by
    have hname := h name (List.mem_singleton_self name)
    simp only [eval, hname]
  | .extent _, _ => rfl
  | .neg operand, h => by
    have hoperand : operand.eval values scope = operand.eval values' scope := eval_congr scope h
    simp only [eval, hoperand]
  | .binary op left right, h => by
    have hleft : left.eval values scope = left.eval values' scope :=
      eval_congr scope (h.of_subset fun _ => List.mem_append_left _)
    have hright : right.eval values scope = right.eval values' scope :=
      eval_congr scope (h.of_subset fun _ => List.mem_append_right _)
    simp only [eval, hleft, hright]

/-- The attributes that parameters read, one after the other. -/
def Param.readBy (params : List (Param α)) : List String :=
  params.flatMap fun p => p.expr.attributeNames

namespace Operator

variable [Elementary α]

theorem eval_param_congr {params : List (Param α)}
    (h : AgreeOn (Param.readBy params) values values') (scope : Vec3 α) :
    ∀ p ∈ params, p.expr.eval values scope = p.expr.eval values' scope :=
  fun p hp => Expr.eval_congr scope
    (h.of_subset fun _ hname => List.mem_flatMap.mpr ⟨p, hp, hname⟩)

theorem evalVector_congr {v : Vec3 (Param α)}
    (h : AgreeOn (Param.readBy v.toList) values values') (scope : Vec3 α) :
    evalVector values scope v = evalVector values' scope v := by
  have hparam := eval_param_congr h scope
  simp only [evalVector, hparam v.x (by simp [Vec3.toList]), hparam v.y (by simp [Vec3.toList]),
    hparam v.z (by simp [Vec3.toList])]

theorem evalParts_congr {parts : List (SplitPart α)}
    (h : AgreeOn (Param.readBy (parts.map (·.size))) values values') (scope : Vec3 α) :
    evalParts values scope parts = evalParts values' scope parts := by
  have hparam := eval_param_congr h scope
  induction parts with
  | nil => rfl
  | cons part rest ih =>
    have hrest := ih (h.of_subset fun _ => List.mem_append_right _)
      fun p hp => hparam p (List.mem_cons_of_mem _ hp)
    simp only [evalParts, hparam part.size List.mem_cons_self, hrest]

/-- What an operator does depends on no other values than those its parameters read. -/
theorem effect_congr {op : Operator α} (h : AgreeOn (Param.readBy op.params) values values')
    (shape : Shape α) : op.effect values shape = op.effect values' shape := by
  have hparam := eval_param_congr h shape.size
  cases op with
  | extrude height => simp only [effect, hparam height (List.mem_singleton_self height)]
  | split axis parts => simp only [effect, evalParts_congr h]
  | tile axis size name => simp only [effect, hparam size (List.mem_singleton_self size)]
  | translate offset => simp only [effect, evalVector_congr h]
  | rotate angles => simp only [effect, evalVector_congr h]
  | resize size => simp only [effect, evalVector_congr h]
  | decompose names => rfl
  | copy name => rfl
  | paint color => rfl

theorem applyWithin_congr {op : Operator α} (h : AgreeOn (Param.readBy op.params) values values')
    (limit : Nat) (shape : Shape α) :
    op.applyWithin values limit shape = op.applyWithin values' limit shape := by
  simp only [applyWithin_eq_map, apply, effect_congr h]

end Operator

/-- What operators make of a shape depends on no other values than those their parameters read. -/
theorem Growth.ofOperators_congr [Elementary α] {ops : List (Operator α)}
    (h : AgreeOn (Param.readBy (ops.flatMap Operator.params)) values values') (room : Nat)
    (shape : Shape α) :
    Growth.ofOperators values room ops shape = Growth.ofOperators values' room ops shape := by
  induction ops generalizing shape with
  | nil => rfl
  | cons op rest ih =>
    simp only [List.flatMap_cons, Param.readBy, List.flatMap_append] at h
    have hop : AgreeOn (Param.readBy op.params) values values' :=
      h.of_subset fun _ => List.mem_append_left _
    have hrest := ih (h.of_subset fun _ => List.mem_append_right _)
    simp only [ofOperators, Operator.applyWithin_congr hop, hrest]

end ShapeGrammar
