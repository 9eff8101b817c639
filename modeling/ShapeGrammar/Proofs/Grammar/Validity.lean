import ShapeGrammar.Grammar.Validity

/-!
# What a check comes to

Checks report the first fault they find. A grammar passes if nothing in it is faulty: each
attribute is finite and, if it is a choice, within its range, and each rule passes its own check.
Main statements: `Attribute.validate_eq_ok_iff`, `Grammar.validate_eq_ok_iff`.
-/
namespace ShapeGrammar

variable {α : Type} [Scalar α]

theorem Attribute.validate_eq_ok_iff {a : Attribute α} : a.validate = .ok () ↔
    (Scalar.isFinite a.value = true ∧ Scalar.isFinite a.start = true ∧
      Scalar.isFinite a.stop = true) ∧
    (a.ranged = true → ¬a.stop < a.start ∧ ¬a.value < a.start - a.slack ∧
      ¬a.stop + a.slack < a.value) := by
  rw [validate]
  split
  next hinfinite =>
    refine iff_of_false nofun fun ⟨⟨hvalue, hstart, hstop⟩, _⟩ => ?_
    rw [hvalue, hstart, hstop] at hinfinite
    cases hinfinite
  next hfinite =>
    simp only [Bool.not_eq_true, Bool.not_eq_false', Bool.and_eq_true] at hfinite
    obtain ⟨⟨hvalue, hstart⟩, hstop⟩ := hfinite
    split
    next hconstant =>
      refine iff_of_true rfl ⟨⟨hvalue, hstart, hstop⟩, fun hranged => ?_⟩
      rw [hranged] at hconstant
      cases hconstant
    next hranged =>
      rw [Bool.not_eq_true, Bool.not_eq_false'] at hranged
      split
      next hreversed => exact iff_of_false nofun fun h => (h.2 hranged).1 hreversed
      next hordered =>
        split
        next houtside =>
          exact iff_of_false nofun fun h => houtside.elim (h.2 hranged).2.1 (h.2 hranged).2.2
        next hinside =>
          exact iff_of_true rfl ⟨⟨hvalue, hstart, hstop⟩, fun _ => ⟨hordered, not_or.mp hinside⟩⟩

namespace Grammar

variable {g : Grammar α}

theorem checkAll_eq_ok_iff {β ε : Type} {check : β → Except ε Unit} {items : List β} :
    checkAll check items = .ok () ↔ ∀ x ∈ items, check x = .ok () := by
  induction items with
  | nil => simp [checkAll]
  | cons x rest ih =>
    rw [List.forall_mem_cons, ← ih, checkAll]
    cases hx : check x with
    | error cause => exact iff_of_false nofun fun h => nomatch h.1
    | ok done => exact ⟨fun h => ⟨rfl, h⟩, And.right⟩

theorem validate_eq_ok_iff : g.validate = .ok () ↔
    (∀ a ∈ g.attributes.values, a.validate = .ok ()) ∧
      ∀ entry ∈ g.rules.toList, g.validateRule entry = .ok () := by
  rw [← checkAll_eq_ok_iff, ← checkAll_eq_ok_iff, validate]
  cases hattributes : checkAll Attribute.validate g.attributes.values with
  | error cause => exact iff_of_false nofun fun h => nomatch h.1
  | ok done => exact ⟨fun h => ⟨rfl, h⟩, And.right⟩

/-- In a valid grammar every rule passes its check. -/
theorem validateRule_of_validate {name : String} {rule : Rule α} (hvalid : g.validate = .ok ())
    (hrule : g.rule? name = some rule) : g.validateRule (name, rule) = .ok () := by
  have hentry : (name, rule) ∈ g.rules.toList := by
    obtain ⟨before, after, hsplit, _⟩ := List.lookup_eq_some_iff.mp hrule
    rw [Table.toList, hsplit]
    exact List.mem_append_right _ List.mem_cons_self
  exact (validate_eq_ok_iff.mp hvalid).2 _ hentry

end Grammar

end ShapeGrammar
