import ShapeGrammar.Proofs.Random.Below
import ShapeGrammar.Search.Pool

/-!
# What a pool holds

A pool is read as the list of its entries. Main statement: a draw takes one entry away and leaves
the others, in whatever order.
-/
namespace ShapeGrammar

namespace ActionPool

variable {p : ActionPool}

/-- The entries of a pool, place by place. -/
def toList (p : ActionPool) : List Nat :=
  (List.range p.remaining).map p.entry

@[simp] theorem length_toList (p : ActionPool) : p.toList.length = p.remaining := by
  simp [toList]

@[simp] theorem toList_full (size : Nat) : (full size).toList = List.range size := by
  have hentry : (full size).entry = id := by
    funext place
    simp [entry, full]
  rw [toList, hentry, List.map_id]
  rfl

theorem isEmpty_iff : p.isEmpty = true ↔ p.toList = [] := by
  rw [isEmpty, beq_iff_eq, ← length_toList, List.length_eq_zero_iff]

/-- Of the places that are kept only the drawn one changes. -/
theorem entry_drawAt {place i : Nat} (hi : i < p.remaining - 1) :
    (p.drawAt place).2.entry i = if i = place then p.entry (p.remaining - 1) else p.entry i := by
  have hlast : p.remaining - 1 ≠ i := by omega
  simp only [drawAt, entry, Std.TreeMap.getElem?_erase, Nat.compare_eq_eq, if_neg hlast]
  by_cases hplace : place = p.remaining - 1
  · rw [if_pos hplace, if_neg (by omega)]
  · rw [if_neg hplace, Std.TreeMap.getElem?_insert]
    by_cases hself : place = i
    · simp [hself]
    · simp [hself, Ne.symm hself]

/-- The entry at a place is taken away, the last one moves there, and the others stay. -/
theorem toList_drawAt {place : Nat} (h : place < p.remaining) :
    p.toList.Perm ((p.drawAt place).1 :: (p.drawAt place).2.toList) := by
  have hcount : (p.drawAt place).2.remaining = p.remaining - 1 := rfl
  have htaken : (p.drawAt place).1 = p.entry place := rfl
  obtain ⟨last, hlast⟩ : ∃ last, p.remaining = last + 1 := ⟨p.remaining - 1, by omega⟩
  have hall : p.toList = (List.range last).map p.entry ++ [p.entry last] := by
    rw [toList, hlast, List.range_succ, List.map_append, List.map_singleton]
  have hsub : p.remaining - 1 = last := by omega
  rw [htaken, hall, toList, hcount, hsub]
  by_cases hplace : place = last
  · have hkept : (List.range last).map (p.drawAt place).2.entry =
        (List.range last).map p.entry := by
      refine List.map_congr_left fun i hi => ?_
      rw [List.mem_range] at hi
      rw [entry_drawAt (by omega), if_neg (by omega)]
    rw [hkept, hplace]
    exact List.perm_append_comm
  · -- the places before and behind the drawn one keep their entries
    obtain ⟨rest, hrest⟩ : ∃ rest, last = place + (rest + 1) := ⟨last - place - 1, by omega⟩
    have hsplit : List.range last =
        List.range place ++ place :: List.range' (place + 1) rest := by
      rw [hrest, List.range_eq_range', ← List.range'_append_1, List.range'_succ,
        ← List.range_eq_range', Nat.zero_add]
    have hbefore : (List.range place).map (p.drawAt place).2.entry =
        (List.range place).map p.entry := by
      refine List.map_congr_left fun i hi => ?_
      rw [List.mem_range] at hi
      rw [entry_drawAt (by omega), if_neg (by omega)]
    have hbehind : (List.range' (place + 1) rest).map (p.drawAt place).2.entry =
        (List.range' (place + 1) rest).map p.entry := by
      refine List.map_congr_left fun i hi => ?_
      rw [List.mem_range'_1] at hi
      rw [entry_drawAt (by omega), if_neg (by omega)]
    have hmoved : (p.drawAt place).2.entry place = p.entry last := by
      rw [entry_drawAt (by omega), if_pos rfl, hsub]
    rw [hsplit]
    simp only [List.map_append, List.map_cons, hbefore, hbehind, hmoved, List.append_assoc,
      List.cons_append]
    refine List.perm_middle.trans (List.Perm.cons _ ?_)
    exact (List.Perm.append_left _ List.perm_append_comm)

theorem draw_eq_none_iff (rng : Generator) : p.draw rng = none ↔ p.isEmpty = true := by
  unfold draw
  split <;> simp_all

/-- What a draw gives was in the pool, and the pool keeps the rest. -/
theorem toList_of_draw {rng rng' : Generator} {action : Nat} {p' : ActionPool}
    (h : p.draw rng = some (action, p', rng')) : p.toList.Perm (action :: p'.toList) := by
  unfold draw at h
  split at h
  · cases h
  next hsome =>
    have hpos : 0 < p.remaining := by
      rw [Bool.not_eq_true, isEmpty, beq_eq_false_iff_ne] at hsome
      omega
    have hplace := Generator.below_lt hpos rng
    cases h
    exact toList_drawAt hplace

end ActionPool

end ShapeGrammar
