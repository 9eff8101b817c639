import ShapeGrammar.Grammar.ActionSpace

/-!
# What fixing choices changes

The choices of an action space are different names, so each of them is fixed once, at its own digit
of the action. Main statements: what a decision leaves of every attribute, and that it leaves the
rules, and of an attribute everything but its value and whether it is fixed.
-/
namespace ShapeGrammar

namespace Table

variable {β : Type}

theorem lookup_map_snd (f : String → β → β) (entries : List (String × β)) (key : String) :
    (entries.map fun entry => (entry.1, f entry.1 entry.2)).lookup key =
      (entries.lookup key).map (f key) := by
  induction entries with
  | nil => rfl
  | cons entry rest ih =>
    obtain ⟨k, x⟩ := entry
    rw [List.map_cons, List.lookup_cons, List.lookup_cons]
    by_cases h : key = k
    · simp [h]
    · simpa [beq_false_of_ne h] using ih

/-- Of the values of a table only the one under the key changes. -/
theorem find?_modify (t : Table β) (key name : String) (f : β → β) :
    (t.modify key f).find? name =
      (t.find? name).map fun x => if name = key then f x else x := by
  have hentries : (t.modify key f).entries =
      t.entries.map fun entry => (entry.1, if entry.1 = key then f entry.2 else entry.2) := by
    refine List.map_congr_left fun entry _ => ?_
    split <;> rfl
  rw [find?, hentries, lookup_map_snd (fun k x => if k = key then f x else x), find?]

end Table

namespace Grammar

variable {α : Type}

theorem attribute?_modify (g : Grammar α) (key name : String)
    (f : Attribute α → Attribute α) :
    (g.modify key f).attribute? name =
      (g.attribute? name).map fun a => if name = key then f a else a :=
  g.attributes.find?_modify key name f

theorem isFree_iff {g : Grammar α} {name : String} :
    g.isFree name = true ↔ ∃ a, g.attribute? name = some a ∧ a.isFree = true := by
  simp [isFree, Option.any_eq_true]

theorem isRanged_iff {g : Grammar α} {name : String} :
    g.isRanged name = true ↔ ∃ a, g.attribute? name = some a ∧ a.ranged = true := by
  simp [isRanged, Option.any_eq_true]

end Grammar

/-- What of an attribute stays as it was declared: all but its value and whether it is fixed. -/
def Attribute.declaration {α : Type} (a : Attribute α) : String × α × α × Bool :=
  (a.name, a.start, a.stop, a.ranged)

/-- A later state of a grammar: it has the same rules, and the same attributes but for their values
and for whether they are fixed. -/
structure Grammar.Snapshot {α : Type} (g g' : Grammar α) : Prop where
  rules : g'.rules = g.rules
  attributes : ∀ name, (g'.attribute? name).map Attribute.declaration =
    (g.attribute? name).map Attribute.declaration

namespace Grammar.Snapshot

variable {α : Type} {g g' g'' : Grammar α}

theorem refl (g : Grammar α) : g.Snapshot g :=
  ⟨rfl, fun _ => rfl⟩

theorem trans (h : g.Snapshot g') (h' : g'.Snapshot g'') : g.Snapshot g'' :=
  ⟨h'.rules.trans h.rules, fun name => (h'.attributes name).trans (h.attributes name)⟩

theorem rule?_eq (h : g.Snapshot g') (name : String) : g'.rule? name = g.rule? name := by
  rw [rule?, rule?, h.rules]

/-- Whether an attribute is a choice does not change. -/
theorem isRanged_eq (h : g.Snapshot g') (name : String) : g'.isRanged name = g.isRanged name := by
  have hranged (a : Grammar α) :
      a.isRanged name = ((a.attribute? name).map Attribute.declaration).any (·.2.2.2) := by
    rw [isRanged]
    cases a.attribute? name <;> rfl
  rw [hranged, hranged, h.attributes]

theorem modify (g : Grammar α) (key : String) {f : Attribute α → Attribute α}
    (hf : ∀ a, (f a).declaration = a.declaration) : g.Snapshot (g.modify key f) where
  rules := rfl
  attributes := by
    intro name
    rw [attribute?_modify, Option.map_map]
    refine congrArg (Option.map · _) (funext fun a => ?_)
    simp only [Function.comp]
    split
    · exact hf a
    · rfl

end Grammar.Snapshot

namespace ActionSpace

variable {α : Type} [Scalar α] {s : ActionSpace} {g : Grammar α} {action : Nat}

/-- A grammar in which some attributes have been fixed at levels, one after the other. -/
def commitAll (g : Grammar α) (levels : List (String × Nat)) : Grammar α :=
  levels.foldl (fun g (name, level) => g.modify name fun a => a.commit level) g

theorem decode_eq (s : ActionSpace) (g : Grammar α) (action : Nat) :
    s.decode g action = commitAll g (s.free.zip (s.levels action)) :=
  rfl

theorem snapshot_commitAll (g : Grammar α) (levels : List (String × Nat)) :
    g.Snapshot (commitAll g levels) := by
  induction levels generalizing g with
  | nil => exact .refl g
  | cons entry rest ih =>
    have hfirst : g.Snapshot (g.modify entry.1 fun a => a.commit entry.2) :=
      .modify g entry.1 fun _ => rfl
    exact hfirst.trans (ih _)

/-- An attribute that is not named stays as it is. -/
theorem attribute?_commitAll_of_notMem {levels : List (String × Nat)} {name : String}
    (h : name ∉ levels.map Prod.fst) (g : Grammar α) :
    (commitAll g levels).attribute? name = g.attribute? name := by
  induction levels generalizing g with
  | nil => rfl
  | cons entry rest ih =>
    rw [List.map_cons, List.mem_cons, not_or] at h
    calc
      _ = (g.modify entry.1 fun a => a.commit entry.2).attribute? name := ih h.2 _
      _ = g.attribute? name := by
        rw [Grammar.attribute?_modify]
        simp [h.1]

/-- An attribute that is named once is fixed at its level. -/
theorem attribute?_commitAll_of_mem {levels : List (String × Nat)} {name : String} {level : Nat}
    (hnodup : (levels.map Prod.fst).Nodup) (h : (name, level) ∈ levels) (g : Grammar α) :
    (commitAll g levels).attribute? name = (g.attribute? name).map (·.commit level) := by
  induction levels generalizing g with
  | nil => cases h
  | cons entry rest ih =>
    rw [List.map_cons, List.nodup_cons] at hnodup
    rcases List.mem_cons.mp h with rfl | h
    · calc
        _ = (g.modify name fun a => a.commit level).attribute? name :=
          attribute?_commitAll_of_notMem hnodup.1 _
        _ = (g.attribute? name).map (·.commit level) := by
          rw [Grammar.attribute?_modify]
          simp
    · have hne : name ≠ entry.1 := fun heq =>
        hnodup.1 (List.mem_map.mpr ⟨(name, level), h, heq⟩)
      calc
        _ = ((g.modify entry.1 fun a => a.commit entry.2).attribute? name).map
            (·.commit level) := ih hnodup.2 h _
        _ = (g.attribute? name).map (·.commit level) := by
          rw [Grammar.attribute?_modify]
          simp [hne]

end ActionSpace

end ShapeGrammar
