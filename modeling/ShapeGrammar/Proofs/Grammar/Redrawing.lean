import ShapeGrammar.Proofs.Derivation.Commitment
import ShapeGrammar.Search.Proposal

/-!
# What a search makes of a grammar

A search gives levels to attributes and closes or opens choices. It draws levels at random, decides
a rule's choices by an action, moves choices to neighbouring levels and opens them again, in any
order. Rules, names, declarations and constants stay throughout, and a choice has either the value
it had or the value of one of its levels. Main statement: `Reaches.redrawn`.
-/
namespace ShapeGrammar

namespace Table

variable {β : Type}

@[simp] theorem keys_map (t : Table β) (f : β → β) : (t.map f).keys = t.keys := by
  simp [keys, map, Function.comp_def]

theorem isSome_find?_iff {t : Table β} {key : String} :
    (t.find? key).isSome = true ↔ key ∈ t.keys := by
  rw [find?, keys]
  induction t.entries with
  | nil => simp
  | cons entry rest ih =>
    obtain ⟨k, x⟩ := entry
    rw [List.lookup_cons, List.map_cons, List.mem_cons, ← ih]
    by_cases h : key = k
    · simp [h]
    · simp [beq_false_of_ne h, h]

theorem find?_eq_none_iff {t : Table β} {key : String} : t.find? key = none ↔ key ∉ t.keys := by
  rw [← isSome_find?_iff, Bool.not_eq_true, Option.isSome_eq_false_iff, Option.isNone_iff_eq_none]

theorem mem_values_iff {t : Table β} {x : β} :
    x ∈ t.values ↔ ∃ key, t.find? key = some x := by
  constructor
  · intro hx
    obtain ⟨⟨key, y⟩, hentry, rfl⟩ := List.mem_map.mp hx
    obtain ⟨before, after, hsplit⟩ := List.append_of_mem hentry
    refine ⟨key, List.lookup_eq_some_iff.mpr ⟨before, after, hsplit, fun entry hentry => ?_⟩⟩
    have hordered := t.ordered
    rw [hsplit, List.map_append, List.pairwise_append] at hordered
    have hless := hordered.2.2 entry.1 (List.mem_map_of_mem hentry) key List.mem_cons_self
    exact bne_iff_ne.mpr fun heq => String.lt_irrefl key (heq ▸ hless)
  · rintro ⟨key, hkey⟩
    obtain ⟨before, after, hsplit, _⟩ := List.lookup_eq_some_iff.mp hkey
    rw [values, hsplit]
    simp

theorem find?_map (t : Table β) (f : β → β) (key : String) :
    (t.map f).find? key = (t.find? key).map f :=
  lookup_map_snd (fun _ => f) t.entries key

end Table

variable {α : Type} [Scalar α]

/-- A later state of an attribute: what was declared stays, and the value stays unless the attribute
is a choice and has it at one of its levels. -/
structure Attribute.Redrawn (a b : Attribute α) : Prop where
  declaration : b.declaration = a.declaration
  value : b.value = a.value ∨ a.ranged = true ∧ ∃ level ≤ 9, b.value = a.levelValue level

namespace Attribute

variable {a b c : Attribute α}

theorem levelValue_min (a : Attribute α) (level : Nat) :
    a.levelValue (min level 9) = a.levelValue level := by
  rw [levelValue, levelValue, Nat.min_assoc, Nat.min_self]

/-- What follows from a declaration alone. -/
theorem of_declaration_eq (h : b.declaration = a.declaration) :
    b.name = a.name ∧ b.start = a.start ∧ b.stop = a.stop ∧ b.ranged = a.ranged ∧
      b.levelValue = a.levelValue ∧ b.slack = a.slack := by
  simp only [declaration, Prod.mk.injEq] at h
  obtain ⟨hname, hstart, hstop, hranged⟩ := h
  refine ⟨hname, hstart, hstop, hranged, funext fun level => ?_, ?_⟩
  · rw [levelValue, levelValue, unit, unit, hstart, hstop]
  · rw [slack, slack, hstart, hstop]

namespace Redrawn

theorem refl (a : Attribute α) : a.Redrawn a :=
  ⟨rfl, .inl rfl⟩

theorem trans (h : a.Redrawn b) (h' : b.Redrawn c) : a.Redrawn c where
  declaration := h'.declaration.trans h.declaration
  value := by
    obtain ⟨_, _, _, hranged, hlevels, _⟩ := of_declaration_eq h.declaration
    rcases h'.value with hkept | ⟨hchoice, level, hle, hlevel⟩
    · rw [hkept]
      exact h.value
    · rw [hranged] at hchoice
      rw [hlevels] at hlevel
      exact .inr ⟨hchoice, level, hle, hlevel⟩

theorem release (a : Attribute α) : a.Redrawn a.release :=
  ⟨rfl, .inl rfl⟩

theorem setLevel (h : a.ranged = true) (level : Nat) : a.Redrawn (a.setLevel level) :=
  ⟨rfl, .inr ⟨h, min level 9, Nat.min_le_right level 9, (a.levelValue_min level).symm⟩⟩

theorem commit (h : a.ranged = true) (level : Nat) : a.Redrawn (a.commit level) :=
  ⟨rfl, .inr ⟨h, min level 9, Nat.min_le_right level 9, (a.levelValue_min level).symm⟩⟩

end Redrawn

end Attribute

namespace Grammar

/-- A later state of a grammar with the same rules and names, each attribute in a later state. -/
structure Redrawn (g g' : Grammar α) : Prop where
  rules : g'.rules = g.rules
  keys : g'.attributes.keys = g.attributes.keys
  attributes : ∀ {name a}, g.attribute? name = some a →
    ∃ b, g'.attribute? name = some b ∧ a.Redrawn b

namespace Redrawn

variable {g g' g'' : Grammar α}

theorem refl (g : Grammar α) : g.Redrawn g :=
  ⟨rfl, rfl, fun ha => ⟨_, ha, .refl _⟩⟩

theorem trans (h : g.Redrawn g') (h' : g'.Redrawn g'') : g.Redrawn g'' where
  rules := h'.rules.trans h.rules
  keys := h'.keys.trans h.keys
  attributes := by
    intro name a ha
    obtain ⟨b, hb, hab⟩ := h.attributes ha
    obtain ⟨c, hc, hbc⟩ := h'.attributes hb
    exact ⟨c, hc, hab.trans hbc⟩

theorem modify {key : String} {f : Attribute α → Attribute α}
    (h : ∀ a, g.attribute? key = some a → a.Redrawn (f a)) : g.Redrawn (g.modify key f) where
  rules := rfl
  keys := Table.keys_modify _ _ _
  attributes := by
    intro name a ha
    refine ⟨_, by rw [attribute?_modify, ha, Option.map_some], ?_⟩
    split
    next hname => exact h a (hname ▸ ha)
    · exact .refl a

theorem releaseAll (g : Grammar α) : g.Redrawn g.releaseAll where
  rules := rfl
  keys := Table.keys_map _ _
  attributes := by
    intro name a ha
    exact ⟨a.release, (Table.find?_map _ _ _).trans (congrArg (Option.map _) ha), .release a⟩

theorem randomize {chosen : Attribute α → Bool} (h : ∀ a, chosen a = true → a.ranged = true)
    (g : Grammar α) (rng : Generator) : g.Redrawn (g.randomize chosen rng).1 where
  rules := rfl
  keys := Table.keys_thread _ _ _
  attributes := by
    intro name a ha
    obtain ⟨level, hname⟩ := g.attribute?_randomize chosen rng name
    refine ⟨_, by rw [hname, ha, Option.map_some], ?_⟩
    split
    next hchosen => exact .setLevel (h a hchosen) level
    · exact .refl a

theorem randomizeFree (g : Grammar α) (rng : Generator) : g.Redrawn (g.randomizeFree rng).1 :=
  randomize (fun _ hfree => (Bool.and_eq_true_iff.mp hfree).1) g rng

theorem randomizeAll (g : Grammar α) (rng : Generator) : g.Redrawn (g.randomizeAll rng).1 :=
  randomize (fun _ hranged => hranged) g rng

theorem move (g : Grammar α) (directions : List Nat) : g.Redrawn (g.move directions) where
  rules := rfl
  keys := Table.keys_thread _ _ _
  attributes := by
    intro name a ha
    obtain ⟨here, hname⟩ := g.attributes.find?_thread moveAttribute directions name
    refine ⟨(moveAttribute a here).1, hname.trans (congrArg (Option.map _) ha), ?_⟩
    unfold moveAttribute
    split
    next hranged => exact .setLevel hranged _
    · exact .refl a

theorem propose (g : Grammar α) (rng : Generator) : g.Redrawn (g.propose rng).1 :=
  move g _

theorem commitAll {levels : List (String × Nat)}
    (h : ∀ name ∈ levels.map Prod.fst, g.isRanged name = true) :
    g.Redrawn (ActionSpace.commitAll g levels) := by
  induction levels generalizing g with
  | nil => exact .refl g
  | cons entry rest ih =>
    have hfirst : g.Redrawn (g.modify entry.1 fun a => a.commit entry.2) := by
      refine .modify fun a ha => .commit ?_ entry.2
      obtain ⟨b, hb, hranged⟩ := isRanged_iff.mp (h entry.1 List.mem_cons_self)
      rw [ha, Option.some.injEq] at hb
      exact hb ▸ hranged
    have hsnapshot : g.Snapshot (g.modify entry.1 fun a => a.commit entry.2) :=
      .modify g entry.1 fun _ => rfl
    refine hfirst.trans (ih fun name hname => ?_)
    rw [hsnapshot.isRanged_eq]
    exact h name (List.mem_cons_of_mem _ hname)

end Redrawn

/-- A state that searches get a grammar into. The choices that an action decides may have been
listed at any time before. -/
inductive Reaches (g : Grammar α) : Grammar α → Prop where
  | refl : Reaches g g
  | randomizeFree {g' : Grammar α} (h : Reaches g g') (rng : Generator) :
    Reaches g (g'.randomizeFree rng).1
  | randomizeAll {g' : Grammar α} (h : Reaches g g') (rng : Generator) :
    Reaches g (g'.randomizeAll rng).1
  | releaseAll {g' : Grammar α} (h : Reaches g g') : Reaches g g'.releaseAll
  | decode {earlier g' : Grammar α} {name : String} {space : ActionSpace} (h : Reaches g g')
    (hearlier : Reaches g earlier) (hspace : ActionSpace.ofShape earlier name = some space)
    (action : Nat) : Reaches g (space.decode g' action)
  | propose {g' : Grammar α} (h : Reaches g g') (rng : Generator) : Reaches g (g'.propose rng).1

variable {g g' : Grammar α}

/-- Declarations stay, and no attribute is added. -/
theorem Redrawn.snapshot (h : g.Redrawn g') : g.Snapshot g' where
  rules := h.rules
  attributes := by
    intro name
    cases ha : g.attribute? name with
    | some a =>
      obtain ⟨b, hb, hab⟩ := h.attributes ha
      rw [hb, Option.map_some, Option.map_some, hab.declaration]
    | none =>
      have hnone : g'.attribute? name = none := by
        rw [attribute?, Table.find?_eq_none_iff] at ha ⊢
        rwa [h.keys]
      rw [hnone]

omit [Scalar α] in
/-- Choices that were open at some time are choices. -/
theorem isRanged_of_mem_free {earlier : Grammar α} {name key : String} {space : ActionSpace}
    (hspace : ActionSpace.ofShape earlier name = some space) (hkey : key ∈ space.free) :
    earlier.isRanged key = true := by
  obtain ⟨rule, _, rfl⟩ := Option.map_eq_some_iff.mp hspace
  rw [ActionSpace.mem_distinct, List.mem_filter] at hkey
  obtain ⟨a, ha, hfree⟩ := isFree_iff.mp hkey.2
  exact isRanged_iff.mpr ⟨a, ha, (Bool.and_eq_true_iff.mp hfree).1⟩

/-- Whatever a search does, a grammar keeps its rules, names, declarations and constants, and each
choice its value or one of its levels. -/
theorem Reaches.redrawn (h : g.Reaches g') : g.Redrawn g' := by
  induction h with
  | refl => exact .refl g
  | randomizeFree _ rng ih => exact ih.trans (.randomizeFree _ rng)
  | randomizeAll _ rng ih => exact ih.trans (.randomizeAll _ rng)
  | releaseAll _ ih => exact ih.trans (.releaseAll _)
  | @decode earlier g' name space _ _ hspace action ih ihearlier =>
    refine ih.trans (.commitAll fun key hkey => ?_)
    rw [ActionSpace.map_fst_zip_levels] at hkey
    rw [ih.snapshot.isRanged_eq, ← ihearlier.snapshot.isRanged_eq]
    exact isRanged_of_mem_free hspace hkey
  | propose _ rng ih => exact ih.trans (.propose _ rng)

end Grammar

end ShapeGrammar
