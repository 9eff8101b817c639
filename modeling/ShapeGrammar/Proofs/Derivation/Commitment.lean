import ShapeGrammar.Proofs.Derivation.Kept

/-!
# Commitments

Whatever is done with a derivation, its grammar only loses open choices: rules, names and
declarations stay, and so does every attribute that is a constant or has been fixed. Main
statements: `narrows_after` for all sequences of calls, what drawing random levels leaves, and
which attributes a guided step fixes.
-/
namespace ShapeGrammar

namespace Table

variable {β σ : Type}

@[simp] theorem keys_modify (t : Table β) (key : String) (f : β → β) :
    (t.modify key f).keys = t.keys := by
  rw [keys, keys, modify, List.map_map]
  refine List.map_congr_left fun entry _ => ?_
  simp only [Function.comp]
  split <;> rfl

@[simp] theorem keys_thread (f : β → σ → β × σ) (t : Table β) (s : σ) :
    (t.thread f s).1.keys = t.keys :=
  keys_threadEntries f t.entries s

theorem lookup_threadEntries (f : β → σ → β × σ) (entries : List (String × β)) (s : σ)
    (key : String) :
    ∃ here, ((threadEntries f entries s).1).lookup key =
      (entries.lookup key).map fun x => (f x here).1 := by
  induction entries generalizing s with
  | nil => exact ⟨s, rfl⟩
  | cons entry rest ih =>
    obtain ⟨k, x⟩ := entry
    by_cases h : key = k
    · exact ⟨s, by simp [threadEntries, h]⟩
    · obtain ⟨here, hrest⟩ := ih (f x s).2
      exact ⟨here, by simpa [threadEntries, List.lookup_cons, beq_false_of_ne h] using hrest⟩

/-- A walk changes each value by itself, in the state that it meets it in. -/
theorem find?_thread (f : β → σ → β × σ) (t : Table β) (s : σ) (key : String) :
    ∃ here, (t.thread f s).1.find? key = (t.find? key).map fun x => (f x here).1 :=
  lookup_threadEntries f t.entries s key

end Table

namespace Grammar

variable {α : Type}

/-- A later state of a grammar whose attributes are under the same names, and in which nothing has
changed that was not open. -/
structure Narrows (g g' : Grammar α) : Prop extends Snapshot g g' where
  keys : g'.attributes.keys = g.attributes.keys
  closed : ∀ {name}, g.isFree name = false → g'.attribute? name = g.attribute? name

namespace Narrows

variable {g g' g'' : Grammar α}

theorem refl (g : Grammar α) : g.Narrows g :=
  ⟨.refl g, rfl, fun _ => rfl⟩

theorem trans (h : g.Narrows g') (h' : g'.Narrows g'') : g.Narrows g'' where
  toSnapshot := h.toSnapshot.trans h'.toSnapshot
  keys := h'.keys.trans h.keys
  closed := by
    intro name hclosed
    have hsame := h.closed hclosed
    have hstill : g'.isFree name = false := by
      rw [isFree, hsame]
      exact hclosed
    exact (h'.closed hstill).trans hsame

/-- What becomes of an attribute: it keeps its declaration, and if it was fixed or is a constant it
is as it was. -/
theorem exists_attribute? (h : g.Narrows g') {name : String} {a : Attribute α}
    (ha : g.attribute? name = some a) :
    ∃ b, g'.attribute? name = some b ∧ b.declaration = a.declaration ∧
      (a.fixed = true ∨ a.ranged = false → b = a) := by
  have hdeclaration := h.attributes name
  rw [ha, Option.map_some, Option.map_eq_some_iff] at hdeclaration
  obtain ⟨b, hb, hsame⟩ := hdeclaration
  refine ⟨b, hb, hsame, fun hshut => ?_⟩
  have hclosed : g.isFree name = false := by
    rcases hshut with h | h <;> simp [isFree, ha, Attribute.isFree, h]
  rw [h.closed hclosed, ha, Option.some.injEq] at hb
  exact hb.symm

end Narrows

section Levels

variable [Scalar α]

/-- Drawing levels gives an attribute that is chosen some level, and leaves all others. -/
theorem attribute?_randomize (chosen : Attribute α → Bool) (g : Grammar α) (rng : Generator)
    (name : String) :
    ∃ level, (g.randomize chosen rng).1.attribute? name =
      (g.attribute? name).map fun a => if chosen a then a.setLevel level else a := by
  obtain ⟨here, hfind⟩ := Table.find?_thread
    (fun (a : Attribute α) rng =>
      if chosen a then (a.setLevel rng.level.1, rng.level.2) else (a, rng))
    g.attributes rng name
  refine ⟨here.level.1, hfind.trans ?_⟩
  congr 1
  funext a
  split <;> rfl

theorem narrows_randomizeFree (g : Grammar α) (rng : Generator) :
    g.Narrows (g.randomizeFree rng).1 where
  rules := rfl
  keys := Table.keys_thread _ _ _
  attributes := by
    intro name
    obtain ⟨level, hname⟩ := g.attribute?_randomize Attribute.isFree rng name
    rw [randomizeFree, hname, Option.map_map]
    congr 1
    funext a
    simp only [Function.comp]
    split <;> rfl
  closed := by
    intro name hclosed
    obtain ⟨level, hname⟩ := g.attribute?_randomize Attribute.isFree rng name
    rw [randomizeFree, hname]
    cases ha : g.attribute? name with
    | none => rfl
    | some a =>
      have hshut : a.isFree = false := by simpa [isFree, ha] using hclosed
      simp [hshut]

/-- Drawing levels fixes nothing. -/
theorem fixed_randomizeFree (g : Grammar α) (rng : Generator) (name : String) :
    ((g.randomizeFree rng).1.attribute? name).map (·.fixed) =
      (g.attribute? name).map (·.fixed) := by
  obtain ⟨level, hname⟩ := g.attribute?_randomize Attribute.isFree rng name
  rw [randomizeFree, hname, Option.map_map]
  congr 1
  funext a
  simp only [Function.comp]
  split <;> rfl

end Levels

end Grammar

namespace ActionSpace

variable {α : Type} [Scalar α]

theorem keys_commitAll (g : Grammar α) (levels : List (String × Nat)) :
    (commitAll g levels).attributes.keys = g.attributes.keys := by
  induction levels generalizing g with
  | nil => rfl
  | cons entry rest ih => exact (ih _).trans (Table.keys_modify _ _ _)

theorem narrows_commit (g : Grammar α) (name : String) (action : Nat) :
    g.Narrows (commit g name action) where
  toSnapshot := snapshot_commit g name action
  keys := by
    unfold commit
    split
    · exact keys_commitAll g _
    · rfl
  closed := by
    intro key hclosed
    exact attribute?_commit_of_closed hclosed name action

/-- The attributes that are fixed when a shape of some name is expanded: its open choices, none if
it has no rule. -/
def fixedBy (g : Grammar α) (name : String) : List String :=
  match ofShape g name with
  | some space => space.free
  | none => []

/-- An action fixes the open choices, each at its own digit, and leaves all else. -/
theorem attribute?_commit (g : Grammar α) (name : String) (action : Nat) :
    (∀ i key, (fixedBy g name)[i]? = some key → ∃ a, g.attribute? key = some a ∧
      a.isFree = true ∧
      (commit g name action).attribute? key = some (a.commit (action / 10 ^ i % 10))) ∧
    ∀ key, key ∉ fixedBy g name → (commit g name action).attribute? key = g.attribute? key := by
  cases hspace : ofShape g name with
  | none => simp [fixedBy, commit, hspace]
  | some space =>
    have hfixed : fixedBy g name = space.free := by simp only [fixedBy, hspace]
    have hcommit : commit g name action = space.decode g action := by simp only [commit, hspace]
    obtain ⟨rule, _, hfree⟩ : ∃ rule, g.rule? name = some rule ∧
        space.free = distinct (rule.namedAttributes.filter g.isFree) := by
      rw [ofShape, Option.map_eq_some_iff] at hspace
      obtain ⟨rule, hrule, rfl⟩ := hspace
      exact ⟨rule, hrule, rfl⟩
    rw [hfixed, hcommit]
    refine ⟨fun i key hi => ?_, fun key hkey => attribute?_decode_of_notMem hkey⟩
    have hmem := List.mem_of_getElem? hi
    rw [hfree, mem_distinct, List.mem_filter, Grammar.isFree_iff] at hmem
    obtain ⟨_, a, ha, hopen⟩ := hmem
    refine ⟨a, ha, hopen, ?_⟩
    rw [attribute?_decode_of_getElem? (hfree ▸ nodup_distinct _) hi, ha]
    rfl

end ActionSpace

namespace Derivation

variable {α : Type} [Elementary α]

theorem invariant_narrows (g : Grammar α) :
    Invariant fun d : Derivation α => g.Narrows d.grammar where
  toSteady := by
    refine .of_expand (fun {d popped id} h taken => ?_) fun {d} id maxNodes h => ?_
    · rw [(pop?_eq_some taken).2.1]
      exact h
    · rw [grammar_expand]
      exact h
  fixChoices := by
    intro d name action h
    exact h.trans (ActionSpace.narrows_commit d.grammar name action)
  redraw := by
    intro d rng h
    exact h.trans (d.grammar.narrows_randomizeFree rng)
  copy := by
    intro d h
    exact h

/-- Whatever is done with a derivation, its grammar only loses open choices. -/
theorem narrows_after (d : Derivation α) (calls : List Call) (clocks : Nat → Clock) :
    d.grammar.Narrows (d.after calls clocks).grammar :=
  (invariant_narrows d.grammar).after (.refl d.grammar) calls clocks

theorem steady_grammar (g : Grammar α) : Steady fun d : Derivation α => d.grammar = g := by
  refine .of_expand (fun {d popped id} h taken => ?_) fun {d} id maxNodes h => ?_
  · rw [(pop?_eq_some taken).2.1, h]
  · rw [grammar_expand, h]

end Derivation

end ShapeGrammar
