import ShapeGrammar.Proofs.Derivation.Budget
import ShapeGrammar.Proofs.Grammar.Choices

/-!
# Guided steps

A derivation is guided by actions, one for each node that is taken from the queue. Guiding changes
no rule and no choice that is closed, it only adds to the tree, and it comes to the same whichever
way the queue is kept. Main statement: all that a step can come to.
-/
namespace ShapeGrammar

theorem Queue.isEmpty_iff {α : Type} {q : Queue α} : q.isEmpty = true ↔ q.toList = [] := by
  simp [isEmpty, toList]

theorem Tree.Extends.size_le {α : Type} {t u : Tree α} (h : Tree.Extends t u) :
    t.size ≤ u.size := by
  by_contra hlt
  obtain ⟨n, hn⟩ : ∃ n, t.node? u.size = some n := Tree.exists_node? (by omega)
  obtain ⟨m, hm, _⟩ := h _ n hn
  exact Nat.lt_irrefl _ (Tree.node?_lt_size hm)

namespace ActionSpace

variable {α : Type} [Scalar α] {g : Grammar α} {name key : String} {rule : Rule α}

theorem snapshot_commit (g : Grammar α) (name : String) (action : Nat) :
    g.Snapshot (commit g name action) := by
  unfold commit
  split
  · exact snapshot_commitAll g _
  · exact .refl g

/-- An attribute that is not open stays as it is. -/
theorem attribute?_commit_of_closed (hclosed : g.isFree key = false) (name : String)
    (action : Nat) : (commit g name action).attribute? key = g.attribute? key := by
  unfold commit
  split
  next space hspace =>
    refine attribute?_decode_of_notMem fun hmem => ?_
    rw [ofShape, Option.map_eq_some_iff] at hspace
    obtain ⟨rule, _, rfl⟩ := hspace
    rw [mem_distinct, List.mem_filter, hclosed] at hmem
    cases hmem.2
  · rfl

/-- The choices that a rule names are closed once they have been fixed. -/
theorem isFree_commit_of_named (hrule : g.rule? name = some rule)
    (hnamed : key ∈ rule.namedAttributes) (action : Nat) :
    (commit g name action).isFree key = false := by
  obtain ⟨space, hspace⟩ : ∃ space, ofShape g name = some space := by
    rw [ofShape, hrule]
    exact ⟨_, rfl⟩
  have hafter : ofShape (space.decode g action) name = some ⟨[]⟩ := ofShape_decode hrule hspace
  have hsame : (space.decode g action).rule? name = some rule := by
    rw [(snapshot_decode space g action).rule?_eq, hrule]
  rw [ofShape, hsame, Option.map_some, Option.some.injEq, mk.injEq] at hafter
  rw [commit, hspace, ← Bool.not_eq_true]
  intro hopen
  have hmem := mem_distinct.mpr (List.mem_filter.mpr ⟨hnamed, hopen⟩)
  rw [hafter] at hmem
  cases hmem

end ActionSpace

namespace Derivation

variable {α : Type} [Elementary α] {d e : Derivation α}

/-- A derivation with the choices of a rule fixed by an action. -/
def fixChoices (d : Derivation α) (name : String) (action : Nat) : Derivation α :=
  { d with grammar := ActionSpace.commit d.grammar name action }

theorem grammar_expand (d : Derivation α) (id maxNodes : Nat) :
    (d.expand id maxNodes).2.grammar = d.grammar := by
  unfold expand
  split
  · rfl
  · split
    · rfl
    · split <;> rfl

/-- A guided step fixes choices before it expands, whether or not the expansion fails. -/
theorem grammar_applyAction_of_pop? {popped : Derivation α} {id : Nat} {n : Node α}
    (hpop : d.pop? = some (id, popped)) (hn : d.tree.node? id = some n)
    (hp : n.status = .pending) (action maxNodes : Nat) :
    (d.applyAction action maxNodes).2.grammar =
      ActionSpace.commit d.grammar n.shape.name action := by
  obtain ⟨htree, hgrammar, _⟩ := pop?_eq_some hpop
  have hvisited : ¬ n.isVisited = true := by simp [Node.isVisited, hp]
  have hn' : popped.tree.node? id = some n := by rw [htree, hn]
  simp only [Derivation.applyAction, hpop, hn', if_neg hvisited]
  rw [grammar_expand, hgrammar]

namespace Canonical

/-- All that a guided step can come to: there is nothing to expand, or the front node is expanded
under the choices that the action fixes. -/
theorem applyAction_cases (h : d.Canonical []) (action : Nat) :
    (d.queue.toList = [] ∧ ∀ maxNodes, d.applyAction action maxNodes = (.ok false, d)) ∨
    ∃ id popped n, d.pop? = some (id, popped) ∧ popped.tree.node? id = some n ∧
      n.status = .pending ∧ ∀ maxNodes, d.applyAction action maxNodes =
        (((popped.fixChoices n.shape.name action).expand id maxNodes).1.map fun _ => true,
          ((popped.fixChoices n.shape.name action).expand id maxNodes).2) := by
  cases hd : d.pop? with
  | none => exact .inl ⟨pop?_eq_none_iff.mp hd, fun _ => by simp only [Derivation.applyAction, hd]⟩
  | some taken =>
    obtain ⟨id, popped⟩ := taken
    obtain ⟨n, hn, hp⟩ := (h.pop hd).exists_pending (List.mem_singleton_self id)
    have hvisited : ¬ n.isVisited = true := by simp [Node.isVisited, hp]
    refine .inr ⟨id, popped, n, rfl, hn, hp, fun maxNodes => ?_⟩
    simp only [Derivation.applyAction, hd, hn, if_neg hvisited]
    rfl

theorem grammar_applyAction (h : d.Canonical []) {id : Nat} {popped : Derivation α} {n : Node α}
    (hd : d.pop? = some (id, popped)) (hn : d.tree.node? id = some n) (action maxNodes : Nat) :
    (d.applyAction action maxNodes).2.grammar =
      ActionSpace.commit d.grammar n.shape.name action := by
  obtain ⟨m, hm, hp⟩ := (h.pop hd).exists_pending (List.mem_singleton_self id)
  rw [(pop?_eq_some hd).1, hn, Option.some.injEq] at hm
  exact grammar_applyAction_of_pop? hd hn (hm ▸ hp) action maxNodes

theorem applyAction_extends (h : d.Canonical []) (action maxNodes : Nat) :
    d.tree.Extends (d.applyAction action maxNodes).2.tree := by
  rcases h.applyAction_cases action with ⟨_, hstep⟩ | ⟨id, popped, n, hd, hn, hp, hstep⟩
  · rw [hstep]
    exact .refl _
  · rw [hstep, ← (pop?_eq_some hd).1]
    exact expand_extends (d := popped.fixChoices n.shape.name action) hn hp maxNodes

theorem snapshot_applyAction (h : d.Canonical []) (action maxNodes : Nat) :
    d.grammar.Snapshot (d.applyAction action maxNodes).2.grammar := by
  rcases h.applyAction_cases action with ⟨_, hstep⟩ | ⟨id, popped, n, hd, hn, hp, hstep⟩
  · rw [hstep]
    exact .refl _
  · rw [hstep, grammar_expand, ← (pop?_eq_some hd).2.1]
    exact ActionSpace.snapshot_commit popped.grammar n.shape.name action

/-- A step leaves closed what is closed, with its value. -/
theorem attribute?_applyAction_of_closed (h : d.Canonical []) {key : String}
    (hclosed : d.grammar.isFree key = false) (action maxNodes : Nat) :
    (d.applyAction action maxNodes).2.grammar.attribute? key = d.grammar.attribute? key := by
  rcases h.applyAction_cases action with ⟨_, hstep⟩ | ⟨id, popped, n, hd, hn, hp, hstep⟩
  · rw [hstep]
  · rw [hstep, grammar_expand, ← (pop?_eq_some hd).2.1]
    rw [← (pop?_eq_some hd).2.1] at hclosed
    exact ActionSpace.attribute?_commit_of_closed hclosed n.shape.name action

end Canonical

/-! ## One step after the other -/

/-- The derivation that guided steps lead to, each with its action and the number of nodes the tree
may have. -/
def guide (d : Derivation α) (steps : List (Nat × Nat)) : Derivation α :=
  steps.foldl (fun d step => (d.applyAction step.1 step.2).2) d

/-- Whether each of some guided steps is as `P` says, where it is made. -/
def Throughout (P : Derivation α → Nat → Nat → Prop) : Derivation α → List (Nat × Nat) → Prop
  | _, [] => True
  | d, (action, maxNodes) :: rest =>
    P d action maxNodes ∧ Throughout P (d.applyAction action maxNodes).2 rest

@[simp] theorem guide_nil (d : Derivation α) : d.guide [] = d :=
  rfl

@[simp] theorem guide_cons (d : Derivation α) (action maxNodes : Nat)
    (rest : List (Nat × Nat)) :
    d.guide ((action, maxNodes) :: rest) = (d.applyAction action maxNodes).2.guide rest :=
  rfl

theorem guide_append (d : Derivation α) (steps more : List (Nat × Nat)) :
    d.guide (steps ++ more) = (d.guide steps).guide more :=
  List.foldl_append

theorem Alike.guide (h : Alike d e) (steps : List (Nat × Nat)) :
    Alike (d.guide steps) (e.guide steps) := by
  induction steps generalizing d e with
  | nil => exact h
  | cons step rest ih =>
    obtain ⟨_, d', e', hd, he, halike⟩ := h.applyAction step.1 step.2
    rw [guide_cons, guide_cons, hd, he]
    exact ih halike

namespace Canonical

theorem guide (h : d.Canonical []) (steps : List (Nat × Nat)) :
    (d.guide steps).Canonical [] := by
  induction steps generalizing d with
  | nil => exact h
  | cons step rest ih => exact ih (h.applyAction step.1 step.2)

theorem guide_extends (h : d.Canonical []) (steps : List (Nat × Nat)) :
    d.tree.Extends (d.guide steps).tree := by
  induction steps generalizing d with
  | nil => exact .refl _
  | cons step rest ih =>
    exact (h.applyAction_extends step.1 step.2).trans (ih (h.applyAction step.1 step.2))

theorem snapshot_guide (h : d.Canonical []) (steps : List (Nat × Nat)) :
    d.grammar.Snapshot (d.guide steps).grammar := by
  induction steps generalizing d with
  | nil => exact .refl _
  | cons step rest ih =>
    exact (h.snapshot_applyAction step.1 step.2).trans (ih (h.applyAction step.1 step.2))

theorem attribute?_guide_of_closed (h : d.Canonical []) {key : String}
    (hclosed : d.grammar.isFree key = false) (steps : List (Nat × Nat)) :
    (d.guide steps).grammar.attribute? key = d.grammar.attribute? key := by
  induction steps generalizing d with
  | nil => rfl
  | cons step rest ih =>
    have hsame := h.attribute?_applyAction_of_closed hclosed step.1 step.2
    have hstill : (d.applyAction step.1 step.2).2.grammar.isFree key = false := by
      rw [Grammar.isFree, hsame]
      exact hclosed
    exact (ih (h.applyAction step.1 step.2) hstill).trans hsame

end Canonical

end Derivation

end ShapeGrammar
