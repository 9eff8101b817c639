import ShapeGrammar.Proofs.Derivation.Guided

/-!
# Following actions

Derivations that follow the same actions under one limit on the tree come to the same, also by way
of copies. As long as every node that waits has a rule, there is something to choose until the
derivation is complete.
-/
namespace ShapeGrammar

theorem Queue.head?_eq_some {α : Type} {q : Queue α} (h : q.isEmpty = false) :
    ∃ x, q.head? = some x ∧ x ∈ q.toList := by
  obtain ⟨front, back⟩ := q
  cases front with
  | cons x rest => exact ⟨x, rfl, by simp [toList]⟩
  | nil =>
    have hne : back ≠ [] := by simpa [isEmpty] using h
    exact ⟨back.getLast hne, List.getLast?_eq_some_getLast hne, by simp [toList]⟩

theorem Growth.hasRule_of_mem_children {α : Type} {hasRule : String → Bool} {growth : Growth α}
    {kid : Shape α × Status} (hkid : kid ∈ growth.children hasRule) (hp : kid.2 = .pending) :
    hasRule kid.1.name = true := by
  simp only [children, List.mem_append, List.mem_map, Option.mem_toList,
    Option.map_eq_some_iff] at hkid
  rcases hkid with ⟨shape, _, rfl⟩ | ⟨shape, _, rfl⟩
  · by_contra hnone
    simp [hnone] at hp
  · cases hp

namespace Derivation

variable {α : Type}

theorem Alike.symm {d e : Derivation α} (h : Alike d e) : Alike e d :=
  ⟨h.tree.symm, h.queue.symm, h.grammar.symm⟩

theorem Alike.trans {d e f : Derivation α} (h : Alike d e) (h' : Alike e f) : Alike d f :=
  ⟨h.tree.trans h'.tree, h.queue.trans h'.queue, h.grammar.trans h'.grammar⟩

theorem Alike.canonical {d e : Derivation α} {skipped : List Nat} (h : Alike d e)
    (hd : d.Canonical skipped) : e.Canonical skipped :=
  ⟨h.tree ▸ hd.layered, by rw [← h.tree, ← h.queue, hd.pending_eq]⟩

theorem Alike.isComplete {d e : Derivation α} (h : Alike d e) :
    d.isComplete = e.isComplete := by
  rw [Bool.eq_iff_iff, Derivation.isComplete, Derivation.isComplete, Queue.isEmpty_iff,
    Queue.isEmpty_iff, h.queue]

theorem Canonical.alike_copy {d : Derivation α} (h : d.Canonical []) : Alike d.copy d :=
  ⟨rfl, by simp [Derivation.copy, h.pending_eq], rfl⟩

/-! ## Waiting nodes with rules -/

/-- Every node that waits has a rule. -/
def Ruled (d : Derivation α) : Prop :=
  ∀ id n, d.tree.node? id = some n → n.status = .pending →
    d.grammar.hasRule n.shape.name = true

theorem Ruled.start {shape : Shape α} {g : Grammar α} (h : g.hasRule shape.name = true) :
    Ruled (.start shape g) := by
  intro id n hn _
  obtain ⟨_, rfl⟩ := Tree.node?_ofRoot.mp hn
  exact h

theorem Alike.ruled {d e : Derivation α} (h : Alike d e) (hruled : d.Ruled) : e.Ruled := by
  rw [Ruled, ← h.tree, ← h.grammar]
  exact hruled

/-- As long as something waits the front node has choices, if only none at all. -/
theorem Ruled.isSome_frontSpace? {d : Derivation α} (hd : d.Canonical []) (hruled : d.Ruled)
    (hopen : d.isComplete = false) : d.frontSpace?.isSome = true := by
  obtain ⟨id, hfront, hid⟩ := Queue.head?_eq_some hopen
  have hpending := hd.pending_eq
  rw [List.nil_append] at hpending
  rw [← hpending, Tree.mem_pendingInOrder hd.layered] at hid
  obtain ⟨n, hn, hp⟩ := hid
  have hrule : (d.grammar.rule? n.shape.name).isSome = true := hruled id n hn hp
  simp [frontSpace?, front?, hfront, hn, ActionSpace.ofShape, hrule]

section Steps

variable [Elementary α] {d : Derivation α}

/-- A node that waits after an expansion waited before it, or it has a rule. -/
theorem pending_of_expand {id maxNodes j : Nat} {m : Node α}
    (hm : (d.expand id maxNodes).2.tree.node? j = some m) (hp : m.status = .pending) :
    d.tree.node? j = some m ∨ d.grammar.hasRule m.shape.name = true := by
  have hset {status : Status} (hs : status ≠ .pending) {x : Node α}
      (hx : (d.tree.setStatus id status).node? j = some x) (hxp : x.status = .pending) :
      d.tree.node? j = some x := by
    obtain ⟨y, hy, rfl⟩ := Tree.node?_setStatus_eq_some.mp hx
    by_cases hj : j = id
    · simp only [hj, if_true] at hxp
      exact absurd hxp hs
    · simpa [hj] using hy
  cases hn : d.tree.node? id with
  | none => exact .inl (by simpa only [Derivation.expand, hn] using hm)
  | some n =>
    rcases expand_cases maxNodes hn with ⟨_, he⟩ | ⟨_, _, ⟨_, _, he⟩ | ⟨growth, _, he⟩⟩
    · rw [he] at hm
      exact .inl (hset (by decide) hm hp)
    · rw [he] at hm
      exact .inl (hset (by decide) hm hp)
    · rw [he] at hm
      have hn' : (d.tree.setStatus id .expanded).node? id =
          some { n with status := .expanded } :=
        Tree.node?_setStatus_eq_some.mpr ⟨n, hn, by simp⟩
      rcases Tree.node?_attach_cases _ hn' hm with ⟨x, hx, rfl⟩ | ⟨k, hk, _, rfl⟩
      · by_cases hj : j = id
        · subst hj
          rw [hn', Option.some.injEq] at hx
          subst hx
          cases hp
        · simp only [if_neg hj, List.append_nil]
          exact .inl (hset (by decide) hx hp)
      · exact .inr (Growth.hasRule_of_mem_children (List.getElem_mem hk) hp)

theorem Ruled.expand (h : d.Ruled) (id maxNodes : Nat) : (d.expand id maxNodes).2.Ruled := by
  intro j m hm hp
  rw [grammar_expand]
  rcases pending_of_expand hm hp with hold | hrule
  · exact h j m hold hp
  · exact hrule

/-- After a guided step every node that waits still has a rule. -/
theorem Ruled.applyAction (h : d.Ruled) (hd : d.Canonical []) (action maxNodes : Nat) :
    (d.applyAction action maxNodes).2.Ruled := by
  rcases hd.applyAction_cases action with ⟨_, hstep⟩ | ⟨id, popped, n, hpop, hn, _, hstep⟩
  · rw [hstep]
    exact h
  · obtain ⟨htree, hgrammar, _⟩ := pop?_eq_some hpop
    have hfixed : (popped.fixChoices n.shape.name action).Ruled := by
      intro j m hm hp
      have hsame := (ActionSpace.snapshot_commit popped.grammar n.shape.name action).rules
      rw [fixChoices, Grammar.hasRule, hsame, hgrammar]
      exact h j m (htree ▸ hm) hp
    rw [hstep]
    exact hfixed.expand id maxNodes

/-- A step of one of two derivations that are alike is a step of the other. -/
theorem Alike.applyAction_eq {e d' : Derivation α} (h : Alike d e) {action maxNodes : Nat}
    {result : Except (EvalError α) Bool} (hd : d.applyAction action maxNodes = (result, d')) :
    ∃ e', e.applyAction action maxNodes = (result, e') ∧ Alike d' e' := by
  obtain ⟨_, x, y, hx, hy, halike⟩ := h.applyAction action maxNodes
  rw [hd, Prod.mk.injEq] at hx
  obtain ⟨rfl, rfl⟩ := hx
  exact ⟨y, hy, halike⟩

/-- As long as something waits a guided step that does not fail expands it. -/
theorem Canonical.applyAction_eq_ok (hd : d.Canonical []) (hopen : d.isComplete = false)
    {action maxNodes : Nat} {expanded : Bool} {e : Derivation α}
    (h : d.applyAction action maxNodes = (.ok expanded, e)) : expanded = true := by
  rcases hd.applyAction_cases action with ⟨hnone, _⟩ | ⟨id, popped, n, _, _, _, hstep⟩
  · rw [← Queue.isEmpty_iff, ← Derivation.isComplete, hopen] at hnone
    cases hnone
  · rw [hstep, Prod.mk.injEq] at h
    cases hmade : ((popped.fixChoices n.shape.name action).expand id maxNodes).1 with
    | error cause => simp [hmade, Except.map] at h
    | ok made =>
      simp only [hmade, Except.map, Except.ok.injEq] at h
      exact h.1.symm

/-! ## One action after the other -/

/-- The derivation that guided steps lead to whose tree may have `maxNodes` nodes. -/
def follow (d : Derivation α) (maxNodes : Nat) (actions : List Nat) : Derivation α :=
  d.guide (actions.map fun action => (action, maxNodes))

theorem follow_cons (d : Derivation α) (maxNodes action : Nat) (rest : List Nat) :
    d.follow maxNodes (action :: rest) =
      (d.applyAction action maxNodes).2.follow maxNodes rest :=
  rfl

theorem follow_concat (d : Derivation α) (maxNodes : Nat) (actions : List Nat) (action : Nat) :
    d.follow maxNodes (actions ++ [action]) =
      ((d.follow maxNodes actions).applyAction action maxNodes).2 := by
  rw [follow, List.map_append, guide_append]
  rfl

theorem Alike.follow {d e : Derivation α} (h : Alike d e) (maxNodes : Nat)
    (actions : List Nat) : Alike (d.follow maxNodes actions) (e.follow maxNodes actions) :=
  h.guide _

theorem Canonical.follow (h : d.Canonical []) (maxNodes : Nat) (actions : List Nat) :
    (d.follow maxNodes actions).Canonical [] :=
  h.guide _

theorem Ruled.follow (h : d.Ruled) (hd : d.Canonical []) (maxNodes : Nat) (actions : List Nat) :
    (d.follow maxNodes actions).Ruled := by
  induction actions generalizing d with
  | nil => exact h
  | cons action rest ih =>
    exact ih (h.applyAction hd action maxNodes) (hd.applyAction action maxNodes)

end Steps

end Derivation

end ShapeGrammar
