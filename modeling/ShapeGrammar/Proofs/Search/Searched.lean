import ShapeGrammar.Proofs.Search.Choice

/-!
# Whole searches

A node of a search tree holds the state that the actions on the way down to it lead to. A search
goes on in rounds until its choice is decided, so that each of its rounds adds a node and makes one
assessment. Main statements: the state of a node, and what a search that does not fail has done.
-/
namespace ShapeGrammar

variable {σ ε β : Type}

namespace Problem

variable {p : Problem σ ε β}

/-- Actions one after the other, and then another one. -/
theorem play_concat {s s' : σ} {actions : List Nat} (h : p.play s actions = .ok s')
    (action : Nat) : p.play s (actions ++ [action]) = p.act s' action := by
  induction actions generalizing s with
  | nil =>
    rw [play, Except.ok.injEq] at h
    subst h
    rw [List.nil_append, play]
    cases p.act s action <;> rfl
  | cons first rest ih =>
    rw [play] at h
    rw [List.cons_append, play]
    split at h
    · cases h
    next next hact => exact ih h

end Problem

namespace SearchTree

variable {t u : SearchTree σ β} {p : Problem σ ε β} {start : σ}

/-- The actions on the way down from the root to a node; the root itself has none. -/
def actionsTo (t : SearchTree σ β) (id : Nat) : List Nat :=
  ((t.lineage id).dropLast.filterMap t.actionAt?).reverse

theorem Linked.actionsTo_root (h : t.Linked p start) : t.actionsTo 0 = [] := by
  rw [actionsTo, h.lineage_root]
  rfl

theorem Linked.actionsTo_child (h : t.Linked p start) {id c action : Nat} {n m : SearchNode σ β}
    (hn : t.node? id = some n) (hc : c ∈ n.children) (hm : t.node? c = some m)
    (haction : m.action = some action) : t.actionsTo c = t.actionsTo id ++ [action] := by
  have hat : t.actionAt? c = some action := by
    rw [actionAt?, hm, Option.bind_some, haction]
  have hne : t.lineage id ≠ [] := List.ne_nil_of_mem (t.mem_lineage_self id)
  rw [actionsTo, h.lineage_child hn hc, List.dropLast_cons_of_ne_nil hne,
    List.filterMap_cons_some hat, List.reverse_cons, actionsTo]

/-- The state of a node is the one that the actions on the way down to it lead to. -/
theorem Linked.play_actionsTo (h : t.Linked p start) {id : Nat} {n : SearchNode σ β}
    (hn : t.node? id = some n) : p.play start (t.actionsTo id) = .ok n.state := by
  refine h.induction
    (P := fun id => ∀ n, t.node? id = some n → p.play start (t.actionsTo id) = .ok n.state)
    ?root ?child hn n hn
  case root =>
    intro n hn
    obtain ⟨m, hm, _, hstate⟩ := h.root
    rw [hn, Option.some.injEq] at hm
    rw [h.actionsTo_root, hm, hstate]
    rfl
  case child =>
    intro i m c hm hc ih x hx
    obtain ⟨y, action, hy, _, _, haction, hact⟩ := h.child i m hm c hc
    rw [hx, Option.some.injEq] at hy
    subst hy
    rw [h.actionsTo_child hm hc hx haction, Problem.play_concat (ih m hm), hact]

section Rounds

variable [Elementary β] {k n : Nat} {log : List (Finding β)} {config : TreeConfig β}
  {s s' : Session}

/-! ## Rounds before the choice is decided -/

/-- A round before the choice is decided adds a node. -/
theorem Sound.size_next_of_not_isDecided (h : Sound p start k log t) (hopen : t.isDecided = false)
    (hround : t.iterate p config s = (.ok (), u, s')) : u.size = t.size + 1 := by
  obtain ⟨value, ⟨root, hroot, hempty, hnone, _, _⟩ | ⟨_, _, _, _, _, _, _, _, _, _, rfl⟩⟩ :=
    iterate_cases h.linked h.judged h.visited hround
  · simp [isDecided, hroot, hempty, hnone] at hopen
  · rw [size_backpropagate, size_tryAction]

theorem exists_assess_of_probe {finding : Finding β}
    (h : t.probe p config s = (.ok (some finding), u, s')) :
    ∃ state rng, p.assess state { s with rng } = (.ok finding.value, s') := by
  rcases hselect : t.select config s.rng with ⟨⟨selected, above⟩, rng⟩
  rcases hexpand : t.expand p selected rng with ⟨e | new?, v, rng'⟩
  · simp [probe, hselect, hexpand] at h
  · simp only [probe, hselect, hexpand] at h
    split at h
    · simp at h
    next leaf _ =>
      rcases hassess : p.assess leaf.state { s with rng := rng' } with ⟨e | value, s₁⟩
      · simp [hassess] at h
      · simp only [hassess, Prod.mk.injEq, Except.ok.injEq, Option.some.injEq] at h
        obtain ⟨rfl, _, rfl⟩ := h
        exact ⟨leaf.state, rng', hassess⟩

/-- A round that does not fail makes one assessment. -/
theorem Sound.exists_assess_next (h : Sound p start k log t)
    (hround : t.iterate p config s = (.ok (), u, s')) :
    ∃ state rng value, p.assess state { s with rng } = (.ok value, s') := by
  obtain ⟨value, hcases⟩ := iterate_cases h.linked h.judged h.visited hround
  have hreported : ∃ finding, t.reported p config s = [finding] := by
    rcases hcases with ⟨_, _, _, _, hreported, _⟩ | ⟨_, _, _, _, _, _, _, _, _, hreported, _⟩
    · exact ⟨_, hreported⟩
    · exact ⟨_, hreported⟩
  obtain ⟨finding, hfinding⟩ := hreported
  rcases hprobe : t.probe p config s with ⟨e | _ | found, v, s₁⟩
  · simp [reported, hprobe] at hfinding
  · simp [reported, hprobe] at hfinding
  · obtain ⟨state, rng, hassess⟩ := exists_assess_of_probe hprobe
    simp only [iterate, hprobe, Prod.mk.injEq, true_and] at hround
    exact ⟨state, rng, found.value, hround.2 ▸ hassess⟩

/-! ## Searches -/

/-- A search that does not fail makes rounds, each of which adds a node, no more than it may and at
least one if it may and there is something to decide. If assessments raise a count by one, the
search raises it by the number of its rounds. -/
theorem Rounds.of_searchFrom {done : Nat} (before : Rounds p (.ofRoot p start) done log t)
    (hsize : t.size = 1 + done) (count : Effort → Nat)
    (hcount : ∀ state s value s', p.assess state s = (.ok value, s') →
      count s'.effort = count s.effort + 1)
    (h : searchFrom p config n done t s = (.ok k, u, s')) :
    (∃ log', Rounds p (.ofRoot p start) k log' u) ∧ u.size = 1 + k ∧ done ≤ k ∧ k ≤ done + n ∧
      (0 < n → t.isDecided = false → done < k) ∧
      count s'.effort + done = count s.effort + k := by
  induction n generalizing done log t s with
  | zero =>
    simp only [searchFrom, Prod.mk.injEq, Except.ok.injEq] at h
    obtain ⟨rfl, rfl, rfl⟩ := h
    exact ⟨⟨log, before⟩, hsize, Nat.le_refl _, Nat.le_refl _, by simp, rfl⟩
  | succ n ih =>
    rw [searchFrom] at h
    split at h
    next hdecided =>
      simp only [Prod.mk.injEq, Except.ok.injEq] at h
      obtain ⟨rfl, rfl, rfl⟩ := h
      exact ⟨⟨log, before⟩, hsize, Nat.le_refl _, Nat.le_add_right _ _, by simp [hdecided], rfl⟩
    next hopen =>
      have hopen' : t.isDecided = false := by simpa using hopen
      split at h
      · cases h
      next v s₁ hround =>
        have hgrown := before.sound.size_next_of_not_isDecided hopen' hround
        obtain ⟨state, rng, value, hassess⟩ := before.sound.exists_assess_next hround
        have hone := hcount state _ value s₁ hassess
        obtain ⟨hrounds, hsize', hmore, hfew, _, htotal⟩ :=
          ih (before.next config s s₁ hround) (by omega) h
        refine ⟨hrounds, hsize', by omega, by omega, fun _ _ => hmore, ?_⟩
        simp only at hone
        omega

end Rounds

end SearchTree

end ShapeGrammar
