import ShapeGrammar.Proofs.Search.Report

/-!
# Rounds

What rounds make of a search tree, whatever they are configured with, draw and find. A round either
tries an action and reports the new node's value along its lineage, or it finds the whole tree
settled and reports to the root alone. Main statements: `iterate_cases` for one round, and
`Rounds.sound` for all of them.
-/
namespace ShapeGrammar

variable {σ ε β : Type}

namespace SearchTree

variable [Elementary β] {t u : SearchTree σ β} {p : Problem σ ε β} {start : σ}

/-- What a round reports. -/
def reported (t : SearchTree σ β) (p : Problem σ ε β) (config : TreeConfig β) (s : Session) :
    List (Finding β) :=
  match (t.probe p config s).1 with
  | .ok (some finding) => [finding]
  | _ => []

/-- Rounds that do not fail, from one tree to another: how many they are and what they reported,
each with a configuration and a session of its own. -/
inductive Rounds (p : Problem σ ε β) (t : SearchTree σ β) :
    Nat → List (Finding β) → SearchTree σ β → Prop where
  | none : Rounds p t 0 [] t
  | next {k log u v} (config : TreeConfig β) (s s' : Session) (before : Rounds p t k log u)
      (done : u.iterate p config s = (.ok (), v, s')) :
      Rounds p t (k + 1) (log ++ u.reported p config s) v

theorem Rounds.trans {v : SearchTree σ β} {k k' : Nat} {log log' : List (Finding β)}
    (h : Rounds p t k log u) (h' : Rounds p u k' log' v) :
    Rounds p t (k + k') (log ++ log') v := by
  induction h' with
  | none => simpa using h
  | next config s s' before done ih =>
    rw [← Nat.add_assoc, ← List.append_assoc]
    exact .next config s s' ih done

/-- What holds of a tree that rounds made. -/
structure Sound (p : Problem σ ε β) (start : σ) (k : Nat) (log : List (Finding β))
    (t : SearchTree σ β) : Prop where
  linked : t.Linked p start
  judged : t.Judged
  visited : t.Visited
  accounted : t.Accounted log
  length_log : log.length = k
  /-- Every node has reported once, in the order of their numbers; only when all was settled has the
  root been told anything else. -/
  paths : ∃ wasted, log.map (·.path) =
      (List.range' 1 (t.size - 1)).map t.lineage ++ List.replicate wasted [0] ∧
    (0 < wasted → t.isSettledAt 0 = true)

/-! ## One round -/

section Ends

variable {config : TreeConfig β} {s s' : Session} {id : Nat} {above : List Nat}
  {rng rng' : Generator} {n : SearchNode σ β}

/-- A round whose way down ends at a node that has nothing to try. -/
theorem iterate_of_draw_eq_none (hselect : t.select config s.rng = ((id, above), rng))
    (hn : t.node? id = some n) (hdraw : n.untried.draw rng = none)
    (h : t.iterate p config s = (.ok (), u, s')) :
    ∃ value, t.reported p config s = [⟨id :: above, value⟩] ∧
      u = t.backpropagate value (id :: above) := by
  rcases hassess : p.assess n.state { s with rng } with ⟨e | value, s₁⟩
  · simp [iterate, probe, hselect, expand, hn, hdraw, hassess] at h
  · have hprobe : t.probe p config s = (.ok (some ⟨id :: above, value⟩), t, s₁) := by
      simp only [probe, hselect, expand, hn, hdraw, Option.getD_none, hassess]
    simp only [iterate, hprobe, Prod.mk.injEq] at h
    exact ⟨value, by simp only [reported, hprobe], h.2.1.symm⟩

/-- A round whose way down ends at a node of which it tries an action. -/
theorem iterate_of_draw_eq_some {action : Nat} {untried : ActionPool}
    (hselect : t.select config s.rng = ((id, above), rng)) (hn : t.node? id = some n)
    (hdraw : n.untried.draw rng = some (action, untried, rng'))
    (h : t.iterate p config s = (.ok (), u, s')) :
    ∃ value state, p.act n.state action = .ok state ∧
      t.reported p config s = [⟨t.size :: id :: above, value⟩] ∧
      u = (t.tryAction p id action untried state).backpropagate value
        (t.size :: id :: above) := by
  cases hact : p.act n.state action with
  | error e => simp [iterate, probe, hselect, expand, hn, hdraw, hact] at h
  | ok state =>
    have hnew : ((t.modify id fun n => { n with untried }).attach p id action state).node?
        t.size = some (.fresh p state (some action) (some id)) := t.node?_tryAction_new
    rcases hassess : p.assess state { s with rng := rng' } with ⟨e | value, s₁⟩
    · simp [iterate, probe, hselect, expand, hn, hdraw, hact, hnew, SearchNode.fresh,
        hassess] at h
    · have hprobe : t.probe p config s = (.ok (some ⟨t.size :: id :: above, value⟩),
          t.tryAction p id action untried state, s₁) := by
        simp only [probe, hselect, expand, hn, hdraw, hact, Option.getD_some, size_modify, hnew,
          SearchNode.fresh, hassess, tryAction]
      simp only [iterate, hprobe, Prod.mk.injEq] at h
      exact ⟨value, state, rfl, by simp only [reported, hprobe], h.2.1.symm⟩

/-- All that a round can come to: at a tree in which nothing is open the root is told a value, or an
action of some node is tried and the new node reports. -/
theorem iterate_cases (hlinked : t.Linked p start) (hjudged : t.Judged) (hvisited : t.Visited)
    (h : t.iterate p config s = (.ok (), u, s')) :
    ∃ value,
      (∃ root, t.node? 0 = some root ∧ root.untried.isEmpty = true ∧ t.openChildren root = [] ∧
        t.reported p config s = [⟨[0], value⟩] ∧ u = t.backpropagate value [0]) ∨
      ∃ id n action untried state, t.node? id = some n ∧ n.untried.isEmpty = false ∧
        n.untried.toList.Perm (action :: untried.toList) ∧ p.act n.state action = .ok state ∧
        t.reported p config s = [⟨t.size :: t.lineage id, value⟩] ∧
        u = (t.tryAction p id action untried state).backpropagate value
          (t.size :: t.lineage id) := by
  obtain ⟨⟨n, hn, hend⟩, habove, _⟩ := reached_select hlinked hjudged hvisited config s.rng
  rcases hselect : t.select config s.rng with ⟨⟨id, above⟩, rng⟩
  simp only [hselect] at hn hend habove
  cases hdraw : n.untried.draw rng with
  | none =>
    have hempty := (ActionPool.draw_eq_none_iff rng).mp hdraw
    rcases hend with hsome | ⟨rfl, _, hnone⟩
    · rw [hempty] at hsome
      cases hsome
    obtain ⟨value, hreported, hu⟩ := iterate_of_draw_eq_none hselect hn hdraw h
    rw [habove, hlinked.lineage_root] at hreported hu
    exact ⟨value, .inl ⟨n, hn, hempty, hnone, hreported, hu⟩⟩
  | some drawn =>
    obtain ⟨action, untried, rng'⟩ := drawn
    have hsome : n.untried.isEmpty = false := by
      rw [← Bool.not_eq_true, ← ActionPool.draw_eq_none_iff rng, hdraw]
      simp
    obtain ⟨value, state, hact, hreported, hu⟩ := iterate_of_draw_eq_some hselect hn hdraw h
    rw [habove] at hreported hu
    exact ⟨value, .inr ⟨id, n, action, untried, state, hn, hsome,
      ActionPool.toList_of_draw hdraw, hact, hreported, hu⟩⟩

end Ends

/-! ## What a tried action leaves -/

section Try

variable {id action : Nat} {n : SearchNode σ β} {untried : ActionPool} {state : σ}

theorem isSettledAt_tryAction_old {j : Nat} (hj : j < t.size) :
    (t.tryAction p id action untried state).isSettledAt j = t.isSettledAt j := by
  obtain ⟨m, hm⟩ := exists_node? hj
  rw [isSettledAt, isSettledAt, node?_tryAction_old hm, hm]
  split <;> rfl

theorem Linked.upward_tryAction (h : t.Linked p start) (hn : t.node? id = some n)
    (hdraw : n.untried.toList.Perm (action :: untried.toList))
    (hact : p.act n.state action = .ok state) :
    (t.tryAction p id action untried state).Upward (t.size :: t.lineage id) := by
  rw [← h.lineage_tryAction_new hn hdraw hact]
  exact (h.tryAction hn hdraw hact).upward_lineage t.size

/-- Trying an action does not settle anything: the node had something to try, and now it has a child
that is not settled. -/
theorem Judged.tryAction (hlinked : t.Linked p start) (hjudged : t.Judged)
    (hn : t.node? id = some n) (hsome : n.untried.isEmpty = false) :
    (t.tryAction p id action untried state).Judged := by
  intro j m hm
  rcases node?_tryAction_cases hm with ⟨x, hx, rfl⟩ | ⟨_, rfl⟩
  · by_cases hj : j = id
    · rw [hj, hn, Option.some.injEq] at hx
      subst hx
      have hopen : ¬ n.isSettled = true := by
        rw [hjudged id n hn, hsome]
        simp
      have hnew : (t.tryAction p id action untried state).isSettledAt t.size = false := by
        rw [isSettledAt, node?_tryAction_new]
        rfl
      simp only [hj, if_true]
      refine iff_of_false hopen ?_
      rintro ⟨_, _, hnone⟩
      have hsettled := openChildren_eq_nil_iff.mp hnone t.size (by simp)
      rw [hnew] at hsettled
      cases hsettled
    · simp only [hj, if_false]
      have hsame : (t.tryAction p id action untried state).openChildren x =
          t.openChildren x := by
        refine openChildren_congr fun c hc => ?_
        obtain ⟨k, _, hk, _⟩ := hlinked.child j x hx c hc
        exact isSettledAt_tryAction_old (node?_lt_size hk)
      rw [hsame]
      exact hjudged j x hx
  · simp [SearchNode.fresh]

/-- Trying an action changes no records, and nothing has been reported to the new node. -/
theorem Accounted.tryAction {log : List (Finding β)} (haccounted : t.Accounted log)
    (hlog : ∀ finding ∈ log, ∀ j ∈ finding.path, j < t.size) :
    (t.tryAction p id action untried state).Accounted log := by
  intro j m hm
  rcases node?_tryAction_cases hm with ⟨x, hx, rfl⟩ | ⟨rfl, rfl⟩
  · have hrecords := haccounted j x hx
    split <;> exact hrecords
  · have hnone : valuesAt log t.size = [] := by
      rw [valuesAt, List.map_eq_nil_iff, List.filter_eq_nil_iff]
      intro finding hfinding hmem
      have := hlog finding hfinding t.size (of_decide_eq_true hmem)
      omega
    rw [hnone]
    exact ⟨rfl, rfl, by simp⟩

end Try

/-! ## All rounds -/

namespace Sound

variable {k : Nat} {log : List (Finding β)}

theorem ofRoot (p : Problem σ ε β) (start : σ) : Sound p start 0 [] (.ofRoot p start) where
  linked := .ofRoot p start
  judged := by
    intro id n hn
    obtain ⟨_, rfl⟩ := node?_ofRoot.mp hn
    simp [SearchNode.fresh]
  visited := by
    intro id n hn hpos
    have := (node?_ofRoot.mp hn).1
    omega
  accounted := by
    intro id n hn
    obtain ⟨_, rfl⟩ := node?_ofRoot.mp hn
    exact ⟨rfl, rfl, by simp [valuesAt]⟩
  length_log := rfl
  paths := ⟨0, rfl, by simp⟩

/-- Every report went along a lineage. -/
theorem exists_lineage (h : Sound p start k log t) {finding : Finding β}
    (hfinding : finding ∈ log) : ∃ c, c < t.size ∧ finding.path = t.lineage c := by
  obtain ⟨wasted, hpaths, _⟩ := h.paths
  have hpos := h.linked.size_pos
  have hmem : finding.path ∈ log.map (·.path) := List.mem_map_of_mem hfinding
  rw [hpaths, List.mem_append, List.mem_map] at hmem
  rcases hmem with ⟨c, hc, hpath⟩ | hroot
  · rw [List.mem_range'_1] at hc
    exact ⟨c, by omega, hpath.symm⟩
  · exact ⟨0, hpos, by rw [List.eq_of_mem_replicate hroot, h.linked.lineage_root]⟩

theorem lt_size_of_mem_path (h : Sound p start k log t) {finding : Finding β}
    (hfinding : finding ∈ log) {j : Nat} (hj : j ∈ finding.path) : j < t.size := by
  obtain ⟨c, hc, hpath⟩ := h.exists_lineage hfinding
  rw [hpath] at hj
  exact Nat.lt_of_le_of_lt (le_of_mem_lineage hj) hc

/-- A round in which nothing is open: only the root is told a value, and it is settled. -/
theorem next_of_closed (h : Sound p start k log t) {root : SearchNode σ β}
    (hroot : t.node? 0 = some root) (hempty : root.untried.isEmpty = true)
    (hnone : t.openChildren root = []) (value : β) :
    Sound p start (k + 1) (log ++ [⟨[0], value⟩]) (t.backpropagate value [0]) := by
  have hpath := h.linked.upward_root
  have hjudged : (t.backpropagate value [0]).Judged := h.judged.backpropagate h.linked hpath
  have hafter : (t.backpropagate value [0]).node? 0 =
      some (root.record value ((t.backpropagate value [0]).openChildren root).isEmpty) :=
    (h.linked.node?_backpropagate_eq_some hpath).mpr
      ⟨root, hroot, if_pos (List.mem_singleton_self 0)⟩
  have hsettled : (t.backpropagate value [0]).isSettledAt 0 = true := by
    rw [isSettledAt_of_node? hafter, hjudged 0 _ hafter]
    refine ⟨Nat.le_add_left 1 root.visits, hempty, ?_⟩
    rw [openChildren_eq_nil_iff] at hnone ⊢
    exact fun c hc => h.linked.isSettledAt_backpropagate hpath (hnone c hc)
  obtain ⟨wasted, hpaths, _⟩ := h.paths
  exact {
    linked := h.linked.backpropagate hpath
    judged := hjudged
    visited := h.linked.visited_backpropagate hpath fun id n hn hpos _ => h.visited id n hn hpos
    accounted := h.accounted.backpropagate h.linked hpath
    length_log := by simp [h.length_log]
    paths := by
      refine ⟨wasted + 1, ?_, fun _ => hsettled⟩
      rw [List.map_append, hpaths, size_backpropagate, h.linked.lineage_backpropagate hpath,
        List.replicate_succ', List.append_assoc, List.map_singleton] }

/-- A round in which an action is tried. -/
theorem next_of_tried (h : Sound p start k log t) {id action : Nat} {n : SearchNode σ β}
    {untried : ActionPool} {state : σ} (hn : t.node? id = some n)
    (hsome : n.untried.isEmpty = false) (hdraw : n.untried.toList.Perm (action :: untried.toList))
    (hact : p.act n.state action = .ok state) (value : β) :
    Sound p start (k + 1) (log ++ [⟨t.size :: t.lineage id, value⟩])
      ((t.tryAction p id action untried state).backpropagate value
        (t.size :: t.lineage id)) := by
  have hlinked := h.linked.tryAction hn hdraw hact
  have hpath := h.linked.upward_tryAction hn hdraw hact
  have hlog : ∀ finding ∈ log, ∀ j ∈ finding.path, j < t.size :=
    fun finding hfinding j hj => h.lt_size_of_mem_path hfinding hj
  have hvisited : ((t.tryAction p id action untried state).backpropagate value
      (t.size :: t.lineage id)).Visited := by
    refine hlinked.visited_backpropagate hpath fun j m hm hpos hoff => ?_
    rcases node?_tryAction_cases hm with ⟨x, hx, rfl⟩ | ⟨rfl, _⟩
    · have hvisits := h.visited j x hx hpos
      split <;> exact hvisits
    · exact absurd List.mem_cons_self hoff
  obtain ⟨wasted, hpaths, hsettled⟩ := h.paths
  -- below a settled root no node would have anything to try
  have hzero : wasted = 0 := by
    by_contra hwasted
    have hroot := hsettled (Nat.pos_of_ne_zero hwasted)
    have hid := h.judged.isSettledAt_of_root h.linked hroot hn
    rw [isSettledAt_of_node? hn, h.judged id n hn, hsome] at hid
    simp at hid
  exact {
    linked := hlinked.backpropagate hpath
    judged := (h.judged.tryAction h.linked hn hsome).backpropagate hlinked hpath
    visited := hvisited
    accounted := (h.accounted.tryAction hlog).backpropagate hlinked hpath
    length_log := by simp [h.length_log]
    paths := by
      refine ⟨0, ?_, by simp⟩
      rw [size_backpropagate, size_tryAction, hlinked.lineage_backpropagate hpath,
        Nat.add_sub_cancel, h.linked.map_lineage_tryAction hn hdraw hact, List.map_append, hpaths,
        hzero]
      simp }

theorem next (h : Sound p start k log t) {config : TreeConfig β} {s s' : Session}
    (hround : t.iterate p config s = (.ok (), u, s')) :
    Sound p start (k + 1) (log ++ t.reported p config s) u := by
  obtain ⟨value, ⟨root, hroot, hempty, hnone, hreported, rfl⟩ |
    ⟨id, n, action, untried, state, hn, hsome, hdraw, hact, hreported, rfl⟩⟩ :=
      iterate_cases h.linked h.judged h.visited hround
  · rw [hreported]
    exact h.next_of_closed hroot hempty hnone value
  · rw [hreported]
    exact h.next_of_tried hn hsome hdraw hact value

end Sound

theorem Rounds.sound {k : Nat} {log : List (Finding β)}
    (h : Rounds p (.ofRoot p start) k log t) : Sound p start k log t := by
  induction h with
  | none => exact .ofRoot p start
  | next config s s' before done ih => exact ih.next done

end SearchTree

end ShapeGrammar
