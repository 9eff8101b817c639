import ShapeGrammar.Proofs.Search.Rounds
import ShapeGrammar.Search.Guided

/-!
# How often nodes are visited

Every node but the root is visited once for each node at and below it, the root once in each round.
As long as the root is not settled every round adds a node. Main statement: `rounds_counted`.
-/
namespace ShapeGrammar

/-- In the search for the choices of a derivation there are actions exactly where the front node has
choices to fix. -/
theorem Evaluator.actionCount_problem_pos_iff {α β : Type} [Elementary α] [Elementary β]
    [Precision α β] (e : Evaluator α β) (d : Derivation α) :
    0 < e.problem.actionCount d ↔ d.frontSpace?.isSome := by
  simp only [Evaluator.problem, Derivation.actionCount]
  cases d.frontSpace? with
  | none => simp
  | some space =>
    have hpow : 0 < Nat.pow Attribute.levels space.free.length := Nat.pow_pos (by decide)
    simp only [ActionSpace.size, ActionSpace.limit, Option.isSome_some, iff_true]
    omega

namespace SearchTree

variable {σ ε β : Type} {t u : SearchTree σ β} {p : Problem σ ε β} {start : σ}

/-! ## Actions -/

/-- What has been tried of a node and what has not are different actions, and all there are. -/
theorem Linked.triedActions_spec (h : t.Linked p start) {id : Nat} {n : SearchNode σ β}
    (hn : t.node? id = some n) :
    (t.triedActions n).length = n.children.length ∧ (t.triedActions n).Nodup ∧
      (∀ action ∈ t.triedActions n,
        action < p.actionCount n.state ∧ action ∉ n.untried.toList) ∧
      n.children.length + n.untried.remaining = p.actionCount n.state := by
  have hperm := h.tried id n hn
  have hnodup : (n.untried.toList ++ t.triedActions n).Nodup :=
    hperm.nodup_iff.mpr List.nodup_range
  have hlength : (t.triedActions n).length = n.children.length := by
    rw [triedActions, List.filterMap_length_eq_length]
    intro c hc
    obtain ⟨m, action, hm, _, _, haction, _⟩ := h.child id n hn c hc
    simp [actionAt?, hm, haction]
  refine ⟨hlength, (List.nodup_append.mp hnodup).2.1, ?_, ?_⟩
  · intro action haction
    refine ⟨List.mem_range.mp (hperm.mem_iff.mp (List.mem_append_right _ haction)), ?_⟩
    intro huntried
    exact (List.nodup_append.mp hnodup).2.2 action huntried action haction rfl
  · have htotal := hperm.length_eq
    rw [List.length_append, ActionPool.length_toList, List.length_range, hlength] at htotal
    omega

/-! ## Visits -/

section Visits

variable [Elementary β] {k : Nat} {log : List (Finding β)}

/-- The root is visited in every round. -/
theorem Sound.visits_root (h : Sound p start k log t) {root : SearchNode σ β}
    (hroot : t.node? 0 = some root) : root.visits = k := by
  have hall : log.filter (fun finding => 0 ∈ finding.path) = log := by
    rw [List.filter_eq_self]
    intro finding hfinding
    obtain ⟨c, hc, hpath⟩ := h.exists_lineage hfinding
    obtain ⟨n, hn⟩ := exists_node? hc
    rw [hpath]
    exact decide_eq_true (h.linked.zero_mem_lineage hn)
  rw [(h.accounted 0 root hroot).1, valuesAt, hall, List.length_map, h.length_log]

/-- Any other node is visited once for each node at and below it. -/
theorem Sound.visits_eq_length_subtree (h : Sound p start k log t) {id : Nat}
    {n : SearchNode σ β} (hn : t.node? id = some n) (hpos : 0 < id) :
    n.visits = (t.subtree id).length := by
  obtain ⟨wasted, hpaths, _⟩ := h.paths
  have hsize := h.linked.size_pos
  have hrange : List.range t.size = 0 :: List.range' 1 (t.size - 1) := by
    obtain ⟨rest, hrest⟩ : ∃ rest, t.size = rest + 1 := ⟨t.size - 1, by omega⟩
    rw [hrest, List.range_eq_range', List.range'_succ, Nat.add_sub_cancel]
  have hzero : ¬ id ∈ t.lineage 0 := by
    rw [h.linked.lineage_root, List.mem_singleton]
    omega
  have hone : ¬ id ∈ [0] := by
    rw [List.mem_singleton]
    omega
  calc
    n.visits = (log.filter fun finding => id ∈ finding.path).length := by
      rw [(h.accounted id n hn).1, valuesAt, List.length_map]
    _ = ((log.map (·.path)).filter fun path => id ∈ path).length := by
      rw [List.filter_map, List.length_map]
      rfl
    _ = ((List.range' 1 (t.size - 1)).filter fun j => id ∈ t.lineage j).length := by
      rw [hpaths, List.filter_append, List.filter_map, List.length_append, List.length_map,
        List.filter_replicate]
      simp only [hone, decide_false, Bool.false_eq_true, if_false, List.length_nil, Nat.add_zero]
      rfl
    _ = (t.subtree id).length := by
      rw [subtree, hrange, List.filter_cons_of_neg (by simp [hzero])]

/-- As long as the root is not settled every round has added a node. -/
theorem Sound.size_eq (h : Sound p start k log t) (hopen : t.isSettledAt 0 = false) :
    t.size = 1 + k := by
  obtain ⟨wasted, hpaths, hsettled⟩ := h.paths
  have hzero : wasted = 0 := by
    by_contra hwasted
    rw [hsettled (Nat.pos_of_ne_zero hwasted)] at hopen
    cases hopen
  have hlength := congrArg List.length hpaths
  simp only [hzero, List.length_map, List.length_append, List.length_range',
    List.length_replicate, h.length_log] at hlength
  have := h.linked.size_pos
  omega

/-- A root that is not settled has something to try or an open child, if there is anything to choose
at all. -/
theorem Sound.false_of_closed (h : Sound p start k log t) (hopen : t.isSettledAt 0 = false)
    (hchoice : 0 < p.actionCount start) {root : SearchNode σ β} (hroot : t.node? 0 = some root)
    (hempty : root.untried.isEmpty = true) (hnone : t.openChildren root = []) : False := by
  obtain ⟨n, hn, _, hstate⟩ := h.linked.root
  rw [hroot, Option.some.injEq] at hn
  rw [← hstate, ← hn] at hchoice
  -- its actions have all been tried, so it has children and has been visited
  obtain ⟨c, m, hc, hm, _⟩ := h.linked.exists_child hroot hempty hchoice
  have hlt := h.linked.lt_child hroot c hc
  have hsize := node?_lt_size hm
  have hk := h.size_eq hopen
  have hvisits := h.visits_root hroot
  have hsettled := (h.judged 0 root hroot).mpr ⟨by omega, hempty, hnone⟩
  rw [isSettledAt_of_node? hroot, hsettled] at hopen
  cases hopen

/-- As long as the root is not settled the way down ends where something can be tried. -/
theorem Sound.exists_untried (h : Sound p start k log t) (hopen : t.isSettledAt 0 = false)
    (hchoice : 0 < p.actionCount start) (config : TreeConfig β) (rng : Generator) :
    ∃ n, t.node? (t.select config rng).1.1 = some n ∧ n.untried.isEmpty = false := by
  obtain ⟨⟨n, hn, hsome | ⟨hzero, hempty, hnone⟩⟩, _, _⟩ :=
    reached_select h.linked h.judged h.visited config rng
  · exact ⟨n, hn, hsome⟩
  · rw [hzero] at hn
    exact (h.false_of_closed hopen hchoice hn hempty hnone).elim

/-- As long as the root is not settled a round adds exactly one node. -/
theorem Sound.size_next (h : Sound p start k log t) (hopen : t.isSettledAt 0 = false)
    (hchoice : 0 < p.actionCount start) {config : TreeConfig β} {s s' : Session}
    (hround : t.iterate p config s = (.ok (), u, s')) : u.size = t.size + 1 := by
  obtain ⟨value, ⟨root, hroot, hempty, hnone, _, _⟩ | ⟨_, _, _, _, _, _, _, _, _, _, rfl⟩⟩ :=
    iterate_cases h.linked h.judged h.visited hround
  · exact (h.false_of_closed hopen hchoice hroot hempty hnone).elim
  · rw [size_backpropagate, size_tryAction]

/-- However rounds made a tree: the root has been visited once in each of them and any other node
once for each node at and below it; the actions of the children and those not yet tried are
together all actions, each once; no child has gone unvisited, so that the way down draws no random
number. As long as the root is not settled every round has added a node, and if there is anything
to choose at the root (for a derivation, that its front node has choices to fix:
`Evaluator.actionCount_problem_pos_iff`), the next one ends its way down at a node that is not
settled and has something to try, and adds exactly one node more. -/
theorem rounds_counted (p : Problem σ ε β) (start : σ)
    (h : Rounds p (.ofRoot p start) k log t) :
    (∃ root, t.node? 0 = some root ∧ root.state = start ∧ root.visits = k) ∧
    (∀ id n, t.node? id = some n →
      n.values.count = n.visits ∧ (0 < id → n.visits = (t.subtree id).length) ∧
      (t.triedActions n).length = n.children.length ∧ (t.triedActions n).Nodup ∧
      (∀ action ∈ t.triedActions n,
        action < p.actionCount n.state ∧ action ∉ n.untried.toList) ∧
      n.children.length + n.untried.remaining = p.actionCount n.state ∧
      ∀ c ∈ n.children, ∃ m, t.node? c = some m ∧ m.visits ≠ 0) ∧
    (∀ config rng, (t.select config rng).2 = rng) ∧
    (t.isSettledAt 0 = false → t.size = 1 + k ∧
      (0 < p.actionCount start → ∀ config s,
        (∃ n, t.node? (t.select config s.rng).1.1 = some n ∧ n.untried.toList ≠ [] ∧
          n.isSettled = false) ∧
        ∀ u s', t.iterate p config s = (.ok (), u, s') → u.size = t.size + 1)) := by
  have hsound := h.sound
  refine ⟨?_, ?_, ?_, fun hopen => ⟨hsound.size_eq hopen, fun hchoice config s => ⟨?_, ?_⟩⟩⟩
  · obtain ⟨root, hroot, _, hstate⟩ := hsound.linked.root
    exact ⟨root, hroot, hstate, hsound.visits_root hroot⟩
  · intro id n hn
    obtain ⟨hvisits, hcount, _⟩ := hsound.accounted id n hn
    obtain ⟨hlength, hnodup, htried, htotal⟩ := hsound.linked.triedActions_spec hn
    refine ⟨hcount.trans hvisits.symm, hsound.visits_eq_length_subtree hn, hlength, hnodup, htried,
      htotal, ?_⟩
    intro c hc
    obtain ⟨m, _, hm, hlt, _⟩ := hsound.linked.child id n hn c hc
    exact ⟨m, hm, hsound.visited c m hm (by omega)⟩
  · intro config rng
    exact (reached_select hsound.linked hsound.judged hsound.visited config rng).rng
  · obtain ⟨n, hn, hsome⟩ := hsound.exists_untried hopen hchoice config s.rng
    refine ⟨n, hn, ?_, ?_⟩
    · rw [Ne, ← ActionPool.isEmpty_iff, hsome]
      exact Bool.false_ne_true
    · rw [← Bool.not_eq_true, hsound.judged _ n hn, hsome]
      simp
  · intro u s' hround
    exact hsound.size_next hopen hchoice hround

/-- One choice between two actions. -/
def fork : Problem Nat Unit Float where
  actionCount depth := 2 - 2 * depth
  act depth _ := .ok (depth + 1)
  assess _ s := (.ok 1.0, s)

/-- After one round of two the root is open, and the next round tries the other action. -/
theorem rounds_counted_fork : ∃ log t, Rounds fork (.ofRoot fork 0) 1 log t ∧
    t.isSettledAt 0 = false ∧ t.size = 1 + 1 ∧ ∀ config s,
      (∃ n, t.node? (t.select config s.rng).1.1 = some n ∧ n.untried.toList ≠ [] ∧
        n.isSettled = false) ∧
      ∀ u s', t.iterate fork config s = (.ok (), u, s') → u.size = t.size + 1 := by
  have hfirst : ((ofRoot fork 0).iterate fork .usual (.seeded 0)).1 = .ok () := rfl
  have hrounds := Rounds.next .usual (.seeded 0) _ .none (Prod.ext hfirst rfl)
  have hopen := (rounds_counted fork 0 hrounds).2.2.2 rfl
  exact ⟨_, _, hrounds, rfl, hopen.1, hopen.2 (by decide)⟩

end Visits

end SearchTree

end ShapeGrammar
