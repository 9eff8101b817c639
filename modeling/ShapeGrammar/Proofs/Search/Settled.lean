import ShapeGrammar.Proofs.Search.Rounds

/-!
# What it means to be settled

A node is settled exactly when it has been visited, has nothing left to try and all its children are
settled, and it stays so. Below a settled node every sequence of actions has been tried, and its
best value is the best that was found there. Main statement: `settled_exhaustive`.
-/
namespace ShapeGrammar

variable {σ ε β : Type}

namespace Problem

/-- The state that actions lead to, one after the other. -/
def play (p : Problem σ ε β) : σ → List Nat → Except ε σ
  | s, [] => .ok s
  | s, action :: rest =>
    match p.act s action with
    | .error e => .error e
    | .ok next => p.play next rest

/-- Actions each of which there is where it is taken. -/
def InRange (p : Problem σ ε β) : σ → List Nat → Prop
  | _, [] => True
  | s, action :: rest => action < p.actionCount s ∧
    ∀ next, p.act s action = .ok next → p.InRange next rest

end Problem

namespace SearchTree

/-- The node that actions lead to from another one, from child to child. -/
inductive Leads (t : SearchTree σ β) : Nat → List Nat → Nat → Prop where
  | here (id : Nat) : Leads t id [] id
  | step {id c j action : Nat} {rest : List Nat} {n m : SearchNode σ β}
      (node : t.node? id = some n) (child : c ∈ n.children) (found : t.node? c = some m)
      (taken : m.action = some action) (onward : Leads t c rest j) : Leads t id (action :: rest) j

variable {t u : SearchTree σ β} {p : Problem σ ε β} {start : σ}

/-- All that can be done below a settled node has been done. -/
theorem Judged.exists_leads (hlinked : t.Linked p start) (hjudged : t.Judged) {actions : List Nat}
    {id : Nat} {n : SearchNode σ β} (hn : t.node? id = some n) (hsettled : n.isSettled = true)
    (hrange : p.InRange n.state actions) :
    ∃ j m, t.Leads id actions j ∧ t.node? j = some m ∧ p.play n.state actions = .ok m.state ∧
      1 ≤ m.visits := by
  induction actions generalizing id n with
  | nil =>
    have hvisits := ((hjudged id n hn).mp hsettled).1
    exact ⟨id, n, .here id, hn, rfl, hvisits⟩
  | cons action rest ih =>
    obtain ⟨haction, hrest⟩ := hrange
    have hempty := ((hjudged id n hn).mp hsettled).2.1
    obtain ⟨c, m, hc, hm, ha, hact⟩ := hlinked.exists_child hn hempty haction
    have hchild := hjudged.isSettledAt_child hn hc ((isSettledAt_of_node? hn).trans hsettled)
    rw [isSettledAt_of_node? hm] at hchild
    obtain ⟨j, x, hleads, hx, hplay, hvisited⟩ := ih hm hchild (hrest m.state hact)
    refine ⟨j, x, .step hn hc hm ha hleads, hx, ?_, hvisited⟩
    simp only [Problem.play, hact, hplay]

variable [Elementary β] {k : Nat} {log : List (Finding β)}

/-- A round leaves settled what is settled. -/
theorem Sound.isSettledAt_next (h : Sound p start k log t) {config : TreeConfig β}
    {s s' : Session} (hround : t.iterate p config s = (.ok (), u, s')) {id : Nat}
    (hid : t.isSettledAt id = true) : u.isSettledAt id = true := by
  obtain ⟨value, ⟨_, _, _, _, _, rfl⟩ |
    ⟨sel, n, action, untried, state, hn, _, hdraw, hact, _, rfl⟩⟩ :=
      iterate_cases h.linked h.judged h.visited hround
  · exact h.linked.isSettledAt_backpropagate h.linked.upward_root hid
  · have hold : id < t.size := by
      rw [isSettledAt, Option.any_eq_true] at hid
      obtain ⟨m, hm, _⟩ := hid
      exact node?_lt_size hm
    refine (h.linked.tryAction hn hdraw hact).isSettledAt_backpropagate
      (h.linked.upward_tryAction hn hdraw hact) ?_
    rwa [isSettledAt_tryAction_old hold]

theorem Rounds.isSettledAt (h : Rounds p (.ofRoot p start) k log t) {k' : Nat}
    {log' : List (Finding β)} (h' : Rounds p t k' log' u) {id : Nat}
    (hid : t.isSettledAt id = true) : u.isSettledAt id = true := by
  induction h' with
  | none => exact hid
  | next config s s' before done ih => exact (h.trans before).sound.isSettledAt_next done ih

/-- A value that was reported at or below a node was reported to the node. -/
theorem Sound.mem_valuesAt (h : Sound p start k log t) {id j : Nat} (hj : j ∈ t.subtree id)
    {finding : Finding β} (hfinding : finding ∈ log) (hpath : j ∈ finding.path) :
    finding.value ∈ valuesAt log id := by
  obtain ⟨c, _, hlineage⟩ := h.exists_lineage hfinding
  have hid : id ∈ t.lineage j := of_decide_eq_true (List.mem_filter.mp hj).2
  rw [hlineage] at hpath
  have hmem : id ∈ finding.path := hlineage ▸ mem_lineage_trans hid hpath
  exact List.mem_map_of_mem (List.mem_filter.mpr ⟨hfinding, decide_eq_true hmem⟩)

/-- However rounds made a tree: a node is settled exactly when it has been visited, has nothing left
to try and all its children are settled. A settled node stays settled in all further rounds; every
sequence of actions that can be taken from it leads to a node that has been visited; and no value
that was reported at or below it exceeds its best one. -/
theorem settled_exhaustive (p : Problem σ ε β) (start : σ)
    (h : Rounds p (.ofRoot p start) k log t) {id : Nat} {n : SearchNode σ β}
    (hn : t.node? id = some n) :
    (n.isSettled = true ↔ 1 ≤ n.visits ∧ n.untried.toList = [] ∧
      ∀ c ∈ n.children, ∃ m, t.node? c = some m ∧ m.isSettled = true) ∧
    (n.isSettled = true →
      (∀ k' log' u, Rounds p t k' log' u → ∃ m, u.node? id = some m ∧ m.isSettled = true) ∧
      (∀ actions, p.InRange n.state actions → ∃ j m, t.Leads id actions j ∧
        t.node? j = some m ∧ p.play n.state actions = .ok m.state ∧ 1 ≤ m.visits) ∧
      ∀ j ∈ t.subtree id, ∀ finding ∈ log, j ∈ finding.path → ¬ n.best < finding.value) := by
  have hsound := h.sound
  have hiff := hsound.judged id n hn
  have hsome (v : SearchTree σ β) (c : Nat) :
      v.isSettledAt c = true ↔ ∃ m, v.node? c = some m ∧ m.isSettled = true := by
    rw [isSettledAt, Option.any_eq_true]
  refine ⟨?_, fun hsettled => ⟨?_, ?_, ?_⟩⟩
  · simp only [← hsome, ← openChildren_eq_nil_iff, ← ActionPool.isEmpty_iff]
    exact hiff
  · intro k' log' u h'
    rw [← hsome]
    exact h.isSettledAt h' ((isSettledAt_of_node? hn).trans hsettled)
  · intro actions hrange
    exact hsound.judged.exists_leads hsound.linked hn hsettled hrange
  · intro j hj finding hfinding hpath
    exact (hsound.accounted id n hn).2.2 _ (hsound.mem_valuesAt hj hfinding hpath)

/-- Counting down: there is one action until nothing is left. -/
def countdown : Problem Nat Unit Float where
  actionCount left := min left 1
  act left _ := .ok (left - 1)
  assess _ s := (.ok 1.0, s)

/-- Two rounds settle a countdown from two, and it has then been played to its end. -/
theorem settled_exhaustive_countdown : ∃ log t n,
    Rounds countdown (.ofRoot countdown 2) 2 log t ∧ t.node? 0 = some n ∧ n.isSettled = true ∧
    ∃ j m, t.Leads 0 [0, 0] j ∧ t.node? j = some m ∧
      countdown.play n.state [0, 0] = .ok m.state ∧ 1 ≤ m.visits := by
  have hfirst : ((ofRoot countdown 2).iterate countdown .usual (.seeded 0)).1 = .ok () := rfl
  have hsecond : (((ofRoot countdown 2).iterate countdown .usual (.seeded 0)).2.1.iterate
      countdown .usual (.seeded 1)).1 = .ok () := rfl
  have hrounds := Rounds.next .usual (.seeded 1) _
    (.next .usual (.seeded 0) _ .none (Prod.ext hfirst rfl)) (Prod.ext hsecond rfl)
  have hrange : countdown.InRange 2 [0, 0] :=
    ⟨by decide, fun next hnext => by cases hnext; exact ⟨by decide, fun _ _ => trivial⟩⟩
  refine ⟨_, _, _, hrounds, rfl, rfl, ?_⟩
  exact ((settled_exhaustive countdown 2 hrounds rfl).2 rfl).2.1 [0, 0] hrange

end SearchTree

end ShapeGrammar
