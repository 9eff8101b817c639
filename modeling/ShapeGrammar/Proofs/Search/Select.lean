import ShapeGrammar.Proofs.Search.Tree

/-!
# The way down

From the root the way goes down along children that can still be followed. Main statement: it ends
where an action can be tried, or at a root below which nothing is open; no random number is drawn
on the way.
-/
namespace ShapeGrammar

variable {σ ε β : Type}

theorem leader_cons_cons {ι : Type} [Scalar β] (x y : ι × β) (rest : List (ι × β)) :
    leader (x :: y :: rest) = leader ((if x.2 < y.2 then y else x) :: rest) := by
  simp only [leader, List.foldl_cons]
  split <;> rfl

/-- The leader is one of those that are ranked, whatever the ranks are. -/
theorem exists_leader {ι : Type} [Scalar β] (x : ι × β) (rest : List (ι × β)) :
    ∃ y ∈ x :: rest, leader (x :: rest) = some y.1 := by
  induction rest generalizing x with
  | nil => exact ⟨x, List.mem_cons_self, rfl⟩
  | cons y rest ih =>
    rw [leader_cons_cons]
    obtain ⟨z, hz, hleader⟩ := ih (if x.2 < y.2 then y else x)
    refine ⟨z, ?_, hleader⟩
    rcases List.mem_cons.mp hz with rfl | hz
    · split <;> simp
    · simp [hz]

theorem leader_eq_none_iff {ι : Type} [Scalar β] {ranked : List (ι × β)} :
    leader ranked = none ↔ ranked = [] := by
  cases ranked with
  | nil => simp [leader]
  | cons x rest =>
    obtain ⟨y, _, hleader⟩ := exists_leader x rest
    simp [hleader]

theorem mem_of_leader {ι : Type} [Scalar β] {ranked : List (ι × β)} {i : ι}
    (h : leader ranked = some i) : i ∈ ranked.map Prod.fst := by
  cases ranked with
  | nil => simp [leader] at h
  | cons x rest =>
    obtain ⟨y, hy, hleader⟩ := exists_leader x rest
    rw [hleader, Option.some.injEq] at h
    exact h ▸ List.mem_map_of_mem hy

namespace SearchTree

variable {t u : SearchTree σ β} {p : Problem σ ε β} {start : σ}

theorem mem_openChildren {n : SearchNode σ β} {c : Nat} :
    c ∈ t.openChildren n ↔ c ∈ n.children ∧ t.isSettledAt c = false := by
  simp [openChildren]

theorem openChildren_eq_nil_iff {n : SearchNode σ β} :
    t.openChildren n = [] ↔ ∀ c ∈ n.children, t.isSettledAt c = true := by
  simp [openChildren]

theorem isSettledAt_of_node? {id : Nat} {n : SearchNode σ β} (hn : t.node? id = some n) :
    t.isSettledAt id = n.isSettled := by
  simp [isSettledAt, hn]

theorem isSettledAt_congr {id : Nat} (h : u.node? id = t.node? id) :
    u.isSettledAt id = t.isSettledAt id := by
  rw [isSettledAt, h, isSettledAt]

theorem openChildren_congr {n : SearchNode σ β}
    (h : ∀ c ∈ n.children, u.isSettledAt c = t.isSettledAt c) :
    u.openChildren n = t.openChildren n :=
  List.filter_congr fun c hc => by rw [h c hc]

/-- The flags of a tree say what they should: a node is settled if it has been visited, has nothing
left to try and all its children are settled. -/
def Judged (t : SearchTree σ β) : Prop :=
  ∀ id n, t.node? id = some n →
    (n.isSettled = true ↔ 1 ≤ n.visits ∧ n.untried.isEmpty = true ∧ t.openChildren n = [])

theorem Judged.isSettledAt_child (hjudged : t.Judged) {id c : Nat} {n : SearchNode σ β}
    (hn : t.node? id = some n) (hc : c ∈ n.children) (hid : t.isSettledAt id = true) :
    t.isSettledAt c = true := by
  rw [isSettledAt_of_node? hn, hjudged id n hn] at hid
  exact openChildren_eq_nil_iff.mp hid.2.2 c hc

/-- Below a settled root all is settled. -/
theorem Judged.isSettledAt_of_root (hlinked : t.Linked p start) (hjudged : t.Judged)
    (hroot : t.isSettledAt 0 = true) {id : Nat} {n : SearchNode σ β}
    (hn : t.node? id = some n) : t.isSettledAt id = true :=
  hlinked.induction hroot (fun _ _ _ hm hc ih => hjudged.isSettledAt_child hm hc ih) hn

/-- Every node but the root has been visited. -/
def Visited (t : SearchTree σ β) : Prop :=
  ∀ id n, t.node? id = some n → 0 < id → n.visits ≠ 0

section Ranks

variable [Elementary β]

/-- Children that have been visited are ranked without drawing a number. -/
theorem rankAll_of_visited (config : TreeConfig β) (parentVisits : Nat) {ids : List Nat}
    (h : ∀ id ∈ ids, ∃ n, t.node? id = some n ∧ n.visits ≠ 0) (rng : Generator) :
    ((t.rankAll config parentVisits ids rng).1.map Prod.fst = ids) ∧
      (t.rankAll config parentVisits ids rng).2 = rng := by
  induction ids with
  | nil => exact ⟨rfl, rfl⟩
  | cons id rest ih =>
    obtain ⟨n, hn, hvisits⟩ := h id List.mem_cons_self
    obtain ⟨hids, hrng⟩ := ih fun j hj => h j (List.mem_cons_of_mem _ hj)
    simp only [rankAll, hn, rank, if_neg hvisits, hrng, List.map_cons, hids, and_self]

/-- Where the way down ends: at a node with something to try, or at a root below which nothing is
open. What lies above it is its lineage, and no number has been drawn. -/
structure Reached (t : SearchTree σ β) (rng : Generator)
    (found : (Nat × List Nat) × Generator) : Prop where
  node : ∃ n, t.node? found.1.1 = some n ∧
    (n.untried.isEmpty = false ∨ found.1.1 = 0 ∧ n.untried.isEmpty = true ∧ t.openChildren n = [])
  above : found.1.1 :: found.1.2 = t.lineage found.1.1
  rng : found.2 = rng

theorem reached_descend (hlinked : t.Linked p start) (hjudged : t.Judged) (hvisited : t.Visited)
    (config : TreeConfig β) {fuel id : Nat} {above : List Nat} (rng : Generator)
    {n : SearchNode σ β} (hn : t.node? id = some n) (hfuel : t.size ≤ fuel + id)
    (habove : id :: above = t.lineage id) (hopen : id = 0 ∨ n.isSettled = false) :
    t.Reached rng (t.descend config fuel id above rng) := by
  induction fuel generalizing id above n with
  | zero =>
    have := node?_lt_size hn
    omega
  | succ fuel ih =>
    unfold descend
    rw [hn]
    cases hempty : n.untried.isEmpty with
    | false =>
      simp only [hempty, Bool.false_eq_true, if_false]
      exact ⟨⟨n, hn, .inl hempty⟩, habove, rfl⟩
    | true =>
      have hpresent : ∀ c ∈ t.openChildren n, ∃ m, t.node? c = some m ∧ m.visits ≠ 0 := by
        intro c hc
        obtain ⟨m, _, hm, hlt, _⟩ := hlinked.child id n hn c (mem_openChildren.mp hc).1
        exact ⟨m, hm, hvisited c m hm (by omega)⟩
      obtain ⟨hids, hrng⟩ := rankAll_of_visited config n.visits hpresent rng
      simp only [hempty, if_true, hrng]
      cases hleader : leader (t.rankAll config n.visits (t.openChildren n) rng).1 with
      | none =>
        -- a node that is followed is not settled, so only the root can end the way like this
        have hnone : t.openChildren n = [] := by
          rw [← hids, leader_eq_none_iff.mp hleader, List.map_nil]
        refine ⟨⟨n, hn, .inr ⟨?_, hempty, hnone⟩⟩, habove, rfl⟩
        by_contra hid
        have hvisits := hvisited id n hn (Nat.pos_of_ne_zero hid)
        have hsettled := (hjudged id n hn).mpr ⟨by omega, hempty, hnone⟩
        rcases hopen with hzero | hopen
        · exact hid hzero
        · rw [hsettled] at hopen
          cases hopen
      | some c =>
        have hc := mem_of_leader hleader
        rw [hids, mem_openChildren] at hc
        obtain ⟨m, _, hm, hlt, _⟩ := hlinked.child id n hn c hc.1
        have hsettled := isSettledAt_of_node? hm
        refine ih hm (by omega) ?_ (.inr (hsettled ▸ hc.2))
        rw [hlinked.lineage_child hn hc.1, habove]

theorem reached_select (hlinked : t.Linked p start) (hjudged : t.Judged) (hvisited : t.Visited)
    (config : TreeConfig β) (rng : Generator) : t.Reached rng (t.select config rng) := by
  obtain ⟨n, hn, _⟩ := hlinked.root
  exact reached_descend hlinked hjudged hvisited config rng hn (Nat.le_refl _)
    hlinked.lineage_root.symm (.inl rfl)

end Ranks

end SearchTree

end ShapeGrammar
