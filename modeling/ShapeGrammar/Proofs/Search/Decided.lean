import ShapeGrammar.Proofs.Search.Counts
import ShapeGrammar.Proofs.Search.Settled

/-!
# When the choice at the root is decided

A decided root has nothing left to try and at most one child that can still be followed. In further
rounds a settled node other than the root stays as it is, and the best value of a node that has been
visited can only rise. Main statement: in further rounds the best child of a decided root stays the
same, or else the one child that was still open has overtaken it.
-/
namespace ShapeGrammar

variable {σ ε β : Type}

/-! ## Rankings of which one rank rises -/

section Rankings

variable {ι : Type} [Scalar β] {c : ι} {y z : ι × β}

/-- The leaders so far of two rankings that differ in the rank of `c` alone, once `c` leads in the
second and does not fall behind the leader of the first. -/
structure Overtaken (c : ι) (y z : ι × β) : Prop where
  isNumber : (y.2 == y.2) = true
  ahead : z.1 = c
  notBehind : ¬ z.2 < y.2

theorem Overtaken.of_lt (h : y.2 < z.2) (hc : z.1 = c) : Overtaken c y z :=
  ⟨(Scalar.beq_self_of_lt h).1, hc, fun hback => Scalar.lt_irrefl _ (Scalar.lt_trans h hback)⟩

theorem Overtaken.next (h : Overtaken c y z) (x : ι × β) :
    (if z.2 < x.2 then x else z) = (if y.2 < x.2 then x else y) ∨
      Overtaken c (if y.2 < x.2 then x else y) (if z.2 < x.2 then x else z) := by
  by_cases hz : z.2 < x.2
  · have hy : y.2 < x.2 := (Scalar.lt_or_lt hz h.isNumber).resolve_left h.notBehind
    exact .inl (by rw [if_pos hy, if_pos hz])
  · rw [if_neg hz]
    refine .inr ?_
    split
    next hy => exact ⟨(Scalar.beq_self_of_lt hy).2, h.ahead, hz⟩
    next => exact h

theorem leader_of_heads (h : z = y ∨ Overtaken c y z) (rest : List (ι × β)) :
    leader (z :: rest) = leader (y :: rest) ∨ leader (z :: rest) = some c := by
  induction rest generalizing y z with
  | nil =>
    rcases h with rfl | h
    · exact .inl rfl
    · exact .inr (congrArg some h.ahead)
  | cons x rest ih =>
    rw [leader_cons_cons, leader_cons_cons y]
    rcases h with rfl | h
    · exact .inl rfl
    · exact ih (h.next x)

/-- What taking in `c` at its old and at its higher rank makes of a leader. -/
theorem overtaken_of_raised {old new : β} (hraised : new = old ∨ old < new) (y : ι × β) :
    (if y.2 < new then (c, new) else y) = (if y.2 < old then (c, old) else y) ∨
      Overtaken c (if y.2 < old then (c, old) else y) (if y.2 < new then (c, new) else y) := by
  rcases hraised with rfl | hraised
  · exact .inl rfl
  by_cases hold : y.2 < old
  · rw [if_pos hold, if_pos (Scalar.lt_trans hold hraised)]
    exact .inr (.of_lt hraised rfl)
  · rw [if_neg hold]
    split
    next hnew => exact .inr (.of_lt hnew rfl)
    next => exact .inl rfl

variable {f g : ι → β} {ids : List ι}

omit [Scalar β] in
theorem map_rank_eq (hsame : ∀ i ∈ ids, i ≠ c → g i = f i) (hc : c ∉ ids) :
    ids.map (fun i => (i, g i)) = ids.map fun i => (i, f i) := by
  refine List.map_congr_left fun i hi => ?_
  have hne : i ≠ c := fun h => hc (h ▸ hi)
  rw [hsame i hi hne]

theorem leader_cons_of_raised (y : ι × β) (hnodup : ids.Nodup)
    (hsame : ∀ i ∈ ids, i ≠ c → g i = f i) (hraised : g c = f c ∨ f c < g c) :
    leader (y :: ids.map fun i => (i, g i)) = leader (y :: ids.map fun i => (i, f i)) ∨
      leader (y :: ids.map fun i => (i, g i)) = some c := by
  induction ids generalizing y with
  | nil => exact .inl rfl
  | cons i ids ih =>
    obtain ⟨hi, hids⟩ := List.nodup_cons.mp hnodup
    have hrest : ∀ j ∈ ids, j ≠ c → g j = f j := fun j hj => hsame j (List.mem_cons_of_mem _ hj)
    rw [List.map_cons, List.map_cons, leader_cons_cons, leader_cons_cons y]
    by_cases hic : i = c
    · subst hic
      rw [map_rank_eq hrest hi]
      exact leader_of_heads (overtaken_of_raised hraised y) _
    · rw [hsame i List.mem_cons_self hic]
      exact ih _ hids hrest

/-- If one rank rises the leader stays, or the one whose rank has risen leads. -/
theorem leader_of_raised (hnodup : ids.Nodup) (hsame : ∀ i ∈ ids, i ≠ c → g i = f i)
    (hraised : g c = f c ∨ f c < g c) :
    leader (ids.map fun i => (i, g i)) = leader (ids.map fun i => (i, f i)) ∨
      leader (ids.map fun i => (i, g i)) = some c := by
  cases ids with
  | nil => exact .inl rfl
  | cons i ids =>
    obtain ⟨hi, hids⟩ := List.nodup_cons.mp hnodup
    have hrest : ∀ j ∈ ids, j ≠ c → g j = f j := fun j hj => hsame j (List.mem_cons_of_mem _ hj)
    rw [List.map_cons, List.map_cons]
    by_cases hic : i = c
    · subst hic
      rw [map_rank_eq hrest hi]
      refine leader_of_heads (hraised.imp (fun heq => ?_) fun hlt => .of_lt hlt rfl) _
      rw [heq]
    · rw [hsame i List.mem_cons_self hic]
      exact leader_cons_of_raised _ hids hrest hraised

end Rankings

/-! ## What rounds leave of a node -/

/-- What rounds may make of a node: its best value stays or rises once it has been visited, and it
gets children only while it has something to try. -/
structure SearchNode.Advances [Scalar β] (n m : SearchNode σ β) : Prop where
  visits : n.visits ≤ m.visits
  best : n.visits ≠ 0 → m.best = n.best ∨ n.best < m.best
  exhausted : n.untried.isEmpty = true → m.untried = n.untried ∧ m.children = n.children

namespace SearchNode.Advances

variable [Scalar β] {n m k : SearchNode σ β}

theorem refl (n : SearchNode σ β) : n.Advances n :=
  ⟨Nat.le_refl _, fun _ => .inl rfl, fun _ => ⟨rfl, rfl⟩⟩

theorem trans (h : n.Advances m) (h' : m.Advances k) : n.Advances k where
  visits := Nat.le_trans h.visits h'.visits
  best := by
    intro hvisits
    have hlater : m.visits ≠ 0 := by
      have := h.visits
      omega
    rcases h.best hvisits with heq | hlt
    · rw [← heq]
      exact h'.best hlater
    · rcases h'.best hlater with heq' | hlt'
      · rw [heq']
        exact .inr hlt
      · exact .inr (Scalar.lt_trans hlt hlt')
  exhausted := by
    intro hempty
    obtain ⟨huntried, hchildren⟩ := h.exhausted hempty
    rw [← huntried] at hempty
    rw [← huntried, ← hchildren]
    exact h'.exhausted hempty

theorem record (n : SearchNode σ β) (value : β) (belowSettled : Bool) :
    n.Advances (n.record value belowSettled) where
  visits := Nat.le_succ _
  best := by
    intro hvisits
    by_cases hlt : n.best < value
    · exact .inr (by rw [SearchNode.record, if_pos (.inr hlt)]; exact hlt)
    · exact .inl (if_neg (by simp [hvisits, hlt]))
  exhausted := fun _ => ⟨rfl, rfl⟩

end SearchNode.Advances

namespace SearchTree

variable [Elementary β] {t u : SearchTree σ β} {p : Problem σ ε β} {start : σ} {k : Nat}
  {log : List (Finding β)} {config : TreeConfig β} {s s' : Session}

theorem Linked.advances_backpropagate (h : t.Linked p start) {path : List Nat}
    (hpath : t.Upward path) (value : β) {id : Nat} {n : SearchNode σ β}
    (hn : t.node? id = some n) :
    ∃ m, (t.backpropagate value path).node? id = some m ∧ n.Advances m := by
  refine ⟨_, (h.node?_backpropagate_eq_some hpath).mpr ⟨n, hn, rfl⟩, ?_⟩
  split
  · exact .record n value _
  · exact .refl n

theorem advances_tryAction {id action : Nat} {n : SearchNode σ β} {untried : ActionPool} {state : σ}
    (hn : t.node? id = some n) (hsome : n.untried.isEmpty = false) {j : Nat}
    {x : SearchNode σ β} (hx : t.node? j = some x) :
    ∃ m, (t.tryAction p id action untried state).node? j = some m ∧ x.Advances m := by
  refine ⟨_, node?_tryAction_old hx, ?_⟩
  split
  next hj =>
    rw [hj, hn, Option.some.injEq] at hx
    subst hx
    exact ⟨Nat.le_refl _, fun _ => .inl rfl, fun hempty => by simp [hempty] at hsome⟩
  next => exact .refl x

/-- A round advances every node. -/
theorem Sound.advances_next (h : Sound p start k log t)
    (hround : t.iterate p config s = (.ok (), u, s')) {id : Nat} {n : SearchNode σ β}
    (hn : t.node? id = some n) : ∃ m, u.node? id = some m ∧ n.Advances m := by
  obtain ⟨value, ⟨_, _, _, _, _, rfl⟩ |
    ⟨sel, x, action, untried, state, hx, hsome, hdraw, hact, _, rfl⟩⟩ :=
      iterate_cases h.linked h.judged h.visited hround
  · exact h.linked.advances_backpropagate h.linked.upward_root value hn
  · obtain ⟨m, hm, hadvances⟩ := advances_tryAction hx hsome hn
    obtain ⟨m', hm', hadvances'⟩ := (h.linked.tryAction hx hdraw hact).advances_backpropagate
      (h.linked.upward_tryAction hx hdraw hact) value hm
    exact ⟨m', hm', hadvances.trans hadvances'⟩

theorem Rounds.advances (h : Rounds p (.ofRoot p start) k log t) {k' : Nat}
    {log' : List (Finding β)} (h' : Rounds p t k' log' u) {id : Nat} {n : SearchNode σ β}
    (hn : t.node? id = some n) : ∃ m, u.node? id = some m ∧ n.Advances m := by
  induction h' with
  | none => exact ⟨n, hn, .refl n⟩
  | next config s s' before done ih =>
    obtain ⟨m, hm, hadvances⟩ := ih
    obtain ⟨m', hm', hadvances'⟩ := (h.trans before).sound.advances_next done hm
    exact ⟨m', hm', hadvances.trans hadvances'⟩

/-! ## Settled nodes -/

omit [Elementary β] in
/-- What lies below a settled node is settled. -/
theorem Judged.isSettledAt_of_mem_lineage (hlinked : t.Linked p start) (hjudged : t.Judged)
    {id j : Nat} {n : SearchNode σ β} (hid : t.isSettledAt id = true) (hn : t.node? j = some n)
    (hmem : id ∈ t.lineage j) : t.isSettledAt j = true := by
  refine hlinked.induction (P := fun j => id ∈ t.lineage j → t.isSettledAt j = true)
    ?root ?child hn hmem
  case root =>
    intro hmem
    rw [hlinked.lineage_root, List.mem_singleton] at hmem
    exact hmem ▸ hid
  case child =>
    intro i m c hm hc ih hmem
    rw [hlinked.lineage_child hm hc] at hmem
    rcases List.mem_cons.mp hmem with rfl | hmem
    · exact hid
    · exact hjudged.isSettledAt_child hm hc (ih hmem)

/-- A round leaves a settled node as it is, unless it is the root. -/
theorem Sound.node?_next_of_isSettled (h : Sound p start k log t)
    (hround : t.iterate p config s = (.ok (), u, s')) {id : Nat} {n : SearchNode σ β}
    (hn : t.node? id = some n) (hpos : 0 < id) (hsettled : n.isSettled = true) :
    u.node? id = some n := by
  obtain ⟨value, ⟨_, _, _, _, _, rfl⟩ |
    ⟨sel, x, action, untried, state, hx, hsome, hdraw, hact, _, rfl⟩⟩ :=
      iterate_cases h.linked h.judged h.visited hround
  · have hoff : id ∉ [0] := by
      rw [List.mem_singleton]
      omega
    exact (h.linked.node?_backpropagate_eq_some h.linked.upward_root).mpr ⟨n, hn, if_neg hoff⟩
  · -- an action was tried, so what lies above it is not settled
    have hoff : id ∉ t.lineage sel := by
      intro hmem
      have hsel := h.judged.isSettledAt_of_mem_lineage h.linked
        ((isSettledAt_of_node? hn).trans hsettled) hx hmem
      rw [isSettledAt_of_node? hx, h.judged sel x hx, hsome] at hsel
      simp at hsel
    have hne : id ≠ sel := fun heq => hoff (heq ▸ t.mem_lineage_self id)
    have hold : (t.tryAction p sel action untried state).node? id = some n := by
      rw [node?_tryAction_old hn, if_neg hne]
    have hnew : id ∉ t.size :: t.lineage sel := by
      have := node?_lt_size hn
      rw [List.mem_cons]
      rintro (hid | hmem)
      · omega
      · exact hoff hmem
    exact ((h.linked.tryAction hx hdraw hact).node?_backpropagate_eq_some
      (h.linked.upward_tryAction hx hdraw hact)).mpr ⟨n, hold, if_neg hnew⟩

theorem Rounds.node?_of_isSettled (h : Rounds p (.ofRoot p start) k log t) {k' : Nat}
    {log' : List (Finding β)} (h' : Rounds p t k' log' u) {id : Nat} {n : SearchNode σ β}
    (hn : t.node? id = some n) (hpos : 0 < id) (hsettled : n.isSettled = true) :
    u.node? id = some n := by
  induction h' with
  | none => exact hn
  | next config s s' before done ih =>
    exact (h.trans before).sound.node?_next_of_isSettled done ih hpos hsettled

/-! ## The best child -/

/-- The best value of a node. -/
def bestAt (t : SearchTree σ β) (id : Nat) : β :=
  ((t.node? id).map (·.best)).getD 0.0

theorem bestAt_of_node? {id : Nat} {n : SearchNode σ β} (hn : t.node? id = some n) :
    t.bestAt id = n.best := by
  rw [bestAt, hn]
  rfl

theorem Linked.bestChild?_eq (h : t.Linked p start) {root : SearchNode σ β}
    (hroot : t.node? 0 = some root) :
    t.bestChild? = leader (root.children.map fun c => (c, t.bestAt c)) := by
  have hranked : root.children.filterMap (fun c => (t.node? c).map fun n => (c, n.best)) =
      root.children.map fun c => (c, t.bestAt c) := by
    rw [← List.filterMap_eq_map]
    refine List.filterMap_congr fun c hc => ?_
    obtain ⟨m, _, hm, _⟩ := h.child 0 root hroot c hc
    rw [hm, Option.map_some, Function.comp_apply, bestAt_of_node? hm]
  rw [bestChild?, hroot, ← hranked]
  rfl

omit [Elementary β] in
theorem Linked.nodup_children (h : t.Linked p start) {id : Nat} {n : SearchNode σ β}
    (hn : t.node? id = some n) : n.children.Nodup := by
  obtain ⟨_, hnodup, _⟩ := h.triedActions_spec hn
  rw [triedActions, List.Nodup, List.pairwise_filterMap] at hnodup
  refine hnodup.imp_of_mem ?_
  rintro c _ hc _ hne rfl
  obtain ⟨m, action, hm, _, _, haction, _⟩ := h.child id n hn c hc
  have hat : t.actionAt? c = some action := by
    rw [actionAt?, hm, Option.bind_some, haction]
  exact hne action hat action hat rfl

/-- At a decided root nothing is left to try, and at most one child is open. -/
theorem Sound.of_isDecided (h : Sound p start k log t) (hdecided : t.isDecided = true)
    {root : SearchNode σ β} (hroot : t.node? 0 = some root) :
    root.untried.isEmpty = true ∧ (t.openChildren root).length ≤ 1 := by
  simp only [isDecided, hroot, Bool.or_eq_true, Bool.and_eq_true, decide_eq_true_eq] at hdecided
  rcases hdecided with hsettled | hdecided
  · obtain ⟨_, hempty, hnone⟩ := (h.judged 0 root hroot).mp hsettled
    exact ⟨hempty, by simp [hnone]⟩
  · exact hdecided

/-- However rounds made a tree whose root is decided: in all further rounds the best child of the
root stays the same, unless one child of the root was still open. Then that child may have become
the best one, for no reason other than that its best value has risen. -/
theorem decided_keeps_best (p : Problem σ ε β) (start : σ)
    (h : Rounds p (.ofRoot p start) k log t) (hdecided : t.isDecided = true) {k' : Nat}
    {log' : List (Finding β)} (h' : Rounds p t k' log' u) :
    u.bestChild? = t.bestChild? ∨ ∃ root c n m, t.node? 0 = some root ∧
      t.openChildren root = [c] ∧ t.node? c = some n ∧ u.node? c = some m ∧ n.best < m.best ∧
      u.bestChild? = some c := by
  have hsound := h.sound
  obtain ⟨root, hroot, _⟩ := hsound.linked.root
  obtain ⟨hempty, hone⟩ := hsound.of_isDecided hdecided hroot
  obtain ⟨root', hroot', hadvances⟩ := h.advances h' hroot
  have hchildren : root'.children = root.children := (hadvances.exhausted hempty).2
  have hclosed : ∀ c ∈ root.children, c ∉ t.openChildren root → u.bestAt c = t.bestAt c := by
    intro c hc hnot
    obtain ⟨m, _, hm, hlt, _⟩ := hsound.linked.child 0 root hroot c hc
    have hsettled : m.isSettled = true := by
      rw [mem_openChildren, isSettledAt_of_node? hm] at hnot
      simpa [hc] using hnot
    rw [bestAt, h.node?_of_isSettled h' hm hlt hsettled, bestAt, hm]
  rw [(h.trans h').sound.linked.bestChild?_eq hroot', hsound.linked.bestChild?_eq hroot, hchildren]
  rcases hopen : t.openChildren root with _ | ⟨c, rest⟩
  · rw [List.map_congr_left fun c hc => by rw [hclosed c hc (by simp [hopen])]]
    exact .inl rfl
  · obtain rfl : rest = [] := by
      rw [hopen, List.length_cons] at hone
      exact List.length_eq_zero_iff.mp (by omega)
    have hc : c ∈ root.children := (mem_openChildren.mp (hopen ▸ List.mem_singleton_self c)).1
    obtain ⟨n, _, hn, hlt, _⟩ := hsound.linked.child 0 root hroot c hc
    obtain ⟨m, hm, hchild⟩ := h.advances h' hn
    have hothers : ∀ i ∈ root.children, i ≠ c → u.bestAt i = t.bestAt i :=
      fun i hi hne => hclosed i hi (by simpa [hopen] using hne)
    rcases hchild.best (hsound.visited c n hn hlt) with heq | hrises
    · refine .inl (congrArg leader (List.map_congr_left fun i _ => ?_))
      by_cases hic : i = c
      · rw [hic, bestAt_of_node? hm, heq, bestAt_of_node? hn]
      · rw [hothers i ‹_› hic]
    · have hraised : u.bestAt c = t.bestAt c ∨ t.bestAt c < u.bestAt c := by
        rw [bestAt_of_node? hm, bestAt_of_node? hn]
        exact .inr hrises
      exact (leader_of_raised (hsound.linked.nodup_children hroot) hothers hraised).imp_right
        fun hleader => ⟨root, c, n, m, hroot, hopen, hn, hm, hrises, hleader⟩

/-- Two ways from the start: one ends at once at a fair value, the other is poor at first and leads
on to the best value. -/
def detour : Problem Nat Unit Float where
  actionCount
    | 0 => 2
    | 2 => 1
    | _ => 0
  act
    | 0, action => .ok (action + 1)
    | _, _ => .ok 3
  assess place s := (.ok ([0.0, 0.5, 0.25, 1.0].getD place 0.0), s)

/-- The detour after some rounds. -/
def detourAfter : Nat → SearchTree Nat Float
  | 0 => .ofRoot detour 0
  | rounds + 1 => ((detourAfter rounds).iterate detour .usual (.seeded 0)).2.1

/-- Two rounds of the detour decide the choice, but the third is a round like any other. -/
theorem detour_rounds : ∃ log log', Rounds detour (.ofRoot detour 0) 2 log (detourAfter 2) ∧
    (detourAfter 2).isDecided = true ∧ Rounds detour (detourAfter 2) 1 log' (detourAfter 3) := by
  have hround (rounds : Nat) (h : ((detourAfter rounds).iterate detour .usual (.seeded 0)).1 =
      .ok ()) : (detourAfter rounds).iterate detour .usual (.seeded 0) =
        (.ok (), detourAfter (rounds + 1), _) := Prod.ext h rfl
  have hfirst := Rounds.next .usual (.seeded 0) _ .none (hround 0 rfl)
  exact ⟨_, _, .next .usual (.seeded 0) _ hfirst (hround 1 rfl), rfl,
    .next .usual (.seeded 0) _ .none (hround 2 rfl)⟩

/-- The third round changes what was decided. -/
theorem decided_detour_changes : ∃ log log' t u, Rounds detour (.ofRoot detour 0) 2 log t ∧
    t.isDecided = true ∧ Rounds detour t 1 log' u ∧ t.bestChild? = some 2 ∧
    u.bestChild? = some 1 := by
  obtain ⟨log, log', hrounds, hdecided, hnext⟩ := detour_rounds
  exact ⟨log, log', _, _, hrounds, hdecided, hnext, rfl, rfl⟩

/-- Its new best child is the one that was still open. -/
theorem decided_keeps_best_detour : ∃ root c n m, (detourAfter 2).node? 0 = some root ∧
    (detourAfter 2).openChildren root = [c] ∧ (detourAfter 2).node? c = some n ∧
    (detourAfter 3).node? c = some m ∧ n.best < m.best ∧
    (detourAfter 3).bestChild? = some c := by
  obtain ⟨_, _, hrounds, hdecided, hnext⟩ := detour_rounds
  have hchanged : (detourAfter 3).bestChild? ≠ (detourAfter 2).bestChild? := by
    rw [show (detourAfter 3).bestChild? = some 1 from rfl,
      show (detourAfter 2).bestChild? = some 2 from rfl]
    decide
  exact (decided_keeps_best detour 0 hrounds hdecided hnext).resolve_left hchanged

end SearchTree

end ShapeGrammar
