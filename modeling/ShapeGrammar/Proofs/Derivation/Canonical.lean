import Mathlib.Data.List.Induction
import ShapeGrammar.Proofs.Derivation.BreadthFirst
import ShapeGrammar.Number.Machine
import ShapeGrammar.Proofs.Derivation.Call

/-!
# The order of the queue

As long as no clock stops a run, the queue of a derivation holds its waiting nodes in breadth-first
order, whatever was done with it. The only exception are the nodes that a run passed over because
they lie too deep: they go on waiting in the tree, and then the queue is empty. Main statements:
what one turn of a run does to a derivation in order, what a whole run does, and `queue_canonical`
for all sequences of calls.
-/
namespace ShapeGrammar

namespace Tree

variable {α : Type} {t : Tree α}

theorem mem_pendingInOrder (h : t.Layered) {id : Nat} :
    id ∈ t.pendingInOrder ↔ ∃ n, t.node? id = some n ∧ n.status = .pending := by
  rw [h.pendingInOrder_eq, List.mem_filter, List.mem_range, isPending_iff]
  constructor
  · exact And.right
  · rintro ⟨n, hn, hp⟩
    exact ⟨node?_lt_size hn, n, hn, hp⟩

theorem pairwise_pendingInOrder (h : t.Layered) : t.pendingInOrder.Pairwise (· < ·) := by
  rw [h.pendingInOrder_eq]
  exact List.pairwise_lt_range.filter _

theorem isPending_setStatus {id : Nat} {status : Status} (hs : status ≠ .pending) (j : Nat) :
    (t.setStatus id status).isPending j = (t.isPending j && j != id) := by
  rw [Bool.eq_iff_iff, Bool.and_eq_true, isPending_iff, isPending_iff]
  constructor
  · rintro ⟨m, hm, hp⟩
    obtain ⟨n, hn, rfl⟩ := node?_setStatus_eq_some.mp hm
    by_cases hj : j = id
    · simp only [hj, if_true] at hp
      exact absurd hp hs
    · simp only [hj, if_false] at hp
      exact ⟨⟨n, hn, hp⟩, by simpa using hj⟩
  · rintro ⟨⟨n, hn, hp⟩, hj⟩
    have hj' : j ≠ id := by simpa using hj
    exact ⟨_, node?_setStatus_eq_some.mpr ⟨n, hn, rfl⟩, by simpa [hj'] using hp⟩

/-- A node that is dealt with leaves the waiting nodes; the others stay in order. -/
theorem pendingInOrder_setStatus (h : t.Layered) {id : Nat} {rest : List Nat} {status : Status}
    (hp : t.pendingInOrder = id :: rest) (hs : status ≠ .pending)
    (h' : (t.setStatus id status).Layered) :
    (t.setStatus id status).pendingInOrder = rest := by
  have hsorted := pairwise_pendingInOrder h
  rw [hp, List.pairwise_cons] at hsorted
  calc
    _ = (List.range t.size).filter fun j => t.isPending j && j != id := by
      rw [h'.pendingInOrder_eq, size_setStatus]
      exact List.filter_congr fun j _ => isPending_setStatus hs j
    _ = (id :: rest).filter (· != id) := by
      rw [← hp, h.pendingInOrder_eq, List.filter_filter]
      exact List.filter_congr fun j _ => Bool.and_comm _ _
    _ = rest := by
      rw [List.filter_cons_of_neg (by simp), List.filter_eq_self]
      intro j hj
      have := hsorted.1 j hj
      simp
      omega

theorem isPending_attach_old {id j : Nat} (kids : List (Shape α × Status)) (hj : j < t.size) :
    (t.attach id kids).isPending j = t.isPending j := by
  obtain ⟨n, hn⟩ := exists_node? hj
  simp only [isPending, node?_attach_old kids id hn, hn, Node.isVisited]

end Tree

theorem Growth.children_ne_expanded {α : Type} {hasRule : String → Bool} (growth : Growth α) :
    ∀ kid ∈ growth.children hasRule, kid.2 ≠ .expanded := by
  intro kid hkid
  simp only [Growth.children, List.mem_append, List.mem_map, Option.mem_toList,
    Option.map_eq_some_iff] at hkid
  rcases hkid with ⟨shape, _, rfl⟩ | ⟨shape, _, rfl⟩
  · dsimp only
    split <;> decide
  · simp

namespace Derivation

variable {α : Type}

/-- The children that wait, said of their numbers. -/
theorem waiting_eq (P : Nat → Bool) (first : Nat) (kids : List (Shape α × Status))
    (hP : ∀ k, ∀ hk : k < kids.length, P (first + k) = (kids[k].2 == .pending)) :
    waiting first kids = (List.range' first kids.length).filter P := by
  induction kids generalizing first with
  | nil => rfl
  | cons kid rest ih =>
    have hhead := hP 0 (by simp)
    have htail := ih (first + 1) fun k hk => by
      have := hP (k + 1) (by simpa using hk)
      rwa [Nat.add_assoc, Nat.add_comm 1 k]
    simp only [waiting] at htail ⊢
    rw [List.length_cons, List.range'_succ, List.zipIdx_cons, List.filter_cons, List.filter_cons,
      ← htail]
    simp only [Nat.add_zero, List.getElem_cons_zero] at hhead
    rw [hhead]
    split <;> rfl

theorem pendingInOrder_attach {t : Tree α} (h : t.Layered) {id : Nat} {n : Node α}
    (hn : t.node? id = some n) {kids : List (Shape α × Status)}
    (h' : (t.attach id kids).Layered) :
    (t.attach id kids).pendingInOrder = t.pendingInOrder ++ waiting t.size kids := by
  rw [h'.pendingInOrder_eq, h.pendingInOrder_eq, Tree.size_attach, range_add_eq,
    List.filter_append]
  congr 1
  · apply List.filter_congr
    intro j hj
    exact Tree.isPending_attach_old kids (List.mem_range.mp hj)
  · refine (waiting_eq _ t.size kids fun k hk => ?_).symm
    simp only [Tree.isPending, Tree.node?_attach_new kids hn hk, Node.isVisited]
    cases kids[k].2 <;> rfl

/-- The nodes that wait in the tree are those that were passed over and those of the queue, in
breadth-first order. -/
structure Canonical (d : Derivation α) (skipped : List Nat) : Prop where
  layered : d.tree.Layered
  pending_eq : d.tree.pendingInOrder = skipped ++ d.queue.toList

namespace Canonical

variable {d popped : Derivation α} {skipped : List Nat} {id : Nat}

theorem start (shape : Shape α) (g : Grammar α) : Canonical (.start shape g) [] := by
  have hlayered := Tree.Layered.ofRoot shape
  refine ⟨hlayered, ?_⟩
  rw [Derivation.start, hlayered.pendingInOrder_eq]
  rfl

theorem copy (h : d.Canonical skipped) : d.copy.Canonical [] :=
  ⟨h.layered, by simp [Derivation.copy]⟩

theorem pop (h : d.Canonical skipped) (hd : d.pop? = some (id, popped)) :
    popped.Canonical (skipped ++ [id]) := by
  obtain ⟨htree, _, hqueue⟩ := pop?_eq_some hd
  refine ⟨htree ▸ h.layered, ?_⟩
  rw [htree, h.pending_eq, hqueue, List.append_assoc, List.singleton_append]

/-- A node that was passed over waits. -/
theorem exists_pending (h : d.Canonical skipped) (hid : id ∈ skipped) :
    ∃ n, d.tree.node? id = some n ∧ n.status = .pending := by
  rw [← Tree.mem_pendingInOrder h.layered, h.pending_eq]
  exact List.mem_append_left _ hid

theorem id_le (h : d.Canonical [id]) {j : Nat} {m : Node α} (hm : d.tree.node? j = some m)
    (hp : m.status = .pending) : id ≤ j := by
  have hj := (Tree.mem_pendingInOrder h.layered).mpr ⟨m, hm, hp⟩
  have hsorted := Tree.pairwise_pendingInOrder h.layered
  rw [h.pending_eq, List.singleton_append] at hj hsorted
  rw [List.pairwise_cons] at hsorted
  rcases List.mem_cons.mp hj with rfl | hj
  · exact Nat.le_refl _
  · exact Nat.le_of_lt (hsorted.1 j hj)

/-- The node at hand is dealt with. -/
theorem setStatus (h : d.Canonical [id]) {status : Status} (hs : status ≠ .pending) :
    Canonical { d with tree := d.tree.setStatus id status } [] := by
  obtain ⟨n, hn, hp⟩ := h.exists_pending (List.mem_singleton_self id)
  have hlayered := h.layered.setStatus hn hp (fun j m => h.id_le) hs
  exact ⟨hlayered, Tree.pendingInOrder_setStatus h.layered h.pending_eq hs hlayered⟩

/-- The node at hand gets its children. -/
theorem grow (h : d.Canonical [id]) {kids : List (Shape α × Status)}
    (hkids : ∀ kid ∈ kids, kid.2 ≠ .expanded) : (d.grow id kids).Canonical [] := by
  obtain ⟨n, hn, hp⟩ := h.exists_pending (List.mem_singleton_self id)
  have hset := h.setStatus (show Status.expanded ≠ .pending by decide)
  have hn' : (d.tree.setStatus id .expanded).node? id = some { n with status := .expanded } :=
    Tree.node?_setStatus_eq_some.mpr ⟨n, hn, by simp⟩
  have hlast (j : Nat) (m : Node α) (hm : (d.tree.setStatus id .expanded).node? j = some m)
      (he : m.status = .expanded) : j ≤ id := by
    obtain ⟨x, hx, rfl⟩ := Tree.node?_setStatus_eq_some.mp hm
    by_cases hj : j = id
    · exact Nat.le_of_eq hj
    · simp only [hj, if_false] at he
      exact Nat.le_of_lt (h.layered.expanded_lt_pending id n j x hn hp hx he)
  have hchildren : n.children = [] := h.layered.leaf id n hn (by simp [hp])
  have hlayered := hset.layered.attach hn' rfl hchildren hlast hkids
  refine ⟨hlayered, ?_⟩
  have hpending := pendingInOrder_attach hset.layered hn' hlayered
  rw [hset.pending_eq] at hpending
  simpa [Derivation.grow] using hpending

section Steps

variable [Elementary α]

theorem expand (h : d.Canonical [id]) (maxNodes : Nat) :
    (d.expand id maxNodes).2.Canonical [] := by
  obtain ⟨n, hn, hp⟩ := h.exists_pending (List.mem_singleton_self id)
  rcases expand_cases maxNodes hn with ⟨_, he⟩ | ⟨_, _, ⟨_, _, he⟩ | ⟨growth, _, he⟩⟩
  · rw [he]
    exact h.setStatus (by decide)
  · rw [he]
    exact h.setStatus (by decide)
  · rw [he]
    exact h.grow growth.children_ne_expanded

/-- A guided step keeps the order, or there is nothing to expand. -/
theorem applyAction (h : d.Canonical []) (action maxNodes : Nat) :
    (d.applyAction action maxNodes).2.Canonical [] := by
  cases hd : d.pop? with
  | none => simpa only [Derivation.applyAction, hd] using h
  | some taken =>
    obtain ⟨id, popped⟩ := taken
    have hpopped := h.pop hd
    obtain ⟨n, hn, hp⟩ := hpopped.exists_pending (List.mem_singleton_self id)
    have hvisited : ¬ n.isVisited = true := by simp [Node.isVisited, hp]
    simp only [Derivation.applyAction, hd, hn, if_neg hvisited]
    have hdecided : Canonical { popped with
        grammar := ActionSpace.commit popped.grammar n.shape.name action } [id] :=
      ⟨hpopped.layered, hpopped.pending_eq⟩
    exact hdecided.expand maxNodes

theorem applyAction_of_queue_eq_nil (hd : d.queue.toList = []) (action maxNodes : Nat) :
    d.applyAction action maxNodes = (.ok false, d) := by
  simp only [Derivation.applyAction, pop?_eq_none_iff.mpr hd]

end Steps

end Canonical

/-! ## Runs -/

/-- What holds before each turn of a run: the derivation is in order but for the nodes that were
passed over, and once there is one of those no other limit will stop the run. -/
structure Orderly (limits : Limits) (d : Derivation α) (done : Progress) : Prop where
  canonical : d.Canonical done.tooDeep.reverse
  deep : ∀ id ∈ done.tooDeep, ∃ n, d.tree.node? id = some n ∧ limits.maxDepth < n.depth
  budget : done.tooDeep ≠ [] → d.budgetReached? limits done.expansions = none

/-- What a run leaves: the derivation is in order but for the nodes that were passed over, which
lie too deep; if there are any, the queue is empty. -/
structure Result (limits : Limits) (d : Derivation α) (done : Progress) : Prop where
  canonical : d.Canonical done.tooDeep.reverse
  deep : ∀ id ∈ done.tooDeep, ∃ n, d.tree.node? id = some n ∧ limits.maxDepth < n.depth
  drained : done.tooDeep = [] ∨ d.queue.toList = []

theorem Canonical.orderly {d : Derivation α} (h : d.Canonical []) (limits : Limits) :
    Orderly limits d {} :=
  ⟨h, by simp, by simp⟩

theorem Canonical.result {limits : Limits} {d : Derivation α} {done : Progress}
    (h : d.Canonical []) (hover : done.tooDeep = []) : Result limits d done :=
  ⟨by rw [hover]; exact h, by simp [hover], .inl hover⟩

namespace Orderly

variable [Elementary α] {limits : Limits} {d : Derivation α} {done : Progress}

/-- All that a turn can come to: the queue is empty, a limit is reached, the front node lies too
deep, or it is expanded. As long as nodes are expanded none has been passed over. -/
theorem turn_cases (h : Orderly limits d done) :
    (d.queue.toList = [] ∧ turn limits d done = .stop (.ok (drained done)) done d) ∨
    (done.tooDeep = [] ∧ ∃ reason, d.budgetReached? limits done.expansions = some reason ∧
      d.queue.toList ≠ [] ∧ turn limits d done = .stop (.ok reason) done d) ∨
    ∃ id popped n, d.pop? = some (id, popped) ∧ popped.tree.node? id = some n ∧
      n.status = .pending ∧ d.budgetReached? limits done.expansions = none ∧
      ((limits.maxDepth < n.depth ∧
        turn limits d done = .next { done with tooDeep := id :: done.tooDeep } popped) ∨
      n.depth ≤ limits.maxDepth ∧ done.tooDeep = [] ∧
        turn limits d done = .ofExpansion done (popped.expand id limits.maxNodes)) := by
  cases hd : d.pop? with
  | none => exact .inl ⟨pop?_eq_none_iff.mp hd, by simp only [turn, hd]⟩
  | some taken =>
    obtain ⟨id, popped⟩ := taken
    obtain ⟨htree, _, hqueue⟩ := pop?_eq_some hd
    cases hb : d.budgetReached? limits done.expansions with
    | some reason =>
      refine .inr (.inl ⟨?_, reason, rfl, by simp [hqueue], by simp only [turn, hd, hb]⟩)
      by_contra hne
      rw [h.budget hne] at hb
      cases hb
    | none =>
      have hpopped := h.canonical.pop hd
      obtain ⟨n, hn, hp⟩ := hpopped.exists_pending
        (List.mem_append_right _ (List.mem_singleton_self id))
      have hvisited : ¬ n.isVisited = true := by simp [Node.isVisited, hp]
      refine .inr (.inr ⟨id, popped, n, rfl, hn, hp, rfl, ?_⟩)
      by_cases hdepth : limits.maxDepth < n.depth
      · exact .inl ⟨hdepth, by simp only [turn, hd, hb, hn, if_neg hvisited, if_pos hdepth]⟩
      · refine .inr ⟨Nat.le_of_not_lt hdepth, ?_, by
          simp only [turn, hd, hb, hn, if_neg hvisited, if_neg hdepth]⟩
        -- a node that was passed over stands before this one, so it lies no deeper
        cases hover : done.tooDeep with
        | nil => rfl
        | cons j rest =>
          obtain ⟨m, hm, hdeep⟩ := h.deep j (hover ▸ List.mem_cons_self)
          have hsorted := Tree.pairwise_pendingInOrder h.canonical.layered
          rw [h.canonical.pending_eq, hqueue, List.pairwise_append] at hsorted
          have hlt := hsorted.2.2 j (by simp [hover]) id List.mem_cons_self
          rw [htree] at hn
          have := h.canonical.layered.depth_le hm hn (Nat.le_of_lt hlt)
          omega

/-- One turn: if the run goes on everything is still in order, and if it stops the result is. -/
theorem turn (h : Orderly limits d done) :
    match Derivation.turn limits d done with
    | .next done' d' => Orderly limits d' done'
    | .stop _ done' d' => Result limits d' done' := by
  rcases h.turn_cases with ⟨hqueue, ht⟩ | ⟨hover, reason, _, _, ht⟩ |
    ⟨id, popped, n, hd, hn, hp, hb, ⟨hdepth, ht⟩ | ⟨_, hover, ht⟩⟩
  · rw [ht]
    exact ⟨h.canonical, h.deep, .inr hqueue⟩
  · rw [ht]
    exact ⟨h.canonical, h.deep, .inl hover⟩
  · have htree := (pop?_eq_some hd).1
    rw [ht]
    refine ⟨by simpa using h.canonical.pop hd, ?_, ?_⟩
    · intro j hj
      rcases List.mem_cons.mp hj with rfl | hj
      · exact ⟨n, hn, hdepth⟩
      · rw [htree]
        exact h.deep j hj
    · intro _
      simpa only [budgetReached?, htree] using hb
  · have hpopped := h.canonical.pop hd
    rw [hover] at hpopped
    have hmade := Canonical.expand hpopped limits.maxNodes
    rw [ht]
    rcases hx : popped.expand id limits.maxNodes with ⟨cause | _ | _ | _, d'⟩
    all_goals rw [hx] at hmade
    · exact hmade.result hover
    · exact ⟨by rw [hover]; exact hmade, by simp [hover], by simp [hover]⟩
    · exact ⟨by rw [hover]; exact hmade, by simp [hover], by simp [hover]⟩
    · exact hmade.result hover

theorem next {d' : Derivation α} {done' : Progress} (h : Orderly limits d done)
    (ht : Derivation.turn limits d done = .next done' d') : Orderly limits d' done' := by
  have hturn := h.turn
  rw [ht] at hturn
  exact hturn

theorem runFrom (h : Orderly limits d done) :
    Result limits (Derivation.runFrom limits d done).2.2
      (Derivation.runFrom limits d done).2.1 := by
  induction d, done using induction_of_turn (α := α) limits with
  | stop d done result done' d' hturn =>
    have hresult := h.turn
    rw [hturn] at hresult
    rw [runFrom_of_stop hturn]
    exact hresult
  | next d done done' d' hturn ih =>
    rw [runFrom_of_next hturn]
    exact ih (h.next hturn)

end Orderly

/-! ## Sequences of calls -/

section Calls

variable [Elementary α] {d : Derivation α}

/-- The nodes that a call passes over because they lie too deep. -/
def passedOverBy (d : Derivation α) : Call → List Nat
  | .full limits => d.passedOver limits
  | .random rng limits => (d.redraw rng).passedOver limits
  | .guided .. | .copy => []

theorem Canonical.redraw {skipped : List Nat} (h : d.Canonical skipped) (rng : Generator) :
    (d.redraw rng).Canonical skipped :=
  ⟨h.layered, h.pending_eq⟩

/-- A run over an ordered queue leaves it in order, or it drains it and what still waits are the
nodes it passed over. -/
theorem Canonical.complete (h : d.Canonical []) (limits : Limits) :
    (d.complete limits).2.Canonical (d.passedOver limits) ∧
      (d.passedOver limits = [] ∨ (d.complete limits).2.queue.toList = []) ∧
      ∀ id ∈ d.passedOver limits,
        ∃ n, (d.complete limits).2.tree.node? id = some n ∧ limits.maxDepth < n.depth := by
  obtain ⟨hcanonical, hdeep, hdrained⟩ := (h.orderly limits).runFrom
  refine ⟨hcanonical, ?_, ?_⟩
  · rw [passedOver, List.reverse_eq_nil_iff]
    exact hdrained
  · intro id hid
    rw [passedOver, List.mem_reverse] at hid
    exact hdeep id hid

/-- A run over an empty queue does nothing, and is complete. -/
theorem complete_of_queue_eq_nil (hd : d.queue.toList = []) (limits : Limits)
    (clock : Clock := .stopped) : d.complete limits clock = (.ok (d.report {} .completed), d) := by
  have ht : turn limits d {} clock = .stop (.ok .completed) {} d := by
    simp only [turn, pop?_eq_none_iff.mpr hd]
    rfl
  simp only [Derivation.complete, runFrom_of_stop ht, Except.map]

/-- With an empty queue a call changes neither the tree nor the queue, or it makes a new queue. -/
theorem perform_of_queue_eq_nil (hd : d.queue.toList = []) (call : Call) :
    d.perform call = d.copy ∨
      (d.perform call).tree = d.tree ∧ (d.perform call).queue = d.queue := by
  cases call with
  | guided action maxNodes =>
    right
    simp only [perform, Canonical.applyAction_of_queue_eq_nil hd, and_self]
  | full limits =>
    right
    simp only [perform, complete_of_queue_eq_nil hd, and_self]
  | random rng limits =>
    right
    have hredraw : (d.redraw rng).queue.toList = [] := hd
    rw [perform, completeRandomly_eq, complete_of_queue_eq_nil hredraw]
    exact ⟨rfl, rfl⟩
  | copy => exact .inl rfl

/-- A call on a derivation in order: what it leaves is in order but for the nodes it passes over,
and if there are any it is a call with limits, they lie too deep and the queue is empty. -/
theorem Canonical.perform (h : d.Canonical []) (call : Call) :
    (d.perform call).Canonical (d.passedOverBy call) ∧
      (d.passedOverBy call = [] ∨ (d.perform call).queue.toList = [] ∧
        ∃ limits, call.limits? = some limits ∧ ∀ id ∈ d.passedOverBy call,
          ∃ n, (d.perform call).tree.node? id = some n ∧ limits.maxDepth < n.depth) := by
  cases call with
  | guided action maxNodes => exact ⟨h.applyAction action maxNodes, .inl rfl⟩
  | full limits =>
    obtain ⟨hcanonical, hdrained, hdeep⟩ := h.complete limits
    exact ⟨hcanonical, hdrained.imp_right fun hqueue => ⟨hqueue, limits, rfl, hdeep⟩⟩
  | random rng limits =>
    obtain ⟨hcanonical, hdrained, hdeep⟩ := (h.redraw rng).complete limits
    exact ⟨hcanonical, hdrained.imp_right fun hqueue => ⟨hqueue, limits, rfl, hdeep⟩⟩
  | copy => exact ⟨h.copy, .inl rfl⟩

/-- How a derivation stands after some calls: it is in order, or its queue is empty and its
waiting nodes are those that one of the calls passed over. -/
def Standing (d₀ : Derivation α) (calls : List Call) : Prop :=
  (d₀.after calls).Canonical [] ∨
    ∃ earlier call later limits, calls = earlier ++ call :: later ∧ call.limits? = some limits ∧
      (d₀.after calls).Canonical ((d₀.after earlier).passedOverBy call) ∧
      (d₀.after calls).queue.toList = [] ∧
      ∀ id ∈ (d₀.after earlier).passedOverBy call,
        ∃ n, (d₀.after calls).tree.node? id = some n ∧ limits.maxDepth < n.depth

theorem Standing.concat {d₀ : Derivation α} {calls : List Call} (h : Standing d₀ calls)
    (call : Call) : Standing d₀ (calls ++ [call]) := by
  rw [Standing, after_concat]
  rcases h with h | ⟨earlier, call', later, limits, rfl, hlimits, hcanonical, hqueue, hdeep⟩
  · obtain ⟨hcanonical, hnone | ⟨hqueue, limits, hlimits, hdeep⟩⟩ := h.perform call
    · rw [hnone] at hcanonical
      exact .inl hcanonical
    · exact .inr ⟨calls, call, [], limits, rfl, hlimits, hcanonical, hqueue, hdeep⟩
  · rcases perform_of_queue_eq_nil hqueue call with hcopy | ⟨htree, hsame⟩
    · rw [hcopy]
      exact .inl hcanonical.copy
    · refine .inr ⟨earlier, call', later ++ [call], limits, by simp, hlimits, ?_, ?_, ?_⟩
      · exact ⟨htree ▸ hcanonical.layered, by rw [htree, hsame, hcanonical.pending_eq]⟩
      · rw [hsame, hqueue]
      · rw [htree]
        exact hdeep

theorem Standing.canonical {d₀ : Derivation α} {calls : List Call} (h : Standing d₀ calls)
    (hqueue : (d₀.after calls).queue.toList = (d₀.after calls).tree.pendingInOrder) :
    (d₀.after calls).Canonical [] := by
  rcases h with h | ⟨_, _, _, _, _, _, hcanonical, _⟩
  · exact h
  · exact ⟨hcanonical.layered, hqueue.symm⟩

/-- However a derivation was reached, by calls that failed or not. -/
theorem standing_start (shape : Shape α) (g : Grammar α) (calls : List Call) :
    Standing (.start shape g) calls := by
  induction calls using List.reverseRecOn with
  | nil => exact .inl (.start shape g)
  | append_singleton calls call ih => exact ih.concat call

/-- After any calls that no clock stopped the queue holds the waiting nodes in breadth-first order;
or it is empty and what waits in the tree are the nodes that a call with limits took from the queue
and passed over, as they lie deeper than its limit. In the first case whatever is done with a copy
comes to the same as if it were done with the derivation itself. -/
theorem queue_canonical (shape : Shape α) (g : Grammar α) (calls : List Call) :
    let d := (start shape g).after calls
    (d.queue.toList = d.tree.pendingInOrder ∨
      d.queue.toList = [] ∧ ∃ earlier call later limits,
        calls = earlier ++ call :: later ∧ call.limits? = some limits ∧
        d.tree.pendingInOrder = ((start shape g).after earlier).passedOverBy call ∧
        ∀ id ∈ d.tree.pendingInOrder,
          ∃ n, d.tree.node? id = some n ∧ limits.maxDepth < n.depth) ∧
    (d.queue.toList = d.tree.pendingInOrder →
      d.copy.queue.toList = d.queue.toList ∧
        ∀ later clocks, Alike (d.copy.after later clocks) (d.after later clocks)) := by
  intro d
  refine ⟨?_, fun hqueue => ?_⟩
  · rcases standing_start shape g calls with
      h | ⟨earlier, call, later, limits, hcalls, hlimits, hcanonical, hqueue, hdeep⟩
    · exact .inl h.pending_eq.symm
    · have hpending := hcanonical.pending_eq
      rw [hqueue, List.append_nil] at hpending
      refine .inr ⟨hqueue, earlier, call, later, limits, hcalls, hlimits, hpending, ?_⟩
      rw [hpending]
      exact hdeep
  · have hcopy : d.copy.queue.toList = d.queue.toList := by
      rw [hqueue]
      exact Queue.toList_ofList _
    have halike : Alike d.copy d := ⟨rfl, hcopy, rfl⟩
    exact ⟨hcopy, halike.after⟩

end Calls

/-- A house of two parts that have a rule. -/
def twins : Grammar Float32 where
  attributes := .empty
  rules := ⟨[("Left", ⟨"Left", []⟩), ("Right", ⟨"Right", []⟩),
    ("Start", ⟨"Start", [.split .x [⟨⟨"1", .number 1.0⟩, .floating, "Left"⟩,
      ⟨⟨"1", .number 1.0⟩, .floating, "Right"⟩]]⟩)], by decide⟩

/-- With a clock neither case need hold: a run that is out of time after it passed over one of two
nodes leaves the other one in the queue. -/
theorem queue_twins_late :
    let d := (start .start twins).after [.guided 0 10, .full { maxDepth := 0, maxMillis := some 1 }]
      fun _ turns => turns
    d.queue.toList = [2] ∧ d.tree.pendingInOrder = [1, 2] := by
  intro d
  have hd : d = { (start .start twins).perform (.guided 0 10) with queue := .ofList [2] } := by
    simp only [d, after, perform, complete]
    rw [runFrom_later_of_next rfl, runFrom_of_stop rfl]
    rfl
  rw [hd]
  exact ⟨rfl, rfl⟩

end Derivation

end ShapeGrammar
