import ShapeGrammar.Proofs.Derivation.Faults

/-!
# The stages of a run

A run takes one node after the other from the queue. What it can still do is bounded by the nodes
that wait and the room that is left for more of them, for whoever joins the queue also takes up room
in the tree. Main statements: what one turn is charged with, and `complete_bounded`, that every run
ends, also that of a grammar that would go on for ever.
-/
namespace ShapeGrammar

theorem Growth.length_children {α : Type} (hasRule : String → Bool) (growth : Growth α) :
    (growth.children hasRule).length =
      growth.successors.length + growth.survivor.toList.length := by
  obtain ⟨successors, _ | survivor, clipped⟩ := growth <;> simp [children]

theorem Tree.node?_setStatus_cases {α : Type} {t : Tree α} {id j : Nat} {status : Status}
    {n m : Node α} (hn : t.node? id = some n) (hm : (t.setStatus id status).node? j = some m) :
    j = id ∧ m = { n with status } ∨ j ≠ id ∧ t.node? j = some m := by
  obtain ⟨x, hx, rfl⟩ := node?_setStatus_eq_some.mp hm
  by_cases hj : j = id
  · subst hj
    rw [hn, Option.some.injEq] at hx
    exact .inl ⟨rfl, by simp [hx]⟩
  · exact .inr ⟨hj, by simpa [hj] using hx⟩

namespace Derivation

variable {α : Type}

/-- The node that a turn takes from the queue; none if the queue is empty or a limit stops the run
before it. -/
def taken? (limits : Limits) (d : Derivation α) (done : Progress) : Option Nat :=
  match d.budgetReached? limits done.expansions with
  | some _ => none
  | none => d.pop?.map Prod.fst

/-- The progress that a turn leaves. -/
def Turn.progress : Turn α → Progress
  | .stop _ done _ => done
  | .next done _ => done

theorem Turn.expansions_ofExpansion_le (done : Progress)
    (made : Except (EvalError α) Expansion × Derivation α) :
    (ofExpansion done made).progress.expansions ≤ done.expansions + 1 := by
  obtain ⟨cause | ⟨_ | _ | _⟩, e⟩ := made <;> simp [ofExpansion, progress]

/-- An expansion stops a run if it fails or is clipped. -/
theorem Turn.of_ofExpansion_eq_stop {done done' : Progress} {d : Derivation α}
    {made : Except (EvalError α) Expansion × Derivation α}
    {result : Except (EvalError α) StopReason} (h : ofExpansion done made = .stop result done' d) :
    (∃ cause, made = (.error cause, d) ∧ result = .error cause ∧ done' = done) ∨
    made = (.ok .clipped, d) ∧ result = .ok .nodeBudget ∧
      done' = { done with expansions := done.expansions + 1 } := by
  obtain ⟨cause | ⟨_ | _ | _⟩, e⟩ := made
  all_goals cases h
  · exact .inl ⟨cause, rfl, rfl, rfl⟩
  · exact .inr ⟨rfl, rfl, rfl⟩

/-- A run goes on after an expansion that finds no rule, or one that makes all children. -/
theorem Turn.of_ofExpansion_eq_next {done done' : Progress} {d : Derivation α}
    {made : Except (EvalError α) Expansion × Derivation α}
    (h : ofExpansion done made = .next done' d) :
    made = (.ok .terminal, d) ∧ done' = done ∨
    made = (.ok .expanded, d) ∧ done' = { done with expansions := done.expansions + 1 } := by
  obtain ⟨cause | ⟨_ | _ | _⟩, e⟩ := made
  all_goals cases h
  · exact .inl ⟨rfl, rfl⟩
  · exact .inr ⟨rfl, rfl⟩

/-- How much a run can do, said of the larger of the limit and the tree. -/
theorem potential_eq (d : Derivation α) (maxNodes : Nat) :
    d.potential maxNodes = max maxNodes d.tree.size - d.tree.size + d.queue.toList.length := by
  rw [potential, Queue.length_toList]
  omega

theorem below_of_budgetReached?_eq_none {limits : Limits} {d : Derivation α} {expansions : Nat}
    (h : d.budgetReached? limits expansions = none) :
    expansions < limits.maxSteps ∧ d.tree.size < limits.maxNodes := by
  unfold budgetReached? at h
  split at h
  · cases h
  · split at h
    · cases h
    · omega

theorem budgetReached?_ne_completed (limits : Limits) (d : Derivation α) (expansions : Nat) :
    d.budgetReached? limits expansions ≠ some .completed := by
  unfold budgetReached?
  split
  · simp
  · split
    · simp
    · split <;> simp

theorem drained_eq_completed_iff {done : Progress} :
    drained done = .completed ↔ done.tooDeep = [] := by
  rw [drained, ← List.isEmpty_iff]
  split <;> simp_all

section Steps

variable [Elementary α]

/-- The stages of a run: the nodes it has taken from the queue so far, what it has done and where it
stands. -/
inductive Stage (limits : Limits) (d₀ : Derivation α) :
    List Nat → Progress → Derivation α → Prop where
  | start : Stage limits d₀ [] {} d₀
  | next {taken : List Nat} {done done' : Progress} {d d' : Derivation α}
      (before : Stage limits d₀ taken done d) (turned : turn limits d done = .next done' d') :
      Stage limits d₀ (taken ++ (d.taken? limits done).toList) done' d'

/-- The end of a run: the turn that stops it, with all the nodes that were taken from the queue. -/
inductive Ends (limits : Limits) (d₀ : Derivation α) :
    List Nat → Except (EvalError α) StopReason → Progress → Derivation α → Prop where
  | intro {taken : List Nat} {result : Except (EvalError α) StopReason} {done done' : Progress}
      {d d' : Derivation α} (before : Stage limits d₀ taken done d)
      (turned : turn limits d done = .stop result done' d') :
      Ends limits d₀ (taken ++ (d.taken? limits done).toList) result done' d'

variable {limits : Limits} {d₀ d : Derivation α} {taken : List Nat} {done : Progress}

/-- From every stage a run comes to its end. -/
theorem Stage.exists_ends (h : Stage limits d₀ taken done d) :
    ∃ all result done' e, Ends limits d₀ all result done' e ∧
      runFrom limits d done = (result, done', e) := by
  induction d, done using induction_of_turn (α := α) limits generalizing taken with
  | stop d done result done' e hturn =>
    exact ⟨_, result, done', e, .intro h hturn, runFrom_of_stop hturn⟩
  | next d done done' e hturn ih =>
    rw [runFrom_of_next hturn]
    exact ih (.next h hturn)

/-- What a run comes to is what it has come to at its end. -/
theorem exists_ends (d : Derivation α) (limits : Limits) :
    ∃ taken result done e, Ends limits d taken result done e ∧
      d.complete limits = (result.map (e.report done), e) := by
  have hstart : Stage limits d [] {} d := .start
  obtain ⟨taken, result, done, e, hends, hrun⟩ := hstart.exists_ends
  exact ⟨taken, result, done, e, hends, by simp only [complete, hrun]⟩

/-- All that a turn can come to, whatever is in the queue: the run stops before it takes a node, or
it takes the front node and skips it, or it takes the front node and expands it. -/
theorem turn_taken_cases (limits : Limits) (d : Derivation α) (done : Progress) :
    (d.taken? limits done = none ∧ ∃ reason, turn limits d done = .stop (.ok reason) done d) ∨
    ∃ id popped, d.pop? = some (id, popped) ∧ d.taken? limits done = some id ∧
      d.budgetReached? limits done.expansions = none ∧
      ((∃ tooDeep, turn limits d done = .next { done with tooDeep } popped) ∨
      turn limits d done = .ofExpansion done (popped.expand id limits.maxNodes)) := by
  unfold taken? turn
  cases hb : d.budgetReached? limits done.expansions with
  | some reason =>
    left
    cases d.pop? with
    | none => exact ⟨rfl, _, rfl⟩
    | some taken => exact ⟨rfl, _, rfl⟩
  | none =>
    cases hd : d.pop? with
    | none => exact .inl ⟨rfl, _, rfl⟩
    | some taken =>
      obtain ⟨id, popped⟩ := taken
      refine .inr ⟨id, popped, rfl, rfl, rfl, ?_⟩
      dsimp only
      split
      · exact .inl ⟨done.tooDeep, rfl⟩
      · split
        · exact .inl ⟨done.tooDeep, rfl⟩
        · split
          · exact .inl ⟨_, rfl⟩
          · exact .inr rfl

/-- How a run ends that does not fail: the queue is empty, a limit is reached while nodes still wait,
or not all children of the front node fit. -/
theorem Orderly.stop_cases {reason : StopReason} {done' : Progress} {d' : Derivation α}
    (h : Orderly limits d done) (ht : Derivation.turn limits d done = .stop (.ok reason) done' d') :
    (d.queue.toList = [] ∧ reason = drained done ∧ done' = done ∧ d' = d) ∨
    (d.queue.toList ≠ [] ∧ reason ≠ .completed ∧ done' = done ∧ d' = d) ∨
    reason = .nodeBudget ∧ done.tooDeep = [] ∧ done'.expansions = done.expansions + 1 ∧
      ∃ id popped n, d.pop? = some (id, popped) ∧ popped.tree.node? id = some n ∧
        n.depth ≤ limits.maxDepth ∧ popped.expand id limits.maxNodes = (.ok .clipped, d') := by
  rcases h.turn_cases with ⟨hqueue, heq⟩ | ⟨_, reached, hreached, hqueue, heq⟩ |
    ⟨id, popped, n, hd, hn, _, _, ⟨_, heq⟩ | ⟨hdepth, hover, heq⟩⟩
  · rw [ht, Turn.stop.injEq, Except.ok.injEq] at heq
    exact .inl ⟨hqueue, heq⟩
  · rw [ht, Turn.stop.injEq, Except.ok.injEq] at heq
    obtain ⟨rfl, hleft⟩ := heq
    refine .inr (.inl ⟨hqueue, ?_, hleft⟩)
    rintro rfl
    exact budgetReached?_ne_completed limits d done.expansions hreached
  · rw [ht] at heq
    cases heq
  · rw [ht] at heq
    rcases Turn.of_ofExpansion_eq_stop heq.symm with ⟨_, _, hresult, _⟩ | ⟨hmade, hresult, rfl⟩
    · cases hresult
    · cases hresult
      exact .inr (.inr ⟨rfl, hover, rfl, id, popped, n, hd, hn, hdepth, hmade⟩)

/-- What lasts while nodes are taken and expanded holds at every stage. -/
theorem Stage.of_steady {P : Derivation α → Prop} (hsteady : Steady P) (hstart : P d₀)
    (h : Stage limits d₀ taken done d) : P d := by
  induction h with
  | start => exact hstart
  | @next _ done _ _ _ _ turned ih =>
    have hturn := hsteady.turn ih limits done .stopped
    rwa [turned] at hturn

/-- A run over a queue in order is orderly at every stage. -/
theorem Stage.orderly (hstart : d₀.Canonical []) (h : Stage limits d₀ taken done d) :
    Orderly limits d done := by
  induction h with
  | start => exact hstart.orderly limits
  | next _ turned ih => exact ih.next turned

/-! ## What an expansion does to the nodes -/

section Nodes

variable {id j maxNodes : Nat} {n m : Node α}

/-- The nodes after an expansion: the one that was expanded, which keeps its shape and waits no
more, those that stay as they are, and new ones, of which none is expanded yet. -/
theorem node?_expand_cases (hn : d.tree.node? id = some n)
    (hm : (d.expand id maxNodes).2.tree.node? j = some m) :
    (j = id ∧ m.shape = n.shape ∧ m.depth = n.depth ∧
      ((d.expand id maxNodes).1 = .ok .terminal ∧ m.status = .terminal ∨
        (d.expand id maxNodes).1 ≠ .ok .terminal ∧ m.status = .expanded)) ∨
    (j ≠ id ∧ d.tree.node? j = some m) ∨ d.tree.node? j = none ∧ m.status ≠ .expanded := by
  rcases expand_cases maxNodes hn with ⟨_, he⟩ | ⟨_, _, ⟨_, _, he⟩ | ⟨growth, _, he⟩⟩
  · rw [he] at hm ⊢
    rcases Tree.node?_setStatus_cases hn hm with ⟨rfl, rfl⟩ | hother
    · exact .inl ⟨rfl, rfl, rfl, .inl ⟨rfl, rfl⟩⟩
    · exact .inr (.inl hother)
  · rw [he] at hm ⊢
    rcases Tree.node?_setStatus_cases hn hm with ⟨rfl, rfl⟩ | hother
    · exact .inl ⟨rfl, rfl, rfl, .inr ⟨by simp, rfl⟩⟩
    · exact .inr (.inl hother)
  · rw [he] at hm ⊢
    have hn' : (d.tree.setStatus id .expanded).node? id = some { n with status := .expanded } :=
      Tree.node?_setStatus_eq_some.mpr ⟨n, hn, by simp⟩
    rcases Tree.node?_attach_cases _ hn' hm with ⟨x, hx, rfl⟩ | ⟨k, hk, rfl, rfl⟩
    · rcases Tree.node?_setStatus_cases hn hx with ⟨rfl, rfl⟩ | ⟨hj, hother⟩
      · refine .inl ⟨rfl, rfl, rfl, .inr ⟨?_, rfl⟩⟩
        dsimp only
        split <;> simp
      · exact .inr (.inl ⟨hj, by simpa [hj] using hother⟩)
    · have hnone : d.tree.node? ((d.tree.setStatus id .expanded).size + k) = none := by
        rw [Tree.size_setStatus]
        simp [Tree.node?, Tree.size]
      exact .inr (.inr ⟨hnone, growth.children_ne_expanded _ (List.getElem_mem hk)⟩)

/-- What an expansion leaves of a node other than the one it expands. -/
theorem node?_expand_of_ne (hj : j ≠ id) (hm : d.tree.node? j = some m) :
    (d.expand id maxNodes).2.tree.node? j = some m := by
  cases hn : d.tree.node? id with
  | none => simpa only [expand, hn] using hm
  | some n =>
    have hset (status : Status) : (d.tree.setStatus id status).node? j = some m :=
      Tree.node?_setStatus_eq_some.mpr ⟨m, hm, by simp [hj]⟩
    rcases expand_cases maxNodes hn with ⟨_, he⟩ | ⟨_, _, ⟨_, _, he⟩ | ⟨growth, _, he⟩⟩
    · rw [he]
      exact hset .terminal
    · rw [he]
      exact hset .expanded
    · rw [he]
      have hold := Tree.node?_attach_old (growth.children d.grammar.hasRule) id (hset .expanded)
      rwa [if_neg hj, List.append_nil] at hold

end Nodes

/-! ## Reached derivations -/

variable {g : Grammar α} {shape : Shape α}

/-- A derivation that was reached is in order, or its queue is empty and some nodes have been passed
over. -/
theorem Reached.exists_canonical (h : d.Reached g shape) :
    ∃ skipped, d.Canonical skipped ∧ (skipped = [] ∨ d.queue.toList = []) := by
  induction h with
  | start => exact ⟨[], .start shape g, .inl rfl⟩
  | @perform d clock _ hclock call ih =>
    subst hclock
    obtain ⟨skipped, hcanonical, rfl | hqueue⟩ := ih
    · obtain ⟨hleft, hnone⟩ := hcanonical.perform call
      exact ⟨_, hleft, hnone.imp_right And.left⟩
    · rcases perform_of_queue_eq_nil hqueue call with hcopy | ⟨htree, hsame⟩
      · rw [hcopy]
        exact ⟨[], hcanonical.copy, .inl rfl⟩
      · exact ⟨skipped, ⟨htree ▸ hcanonical.layered, by rw [htree, hsame, hcanonical.pending_eq]⟩,
          .inr (hsame ▸ hqueue)⟩
  | redraw _ _ ih =>
    obtain ⟨skipped, hcanonical, hqueue⟩ := ih
    exact ⟨skipped, ⟨hcanonical.layered, hcanonical.pending_eq⟩, hqueue⟩

/-- A derivation that was reached is in order as soon as its queue is. -/
theorem Reached.canonical (h : d.Reached g shape)
    (hqueue : d.queue.toList = d.tree.pendingInOrder) : d.Canonical [] := by
  obtain ⟨_, hcanonical, _⟩ := h.exists_canonical
  exact ⟨hcanonical.layered, hqueue.symm⟩

/-! ## What a run is charged with -/

/-- An expansion fills the room that a limit leaves and takes no more. -/
theorem size_expand_le (d : Derivation α) (id maxNodes : Nat) :
    (d.expand id maxNodes).2.tree.size ≤ max maxNodes d.tree.size := by
  cases hn : d.tree.node? id with
  | none =>
    rw [expand, hn]
    exact Nat.le_max_right _ _
  | some n =>
    rcases expand_cases maxNodes hn with ⟨_, he⟩ | ⟨_, _, ⟨_, _, he⟩ | ⟨growth, hgrowth, he⟩⟩
    · rw [he, Tree.size_setStatus]
      exact Nat.le_max_right _ _
    · rw [he, Tree.size_setStatus]
      exact Nat.le_max_right _ _
    · have hroom := Growth.length_le_room hgrowth
      rw [he, grow, Tree.size_attach, Tree.size_setStatus, Growth.length_children]
      omega

/-- What a run is charged with at one of its stages: each node that it has taken was paid for by
one that waited at the start or by room in the tree. -/
structure Charged (limits : Limits) (d₀ : Derivation α) (taken : List Nat) (done : Progress)
    (d : Derivation α) : Prop where
  taken_le : taken.length + d.potential limits.maxNodes ≤ d₀.potential limits.maxNodes
  expansions_le : done.expansions ≤ limits.maxSteps
  size_le : d.tree.size ≤ max limits.maxNodes d₀.tree.size

/-- One turn, whether or not the run goes on after it. -/
theorem Charged.turn (h : Charged limits d₀ taken done d) :
    Charged limits d₀ (taken ++ (d.taken? limits done).toList)
      (Derivation.turn limits d done).progress (Derivation.turn limits d done).derivation := by
  obtain ⟨htaken, hexpansions, hsize⟩ := h
  rcases turn_taken_cases limits d done with ⟨hnone, reason, ht⟩ |
    ⟨id, popped, hd, hsome, hb, ⟨tooDeep, ht⟩ | ht⟩
  · rw [hnone, ht, Option.toList_none, List.append_nil]
    exact ⟨htaken, hexpansions, hsize⟩
  · have hpaid := potential_of_pop? limits.maxNodes hd
    rw [hsome, ht]
    refine ⟨?_, hexpansions, (pop?_eq_some hd).1 ▸ hsize⟩
    rw [Turn.derivation, List.length_append, Option.toList_some, List.length_singleton]
    omega
  · have hpaid := potential_of_pop? limits.maxNodes hd
    have hgrown := potential_expand_le popped id limits.maxNodes
    have hfilled := size_expand_le popped id limits.maxNodes
    have hbelow := below_of_budgetReached?_eq_none hb
    have hstep := Turn.expansions_ofExpansion_le done (popped.expand id limits.maxNodes)
    rw [(pop?_eq_some hd).1] at hfilled
    rw [hsome, ht]
    refine ⟨?_, Nat.le_trans hstep hbelow.1, ?_⟩
    · rw [Turn.derivation_ofExpansion, List.length_append, Option.toList_some,
        List.length_singleton]
      omega
    · rw [Turn.derivation_ofExpansion]
      omega

/-- A turn that fails has found a rule application left to do. -/
theorem expansions_lt_of_turn_eq_error {cause : EvalError α} {done' : Progress}
    {d' : Derivation α} (h : turn limits d done = .stop (.error cause) done' d') :
    done'.expansions < limits.maxSteps := by
  rcases turn_taken_cases limits d done with ⟨_, reason, ht⟩ |
    ⟨id, popped, _, _, hb, ⟨tooDeep, ht⟩ | ht⟩
  · rw [ht] at h
    cases h
  · rw [ht] at h
    cases h
  · have hbelow := (below_of_budgetReached?_eq_none hb).1
    rw [ht] at h
    rcases Turn.of_ofExpansion_eq_stop h with ⟨_, _, _, rfl⟩ | ⟨_, hresult, _⟩
    · exact hbelow
    · cases hresult

theorem Stage.charged (h : Stage limits d₀ taken done d) :
    Charged limits d₀ taken done d := by
  induction h with
  | start => exact ⟨Nat.le_of_eq (Nat.zero_add _), Nat.zero_le _, Nat.le_max_right _ _⟩
  | next _ turned ih =>
    have hturn := ih.turn
    rwa [turned] at hturn

theorem Ends.charged {result : Except (EvalError α) StopReason}
    (h : Ends limits d₀ taken result done d) : Charged limits d₀ taken done d := by
  obtain ⟨before, turned⟩ := h
  have hturn := before.charged.turn
  rwa [turned] at hturn

theorem size_applyAction_le (d : Derivation α) (action maxNodes : Nat) :
    (d.applyAction action maxNodes).2.tree.size ≤ max maxNodes d.tree.size := by
  cases hd : d.pop? with
  | none =>
    simp only [applyAction, hd]
    exact Nat.le_max_right _ _
  | some front =>
    obtain ⟨id, popped⟩ := front
    have htree := (pop?_eq_some hd).1
    rw [← htree]
    simp only [applyAction, hd]
    split
    · exact Nat.le_max_right _ _
    next n _ =>
      split
      · exact Nat.le_max_right _ _
      · exact size_expand_le (popped.fixChoices n.shape.name action) id maxNodes

/-- Every run ends, of any grammar, from any tree and queue and under any limits. At each of its
stages and at its end, whether or not it fails: it has taken no more nodes from the queue than
waited at the start and the tree had room for, it has applied no more rules than it may, also if
the one that fails is counted, and the tree is no larger than its limit or than it was. A guided
step keeps the tree within its limit too. -/
theorem complete_bounded (d : Derivation α) (limits : Limits) :
    let most := max limits.maxNodes d.tree.size
    (∀ taken done e, Stage limits d taken done e →
      taken.length ≤ most - d.tree.size + d.queue.toList.length ∧
        done.expansions ≤ limits.maxSteps ∧ e.tree.size ≤ most) ∧
    (∃ taken result done e, Ends limits d taken result done e ∧
      d.complete limits = (result.map (e.report done), e) ∧
      taken.length ≤ most - d.tree.size + d.queue.toList.length ∧
        done.expansions ≤ limits.maxSteps ∧ e.tree.size ≤ most ∧
        ∀ cause, result = .error cause → done.expansions < limits.maxSteps) ∧
    ∀ action maxNodes,
      (d.applyAction action maxNodes).2.tree.size ≤ max maxNodes d.tree.size := by
  intro most
  have hall {taken : List Nat} {done : Progress} {e : Derivation α}
      (h : Charged limits d taken done e) :
      taken.length ≤ most - d.tree.size + d.queue.toList.length ∧
        done.expansions ≤ limits.maxSteps ∧ e.tree.size ≤ most := by
    have htaken := h.taken_le
    rw [potential_eq d] at htaken
    exact ⟨Nat.le_trans (Nat.le_add_right _ _) htaken, h.expansions_le, h.size_le⟩
  refine ⟨fun taken done e hstage => hall hstage.charged, ?_, fun action maxNodes => ?_⟩
  · obtain ⟨taken, result, done, e, hends, hcomplete⟩ := exists_ends d limits
    obtain ⟨htaken, hexpansions, hsize⟩ := hall hends.charged
    refine ⟨taken, result, done, e, hends, hcomplete, htaken, hexpansions, hsize, ?_⟩
    rintro cause rfl
    obtain ⟨_, turned⟩ := hends
    exact expansions_lt_of_turn_eq_error turned
  · exact size_applyAction_le d action maxNodes

/-- A shape that becomes itself again and again. -/
def endless : Grammar Float32 where
  attributes := .empty
  rules := ⟨[("Start", ⟨"Start", [.copy "Start"]⟩)], by decide⟩

example : ((start .start endless).complete { Limits.unbounded with maxNodes := 3 }).1 =
    .ok ⟨2, .nodeBudget, 1, 0⟩ := by
  decide +kernel

end Steps

end Derivation

end ShapeGrammar
