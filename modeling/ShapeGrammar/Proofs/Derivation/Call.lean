import ShapeGrammar.Derivation.Basic

/-!
# What may be done with a derivation

A derivation is changed by guided steps, by runs that expand everything, with or without random
levels, and by copying. Each may fail and is then not undone, so a sequence of calls leads on
whatever they return.

Derivations that differ only in how their queue is kept are alike. Main statement: calls lead
derivations that are alike to derivations that are alike.
-/
namespace ShapeGrammar

/-- Something that is done with a derivation. -/
inductive Call where
  | guided (action maxNodes : Nat)
  | full (limits : Limits)
  | random (rng : Generator) (limits : Limits)
  | copy

/-- The limits of a call that expands everything. -/
def Call.limits? : Call → Option Limits
  | .full limits => some limits
  | .random _ limits => some limits
  | .guided .. | .copy => none

namespace Queue

variable {α : Type} {q r : Queue α}

/-- Queues of the same values give out the same value, or none. -/
theorem pop?_of_toList_eq (h : q.toList = r.toList) :
    (q.pop? = none ∧ r.pop? = none) ∨
      ∃ x q' r', q.pop? = some (x, q') ∧ r.pop? = some (x, r') ∧ q'.toList = r'.toList := by
  cases hq : q.pop? with
  | none =>
    rw [pop?_eq_none_iff, h, ← pop?_eq_none_iff] at hq
    exact .inl ⟨rfl, hq⟩
  | some taken =>
    obtain ⟨x, q'⟩ := taken
    have hqx := toList_of_pop? hq
    cases hr : r.pop? with
    | none =>
      rw [pop?_eq_none_iff, ← h, hqx] at hr
      cases hr
    | some other =>
      obtain ⟨y, r'⟩ := other
      have hrx := toList_of_pop? hr
      rw [← h, hqx, List.cons.injEq] at hrx
      obtain ⟨rfl, hrest⟩ := hrx
      exact .inr ⟨x, q', r', rfl, rfl, hrest⟩

end Queue

namespace Derivation

variable {α : Type}

theorem pop?_eq_none_iff {d : Derivation α} : d.pop? = none ↔ d.queue.toList = [] := by
  rw [← Queue.pop?_eq_none_iff]
  unfold pop?
  split <;> simp_all

/-- Taking the front node changes nothing but the queue. -/
theorem pop?_eq_some {d popped : Derivation α} {id : Nat} (h : d.pop? = some (id, popped)) :
    popped.tree = d.tree ∧ popped.grammar = d.grammar ∧
      d.queue.toList = id :: popped.queue.toList := by
  unfold pop? at h
  split at h
  · cases h
  next taken =>
    cases h
    exact ⟨rfl, rfl, Queue.toList_of_pop? taken⟩

/-- The derivation that a random completion expands. -/
def redraw [Scalar α] (d : Derivation α) (rng : Generator) : Derivation α :=
  { d with grammar := (d.grammar.randomizeFree rng).1 }

/-- Derivations with the same tree and grammar in whose queues the same nodes wait. -/
structure Alike (d e : Derivation α) : Prop where
  tree : d.tree = e.tree
  queue : d.queue.toList = e.queue.toList
  grammar : d.grammar = e.grammar

theorem Alike.refl (d : Derivation α) : Alike d d :=
  ⟨rfl, rfl, rfl⟩

theorem Alike.pop? {d e : Derivation α} (h : Alike d e) :
    (d.pop? = none ∧ e.pop? = none) ∨
      ∃ id d' e', d.pop? = some (id, d') ∧ e.pop? = some (id, e') ∧ Alike d' e' := by
  rcases Queue.pop?_of_toList_eq h.queue with ⟨hd, he⟩ | ⟨id, q, r, hd, he, hqr⟩
  · exact .inl ⟨by simp [Derivation.pop?, hd], by simp [Derivation.pop?, he]⟩
  · exact .inr ⟨id, { d with queue := q }, { e with queue := r }, by simp [Derivation.pop?, hd],
      by simp [Derivation.pop?, he], ⟨h.tree, hqr, h.grammar⟩⟩

theorem Alike.grow {d e : Derivation α} (h : Alike d e) (id : Nat)
    (kids : List (Shape α × Status)) : Alike (d.grow id kids) (e.grow id kids) where
  tree := by simp only [Derivation.grow, h.tree]
  queue := by simp only [Derivation.grow, h.tree, Queue.toList_append, h.queue]
  grammar := h.grammar

section Steps

variable [Elementary α] {d e : Derivation α}

/-- All that an expansion can come to. -/
theorem expand_cases {id : Nat} {n : Node α} (maxNodes : Nat) (hn : d.tree.node? id = some n) :
    (d.grammar.rule? n.shape.name = none ∧ d.expand id maxNodes =
      (.ok .terminal, { d with tree := d.tree.setStatus id .terminal })) ∨
    ∃ rule, d.grammar.rule? n.shape.name = some rule ∧
      ((∃ cause, Growth.ofOperators d.grammar.value? (maxNodes - d.tree.size) rule.operators
          n.shape = .error cause ∧
        d.expand id maxNodes = (.error cause, { d with tree := d.tree.setStatus id .expanded })) ∨
      ∃ growth, Growth.ofOperators d.grammar.value? (maxNodes - d.tree.size) rule.operators
          n.shape = .ok growth ∧
        d.expand id maxNodes = (.ok (if growth.clipped then .clipped else .expanded),
          d.grow id (growth.children d.grammar.hasRule))) := by
  unfold expand
  rw [hn]
  cases hr : d.grammar.rule? n.shape.name with
  | none => exact .inl ⟨rfl, by simp only [hr]⟩
  | some rule =>
    refine .inr ⟨rule, rfl, ?_⟩
    cases hg : Growth.ofOperators d.grammar.value? (maxNodes - d.tree.size) rule.operators
        n.shape with
    | error cause => exact .inl ⟨cause, rfl, by simp only [hr, hg]⟩
    | ok growth => exact .inr ⟨growth, rfl, by simp only [hr, hg]⟩

theorem Alike.expand (h : Alike d e) (id maxNodes : Nat) :
    ∃ result d' e', d.expand id maxNodes = (result, d') ∧ e.expand id maxNodes = (result, e') ∧
      Alike d' e' := by
  obtain ⟨tree, queue, grammar⟩ := d
  obtain ⟨tree', queue', grammar'⟩ := e
  obtain ⟨rfl, hq, rfl⟩ := h
  simp only [Derivation.expand]
  split
  · exact ⟨_, _, _, rfl, rfl, rfl, hq, rfl⟩
  · split
    · exact ⟨_, _, _, rfl, rfl, rfl, hq, rfl⟩
    · split
      · exact ⟨_, _, _, rfl, rfl, rfl, hq, rfl⟩
      · have hgrow : Alike ⟨tree, queue, grammar⟩ ⟨tree, queue', grammar⟩ := ⟨rfl, hq, rfl⟩
        exact ⟨_, _, _, rfl, rfl, hgrow.grow _ _⟩

theorem Alike.applyAction (h : Alike d e) (action maxNodes : Nat) :
    ∃ result d' e', d.applyAction action maxNodes = (result, d') ∧
      e.applyAction action maxNodes = (result, e') ∧ Alike d' e' := by
  rcases h.pop? with ⟨hd, he⟩ | ⟨id, d', e', hd, he, hrest⟩
  · exact ⟨.ok false, d, e, by simp [Derivation.applyAction, hd],
      by simp [Derivation.applyAction, he], h⟩
  · simp only [Derivation.applyAction, hd, he, ← hrest.tree, ← hrest.grammar]
    split
    · exact ⟨_, _, _, rfl, rfl, hrest⟩
    next node _ =>
      split
      · exact ⟨_, _, _, rfl, rfl, hrest⟩
      · have hdecided : Alike
            { d' with grammar := ActionSpace.commit d'.grammar node.shape.name action }
            { e' with grammar := ActionSpace.commit d'.grammar node.shape.name action } :=
          ⟨hrest.tree, hrest.queue, rfl⟩
        obtain ⟨result, x, y, hx, hy, halike⟩ := hdecided.expand id maxNodes
        simp only [← hrest.tree] at hy
        rw [hx, hy]
        exact ⟨_, _, _, rfl, rfl, halike⟩

/-- A turn comes to the same whichever way the queue is kept. -/
theorem Alike.turn (h : Alike d e) (limits : Limits) (done : Progress) (clock : Clock) :
    (∃ result done' d' e', Derivation.turn limits d done clock = .stop result done' d' ∧
      Derivation.turn limits e done clock = .stop result done' e' ∧ Alike d' e') ∨
    ∃ done' d' e', Derivation.turn limits d done clock = .next done' d' ∧
      Derivation.turn limits e done clock = .next done' e' ∧ Alike d' e' := by
  have hbudget : d.budgetReached? limits done.expansions clock =
      e.budgetReached? limits done.expansions clock := by
    simp only [budgetReached?, h.tree]
  rcases h.pop? with ⟨hd, he⟩ | ⟨id, d', e', hd, he, hrest⟩
  · refine .inl ⟨.ok (drained done), done, d, e, ?_, ?_, h⟩
    · simp only [Derivation.turn, hd]
    · simp only [Derivation.turn, he]
  · simp only [Derivation.turn, hd, he, hbudget, ← hrest.tree]
    split
    · exact .inl ⟨_, _, d, e, rfl, rfl, h⟩
    · split
      · exact .inr ⟨_, _, _, rfl, rfl, hrest⟩
      next node _ =>
        split
        · exact .inr ⟨_, _, _, rfl, rfl, hrest⟩
        · split
          · exact .inr ⟨_, _, _, rfl, rfl, hrest⟩
          · obtain ⟨result, x, y, hx, hy, halike⟩ := hrest.expand id limits.maxNodes
            rw [hx, hy]
            rcases result with cause | _ | _ | _
            · exact .inl ⟨_, _, _, _, rfl, rfl, halike⟩
            · exact .inr ⟨_, _, _, rfl, rfl, halike⟩
            · exact .inr ⟨_, _, _, rfl, rfl, halike⟩
            · exact .inl ⟨_, _, _, _, rfl, rfl, halike⟩

/-- Without a limit in time no turn asks the clock. -/
theorem turn_eq_of_maxMillis_eq_none {limits : Limits} (htime : limits.maxMillis = none)
    (d : Derivation α) (done : Progress) (clock : Clock) :
    turn limits d done clock = turn limits d done := by
  simp only [turn, budgetReached?, htime, Option.any_none]

theorem runFrom_of_stop {limits : Limits} {d d' : Derivation α} {done done' : Progress}
    {clock : Clock} {result : Except (EvalError α) StopReason}
    (h : turn limits d done clock = .stop result done' d') :
    runFrom limits d done clock = (result, done', d') := by
  rw [runFrom]
  split <;> simp_all

theorem runFrom_later_of_next {limits : Limits} {d d' : Derivation α} {done done' : Progress}
    {clock : Clock} (h : turn limits d done clock = .next done' d') :
    runFrom limits d done clock = runFrom limits d' done' clock.later := by
  rw [runFrom]
  split <;> simp_all

theorem runFrom_of_next {limits : Limits} {d d' : Derivation α} {done done' : Progress}
    (h : turn limits d done = .next done' d') :
    runFrom limits d done = runFrom limits d' done' := by
  rw [runFrom_later_of_next h, Clock.later_stopped]

/-- What holds where a run stops, and before each turn that goes on to where it holds, holds of
every run whose clock stands still. -/
@[elab_as_elim]
theorem induction_of_turn (limits : Limits) {motive : Derivation α → Progress → Prop}
    (stop : ∀ d done result done' d', turn limits d done = .stop result done' d' → motive d done)
    (next : ∀ d done done' d', turn limits d done = .next done' d' → motive d' done' →
      motive d done) (d : Derivation α) (done : Progress) : motive d done := by
  cases hturn : turn limits d done with
  | stop result done' d' => exact stop d done result done' d' hturn
  | next done' d' => exact next d done done' d' hturn (induction_of_turn limits stop next d' done')
termination_by d.potential limits.maxNodes
decreasing_by exact potential_turn_lt hturn

/-- Without a limit in time no run asks the clock. -/
theorem runFrom_eq_of_maxMillis_eq_none {limits : Limits} (htime : limits.maxMillis = none)
    (d : Derivation α) (done : Progress) (clock : Clock) :
    runFrom limits d done clock = runFrom limits d done := by
  fun_induction runFrom limits d done clock with
  | case1 d done clock result done' d' hturn =>
    rw [turn_eq_of_maxMillis_eq_none htime] at hturn
    rw [runFrom_of_stop hturn]
  | case2 d done clock done' d' hturn ih =>
    rw [turn_eq_of_maxMillis_eq_none htime] at hturn
    rw [ih, runFrom_of_next hturn]

theorem complete_eq_of_maxMillis_eq_none {limits : Limits} (htime : limits.maxMillis = none)
    (d : Derivation α) (clock : Clock) : d.complete limits clock = d.complete limits := by
  rw [complete, runFrom_eq_of_maxMillis_eq_none htime]
  rfl

/-- Runs take the same turns whichever way the queue is kept. -/
theorem Alike.runFrom (h : Alike d e) (limits : Limits) (done : Progress) (clock : Clock) :
    ∃ result done' d' e', Derivation.runFrom limits d done clock = (result, done', d') ∧
      Derivation.runFrom limits e done clock = (result, done', e') ∧ Alike d' e' := by
  fun_induction Derivation.runFrom limits d done clock generalizing e with
  | case1 d done clock result done' d' hturn =>
    rcases h.turn limits done clock with ⟨_, _, _, e', hd, he, halike⟩ | ⟨_, _, _, hd, _⟩
    · rw [hturn, Turn.stop.injEq] at hd
      obtain ⟨rfl, rfl, rfl⟩ := hd
      exact ⟨_, _, _, e', rfl, runFrom_of_stop he, halike⟩
    · rw [hturn] at hd
      cases hd
  | case2 d done clock done' d' hturn ih =>
    rcases h.turn limits done clock with ⟨_, _, _, _, hd, _⟩ | ⟨_, _, e', hd, he, halike⟩
    · rw [hturn] at hd
      cases hd
    · rw [hturn, Turn.next.injEq] at hd
      obtain ⟨rfl, rfl⟩ := hd
      rw [runFrom_later_of_next he]
      exact ih halike

theorem Alike.complete (h : Alike d e) (limits : Limits) (clock : Clock) :
    Alike (d.complete limits clock).2 (e.complete limits clock).2 := by
  obtain ⟨result, done, d', e', hd, he, halike⟩ := h.runFrom limits {} clock
  simpa only [Derivation.complete, hd, he] using halike

theorem Alike.redraw (h : Alike d e) (rng : Generator) : Alike (d.redraw rng) (e.redraw rng) :=
  ⟨h.tree, h.queue, by simp only [Derivation.redraw, h.grammar]⟩

theorem completeRandomly_eq (d : Derivation α) (rng : Generator) (limits : Limits)
    (clock : Clock) : (d.completeRandomly rng limits clock).2.1 =
      ((d.redraw rng).complete limits clock).2 :=
  rfl

/-- The derivation that a call leaves, whether or not it fails. -/
def perform (d : Derivation α) (call : Call) (clock : Clock := .stopped) : Derivation α :=
  match call with
  | .guided action maxNodes => (d.applyAction action maxNodes).2
  | .full limits => (d.complete limits clock).2
  | .random rng limits => (d.completeRandomly rng limits clock).2.1
  | .copy => d.copy

/-- The derivation that calls leave, one after the other, each under a clock of its own. -/
def after (d : Derivation α) (calls : List Call) (clocks : Nat → Clock := fun _ => .stopped) :
    Derivation α :=
  match calls with
  | [] => d
  | call :: rest => (d.perform call (clocks 0)).after rest fun k => clocks (k + 1)

@[simp] theorem after_concat (d : Derivation α) (calls : List Call) (call : Call)
    (clocks : Nat → Clock) : d.after (calls ++ [call]) clocks =
      (d.after calls clocks).perform call (clocks calls.length) := by
  induction calls generalizing d clocks with
  | nil => rfl
  | cons first rest ih => exact ih _ _

theorem Alike.perform (h : Alike d e) (call : Call) (clock : Clock) :
    Alike (d.perform call clock) (e.perform call clock) := by
  cases call with
  | guided action maxNodes =>
    obtain ⟨result, d', e', hd, he, halike⟩ := h.applyAction action maxNodes
    simpa only [Derivation.perform, hd, he] using halike
  | full limits => exact h.complete limits clock
  | random rng limits => exact (h.redraw rng).complete limits clock
  | copy => exact ⟨h.tree, by simp [Derivation.perform, copy, h.tree], h.grammar⟩

/-- Whatever is done with derivations that are alike, they stay so. -/
theorem Alike.after (h : Alike d e) (calls : List Call) (clocks : Nat → Clock) :
    Alike (d.after calls clocks) (e.after calls clocks) := by
  induction calls generalizing d e clocks with
  | nil => exact h
  | cons call rest ih => exact ih (h.perform call (clocks 0)) _

end Steps

end Derivation

end ShapeGrammar
