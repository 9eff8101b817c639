import ShapeGrammar.Proofs.Derivation.Following
import ShapeGrammar.Proofs.Number.Evaluable
import ShapeGrammar.Proofs.Search.Searched

/-!
# Guided derivation

The choices of one node after another are decided by tree searches over copies of the derivation so
far. What comes of it is what guided steps by the reported actions come to, one after the other.
Main statement: what a guided derivation that does not fail reports and leaves.
-/
namespace ShapeGrammar

variable {α β : Type}

theorem of_getElem?_concat {γ : Type} {l : List γ} {x y : γ} {i : Nat}
    (h : (l ++ [x])[i]? = some y) : l[i]? = some y ∨ i = l.length ∧ y = x := by
  rcases Nat.lt_or_ge i l.length with hlt | hge
  · rw [List.getElem?_append_left hlt] at h
    exact .inl h
  · rw [List.getElem?_append_right hge, List.getElem?_singleton] at h
    split at h
    · cases h
      exact .inr ⟨by omega, rfl⟩
    · cases h

/-! ## What a run keeps on record -/

namespace GuidedRun

/-- The actions that were chosen. -/
def actions (run : GuidedRun α β) : List Nat :=
  run.decisions.map (·.action)

/-- The rounds of all searches together. -/
def rounds (run : GuidedRun α β) : Nat :=
  (run.decisions.map (·.rounds)).sum

/-- The derivations from the first one on, each but the first where a decision led. -/
def stages (run : GuidedRun α β) (first : Derivation α) : List (Derivation α) :=
  first :: run.history.map Prod.snd

variable (run : GuidedRun α β) (decision : Decision β) (live first : Derivation α)

@[simp] theorem actions_commit :
    (run.commit decision live).actions = run.actions ++ [decision.action] := by
  simp [actions, decisions, commit]

@[simp] theorem rounds_commit :
    (run.commit decision live).rounds = run.rounds + decision.rounds := by
  simp [rounds, decisions, commit]

@[simp] theorem stages_commit :
    (run.commit decision live).stages first = run.stages first ++ [live] := by
  simp [stages, commit]

@[simp] theorem length_actions : run.actions.length = run.history.length := by
  simp [actions, decisions]

@[simp] theorem length_stages : (run.stages first).length = run.history.length + 1 := by
  simp [stages]

end GuidedRun

namespace Evaluator

open ShapeGrammar.Derivation ShapeGrammar.SearchTree

variable [Elementary α] [Elementary β] [Precision α β] {e : Evaluator α β} {d d' : Derivation α}
  {s s' : Session}

/-! ## One action -/

/-- An action is tried on a copy. On the derivation itself it comes to the same. -/
theorem applyAction_of_act (h : d.Canonical []) {action : Nat}
    (hact : e.problem.act d action = .ok d') :
    ∃ expanded d'', d.applyAction action e.limits.maxNodes = (.ok expanded, d'') ∧
      Alike d' d'' ∧ d'.Canonical [] := by
  rcases hcopy : d.copy.applyAction action e.limits.maxNodes with ⟨cause | expanded, x⟩
  · simp [problem, hcopy] at hact
  · simp only [problem, hcopy, Except.ok.injEq] at hact
    subst hact
    obtain ⟨d'', hd, halike⟩ := h.alike_copy.applyAction_eq hcopy
    have hcanonical := h.copy.applyAction action e.limits.maxNodes
    rw [hcopy] at hcanonical
    exact ⟨expanded, d'', hd, halike, hcanonical⟩

/-- Actions that are tried on copies come to the same as when they are followed. -/
theorem alike_of_play (h : d.Canonical []) {actions : List Nat}
    (hplay : e.problem.play d actions = .ok d') :
    Alike d' (d.follow e.limits.maxNodes actions) := by
  induction actions generalizing d with
  | nil =>
    cases hplay
    exact .refl _
  | cons action rest ih =>
    rw [Problem.play] at hplay
    split at hplay
    · cases hplay
    next next hact =>
      obtain ⟨expanded, d'', hstep, halike, hcanonical⟩ := applyAction_of_act h hact
      rw [follow_cons, hstep]
      exact (ih hcanonical hplay).trans (halike.follow _ rest)

/-- An assessment that does not fail makes one derivation and one drawing. -/
theorem effort_of_assess {value : β} (h : e.problem.assess d s = (.ok value, s')) :
    s'.effort.derivations = s.effort.derivations + 1 ∧
      s'.effort.renders = s.effort.renders + 1 := by
  rcases hrun : d.copy.completeRandomly s.rng e.limits (e.clock s.begun) with
    ⟨cause | outcome, x, rng⟩
  · simp [problem, rollout, hrun, scoreResult, Except.map] at h
  · simp only [problem, rollout, hrun, scoreResult, scoreFaces, Prod.mk.injEq] at h
    rw [← h.2]
    exact ⟨rfl, rfl⟩

/-! ## One search -/

variable {config : TreeConfig β} {k : Nat} {log : List (Finding β)}
  {t : SearchTree (Derivation α) β}

/-- In a tree that rounds made of a derivation, every node holds what the root leads to when it
follows the actions on the way down. -/
theorem alike_follow_actionsTo (h : d.Canonical [])
    (hrounds : Rounds e.problem (e.searchTree d) k log t) :
    ∃ root, t.node? 0 = some root ∧ Alike root.state d ∧ ∀ id n, t.node? id = some n →
      Alike n.state (root.state.follow e.limits.maxNodes (t.actionsTo id)) := by
  have hlinked : t.Linked e.problem d.copy := hrounds.sound.linked
  obtain ⟨root, hroot, _, hstate⟩ := hlinked.root
  refine ⟨root, hroot, hstate ▸ h.alike_copy, fun id n hn => ?_⟩
  rw [hstate]
  exact alike_of_play h.copy (hlinked.play_actionsTo hn)

/-- What a decision about the front node of a derivation is: it was found in a tree that so many
rounds made of the derivation, it is for the earliest best candidate, the candidates together were
visited once in each round, and its action expands the front node and leads to `after`. -/
structure Decides (e : Evaluator α β) (before : Derivation α) (step : Nat) (decision : Decision β)
    (after : Derivation α) : Prop where
  found : ∃ log t, Rounds e.problem (e.searchTree before) decision.rounds log t ∧
    t.decision? step decision.rounds = some (decision, after)
  step_eq : decision.step = step
  isForBest : decision.IsForBest
  visits : (decision.candidates.map (·.visits)).sum = decision.rounds
  applied : ∃ next, before.applyAction decision.action e.limits.maxNodes = (.ok true, next) ∧
    Alike after next

/-- A derivation that is not complete and whose waiting nodes have rules leaves something to try. -/
theorem isExhausted_searchTree (h : d.Canonical []) (hruled : d.Ruled)
    (hopen : d.isComplete = false) : (e.searchTree d).isExhausted = false := by
  have hcopy : d.copy.isComplete = false := by
    rw [h.alike_copy.isComplete, hopen]
  have hchoice : 0 < e.problem.actionCount d.copy :=
    (e.actionCount_problem_pos_iff _).mpr (Ruled.isSome_frontSpace? h.copy hruled hcopy)
  have hroot : (e.searchTree d).node? 0 = some (.fresh e.problem d.copy none none) := rfl
  simp only [isExhausted, hroot, Option.all_some, SearchNode.fresh, ActionPool.full,
    ActionPool.isEmpty, beq_eq_false_iff_ne]
  omega

theorem isDecided_searchTree (h : (e.searchTree d).isExhausted = false) :
    (e.searchTree d).isDecided = false := by
  have hroot : (e.searchTree d).node? 0 = some (.fresh e.problem d.copy none none) := rfl
  simp only [isExhausted, hroot, Option.all_some] at h
  simp only [isDecided, hroot, h, Bool.false_and, Bool.or_false]
  rfl

/-- What a search that does not fail comes to. -/
theorem decides_of_search (h : d.Canonical []) (hopen : d.isComplete = false)
    (hsearch : (e.searchTree d).search e.problem config s = (.ok k, t, s')) (step : Nat) :
    s'.effort.derivations = s.effort.derivations + k ∧
    s'.effort.renders = s.effort.renders + k ∧
    (0 < config.maxIterations → (e.searchTree d).isExhausted = false → 0 < k) ∧
    (t.decision? step k = none → k = 0) ∧
    ∀ decision after, t.decision? step k = some (decision, after) →
      decision.rounds = k ∧ Decides e d step decision after := by
  have hfresh : (e.searchTree d).size = 1 + 0 := rfl
  obtain ⟨⟨log, hrounds⟩, hsize, _, _, hsome, hderivations⟩ :=
    Rounds.of_searchFrom .none hfresh (·.derivations)
      (fun _ _ _ _ hassess => (effort_of_assess hassess).1) hsearch
  obtain ⟨_, _, _, _, _, hrenders⟩ :=
    Rounds.of_searchFrom .none hfresh (·.renders)
      (fun _ _ _ _ hassess => (effort_of_assess hassess).2) hsearch
  have hsound : Sound e.problem d.copy k log t := hrounds.sound
  refine ⟨hderivations, hrenders, fun hmax hsomething =>
    hsome hmax (isDecided_searchTree hsomething), fun hnone => ?_, fun decision after hmade => ?_⟩
  · have := hsound.size_of_decision?_eq_none hnone
    omega
  · obtain ⟨hact, hstep, rfl, hbest, root, hroot, hcandidates⟩ := hsound.of_decision? hmade
    obtain ⟨expanded, next, hnext, halike, _⟩ := applyAction_of_act h.copy hact
    obtain ⟨next', hnext', halike'⟩ := h.alike_copy.applyAction_eq hnext
    rw [h.applyAction_eq_ok hopen hnext'] at hnext'
    refine ⟨rfl, ⟨log, t, hrounds, hmade⟩, hstep, hbest, ?_, next', hnext',
      halike.trans halike'⟩
    rw [hcandidates]
    exact hsound.sum_visits_candidates hsize hroot

/-! ## All searches -/

/-- All that guiding can come to where there may be one more decision: there is nothing to decide, a
search finds nothing to decide for, or its decision is committed and guiding goes on. -/
theorem guideFrom_cases {run run' : GuidedRun α β} {steps : Nat}
    (h : e.guideFrom config (steps + 1) run s = (.ok (), run', s')) :
    ((run.live.isComplete = true ∨ (e.searchTree run.live).isExhausted = true) ∧
      run' = run ∧ s' = s) ∨
    run.live.isComplete = false ∧ (e.searchTree run.live).isExhausted = false ∧ ∃ k t s₁,
      (e.searchTree run.live).search e.problem config s = (.ok k, t, s₁) ∧
      ((t.decision? run.history.length k = none ∧ run' = run ∧ s' = s₁) ∨
        ∃ decision after, t.decision? run.history.length k = some (decision, after) ∧
          e.guideFrom config steps (run.commit decision after) s₁ = (.ok (), run', s')) := by
  rw [guideFrom] at h
  split at h
  next hstop =>
    simp only [Prod.mk.injEq, true_and] at h
    exact .inl ⟨Bool.or_eq_true_iff.mp hstop, h.1.symm, h.2.symm⟩
  next hgo =>
    obtain ⟨hopen, hsomething⟩ := Bool.or_eq_false_iff.mp (Bool.not_eq_true _ ▸ hgo)
    split at h
    · cases h
    next k t s₁ hsearch =>
      refine .inr ⟨hopen, hsomething, k, t, s₁, hsearch, ?_⟩
      split at h
      next hnone =>
        simp only [Prod.mk.injEq, true_and] at h
        exact .inl ⟨hnone, h.1.symm, h.2.symm⟩
      next decision after hdecision => exact .inr ⟨decision, after, hdecision, h⟩

/-- What holds of a run after some decisions, which it came to from the session `s₀`. -/
structure Committed (e : Evaluator α β) (first : Derivation α) (s₀ : Session)
    (run : GuidedRun α β) (s : Session) : Prop where
  live : (run.stages first).getLast? = some run.live
  /-- Each derivation is the one that the actions up to it lead to. -/
  stages : ∀ i d, (run.stages first)[i]? = some d →
    Alike d (first.follow e.limits.maxNodes (run.actions.take i))
  decided : ∀ i decision after, run.history[i]? = some (decision, after) →
    ∃ before, (run.stages first)[i]? = some before ∧ Decides e before i decision after
  derivations : s.effort.derivations = s₀.effort.derivations + run.rounds
  renders : s.effort.renders = s₀.effort.renders + run.rounds

namespace Committed

variable {first : Derivation α} {s₀ : Session} {run : GuidedRun α β}

theorem begin (e : Evaluator α β) (first : Derivation α) (s₀ : Session) :
    Committed e first s₀ (.begin first) s₀ where
  live := rfl
  stages := by
    intro i d hd
    rw [show (GuidedRun.begin first : GuidedRun α β).stages first = [first] from rfl,
      List.getElem?_singleton] at hd
    split at hd
    · cases hd
      rw [show (GuidedRun.begin first : GuidedRun α β).actions = [] from rfl, List.take_nil]
      exact .refl first
    · cases hd
  decided := by
    intro i decision after h
    cases h
  derivations := rfl
  renders := rfl

theorem getElem?_stages (h : Committed e first s₀ run s) :
    (run.stages first)[run.history.length]? = some run.live := by
  rw [← h.live, List.getLast?_eq_getElem?, GuidedRun.length_stages, Nat.add_sub_cancel]

/-- The derivation so far is what the actions so far lead to. -/
theorem alike_live (h : Committed e first s₀ run s) :
    Alike run.live (first.follow e.limits.maxNodes run.actions) := by
  have hall : run.actions.take run.history.length = run.actions :=
    List.take_of_length_le (by simp)
  rw [← hall]
  exact h.stages _ _ h.getElem?_stages

theorem canonical_live (h : Committed e first s₀ run s) (hfirst : first.Canonical []) :
    run.live.Canonical [] :=
  h.alike_live.symm.canonical (hfirst.follow _ _)

/-- A decision is added to those before it. -/
theorem commit (h : Committed e first s₀ run s) {decision : Decision β} {after : Derivation α}
    (hdecides : Decides e run.live run.history.length decision after)
    (hderivations : s'.effort.derivations = s.effort.derivations + decision.rounds)
    (hrenders : s'.effort.renders = s.effort.renders + decision.rounds) :
    Committed e first s₀ (run.commit decision after) s' where
  live := by
    rw [GuidedRun.stages_commit, List.getLast?_concat]
    rfl
  stages := by
    intro i d hd
    rw [GuidedRun.stages_commit] at hd
    rw [GuidedRun.actions_commit]
    rcases of_getElem?_concat hd with hold | ⟨hi, rfl⟩
    · have hi := (List.getElem?_eq_some_iff.mp hold).1
      rw [GuidedRun.length_stages] at hi
      rw [List.take_append_of_le_length (by simp; omega)]
      exact h.stages i d hold
    · rw [GuidedRun.length_stages] at hi
      obtain ⟨next, hnext, halike⟩ := hdecides.applied
      obtain ⟨next', hnext', halike'⟩ := h.alike_live.applyAction_eq hnext
      rw [List.take_of_length_le (by simp [hi]), follow_concat, hnext']
      exact halike.trans halike'
  decided := by
    intro i made there hmade
    rw [GuidedRun.stages_commit]
    rcases of_getElem?_concat hmade with hold | ⟨rfl, heq⟩
    · obtain ⟨before, hbefore, hdecided⟩ := h.decided i made there hold
      exact ⟨before, by rw [List.getElem?_append_left (List.getElem?_eq_some_iff.mp hbefore).1,
        hbefore], hdecided⟩
    · obtain ⟨rfl, rfl⟩ := Prod.mk.inj heq
      refine ⟨run.live, ?_, hdecides⟩
      rw [List.getElem?_append_left (by simp), h.getElem?_stages]
  derivations := by
    rw [hderivations, h.derivations, GuidedRun.rounds_commit, Nat.add_assoc]
  renders := by
    rw [hrenders, h.renders, GuidedRun.rounds_commit, Nat.add_assoc]

theorem ruled_live (h : Committed e first s₀ run s) (hfirst : first.Canonical [])
    (hruled : first.Ruled) : run.live.Ruled :=
  h.alike_live.symm.ruled (hruled.follow hfirst _ _)

/-- All further decisions: no more than there may be, and if every node that waits has a rule it is
for lack of decisions alone that the derivation is not complete. -/
theorem of_guideFrom (h : Committed e first s₀ run s) (hfirst : first.Canonical []) {steps : Nat}
    {run' : GuidedRun α β} (hguide : e.guideFrom config steps run s = (.ok (), run', s')) :
    Committed e first s₀ run' s' ∧ run'.history.length ≤ run.history.length + steps ∧
      (first.Ruled → 0 < config.maxIterations →
        run'.history.length = run.history.length + steps ∨ run'.live.isComplete = true) := by
  induction steps generalizing run s with
  | zero =>
    simp only [guideFrom, Prod.mk.injEq, true_and] at hguide
    obtain ⟨rfl, rfl⟩ := hguide
    exact ⟨h, Nat.le_refl _, fun _ _ => .inl rfl⟩
  | succ steps ih =>
    have hcanonical := h.canonical_live hfirst
    rcases guideFrom_cases hguide with ⟨hstop, rfl, rfl⟩ |
      ⟨hopen, hsomething, k, t, s₁, hsearch, hfound⟩
    · refine ⟨h, Nat.le_add_right _ _, fun hruled _ => .inr ?_⟩
      by_contra hopen
      have hsomething := isExhausted_searchTree (e := e) hcanonical (h.ruled_live hfirst hruled)
        (by simpa using hopen)
      simp [hopen, hsomething] at hstop
    · obtain ⟨hderivations, hrenders, hpositive, hnone, hsome⟩ :=
        decides_of_search hcanonical hopen hsearch run.history.length
      rcases hfound with ⟨hdecision, rfl, rfl⟩ | ⟨decision, after, hdecision, hguide⟩
      · have hzero := hnone hdecision
        refine ⟨⟨h.live, h.stages, h.decided, ?_, ?_⟩, Nat.le_add_right _ _, fun _ hmax => ?_⟩
        · rw [hderivations, hzero, Nat.add_zero, h.derivations]
        · rw [hrenders, hzero, Nat.add_zero, h.renders]
        · have := hpositive hmax hsomething
          omega
      · obtain ⟨rfl, hdecides⟩ := hsome decision after hdecision
        have hlength : (run.commit decision after).history.length = run.history.length + 1 := by
          simp [GuidedRun.commit]
        obtain ⟨hcommitted, hfew, hmany⟩ := ih (h.commit hdecides hderivations hrenders) hguide
        rw [hlength] at hfew hmany
        refine ⟨hcommitted, by omega, fun hruled hmax => ?_⟩
        exact (hmany hruled hmax).imp_left fun heq => by omega

end Committed

/-- A guided derivation that does not fail reports what it does, whatever its renderer draws and its
clock shows from one rollout to the next. In any tree that rounds made of a derivation it came by,
every node holds what the root leads to when it follows the actions on the way down. Each derivation
it came by, the last one included, is what the first leads to when it follows the actions of the
decisions so far, and each of these expands a node. There are no more decisions than there may be;
if the axiom has a rule and searches may make a round, it is for lack of decisions alone that the
last derivation is not complete. Each decision is for the earliest of the best children of its root,
which together have been visited once in each round, and every round makes one derivation and one
drawing. -/
theorem guide_reports (e : Evaluator α β) (config : TreeConfig β) (grammar : Grammar α)
    {run : GuidedRun α β} (h : e.guide config grammar s = (.ok (), run, s')) :
    (∀ before ∈ run.stages (start grammar), ∀ k log t,
      Rounds e.problem (e.searchTree before) k log t →
        ∃ root, t.node? 0 = some root ∧ Alike root.state before ∧ ∀ id n, t.node? id = some n →
          Alike n.state (root.state.follow e.limits.maxNodes (t.actionsTo id))) ∧
    (Alike run.live ((start grammar).follow e.limits.maxNodes run.actions) ∧
      ∀ i decision after, run.history[i]? = some (decision, after) → decision.step = i ∧
        Alike after ((start grammar).follow e.limits.maxNodes (run.actions.take (i + 1))) ∧
        (((start grammar).follow e.limits.maxNodes (run.actions.take i)).applyAction
          decision.action e.limits.maxNodes).1 = .ok true) ∧
    (run.history.length ≤ config.maxSteps ∧
      (grammar.hasRule Shape.axiomName = true → 1 ≤ config.maxIterations →
        run.history.length = config.maxSteps ∨ run.live.isComplete = true)) ∧
    (∀ i decision after, run.history[i]? = some (decision, after) →
      ∃ before log t, (run.stages (start grammar))[i]? = some before ∧
        Rounds e.problem (e.searchTree before) decision.rounds log t ∧
        t.decision? i decision.rounds = some (decision, after) ∧ decision.IsForBest ∧
        (decision.candidates.map (·.visits)).sum = decision.rounds) ∧
    s'.effort.derivations = s.effort.derivations + run.rounds ∧
    s'.effort.renders = s.effort.renders + run.rounds := by
  have hfirst : (start grammar).Canonical [] := .start _ grammar
  obtain ⟨hcommitted, hfew, hmany⟩ :=
    (Committed.begin e (start grammar) s).of_guideFrom hfirst h
  have hcanonical (i : Nat) (d : Derivation α) (hd : (run.stages (start grammar))[i]? = some d) :
      d.Canonical [] :=
    (hcommitted.stages i d hd).symm.canonical (hfirst.follow _ _)
  refine ⟨?_, ⟨hcommitted.alike_live, ?_⟩, ⟨?_, ?_⟩, ?_, hcommitted.derivations,
    hcommitted.renders⟩
  · intro before hbefore k log t hrounds
    obtain ⟨i, hi⟩ := List.mem_iff_getElem?.mp hbefore
    exact alike_follow_actionsTo (hcanonical i before hi) hrounds
  · intro i decision after hmade
    obtain ⟨before, hbefore, hdecides⟩ := hcommitted.decided i decision after hmade
    obtain ⟨next, hnext, _⟩ := hdecides.applied
    obtain ⟨next', hnext', _⟩ := (hcommitted.stages i before hbefore).applyAction_eq hnext
    have hafter : (run.stages (start grammar))[i + 1]? = some after := by
      simp [GuidedRun.stages, hmade]
    exact ⟨hdecides.step_eq, hcommitted.stages (i + 1) after hafter, by rw [hnext']⟩
  · simpa [GuidedRun.begin] using hfew
  · intro hrule hmax
    simpa [GuidedRun.begin] using hmany (.start hrule) hmax
  · intro i decision after hmade
    obtain ⟨before, hbefore, hdecides⟩ := hcommitted.decided i decision after hmade
    obtain ⟨log, t, hrounds, hdecision⟩ := hdecides.found
    exact ⟨before, log, t, hbefore, hrounds, hdecision, hdecides.isForBest, hdecides.visits⟩

/-! ## A strip and a score that is no number -/

/-- A strip that lies somewhere along a line. -/
def strip : Grammar ℚ where
  attributes := ⟨[("x", .choice "x" (-0.75) 8.25)], by decide⟩
  rules := ⟨[("Start", ⟨"Start", [
    .translate ⟨⟨"x", .attribute "x"⟩, ⟨"0.25", .number 0.25⟩, ⟨"0", .number 0.0⟩⟩,
    .resize ⟨⟨"0.5", .number 0.5⟩, ⟨"0.5", .number 0.5⟩, ⟨"0", .number 0.0⟩⟩]⟩)], by decide⟩

/-- A row of three pixels seen from above, the first of which is to be drawn. What is missing costs
so much and what is too much gains so much that both together come to no number. -/
def overflowing : Evaluator ℚ Score where
  renderer := Viewport.renderer ⟨3, 1, ⟨90.0, 0.0, ⟨0.0, 0.0, 0.5⟩, 90.0, 0.1⟩⟩
  target := ⟨3, 1, #[0.0, 1.0, 2.0]⟩
  metric := ⟨1e308, -1e308, 128⟩
  limits := {}

/-- One decision by three rounds. -/
def threeRounds : TreeConfig Score :=
  { TreeConfig.usual with maxSteps := 1, maxIterations := 3 }

/-- The decision: of a drawing that misses what is wanted, one that does so and draws too much, and
the one that is wanted. -/
def wanted : Decision Score where
  step := 0
  action := 0
  best := 1.0
  rounds := 3
  candidates := [⟨5, 1, 0.0⟩, ⟨2, 1, 0.0 / 0.0⟩, ⟨0, 1, 1.0⟩]

theorem guide_strip : ∃ run s',
    overflowing.guide threeRounds strip (.seeded 18) = (.ok (), run, s') ∧
    run.decisions = [wanted] := by
  have hrun : (overflowing.guide threeRounds strip (.seeded 18)).1 = .ok () ∧
      (overflowing.guide threeRounds strip (.seeded 18)).2.1.decisions = [wanted] := by
    decide +kernel
  exact ⟨_, _, Prod.ext hrun.1 rfl, hrun.2⟩

/-- The strip is put where it is wanted. -/
theorem guide_reports_strip : ∃ run s',
    overflowing.guide threeRounds strip (.seeded 18) = (.ok (), run, s') ∧
    run.decisions = [wanted] ∧ wanted.IsForBest ∧
    Alike run.live ((start strip).follow overflowing.limits.maxNodes [0]) ∧
    (run.history.length = 1 ∨ run.live.isComplete = true) ∧
    s'.effort.derivations = 3 ∧ s'.effort.renders = 3 := by
  obtain ⟨run, s', hrun, hdecisions⟩ := guide_strip
  obtain ⟨_, ⟨hlive, _⟩, ⟨_, hend⟩, hdecided, hderivations, hrenders⟩ :=
    guide_reports overflowing threeRounds strip hrun
  have hactions : run.actions = [0] := by
    rw [GuidedRun.actions, hdecisions]
    rfl
  have hrounds : run.rounds = 3 := by
    rw [GuidedRun.rounds, hdecisions]
    rfl
  obtain ⟨after, hmade⟩ : ∃ after, run.history[0]? = some (wanted, after) := by
    have hhead := congrArg (·[0]?) hdecisions
    rw [GuidedRun.decisions, List.getElem?_map, List.getElem?_cons_zero,
      Option.map_eq_some_iff] at hhead
    obtain ⟨made, hmade, hwanted⟩ := hhead
    exact ⟨made.2, by rw [hmade, ← hwanted]⟩
  obtain ⟨_, _, _, _, _, _, hbest, _⟩ := hdecided 0 wanted after hmade
  rw [hactions] at hlive
  rw [hrounds] at hderivations hrenders
  exact ⟨run, s', hrun, hdecisions, hbest, hlive, hend (by decide) (by decide), hderivations,
    hrenders⟩

/-- The strip is not put at the first place whose value no other exceeds. -/
theorem wanted_not_first : ∃ run s',
    overflowing.guide threeRounds strip (.seeded 18) = (.ok (), run, s') ∧
    run.decisions = [wanted] ∧
    ¬ ∃ place visits, wanted.candidates[place]? = some ⟨wanted.action, visits, wanted.best⟩ ∧
      Unexceeded (wanted.candidates.map (·.best)) place ∧
      ∀ i < place, ¬ Unexceeded (wanted.candidates.map (·.best)) i := by
  obtain ⟨run, s', hrun, hdecisions⟩ := guide_strip
  refine ⟨run, s', hrun, hdecisions, ?_⟩
  rintro ⟨place, visits, hplace, _, hfirst⟩
  have hnan : Unexceeded (wanted.candidates.map (·.best)) 1 := by decide +kernel
  match place with
  | 0 | 1 =>
    have haction := congrArg (Option.map (·.action)) hplace
    cases haction
  | place + 2 => exact hfirst 1 (by omega) hnan

end Evaluator

end ShapeGrammar
