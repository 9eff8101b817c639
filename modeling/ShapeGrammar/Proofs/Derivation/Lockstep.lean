import ShapeGrammar.Proofs.Derivation.Stages
import ShapeGrammar.Proofs.Derivation.WellFormed

/-!
# Guided steps and runs in lockstep

Where nothing is left to choose a guided step fixes nothing: it expands the front node, as a turn of
a run does. Main statement: `guideOut_eq_complete`, that guided steps one after the other come to
what a run comes to, as long as no limit cuts the run off.
-/
namespace ShapeGrammar

/-- Where no choice is open an action fixes nothing. -/
theorem ActionSpace.commit_of_closed {α : Type} [Scalar α] {g : Grammar α}
    (hclosed : ∀ key, g.isFree key = false) (name : String) (action : Nat) :
    commit g name action = g := by
  cases hspace : ofShape g name with
  | none => rw [commit, hspace]
  | some space =>
    have hnone : space = ⟨[]⟩ := by
      rw [ofShape, Option.map_eq_some_iff] at hspace
      obtain ⟨rule, _, rfl⟩ := hspace
      rw [List.filter_eq_nil_iff.mpr fun key _ => by simp [hclosed], distinct_nil]
    rw [commit, hspace, hnone]
    rfl

namespace Derivation

variable {α : Type}

/-- Whether the root waits although it has no rule. -/
def hasBareRoot (d : Derivation α) : Bool :=
  match d.tree.node? 0 with
  | some root => !root.isVisited && !d.grammar.hasRule root.shape.name
  | none => false

theorem hasBareRoot_iff {d : Derivation α} : d.hasBareRoot = true ↔
    ∃ root, d.tree.node? 0 = some root ∧ root.status = .pending ∧
      d.grammar.hasRule root.shape.name = false := by
  cases hroot : d.tree.node? 0 with
  | none => simp [hasBareRoot, hroot]
  | some root => simp [hasBareRoot, hroot, Node.isVisited]

/-- Where nothing waits the root does not wait either. -/
theorem Canonical.hasBareRoot_of_queue_eq_nil {d : Derivation α} (h : d.Canonical [])
    (hqueue : d.queue.toList = []) :
    d.hasBareRoot = false := by
  rw [← Bool.not_eq_true, hasBareRoot_iff]
  rintro ⟨root, hroot, hwaits, _⟩
  have hmem := (Tree.mem_pendingInOrder h.layered).mpr ⟨root, hroot, hwaits⟩
  rw [h.pending_eq, hqueue] at hmem
  cases hmem

theorem isComplete_iff {d : Derivation α} : d.isComplete = true ↔ d.pop? = none := by
  rw [isComplete, Queue.isEmpty_iff, pop?_eq_none_iff]

theorem isComplete_of_pop? {d popped : Derivation α} {id : Nat} (hd : d.pop? = some (id, popped)) :
    d.isComplete = false := by
  rw [← Bool.not_eq_true, isComplete_iff, hd]
  simp

variable [Elementary α]

/-- A guided step uses up a node that waits, or room. -/
theorem potential_applyAction_lt {d : Derivation α} (h : d.isComplete = false)
    (action maxNodes : Nat) :
    (d.applyAction action maxNodes).2.potential maxNodes < d.potential maxNodes := by
  cases hd : d.pop? with
  | none =>
    rw [← isComplete_iff, h] at hd
    cases hd
  | some front =>
    obtain ⟨id, popped⟩ := front
    have hpaid := potential_of_pop? maxNodes hd
    simp only [applyAction, hd]
    split
    · exact Nat.lt_of_succ_le (Nat.le_of_eq hpaid)
    next n _ =>
      split
      · exact Nat.lt_of_succ_le (Nat.le_of_eq hpaid)
      · have hgrown := potential_expand_le (popped.fixChoices n.shape.name action) id maxNodes
        exact Nat.lt_of_le_of_lt hgrown (Nat.lt_of_succ_le (Nat.le_of_eq hpaid))

/-- Guided steps by one action, one after the other until the queue is empty or a step fails: what
each of them returns, and the derivation that they leave. -/
def guideOut (d : Derivation α) (action maxNodes : Nat) :
    List (Except (EvalError α) Bool) × Derivation α :=
  if _open : d.isComplete = false then
    match _applied : d.applyAction action maxNodes with
    | (.error cause, e) => ([.error cause], e)
    | (.ok found, e) =>
      let (results, e) := guideOut e action maxNodes
      (.ok found :: results, e)
  else ([], d)
termination_by d.potential maxNodes
decreasing_by
  have hless := potential_applyAction_lt _open action maxNodes
  rwa [_applied] at hless

section Loop

variable {d e : Derivation α} {action maxNodes : Nat}

theorem guideOut_of_isComplete (h : d.isComplete = true) :
    d.guideOut action maxNodes = ([], d) := by
  rw [guideOut, dif_neg (by simp [h])]

theorem guideOut_of_error (h : d.isComplete = false) {cause : EvalError α}
    (hstep : d.applyAction action maxNodes = (.error cause, e)) :
    d.guideOut action maxNodes = ([.error cause], e) := by
  rw [guideOut, dif_pos h]
  split <;> simp_all

theorem guideOut_of_ok (h : d.isComplete = false) {found : Bool}
    (hstep : d.applyAction action maxNodes = (.ok found, e)) :
    d.guideOut action maxNodes =
      (.ok found :: (e.guideOut action maxNodes).1, (e.guideOut action maxNodes).2) := by
  rw [guideOut, dif_pos h]
  split <;> simp_all

/-- Where no choice is open a guided step expands the front node, and does nothing else. -/
theorem Canonical.applyAction_of_closed (h : d.Canonical [])
    (hclosed : ∀ key, d.grammar.isFree key = false) {id : Nat} {popped : Derivation α}
    (hd : d.pop? = some (id, popped)) (action maxNodes : Nat) :
    d.applyAction action maxNodes =
      ((popped.expand id maxNodes).1.map fun _ => true, (popped.expand id maxNodes).2) := by
  rcases h.applyAction_cases action with ⟨hnone, _⟩ | ⟨id', popped', n, hd', _, _, hstep⟩
  · rw [← pop?_eq_none_iff, hd] at hnone
    cases hnone
  · rw [hd, Option.some.injEq, Prod.mk.injEq] at hd'
    obtain ⟨rfl, rfl⟩ := hd'
    have hsame : popped.fixChoices n.shape.name action = popped := by
      rw [fixChoices, ActionSpace.commit_of_closed (by rwa [(pop?_eq_some hd).2.1])]
    rw [hstep, hsame]

end Loop

/-! ## Turns -/

variable {limits : Limits} {d₀ d d' : Derivation α} {taken : List Nat} {done done' : Progress}

/-- A run that goes on and has passed over no node has expanded the front node, or found that it has
no rule. -/
theorem Orderly.next_cases (h : Orderly limits d done) (hover : done'.tooDeep = [])
    (ht : Derivation.turn limits d done = .next done' d') :
    done.tooDeep = [] ∧ ∃ id popped, d.pop? = some (id, popped) ∧
      d.taken? limits done = some id ∧
      (popped.expand id limits.maxNodes = (.ok .terminal, d') ∧ done' = done ∨
      popped.expand id limits.maxNodes = (.ok .expanded, d') ∧
        done' = { done with expansions := done.expansions + 1 }) := by
  rcases h.turn_cases with ⟨_, heq⟩ | ⟨_, reason, _, _, heq⟩ |
    ⟨id, popped, n, hd, _, _, hb, ⟨_, heq⟩ | ⟨_, hnone, heq⟩⟩
  · rw [ht] at heq
    cases heq
  · rw [ht] at heq
    cases heq
  · rw [ht, Turn.next.injEq] at heq
    rw [heq.1] at hover
    cases hover
  · refine ⟨hnone, id, popped, hd, by simp [taken?, hb, hd], ?_⟩
    rw [ht] at heq
    exact Turn.of_ofExpansion_eq_next heq.symm

/-- Up to each stage of a run that has passed over no node guided steps come to the same, and none
of them fails. -/
theorem Stage.guideOut_eq (hstart : d₀.Canonical [])
    (hclosed : ∀ key, d₀.grammar.isFree key = false) (h : Stage limits d₀ taken done d)
    (hover : done.tooDeep = []) (action : Nat) :
    d₀.guideOut action limits.maxNodes =
      (List.replicate taken.length (.ok true) ++ (d.guideOut action limits.maxNodes).1,
        (d.guideOut action limits.maxNodes).2) := by
  induction h with
  | start => rfl
  | @next taken done done' d d' before turned ih =>
    have horderly := before.orderly hstart
    obtain ⟨hnone, id, popped, hd, htaken, hmade⟩ := horderly.next_cases hover turned
    have hcanonical := horderly.canonical
    rw [hnone] at hcanonical
    have hsame : d.grammar = d₀.grammar := before.of_steady (steady_grammar d₀.grammar) rfl
    have hstep := hcanonical.applyAction_of_closed (hsame ▸ hclosed) hd action limits.maxNodes
    have hok : d.applyAction action limits.maxNodes = (.ok true, d') := by
      rcases hmade with ⟨hmade, _⟩ | ⟨hmade, _⟩
      all_goals
        rw [hstep, hmade]
        rfl
    rw [ih hnone, guideOut_of_ok (isComplete_of_pop? hd) hok, htaken, Option.toList_some,
      List.length_append, List.length_singleton, List.replicate_succ', List.append_assoc]
    rfl

/-- A root without a rule is the first node to be expanded, and that makes it a terminal; nothing
else becomes one by an expansion. -/
theorem Canonical.hasBareRoot_expand {id maxNodes : Nat} {made : Expansion} (h : d.Canonical [id])
    (hruled : d.RuledBelow) (he : d.expand id maxNodes = (.ok made, d')) :
    d'.hasBareRoot = false ∧ (d.hasBareRoot = true ↔ made = .terminal) := by
  obtain ⟨n, hn, hp⟩ := h.exists_pending (List.mem_singleton_self id)
  have hgrammar : d'.grammar = d.grammar := by
    have := grammar_expand d id maxNodes
    rwa [he] at this
  have hrule : d.grammar.hasRule n.shape.name = false ↔ made = .terminal := by
    rcases expand_cases maxNodes hn with
      ⟨hnone, heq⟩ | ⟨rule, hsome, ⟨_, _, heq⟩ | ⟨growth, _, heq⟩⟩
    all_goals
      rw [he] at heq
      cases heq
    · simpa [Grammar.hasRule, Grammar.rule?, Table.contains] using hnone
    · have hhas : d.grammar.hasRule n.shape.name = true := by
        rw [Grammar.hasRule, Table.contains, ← Grammar.rule?, hsome]
        rfl
      rw [hhas]
      split <;> simp
  constructor
  · rw [← Bool.not_eq_true, hasBareRoot_iff]
    rintro ⟨root, hroot, hwaits, _⟩
    have hleft : (d.expand id maxNodes).2.tree.node? 0 = some root := by rwa [he]
    rcases node?_expand_cases hn hleft with ⟨_, _, _, ⟨_, hs⟩ | ⟨_, hs⟩⟩ | ⟨hne, hroot⟩ | ⟨hnone, _⟩
    · rw [hwaits] at hs
      cases hs
    · rw [hwaits] at hs
      cases hs
    · exact hne (Nat.le_zero.mp (h.id_le hroot hwaits)).symm
    · obtain ⟨_, hsome, _⟩ := h.layered.root
      rw [hnone] at hsome
      cases hsome
  · rw [← hrule, hasBareRoot_iff]
    constructor
    · rintro ⟨root, hroot, hwaits, hbare⟩
      obtain rfl : id = 0 := Nat.le_zero.mp (h.id_le hroot hwaits)
      rw [hn, Option.some.injEq] at hroot
      rwa [hroot]
    · intro hbare
      -- below the root only nodes with a rule wait
      have hzero : id = 0 := by
        by_contra hne
        rw [hruled id n (Nat.pos_of_ne_zero hne) hn hp] at hbare
        cases hbare
      exact ⟨n, hzero ▸ hn, hp, hbare⟩

/-- A run that has passed over no node has taken as many nodes as it has applied rules, and one more
if the root had none. -/
theorem Stage.length_taken (hstart : d₀.Canonical []) (hruled : d₀.RuledBelow)
    (h : Stage limits d₀ taken done d) (hover : done.tooDeep = []) :
    taken.length + d.hasBareRoot.toNat = done.expansions + d₀.hasBareRoot.toNat := by
  induction h with
  | start => rfl
  | @next taken done done' d d' before turned ih =>
    have horderly := before.orderly hstart
    obtain ⟨hnone, id, popped, hd, htaken, hmade⟩ := horderly.next_cases hover turned
    obtain ⟨htree, hgrammar, _⟩ := pop?_eq_some hd
    have hcanonical := horderly.canonical.pop hd
    rw [hnone] at hcanonical
    have hbelow : popped.RuledBelow :=
      invariant_ruledBelow.pop (before.of_steady invariant_ruledBelow.toSteady hruled) hd
    have hsame : popped.hasBareRoot = d.hasBareRoot := by
      simp only [hasBareRoot, htree, hgrammar]
    have hcount := ih hnone
    rw [htaken, Option.toList_some, List.length_append, List.length_singleton]
    rcases hmade with ⟨hmade, rfl⟩ | ⟨hmade, rfl⟩
    all_goals
      obtain ⟨hafter, hbefore⟩ := Canonical.hasBareRoot_expand hcanonical hbelow hmade
      rw [hsame] at hbefore
      rw [hafter]
    · rw [hbefore.mpr rfl] at hcount
      simpa using hcount
    · have hnot : d.hasBareRoot = false := by
        rw [← Bool.not_eq_true, hbefore]
        decide
      rw [hnot] at hcount
      simp only [Bool.toNat_false] at hcount ⊢
      omega

/-- A run that ends as completed has drained the queue and passed over no node. -/
theorem Orderly.completed_of_turn (h : Orderly limits d done)
    (ht : Derivation.turn limits d done = .stop (.ok .completed) done' d') :
    d.queue.toList = [] ∧ done.tooDeep = [] ∧ done' = done ∧ d' = d := by
  rcases h.stop_cases ht with ⟨hqueue, hdrained, hdone, hleft⟩ | ⟨_, hother, _⟩ | ⟨hclipped, _⟩
  · exact ⟨hqueue, drained_eq_completed_iff.mp hdrained.symm, hdone, hleft⟩
  · exact absurd rfl hother
  · cases hclipped

/-- A run that fails does so at the front node, and has passed over no node. -/
theorem Orderly.failed_of_turn {cause : EvalError α} (h : Orderly limits d done)
    (ht : Derivation.turn limits d done = .stop (.error cause) done' d') :
    done.tooDeep = [] ∧ ∃ id popped, d.pop? = some (id, popped) ∧
      popped.expand id limits.maxNodes = (.error cause, d') := by
  rcases h.turn_cases with ⟨_, heq⟩ | ⟨_, reason, _, _, heq⟩ |
    ⟨id, popped, n, hd, _, _, _, ⟨_, heq⟩ | ⟨_, hnone, heq⟩⟩
  · rw [ht] at heq
    cases heq
  · rw [ht] at heq
    cases heq
  · rw [ht] at heq
    cases heq
  · rw [ht] at heq
    rcases Turn.of_ofExpansion_eq_stop heq.symm with ⟨_, hmade, hresult, _⟩ | ⟨_, hresult, _⟩
    · cases hresult
      exact ⟨hnone, id, popped, hd, hmade⟩
    · cases hresult

theorem Reached.ruledBelow {g : Grammar α} {shape : Shape α} (h : d.Reached g shape) :
    d.RuledBelow := by
  induction h with
  | start => exact ruledBelow_start shape g
  | perform _ _ call ih => exact invariant_ruledBelow.perform ih call _
  | redraw _ hg ih =>
    intro id n hpos hn hp
    rw [Grammar.hasRule, hg.redrawn.rules]
    exact ih id n hpos hn hp

/-- Guided steps and a run come to the same where no choice is open. Whatever was done with a
derivation, as long as its queue is in order: if a run is completed under some limits, guided steps
under the same limit on the tree all succeed until the queue is empty, as many of them as the run
has applied rules and one more if the root waits without one, and they leave the same tree, queue
and grammar; and if a run fails, guided steps fail alike and leave the same. -/
theorem guideOut_eq_complete {g : Grammar α} {shape : Shape α} (hd : d.Reached g shape)
    (hqueue : d.queue.toList = d.tree.pendingInOrder)
    (hfixed : ∀ a ∈ d.grammar.attributes.values, a.ranged = true → a.fixed = true)
    (limits : Limits) (action : Nat) :
    (∀ outcome e, d.complete limits = (.ok outcome, e) → outcome.stop = .completed →
      d.guideOut action limits.maxNodes =
        (List.replicate (outcome.expansions + d.hasBareRoot.toNat) (.ok true), e)) ∧
    ∀ cause e, d.complete limits = (.error cause, e) →
      ∃ calls, d.guideOut action limits.maxNodes =
        (List.replicate calls (.ok true) ++ [.error cause], e) := by
  have hcanonical := hd.canonical hqueue
  have hclosed : ∀ key, d.grammar.isFree key = false := by
    intro key
    rw [← Bool.not_eq_true, Grammar.isFree_iff]
    rintro ⟨a, ha, hfree⟩
    obtain ⟨hranged, hopen⟩ := Bool.and_eq_true_iff.mp hfree
    rw [hfixed a (Table.mem_values_iff.mpr ⟨key, ha⟩) hranged] at hopen
    cases hopen
  obtain ⟨_, result, done', e, hends, hcomplete⟩ := exists_ends d limits
  obtain @⟨taken, _, done, _, last, _, before, turned⟩ := hends
  have horderly := before.orderly hcanonical
  rw [hcomplete]
  constructor
  · intro outcome e' hok hstop
    rcases result with cause | stop
    · cases hok
    · cases hok
      obtain rfl : stop = .completed := hstop
      obtain ⟨hempty, hnone, rfl, rfl⟩ := horderly.completed_of_turn turned
      have hend : e.isComplete = true := by
        rw [isComplete_iff, pop?_eq_none_iff, hempty]
      -- in the end nothing waits, so the root has been counted if it had no rule
      have hcount := before.length_taken hcanonical hd.ruledBelow hnone
      have hlast := horderly.canonical
      rw [hnone] at hlast
      rw [hlast.hasBareRoot_of_queue_eq_nil hempty] at hcount
      rw [before.guideOut_eq hcanonical hclosed hnone, guideOut_of_isComplete hend,
        List.append_nil]
      exact congrArg (fun count => (List.replicate count _, e)) hcount
  · intro cause e' herror
    rcases result with cause' | stop
    · cases herror
      obtain ⟨hnone, id, popped, hpop, hmade⟩ := horderly.failed_of_turn turned
      have hlast := horderly.canonical
      rw [hnone] at hlast
      have hsame : last.grammar = d.grammar := before.of_steady (steady_grammar d.grammar) rfl
      have hstep := hlast.applyAction_of_closed (hsame ▸ hclosed) hpop action limits.maxNodes
      rw [hmade] at hstep
      exact ⟨taken.length, by
        rw [before.guideOut_eq hcanonical hclosed hnone,
          guideOut_of_error (isComplete_of_pop? hpop) hstep]⟩
    · cases herror

/-- A tower the higher the flatter its roof. -/
def spire : Grammar Float32 where
  attributes := ⟨[("height", .choice "height" 0.0 9.0)], by decide⟩
  rules := ⟨[
    ("Roof", ⟨"Roof",
      [.extrude ⟨"1 / height", .binary .div (.number 1.0) (.attribute "height")⟩]⟩),
    ("Start", ⟨"Start", [.extrude ⟨"height", .attribute "height"⟩, .copy "Roof"]⟩)], by decide⟩

/-- With its height decided the tower gets its roof by a run or by a guided step; with no height at
all both fail. -/
theorem guideOut_eq_complete_spire :
    (∃ e, ((start .start spire).perform (.guided 4 10)).complete {} =
        (.ok ⟨1, .completed, 0, 0⟩, e) ∧
      ((start .start spire).perform (.guided 4 10)).guideOut 0 20000 = ([.ok true], e)) ∧
    ∃ e calls, ((start .start spire).perform (.guided 0 10)).complete {} =
        (.error (.divisionByZero 1.0 0.0), e) ∧
      ((start .start spire).perform (.guided 0 10)).guideOut 0 20000 =
        (List.replicate calls (.ok true) ++ [.error (.divisionByZero 1.0 0.0)], e) := by
  have hreached (action : Nat) :
      ((start .start spire).perform (.guided action 10)).Reached spire .start :=
    .perform .start _
  have hfixed (action : Nat) :
      ∀ a ∈ ((start .start spire).perform (.guided action 10)).grammar.attributes.values,
        a.ranged = true → a.fixed = true := by
    intro a ha _
    rw [List.mem_singleton.mp ha]
    rfl
  constructor
  · obtain ⟨e, f, hfirst, hlast, hlength⟩ : ∃ e f : Derivation Float32,
        turn {} ((start .start spire).perform (.guided 4 10)) {} = .next { expansions := 1 } e ∧
        turn {} e { expansions := 1 } = .stop (.ok .completed) { expansions := 1 } f ∧
        f.queue.length = 0 := ⟨_, _, rfl, rfl, rfl⟩
    have hrun : ((start .start spire).perform (.guided 4 10)).complete {} =
        (.ok ⟨1, .completed, 0, 0⟩, f) := by
      simp only [complete, runFrom_of_next hfirst, runFrom_of_stop hlast, Except.map, report,
        hlength, List.length_nil]
    exact ⟨f, hrun, (guideOut_eq_complete (hreached 4) rfl (hfixed 4) {} 0).1 _ _ hrun rfl⟩
  · obtain ⟨e, hfirst⟩ : ∃ e : Derivation Float32,
        turn {} ((start .start spire).perform (.guided 0 10)) {} =
          .stop (.error (.divisionByZero 1.0 0.0)) {} e := ⟨_, rfl⟩
    have hrun : ((start .start spire).perform (.guided 0 10)).complete {} =
        (.error (.divisionByZero 1.0 0.0), e) := by
      simp only [complete, runFrom_of_stop hfirst, Except.map]
    obtain ⟨calls, hcalls⟩ :=
      (guideOut_eq_complete (hreached 0) rfl (hfixed 0) {} 0).2 _ _ hrun
    exact ⟨e, calls, hrun, hcalls⟩

end Derivation

end ShapeGrammar
