import Mathlib.Logic.Function.Iterate
import ShapeGrammar.Proofs.Grammar.Redrawing
import ShapeGrammar.Proofs.Search.Guided
import ShapeGrammar.Search.Exchange

/-!
# The books of replica exchange

What a run of two chains that does not fail leaves on record is compared with what it has done: the
grammars whose energies each chain has asked for, one when it starts and one for each move. Main
statement: `exchange_keeps_books`.
-/
namespace ShapeGrammar

variable {α β : Type}

namespace Evaluator

/-- An evaluator for which it makes no difference what has been derived and drawn before: all images
are drawn alike, and if time is limited all derivations are given the same. -/
structure IsSteady (e : Evaluator α β) : Prop where
  draw : ∀ k, e.renderer.draw k = e.renderer.draw 0
  clock : e.limits.maxMillis = none ∨ ∀ k, e.clock k = e.clock 0

theorem IsSteady.building_eq [Elementary α] {e : Evaluator α β} (h : e.IsSteady) (g : Grammar α)
    (k : Nat) : building e.limits g (e.clock k) = building e.limits g (e.clock 0) := by
  rcases h.clock with htime | hsame
  · simp only [building, Derivation.complete_eq_of_maxMillis_eq_none htime]
  · rw [hsame]

section Energies

variable [Elementary α] [Elementary β] [Precision α β] {e : Evaluator α β} {g : Grammar α} {x : β}
  {s s' : Session}

/-- The energy of a grammar, whatever has been done before. -/
def Scores (e : Evaluator α β) (g : Grammar α) (x : β) : Prop :=
  ∀ s, (e.energy g s).1 = .ok x

/-- What an energy is does not depend on the session. -/
theorem IsSteady.energy_fst (h : e.IsSteady) (g : Grammar α) (s t : Session) :
    (e.energy g s).1 = (e.energy g t).1 := by
  rcases hbuilding : building e.limits g (e.clock 0) with ⟨cause | outcome, d⟩
  · simp only [energy, h.building_eq, hbuilding, scoreResult]
  · simp only [energy, h.building_eq, hbuilding, scoreResult, scoreFaces, h.draw]

/-- Each energy that there is costs a derivation and a drawing. -/
theorem energy_eq_ok (hsteady : e.IsSteady) (h : e.energy g s = (.ok x, s')) : e.Scores g x ∧
    s'.effort.derivations = s.effort.derivations + 1 ∧
    s'.effort.renders = s.effort.renders + 1 := by
  refine ⟨fun t => (hsteady.energy_fst g t s).trans (congrArg Prod.fst h), ?_⟩
  rcases hbuilding : building e.limits g (e.clock s.begun) with ⟨cause | outcome, d⟩
  · simp only [energy, hbuilding, scoreResult, Prod.mk.injEq, reduceCtorEq, false_and] at h
  · simp only [energy, hbuilding, scoreResult, scoreFaces, Prod.mk.injEq] at h
    rw [← h.2]
    exact ⟨rfl, rfl⟩

end Energies

end Evaluator

/-! ## Samples -/

namespace Grammar

variable [Scalar α] {g g' : Grammar α}

/-- What a sampler may look at: a later state of a grammar in which every choice is open and at one
of its levels. -/
structure Sample (g g' : Grammar α) : Prop extends g.Redrawn g' where
  isOpen : ∀ {name a}, g'.attribute? name = some a → a.fixed = false
  leveled : ∀ {name a}, g'.attribute? name = some a → a.ranged = true →
    ∃ level ≤ 9, a.value = a.levelValue level

theorem exists_level_setLevel (a : Attribute α) (level : Nat) :
    ∃ l ≤ 9, (a.setLevel level).value = (a.setLevel level).levelValue l :=
  ⟨min level 9, Nat.min_le_right level 9, (a.levelValue_min level).symm⟩

/-- Where a chain starts. -/
theorem sample_start (g : Grammar α) (rng : Generator) :
    g.Sample (g.releaseAll.randomizeAll rng).1 where
  toRedrawn := (Redrawn.releaseAll g).trans (.randomizeAll g.releaseAll rng)
  isOpen := by
    intro name b hb
    obtain ⟨level, hname⟩ := g.releaseAll.attribute?_randomize Attribute.ranged rng name
    rw [randomizeAll, hname, Option.map_eq_some_iff] at hb
    obtain ⟨a, ha, rfl⟩ := hb
    rw [attribute?, releaseAll, Table.find?_map, Option.map_eq_some_iff] at ha
    obtain ⟨_, _, rfl⟩ := ha
    split <;> rfl
  leveled := by
    intro name b hb hranged
    obtain ⟨level, hname⟩ := g.releaseAll.attribute?_randomize Attribute.ranged rng name
    rw [randomizeAll, hname, Option.map_eq_some_iff] at hb
    obtain ⟨a, _, rfl⟩ := hb
    split at hranged
    next hchoice =>
      rw [if_pos hchoice]
      exact exists_level_setLevel a level
    next hconstant => exact absurd hranged hconstant

/-- A move leads from sample to sample. -/
theorem Sample.propose (h : g.Sample g') (rng : Generator) : g.Sample (g'.propose rng).1 where
  toRedrawn := h.toRedrawn.trans (.propose g' rng)
  isOpen := by
    intro name b hb
    obtain ⟨here, hname⟩ :=
      g'.attributes.find?_thread moveAttribute (rng.directions g'.choiceCount).1 name
    obtain ⟨a, ha, rfl⟩ := Option.map_eq_some_iff.mp (hname.symm.trans hb)
    have hopen : a.fixed = false := h.isOpen ha
    unfold moveAttribute
    split <;> exact hopen
  leveled := by
    intro name b hb hranged
    obtain ⟨here, hname⟩ :=
      g'.attributes.find?_thread moveAttribute (rng.directions g'.choiceCount).1 name
    obtain ⟨a, ha, rfl⟩ := Option.map_eq_some_iff.mp (hname.symm.trans hb)
    unfold moveAttribute at hranged ⊢
    split
    next => exact exists_level_setLevel a _
    next hconstant =>
      rw [if_neg hconstant] at hranged
      exact absurd hranged hconstant

end Grammar

/-! ## One chain -/

namespace Chain

section Moves

variable [Scalar β]

/-- The chain after a move to a grammar of some energy was proposed. -/
def moved (c : Chain α β) (next : Grammar α) (x : β) (accepted : Bool) (cooling : β) :
    Chain α β :=
  let considered := c.consider next x
  (if accepted then considered.accept next x else considered).cool cooling

variable (c : Chain α β) (next : Grammar α) (x : β) (accepted : Bool) (cooling : β)

theorem moved_best : (c.moved next x accepted cooling).bestGrammar =
      (if x < c.bestEnergy then next else c.bestGrammar) ∧
    (c.moved next x accepted cooling).bestEnergy =
      if x < c.bestEnergy then x else c.bestEnergy := by
  by_cases h : x < c.bestEnergy <;> cases accepted <;> simp [moved, consider, accept, cool, h]

theorem moved_current : (c.moved next x accepted cooling).grammar =
      (if accepted then next else c.grammar) ∧
    (c.moved next x accepted cooling).energy = if accepted then x else c.energy := by
  by_cases h : x < c.bestEnergy <;> cases accepted <;> simp [moved, consider, accept, cool, h]

theorem moved_counts : (c.moved next x accepted cooling).proposals = c.proposals + 1 ∧
    (c.moved next x accepted cooling).accepted = c.accepted + accepted.toNat ∧
    (c.moved next x accepted cooling).temperature = c.temperature / cooling := by
  by_cases h : x < c.bestEnergy <;> cases accepted <;> simp [moved, consider, accept, cool, h]

/-- A later state of a chain: the best energy is the same or lower. -/
def Lower (c c' : Chain α β) : Prop :=
  c'.bestEnergy = c.bestEnergy ∨ c'.bestEnergy < c.bestEnergy

variable {c} {c' c'' : Chain α β}

theorem Lower.refl (c : Chain α β) : c.Lower c :=
  .inl rfl

theorem Lower.trans (h : c.Lower c') (h' : c'.Lower c'') : c.Lower c'' := by
  rcases h' with heq | hlt
  · rw [Lower, heq]
    exact h
  · rcases h with heq | hlt'
    · rw [heq] at hlt
      exact .inr hlt
    · exact .inr (Scalar.lt_trans hlt hlt')

/-- What is above a best energy is above any later one. -/
theorem Lower.lt_trans (h : c.Lower c') {y : β} (hy : c.bestEnergy < y) : c'.bestEnergy < y := by
  rcases h with heq | hlt
  · rwa [heq]
  · exact Scalar.lt_trans hlt hy

/-- What is below a later best energy is below the earlier one. -/
theorem Lower.lt_of_lt (h : c.Lower c') {y : β} (hy : y < c'.bestEnergy) : y < c.bestEnergy := by
  rcases h with heq | hlt
  · rwa [heq] at hy
  · exact Scalar.lt_trans hy hlt

theorem lower_moved (c : Chain α β) (next : Grammar α) (x : β) (accepted : Bool) (cooling : β) :
    c.Lower (c.moved next x accepted cooling) := by
  rw [Lower, (c.moved_best next x accepted cooling).2]
  split
  next hlt => exact .inr hlt
  · exact .inl rfl

end Moves

variable [Elementary α] [Elementary β] [Precision α β]

/-- What a chain has on record agrees with the grammars it has asked the energies of, all of them
samples of the grammar it was started for. -/
structure Books (e : Evaluator α β) (origin : Grammar α) (scored : List (Grammar α))
    (c : Chain α β) : Prop where
  current : c.grammar ∈ scored
  energy : e.Scores c.grammar c.energy
  best : c.bestGrammar ∈ scored
  bestEnergy : e.Scores c.bestGrammar c.bestEnergy
  lowest : ∀ g ∈ scored, ∃ x, e.Scores g x ∧ ¬x < c.bestEnergy
  proposals : c.proposals + 1 = scored.length
  accepted : c.accepted ≤ c.proposals
  sampled : ∀ g ∈ scored, origin.Sample g

namespace Books

variable {e : Evaluator α β} {origin next : Grammar α} {scored : List (Grammar α)} {c : Chain α β}
  {x : β}

theorem start (hx : e.Scores next x) (hnext : origin.Sample next) (temperature : β) :
    Books e origin [next] (.start next x temperature) where
  current := List.mem_singleton_self next
  energy := hx
  best := List.mem_singleton_self next
  bestEnergy := hx
  lowest := by
    intro g hg
    rw [List.mem_singleton.mp hg]
    exact ⟨x, hx, Scalar.lt_irrefl x⟩
  proposals := rfl
  accepted := Nat.le_refl 0
  sampled := by
    intro g hg
    rw [List.mem_singleton.mp hg]
    exact hnext

/-- A temperature is not in the books. -/
theorem withTemperature (h : Books e origin scored c) (temperature : β) :
    Books e origin scored { c with temperature } :=
  ⟨h.current, h.energy, h.best, h.bestEnergy, h.lowest, h.proposals, h.accepted, h.sampled⟩

/-- A move keeps the books. -/
theorem moved (h : Books e origin scored c) (hx : e.Scores next x) (hnext : origin.Sample next)
    (accepted : Bool) (cooling : β) :
    Books e origin (scored ++ [next]) (c.moved next x accepted cooling) := by
  obtain ⟨hbestGrammar, hbestEnergy⟩ := c.moved_best next x accepted cooling
  obtain ⟨hgrammar, henergy⟩ := c.moved_current next x accepted cooling
  obtain ⟨hproposals, haccepted, _⟩ := c.moved_counts next x accepted cooling
  have hlast : next ∈ scored ++ [next] := List.mem_append_right _ (List.mem_singleton_self next)
  constructor
  case current =>
    rw [hgrammar]
    split
    · exact hlast
    · exact List.mem_append_left _ h.current
  case energy =>
    rw [hgrammar, henergy]
    split
    · exact hx
    · exact h.energy
  case best =>
    rw [hbestGrammar]
    split
    · exact hlast
    · exact List.mem_append_left _ h.best
  case bestEnergy =>
    rw [hbestGrammar, hbestEnergy]
    split
    · exact hx
    · exact h.bestEnergy
  case lowest =>
    intro g hg
    rcases List.mem_append.mp hg with hg | hg
    · obtain ⟨y, hy, hnot⟩ := h.lowest g hg
      exact ⟨y, hy, fun hlt => hnot ((c.lower_moved next x accepted cooling).lt_of_lt hlt)⟩
    · rw [List.mem_singleton.mp hg, hbestEnergy]
      refine ⟨x, hx, ?_⟩
      split
      · exact Scalar.lt_irrefl x
      next hnot => exact hnot
  case proposals =>
    rw [hproposals, List.length_append, List.length_singleton, h.proposals]
  case accepted =>
    have hone := accepted.toNat_le
    have hbefore := h.accepted
    omega
  case sampled =>
    intro g hg
    rcases List.mem_append.mp hg with hg | hg
    · exact h.sampled g hg
    · rw [List.mem_singleton.mp hg]
      exact hnext

end Books

end Chain

/-! ## Both chains -/

/-- A temperature that has been cooled down a number of times. -/
def ExchangeConfig.cooled [Div β] (config : ExchangeConfig β) (times : Nat) (temperature : β) : β :=
  (· / config.coolingFactor)^[times] temperature

/-- The temperatures of the two chains after a number of moves each and some exchanges. -/
def ExchangeConfig.temperatures [Div β] (config : ExchangeConfig β) (moves swaps : Nat) : β × β :=
  if swaps % 2 = 1 then
    (config.cooled moves config.highTemperature, config.cooled moves config.lowTemperature)
  else (config.cooled moves config.lowTemperature, config.cooled moves config.highTemperature)

namespace ExchangeConfig

variable [Div β] (config : ExchangeConfig β) (moves swaps : Nat)

theorem cooled_succ (temperature : β) : config.cooled (moves + 1) temperature =
    config.cooled moves temperature / config.coolingFactor :=
  Function.iterate_succ_apply' _ _ _

/-- One move of each chain cools both down. -/
theorem temperatures_succ : config.temperatures (moves + 1) swaps =
    ((config.temperatures moves swaps).1 / config.coolingFactor,
      (config.temperatures moves swaps).2 / config.coolingFactor) := by
  simp only [temperatures, cooled_succ]
  split <;> rfl

/-- One exchange hands both temperatures over. -/
theorem temperatures_swap :
    config.temperatures moves (swaps + 1) = (config.temperatures moves swaps).swap := by
  have hparity : (swaps + 1) % 2 = 1 ↔ ¬swaps % 2 = 1 := by omega
  by_cases hodd : swaps % 2 = 1
  · simp [temperatures, hparity, hodd]
  · simp [temperatures, hparity, hodd]

end ExchangeConfig

namespace Replicas

section Lower

variable [Scalar β] {r r' r'' : Replicas α β}

/-- A later state of both chains. -/
structure Lower (r r' : Replicas α β) : Prop where
  first : r.first.Lower r'.first
  second : r.second.Lower r'.second

theorem Lower.refl (r : Replicas α β) : r.Lower r :=
  ⟨.refl _, .refl _⟩

theorem Lower.trans (h : r.Lower r') (h' : r'.Lower r'') : r.Lower r'' :=
  ⟨h.first.trans h'.first, h.second.trans h'.second⟩

/-- The leading chain is one of the two, and neither has seen a lower energy. -/
theorem leading_spec (r : Replicas α β) :
    (r.leading = r.first ∨ r.leading = r.second) ∧
      ¬r.first.bestEnergy < r.leading.bestEnergy ∧
      ¬r.second.bestEnergy < r.leading.bestEnergy := by
  unfold leading
  split
  next hlt => exact ⟨.inr rfl, fun hgt => Scalar.lt_irrefl _ (Scalar.lt_trans hlt hgt),
    Scalar.lt_irrefl _⟩
  next hnot => exact ⟨.inl rfl, Scalar.lt_irrefl _, hnot⟩

/-- The best energy of all never rises. -/
theorem Lower.leading (h : r.Lower r') :
    ¬r.leading.bestEnergy < r'.leading.bestEnergy := by
  intro hlt
  obtain ⟨_, hfirst, hsecond⟩ := r'.leading_spec
  rcases r.leading_spec.1 with hleads | hleads
  · rw [hleads] at hlt
    exact hfirst (h.first.lt_trans hlt)
  · rw [hleads] at hlt
    exact hsecond (h.second.lt_trans hlt)

end Lower

variable [Elementary α] [Elementary β] [Precision α β]

/-- What both chains have on record after some iterations agrees with the grammars that each has
asked the energies of: every iteration is an attempt to exchange temperatures or a move of each
chain, and a temperature is cooled down at each move and changes hands at each exchange. -/
structure Books (e : Evaluator α β) (config : ExchangeConfig β) (origin : Grammar α)
    (iterations : Nat) (scored : List (Grammar α) × List (Grammar α)) (r : Replicas α β) :
    Prop where
  first : r.first.Books e origin scored.1
  second : r.second.Books e origin scored.2
  firstMoves : r.first.proposals + r.swapsAttempted = iterations
  secondMoves : r.second.proposals + r.swapsAttempted = iterations
  swaps : r.swapsAccepted ≤ r.swapsAttempted
  temperatures : (r.first.temperature, r.second.temperature) =
    config.temperatures r.first.proposals r.swapsAccepted

namespace Books

variable {e : Evaluator α β} {config : ExchangeConfig β} {origin : Grammar α} {n : Nat}
  {scored : List (Grammar α) × List (Grammar α)} {r : Replicas α β}

/-- The best of both chains is a sample and has its energy. -/
theorem leading (h : Books e config origin n scored r) :
    e.Scores r.leading.bestGrammar r.leading.bestEnergy ∧ origin.Sample r.leading.bestGrammar := by
  rcases r.leading_spec.1 with hleads | hleads
  · rw [hleads]
    exact ⟨h.first.bestEnergy, h.first.sampled _ h.first.best⟩
  · rw [hleads]
    exact ⟨h.second.bestEnergy, h.second.sampled _ h.second.best⟩

/-- An attempt to exchange temperatures, accepted or not, keeps the books. -/
theorem exchanged (h : Books e config origin n scored r) (accepted : Bool) :
    Books e config origin (n + 1) scored
      (if accepted then { r with swapsAttempted := r.swapsAttempted + 1 }.swap
        else { r with swapsAttempted := r.swapsAttempted + 1 }) := by
  have hfirst := h.firstMoves
  have hsecond := h.secondMoves
  have hswaps := h.swaps
  cases accepted with
  | false =>
    exact ⟨h.first, h.second, by rw [← hfirst]; rfl, by rw [← hsecond]; rfl,
      Nat.le_succ_of_le hswaps, h.temperatures⟩
  | true =>
    refine ⟨h.first.withTemperature _, h.second.withTemperature _, by rw [← hfirst]; rfl,
      by rw [← hsecond]; rfl, Nat.succ_le_succ hswaps, ?_⟩
    exact (congrArg Prod.swap h.temperatures).trans (config.temperatures_swap _ _).symm

/-- A move of each chain keeps the books. -/
theorem moved (h : Books e config origin n scored r) {rng₁ rng₂ : Generator} {x₁ x₂ : β}
    (hx₁ : e.Scores (r.first.grammar.propose rng₁).1 x₁)
    (hx₂ : e.Scores (r.second.grammar.propose rng₂).1 x₂) (accepted₁ accepted₂ : Bool) :
    Books e config origin (n + 1)
      (scored.1 ++ [(r.first.grammar.propose rng₁).1],
        scored.2 ++ [(r.second.grammar.propose rng₂).1])
      { r with
        first := r.first.moved (r.first.grammar.propose rng₁).1 x₁ accepted₁ config.coolingFactor
        second :=
          r.second.moved (r.second.grammar.propose rng₂).1 x₂ accepted₂ config.coolingFactor } := by
  have hsample₁ := (h.first.sampled _ h.first.current).propose rng₁
  have hsample₂ := (h.second.sampled _ h.second.current).propose rng₂
  obtain ⟨hproposals₁, _, htemperature₁⟩ := r.first.moved_counts
    (r.first.grammar.propose rng₁).1 x₁ accepted₁ config.coolingFactor
  obtain ⟨hproposals₂, _, htemperature₂⟩ := r.second.moved_counts
    (r.second.grammar.propose rng₂).1 x₂ accepted₂ config.coolingFactor
  refine ⟨h.first.moved hx₁ hsample₁ accepted₁ _, h.second.moved hx₂ hsample₂ accepted₂ _,
    ?_, ?_, h.swaps, ?_⟩
  · rw [hproposals₁, ← h.firstMoves]
    exact Nat.add_right_comm _ _ _
  · rw [hproposals₂, ← h.secondMoves]
    exact Nat.add_right_comm _ _ _
  · have hcooled := config.temperatures_succ r.first.proposals r.swapsAccepted
    rw [← h.temperatures] at hcooled
    simp only [hproposals₁, htemperature₁, htemperature₂, hcooled]

end Books

end Replicas

/-! ## A run -/

namespace Evaluator

variable [Elementary α] [Elementary β] [Precision α β]

/-- The grammars that an iteration asks the energies of, for the first chain and for the second. -/
def scoredIn (e : Evaluator α β) (config : ExchangeConfig β) (r : Replicas α β) (s : Session) :
    List (Grammar α) × List (Grammar α) :=
  let (exchanging, rng) := s.rng.chance config.swapProbability
  if exchanging then ([], [])
  else
    let s := { s with rng }
    ([(r.first.grammar.propose s.rng).1],
      match e.moveChain config.coolingFactor r.first s with
      | (.error _, _) => []
      | (.ok _, s) => [(r.second.grammar.propose s.rng).1])

/-- The grammars that further iterations ask the energies of. -/
def scoredFrom (e : Evaluator α β) (config : ExchangeConfig β) :
    Nat → Replicas α β → Session → List (Grammar α) × List (Grammar α)
  | 0, _, _ => ([], [])
  | iterations + 1, r, s =>
    let here := e.scoredIn config r s
    match e.iterateReplicas config r s with
    | (.error _, _) => here
    | (.ok r, s) =>
      let rest := e.scoredFrom config iterations r s
      (here.1 ++ rest.1, here.2 ++ rest.2)

/-- The grammars that a run asks the energies of, the ones that the chains start with first. -/
def scored (e : Evaluator α β) (config : ExchangeConfig β) (grammar : Grammar α) (s : Session) :
    List (Grammar α) × List (Grammar α) :=
  match e.randomReplicas config grammar s with
  | (.error _, _) => ([], [])
  | (.ok r, s) =>
    let rest := e.scoredFrom config config.iterations r s
    (r.first.grammar :: rest.1, r.second.grammar :: rest.2)

/-- That so many energies have been asked for. -/
def Spent (n : Nat) (s s' : Session) : Prop :=
  s'.effort.derivations = s.effort.derivations + n ∧ s'.effort.renders = s.effort.renders + n

variable {e : Evaluator α β} {config : ExchangeConfig β} {origin : Grammar α} {s s' : Session}

theorem Spent.trans {m n : Nat} {s'' : Session} (h : Spent m s s') (h' : Spent n s' s'') :
    Spent (m + n) s s'' := by
  obtain ⟨hd, hr⟩ := h
  obtain ⟨hd', hr'⟩ := h'
  exact ⟨by omega, by omega⟩

/-! ### One move -/

theorem moveChain_eq_ok (hsteady : e.IsSteady) {cooling : β} {c c' : Chain α β}
    (h : e.moveChain cooling c s = (.ok c', s')) :
    ∃ x accepted, e.Scores (c.grammar.propose s.rng).1 x ∧
      c' = c.moved (c.grammar.propose s.rng).1 x accepted cooling ∧ Spent 1 s s' := by
  rcases hpropose : c.grammar.propose s.rng with ⟨next, rng⟩
  simp only [moveChain, hpropose] at h
  split at h
  · cases h
  next x t henergy =>
    cases h
    obtain ⟨hscores, hd, hr⟩ := energy_eq_ok hsteady henergy
    exact ⟨x, _, hscores, rfl, hd, hr⟩

/-- All that an iteration can come to: an exchange is attempted, or each chain moves. -/
theorem iterateReplicas_eq_ok (hsteady : e.IsSteady) {r r' : Replicas α β}
    (h : e.iterateReplicas config r s = (.ok r', s')) :
    (e.scoredIn config r s = ([], []) ∧ Spent 0 s s' ∧ ∃ accepted : Bool,
      r' = if accepted then { r with swapsAttempted := r.swapsAttempted + 1 }.swap
        else { r with swapsAttempted := r.swapsAttempted + 1 }) ∨
    ∃ rng₁ rng₂ x₁ x₂ accepted₁ accepted₂,
      e.scoredIn config r s =
        ([(r.first.grammar.propose rng₁).1], [(r.second.grammar.propose rng₂).1]) ∧
      e.Scores (r.first.grammar.propose rng₁).1 x₁ ∧
      e.Scores (r.second.grammar.propose rng₂).1 x₂ ∧ Spent 2 s s' ∧
      r' = { r with
        first := r.first.moved (r.first.grammar.propose rng₁).1 x₁ accepted₁ config.coolingFactor
        second :=
          r.second.moved (r.second.grammar.propose rng₂).1 x₂ accepted₂ config.coolingFactor } := by
  rcases hchance : s.rng.chance config.swapProbability with ⟨_ | _, rng⟩
  · simp only [iterateReplicas, hchance, Bool.false_eq_true, if_false, moveBoth] at h
    split at h
    · cases h
    next first t hfirst =>
      split at h
      · cases h
      next second t' hsecond =>
        cases h
        obtain ⟨x₁, accepted₁, hx₁, rfl, hspent₁⟩ := moveChain_eq_ok hsteady hfirst
        obtain ⟨x₂, accepted₂, hx₂, rfl, hspent₂⟩ := moveChain_eq_ok hsteady hsecond
        refine .inr ⟨_, _, x₁, x₂, accepted₁, accepted₂, ?_, hx₁, hx₂, hspent₁.trans hspent₂, rfl⟩
        simp only [scoredIn, hchance, Bool.false_eq_true, if_false, hfirst]
  · simp only [iterateReplicas, hchance, if_true] at h
    cases h
    exact .inl ⟨by simp only [scoredIn, hchance, if_true], ⟨rfl, rfl⟩, _, rfl⟩

/-- An iteration keeps the books. -/
theorem books_iterate (hsteady : e.IsSteady) {n : Nat}
    {scored : List (Grammar α) × List (Grammar α)} {r r' : Replicas α β}
    (hbooks : r.Books e config origin n scored)
    (h : e.iterateReplicas config r s = (.ok r', s')) :
    r'.Books e config origin (n + 1)
        (scored.1 ++ (e.scoredIn config r s).1, scored.2 ++ (e.scoredIn config r s).2) ∧
      r.Lower r' ∧
      Spent ((e.scoredIn config r s).1.length + (e.scoredIn config r s).2.length) s s' := by
  rcases iterateReplicas_eq_ok hsteady h with ⟨hscored, hspent, accepted, rfl⟩ |
    ⟨rng₁, rng₂, x₁, x₂, accepted₁, accepted₂, hscored, hx₁, hx₂, hspent, rfl⟩
  · rw [hscored, List.append_nil, List.append_nil]
    refine ⟨hbooks.exchanged accepted, ?_, hspent⟩
    cases accepted with
    | false => exact ⟨.refl _, .refl _⟩
    | true => exact ⟨.inl rfl, .inl rfl⟩
  · rw [hscored]
    exact ⟨hbooks.moved hx₁ hx₂ accepted₁ accepted₂,
      ⟨Chain.lower_moved _ _ _ _ _, Chain.lower_moved _ _ _ _ _⟩, hspent⟩

/-! ### Snapshots -/

/-- Whether a snapshot is taken after some iterations. -/
def isDue (config : ExchangeConfig β) (iteration : Nat) : Bool :=
  0 < config.snapshotInterval && iteration % config.snapshotInterval == 0

/-- The snapshots of a run that has come from one state of the chains to another: they are taken
when they are due, and no later one is worse than an earlier one. -/
structure Recorded (e : Evaluator α β) (config : ExchangeConfig β) (origin : Grammar α)
    (start iterations : Nat) (r r' : Replicas α β) (snapshots : List (Snapshot α β)) : Prop where
  taken : snapshots.map (·.iteration) =
    (List.range' (start + 1) iterations).filter (isDue config)
  between : ∀ shot ∈ snapshots, ∃ q scored, q.Books e config origin shot.iteration scored ∧
    shot = q.snapshot shot.iteration ∧ r.Lower q ∧ q.Lower r'
  falling : snapshots.Pairwise fun earlier later => ¬earlier.bestEnergy < later.bestEnergy

theorem recorded_cons {n start : Nat} {r q r' : Replicas α β} {snapshots : List (Snapshot α β)}
    {scored : List (Grammar α) × List (Grammar α)}
    (hbooks : q.Books e config origin (start + 1) scored) (hlower : r.Lower q)
    (hlower' : q.Lower r')
    (h : Recorded e config origin (start + 1) n q r' snapshots) :
    Recorded e config origin start (n + 1) r r'
      (if isDue config (start + 1) then q.snapshot (start + 1) :: snapshots else snapshots) := by
  have hbetween : ∀ shot ∈ snapshots, ∃ q' scored, q'.Books e config origin shot.iteration scored ∧
      shot = q'.snapshot shot.iteration ∧ r.Lower q' ∧ q'.Lower r' := by
    intro shot hshot
    obtain ⟨q', scored', hbooks', heq, hq, hq'⟩ := h.between shot hshot
    exact ⟨q', scored', hbooks', heq, hlower.trans hq, hq'⟩
  cases hdue : isDue config (start + 1) with
  | false =>
    refine ⟨?_, hbetween, h.falling⟩
    rw [List.range'_succ, List.filter_cons, hdue]
    exact h.taken
  | true =>
    refine ⟨?_, ?_, ?_⟩
    · rw [List.range'_succ, List.filter_cons, hdue]
      exact congrArg (List.cons (start + 1)) h.taken
    · intro shot hshot
      rcases List.mem_cons.mp hshot with rfl | hshot
      · exact ⟨q, scored, hbooks, rfl, hlower, hlower'⟩
      · exact hbetween shot hshot
    · refine List.pairwise_cons.mpr ⟨fun shot hshot => ?_, h.falling⟩
      obtain ⟨q', _, _, heq, hq, _⟩ := h.between shot hshot
      rw [heq]
      exact hq.leading

/-- Iterations that do not fail keep the books, and their snapshots tell of what was between. -/
theorem books_exchangeFrom (hsteady : e.IsSteady) {n start : Nat}
    {scored : List (Grammar α) × List (Grammar α)} {r r' : Replicas α β}
    {snapshots : List (Snapshot α β)}
    (hbooks : r.Books e config origin start scored)
    (h : e.exchangeFrom config n start r s = (.ok r', snapshots, s')) :
    r'.Books e config origin (start + n)
        (scored.1 ++ (e.scoredFrom config n r s).1, scored.2 ++ (e.scoredFrom config n r s).2) ∧
      r.Lower r' ∧
      Spent ((e.scoredFrom config n r s).1.length + (e.scoredFrom config n r s).2.length) s s' ∧
      Recorded e config origin start n r r' snapshots := by
  induction n generalizing start scored r s snapshots with
  | zero =>
    cases h
    simp only [scoredFrom, List.append_nil]
    exact ⟨hbooks, .refl _, ⟨rfl, rfl⟩, rfl, by simp, .nil⟩
  | succ n ih =>
    rcases hiterate : e.iterateReplicas config r s with ⟨cause | q, t⟩
    · simp [exchangeFrom, hiterate] at h
    · obtain ⟨hq, hlower, hspent⟩ := books_iterate hsteady hbooks hiterate
      rcases hrest : e.exchangeFrom config n (start + 1) q t with ⟨result, rest, t'⟩
      simp only [exchangeFrom, hiterate, hrest, Prod.mk.injEq] at h
      obtain ⟨rfl, rfl, rfl⟩ := h
      obtain ⟨hr', hlower', hspent', hrecorded⟩ := ih hq hrest
      simp only [scoredFrom, hiterate]
      refine ⟨?_, hlower.trans hlower', ?_, recorded_cons hq hlower hlower' hrecorded⟩
      · simpa only [List.append_assoc, Nat.add_right_comm, Nat.add_assoc] using hr'
      · have htotal := hspent.trans hspent'
        simp only [List.length_append]
        convert htotal using 1
        omega

/-! ### From the start -/

theorem randomChain_eq_ok (hsteady : e.IsSteady) {temperature : β} {c : Chain α β}
    (h : e.randomChain origin temperature s = (.ok c, s')) :
    ∃ g x, e.Scores g x ∧ origin.Sample g ∧ c = .start g x temperature ∧ Spent 1 s s' := by
  have hsample := Grammar.sample_start origin s.rng
  rcases hrandom : origin.releaseAll.randomizeAll s.rng with ⟨g, rng⟩
  rw [hrandom] at hsample
  rcases henergy : e.energy g { s with rng } with ⟨cause | x, t⟩
  · simp [randomChain, hrandom, henergy, Except.map] at h
  · simp only [randomChain, hrandom, henergy, Except.map, Prod.mk.injEq, Except.ok.injEq] at h
    obtain ⟨rfl, rfl⟩ := h
    obtain ⟨hscores, hd, hr⟩ := energy_eq_ok hsteady henergy
    exact ⟨g, x, hscores, hsample, rfl, hd, hr⟩

/-- Two chains that have not moved agree with their books. -/
theorem books_randomReplicas (hsteady : e.IsSteady) {r : Replicas α β}
    (h : e.randomReplicas config origin s = (.ok r, s')) :
    r.Books e config origin 0 ([r.first.grammar], [r.second.grammar]) ∧ Spent 2 s s' := by
  rw [randomReplicas] at h
  split at h
  · cases h
  next first t hfirst =>
    split at h
    · cases h
    next second t' hsecond =>
      cases h
      obtain ⟨g₁, x₁, hx₁, hg₁, rfl, hspent₁⟩ := randomChain_eq_ok hsteady hfirst
      obtain ⟨g₂, x₂, hx₂, hg₂, rfl, hspent₂⟩ := randomChain_eq_ok hsteady hsecond
      exact ⟨⟨.start hx₁ hg₁ _, .start hx₂ hg₂ _, rfl, rfl, Nat.le_refl 0, rfl⟩,
        hspent₁.trans hspent₂⟩

/-- Replica exchange that does not fail keeps its books, for every grammar, configuration and seed
and every evaluator that draws all images alike and gives all derivations the same time. Each
chain's energy is that of its grammar and its best energy that of its best grammar; of the grammars
it has asked the energy of none is below the best, and all of them are the grammar that was given,
with every choice open and at a level. The moves of a chain and the attempts to exchange make up the
iterations, a chain accepts no more moves than were proposed and no more exchanges than were
attempted, and each temperature has been cooled down once for each move and is the other chain's if
they were exchanged an odd number of times. Snapshots are taken after the iterations that are due
and in no other, none is worse than an earlier one and none better than the result, which is the
better of both chains. -/
theorem exchange_keeps_books (hsteady : e.IsSteady) {r : Replicas α β}
    {snapshots : List (Snapshot α β)}
    (h : e.replicaExchange config origin s = (.ok r, snapshots, s')) :
    r.first.Books e origin (e.scored config origin s).1 ∧
    r.second.Books e origin (e.scored config origin s).2 ∧
    Spent ((e.scored config origin s).1.length + (e.scored config origin s).2.length) s s' ∧
    r.first.proposals = config.iterations - r.swapsAttempted ∧
    r.second.proposals = config.iterations - r.swapsAttempted ∧
    r.swapsAttempted ≤ config.iterations ∧ r.swapsAccepted ≤ r.swapsAttempted ∧
    (r.first.temperature, r.second.temperature) =
      config.temperatures r.first.proposals r.swapsAccepted ∧
    snapshots.map (·.iteration) = (List.range' 1 config.iterations).filter (fun i =>
      0 < config.snapshotInterval && i % config.snapshotInterval == 0) ∧
    snapshots.Pairwise (fun earlier later => ¬earlier.bestEnergy < later.bestEnergy) ∧
    (∀ shot ∈ snapshots, e.Scores shot.bestGrammar shot.bestEnergy ∧
      origin.Sample shot.bestGrammar ∧ ¬shot.bestEnergy < r.leading.bestEnergy) ∧
    (r.leading = r.first ∨ r.leading = r.second) ∧
    ¬r.first.bestEnergy < r.leading.bestEnergy ∧ ¬r.second.bestEnergy < r.leading.bestEnergy := by
  rcases hrandom : e.randomReplicas config origin s with ⟨cause | q, t⟩
  · simp [replicaExchange, hrandom] at h
  simp only [replicaExchange, hrandom] at h
  obtain ⟨hstart, hspent⟩ := books_randomReplicas hsteady hrandom
  obtain ⟨hbooks, _, hspent', hrecorded⟩ := books_exchangeFrom hsteady hstart h
  have hscored : e.scored config origin s =
      (q.first.grammar :: (e.scoredFrom config config.iterations q t).1,
        q.second.grammar :: (e.scoredFrom config config.iterations q t).2) := by
    simp only [scored, hrandom]
  have hfirst := hbooks.firstMoves
  have hsecond := hbooks.secondMoves
  rw [hscored]
  refine ⟨hbooks.first, hbooks.second, ?_, by omega, by omega, by omega, hbooks.swaps,
    hbooks.temperatures, hrecorded.taken, hrecorded.falling, ?_, r.leading_spec⟩
  · have htotal := hspent.trans hspent'
    simp only [List.length_cons]
    convert htotal using 1
    omega
  · intro shot hshot
    obtain ⟨p, _, hp, heq, _, hlower⟩ := hrecorded.between shot hshot
    rw [heq]
    exact ⟨hp.leading.1, hp.leading.2, hlower.leading⟩

/-- A row of three pixels of which the first is to be drawn. -/
def row : Evaluator ℚ Score :=
  { overflowing with metric := ⟨3.0, 5.0, 128⟩ }

/-- Three iterations, a snapshot after every other one. -/
def threeIterations : ExchangeConfig Score where
  iterations := 3
  lowTemperature := 1.0
  highTemperature := 4.0
  swapProbability := 0.5
  coolingFactor := 2.0
  snapshotInterval := 2

/-- A run of one move of each chain and two attempts to exchange, of which one is accepted. -/
theorem exchange_keeps_books_strip : ∃ r snapshots s',
    row.replicaExchange threeIterations strip (.seeded 22) = (.ok r, snapshots, s') ∧
    r.swapsAttempted = 2 ∧ r.swapsAccepted = 1 ∧
    r.first.proposals = 1 ∧ r.second.proposals = 1 ∧
    r.first.temperature = threeIterations.cooled 1 4.0 ∧
    r.second.temperature = threeIterations.cooled 1 1.0 ∧
    snapshots.map (·.iteration) = [2] ∧
    row.Scores r.first.bestGrammar r.first.bestEnergy := by
  have hsteady : row.IsSteady := ⟨fun _ => rfl, .inl rfl⟩
  have hcounts : (row.replicaExchange threeIterations strip (.seeded 22)).1.toOption.map
      (fun r => (r.swapsAttempted, r.swapsAccepted)) = some (2, 1) := by
    decide +kernel
  rcases hrun : row.replicaExchange threeIterations strip (.seeded 22) with
    ⟨cause | r, snapshots, s'⟩
  · rw [hrun] at hcounts
    cases hcounts
  · simp only [hrun, Except.toOption, Option.map_some, Option.some.injEq, Prod.mk.injEq] at hcounts
    obtain ⟨hattempted, haccepted⟩ := hcounts
    obtain ⟨hfirst, _, _, hmoves₁, hmoves₂, _, _, htemperatures, htaken, _⟩ :=
      exchange_keeps_books hsteady hrun
    rw [hattempted] at hmoves₁ hmoves₂
    rw [hmoves₁, haccepted, Prod.mk.injEq] at htemperatures
    exact ⟨r, snapshots, s', rfl, hattempted, haccepted, hmoves₁, hmoves₂, htemperatures.1,
      htemperatures.2, htaken, hfirst.bestEnergy⟩

end Evaluator

end ShapeGrammar
