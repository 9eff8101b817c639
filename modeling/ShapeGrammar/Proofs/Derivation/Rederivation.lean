import ShapeGrammar.Grammar.Validity
import ShapeGrammar.Proofs.Derivation.Guided
import ShapeGrammar.Proofs.Derivation.Reading

/-!
# Deriving a guided building again

A guided derivation expands each node under the values of that moment; deriving the building again
from the grammar that guiding ended with expands all nodes under its last values. Both make the same
tree if no step dropped anything and each rule read the values that last. Main statements:
`rederives_of_lasting`, its case `rederives_of_closing` in which each step reads only what is fixed
by then, and a grammar of which a rule reads a choice before it is fixed.
-/
namespace ShapeGrammar

namespace Grammar

variable {α : Type} {g g' : Grammar α}

/-- Whether each rule names the choices that it reads: then they are fixed before it reads them. -/
def NamesChoices (g : Grammar α) : Prop :=
  ∀ name rule, g.rule? name = some rule →
    ∀ key ∈ rule.readAttributes, g.isRanged key = true → key ∈ rule.namedAttributes

theorem Snapshot.namesChoices (h : g.Snapshot g') (hnames : g.NamesChoices) :
    g'.NamesChoices := by
  intro name rule hrule key hkey hranged
  rw [h.rule?_eq] at hrule
  rw [h.isRanged_eq] at hranged
  exact hnames name rule hrule key hkey hranged

end Grammar

namespace Tree.Layered

variable {α : Type} {t : Tree α}

/-- No node lies deeper than its number. -/
theorem depth_le_id (h : t.Layered) {id : Nat} {n : Node α} (hn : t.node? id = some n) :
    n.depth ≤ id := by
  induction id using Nat.strongRecOn generalizing n with
  | ind id ih =>
    by_cases hzero : id = 0
    · obtain ⟨r, hr, hdepth⟩ := h.root
      rw [hzero, hr, Option.some.injEq] at hn
      rw [← hn, hdepth]
      exact Nat.zero_le id
    · obtain ⟨q, hlt, hc⟩ := h.exists_parent (Nat.pos_of_ne_zero hzero) (node?_lt_size hn)
      obtain ⟨m, hm⟩ := exists_node? (Nat.lt_trans hlt (node?_lt_size hn))
      rw [childrenOf_of_node? hm] at hc
      obtain ⟨k, hk, hdepth⟩ := h.depth_child q m hm id hc
      rw [hn, Option.some.injEq] at hk
      rw [hk, hdepth]
      exact Nat.lt_of_le_of_lt (ih q hlt hm) hlt

end Tree.Layered

namespace Derivation

variable {α : Type} [Elementary α]

/-! ## One expansion under two grammars -/

section Expansions

variable {d e : Derivation α} {id : Nat} {n : Node α}

omit [Elementary α] in
theorem size_grow (d : Derivation α) (id : Nat) (kids : List (Shape α × Status)) :
    (d.grow id kids).tree.size = d.tree.size + kids.length := by
  simp [grow]

/-- An expansion comes to the same under a grammar with the same rules whose values agree on what
the rule of the node reads. -/
theorem expand_congr (htree : e.tree = d.tree) (hqueue : e.queue.toList = d.queue.toList)
    (hrules : e.grammar.rules = d.grammar.rules) (hn : d.tree.node? id = some n)
    (hreads : ∀ rule, d.grammar.rule? n.shape.name = some rule →
      AgreeOn rule.readAttributes d.grammar.value? e.grammar.value?) (maxNodes : Nat) :
    (e.expand id maxNodes).1 = (d.expand id maxNodes).1 ∧
      (e.expand id maxNodes).2.tree = (d.expand id maxNodes).2.tree ∧
      (e.expand id maxNodes).2.queue.toList = (d.expand id maxNodes).2.queue.toList := by
  have hn' : e.tree.node? id = some n := htree ▸ hn
  have hrule : e.grammar.rule? n.shape.name = d.grammar.rule? n.shape.name := by
    rw [Grammar.rule?, Grammar.rule?, hrules]
  have hhas : e.grammar.hasRule = d.grammar.hasRule := by
    funext name
    rw [Grammar.hasRule, Grammar.hasRule, hrules]
  cases hr : d.grammar.rule? n.shape.name with
  | none =>
    rw [hr] at hrule
    simp only [expand, hn, hr, hrule, htree, hqueue, and_self]
  | some rule =>
    rw [hr] at hrule
    have hops : Growth.ofOperators e.grammar.value? (maxNodes - e.tree.size) rule.operators
        n.shape = Growth.ofOperators d.grammar.value? (maxNodes - d.tree.size) rule.operators
          n.shape := by
      rw [htree]
      exact (Growth.ofOperators_congr (hreads rule hr) _ _).symm
    simp only [expand, hn, hn', hr, hrule, hops]
    split
    · simp only [htree, hqueue, and_self]
    · simp only [grow, hhas, htree, hqueue, Queue.toList_append, and_self]

/-- An expansion that comes to no more with more room made all children. With room for them it comes
to the same, and says so. -/
theorem expand_eq_of_fits (hn : d.tree.node? id = some n) {maxNodes room : Nat}
    (hok : ∃ made, (d.expand id maxNodes).1 = .ok made)
    (hfits : ∀ more, maxNodes ≤ more → (d.expand id more).2 = (d.expand id maxNodes).2)
    (hroom : (d.expand id maxNodes).2.tree.size ≤ room) :
    (d.expand id room).2 = (d.expand id maxNodes).2 ∧
      ((d.expand id room).1 = .ok .terminal ∨ (d.expand id room).1 = .ok .expanded) := by
  rcases expand_uniform hn with ⟨result, d', hresult, he⟩ | ⟨all, he⟩
  · obtain ⟨made, hmade⟩ := hok
    rw [he] at hmade
    have hmade : result = .ok made := hmade
    rw [he, he]
    refine ⟨rfl, ?_⟩
    subst hmade
    cases made with
    | terminal => exact .inl rfl
    | expanded => exact .inr rfl
    | clipped => exact absurd rfl hresult
  · have hsize (k : Nat) : (d.expand id k).2.tree.size =
        d.tree.size + (all.take (k - d.tree.size)).length := by
      rw [he, size_grow]
    have hall : all.length ≤ maxNodes - d.tree.size := by
      have hmore := hsize (maxNodes + d.tree.size + all.length)
      rw [hfits _ (by omega), hsize] at hmore
      simp only [List.length_take] at hmore
      omega
    rw [hsize, List.length_take] at hroom
    have hlast : all.length ≤ room - d.tree.size := by omega
    refine ⟨?_, .inr ?_⟩
    · rw [he, he, List.take_of_length_le hall, List.take_of_length_le hlast]
    · rw [he, if_neg (by omega)]

end Expansions

/-! ## Guided steps that last -/

/-- The attributes that the rule of the front node reads. -/
def frontReads (d : Derivation α) : List String :=
  match d.pop? with
  | none => []
  | some (id, _) =>
    match (d.tree.node? id).bind fun n => d.grammar.rule? n.shape.name with
    | some rule => rule.readAttributes
    | none => []

/-- Whether a guided step drops no successor for lack of room: with more room it comes to the
same. -/
def Fits (d : Derivation α) (action maxNodes : Nat) : Prop :=
  ∀ more, maxNodes ≤ more → d.applyAction action more = d.applyAction action maxNodes

/-- A guided step that another grammar would make too: it does not fail, drops nothing, and what its
rule reads has, once the choices are fixed, the values of that grammar. -/
structure Lasting (final : Grammar α) (d : Derivation α) (action maxNodes : Nat) : Prop where
  succeeds : ∃ found, (d.applyAction action maxNodes).1 = .ok found
  fits : d.Fits action maxNodes
  reads : AgreeOn d.frontReads (d.applyAction action maxNodes).2.grammar.value? final.value?

omit [Elementary α] in
theorem frontReads_eq {d popped : Derivation α} {id : Nat} {n : Node α} {rule : Rule α}
    (hd : d.pop? = some (id, popped)) (hn : d.tree.node? id = some n)
    (hrule : d.grammar.rule? n.shape.name = some rule) : d.frontReads = rule.readAttributes := by
  simp only [frontReads, hd, hn, Option.bind_some, hrule]

omit [Elementary α] in
/-- What is read at the front is read by the rule of the front node. -/
theorem exists_rule_of_mem_frontReads {d : Derivation α} {key : String}
    (hkey : key ∈ d.frontReads) : ∃ id popped n rule, d.pop? = some (id, popped) ∧
      d.tree.node? id = some n ∧ d.grammar.rule? n.shape.name = some rule ∧
      key ∈ rule.readAttributes := by
  unfold frontReads at hkey
  split at hkey
  · cases hkey
  next id popped hd =>
    split at hkey
    next rule hrule =>
      obtain ⟨n, hn, hrule⟩ := Option.bind_eq_some_iff.mp hrule
      exact ⟨id, popped, n, rule, hd, hn, hrule, hkey⟩
    · cases hkey

/-- What a lasting step makes of the front node, the grammar it lasts in makes of it too. -/
theorem Lasting.expand_eq {final : Grammar α} {d popped popped' : Derivation α}
    {action maxNodes id : Nat} {n : Node α} (h : Lasting final d action maxNodes)
    (hrules : d.grammar.rules = final.rules) (hd : d.pop? = some (id, popped))
    (hn : d.tree.node? id = some n) (hstep : ∀ maxNodes, d.applyAction action maxNodes =
      (((popped.fixChoices n.shape.name action).expand id maxNodes).1.map fun _ => true,
        ((popped.fixChoices n.shape.name action).expand id maxNodes).2))
    (htree' : popped'.tree = d.tree) (hgrammar' : popped'.grammar = final)
    (hwaiting' : popped'.queue.toList = popped.queue.toList) {room : Nat}
    (hroom : (d.applyAction action maxNodes).2.tree.size ≤ room) :
    ((popped'.expand id room).1 = .ok .terminal ∨ (popped'.expand id room).1 = .ok .expanded) ∧
      (popped'.expand id room).2.tree = (d.applyAction action maxNodes).2.tree ∧
      (popped'.expand id room).2.queue.toList =
        (d.applyAction action maxNodes).2.queue.toList := by
  obtain ⟨htree, hgrammar, _⟩ := pop?_eq_some hd
  let fixed := popped.fixChoices n.shape.name action
  have hmade : (d.applyAction action maxNodes).2 = (fixed.expand id maxNodes).2 := by rw [hstep]
  have hnode : fixed.tree.node? id = some n := htree ▸ hn
  have hsame : popped'.grammar.rules = fixed.grammar.rules := by
    rw [hgrammar', ← hrules, ← hgrammar]
    exact (ActionSpace.snapshot_commit popped.grammar n.shape.name action).rules.symm
  have hreads : ∀ rule, fixed.grammar.rule? n.shape.name = some rule →
      AgreeOn rule.readAttributes fixed.grammar.value? popped'.grammar.value? := by
    intro rule hrule
    have hfront : d.frontReads = rule.readAttributes := by
      refine frontReads_eq hd hn ?_
      rw [Grammar.rule?, hrules, ← hgrammar', hsame]
      exact hrule
    have hreads := h.reads
    rwa [hfront, hmade, grammar_expand, ← hgrammar'] at hreads
  have hsucceeds : ∃ made, (fixed.expand id maxNodes).1 = .ok made := by
    obtain ⟨found, hfound⟩ := h.succeeds
    rw [hstep] at hfound
    rcases hx : (fixed.expand id maxNodes).1 with cause | made
    · simp [fixed, hx, Except.map] at hfound
    · exact ⟨made, rfl⟩
  have hfits : ∀ more, maxNodes ≤ more →
      (fixed.expand id more).2 = (fixed.expand id maxNodes).2 := by
    intro more hle
    have hmore := h.fits more hle
    rw [hstep, hstep, Prod.mk.injEq] at hmore
    exact hmore.2
  obtain ⟨hfixed, hresult⟩ := expand_eq_of_fits hnode hsucceeds hfits (hmade ▸ hroom)
  obtain ⟨hresult', htree'', hqueue''⟩ := expand_congr (d := fixed) (htree'.trans htree.symm)
    hwaiting' hsame hnode hreads room
  rw [hresult', htree'', hqueue'', hfixed, hmade]
  exact ⟨hresult, rfl, rfl⟩

/-- How deriving again stands beside guiding: the trees and queues are the same, and the run has
passed over nothing and is far from its limits. -/
structure Replays (final : Grammar α) (done : Progress) (d e : Derivation α) : Prop where
  canonical : d.Canonical []
  tree : e.tree = d.tree
  queue : e.queue.toList = d.queue.toList
  grammar : e.grammar = final
  rules : d.grammar.rules = final.rules
  tooDeep : done.tooDeep = []
  expansions : done.expansions + e.potential Limits.unbounded.maxNodes ≤ Limits.unbounded.maxNodes

theorem expansions_of_turn_eq_next {limits : Limits} {d d' : Derivation α} {done done' : Progress}
    (h : turn limits d done = .next done' d') : done'.expansions ≤ done.expansions + 1 := by
  unfold turn at h
  split at h
  · cases h
  · split at h
    · cases h
    · split at h
      · cases h
        omega
      · split at h
        · cases h
          omega
        · split at h
          · cases h
            simp
          · unfold Turn.ofExpansion at h
            split at h <;> cases h <;> simp

namespace Replays

variable {final : Grammar α} {done : Progress} {d e : Derivation α}

omit [Elementary α] in
theorem start (shape : Shape α) {g final : Grammar α} (hrules : g.rules = final.rules) :
    Replays final {} (.start shape g) (.start shape final) where
  canonical := .start shape g
  tree := rfl
  queue := rfl
  grammar := rfl
  rules := hrules
  tooDeep := rfl
  expansions := by
    show 0 + ((4294967295 - 1) + 1) ≤ 4294967295
    decide

omit [Elementary α] in
theorem pop? (h : Replays final done d e) {id : Nat} {popped : Derivation α}
    (hd : d.pop? = some (id, popped)) : ∃ popped', e.pop? = some (id, popped') ∧
      popped'.tree = d.tree ∧ popped'.grammar = final ∧
      popped'.queue.toList = popped.queue.toList := by
  have hwaiting := (pop?_eq_some hd).2.2
  rw [← h.queue] at hwaiting
  cases he : e.pop? with
  | none =>
    rw [pop?_eq_none_iff.mp he] at hwaiting
    cases hwaiting
  | some taken =>
    obtain ⟨id', popped'⟩ := taken
    obtain ⟨htree, hgrammar, hwaiting'⟩ := pop?_eq_some he
    rw [hwaiting', List.cons.injEq] at hwaiting
    exact ⟨popped', by rw [hwaiting.1], htree.trans h.tree, hgrammar.trans h.grammar, hwaiting.2⟩

/-- Before a step that leaves the tree small enough no limit stops the run. -/
theorem turn_eq (h : Replays final done d e) {id : Nat} {popped' : Derivation α} {n : Node α}
    (he : e.pop? = some (id, popped')) (hn : d.tree.node? id = some n)
    (hp : n.status = .pending) (hsize : d.tree.size < Limits.unbounded.maxNodes) :
    turn .unbounded e done =
      .ofExpansion done (popped'.expand id Limits.unbounded.maxNodes) := by
  have hn' : popped'.tree.node? id = some n := by rw [(pop?_eq_some he).1, h.tree, hn]
  have hbudget : e.budgetReached? .unbounded done.expansions = none := by
    have hexpansions := h.expansions
    have hlarge : Limits.unbounded.maxNodes < Limits.unbounded.maxSteps := by decide
    have hsteps : ¬ Limits.unbounded.maxSteps ≤ done.expansions := by omega
    have hnodes : ¬ Limits.unbounded.maxNodes ≤ e.tree.size := by
      rw [h.tree]
      omega
    rw [budgetReached?, if_neg hsteps, if_neg hnodes]
    rfl
  have hvisited : ¬ n.isVisited = true := by simp [Node.isVisited, hp]
  have hdepth : ¬ Limits.unbounded.maxDepth < n.depth := by
    have hle := h.canonical.layered.depth_le_id hn
    have hlt := Tree.node?_lt_size hn
    have hsame : Limits.unbounded.maxDepth = Limits.unbounded.maxNodes := rfl
    omega
  simp only [turn, he, hbudget, hn', if_neg hvisited, if_neg hdepth]

/-- One guided step is one turn. -/
theorem step (h : Replays final done d e) {action maxNodes : Nat}
    (hlasting : Lasting final d action maxNodes) (hqueue : d.queue.toList ≠ [])
    (hsize : (d.applyAction action maxNodes).2.tree.size < Limits.unbounded.maxNodes) :
    ∃ done' e', turn .unbounded e done = .next done' e' ∧
      Replays final done' (d.applyAction action maxNodes).2 e' := by
  obtain ⟨id, popped, n, hd, hn, hp, hstep⟩ :=
    (h.canonical.applyAction_cases action).resolve_left fun hnone => hqueue hnone.1
  obtain ⟨popped', he, htree, hgrammar, hwaiting⟩ := h.pop? hd
  rw [(pop?_eq_some hd).1] at hn
  have hextends := (h.canonical.applyAction_extends action maxNodes).size_le
  have hturn := h.turn_eq he hn hp (Nat.lt_of_le_of_lt hextends hsize)
  obtain ⟨hresult, hsametree, hsamequeue⟩ :=
    hlasting.expand_eq h.rules hd hn hstep htree hgrammar hwaiting (Nat.le_of_lt hsize)
  obtain ⟨done', hnext, htooDeep⟩ : ∃ done', turn .unbounded e done =
      .next done' (popped'.expand id Limits.unbounded.maxNodes).2 ∧ done'.tooDeep = [] := by
    rw [hturn]
    rcases hx : popped'.expand id Limits.unbounded.maxNodes with ⟨result, e'⟩
    rw [hx] at hresult
    rcases hresult with rfl | rfl
    · exact ⟨done, rfl, h.tooDeep⟩
    · exact ⟨_, rfl, h.tooDeep⟩
  refine ⟨done', _, hnext, {
    canonical := h.canonical.applyAction action maxNodes
    tree := hsametree
    queue := hsamequeue
    grammar := (grammar_expand _ _ _).trans hgrammar
    rules := (h.canonical.snapshot_applyAction action maxNodes).rules.trans h.rules
    tooDeep := htooDeep
    expansions := ?_ }⟩
  have hmore := expansions_of_turn_eq_next hnext
  have hless := potential_turn_lt hnext
  have hbefore := h.expansions
  omega

/-- As many turns as there are guided steps, and the run ends where guiding ends. -/
theorem runFrom (h : Replays final done d e) {steps : List (Nat × Nat)}
    (hlasting : d.Throughout (Lasting final) steps)
    (hdrained : (d.guide steps).queue.toList = [])
    (hsize : (d.guide steps).tree.size < Limits.unbounded.maxNodes) :
    ∃ done' e', Derivation.runFrom .unbounded e done = (.ok .completed, done', e') ∧
      e'.tree = (d.guide steps).tree := by
  induction steps generalizing d e done with
  | nil =>
    have hturn : turn .unbounded e done = .stop (.ok .completed) done e := by
      rw [guide_nil, ← h.queue] at hdrained
      simp only [turn, pop?_eq_none_iff.mpr hdrained, drained, h.tooDeep]
      rfl
    exact ⟨done, e, runFrom_of_stop hturn, h.tree⟩
  | cons head rest ih =>
    obtain ⟨hhead, hrest⟩ := hlasting
    by_cases hqueue : d.queue.toList = []
    · have hstays := Canonical.applyAction_of_queue_eq_nil hqueue head.1 head.2
      rw [hstays] at hrest
      rw [guide_cons, hstays] at hdrained hsize ⊢
      exact ih h hrest hdrained hsize
    · have hgrows := ((h.canonical.applyAction head.1 head.2).guide_extends rest).size_le
      obtain ⟨done', e', hnext, h'⟩ := h.step hhead hqueue (Nat.lt_of_le_of_lt hgrows hsize)
      rw [runFrom_of_next hnext]
      exact ih h' hrest hdrained hsize

/-- Steps that last under the grammar they end with are all made again by one derivation from it. -/
theorem complete (shape : Shape α) (g : Grammar α) {steps : List (Nat × Nat)}
    (hlasting : (Derivation.start shape g).Throughout
      (Lasting ((Derivation.start shape g).guide steps).grammar) steps)
    (hdrained : ((Derivation.start shape g).guide steps).isComplete = true)
    (hsize : ((Derivation.start shape g).guide steps).tree.size < Limits.unbounded.maxNodes) :
    let built := (Derivation.start shape g).guide steps
    ∃ outcome, ((Derivation.start shape built.grammar).complete .unbounded).1 = .ok outcome ∧
      outcome.stop = .completed ∧
      ((Derivation.start shape built.grammar).complete .unbounded).2.tree = built.tree := by
  intro built
  have hrules : g.rules = built.grammar.rules :=
    ((Canonical.start shape g).snapshot_guide steps).rules.symm
  obtain ⟨done, e, hrun, htree⟩ :=
    (Replays.start shape hrules).runFrom hlasting (Queue.isEmpty_iff.mp hdrained) hsize
  simp only [Derivation.complete, hrun]
  exact ⟨_, rfl, rfl, htree⟩

end Replays

/-- Whatever grammar guided steps end with: if they drained the queue, none of them failed or
dropped anything, and each rule was applied under values that the grammar still has, then deriving
everything again from that grammar succeeds and makes the same tree, as long as that has fewer nodes
than an unbounded run may make. -/
theorem rederives_of_lasting (shape : Shape α) (g : Grammar α) (steps : List (Nat × Nat))
    {built : Derivation α}
    (hbuilt : (start shape g).guide steps = built)
    (hlasting : (start shape g).Throughout (Lasting built.grammar) steps)
    (hdrained : built.isComplete = true)
    (hsize : built.tree.size < Limits.unbounded.maxNodes) :
    ∃ outcome, ((start shape built.grammar).complete .unbounded).1 = .ok outcome ∧
      outcome.stop = .completed ∧
      ((start shape built.grammar).complete .unbounded).2.tree = built.tree := by
  subst hbuilt
  exact Replays.complete shape g hlasting hdrained hsize

/-! ## Rules that read only what is closed -/

section Closed

variable {d : Derivation α} {action maxNodes : Nat}

/-- A guided step that does not fail, drops nothing and reads only what is closed by then. -/
structure Closing (d : Derivation α) (action maxNodes : Nat) : Prop where
  succeeds : ∃ found, (d.applyAction action maxNodes).1 = .ok found
  fits : d.Fits action maxNodes
  closed : ∀ key ∈ d.frontReads, (d.applyAction action maxNodes).2.grammar.isFree key = false

/-- Such steps last, as no later one changes what they read. -/
theorem throughout_lasting (h : d.Canonical []) {steps : List (Nat × Nat)}
    (hsteps : d.Throughout Closing steps) :
    d.Throughout (Lasting (d.guide steps).grammar) steps := by
  induction steps generalizing d with
  | nil => trivial
  | cons head rest ih =>
    obtain ⟨hhead, hrest⟩ := hsteps
    have hafter := h.applyAction head.1 head.2
    refine ⟨⟨hhead.succeeds, hhead.fits, fun key hkey => ?_⟩, ih hafter hrest⟩
    rw [guide_cons, Grammar.value?, Grammar.value?,
      hafter.attribute?_guide_of_closed (hhead.closed key hkey) rest]

/-- A building is derived again from the grammar that guiding ended with if no guided step failed or
dropped anything and each read constants and choices that were fixed by then, nothing else. Nothing
is asked of the last grammar. -/
theorem rederives_of_closing (shape : Shape α) {g : Grammar α} {steps : List (Nat × Nat)}
    (hsteps : (start shape g).Throughout Closing steps) {built : Derivation α}
    (hbuilt : (start shape g).guide steps = built) (hdrained : built.isComplete = true)
    (hsize : built.tree.size < Limits.unbounded.maxNodes) :
    ∃ outcome, ((start shape built.grammar).complete .unbounded).1 = .ok outcome ∧
      outcome.stop = .completed ∧
      ((start shape built.grammar).complete .unbounded).2.tree = built.tree := by
  subst hbuilt
  exact Replays.complete shape g (throughout_lasting (.start shape g) hsteps) hdrained hsize

/-- If rules name what they choose, a step closes what it reads. -/
theorem closed_of_namesChoices (h : d.Canonical []) (hnames : d.grammar.NamesChoices) :
    ∀ key ∈ d.frontReads, (d.applyAction action maxNodes).2.grammar.isFree key = false := by
  intro key hkey
  obtain ⟨id, popped, n, rule, hd, hn, hrule, hread⟩ := exists_rule_of_mem_frontReads hkey
  by_cases hranged : d.grammar.isRanged key = true
  · have hnamed := hnames n.shape.name rule hrule key hread hranged
    rw [h.grammar_applyAction hd hn]
    exact ActionSpace.isFree_commit_of_named hrule hnamed action
  · rw [← (h.snapshot_applyAction action maxNodes).isRanged_eq, Grammar.isRanged_iff] at hranged
    rw [← Bool.not_eq_true, Grammar.isFree_iff]
    rintro ⟨a, ha, hopen⟩
    exact hranged ⟨a, ha, (Bool.and_eq_true_iff.mp hopen).1⟩

theorem throughout_closing (h : d.Canonical []) (hnames : d.grammar.NamesChoices)
    {steps : List (Nat × Nat)} (hsteps : d.Throughout (fun d action maxNodes =>
      (∃ found, (d.applyAction action maxNodes).1 = .ok found) ∧ d.Fits action maxNodes) steps) :
    d.Throughout Closing steps := by
  induction steps generalizing d with
  | nil => trivial
  | cons head rest ih =>
    obtain ⟨⟨hsucceeds, hfits⟩, hrest⟩ := hsteps
    have hnext := (h.snapshot_applyAction head.1 head.2).namesChoices hnames
    exact ⟨⟨hsucceeds, hfits, closed_of_namesChoices h hnames⟩,
      ih (h.applyAction head.1 head.2) hnext hrest⟩

end Closed

/-- If the rules of a grammar name each choice that they read, every building that is guided to its
end without failing or dropping anything is derived again from the grammar that guiding ended
with. -/
theorem rederives_of_namesChoices (shape : Shape α) {g : Grammar α} (hnames : g.NamesChoices)
    {steps : List (Nat × Nat)} (hsteps : (start shape g).Throughout (fun d action maxNodes =>
      (∃ found, (d.applyAction action maxNodes).1 = .ok found) ∧ d.Fits action maxNodes) steps)
    {built : Derivation α} (hbuilt : (start shape g).guide steps = built)
    (hdrained : built.isComplete = true) (hsize : built.tree.size < Limits.unbounded.maxNodes) :
    ∃ outcome, ((start shape built.grammar).complete .unbounded).1 = .ok outcome ∧
      outcome.stop = .completed ∧
      ((start shape built.grammar).complete .unbounded).2.tree = built.tree :=
  rederives_of_closing shape (throughout_closing (.start shape g) hnames hsteps) hbuilt hdrained
    hsize

/-- A tower that decides its height first and builds its roof by it. -/
def tower : Grammar Float32 where
  attributes := ⟨[("height", .choice "height" 1.0 10.0)], by decide⟩
  rules := ⟨[
    ("Roof", ⟨"Roof",
      [.extrude ⟨"height / 2", .binary .div (.attribute "height") (.number 2.0)⟩]⟩),
    ("Start", ⟨"Start", [.extrude ⟨"height", .attribute "height"⟩, .copy "Roof"]⟩)], by decide⟩

theorem Fits.of_add {d : Derivation Float32} {action maxNodes : Nat}
    (h : ∀ k, d.applyAction action (k + maxNodes) = d.applyAction action maxNodes) :
    d.Fits action maxNodes := by
  intro more hle
  obtain ⟨k, rfl⟩ := Nat.exists_eq_add_of_le' hle
  exact h k

/-- The tower comes out the same. -/
theorem rederives_tower : ∃ built outcome,
    (start Shape.start tower).guide [(4, 4), (0, 4)] = built ∧
    ((start Shape.start built.grammar).complete .unbounded).1 = .ok outcome ∧
    outcome.stop = .completed ∧
    ((start Shape.start built.grammar).complete .unbounded).2.tree = built.tree := by
  have hclosed (d : Derivation Float32) (h : d.grammar.isFree "height" = false) :
      ∀ key ∈ ["height"], d.grammar.isFree key = false := by
    intro key hkey
    rw [List.mem_singleton.mp hkey]
    exact h
  have hsteps : (start Shape.start tower).Throughout Closing [(4, 4), (0, 4)] :=
    ⟨⟨⟨true, rfl⟩, .of_add fun _ => rfl, hclosed _ rfl⟩,
      ⟨⟨true, rfl⟩, .of_add fun _ => rfl, hclosed _ rfl⟩, trivial⟩
  have hlasting := throughout_lasting (.start Shape.start tower) hsteps
  obtain ⟨outcome, hrederives⟩ :=
    rederives_of_lasting Shape.start tower [(4, 4), (0, 4)] rfl hlasting rfl (by decide)
  exact ⟨_, outcome, rfl, hrederives⟩

/-- A slab that takes its length from a width which its body decides only afterwards. -/
def slab : Grammar Float32 where
  attributes := ⟨[("width", .choice "width" 1.0 10.0)], by decide⟩
  rules := ⟨[("Body", ⟨"Body", [.extrude ⟨"width", .attribute "width"⟩]⟩),
    ("Start", ⟨"Start", [
      .resize ⟨⟨"width * 2", .binary .mul (.attribute "width") (.number 2.0)⟩,
        ⟨"1", .number 1.0⟩, ⟨"0", .number 0.0⟩⟩,
      .copy "Body"]⟩)], by decide⟩

/-- The slab comes out ten times as long, though no step failed or dropped anything. -/
theorem slab_rederived_differs : ∃ built,
    (start Shape.start slab).guide [(0, 4), (9, 4)] = built ∧ slab.validate = .ok () ∧
    (start Shape.start slab).Throughout (fun d action maxNodes => action < d.actionCount ∧
      (d.applyAction action maxNodes).1 = .ok true ∧ d.Fits action maxNodes) [(0, 4), (9, 4)] ∧
    built.isComplete = true ∧
    ((start Shape.start built.grammar).complete .unbounded).2.tree ≠ built.tree := by
  let isLong (t : Tree Float32) : Bool := (t.node? 1).any (·.shape.size.x == 20.0)
  refine ⟨_, rfl, rfl, ⟨⟨by decide, rfl, .of_add fun _ => rfl⟩,
    ⟨by decide, rfl, .of_add fun _ => rfl⟩, trivial⟩, rfl, fun hsame => ?_⟩
  have hguided : isLong ((start Shape.start slab).guide [(0, 4), (9, 4)]).tree = false := rfl
  obtain ⟨d, e, hfirst, hsecond, hend, hlong⟩ : ∃ d e : Derivation Float32,
      turn .unbounded (start Shape.start
        ((start Shape.start slab).guide [(0, 4), (9, 4)]).grammar) {} =
          .next { expansions := 1 } d ∧
      turn .unbounded d { expansions := 1 } = .next { expansions := 2 } e ∧
      turn .unbounded e { expansions := 2 } = .stop (.ok .completed) { expansions := 2 } e ∧
      isLong e.tree = true := ⟨_, _, rfl, rfl, rfl, rfl⟩
  rw [← hsame, complete, runFrom_of_next hfirst, runFrom_of_next hsecond, runFrom_of_stop hend,
    hlong] at hguided
  cases hguided

end Derivation

end ShapeGrammar
