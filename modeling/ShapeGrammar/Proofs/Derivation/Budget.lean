import ShapeGrammar.Proofs.Derivation.Canonical
import ShapeGrammar.Proofs.Operator.Emission

/-!
# Limits cut a derivation off

A run under smaller limits leaves a part of the tree that a run under larger limits leaves: the
nodes are the same as far as they go, and what was settled stays as it is. Both runs take the same
turns until the smaller limits bind; from then on the first tree is final and the second only grows.
Main statement: `complete_extends`.
-/
namespace ShapeGrammar

namespace Limits

/-- Limits none of which is larger. The time is not compared. -/
structure Within (small large : Limits) : Prop where
  steps : small.maxSteps ≤ large.maxSteps
  depth : small.maxDepth ≤ large.maxDepth
  nodes : small.maxNodes ≤ large.maxNodes

end Limits

namespace Tree

variable {α : Type} {t u v : Tree α}

/-- A tree that goes on where another one ends: nodes keep their shapes and depths, get children
behind those they have, and stay as they are once they are dealt with. -/
def Extends (t u : Tree α) : Prop :=
  ∀ id n, t.node? id = some n → ∃ m, u.node? id = some m ∧ m.shape = n.shape ∧
    m.depth = n.depth ∧ n.children <+: m.children ∧ (n.status ≠ .pending → m.status = n.status)

theorem Extends.refl (t : Tree α) : Extends t t :=
  fun _ n hn => ⟨n, hn, rfl, rfl, List.prefix_refl _, fun _ => rfl⟩

theorem Extends.trans (htu : Extends t u) (huv : Extends u v) : Extends t v := by
  intro id n hn
  obtain ⟨m, hm, hshape, hdepth, hchildren, hstatus⟩ := htu id n hn
  obtain ⟨k, hk, hshape', hdepth', hchildren', hstatus'⟩ := huv id m hm
  refine ⟨k, hk, hshape'.trans hshape, hdepth'.trans hdepth, hchildren.trans hchildren', ?_⟩
  intro hn
  have hmn := hstatus hn
  rw [hstatus' (hmn ▸ hn), hmn]

/-- A waiting node is dealt with. -/
theorem extends_setStatus {id : Nat} {n : Node α} (hn : t.node? id = some n)
    (hp : n.status = .pending) (status : Status) : Extends t (t.setStatus id status) := by
  intro j m hm
  refine ⟨_, node?_setStatus_eq_some.mpr ⟨m, hm, rfl⟩, rfl, rfl, List.prefix_refl _, ?_⟩
  intro hstatus
  by_cases hj : j = id
  · rw [hj, hn, Option.some.injEq] at hm
    exact absurd (hm ▸ hp) hstatus
  · simp only [hj, if_false]

theorem extends_attach (t : Tree α) (id : Nat) (kids : List (Shape α × Status)) :
    Extends t (t.attach id kids) :=
  fun _ _ hn => ⟨_, node?_attach_old kids id hn, rfl, rfl, List.prefix_append _ _, fun _ => rfl⟩

/-- More children behind the same ones. -/
theorem attach_extends_attach {id : Nat} {n : Node α} (hn : t.node? id = some n)
    {kids kids' : List (Shape α × Status)} (h : kids <+: kids') :
    Extends (t.attach id kids) (t.attach id kids') := by
  obtain ⟨more, rfl⟩ := h
  intro j m hm
  rcases node?_attach_cases kids hn hm with ⟨x, hx, rfl⟩ | ⟨k, hk, rfl, rfl⟩
  · refine ⟨_, node?_attach_old (kids ++ more) id hx, rfl, rfl, ?_, fun _ => rfl⟩
    by_cases hj : j = id
    · simp only [hj, if_true, List.length_append, ← List.range'_append_1, ← List.append_assoc]
      exact List.prefix_append _ _
    · simp only [hj, if_false]
      exact List.prefix_refl _
  · have hk' : k < (kids ++ more).length := by
      rw [List.length_append]
      omega
    have hkid : (kids ++ more)[k] = kids[k] := List.getElem_append_left hk
    refine ⟨_, node?_attach_new (kids ++ more) hn hk', ?_⟩
    rw [hkid]
    exact ⟨rfl, rfl, List.prefix_refl _, fun _ => rfl⟩

end Tree

/-! ## Expanding with less room and with more -/

namespace Growth

variable {α : Type} [Elementary α]

/-- All that the operators of a rule make of a shape if no limit is set: the successors of the
operator that takes it apart, or else the shape that is left. -/
def unlimited (values : String → Option α) :
    List (Operator α) → Shape α → Except (EvalError α) (List (Shape α))
  | [], shape => .ok [shape]
  | op :: rest, shape =>
    match op.apply values shape with
    | .error cause => .error cause
    | .ok ⟨_, some next⟩ => unlimited values rest next
    | .ok ⟨emitted, none⟩ => .ok emitted

/-- What the operators of a rule come to does not depend on the room: they fail, or they make some
children, of which the tree gets as many as there is room for. -/
theorem ofOperators_room (values : String → Option α) (hasRule : String → Bool)
    (ops : List (Operator α)) (shape : Shape α) :
    (∃ cause, unlimited values ops shape = .error cause ∧
      ∀ room, ofOperators values room ops shape = .error cause) ∨
    ∃ all : List (Shape α × Status), unlimited values ops shape = .ok (all.map Prod.fst) ∧
      ∀ room, ∃ growth, ofOperators values room ops shape = .ok growth ∧
        growth.children hasRule = all.take room ∧
        growth.clipped = decide (room < all.length) := by
  induction ops generalizing shape with
  | nil =>
    refine .inr ⟨[(shape, .terminal)], rfl, fun room => ?_⟩
    cases room with
    | zero => exact ⟨_, rfl, rfl, rfl⟩
    | succ room => exact ⟨_, rfl, by simp [children], by simp⟩
  | cons op rest ih =>
    simp only [unlimited, ofOperators, Operator.applyWithin_eq_map]
    rcases op.apply values shape with cause | ⟨emitted, _ | next⟩
    · exact .inl ⟨cause, rfl, fun _ => rfl⟩
    · refine .inr ⟨emitted.map fun s => (s, if hasRule s.name then .pending else .terminal),
        by simp [Function.comp_def], fun room => ⟨_, rfl, ?_, ?_⟩⟩
      · simp [children, List.take_take, ← List.map_take]
      · simp only [List.length_take, List.length_map, decide_eq_decide]
        omega
    · exact ih next

end Growth

namespace Derivation

variable {α : Type}

theorem budgetReached?_eq_none {limits limits' : Limits} {d : Derivation α} {expansions : Nat}
    (hle : limits.Within limits') (htime : limits'.maxMillis = none)
    (h : d.budgetReached? limits expansions = none) :
    d.budgetReached? limits' expansions = none := by
  have hsteps := hle.steps
  have hnodes := hle.nodes
  unfold budgetReached? at h ⊢
  split at h
  · cases h
  · split at h
    · cases h
    · rw [if_neg (by omega), if_neg (by omega), if_neg (by simp [htime])]

/-- The derivation that a turn leaves. -/
def Turn.derivation : Turn α → Derivation α
  | .stop _ _ d => d
  | .next _ d => d

@[simp] theorem Turn.derivation_ofExpansion (done : Progress)
    (made : Except (EvalError α) Expansion × Derivation α) :
    (ofExpansion done made).derivation = made.2 := by
  obtain ⟨cause | ⟨_ | _ | _⟩, d⟩ := made <;> rfl

theorem grow_extends {d : Derivation α} {id : Nat} {n : Node α} (hn : d.tree.node? id = some n)
    (hp : n.status = .pending) (kids : List (Shape α × Status)) :
    d.tree.Extends (d.grow id kids).tree :=
  (Tree.extends_setStatus hn hp .expanded).trans (Tree.extends_attach _ id kids)

/-- Growing by more children goes on where growing by fewer ends. -/
theorem grow_extends_grow {d : Derivation α} {id : Nat} {n : Node α}
    (hn : d.tree.node? id = some n) {kids kids' : List (Shape α × Status)} (h : kids <+: kids') :
    (d.grow id kids).tree.Extends (d.grow id kids').tree :=
  Tree.attach_extends_attach (Tree.node?_setStatus_eq_some.mpr ⟨n, hn, rfl⟩) h

variable [Elementary α]

theorem expand_extends {d : Derivation α} {id : Nat} {n : Node α} (hn : d.tree.node? id = some n)
    (hp : n.status = .pending) (maxNodes : Nat) :
    d.tree.Extends (d.expand id maxNodes).2.tree := by
  rcases expand_cases maxNodes hn with ⟨_, he⟩ | ⟨_, _, ⟨_, _, he⟩ | ⟨growth, _, he⟩⟩
  · rw [he]
    exact Tree.extends_setStatus hn hp _
  · rw [he]
    exact Tree.extends_setStatus hn hp _
  · rw [he]
    exact grow_extends hn hp _

/-- What an expansion comes to under every limit: the node has no rule, its rule fails, or the rule
makes some children, of which the tree gets as many as there is room for. -/
theorem expand_alternatives {d : Derivation α} {id : Nat} {n : Node α}
    (hn : d.tree.node? id = some n) :
    (d.grammar.rule? n.shape.name = none ∧ ∀ maxNodes,
      d.expand id maxNodes = (.ok .terminal, { d with tree := d.tree.setStatus id .terminal })) ∨
    ∃ rule, d.grammar.rule? n.shape.name = some rule ∧
      ((∃ cause, Growth.unlimited d.grammar.value? rule.operators n.shape = .error cause ∧
        ∀ maxNodes, d.expand id maxNodes =
          (.error cause, { d with tree := d.tree.setStatus id .expanded })) ∨
      ∃ all : List (Shape α × Status),
        Growth.unlimited d.grammar.value? rule.operators n.shape = .ok (all.map Prod.fst) ∧
        ∀ maxNodes, d.expand id maxNodes =
          (.ok (if maxNodes - d.tree.size < all.length then .clipped else .expanded),
            d.grow id (all.take (maxNodes - d.tree.size)))) := by
  cases hr : d.grammar.rule? n.shape.name with
  | none => exact .inl ⟨rfl, fun maxNodes => by simp only [expand, hn, hr]⟩
  | some rule =>
    refine .inr ⟨rule, rfl, ?_⟩
    rcases Growth.ofOperators_room d.grammar.value? d.grammar.hasRule rule.operators n.shape with
      ⟨cause, hunlimited, hall⟩ | ⟨all, hunlimited, hall⟩
    · exact .inl ⟨cause, hunlimited, fun maxNodes => by simp only [expand, hn, hr, hall]⟩
    · refine .inr ⟨all, hunlimited, fun maxNodes => ?_⟩
      obtain ⟨growth, hgrowth, hkids, hclipped⟩ := hall (maxNodes - d.tree.size)
      simp only [expand, hn, hr, hgrowth, hkids, hclipped, decide_eq_true_eq]

/-- What an expansion comes to does not depend on the limit, but for how many of its children the
tree gets. -/
theorem expand_uniform {d : Derivation α} {id : Nat} {n : Node α}
    (hn : d.tree.node? id = some n) :
    (∃ result d', result ≠ .ok .clipped ∧ ∀ maxNodes, d.expand id maxNodes = (result, d')) ∨
    ∃ all : List (Shape α × Status), ∀ maxNodes, d.expand id maxNodes =
      (.ok (if maxNodes - d.tree.size < all.length then .clipped else .expanded),
        d.grow id (all.take (maxNodes - d.tree.size))) := by
  rcases expand_alternatives hn with ⟨_, he⟩ | ⟨_, _, ⟨cause, _, he⟩ | ⟨all, _, he⟩⟩
  · exact .inl ⟨_, _, by simp, he⟩
  · exact .inl ⟨_, _, by simp, he⟩
  · exact .inr ⟨all, he⟩

/-- An expansion with more room comes to the same, or the one with less room is clipped: then it
makes the first of the children that the other one makes. -/
theorem expand_room {d : Derivation α} {id : Nat} {n : Node α} (hn : d.tree.node? id = some n)
    {maxNodes maxNodes' : Nat} (hle : maxNodes ≤ maxNodes') :
    (d.expand id maxNodes' = d.expand id maxNodes ∧ (d.expand id maxNodes).1 ≠ .ok .clipped) ∨
    ∃ kids kids' : List (Shape α × Status), kids <+: kids' ∧
      d.expand id maxNodes = (.ok .clipped, d.grow id kids) ∧
      (d.expand id maxNodes').2 = d.grow id kids' := by
  rcases expand_uniform hn with ⟨result, d', hresult, he⟩ | ⟨all, he⟩
  · exact .inl ⟨by rw [he, he], by rw [he]; exact hresult⟩
  · by_cases hfits : maxNodes - d.tree.size < all.length
    · have hroom : maxNodes - d.tree.size ≤ maxNodes' - d.tree.size := Nat.sub_le_sub_right hle _
      refine .inr ⟨all.take (maxNodes - d.tree.size), all.take (maxNodes' - d.tree.size),
        List.take_prefix_take_left hroom, ?_, ?_⟩
      · rw [he, if_pos hfits]
      · rw [he]
    · have hfits' : ¬ maxNodes' - d.tree.size < all.length := by omega
      refine .inl ⟨?_, by simp [he, hfits]⟩
      rw [he, he, if_neg hfits, if_neg hfits', List.take_of_length_le (by omega),
        List.take_of_length_le (by omega)]

/-! ## Runs -/

namespace Orderly

variable {limits limits' : Limits} {d d' : Derivation α} {done done' : Progress}

/-- A turn only adds to the tree. -/
theorem extends_turn (h : Orderly limits d done) :
    d.tree.Extends (Derivation.turn limits d done).derivation.tree := by
  rcases h.turn_cases with ⟨_, ht⟩ | ⟨_, reason, _, _, ht⟩ |
    ⟨id, popped, n, hd, hn, hp, _, ⟨_, ht⟩ | ⟨_, _, ht⟩⟩
  · rw [ht]
    exact .refl _
  · rw [ht]
    exact .refl _
  · rw [ht, ← (pop?_eq_some hd).1]
    exact .refl _
  · rw [ht, Turn.derivation_ofExpansion, ← (pop?_eq_some hd).1]
    exact expand_extends hn hp limits.maxNodes

/-- What comes after a turn only adds to the tree that the turn leaves. -/
theorem turn_extends_runFrom (h : Orderly limits d done) :
    (Derivation.turn limits d done).derivation.tree.Extends
      (Derivation.runFrom limits d done).2.2.tree := by
  induction d, done using induction_of_turn (α := α) limits with
  | stop d done result done' d' hturn =>
    rw [runFrom_of_stop hturn, hturn]
    exact .refl _
  | next d done done' d' hturn ih =>
    have hnext := h.next hturn
    rw [runFrom_of_next hturn, hturn]
    exact hnext.extends_turn.trans (ih hnext)

/-- A run only adds to the tree. -/
theorem extends_runFrom (h : Orderly limits d done) :
    d.tree.Extends (Derivation.runFrom limits d done).2.2.tree :=
  h.extends_turn.trans h.turn_extends_runFrom

/-- Once a node has been passed over, a run changes the tree no more and does not fail. -/
theorem runFrom_of_tooDeep (h : Orderly limits d done) (hover : done.tooDeep ≠ []) :
    (∃ reason, (Derivation.runFrom limits d done).1 = .ok reason) ∧
      (Derivation.runFrom limits d done).2.2.tree = d.tree := by
  induction d, done using induction_of_turn (α := α) limits with
  | stop d done result done' d' hturn =>
    rw [runFrom_of_stop hturn]
    rcases h.turn_cases with ⟨_, ht⟩ | ⟨hnone, _⟩ | ⟨_, _, _, _, _, _, _, ⟨_, ht⟩ | ⟨_, hnone, _⟩⟩
    · rw [hturn, Turn.stop.injEq] at ht
      obtain ⟨rfl, rfl, rfl⟩ := ht
      exact ⟨⟨_, rfl⟩, rfl⟩
    · exact absurd hnone hover
    · rw [hturn] at ht
      cases ht
    · exact absurd hnone hover
  | next d done done' d' hturn ih =>
    rw [runFrom_of_next hturn]
    rcases h.turn_cases with ⟨_, ht⟩ | ⟨hnone, _⟩ | ⟨_, _, _, hd, _, _, _, ⟨_, ht⟩ | ⟨_, hnone, _⟩⟩
    · rw [hturn] at ht
      cases ht
    · exact absurd hnone hover
    · have hnext := h.next hturn
      rw [hturn, Turn.next.injEq] at ht
      obtain ⟨rfl, rfl⟩ := ht
      rw [← (pop?_eq_some hd).1]
      exact ih hnext (by simp)
    · exact absurd hnone hover

end Orderly

/-- How turns under smaller and larger limits compare while no node has been passed over: the first
run ends well, both fail, both go on alike, or the first one passes over a node. -/
theorem Orderly.turn_comparable {limits limits' : Limits} {d : Derivation α} {done : Progress}
    (hle : limits.Within limits') (htime : limits'.maxMillis = none) (h : Orderly limits d done)
    (h' : Orderly limits' d done) :
    (∃ reason done' d', Derivation.turn limits d done = .stop (.ok reason) done' d' ∧
      d'.tree.Extends (Derivation.runFrom limits' d done).2.2.tree) ∨
    (∃ cause done' d', Derivation.turn limits d done = .stop (.error cause) done' d' ∧
      Derivation.turn limits' d done = .stop (.error cause) done' d') ∨
    (∃ done' d', Derivation.turn limits d done = .next done' d' ∧
      Derivation.turn limits' d done = .next done' d') ∨
    ∃ done' d', Derivation.turn limits d done = .next done' d' ∧ done'.tooDeep ≠ [] ∧
      d'.tree = d.tree := by
  rcases h.turn_cases with ⟨_, ht⟩ | ⟨_, reason, _, _, ht⟩ |
    ⟨id, popped, n, hd, hn, hp, hb, ⟨_, ht⟩ | ⟨hdepth, _, ht⟩⟩
  · exact .inl ⟨_, _, _, ht, h'.extends_runFrom⟩
  · exact .inl ⟨_, _, _, ht, h'.extends_runFrom⟩
  · exact .inr (.inr (.inr ⟨_, _, ht, by simp, (pop?_eq_some hd).1⟩))
  · have hb' := budgetReached?_eq_none hle htime hb
    have hvisited : ¬ n.isVisited = true := by simp [Node.isVisited, hp]
    have hdepth' : ¬ limits'.maxDepth < n.depth := Nat.not_lt.mpr (Nat.le_trans hdepth hle.depth)
    have ht' : Derivation.turn limits' d done =
        .ofExpansion done (popped.expand id limits'.maxNodes) := by
      simp only [Derivation.turn, hd, hb', hn, if_neg hvisited, if_neg hdepth']
    rcases expand_room hn hle.nodes with ⟨hsame, hclipped⟩ | ⟨kids, kids', hprefix, he, he'⟩
    · rw [hsame] at ht'
      rcases hx : popped.expand id limits.maxNodes with ⟨cause | _ | _ | _, d'⟩
      all_goals rw [hx] at ht ht' hclipped
      · exact .inr (.inl ⟨_, _, _, ht, ht'⟩)
      · exact .inr (.inr (.inl ⟨_, _, ht, ht'⟩))
      · exact .inr (.inr (.inl ⟨_, _, ht, ht'⟩))
      · exact absurd rfl hclipped
    · have hgrown := grow_extends_grow hn hprefix
      have hrun := h'.turn_extends_runFrom
      rw [ht', Turn.derivation_ofExpansion, he'] at hrun
      rw [he] at ht
      exact .inl ⟨_, _, _, ht, hgrown.trans hrun⟩

/-- How runs from the same place compare: the one under smaller limits succeeds and leaves a tree
that the other one extends, or both fail alike. -/
def Comparable (small large : Except (EvalError α) StopReason × Progress × Derivation α) : Prop :=
  ((∃ reason, small.1 = .ok reason) ∧ small.2.2.tree.Extends large.2.2.tree) ∨
    ∃ cause, small.1 = .error cause ∧ large.1 = .error cause ∧ large.2.2.tree = small.2.2.tree

/-- Runs under smaller and larger limits compare, from a place where both are orderly. -/
theorem Orderly.comparable {limits limits' : Limits} {d : Derivation α} {done : Progress}
    (hle : limits.Within limits') (htime : limits'.maxMillis = none) (h : Orderly limits d done)
    (h' : Orderly limits' d done) :
    Comparable (Derivation.runFrom limits d done) (Derivation.runFrom limits' d done) := by
  induction d, done using induction_of_turn (α := α) limits with
  | stop d done result done' d' hturn =>
    rw [runFrom_of_stop hturn]
    rcases h.turn_comparable hle htime h' with ⟨_, _, _, ht, hextends⟩ | ⟨_, _, _, ht, ht'⟩ |
      ⟨_, _, ht, _⟩ | ⟨_, _, ht, _⟩
    all_goals rw [hturn] at ht
    all_goals cases ht
    · exact .inl ⟨⟨_, rfl⟩, hextends⟩
    · rw [runFrom_of_stop ht']
      exact .inr ⟨_, rfl, rfl, rfl⟩
  | next d done done' d' hturn ih =>
    rw [runFrom_of_next hturn]
    have hnext := h.next hturn
    rcases h.turn_comparable hle htime h' with ⟨_, _, _, ht, _⟩ | ⟨_, _, _, ht, _⟩ |
      ⟨_, _, ht, ht'⟩ | ⟨_, _, ht, hover, htree⟩
    all_goals rw [hturn] at ht
    all_goals cases ht
    · rw [runFrom_of_next ht']
      exact ih hnext (h'.next ht')
    · obtain ⟨hok, hfinal⟩ := hnext.runFrom_of_tooDeep hover
      refine .inl ⟨hok, ?_⟩
      rw [hfinal, htree]
      exact h'.extends_runFrom

/-- Whatever was done with a derivation, as long as its queue is in order: a run that succeeds under
some limits leaves a tree that the run under larger limits extends, whether that one succeeds or
not; and a run that fails under some limits fails alike under larger ones, with the same tree. -/
theorem complete_extends (shape : Shape α) (g : Grammar α) (calls : List Call)
    {limits limits' : Limits} (hle : limits.Within limits') (htime : limits'.maxMillis = none)
    (hqueue : ((start shape g).after calls).queue.toList =
      ((start shape g).after calls).tree.pendingInOrder) :
    let d := (start shape g).after calls
    (∀ outcome, (d.complete limits).1 = .ok outcome →
      (d.complete limits).2.tree.Extends (d.complete limits').2.tree) ∧
    ∀ cause, (d.complete limits).1 = .error cause →
      (d.complete limits').1 = .error cause ∧
        (d.complete limits').2.tree = (d.complete limits).2.tree := by
  intro d
  have hcanonical : d.Canonical [] := (standing_start shape g calls).canonical hqueue
  have hcompare := (hcanonical.orderly limits).comparable hle htime (hcanonical.orderly limits')
  simp only [complete]
  rcases hcompare with ⟨⟨reason, hok⟩, hextends⟩ | ⟨cause, herror, herror', htree⟩
  · refine ⟨fun _ _ => hextends, fun cause hcause => ?_⟩
    rw [hok] at hcause
    cases hcause
  · refine ⟨fun outcome houtcome => ?_, fun cause' hcause => ?_⟩
    · rw [herror] at houtcome
      cases houtcome
    · rw [herror] at hcause
      cases hcause
      rw [herror']
      exact ⟨rfl, htree⟩

/-- The start shape becomes a wall, and a wall is left as it is. -/
def relay : Grammar Float where
  attributes := .empty
  rules := ⟨[("Start", ⟨"Start", [.copy "Wall"]⟩), ("Wall", ⟨"Wall", []⟩)], by decide⟩

/-- One rule application ends at the wall, more of them go on from there. -/
theorem complete_extends_relay :
    ((start Shape.start relay).complete { maxSteps := 1 }).1 = .ok ⟨1, .stepBudget, 1, 0⟩ ∧
      ((start Shape.start relay).complete { maxSteps := 1 }).2.tree.Extends
        ((start Shape.start relay).complete {}).2.tree := by
  have hle : Limits.Within { maxSteps := 1 } {} := ⟨by decide, by decide, by decide⟩
  have hqueue : ((start Shape.start relay).after []).queue.toList =
      ((start Shape.start relay).after []).tree.pendingInOrder := rfl
  have hturns : ∃ d, turn { maxSteps := 1 } (start Shape.start relay) {} =
        .next { expansions := 1 } d ∧
      turn { maxSteps := 1 } d { expansions := 1 } =
        .stop (.ok .stepBudget) { expansions := 1 } d ∧ d.queue.length = 1 :=
    ⟨_, rfl, rfl, rfl⟩
  have hrun : ((start Shape.start relay).complete { maxSteps := 1 }).1 =
      .ok ⟨1, .stepBudget, 1, 0⟩ := by
    obtain ⟨d, hfirst, hsecond, hlength⟩ := hturns
    simp only [complete, runFrom_of_next hfirst, runFrom_of_stop hsecond, Except.map, report,
      hlength, List.length_nil]
  exact ⟨hrun, (complete_extends Shape.start relay [] hle rfl hqueue).1 _ hrun⟩

end Derivation

end ShapeGrammar
