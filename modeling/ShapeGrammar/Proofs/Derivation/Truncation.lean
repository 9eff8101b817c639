import Mathlib.Data.Finset.Card
import Mathlib.Data.Finset.Range
import ShapeGrammar.Proofs.Derivation.Stages

/-!
# What a run reports

A run returns a few counts and the reason for its end, and from these a caller tells whether the
tree is all that the grammar makes. Main statement: `complete_reports`, that each count is a number
of nodes of the tree, and that a run is called truncated exactly if a node was left waiting or
without some of its children.
-/
namespace ShapeGrammar

namespace Growth

variable {α : Type} [Elementary α]

/-- The children that a node gets are the first of all that its rule makes, as many as there is room
for, and it is noticed if that is not all of them. -/
theorem ofOperators_eq_take {values : String → Option α} {room : Nat} {ops : List (Operator α)}
    {shape : Shape α} {growth : Growth α} (h : ofOperators values room ops shape = .ok growth)
    (hasRule : String → Bool) :
    ∃ all, unlimited values ops shape = .ok all ∧
      (growth.children hasRule).map Prod.fst = all.take room ∧
      growth.clipped = decide (room < all.length) := by
  rcases ofOperators_room values hasRule ops shape with ⟨cause, _, hall⟩ | ⟨all, hunlimited, hall⟩
  · rw [hall] at h
    cases h
  · obtain ⟨growth', hgrowth, hkids, hclipped⟩ := hall room
    rw [h, Except.ok.injEq] at hgrowth
    subst hgrowth
    exact ⟨all.map Prod.fst, hunlimited, by rw [hkids, List.map_take],
      by rw [hclipped, List.length_map]⟩

end Growth

theorem Outcome.isTruncated_eq_false_iff {o : Outcome} :
    o.isTruncated = false ↔ o.stop = .completed ∧ o.depthPruned = 0 := by
  simp [isTruncated]

namespace Tree

variable {α : Type} {t u : Tree α} {id : Nat} {n : Node α}

/-- Whether the rule of a node has been applied. -/
def isExpanded (t : Tree α) (id : Nat) : Bool :=
  match t.node? id with
  | some n => n.status == .expanded
  | none => false

theorem isExpanded_iff : t.isExpanded id = true ↔
    ∃ n, t.node? id = some n ∧ n.status = .expanded := by
  cases h : t.node? id <;> simp [isExpanded, h]

/-- The nodes that have been expanded since a tree was as it was. -/
def expandedSince (t before : Tree α) : Finset Nat :=
  (Finset.range t.size).filter fun id => t.isExpanded id ∧ ¬ before.isExpanded id

theorem mem_expandedSince {before : Tree α} : id ∈ t.expandedSince before ↔
    t.isExpanded id = true ∧ ¬ before.isExpanded id = true := by
  rw [expandedSince, Finset.mem_filter, Finset.mem_range, and_iff_right_iff_imp]
  rintro ⟨hexpanded, _⟩
  obtain ⟨n, hn, _⟩ := isExpanded_iff.mp hexpanded
  exact node?_lt_size hn

theorem pendingInOrder_eq_nil_iff (h : t.Layered) :
    t.pendingInOrder = [] ↔ ∀ id n, t.node? id = some n → n.isVisited = true := by
  rw [List.eq_nil_iff_forall_not_mem]
  simp only [mem_pendingInOrder h, Node.isVisited, bne_iff_ne]
  constructor
  · exact fun hnone id n hn hp => hnone id ⟨n, hn, hp⟩
  · rintro hall id ⟨n, hn, hp⟩
    exact hall id n hn hp

def shape? (t : Tree α) (id : Nat) : Option (Shape α) :=
  (t.node? id).map (·.shape)

/-- The shapes of the children of a node, the first one first. -/
def childShapes (t : Tree α) (id : Nat) : List (Shape α) :=
  (t.childrenOf id).filterMap t.shape?

/-- A node that stays as it is keeps the shapes of its children. -/
theorem Extends.childShapes_eq (h : t.Extends u) (hlayered : t.Layered)
    (hn : t.node? id = some n) (hn' : u.node? id = some n) :
    u.childShapes id = t.childShapes id := by
  rw [childShapes, childShapes, childrenOf_of_node? hn, childrenOf_of_node? hn']
  refine List.filterMap_congr fun child hchild => ?_
  obtain ⟨m, hm, _⟩ := hlayered.depth_child id n hn child hchild
  obtain ⟨m', hm', hshape, _⟩ := h child m hm
  rw [shape?, shape?, hm, hm', Option.map_some, Option.map_some, hshape]

/-- A node that had no children gets those that it is given. -/
theorem childShapes_attach (hn : t.node? id = some n) (hc : n.children = [])
    (kids : List (Shape α × Status)) :
    (t.attach id kids).childShapes id = kids.map Prod.fst := by
  have hfound : (List.range' t.size kids.length).map (t.attach id kids).shape? =
      (kids.map Prod.fst).map some := by
    refine List.ext_getElem (by simp) fun k hk _ => ?_
    rw [List.length_map, List.length_range'] at hk
    simp only [List.getElem_map, List.getElem_range', Nat.one_mul, shape?,
      node?_attach_new kids hn hk, Option.map_some]
  calc (t.attach id kids).childShapes id
      = (List.range' t.size kids.length).filterMap (t.attach id kids).shape? := by
        rw [childShapes, Layered.childrenOf_attach hn hc, if_pos rfl]
    _ = ((kids.map Prod.fst).map some).filterMap fun shape => shape := by
        rw [← hfound, List.filterMap_map]
        rfl
    _ = kids.map Prod.fst := by simp [List.filterMap_map]

end Tree

namespace Derivation

variable {α : Type}

/-- The nodes that wait without being queued. -/
def leftBehind (d : Derivation α) : Finset Nat :=
  (Finset.range d.tree.size).filter fun id => d.tree.isPending id ∧ id ∉ d.queue.toList

/-- The nodes that were passed over are those that wait without being queued. -/
theorem Canonical.leftBehind_eq {d : Derivation α} {skipped : List Nat}
    (h : d.Canonical skipped) :
    d.leftBehind = skipped.toFinset ∧ d.leftBehind.card = skipped.length := by
  have hsorted := Tree.pairwise_pendingInOrder h.layered
  rw [h.pending_eq, List.pairwise_append] at hsorted
  have heq : d.leftBehind = skipped.toFinset := by
    ext id
    have hpending : d.tree.isPending id = true ↔ id ∈ skipped ∨ id ∈ d.queue.toList := by
      rw [Tree.isPending_iff, ← Tree.mem_pendingInOrder h.layered, h.pending_eq, List.mem_append]
    rw [leftBehind, Finset.mem_filter, Finset.mem_range, List.mem_toFinset, hpending]
    constructor
    · rintro ⟨_, hmem | hmem, hnot⟩
      · exact hmem
      · exact absurd hmem hnot
    · intro hmem
      obtain ⟨n, hn, _⟩ := h.exists_pending hmem
      exact ⟨Tree.node?_lt_size hn, .inl hmem,
        fun hqueued => Nat.lt_irrefl id (hsorted.2.2 id hmem id hqueued)⟩
  exact ⟨heq, by rw [heq, List.toFinset_card_of_nodup (hsorted.1.imp Nat.ne_of_lt)]⟩

/-- What a run has counted at one of its stages are the nodes that it has expanded, and those are
not too deep. -/
structure Accounted (limits : Limits) (d₀ : Derivation α) (done : Progress) (d : Derivation α) :
    Prop where
  extends_start : d₀.tree.Extends d.tree
  expansions_eq : done.expansions = (d.tree.expandedSince d₀.tree).card
  depth_le : ∀ id ∈ d.tree.expandedSince d₀.tree,
    ∃ n, d.tree.node? id = some n ∧ n.depth ≤ limits.maxDepth

theorem Accounted.pop {limits : Limits} {d₀ d popped : Derivation α} {done : Progress} {id : Nat}
    (h : Accounted limits d₀ done d) (hd : d.pop? = some (id, popped)) :
    Accounted limits d₀ done popped := by
  have htree := (pop?_eq_some hd).1
  exact ⟨htree ▸ h.extends_start, htree ▸ h.expansions_eq, htree ▸ h.depth_le⟩

variable [Elementary α]

/-- Whether a node has all children that its rule makes for it. -/
def KeptAll (d : Derivation α) (id : Nat) : Prop :=
  ∃ n rule all, d.tree.node? id = some n ∧ d.grammar.rule? n.shape.name = some rule ∧
    Growth.unlimited d.grammar.value? rule.operators n.shape = .ok all ∧
    d.tree.childShapes id = all

section Expansion

variable {d d' : Derivation α} {id maxNodes : Nat} {made : Expansion}

/-- The nodes that are expanded after an expansion: those that were, and the one at hand unless it
turned out to have no rule. -/
theorem isExpanded_expand {n : Node α} (hn : d.tree.node? id = some n)
    (hp : n.status = .pending) (maxNodes j : Nat) :
    (d.expand id maxNodes).2.tree.isExpanded j = true ↔
      d.tree.isExpanded j = true ∨ j = id ∧ (d.expand id maxNodes).1 ≠ .ok .terminal := by
  constructor
  · intro hj
    obtain ⟨m, hm, hs⟩ := Tree.isExpanded_iff.mp hj
    rcases node?_expand_cases hn hm with ⟨heq, _, _, ⟨_, hterminal⟩ | ⟨hmade, _⟩⟩ | ⟨_, hold⟩ |
      ⟨_, hnew⟩
    · rw [hs] at hterminal
      cases hterminal
    · exact .inr ⟨heq, hmade⟩
    · exact .inl (Tree.isExpanded_iff.mpr ⟨m, hold, hs⟩)
    · exact absurd hs hnew
  · rintro (hj | ⟨rfl, hmade⟩)
    · obtain ⟨m, hm, hs⟩ := Tree.isExpanded_iff.mp hj
      obtain ⟨m', hm', _, _, _, hstatus⟩ := expand_extends hn hp maxNodes j m hm
      exact Tree.isExpanded_iff.mpr ⟨m', hm', (hstatus (by simp [hs])).trans hs⟩
    · obtain ⟨m, hm, _⟩ := expand_extends hn hp maxNodes j n hn
      rcases node?_expand_cases hn hm with ⟨_, _, _, ⟨hnot, _⟩ | ⟨_, hs⟩⟩ | ⟨hne, _⟩ | ⟨hnone, _⟩
      · exact absurd hnot hmade
      · exact Tree.isExpanded_iff.mpr ⟨m, hm, hs⟩
      · exact absurd rfl hne
      · rw [hn] at hnone
        cases hnone

/-- Whether a node has all its children, said of what its rule makes. -/
theorem keptAll_iff {n : Node α} {rule : Rule α} {all : List (Shape α)}
    (hn : d.tree.node? id = some n) (hrule : d.grammar.rule? n.shape.name = some rule)
    (hall : Growth.unlimited d.grammar.value? rule.operators n.shape = .ok all) :
    d.KeptAll id ↔ d.tree.childShapes id = all := by
  constructor
  · rintro ⟨n', rule', all', hn', hrule', hall', hkept⟩
    rw [hn, Option.some.injEq] at hn'
    subst hn'
    rw [hrule, Option.some.injEq] at hrule'
    subst hrule'
    rw [hall, Except.ok.injEq] at hall'
    rw [hkept, hall']
  · exact fun hkept => ⟨n, rule, all, hn, hrule, hall, hkept⟩

/-- A node that was given children has all of them if they are all that its rule makes. -/
theorem Canonical.keptAll_grow (h : d.Canonical [id]) {n : Node α} {rule : Rule α}
    {all : List (Shape α)} (hn : d.tree.node? id = some n)
    (hrule : d.grammar.rule? n.shape.name = some rule)
    (hall : Growth.unlimited d.grammar.value? rule.operators n.shape = .ok all)
    (kids : List (Shape α × Status)) :
    (d.grow id kids).KeptAll id ↔ kids.map Prod.fst = all := by
  obtain ⟨n', hn', hp⟩ := h.exists_pending (List.mem_singleton_self id)
  rw [hn, Option.some.injEq] at hn'
  subst hn'
  have hset : (d.tree.setStatus id .expanded).node? id = some { n with status := .expanded } :=
    Tree.node?_setStatus_eq_some.mpr ⟨n, hn, by simp⟩
  have hleaf : n.children = [] := h.layered.leaf id n hn (by simp [hp])
  have hshapes : (d.grow id kids).tree.childShapes id = kids.map Prod.fst :=
    Tree.childShapes_attach hset hleaf kids
  obtain ⟨m, hm, hshape, _⟩ := grow_extends hn hp kids id n hn
  rw [← hshape] at hrule hall
  have hiff : (d.grow id kids).KeptAll id ↔ (d.grow id kids).tree.childShapes id = all :=
    keptAll_iff hm hrule hall
  rw [hiff, hshapes]

theorem keptAll_of_pop? {popped : Derivation α} (hd : d.pop? = some (id, popped)) {j : Nat} :
    popped.KeptAll j ↔ d.KeptAll j := by
  obtain ⟨htree, hgrammar, _⟩ := pop?_eq_some hd
  rw [KeptAll, KeptAll, htree, hgrammar]

/-- A node whose rule was applied has all its children unless the expansion was clipped. -/
theorem Canonical.keptAll_expand (h : d.Canonical [id])
    (he : d.expand id maxNodes = (.ok made, d')) (hmade : made ≠ .terminal) :
    d'.KeptAll id ↔ made = .expanded := by
  obtain ⟨n, hn, _⟩ := h.exists_pending (List.mem_singleton_self id)
  rcases expand_cases maxNodes hn with
    ⟨_, heq⟩ | ⟨rule, hrule, ⟨_, _, heq⟩ | ⟨growth, hgrowth, heq⟩⟩
  · rw [he] at heq
    cases heq
    exact absurd rfl hmade
  · rw [he] at heq
    cases heq
  · rw [he] at heq
    cases heq
    obtain ⟨all, hall, hkids, hclipped⟩ :=
      Growth.ofOperators_eq_take hgrowth d.grammar.hasRule
    rw [h.keptAll_grow hn hrule hall, hkids, hclipped, List.take_eq_self_iff]
    by_cases hfits : maxNodes - d.tree.size < all.length
    · simp [hfits]
    · simp [hfits, Nat.le_of_not_lt hfits]

/-- An expansion leaves all other expanded nodes their children. -/
theorem Canonical.keptAll_expand_of_ne (h : d.Canonical [id]) {j : Nat} (hj : j ≠ id)
    (hkept : d.KeptAll j) :
    (d.expand id maxNodes).2.KeptAll j := by
  obtain ⟨n, hn, hp⟩ := h.exists_pending (List.mem_singleton_self id)
  obtain ⟨m, rule, all, hm, hrule, hall, hshapes⟩ := hkept
  have hleft : (d.expand id maxNodes).2.tree.node? j = some m := node?_expand_of_ne hj hm
  have hsame := (expand_extends hn hp maxNodes).childShapes_eq h.layered hm hleft
  refine ⟨m, rule, all, hleft, ?_, ?_, hsame.trans hshapes⟩
  · rw [grammar_expand, hrule]
  · rw [grammar_expand, hall]

/-- The nodes that have been expanded, after an expansion that does not fail. -/
theorem expandedSince_expand {n : Node α} (hn : d.tree.node? id = some n)
    (hp : n.status = .pending) {before : Tree α} (hbefore : before.Extends d.tree)
    (he : d.expand id maxNodes = (.ok made, d')) :
    id ∉ d.tree.expandedSince before ∧
      (made = .terminal → d'.tree.expandedSince before = d.tree.expandedSince before) ∧
      (made ≠ .terminal →
        d'.tree.expandedSince before = insert id (d.tree.expandedSince before)) := by
  have hnot : ¬ d.tree.isExpanded id = true := by
    rw [Tree.isExpanded_iff]
    rintro ⟨m, hm, hs⟩
    rw [hn, Option.some.injEq] at hm
    rw [← hm, hp] at hs
    cases hs
  have hnever : ¬ before.isExpanded id = true := by
    rw [Tree.isExpanded_iff]
    rintro ⟨m, hm, hs⟩
    obtain ⟨m', hm', _, _, _, hstatus⟩ := hbefore id m hm
    exact hnot (Tree.isExpanded_iff.mpr ⟨m', hm', (hstatus (by simp [hs])).trans hs⟩)
  have hexpanded (j : Nat) : d'.tree.isExpanded j = true ↔
      d.tree.isExpanded j = true ∨ j = id ∧ made ≠ .terminal := by
    have hiff := isExpanded_expand hn hp maxNodes j
    rwa [he, ne_eq, Except.ok.injEq] at hiff
  refine ⟨fun hmem => hnot (Tree.mem_expandedSince.mp hmem).1, fun hmade => ?_, fun hmade => ?_⟩
  · ext j
    rw [Tree.mem_expandedSince, Tree.mem_expandedSince, hexpanded]
    simp [hmade]
  · ext j
    rw [Finset.mem_insert, Tree.mem_expandedSince, Tree.mem_expandedSince, hexpanded]
    by_cases hj : j = id
    · simp [hj, hmade, hnever]
    · simp [hj]

/-- As long as nothing is clipped all nodes that have been expanded have all their children. -/
theorem Canonical.keptAll_of_expand (h : d.Canonical [id]) {before : Tree α}
    (hbefore : before.Extends d.tree) (hkept : ∀ j ∈ d.tree.expandedSince before, d.KeptAll j)
    (he : d.expand id maxNodes = (.ok made, d')) (hmade : made ≠ .clipped) :
    ∀ j ∈ d'.tree.expandedSince before, d'.KeptAll j := by
  obtain ⟨n, hn, hp⟩ := h.exists_pending (List.mem_singleton_self id)
  obtain ⟨hnot, hterminal, hgrown⟩ := expandedSince_expand hn hp hbefore he
  have hothers (j : Nat) (hj : j ∈ d.tree.expandedSince before) : d'.KeptAll j := by
    have hleft : (d.expand id maxNodes).2.KeptAll j :=
      h.keptAll_expand_of_ne (fun heq => hnot (heq ▸ hj)) (hkept j hj)
    rwa [he] at hleft
  intro j hj
  cases made with
  | terminal =>
    rw [hterminal rfl] at hj
    exact hothers j hj
  | expanded =>
    rw [hgrown (by decide)] at hj
    rcases Finset.mem_insert.mp hj with rfl | hj
    · exact (h.keptAll_expand he (by decide)).mpr rfl
    · exact hothers j hj
  | clipped => exact absurd rfl hmade

end Expansion

/-! ## Stages of a run -/

variable {limits : Limits} {d₀ d d' : Derivation α} {taken : List Nat} {done done' : Progress}

theorem Accounted.expand (h : Accounted limits d₀ done d) {id : Nat} {n : Node α}
    (hn : d.tree.node? id = some n) (hp : n.status = .pending) (hdepth : n.depth ≤ limits.maxDepth)
    {made : Expansion} {maxNodes : Nat} (he : d.expand id maxNodes = (.ok made, d')) :
    Accounted limits d₀ (Turn.ofExpansion done (.ok made, d')).progress d' := by
  have hextends : d.tree.Extends d'.tree := by
    have := expand_extends hn hp maxNodes
    rwa [he] at this
  have hkeep {j : Nat} (hj : ∃ m, d.tree.node? j = some m ∧ m.depth ≤ limits.maxDepth) :
      ∃ m, d'.tree.node? j = some m ∧ m.depth ≤ limits.maxDepth := by
    obtain ⟨m, hm, hle⟩ := hj
    obtain ⟨m', hm', _, hsame, _⟩ := hextends j m hm
    exact ⟨m', hm', hsame ▸ hle⟩
  obtain ⟨hnot, hterminal, hgrown⟩ := expandedSince_expand hn hp h.extends_start he
  refine ⟨h.extends_start.trans hextends, ?_, ?_⟩
  · cases made with
    | terminal =>
      rw [hterminal rfl, ← h.expansions_eq]
      rfl
    | expanded =>
      rw [hgrown (by decide), Finset.card_insert_of_notMem hnot, ← h.expansions_eq]
      rfl
    | clipped =>
      rw [hgrown (by decide), Finset.card_insert_of_notMem hnot, ← h.expansions_eq]
      rfl
  · intro j hj
    by_cases hmade : made = .terminal
    · rw [hterminal hmade] at hj
      exact hkeep (h.depth_le j hj)
    · rw [hgrown hmade] at hj
      rcases Finset.mem_insert.mp hj with rfl | hj
      · exact hkeep ⟨n, hn, hdepth⟩
      · exact hkeep (h.depth_le j hj)

/-- A turn that does not fail counts what it does. -/
theorem Accounted.turn (h : Accounted limits d₀ done d) (horderly : Orderly limits d done)
    (hok : ∀ cause done' d', Derivation.turn limits d done ≠ .stop (.error cause) done' d') :
    Accounted limits d₀ (Derivation.turn limits d done).progress
      (Derivation.turn limits d done).derivation := by
  rcases horderly.turn_cases with ⟨_, ht⟩ | ⟨_, reason, _, _, ht⟩ |
    ⟨id, popped, n, hd, hn, hp, _, ⟨_, ht⟩ | ⟨hdepth, _, ht⟩⟩
  · rw [ht]
    exact h
  · rw [ht]
    exact h
  · rw [ht]
    exact ⟨(h.pop hd).extends_start, (h.pop hd).expansions_eq, (h.pop hd).depth_le⟩
  · rw [ht] at hok ⊢
    rcases he : popped.expand id limits.maxNodes with ⟨cause | made, d'⟩
    · rw [he] at hok
      exact absurd rfl (hok cause done d')
    · rw [Turn.derivation_ofExpansion]
      exact (h.pop hd).expand hn hp hdepth he

theorem Stage.accounted (hstart : d₀.Canonical []) (h : Stage limits d₀ taken done d) :
    Accounted limits d₀ done d := by
  induction h with
  | start =>
    have hnone : d₀.tree.expandedSince d₀.tree = ∅ := Finset.filter_eq_empty_iff.mpr (by simp)
    exact ⟨.refl _, by rw [hnone]; rfl, by simp [hnone]⟩
  | next before turned ih =>
    have hturn := ih.turn (before.orderly hstart) (by simp [turned])
    rwa [turned] at hturn

/-- As long as a run goes on every node that it has expanded has all its children. -/
theorem Stage.keptAll (hstart : d₀.Canonical []) (h : Stage limits d₀ taken done d) :
    ∀ id ∈ d.tree.expandedSince d₀.tree, d.KeptAll id := by
  induction h with
  | start =>
    intro id hid
    obtain ⟨hyes, hno⟩ := Tree.mem_expandedSince.mp hid
    exact absurd hyes hno
  | @next _ done done' d d' before turned ih =>
    have horderly := before.orderly hstart
    rcases horderly.turn_cases with ⟨_, ht⟩ | ⟨_, reason, _, _, ht⟩ |
      ⟨id, popped, n, hd, hn, hp, _, ⟨_, ht⟩ | ⟨_, hover, ht⟩⟩
    · rw [turned] at ht
      cases ht
    · rw [turned] at ht
      cases ht
    · rw [turned, Turn.next.injEq] at ht
      rw [ht.2]
      exact fun j hj => (keptAll_of_pop? hd).mpr (ih j ((pop?_eq_some hd).1 ▸ hj))
    · have hcanonical := horderly.canonical.pop hd
      rw [hover] at hcanonical
      have hextends := ((before.accounted hstart).pop hd).extends_start
      have hpopped (j : Nat) (hj : j ∈ popped.tree.expandedSince d₀.tree) : popped.KeptAll j :=
        (keptAll_of_pop? hd).mpr (ih j ((pop?_eq_some hd).1 ▸ hj))
      rw [turned] at ht
      rcases Turn.of_ofExpansion_eq_next ht.symm with ⟨he, _⟩ | ⟨he, _⟩
      · exact Canonical.keptAll_of_expand hcanonical hextends hpopped he (by decide)
      · exact Canonical.keptAll_of_expand hcanonical hextends hpopped he (by decide)

theorem Ends.accounted (hstart : d₀.Canonical []) {reason : StopReason}
    (h : Ends limits d₀ taken (.ok reason) done d) : Accounted limits d₀ done d := by
  obtain ⟨before, turned⟩ := h
  have hturn := (before.accounted hstart).turn (before.orderly hstart) (by simp [turned])
  rwa [turned] at hturn

theorem Ends.result {result : Except (EvalError α) StopReason} (hstart : d₀.Canonical [])
    (h : Ends limits d₀ taken result done d) : Result limits d done := by
  obtain ⟨before, turned⟩ := h
  have hturn := (before.orderly hstart).turn
  rwa [turned] at hturn

/-- A run is completed, with no node passed over, if no node waits and all expanded ones have all
their children. -/
theorem Ends.completed_iff (hstart : d₀.Canonical []) {reason : StopReason}
    (h : Ends limits d₀ taken (.ok reason) done d) :
    reason = .completed ∧ done.tooDeep = [] ↔
      (∀ id n, d.tree.node? id = some n → n.isVisited = true) ∧
        ∀ id ∈ d.tree.expandedSince d₀.tree, d.KeptAll id := by
  have hcanonical := (h.result hstart).canonical
  have hvisited := Tree.pendingInOrder_eq_nil_iff hcanonical.layered
  rw [← hvisited, hcanonical.pending_eq, List.append_eq_nil_iff, List.reverse_eq_nil_iff]
  obtain @⟨_, _, last, _, prior, _, before, turned⟩ := h
  have horderly := before.orderly hstart
  rcases horderly.stop_cases turned with ⟨hqueue, rfl, rfl, rfl⟩ | ⟨hqueue, hreason, rfl, rfl⟩ |
    ⟨rfl, hover, _, id, popped, n, hd, hn, _, he⟩
  -- the last turn found the queue empty, and all turns before it went on
  · have hkept := before.keptAll hstart
    rw [drained_eq_completed_iff]
    tauto
  · tauto
  -- the last node was expanded, but not all of its children fit
  · have hpopped := horderly.canonical.pop hd
    rw [hover] at hpopped
    obtain ⟨_, hn', hp⟩ := hpopped.exists_pending (List.mem_singleton_self id)
    have hextends := ((before.accounted hstart).pop hd).extends_start
    obtain ⟨_, _, hgrown⟩ := expandedSince_expand hn' hp hextends he
    have hcut : ¬ d.KeptAll id := by
      rw [Canonical.keptAll_expand hpopped he (by decide)]
      decide
    constructor
    · rintro ⟨hcompleted, _⟩
      cases hcompleted
    · rintro ⟨_, hkept⟩
      refine absurd (hkept id ?_) hcut
      rw [hgrown (by decide)]
      exact Finset.mem_insert_self _ _

/-- What a run reports is so. Whatever was done with a derivation, as long as its queue is in order:
if a run succeeds, the rule applications that it counts are the nodes that it has expanded, the
nodes that it calls abandoned are those of the queue, and those that it counts as too deep are all
that wait without being queued. Those do lie too deep, and no node that was expanded does. The run
is not called truncated exactly if no node waits and all that were expanded have all the children
that their rules make. -/
theorem complete_reports {g : Grammar α} {shape : Shape α} (hd : d.Reached g shape)
    (hqueue : d.queue.toList = d.tree.pendingInOrder) (limits : Limits) {outcome : Outcome}
    {e : Derivation α} (hrun : d.complete limits = (.ok outcome, e)) :
    outcome.expansions = (e.tree.expandedSince d.tree).card ∧
    outcome.abandoned = e.queue.toList.length ∧
    outcome.depthPruned = e.leftBehind.card ∧
    (∀ id ∈ e.leftBehind, ∃ n, e.tree.node? id = some n ∧ limits.maxDepth < n.depth) ∧
    (∀ id ∈ e.tree.expandedSince d.tree,
      ∃ n, e.tree.node? id = some n ∧ n.depth ≤ limits.maxDepth) ∧
    (outcome.isTruncated = false ↔
      (∀ id n, e.tree.node? id = some n → n.isVisited = true) ∧
        ∀ id ∈ e.tree.expandedSince d.tree, e.KeptAll id) := by
  have hstart := hd.canonical hqueue
  obtain ⟨_, result, done, e', hends, hcomplete⟩ := exists_ends d limits
  rw [hrun] at hcomplete
  rcases result with cause | reason
  · cases hcomplete
  · cases hcomplete
    have haccounted := hends.accounted hstart
    have hresult := hends.result hstart
    obtain ⟨hleft, hcard⟩ := hresult.canonical.leftBehind_eq
    refine ⟨haccounted.expansions_eq, (Queue.length_toList _).symm, ?_, ?_, haccounted.depth_le, ?_⟩
    · rw [hcard, List.length_reverse]
      rfl
    · intro id hid
      rw [hleft, List.mem_toFinset, List.mem_reverse] at hid
      exact hresult.deep id hid
    · rw [Outcome.isTruncated_eq_false_iff, ← hends.completed_iff hstart]
      exact and_congr_right' List.length_eq_zero_iff

/-- Three houses side by side. -/
def terrace : Grammar Float32 where
  attributes := .empty
  rules := ⟨[("Start", ⟨"Start", [
    .resize ⟨⟨"3", .number 3.0⟩, ⟨"1", .number 1.0⟩, ⟨"1", .number 1.0⟩⟩,
    .tile .x ⟨"1", .number 1.0⟩ "House"]⟩)], by decide⟩

/-- With room for two of them no node waits, but the run is truncated. -/
theorem complete_reports_terrace : ∃ e,
    (start .start terrace).complete { maxNodes := 3 } = (.ok ⟨1, .nodeBudget, 0, 0⟩, e) ∧
      (e.tree.expandedSince (start .start terrace).tree).card = 1 ∧ e.leftBehind.card = 0 ∧
      ¬((∀ id n, e.tree.node? id = some n → n.isVisited = true) ∧
        ∀ id ∈ e.tree.expandedSince (start .start terrace).tree, e.KeptAll id) := by
  obtain ⟨e, hturn, hlength⟩ : ∃ e : Derivation Float32,
      turn { maxNodes := 3 } (start .start terrace) {} =
        .stop (.ok .nodeBudget) { expansions := 1 } e ∧ e.queue.length = 0 := ⟨_, rfl, rfl⟩
  have hrun : (start .start terrace).complete { maxNodes := 3 } =
      (.ok ⟨1, .nodeBudget, 0, 0⟩, e) := by
    simp only [complete, runFrom_of_stop hturn, Except.map, report, hlength, List.length_nil]
  obtain ⟨hexpansions, _, hpruned, _, _, htruncated⟩ := complete_reports .start rfl _ hrun
  refine ⟨e, hrun, hexpansions.symm, hpruned.symm, fun hwhole => ?_⟩
  cases htruncated.mpr hwhole

end Derivation

end ShapeGrammar
