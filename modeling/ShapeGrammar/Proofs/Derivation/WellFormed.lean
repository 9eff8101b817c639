import ShapeGrammar.Proofs.Derivation.Kept

/-!
# Well-formed trees

The nodes of a derivation refer to each other by number, and nothing in their types says that the
numbers make a tree. Main statement: after any calls they do, the queue holds waiting nodes only, a
walk through the tree by a queue ends, and what is drawn are the terminals. None of it rests on the
order of the queue, which is lost where a clock stops a run.
-/
namespace ShapeGrammar

namespace Tree

variable {α : Type} {t : Tree α}

theorem exists_of_mem_childrenOf {p c : Nat} (h : c ∈ t.childrenOf p) :
    ∃ n, t.node? p = some n ∧ c ∈ n.children := by
  cases hn : t.node? p with
  | none => simp [childrenOf, hn] at h
  | some n => exact ⟨n, rfl, by rwa [childrenOf_of_node? hn] at h⟩

/-- A child in a tree with new children was one before, or it is one of the new ones. -/
theorem mem_children_attach {id p c : Nat} {n m : Node α} {kids : List (Shape α × Status)}
    (hn : t.node? id = some n) (hm : (t.attach id kids).node? p = some m) (hc : c ∈ m.children) :
    (∃ x, t.node? p = some x ∧ c ∈ x.children) ∨
      p = id ∧ t.size ≤ c ∧ c < t.size + kids.length := by
  rcases node?_attach_cases kids hn hm with ⟨x, hx, rfl⟩ | ⟨k, hk, rfl, rfl⟩
  · rcases List.mem_append.mp hc with hold | hnew
    · exact .inl ⟨x, hx, hold⟩
    · split at hnew
      next hp => exact .inr ⟨hp, List.mem_range'_1.mp hnew⟩
      next => cases hnew
  · cases hc

/-- The nodes are those of one tree below node zero: each node but that one is the child of exactly
one other, which has a smaller number and lies one level above it. -/
structure WellFormed (t : Tree α) : Prop where
  root : ∃ n, t.node? 0 = some n ∧ n.depth = 0
  root_notMem : ∀ {p n}, t.node? p = some n → 0 ∉ n.children
  exists_parent : ∀ {c m}, t.node? c = some m → 0 < c →
    ∃ p n, t.node? p = some n ∧ p < c ∧ m.depth = n.depth + 1 ∧ n.children.count c = 1 ∧
      ∀ {q k}, t.node? q = some k → c ∈ k.children → q = p
  child_lt_size : ∀ {p n}, t.node? p = some n → ∀ c ∈ n.children, c < t.size
  increasing : ∀ {p n}, t.node? p = some n → n.children.Pairwise (· < ·)
  leaf : ∀ {id n}, t.node? id = some n → n.status ≠ .expanded → n.children = []

/-- A walk through a tree by a queue: the first node that waits is visited, and its children line
up behind the others until none is left. -/
inductive Walk (t : Tree α) : List Nat → List Nat → Prop where
  | done : Walk t [] []
  | visit {id : Nat} {n : Node α} {rest order : List Nat} (found : t.node? id = some n)
      (onward : Walk t (rest ++ n.children) order) : Walk t (id :: rest) (id :: order)

/-- The numbers of the nodes of one depth, each once. -/
structure IsLevel (t : Tree α) (k : Nat) (level : List Nat) : Prop where
  nodup : level.Nodup
  mem_iff : ∀ id, id ∈ level ↔ ∃ n, t.node? id = some n ∧ n.depth = k

namespace WellFormed

theorem depth_child (h : t.WellFormed) {p c : Nat} {n : Node α} (hn : t.node? p = some n)
    (hc : c ∈ n.children) : ∃ m, t.node? c = some m ∧ m.depth = n.depth + 1 := by
  obtain ⟨m, hm⟩ := exists_node? (h.child_lt_size hn c hc)
  have hpos : 0 < c := by
    rcases Nat.eq_zero_or_pos c with rfl | hpos
    · exact absurd hc (h.root_notMem hn)
    · exact hpos
  obtain ⟨q, k, hk, _, hdepth, _, honly⟩ := h.exists_parent hm hpos
  have hsame := honly hn hc
  subst hsame
  rw [hn, Option.some.injEq] at hk
  exact ⟨m, hm, hk ▸ hdepth⟩

/-- No node lies deeper than its number says. -/
theorem depth_le (h : t.WellFormed) {id : Nat} {n : Node α} (hn : t.node? id = some n) :
    n.depth ≤ id := by
  induction id using Nat.strongRecOn generalizing n with
  | ind id ih =>
    rcases Nat.eq_zero_or_pos id with rfl | hpos
    · obtain ⟨r, hr, hdepth⟩ := h.root
      rw [hn, Option.some.injEq] at hr
      exact Nat.le_of_eq (hr ▸ hdepth)
    · obtain ⟨p, k, hk, hlt, hdepth, _⟩ := h.exists_parent hn hpos
      have := ih p hlt hk
      omega

/-! ### Breadth-first order -/

theorem isLevel_root (h : t.WellFormed) : t.IsLevel 0 [0] where
  nodup := List.nodup_singleton 0
  mem_iff id := by
    rw [List.mem_singleton]
    constructor
    · rintro rfl
      exact h.root
    · rintro ⟨n, hn, hdepth⟩
      by_contra hne
      obtain ⟨_, _, _, _, hbelow, _⟩ := h.exists_parent hn (Nat.pos_of_ne_zero hne)
      omega

/-- The children of a level are the next one: no two nodes share a child. -/
theorem isLevel_next (h : t.WellFormed) {k : Nat} {level : List Nat} (hlevel : t.IsLevel k level) :
    t.IsLevel (k + 1) (level.flatMap t.childrenOf) where
  nodup := by
    rw [List.nodup_flatMap]
    refine ⟨fun p hp => ?_, hlevel.nodup.imp fun {p q} hne => ?_⟩
    · obtain ⟨n, hn, _⟩ := (hlevel.mem_iff p).mp hp
      rw [childrenOf_of_node? hn]
      exact (h.increasing hn).imp Nat.ne_of_lt
    · intro c hp hq
      obtain ⟨n, hn, hp⟩ := exists_of_mem_childrenOf hp
      obtain ⟨m, hm, hq⟩ := exists_of_mem_childrenOf hq
      obtain ⟨x, hx⟩ := exists_node? (h.child_lt_size hn c hp)
      have hpos : 0 < c := Nat.pos_of_ne_zero fun hzero => h.root_notMem hn (hzero ▸ hp)
      obtain ⟨_, _, _, _, _, _, honly⟩ := h.exists_parent hx hpos
      exact hne ((honly hn hp).trans (honly hm hq).symm)
  mem_iff c := by
    rw [List.mem_flatMap]
    constructor
    · rintro ⟨p, hp, hc⟩
      obtain ⟨n, hn, hdepth⟩ := (hlevel.mem_iff p).mp hp
      rw [childrenOf_of_node? hn] at hc
      exact hdepth ▸ h.depth_child hn hc
    · rintro ⟨m, hm, hdepth⟩
      have hpos : 0 < c := by
        have := h.depth_le hm
        omega
      obtain ⟨p, n, hn, _, habove, hcount, _⟩ := h.exists_parent hm hpos
      refine ⟨p, (hlevel.mem_iff p).mpr ⟨n, hn, by omega⟩, ?_⟩
      rw [childrenOf_of_node? hn]
      exact List.count_pos_iff.mp (by omega)

/-- From a level on all nodes that lie as deep or deeper are listed, each once, if the levels left
are as many as there can be. -/
theorem levelsFrom_spec (h : t.WellFormed) (fuel k : Nat) {level : List Nat}
    (hlevel : t.IsLevel k level) (hfuel : t.size ≤ k + fuel) :
    (t.levelsFrom fuel level).Nodup ∧
      ∀ id, id ∈ t.levelsFrom fuel level ↔ ∃ n, t.node? id = some n ∧ k ≤ n.depth := by
  induction fuel generalizing k level with
  | zero =>
    refine ⟨List.nodup_nil, fun id => iff_of_false List.not_mem_nil ?_⟩
    rintro ⟨n, hn, hdepth⟩
    have := h.depth_le hn
    have := node?_lt_size hn
    omega
  | succ fuel ih =>
    obtain ⟨hnodup, hmem⟩ := ih (k + 1) (h.isLevel_next hlevel) (by omega)
    rw [levelsFrom_succ, List.nodup_append']
    refine ⟨⟨hlevel.nodup, hnodup, fun id hhere hbelow => ?_⟩, fun id => ?_⟩
    · obtain ⟨n, hn, hdepth⟩ := (hlevel.mem_iff id).mp hhere
      obtain ⟨m, hm, hdeeper⟩ := (hmem id).mp hbelow
      rw [hn, Option.some.injEq] at hm
      subst hm
      omega
    · rw [List.mem_append, hlevel.mem_iff, hmem]
      constructor
      · rintro (⟨n, hn, hdepth⟩ | ⟨n, hn, hdepth⟩)
        · exact ⟨n, hn, Nat.le_of_eq hdepth.symm⟩
        · exact ⟨n, hn, Nat.le_of_succ_le hdepth⟩
      · rintro ⟨n, hn, hdepth⟩
        rcases Nat.eq_or_lt_of_le hdepth with heq | hlt
        · exact .inl ⟨n, hn, heq.symm⟩
        · exact .inr ⟨n, hn, hlt⟩

theorem nodup_breadthFirst (h : t.WellFormed) : t.breadthFirst.Nodup :=
  (h.levelsFrom_spec t.size 0 h.isLevel_root (by omega)).1

theorem mem_breadthFirst (h : t.WellFormed) {id : Nat} : id ∈ t.breadthFirst ↔ id < t.size := by
  rw [breadthFirst, (h.levelsFrom_spec t.size 0 h.isLevel_root (by omega)).2]
  constructor
  · rintro ⟨n, hn, _⟩
    exact node?_lt_size hn
  · intro hid
    obtain ⟨n, hn⟩ := exists_node? hid
    exact ⟨n, hn, Nat.zero_le _⟩

end WellFormed

/-- A walk through the rest of a level: its nodes are visited, and their children line up behind
those that wait already. -/
theorem Walk.through {here next order : List Nat} (hhere : ∀ id ∈ here, ∃ n, t.node? id = some n)
    (onward : t.Walk (next ++ here.flatMap t.childrenOf) order) :
    t.Walk (here ++ next) (here ++ order) := by
  induction here generalizing next with
  | nil => simpa using onward
  | cons id rest ih =>
    obtain ⟨n, hn⟩ := hhere id List.mem_cons_self
    have hrest : t.Walk (rest ++ (next ++ n.children)) (rest ++ order) := by
      refine ih (fun j hj => hhere j (List.mem_cons_of_mem _ hj)) ?_
      rwa [List.append_assoc, ← childrenOf_of_node? hn]
    rw [← List.append_assoc] at hrest
    exact .visit hn hrest

namespace WellFormed

/-- A walk by a queue comes through the tree level by level. -/
theorem walk_levelsFrom (h : t.WellFormed) (fuel k : Nat) {level : List Nat}
    (hlevel : t.IsLevel k level) (hfuel : t.size ≤ k + fuel) :
    t.Walk level (t.levelsFrom fuel level) := by
  induction fuel generalizing k level with
  | zero =>
    have hnone : level = [] := by
      refine List.eq_nil_iff_forall_not_mem.mpr fun id hid => ?_
      obtain ⟨n, hn, hdepth⟩ := (hlevel.mem_iff id).mp hid
      have := h.depth_le hn
      have := node?_lt_size hn
      omega
    rw [hnone]
    exact .done
  | succ fuel ih =>
    have honward := ih (k + 1) (h.isLevel_next hlevel) (by omega)
    have hthere (id : Nat) (hid : id ∈ level) : ∃ n, t.node? id = some n := by
      obtain ⟨n, hn, _⟩ := (hlevel.mem_iff id).mp hid
      exact ⟨n, hn⟩
    have hwalk : t.Walk (level ++ []) (level ++ t.levelsFrom fuel (level.flatMap t.childrenOf)) :=
      .through hthere honward
    rwa [List.append_nil, ← levelsFrom_succ] at hwalk

theorem walk (h : t.WellFormed) : t.Walk [0] t.breadthFirst :=
  h.walk_levelsFrom t.size 0 h.isLevel_root (by omega)

/-- Every terminal is drawn, and nothing else is. -/
theorem faces_eq [Elementary α] (h : t.WellFormed) :
    t.faces false =
      (t.nodes.toList.filter (·.status == .terminal)).flatMap fun n => n.shape.faces := by
  rw [faces]
  congr 1
  apply List.filter_congr
  intro n hn
  obtain ⟨id, hid⟩ := List.mem_iff_getElem?.mp hn
  have hnode : t.node? id = some n := by simpa [node?] using hid
  cases hs : n.status with
  | pending => simp [isDrawn, hs]
  | expanded => simp [isDrawn, hs]
  | terminal => simp [isDrawn, hs, h.leaf hnode (by simp [hs])]

/-! ### What keeps a tree well-formed -/

theorem ofRoot (shape : Shape α) : (Tree.ofRoot shape).WellFormed where
  root := ⟨_, node?_ofRoot.mpr ⟨rfl, rfl⟩, rfl⟩
  root_notMem := by
    intro p n hn
    rw [(node?_ofRoot.mp hn).2]
    exact List.not_mem_nil
  exists_parent := by
    intro c m hm hpos
    exact absurd (node?_ofRoot.mp hm).1 (Nat.ne_of_gt hpos)
  child_lt_size := by
    intro p n hn c hc
    rw [(node?_ofRoot.mp hn).2] at hc
    cases hc
  increasing := by
    intro p n hn
    rw [(node?_ofRoot.mp hn).2]
    exact .nil
  leaf := by
    intro id n hn _
    rw [(node?_ofRoot.mp hn).2]

/-- A node without children may get any status. -/
theorem setStatus (h : t.WellFormed) {id : Nat} {n : Node α} (hn : t.node? id = some n)
    (hc : n.children = []) (status : Status) : (t.setStatus id status).WellFormed where
  root := by
    obtain ⟨r, hr, hdepth⟩ := h.root
    exact ⟨_, node?_setStatus_eq_some.mpr ⟨r, hr, rfl⟩, hdepth⟩
  root_notMem := by
    intro p m hm
    obtain ⟨x, hx, rfl⟩ := node?_setStatus_eq_some.mp hm
    exact h.root_notMem (n := x) hx
  exists_parent := by
    intro c m hm hpos
    obtain ⟨x, hx, rfl⟩ := node?_setStatus_eq_some.mp hm
    obtain ⟨p, k, hk, hlt, hdepth, hcount, honly⟩ := h.exists_parent hx hpos
    refine ⟨p, _, node?_setStatus_eq_some.mpr ⟨k, hk, rfl⟩, hlt, hdepth, hcount, ?_⟩
    intro q y hy hmem
    obtain ⟨z, hz, rfl⟩ := node?_setStatus_eq_some.mp hy
    exact honly hz hmem
  child_lt_size := by
    intro p m hm c hmem
    obtain ⟨x, hx, rfl⟩ := node?_setStatus_eq_some.mp hm
    rw [size_setStatus]
    exact h.child_lt_size hx c hmem
  increasing := by
    intro p m hm
    obtain ⟨x, hx, rfl⟩ := node?_setStatus_eq_some.mp hm
    exact h.increasing (n := x) hx
  leaf := by
    intro j m hm hne
    obtain ⟨x, hx, rfl⟩ := node?_setStatus_eq_some.mp hm
    by_cases hj : j = id
    · subst hj
      rw [hn, Option.some.injEq] at hx
      exact hx ▸ hc
    · exact h.leaf (n := x) hx (by simpa [hj] using hne)

/-- An expanded node without children may get some. -/
theorem attach (h : t.WellFormed) {id : Nat} {n : Node α} (hn : t.node? id = some n)
    (he : n.status = .expanded) (hc : n.children = []) (kids : List (Shape α × Status)) :
    (t.attach id kids).WellFormed where
  root := by
    obtain ⟨r, hr, hdepth⟩ := h.root
    exact ⟨_, node?_attach_old kids id hr, hdepth⟩
  root_notMem := by
    intro p m hm hmem
    rcases mem_children_attach hn hm hmem with ⟨x, hx, hold⟩ | ⟨_, hnew, _⟩
    · exact h.root_notMem hx hold
    · have := node?_lt_size hn
      omega
  exists_parent := by
    intro c m hm hpos
    rcases node?_attach_cases kids hn hm with ⟨x, hx, rfl⟩ | ⟨k, hk, rfl, rfl⟩
    · -- an old node keeps its parent, which may have got more children
      have hlt := node?_lt_size hx
      obtain ⟨p, y, hy, hbefore, hdepth, hcount, honly⟩ := h.exists_parent hx hpos
      refine ⟨p, _, node?_attach_old kids id hy, hbefore, hdepth, ?_, fun {q z} hz hmem => ?_⟩
      · have hnot : c ∉ if p = id then List.range' t.size kids.length else [] := by
          split
          · rw [List.mem_range'_1]
            omega
          · exact List.not_mem_nil
        rw [List.count_append, hcount, List.count_eq_zero_of_not_mem hnot]
      · rcases mem_children_attach hn hz hmem with ⟨w, hw, hold⟩ | ⟨_, hnew, _⟩
        · exact honly hw hold
        · omega
    · -- a new node is the child of the one that got it
      have hlt := node?_lt_size hn
      have hin : t.size + k ∈ List.range' t.size kids.length := by
        rw [List.mem_range'_1]
        omega
      refine ⟨id, _, node?_attach_old kids id hn, by omega, rfl, ?_, fun {q z} hz hmem => ?_⟩
      · rw [if_pos rfl, hc, List.nil_append]
        exact List.count_eq_one_of_mem List.nodup_range' hin
      · rcases mem_children_attach hn hz hmem with ⟨w, hw, hold⟩ | ⟨rfl, _⟩
        · have := h.child_lt_size hw _ hold
          omega
        · rfl
  child_lt_size := by
    intro p m hm c hmem
    rw [size_attach]
    rcases mem_children_attach hn hm hmem with ⟨x, hx, hold⟩ | ⟨_, _, hnew⟩
    · exact Nat.lt_of_lt_of_le (h.child_lt_size hx c hold) (Nat.le_add_right _ _)
    · exact hnew
  increasing := by
    intro p m hm
    rcases node?_attach_cases kids hn hm with ⟨x, hx, rfl⟩ | ⟨k, hk, rfl, rfl⟩
    · by_cases hp : p = id
      · subst hp
        rw [hn, Option.some.injEq] at hx
        subst hx
        rw [if_pos rfl, hc, List.nil_append]
        exact List.pairwise_lt_range'
      · rw [if_neg hp, List.append_nil]
        exact h.increasing hx
    · exact .nil
  leaf := by
    intro j m hm hne
    rcases node?_attach_cases kids hn hm with ⟨x, hx, rfl⟩ | ⟨k, hk, rfl, rfl⟩
    · by_cases hj : j = id
      · subst hj
        rw [hn, Option.some.injEq] at hx
        exact absurd (hx ▸ he) hne
      · rw [if_neg hj, List.append_nil]
        exact h.leaf hx hne
    · rfl

end WellFormed

end Tree

namespace Derivation

variable {α : Type}

/-- Every node that waits, but for the root, has a rule. -/
def RuledBelow (d : Derivation α) : Prop :=
  ∀ id n, 0 < id → d.tree.node? id = some n → n.status = .pending →
    d.grammar.hasRule n.shape.name = true

theorem ruledBelow_start (shape : Shape α) (g : Grammar α) : RuledBelow (.start shape g) := by
  intro id n hpos hn _
  obtain ⟨rfl, _⟩ := Tree.node?_ofRoot.mp hn
  exact absurd hpos (Nat.lt_irrefl 0)

/-- The nodes make a tree, and the queue holds nodes that wait, none twice. -/
structure WellFormed (d : Derivation α) : Prop where
  tree : d.tree.WellFormed
  nodup : d.queue.toList.Nodup
  pending : ∀ id ∈ d.queue.toList, ∃ n, d.tree.node? id = some n ∧ n.status = .pending

theorem waiting_sublist (first : Nat) (kids : List (Shape α × Status)) :
    (waiting first kids).Sublist (List.range' first kids.length) := by
  rw [← List.zipIdx_map_snd first kids]
  exact List.filter_sublist.map Prod.snd

theorem exists_of_mem_waiting {first id : Nat} {kids : List (Shape α × Status)}
    (h : id ∈ waiting first kids) :
    ∃ k, ∃ hk : k < kids.length, id = first + k ∧ kids[k].2 = .pending := by
  obtain ⟨⟨kid, j⟩, hmem, rfl⟩ := List.mem_map.mp h
  obtain ⟨hkid, hp⟩ := List.mem_filter.mp hmem
  obtain ⟨hle, hlt, hget⟩ := List.mem_zipIdx hkid
  refine ⟨j - first, by omega, by dsimp only; omega, ?_⟩
  rw [← hget]
  simpa using hp

namespace WellFormed

variable {d popped : Derivation α} {id : Nat} {n : Node α}

theorem start (shape : Shape α) (g : Grammar α) : WellFormed (.start shape g) where
  tree := .ofRoot shape
  nodup := List.nodup_singleton 0
  pending := by
    intro id hid
    rw [Derivation.start, Queue.toList_ofList, List.mem_singleton] at hid
    exact ⟨_, Tree.node?_ofRoot.mpr ⟨hid, rfl⟩, rfl⟩

theorem pop (h : d.WellFormed) (taken : d.pop? = some (id, popped)) :
    popped.WellFormed ∧ id ∉ popped.queue.toList := by
  obtain ⟨htree, _, hqueue⟩ := pop?_eq_some taken
  obtain ⟨hnot, hnodup⟩ := List.nodup_cons.mp (hqueue ▸ h.nodup)
  refine ⟨⟨htree ▸ h.tree, hnodup, fun j hj => ?_⟩, hnot⟩
  rw [htree]
  exact h.pending j (hqueue ▸ List.mem_cons_of_mem _ hj)

/-- A node that is not in the queue is dealt with. -/
theorem setStatus (h : d.WellFormed) (hnot : id ∉ d.queue.toList) (hn : d.tree.node? id = some n)
    (hc : n.children = []) (status : Status) :
    WellFormed { d with tree := d.tree.setStatus id status } where
  tree := h.tree.setStatus hn hc status
  nodup := h.nodup
  pending := by
    intro j hj
    obtain ⟨m, hm, hp⟩ := h.pending j hj
    have hne : j ≠ id := fun heq => hnot (heq ▸ hj)
    exact ⟨_, Tree.node?_setStatus_eq_some.mpr ⟨m, hm, rfl⟩, by simpa [hne] using hp⟩

/-- A node that is not in the queue gets its children. -/
theorem grow (h : d.WellFormed) (hnot : id ∉ d.queue.toList) (hn : d.tree.node? id = some n)
    (hc : n.children = []) (kids : List (Shape α × Status)) : (d.grow id kids).WellFormed := by
  have hset := h.setStatus hnot hn hc .expanded
  have hn' : (d.tree.setStatus id .expanded).node? id = some { n with status := .expanded } :=
    Tree.node?_setStatus_eq_some.mpr ⟨n, hn, by simp⟩
  refine ⟨hset.tree.attach hn' rfl hc kids, ?_, fun j hj => ?_⟩
  · rw [Derivation.grow, Queue.toList_append, List.nodup_append']
    refine ⟨h.nodup, (waiting_sublist _ _).nodup List.nodup_range', fun j hold hnew => ?_⟩
    obtain ⟨m, hm, _⟩ := h.pending j hold
    obtain ⟨k, _, rfl, _⟩ := exists_of_mem_waiting hnew
    have := Tree.node?_lt_size hm
    omega
  · rw [Derivation.grow, Queue.toList_append, List.mem_append] at hj
    rcases hj with hold | hnew
    · obtain ⟨m, hm, hp⟩ := hset.pending j hold
      exact ⟨_, Tree.node?_attach_old kids id hm, hp⟩
    · obtain ⟨k, hk, rfl, hp⟩ := exists_of_mem_waiting hnew
      have hnode := Tree.node?_attach_new kids hn' hk
      rw [Tree.size_setStatus] at hnode
      exact ⟨_, hnode, hp⟩

theorem copy (h : d.WellFormed) : d.copy.WellFormed where
  tree := h.tree
  nodup := by
    rw [Derivation.copy, Queue.toList_ofList]
    exact h.tree.nodup_breadthFirst.filter _
  pending := by
    intro id hid
    rw [Derivation.copy, Queue.toList_ofList, Tree.pendingInOrder, List.mem_filter] at hid
    exact Tree.isPending_iff.mp hid.2

end WellFormed

section Steps

variable [Elementary α]

theorem WellFormed.expand {d : Derivation α} {id : Nat} {n : Node α} (h : d.WellFormed)
    (hnot : id ∉ d.queue.toList) (hn : d.tree.node? id = some n)
    (hp : n.status = .pending) (maxNodes : Nat) : (d.expand id maxNodes).2.WellFormed := by
  have hc : n.children = [] := h.tree.leaf hn (by simp [hp])
  rcases expand_cases maxNodes hn with ⟨_, he⟩ | ⟨_, _, ⟨_, _, he⟩ | ⟨growth, _, he⟩⟩
  · rw [he]
    exact h.setStatus hnot hn hc .terminal
  · rw [he]
    exact h.setStatus hnot hn hc .expanded
  · rw [he]
    exact h.grow hnot hn hc _

theorem invariant_ruledBelow : Invariant (RuledBelow (α := α)) where
  toSteady := by
    refine .of_expand (fun {d popped id} h taken => ?_) fun {d} id maxNodes h j m hpos hm hp => ?_
    · obtain ⟨htree, hgrammar, _⟩ := pop?_eq_some taken
      rw [RuledBelow, htree, hgrammar]
      exact h
    · rw [grammar_expand]
      rcases pending_of_expand hm hp with hold | hrule
      · exact h j m hpos hold hp
      · exact hrule
  fixChoices := by
    intro d name action h j m hpos hm hp
    have hrules := (ActionSpace.snapshot_commit d.grammar name action).rules
    rw [fixChoices, Grammar.hasRule, hrules]
    exact h j m hpos hm hp
  redraw := by
    intro d rng h
    exact h
  copy := by
    intro d h
    exact h

theorem invariant_wellFormed : Invariant (WellFormed (α := α)) where
  pop h taken := (h.pop taken).1
  expand maxNodes h taken hn hp := by
    obtain ⟨hpopped, hnot⟩ := h.pop taken
    exact hpopped.expand hnot hn hp maxNodes
  fixChoices _ _ h := ⟨h.tree, h.nodup, h.pending⟩
  redraw _ h := ⟨h.tree, h.nodup, h.pending⟩
  copy h := h.copy

/-- However a derivation was reached, by calls that failed or not and whatever their clocks showed,
its nodes make a tree. What waits below the root has a rule; the queue holds waiting nodes, none
twice; a walk through the tree by a queue ends and visits every node once; and what is drawn are the
terminals, in the order in which they were made. -/
theorem tree_wellFormed (shape : Shape α) (g : Grammar α) (calls : List Call)
    (clocks : Nat → Clock) :
    let d := (start shape g).after calls clocks
    d.tree.WellFormed ∧
      (∀ id n, 0 < id → d.tree.node? id = some n → n.status = .pending →
        d.grammar.hasRule n.shape.name = true) ∧
      (d.queue.toList.Nodup ∧
        ∀ id ∈ d.queue.toList, ∃ n, d.tree.node? id = some n ∧ n.status = .pending) ∧
      (d.tree.Walk [0] d.tree.breadthFirst ∧ d.tree.breadthFirst.Nodup ∧
        ∀ id, id ∈ d.tree.breadthFirst ↔ id < d.tree.size) ∧
      d.faces false =
        (d.tree.nodes.toList.filter (·.status == .terminal)).flatMap fun n => n.shape.faces := by
  intro d
  have h : d.WellFormed := invariant_wellFormed.after (.start shape g) calls clocks
  refine ⟨h.tree, ?_, ⟨h.nodup, h.pending⟩, ⟨h.tree.walk, h.tree.nodup_breadthFirst, ?_⟩,
    h.tree.faces_eq⟩
  · exact invariant_ruledBelow.after (ruledBelow_start shape g) calls clocks
  · exact fun id => h.tree.mem_breadthFirst

end Steps

end Derivation

end ShapeGrammar
