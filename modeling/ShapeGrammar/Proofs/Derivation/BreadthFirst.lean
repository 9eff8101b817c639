import Mathlib.Data.List.Basic
import ShapeGrammar.Derivation.Tree

/-!
# Trees that are numbered level by level

As long as always the first waiting node is expanded, the numbers of the nodes run through the tree
level by level. In such a tree breadth-first order is the order of the numbers, and no node lies
higher than one with a smaller number. Main statements: `Layered.breadthFirst_eq`,
`Layered.depth_le`, and that expanding the first waiting node keeps a tree layered.
-/
namespace ShapeGrammar

theorem range_add_eq (a n : Nat) : List.range (a + n) = List.range a ++ List.range' a n := by
  simp only [List.range_eq_range', ← List.range'_append_1, Nat.zero_add]

/-- The parts of a run of numbers are runs of numbers. -/
theorem append_eq_range' {a n : Nat} {xs ys : List Nat} (h : xs ++ ys = List.range' a n) :
    xs = List.range' a xs.length ∧ ys = List.range' (a + xs.length) ys.length := by
  have hlength := congrArg List.length h
  simp only [List.length_append, List.length_range'] at hlength
  rw [← hlength, ← List.range'_append_1] at h
  exact List.append_inj h (by simp)

/-- A walk along the numbers below `n` of which none beyond `id` gives anything. -/
theorem flatMap_range_eq {f : Nat → List Nat} {id n : Nat} (hid : id < n)
    (hnil : ∀ j, id < j → f j = []) :
    (List.range n).flatMap f = (List.range id).flatMap f ++ f id := by
  have hrest : (List.range' (id + 1) (n - (id + 1))).flatMap f = [] := by
    rw [List.flatMap_eq_nil_iff]
    intro j hj
    rw [List.mem_range'_1] at hj
    exact hnil j (by omega)
  rw [show n = id + ((n - (id + 1)) + 1) by omega, range_add_eq, List.flatMap_append,
    List.range'_succ, List.flatMap_cons, hrest, List.append_nil]

namespace Tree

variable {α : Type} {t : Tree α}

theorem node?_lt_size {id : Nat} {n : Node α} (h : t.node? id = some n) : id < t.size := by
  simp only [node?, Array.getElem?_eq_some_iff] at h
  exact h.1

theorem exists_node? {id : Nat} (h : id < t.size) : ∃ n, t.node? id = some n :=
  ⟨t.nodes[id], Array.getElem?_eq_getElem h⟩

theorem childrenOf_of_node? {id : Nat} {n : Node α} (h : t.node? id = some n) :
    t.childrenOf id = n.children := by
  simp [childrenOf, h]

theorem isPending_iff {id : Nat} :
    t.isPending id = true ↔ ∃ n, t.node? id = some n ∧ n.status = .pending := by
  cases h : t.node? id with
  | none => simp [isPending, h]
  | some n => cases hs : n.status <;> simp [isPending, h, Node.isVisited, hs]

/-! ## What the operations of a tree do to its nodes -/

theorem node?_ofRoot {shape : Shape α} {id : Nat} {n : Node α} :
    (ofRoot shape).node? id = some n ↔ id = 0 ∧ n = ⟨shape, .pending, 0, []⟩ := by
  cases id with
  | zero => simp [node?, ofRoot, eq_comm]
  | succ id => simp [node?, ofRoot]

theorem node?_setStatus (t : Tree α) (id j : Nat) (status : Status) :
    (t.setStatus id status).node? j =
      (t.node? j).map fun n => { n with status := if j = id then status else n.status } := by
  simp only [node?, setStatus, Array.getElem?_modify]
  by_cases h : id = j
  · simp [h]
  · simp [h, Ne.symm h]

theorem node?_setStatus_eq_some {id j : Nat} {status : Status} {m : Node α} :
    (t.setStatus id status).node? j = some m ↔
      ∃ n, t.node? j = some n ∧
        { n with status := if j = id then status else n.status } = m := by
  rw [node?_setStatus, Option.map_eq_some_iff]

@[simp] theorem childrenOf_setStatus (t : Tree α) (id : Nat) (status : Status) :
    (t.setStatus id status).childrenOf = t.childrenOf := by
  funext j
  simp only [childrenOf, node?_setStatus]
  cases t.node? j <;> rfl

theorem node?_attach_old (kids : List (Shape α × Status)) (parent : Nat) {j : Nat} {n : Node α}
    (h : t.node? j = some n) :
    (t.attach parent kids).node? j = some { n with
      children := n.children ++ if j = parent then List.range' t.size kids.length else [] } := by
  have hj : j < t.nodes.size := node?_lt_size h
  simp only [node?] at h
  simp only [node?, attach, Array.getElem?_append, Array.size_modify, hj, if_true,
    Array.getElem?_modify, h]
  by_cases hp : parent = j
  · simp [hp]
  · simp [hp, Ne.symm hp]

theorem node?_attach_new (kids : List (Shape α × Status)) {parent : Nat} {n : Node α}
    (h : t.node? parent = some n) {k : Nat} (hk : k < kids.length) :
    (t.attach parent kids).node? (t.size + k) =
      some ⟨kids[k].1, kids[k].2, n.depth + 1, []⟩ := by
  have hs : ¬ t.size + k < t.nodes.size := by simp [size]
  have hsub : t.size + k - t.nodes.size = k := by simp [size]
  simp only [node?] at h
  simp [node?, attach, Array.getElem?_append, hs, hsub, h, hk]

/-- A node of a tree with new children is one of the old ones or one of the children. -/
theorem node?_attach_cases (kids : List (Shape α × Status)) {parent j : Nat} {p m : Node α}
    (hp : t.node? parent = some p) (h : (t.attach parent kids).node? j = some m) :
    (∃ n, t.node? j = some n ∧ m = { n with
      children := n.children ++ if j = parent then List.range' t.size kids.length else [] }) ∨
    ∃ k, ∃ hk : k < kids.length, j = t.size + k ∧
      m = ⟨kids[k].1, kids[k].2, p.depth + 1, []⟩ := by
  have hj := node?_lt_size h
  simp only [size_attach] at hj
  by_cases hold : j < t.size
  · obtain ⟨n, hn⟩ := exists_node? hold
    rw [node?_attach_old kids parent hn, Option.some.injEq] at h
    exact .inl ⟨n, hn, h.symm⟩
  · have hk : j - t.size < kids.length := by omega
    have hnew := node?_attach_new kids hp hk
    rw [show t.size + (j - t.size) = j by omega, h, Option.some.injEq] at hnew
    exact .inr ⟨j - t.size, hk, by omega, hnew⟩

/-! ## Layered trees -/

/-- A tree whose nodes are numbered level by level, and of which no node was expanded before one
with a smaller number. -/
structure Layered (t : Tree α) : Prop where
  root : ∃ n, t.node? 0 = some n ∧ n.depth = 0
  /-- The lists of children, one after the other, count the nodes from one on. -/
  children_eq : (List.range t.size).flatMap t.childrenOf = List.range' 1 (t.size - 1)
  lt_child : ∀ i, ∀ c ∈ t.childrenOf i, i < c
  depth_child : ∀ i n, t.node? i = some n → ∀ c ∈ n.children,
    ∃ m, t.node? c = some m ∧ m.depth = n.depth + 1
  leaf : ∀ i n, t.node? i = some n → n.status ≠ .expanded → n.children = []
  expanded_lt_pending : ∀ i n j m, t.node? i = some n → n.status = .pending →
    t.node? j = some m → m.status = .expanded → j < i

theorem levelsFrom_succ (t : Tree α) (fuel : Nat) (level : List Nat) :
    t.levelsFrom (fuel + 1) level = level ++ t.levelsFrom fuel (level.flatMap t.childrenOf) := by
  cases level with
  | nil => cases fuel <;> simp [levelsFrom]
  | cons id rest => rfl

namespace Layered

theorem size_pos (h : t.Layered) : 0 < t.size := by
  obtain ⟨n, hn, _⟩ := h.root
  exact node?_lt_size hn

/-- Every node but the root is a child of one with a smaller number. -/
theorem exists_parent (h : t.Layered) {c : Nat} (hc : 0 < c) (hs : c < t.size) :
    ∃ i, i < c ∧ c ∈ t.childrenOf i := by
  have hmem : c ∈ (List.range t.size).flatMap t.childrenOf := by
    rw [h.children_eq, List.mem_range'_1]
    omega
  obtain ⟨i, _, hi⟩ := List.mem_flatMap.mp hmem
  exact ⟨i, h.lt_child i c hi, hi⟩

/-- Where a level is empty the tree ends: the node after it would have its parent before it. -/
theorem eq_size_of_childrenOf_eq (h : t.Layered) {a : Nat} (hpos : 0 < a) (hle : a ≤ t.size)
    (hbefore : (List.range a).flatMap t.childrenOf = List.range' 1 (a - 1)) : a = t.size := by
  by_contra hne
  obtain ⟨i, hi, hai⟩ := h.exists_parent hpos (by omega)
  have hmem : a ∈ (List.range a).flatMap t.childrenOf :=
    List.mem_flatMap.mpr ⟨i, List.mem_range.mpr hi, hai⟩
  rw [hbefore, List.mem_range'_1] at hmem
  omega

/-- The children of a run of nodes are the next run of numbers, if the children of all nodes before
it are. -/
theorem childrenOf_run (h : t.Layered) {a len n : Nat} (hle : a + len ≤ t.size)
    (hbefore : (List.range a).flatMap t.childrenOf = List.range' 1 n) :
    ∃ count, (List.range' a len).flatMap t.childrenOf = List.range' (1 + n) count ∧
      (List.range (a + len)).flatMap t.childrenOf = List.range' 1 (n + count) ∧
      n + count < t.size := by
  have hpos := h.size_pos
  let next := (List.range' a len).flatMap t.childrenOf
  have hupto : (List.range (a + len)).flatMap t.childrenOf = List.range' 1 n ++ next := by
    rw [range_add_eq, List.flatMap_append, hbefore]
  have hall : (List.range' 1 n ++ next) ++
      (List.range' (a + len) (t.size - (a + len))).flatMap t.childrenOf =
        List.range' 1 (t.size - 1) := by
    rw [← hupto, ← List.flatMap_append, ← range_add_eq, ← h.children_eq]
    congr 2
    omega
  have hlength := congrArg List.length hall
  simp only [List.length_append, List.length_range'] at hlength
  obtain ⟨hfirst, _⟩ := append_eq_range' hall
  have hnext := (append_eq_range' hfirst).2
  rw [List.length_range'] at hnext
  refine ⟨next.length, hnext, ?_, by omega⟩
  rw [hupto, hfirst, List.length_append, List.length_range']

/-- The walk goes on at the right place: if all before `a` have the nodes up to `a + len` as their
children, the next `len` nodes are a level, and what follows them is all the rest. -/
theorem levelsFrom_eq (h : t.Layered) (fuel a len : Nat) (hpos : 0 < a + len)
    (hle : a + len ≤ t.size) (hfuel : t.size ≤ a + fuel)
    (hbefore : (List.range a).flatMap t.childrenOf = List.range' 1 (a + len - 1)) :
    t.levelsFrom fuel (List.range' a len) = List.range' a (t.size - a) := by
  induction fuel generalizing a len with
  | zero => simp [levelsFrom, show t.size - a = 0 by omega]
  | succ fuel ih =>
    rw [levelsFrom_succ]
    by_cases hlen : len = 0
    · subst hlen
      have hend : a = t.size := h.eq_size_of_childrenOf_eq hpos hle hbefore
      cases fuel <;> simp [levelsFrom, hend]
    · obtain ⟨count, hnext, hupto, hcount⟩ := h.childrenOf_run hle hbefore
      rw [show 1 + (a + len - 1) = a + len by omega] at hnext
      rw [show a + len - 1 + count = a + len + count - 1 by omega] at hupto
      rw [hnext, ih (a + len) count (by omega) (by omega) (by omega) hupto,
        List.range'_append_1]
      congr 1
      omega

theorem breadthFirst_eq (h : t.Layered) : t.breadthFirst = List.range t.size := by
  have hsize := h.size_pos
  have hwalk := h.levelsFrom_eq t.size 0 1 (by omega) (by omega) (by omega) rfl
  simpa [breadthFirst, List.range_eq_range'] using hwalk

theorem pendingInOrder_eq (h : t.Layered) :
    t.pendingInOrder = (List.range t.size).filter t.isPending := by
  rw [pendingInOrder, h.breadthFirst_eq]

theorem pairwise_flatMap_childrenOf (h : t.Layered) :
    ((List.range t.size).flatMap t.childrenOf).Pairwise (· < ·) := by
  rw [h.children_eq]
  exact List.pairwise_lt_range'

/-- The children of a node stand before those of every later node. -/
theorem child_lt_child (h : t.Layered) {p q c d : Nat} (hc : c ∈ t.childrenOf p)
    (hd : d ∈ t.childrenOf q) (hq : q < t.size) (hpq : p < q) : c < d := by
  have hblocks := (List.pairwise_flatMap.mp h.pairwise_flatMap_childrenOf).2
  rw [List.pairwise_iff_getElem] at hblocks
  have hcd := hblocks p q (by simp; omega) (by simpa using hq) hpq
  simp only [List.getElem_range] at hcd
  exact hcd c hc d hd

/-- Of two children the one with the greater number has no parent before the other's. -/
theorem parent_le (h : t.Layered) {p q c d : Nat} (hc : c ∈ t.childrenOf p)
    (hd : d ∈ t.childrenOf q) (hp : p < t.size) (hcd : c < d) : p ≤ q := by
  by_contra hqp
  have := h.child_lt_child hd hc hp (by omega)
  omega

/-- A node with a greater number lies at least as deep. -/
theorem depth_le (h : t.Layered) {i j : Nat} {n m : Node α} (hi : t.node? i = some n)
    (hj : t.node? j = some m) (hij : i ≤ j) : n.depth ≤ m.depth := by
  induction j using Nat.strongRecOn generalizing i n m with
  | ind j ih =>
    rcases Nat.eq_or_lt_of_le hij with rfl | hlt
    · rw [hi, Option.some.injEq] at hj
      exact hj ▸ Nat.le_refl _
    by_cases hzero : i = 0
    · obtain ⟨r, hr, hdepth⟩ := h.root
      rw [hzero, hr, Option.some.injEq] at hi
      subst hi
      omega
    -- both are children, and the parents stand in the same order
    obtain ⟨p, hpi, hp⟩ := h.exists_parent (c := i) (by omega) (node?_lt_size hi)
    obtain ⟨q, hqj, hq⟩ := h.exists_parent (c := j) (by omega) (node?_lt_size hj)
    have hpq := h.parent_le hp hq (Nat.lt_trans hpi (node?_lt_size hi)) hlt
    obtain ⟨x, hx⟩ := exists_node? (Nat.lt_trans hpi (node?_lt_size hi))
    obtain ⟨y, hy⟩ := exists_node? (Nat.lt_trans hqj (node?_lt_size hj))
    rw [childrenOf_of_node? hx] at hp
    rw [childrenOf_of_node? hy] at hq
    obtain ⟨n', hn', hdn⟩ := h.depth_child p x hx i hp
    obtain ⟨m', hm', hdm⟩ := h.depth_child q y hy j hq
    rw [hi, Option.some.injEq] at hn'
    rw [hj, Option.some.injEq] at hm'
    have hxy := ih q hqj hx hy hpq
    subst hn' hm'
    omega

theorem ofRoot (shape : Shape α) : (ofRoot shape).Layered where
  root := ⟨_, node?_ofRoot.mpr ⟨rfl, rfl⟩, rfl⟩
  children_eq := by simp [size, Tree.ofRoot, List.range_succ, childrenOf, node?]
  lt_child := by
    intro i c hc
    cases i <;> simp [Tree.ofRoot, childrenOf, node?] at hc
  depth_child := by
    intro i n hn c hc
    rw [(node?_ofRoot.mp hn).2] at hc
    cases hc
  leaf := by
    intro i n hn _
    rw [(node?_ofRoot.mp hn).2]
  expanded_lt_pending := by
    intro i n j m _ _ hm he
    rw [(node?_ofRoot.mp hm).2] at he
    cases he

/-- Dealing with the first waiting node keeps the tree layered. -/
theorem setStatus (h : t.Layered) {id : Nat} {n : Node α} (hn : t.node? id = some n)
    (hp : n.status = .pending)
    (hfirst : ∀ j m, t.node? j = some m → m.status = .pending → id ≤ j) {status : Status}
    (hs : status ≠ .pending) : (t.setStatus id status).Layered where
  root := by
    obtain ⟨r, hr, hdepth⟩ := h.root
    exact ⟨_, node?_setStatus_eq_some.mpr ⟨r, hr, rfl⟩, hdepth⟩
  children_eq := by simpa using h.children_eq
  lt_child i c hc := h.lt_child i c (by simpa using hc)
  depth_child := by
    intro i m hm c hc
    obtain ⟨x, hx, rfl⟩ := node?_setStatus_eq_some.mp hm
    obtain ⟨k, hk, hdepth⟩ := h.depth_child i x hx c hc
    exact ⟨_, node?_setStatus_eq_some.mpr ⟨k, hk, rfl⟩, hdepth⟩
  leaf := by
    intro i m hm hne
    obtain ⟨x, hx, rfl⟩ := node?_setStatus_eq_some.mp hm
    by_cases hi : i = id
    · subst hi
      rw [hn, Option.some.injEq] at hx
      subst hx
      exact h.leaf i n hn (by simp [hp])
    · simp only [hi, if_false] at hne
      exact h.leaf i x hx hne
  expanded_lt_pending := by
    intro i x j y hx hxp hy hye
    obtain ⟨x', hx', rfl⟩ := node?_setStatus_eq_some.mp hx
    obtain ⟨y', hy', rfl⟩ := node?_setStatus_eq_some.mp hy
    by_cases hi : i = id
    · simp only [hi, if_true] at hxp
      exact absurd hxp hs
    simp only [hi, if_false] at hxp
    by_cases hj : j = id
    · have := hfirst i x' hx' hxp
      omega
    · simp only [hj, if_false] at hye
      exact h.expanded_lt_pending i x' j y' hx' hxp hy' hye

/-- The lists of children of a tree with new children below a node that had none. -/
theorem childrenOf_attach {id : Nat} {n : Node α} (hn : t.node? id = some n)
    (hc : n.children = []) (kids : List (Shape α × Status)) (j : Nat) :
    (t.attach id kids).childrenOf j =
      if j = id then List.range' t.size kids.length else t.childrenOf j := by
  cases hm : (t.attach id kids).node? j with
  | none =>
    have hj : (t.attach id kids).size ≤ j := by
      simpa [node?, size] using hm
    rw [size_attach] at hj
    have hid := node?_lt_size hn
    have hold : t.node? j = none := by
      simp only [node?, Array.getElem?_eq_none_iff]
      exact Nat.le_trans (Nat.le_add_right _ _) hj
    rw [if_neg (by omega)]
    simp [childrenOf, hm, hold]
  | some m =>
    rw [childrenOf_of_node? hm]
    rcases node?_attach_cases kids hn hm with ⟨x, hx, rfl⟩ | ⟨k, hk, rfl, rfl⟩
    · by_cases hj : j = id
      · subst hj
        rw [hn, Option.some.injEq] at hx
        simp [← hx, hc]
      · simp [hj, childrenOf_of_node? hx]
    · have hid := node?_lt_size hn
      have hold : t.node? (t.size + k) = none := by
        simp [node?, size]
      rw [if_neg (by omega)]
      simp [childrenOf, hold]

theorem childrenOf_eq_nil (h : t.Layered) {id j : Nat}
    (hlast : ∀ j m, t.node? j = some m → m.status = .expanded → j ≤ id) (hj : id < j) :
    t.childrenOf j = [] := by
  cases hm : t.node? j with
  | none => simp [childrenOf, hm]
  | some m =>
    rw [childrenOf_of_node? hm]
    apply h.leaf j m hm
    intro hexp
    have := hlast j m hm hexp
    omega

/-- Children that are given to the last expanded node come after all other children. -/
theorem flatMap_childrenOf_attach (h : t.Layered) {id : Nat} {n : Node α}
    (hn : t.node? id = some n) (hc : n.children = [])
    (hlast : ∀ j m, t.node? j = some m → m.status = .expanded → j ≤ id)
    (kids : List (Shape α × Status)) :
    (List.range (t.attach id kids).size).flatMap (t.attach id kids).childrenOf =
      List.range' 1 (t.size - 1) ++ List.range' t.size kids.length := by
  have hid := node?_lt_size hn
  have hbefore : (List.range id).flatMap (t.attach id kids).childrenOf =
      List.range' 1 (t.size - 1) := by
    rw [← h.children_eq, flatMap_range_eq hid fun j hj => h.childrenOf_eq_nil hlast hj,
      childrenOf_of_node? hn, hc, List.append_nil]
    apply List.flatMap_congr
    intro j hj
    rw [List.mem_range] at hj
    rw [childrenOf_attach hn hc, if_neg (by omega)]
  have hbeyond (j : Nat) (hj : id < j) : (t.attach id kids).childrenOf j = [] := by
    rw [childrenOf_attach hn hc, if_neg (by omega)]
    exact h.childrenOf_eq_nil hlast hj
  rw [flatMap_range_eq (by simp; omega) hbeyond, hbefore, childrenOf_attach hn hc, if_pos rfl]

/-- Children that are given to the last expanded node keep the tree layered. -/
theorem attach (h : t.Layered) {id : Nat} {n : Node α} (hn : t.node? id = some n)
    (he : n.status = .expanded) (hc : n.children = [])
    (hlast : ∀ j m, t.node? j = some m → m.status = .expanded → j ≤ id)
    {kids : List (Shape α × Status)} (hkids : ∀ kid ∈ kids, kid.2 ≠ .expanded) :
    (t.attach id kids).Layered where
  root := by
    obtain ⟨r, hr, hdepth⟩ := h.root
    exact ⟨_, node?_attach_old kids id hr, hdepth⟩
  children_eq := by
    have hpos := h.size_pos
    have hrun : List.range' 1 (t.size - 1) ++ List.range' (1 + (t.size - 1)) kids.length =
        List.range' 1 (t.size - 1 + kids.length) := List.range'_append_1
    rw [show 1 + (t.size - 1) = t.size by omega] at hrun
    rw [h.flatMap_childrenOf_attach hn hc hlast kids, hrun, size_attach]
    congr 1
    omega
  lt_child := by
    intro i c hi
    rw [childrenOf_attach hn hc] at hi
    split at hi
    · have := node?_lt_size hn
      rw [List.mem_range'_1] at hi
      omega
    · exact h.lt_child i c hi
  depth_child := by
    intro i m hm c hcm
    rcases node?_attach_cases kids hn hm with ⟨x, hx, rfl⟩ | ⟨k, hk, rfl, rfl⟩
    · rw [List.mem_append] at hcm
      rcases hcm with hcm | hcm
      · obtain ⟨y, hy, hdepth⟩ := h.depth_child i x hx c hcm
        exact ⟨_, node?_attach_old kids id hy, hdepth⟩
      · by_cases hi : i = id
        · subst hi
          rw [hn, Option.some.injEq] at hx
          subst hx
          rw [if_pos rfl, List.mem_range'_1] at hcm
          have hk : c - t.size < kids.length := by omega
          have hnew := node?_attach_new kids hn hk
          rw [show t.size + (c - t.size) = c by omega] at hnew
          exact ⟨_, hnew, rfl⟩
        · simp [hi] at hcm
    · cases hcm
  leaf := by
    intro i m hm hne
    rcases node?_attach_cases kids hn hm with ⟨x, hx, rfl⟩ | ⟨k, hk, rfl, rfl⟩
    · by_cases hi : i = id
      · subst hi
        rw [hn, Option.some.injEq] at hx
        subst hx
        exact absurd he hne
      · simpa [hi] using h.leaf i x hx hne
    · rfl
  expanded_lt_pending := by
    intro i x j y hx hxp hy hye
    rcases node?_attach_cases kids hn hy with ⟨y', hy', rfl⟩ | ⟨k, hk, rfl, rfl⟩
    · rcases node?_attach_cases kids hn hx with ⟨x', hx', rfl⟩ | ⟨k, hk, rfl, rfl⟩
      · exact h.expanded_lt_pending i x' j y' hx' hxp hy' hye
      · have := node?_lt_size hy'
        omega
    · exact absurd hye (hkids _ (List.getElem_mem hk))

end Layered

end Tree

end ShapeGrammar
