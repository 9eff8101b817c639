import Mathlib.Data.List.Basic
import ShapeGrammar.Proofs.Search.Pool
import ShapeGrammar.Search.Tree

/-!
# How a search tree hangs together

Every node but the root is a child of one with a smaller number and comes from it by its action; the
actions of the children and those that have not been tried are together all actions there are. The
lineage of a node are the nodes from it up to the root. Main statement: a tree in which an action
has been tried is again linked.
-/
namespace ShapeGrammar

variable {σ ε β : Type}

/-- The same node, of which something else is known. -/
structure SearchNode.Alike (n m : SearchNode σ β) : Prop where
  state : m.state = n.state
  action : m.action = n.action
  parent : m.parent = n.parent
  children : m.children = n.children
  untried : m.untried = n.untried

namespace SearchTree

variable {t u : SearchTree σ β}

theorem node?_lt_size {id : Nat} {n : SearchNode σ β} (h : t.node? id = some n) : id < t.size := by
  simp only [node?, Array.getElem?_eq_some_iff] at h
  exact h.1

theorem exists_node? {id : Nat} (h : id < t.size) : ∃ n, t.node? id = some n :=
  ⟨t.nodes[id], Array.getElem?_eq_getElem h⟩

@[simp] theorem size_modify (t : SearchTree σ β) (id : Nat)
    (f : SearchNode σ β → SearchNode σ β) : (t.modify id f).size = t.size := by
  simp [modify, size]

theorem node?_modify (t : SearchTree σ β) (id j : Nat) (f : SearchNode σ β → SearchNode σ β) :
    (t.modify id f).node? j = (t.node? j).map fun n => if j = id then f n else n := by
  simp only [node?, modify, Array.getElem?_modify]
  by_cases h : id = j
  · simp [h]
  · simp [h, Ne.symm h]

theorem node?_ofRoot [Scalar β] {p : Problem σ ε β} {start : σ} {id : Nat} {n : SearchNode σ β} :
    (ofRoot p start).node? id = some n ↔ id = 0 ∧ n = .fresh p start none none := by
  cases id with
  | zero => simp [node?, ofRoot, eq_comm]
  | succ id => simp [node?, ofRoot]

/-- The parent of a node, if it has one. -/
def parentOf? (t : SearchTree σ β) (id : Nat) : Option Nat :=
  (t.node? id).bind (·.parent)

/-- The action that led to a node, if any did. -/
def actionAt? (t : SearchTree σ β) (id : Nat) : Option Nat :=
  (t.node? id).bind (·.action)

/-- The actions that led to the children of a node. -/
def triedActions (t : SearchTree σ β) (n : SearchNode σ β) : List Nat :=
  n.children.filterMap t.actionAt?

/-! ## Lineages -/

/-- The nodes from a node up to the root. -/
def lineage (t : SearchTree σ β) (id : Nat) : List Nat :=
  match t.parentOf? id with
  | none => [id]
  | some q => if q < id then id :: t.lineage q else [id]

/-- The nodes at and below a node. -/
def subtree (t : SearchTree σ β) (id : Nat) : List Nat :=
  (List.range t.size).filter fun j => id ∈ t.lineage j

theorem mem_lineage_self (t : SearchTree σ β) (id : Nat) : id ∈ t.lineage id := by
  rw [lineage]
  split
  · simp
  · split <;> simp

theorem le_of_mem_lineage {id j : Nat} (h : j ∈ t.lineage id) : j ≤ id := by
  fun_induction lineage t id with
  | case1 id _ => simp_all
  | case2 id q _ hq ih =>
    rcases List.mem_cons.mp h with rfl | h
    · exact Nat.le_refl _
    · have := ih h
      omega
  | case3 id q _ _ => simp_all

/-- On the way up the numbers become smaller. -/
theorem pairwise_lineage (t : SearchTree σ β) (id : Nat) :
    (t.lineage id).Pairwise (· > ·) := by
  fun_induction lineage t id with
  | case1 id _ => simp
  | case2 id q _ hq ih =>
    refine List.pairwise_cons.mpr ⟨fun j hj => ?_, ih⟩
    have := le_of_mem_lineage hj
    omega
  | case3 id q _ _ => simp

/-- What lies above a node that lies above lies above. -/
theorem mem_lineage_trans {i j id : Nat} (hi : i ∈ t.lineage j) (hj : j ∈ t.lineage id) :
    i ∈ t.lineage id := by
  fun_induction lineage t id with
  | case1 id h =>
    rw [List.mem_singleton] at hj
    rwa [hj, lineage, h] at hi
  | case2 id q h hq ih =>
    rcases List.mem_cons.mp hj with rfl | hj
    · rw [lineage, h] at hi
      simpa only [if_pos hq] using hi
    · exact List.mem_cons_of_mem _ (ih hj)
  | case3 id q h hq =>
    rw [List.mem_singleton] at hj
    rw [hj, lineage, h] at hi
    simpa only [if_neg hq] using hi

/-- Trees that agree about the parents of the nodes up to some number agree about its lineage. -/
theorem lineage_congr {id : Nat} (h : ∀ j ≤ id, u.parentOf? j = t.parentOf? j) :
    u.lineage id = t.lineage id := by
  fun_induction lineage t id with
  | case1 id hp => rw [lineage, h id (Nat.le_refl _), hp]
  | case2 id q hp hq ih =>
    rw [lineage, h id (Nat.le_refl _), hp]
    simp only [if_pos hq]
    rw [ih fun j hj => h j (by omega)]
  | case3 id q hp hq =>
    rw [lineage, h id (Nat.le_refl _), hp]
    simp only [if_neg hq]

/-! ## Linked trees -/

/-- A tree of states that actions lead to, from `start` on. -/
structure Linked (p : Problem σ ε β) (start : σ) (t : SearchTree σ β) : Prop where
  root : ∃ n, t.node? 0 = some n ∧ n.parent = none ∧ n.state = start
  child : ∀ id n, t.node? id = some n → ∀ c ∈ n.children, ∃ m a, t.node? c = some m ∧ id < c ∧
    m.parent = some id ∧ m.action = some a ∧ p.act n.state a = .ok m.state
  parent : ∀ c m, t.node? c = some m → 0 < c → ∃ q n, m.parent = some q ∧
    t.node? q = some n ∧ c ∈ n.children
  tried : ∀ id n, t.node? id = some n →
    (n.untried.toList ++ t.triedActions n).Perm (List.range (p.actionCount n.state))

namespace Linked

variable {p : Problem σ ε β} {start : σ}

theorem ofRoot [Scalar β] (p : Problem σ ε β) (start : σ) :
    (SearchTree.ofRoot p start).Linked p start where
  root := ⟨.fresh p start none none, rfl, rfl, rfl⟩
  child := by
    intro id n hn c hc
    obtain ⟨_, rfl⟩ := node?_ofRoot.mp hn
    simp [SearchNode.fresh] at hc
  parent := by
    intro c m hm hpos
    have := (node?_ofRoot.mp hm).1
    omega
  tried := by
    intro id n hn
    obtain ⟨_, rfl⟩ := node?_ofRoot.mp hn
    simp [triedActions, SearchNode.fresh]

theorem lt_child (h : t.Linked p start) {id : Nat} {n : SearchNode σ β}
    (hn : t.node? id = some n) : ∀ c ∈ n.children, id < c := by
  intro c hc
  obtain ⟨_, _, _, hlt, _⟩ := h.child id n hn c hc
  exact hlt

theorem size_pos (h : t.Linked p start) : 0 < t.size := by
  obtain ⟨n, hn, _⟩ := h.root
  exact node?_lt_size hn

theorem lineage_root (h : t.Linked p start) : t.lineage 0 = [0] := by
  obtain ⟨n, hn, hparent, _⟩ := h.root
  rw [lineage, parentOf?, hn, Option.bind_some, hparent]

theorem lineage_child (h : t.Linked p start) {id c : Nat} {n : SearchNode σ β}
    (hn : t.node? id = some n) (hc : c ∈ n.children) : t.lineage c = c :: t.lineage id := by
  obtain ⟨m, a, hm, hlt, hparent, _⟩ := h.child id n hn c hc
  rw [lineage, parentOf?, hm, Option.bind_some, hparent]
  simp only [if_pos hlt]

/-- Induction from the root down to the nodes of a tree. -/
theorem induction (h : t.Linked p start) {P : Nat → Prop} (hroot : P 0)
    (hchild : ∀ id n c, t.node? id = some n → c ∈ n.children → P id → P c)
    {id : Nat} {n : SearchNode σ β} (hn : t.node? id = some n) : P id := by
  induction id using Nat.strongRecOn generalizing n with
  | ind id ih =>
    by_cases hid : id = 0
    · rw [hid]
      exact hroot
    · obtain ⟨q, m, _, hm, hc⟩ := h.parent id n hn (by omega)
      obtain ⟨_, _, _, hlt, _⟩ := h.child q m hm id hc
      exact hchild q m id hm hc (ih q hlt hm)

theorem zero_mem_lineage (h : t.Linked p start) {id : Nat} {n : SearchNode σ β}
    (hn : t.node? id = some n) : 0 ∈ t.lineage id := by
  refine h.induction (P := fun id => 0 ∈ t.lineage id) (t.mem_lineage_self 0) ?_ hn
  intro id m c hm hc ih
  rw [h.lineage_child hm hc]
  exact List.mem_cons_of_mem _ ih

/-- With a node its parent is on the way up. -/
theorem mem_lineage_of_child (h : t.Linked p start) {id i c : Nat} {n : SearchNode σ β}
    (hn : t.node? i = some n) (hc : c ∈ n.children) (hmem : c ∈ t.lineage id) :
    i ∈ t.lineage id := by
  refine mem_lineage_trans ?_ hmem
  rw [h.lineage_child hn hc]
  exact List.mem_cons_of_mem _ (t.mem_lineage_self i)

/-- Where there is nothing left to try, each action there is has led to a child. -/
theorem exists_child (h : t.Linked p start) {id action : Nat} {n : SearchNode σ β}
    (hn : t.node? id = some n) (hempty : n.untried.isEmpty = true)
    (haction : action < p.actionCount n.state) :
    ∃ c m, c ∈ n.children ∧ t.node? c = some m ∧ m.action = some action ∧
      p.act n.state action = .ok m.state := by
  have htried := h.tried id n hn
  rw [ActionPool.isEmpty_iff.mp hempty, List.nil_append] at htried
  have hmem : action ∈ t.triedActions n := htried.mem_iff.mpr (List.mem_range.mpr haction)
  obtain ⟨c, hc, hat⟩ := List.mem_filterMap.mp hmem
  obtain ⟨m, a, hm, _, _, ha, hact⟩ := h.child id n hn c hc
  have hsame : a = action := by
    rw [actionAt?, hm, Option.bind_some, ha] at hat
    exact Option.some.inj hat
  rw [hsame] at ha hact
  exact ⟨c, m, hc, hm, ha, hact⟩

/-- A tree is linked as long as only what is known of its nodes changes. -/
theorem of_map (h : t.Linked p start) {f : Nat → SearchNode σ β → SearchNode σ β}
    (hnode : ∀ j, u.node? j = (t.node? j).map (f j))
    (hf : ∀ j n, SearchNode.Alike n (f j n)) : u.Linked p start := by
  have hsome (j : Nat) (m : SearchNode σ β) :
      u.node? j = some m ↔ ∃ n, t.node? j = some n ∧ f j n = m := by
    rw [hnode, Option.map_eq_some_iff]
  have haction : u.actionAt? = t.actionAt? := by
    funext j
    rw [actionAt?, actionAt?, hnode]
    cases t.node? j with
    | none => rfl
    | some n => exact (hf j n).action
  refine ⟨?root, ?child, ?parent, ?tried⟩
  case root =>
    obtain ⟨n, hn, hparent, hstate⟩ := h.root
    refine ⟨f 0 n, (hsome 0 _).mpr ⟨n, hn, rfl⟩, ?_, ?_⟩
    · rw [(hf 0 n).parent, hparent]
    · rw [(hf 0 n).state, hstate]
  case child =>
    intro id m hm c hc
    obtain ⟨n, hn, rfl⟩ := (hsome id m).mp hm
    rw [(hf id n).children] at hc
    obtain ⟨k, a, hk, hlt, hparent, hact, hstate⟩ := h.child id n hn c hc
    refine ⟨f c k, a, (hsome c _).mpr ⟨k, hk, rfl⟩, hlt, ?_, ?_, ?_⟩
    · rw [(hf c k).parent, hparent]
    · rw [(hf c k).action, hact]
    · rw [(hf c k).state, (hf id n).state, hstate]
  case parent =>
    intro c m hm hpos
    obtain ⟨k, hk, rfl⟩ := (hsome c m).mp hm
    obtain ⟨q, n, hparent, hn, hc⟩ := h.parent c k hk hpos
    refine ⟨q, f q n, ?_, (hsome q _).mpr ⟨n, hn, rfl⟩, ?_⟩
    · rw [(hf c k).parent, hparent]
    · rw [(hf q n).children]
      exact hc
  case tried =>
    intro id m hm
    obtain ⟨n, hn, rfl⟩ := (hsome id m).mp hm
    rw [triedActions, haction, (hf id n).untried, (hf id n).children, (hf id n).state]
    exact h.tried id n hn

end Linked

/-! ## Trying an action -/

section Try

variable [Scalar β] {p : Problem σ ε β} {start : σ} {id action : Nat} {n : SearchNode σ β}
  {untried : ActionPool} {state : σ}

@[simp] theorem size_attach (t : SearchTree σ β) :
    (t.attach p id action state).size = t.size + 1 := by
  simp [attach, size]

theorem node?_attach_old {j : Nat} {m : SearchNode σ β} (hm : t.node? j = some m) :
    (t.attach p id action state).node? j =
      some (if j = id then { m with children := m.children ++ [t.size] } else m) := by
  have hj : j ≠ t.nodes.size := Nat.ne_of_lt (node?_lt_size hm)
  simp only [node?] at hm
  simp only [node?, attach, Array.getElem?_push, Array.size_modify, if_neg hj,
    Array.getElem?_modify, hm]
  by_cases hid : id = j
  · simp [hid]
  · simp [hid, Ne.symm hid]

theorem node?_attach_new (t : SearchTree σ β) :
    (t.attach p id action state).node? t.size =
      some (.fresh p state (some action) (some id)) := by
  simp only [node?, attach, size, Array.getElem?_push, Array.size_modify, if_true]

/-- The tree in which an action of a node has been tried. -/
def tryAction (t : SearchTree σ β) (p : Problem σ ε β) (id action : Nat) (untried : ActionPool)
    (state : σ) : SearchTree σ β :=
  (t.modify id fun n => { n with untried }).attach p id action state

@[simp] theorem size_tryAction (t : SearchTree σ β) :
    (t.tryAction p id action untried state).size = t.size + 1 := by
  rw [tryAction, size_attach, size_modify]

theorem node?_tryAction_old {j : Nat} {m : SearchNode σ β} (hm : t.node? j = some m) :
    (t.tryAction p id action untried state).node? j = some (if j = id then
      { m with untried, children := m.children ++ [t.size] } else m) := by
  have hmodified : (t.modify id fun n => { n with untried }).node? j =
      some (if j = id then { m with untried } else m) := by
    rw [node?_modify, hm, Option.map_some]
  rw [tryAction, node?_attach_old hmodified, size_modify]
  by_cases hid : j = id
  · simp only [hid, if_true]
  · simp only [hid, if_false]

theorem node?_tryAction_new (t : SearchTree σ β) :
    (t.tryAction p id action untried state).node? t.size =
      some (.fresh p state (some action) (some id)) := by
  rw [tryAction, ← size_modify t id fun n => { n with untried }, node?_attach_new]

/-- A node of a tree in which an action has been tried is an old one or the new one. -/
theorem node?_tryAction_cases {j : Nat} {m : SearchNode σ β}
    (h : (t.tryAction p id action untried state).node? j = some m) :
    (∃ x, t.node? j = some x ∧ m = if j = id then
      { x with untried, children := x.children ++ [t.size] } else x) ∨
    j = t.size ∧ m = .fresh p state (some action) (some id) := by
  have hj := node?_lt_size h
  rw [size_tryAction] at hj
  by_cases hold : j < t.size
  · obtain ⟨x, hx⟩ := exists_node? hold
    rw [node?_tryAction_old hx, Option.some.injEq] at h
    exact .inl ⟨x, hx, h.symm⟩
  · have hnew : j = t.size := by omega
    rw [hnew, node?_tryAction_new, Option.some.injEq] at h
    exact .inr ⟨hnew, h.symm⟩

theorem parentOf?_tryAction_old {j : Nat} (hj : j < t.size) :
    (t.tryAction p id action untried state).parentOf? j = t.parentOf? j := by
  obtain ⟨m, hm⟩ := exists_node? hj
  rw [parentOf?, parentOf?, node?_tryAction_old hm, hm]
  split <;> rfl

theorem actionAt?_tryAction_old {j : Nat} (hj : j < t.size) :
    (t.tryAction p id action untried state).actionAt? j = t.actionAt? j := by
  obtain ⟨m, hm⟩ := exists_node? hj
  rw [actionAt?, actionAt?, node?_tryAction_old hm, hm]
  split <;> rfl

theorem Linked.triedActions_tryAction (h : t.Linked p start) {j : Nat} {m : SearchNode σ β}
    (hm : t.node? j = some m) :
    (t.tryAction p id action untried state).triedActions m = t.triedActions m := by
  refine List.filterMap_congr fun c hc => ?_
  obtain ⟨k, _, hk, _⟩ := h.child j m hm c hc
  exact actionAt?_tryAction_old (node?_lt_size hk)

/-- The actions of a node are still all there are once one of them has been tried. -/
theorem Linked.tried_tryAction (h : t.Linked p start) (hn : t.node? id = some n)
    (hdraw : n.untried.toList.Perm (action :: untried.toList)) :
    (untried.toList ++ (t.tryAction p id action untried state).triedActions
      { n with untried, children := n.children ++ [t.size] }).Perm
        (List.range (p.actionCount n.state)) := by
  have hnew : (t.tryAction p id action untried state).actionAt? t.size = some action := by
    rw [actionAt?, node?_tryAction_new]
    rfl
  have hmade : (t.tryAction p id action untried state).triedActions
      { n with untried, children := n.children ++ [t.size] } = t.triedActions n ++ [action] := by
    have hold : (t.tryAction p id action untried state).triedActions n = t.triedActions n :=
      h.triedActions_tryAction hn
    rw [← hold, triedActions, List.filterMap_append]
    simp [triedActions, hnew]
  rw [hmade, ← List.append_assoc]
  have hmoved := List.perm_append_singleton action (untried.toList ++ t.triedActions n)
  exact (hmoved.trans (hdraw.symm.append_right _)).trans (h.tried id n hn)

/-- A tree is linked after an action has been tried that was drawn and did not fail. -/
theorem Linked.tryAction (h : t.Linked p start) (hn : t.node? id = some n)
    (hdraw : n.untried.toList.Perm (action :: untried.toList))
    (hact : p.act n.state action = .ok state) :
    (t.tryAction p id action untried state).Linked p start where
  root := by
    obtain ⟨m, hm, hparent, hstate⟩ := h.root
    refine ⟨_, node?_tryAction_old hm, ?_, ?_⟩
    · split <;> exact hparent
    · split <;> exact hstate
  child := by
    intro j m hm c hc
    rcases node?_tryAction_cases hm with ⟨x, hx, rfl⟩ | ⟨_, rfl⟩
    · have hold : c ∈ x.children → ∃ k a,
          (t.tryAction p id action untried state).node? c = some k ∧ j < c ∧
            k.parent = some j ∧ k.action = some a ∧ p.act x.state a = .ok k.state := by
        intro hc
        obtain ⟨k, a, hk, hlt, hparent, haction, hstate⟩ := h.child j x hx c hc
        refine ⟨_, a, node?_tryAction_old hk, hlt, ?_, ?_, ?_⟩
        · split <;> exact hparent
        · split <;> exact haction
        · split <;> exact hstate
      by_cases hj : j = id
      · simp only [hj, if_true, List.mem_append, List.mem_singleton] at hc ⊢
        rw [hj, hn, Option.some.injEq] at hx
        rcases hc with hc | rfl
        · rw [hj] at hold
          exact hold hc
        · exact ⟨_, action, t.node?_tryAction_new, node?_lt_size hn, rfl, rfl, hx ▸ hact⟩
      · simp only [hj, if_false] at hc ⊢
        exact hold hc
    · simp [SearchNode.fresh] at hc
  parent := by
    intro c m hm hpos
    rcases node?_tryAction_cases hm with ⟨x, hx, rfl⟩ | ⟨rfl, rfl⟩
    · obtain ⟨q, k, hparent, hk, hc⟩ := h.parent c x hx hpos
      refine ⟨q, _, ?_, node?_tryAction_old hk, ?_⟩
      · split <;> exact hparent
      · split
        · exact List.mem_append_left _ hc
        · exact hc
    · refine ⟨id, _, rfl, node?_tryAction_old hn, ?_⟩
      rw [if_pos rfl]
      exact List.mem_append_right _ (List.mem_singleton_self _)
  tried := by
    intro j m hm
    rcases node?_tryAction_cases hm with ⟨x, hx, rfl⟩ | ⟨rfl, rfl⟩
    · by_cases hj : j = id
      · rw [hj, hn, Option.some.injEq] at hx
        subst hx
        simp only [hj, if_true]
        exact h.tried_tryAction hn hdraw
      · simp only [hj, if_false]
        rw [h.triedActions_tryAction hx]
        exact h.tried j x hx
    · simp [triedActions, SearchNode.fresh]

theorem lineage_tryAction_old {j : Nat} (hj : j < t.size) :
    (t.tryAction p id action untried state).lineage j = t.lineage j :=
  lineage_congr fun _ hi => parentOf?_tryAction_old (Nat.lt_of_le_of_lt hi hj)

theorem Linked.lineage_tryAction_new (h : t.Linked p start) (hn : t.node? id = some n)
    (hdraw : n.untried.toList.Perm (action :: untried.toList))
    (hact : p.act n.state action = .ok state) :
    (t.tryAction p id action untried state).lineage t.size = t.size :: t.lineage id := by
  rw [(h.tryAction hn hdraw hact).lineage_child (node?_tryAction_old hn) (by simp),
    lineage_tryAction_old (node?_lt_size hn)]

/-- The lineages of all nodes but the root, the new one's last. -/
theorem Linked.map_lineage_tryAction (h : t.Linked p start) (hn : t.node? id = some n)
    (hdraw : n.untried.toList.Perm (action :: untried.toList))
    (hact : p.act n.state action = .ok state) :
    (List.range' 1 t.size).map (t.tryAction p id action untried state).lineage =
      (List.range' 1 (t.size - 1)).map t.lineage ++ [t.size :: t.lineage id] := by
  have hpos := h.size_pos
  have hrange : List.range' 1 (t.size - 1 + 1) =
      List.range' 1 (t.size - 1) ++ [1 + 1 * (t.size - 1)] := List.range'_concat
  rw [show t.size - 1 + 1 = t.size by omega, show 1 + 1 * (t.size - 1) = t.size by omega] at hrange
  rw [hrange, List.map_append, List.map_singleton, h.lineage_tryAction_new hn hdraw hact]
  congr 1
  refine List.map_congr_left fun c hc => lineage_tryAction_old ?_
  rw [List.mem_range'_1] at hc
  omega

end Try

end SearchTree

end ShapeGrammar
