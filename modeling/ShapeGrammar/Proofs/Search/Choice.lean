import Mathlib.Algebra.BigOperators.Group.List.Basic
import Mathlib.Algebra.Ring.Nat
import Mathlib.Data.List.Nodup
import ShapeGrammar.Proofs.Search.Decided
import ShapeGrammar.Search.Guided

/-!
# The choice at the root

Of several values the one is chosen that none of the others exceeds, the earliest of them. A value
that is no number exceeds nothing and is exceeded by nothing; it is chosen only if it comes first.
Each round that tries an action goes through exactly one child of the root. Main statements: which
child is chosen, and how often the children have been visited together.
-/
namespace ShapeGrammar

variable {σ ε β : Type}

/-! ## The earliest of the best -/

section Values

variable [Scalar β]

/-- Whether none of some values exceeds the one at a place. -/
def Unexceeded (values : List β) (place : Nat) : Prop :=
  ∃ v, values[place]? = some v ∧ ∀ w ∈ values, ¬ v < w

instance (values : List β) (place : Nat) : Decidable (Unexceeded values place) :=
  decidable_of_iff (values[place]?.any fun v => values.all fun w => !decide (v < w)) (by
    simp [Unexceeded, Option.any_eq_true])

/-- Whether the value at a place is no number, and not the first one. -/
def PassedOver (values : List β) (place : Nat) : Prop :=
  0 < place ∧ ∃ v, values[place]? = some v ∧ Scalar.isNaN v = true

/-- The first place whose value none of the others exceeds, but for those that are passed over. -/
structure EarliestBest (values : List β) (place : Nat) : Prop where
  unexceeded : Unexceeded values place
  kept : ¬ PassedOver values place
  earliest : ∀ i < place, Unexceeded values i → PassedOver values i

/-- Where the leader of a ranking stands: nothing exceeds it, and what stands before it lies below
it or is passed over. -/
structure LeadsAt {ι : Type} (ranked : List (ι × β)) (place : Nat) (w : ι × β) : Prop where
  here : ranked[place]? = some w
  most : ∀ z ∈ ranked, ¬ w.2 < z.2
  before : ∀ j < place, ∀ z, ranked[j]? = some z →
    z.2 < w.2 ∨ 0 < j ∧ Scalar.isNaN z.2 = true

namespace LeadsAt

variable {ι : Type} {ranked : List (ι × β)} {place : Nat} {w x : ι × β}

theorem singleton (w : ι × β) : LeadsAt [w] 0 w :=
  ⟨rfl, by simpa using Scalar.lt_irrefl w.2, by simp⟩

/-- What is first in the ranking and not the leader lies below it. -/
theorem first_lt (h : LeadsAt ranked place w) (hpos : 0 < place) {z : ι × β}
    (hz : ranked[0]? = some z) : z.2 < w.2 :=
  (h.before 0 hpos z hz).resolve_right (by simp)

/-- What leads goes on to lead if the next one does not exceed it. -/
theorem keep (h : LeadsAt ranked place w) (hx : ¬ w.2 < x.2) :
    LeadsAt (ranked ++ [x]) place w := by
  have hplace := (List.getElem?_eq_some_iff.mp h.here).1
  refine ⟨by rw [List.getElem?_append_left hplace, h.here], ?_, fun j hj z hz => ?_⟩
  · intro z hz
    rcases List.mem_append.mp hz with hz | hz
    · exact h.most z hz
    · rw [List.mem_singleton.mp hz]
      exact hx
  · rw [List.getElem?_append_left (by omega)] at hz
    exact h.before j hj z hz

/-- If the next one exceeds what leads, it exceeds all numbers before it. -/
theorem overtake (h : LeadsAt ranked place w) (hx : w.2 < x.2) :
    LeadsAt (ranked ++ [x]) ranked.length x := by
  refine ⟨List.getElem?_concat_length, ?_, fun j hj z hz => ?_⟩
  · intro z hz hback
    rcases List.mem_append.mp hz with hz | hz
    · exact h.most z hz (Scalar.lt_trans hx hback)
    · rw [List.mem_singleton.mp hz] at hback
      exact Scalar.lt_irrefl _ hback
  · rw [List.getElem?_append_left hj] at hz
    cases hnan : Scalar.isNaN z.2 with
    | false =>
      have hself : (z.2 == z.2) = true := by simpa [Scalar.isNaN] using hnan
      exact .inl ((Scalar.lt_or_lt hx hself).resolve_left (h.most z (List.mem_of_getElem? hz)))
    | true =>
      -- a first one that is no number would lead, and nothing would exceed it
      refine .inr ⟨Nat.pos_of_ne_zero ?_, rfl⟩
      rintro rfl
      have hself : (z.2 == z.2) = true := by
        rcases Nat.eq_zero_or_pos place with rfl | hpos
        · rw [h.here, Option.some.injEq] at hz
          exact hz ▸ (Scalar.beq_self_of_lt hx).1
        · exact (Scalar.beq_self_of_lt (h.first_lt hpos hz)).1
      simp [Scalar.isNaN, hself] at hnan

/-- What leads so far gives way to the leader of the whole ranking. -/
theorem exists_leader (h : LeadsAt ranked place w) (rest : List (ι × β)) :
    ∃ place' w', leader (w :: rest) = some w'.1 ∧ LeadsAt (ranked ++ rest) place' w' := by
  induction rest generalizing ranked place w with
  | nil => exact ⟨place, w, rfl, by rwa [List.append_nil]⟩
  | cons x rest ih =>
    rw [leader_cons_cons, List.append_cons]
    split
    next hx => exact ih (h.overtake hx)
    next hx => exact ih (h.keep hx)

/-- The leader stands at the earliest place of the best. -/
theorem earliestBest (h : LeadsAt ranked place w) :
    EarliestBest (ranked.map Prod.snd) place := by
  have hat (j : Nat) (v : β) (hv : (ranked.map Prod.snd)[j]? = some v) :
      ∃ z, ranked[j]? = some z ∧ z.2 = v := by
    rwa [List.getElem?_map, Option.map_eq_some_iff] at hv
  refine ⟨⟨w.2, ?_, ?_⟩, ?_, ?_⟩
  · rw [List.getElem?_map, h.here, Option.map_some]
  · rw [List.forall_mem_map]
    exact h.most
  · rintro ⟨hpos, v, hv, hnan⟩
    obtain ⟨z, hz, rfl⟩ := hat place v hv
    rw [h.here, Option.some.injEq] at hz
    subst hz
    obtain ⟨first, hfirst⟩ : ∃ first, ranked[0]? = some first :=
      ⟨_, List.getElem?_eq_getElem (by have := (List.getElem?_eq_some_iff.mp h.here).1; omega)⟩
    simp [Scalar.isNaN, (Scalar.beq_self_of_lt (h.first_lt hpos hfirst)).2] at hnan
  · rintro j hj ⟨v, hv, hbest⟩
    obtain ⟨z, hz, rfl⟩ := hat j v hv
    rcases h.before j hj z hz with hlt | ⟨hpos, hnan⟩
    · exact absurd hlt (hbest w.2 (List.mem_map_of_mem (List.mem_of_getElem? h.here)))
    · exact ⟨hpos, z.2, hv, hnan⟩

end LeadsAt

/-- What leads a ranking is the earliest of the best. -/
theorem earliestBest_of_leader {ι : Type} {ranked : List (ι × β)} {i : ι}
    (h : leader ranked = some i) :
    ∃ place v, ranked[place]? = some (i, v) ∧ EarliestBest (ranked.map Prod.snd) place := by
  cases ranked with
  | nil => cases h
  | cons x rest =>
    obtain ⟨place, w, hleader, hleads⟩ := (LeadsAt.singleton x).exists_leader rest
    rw [h, Option.some.injEq] at hleader
    exact ⟨place, w.2, hleader ▸ hleads.here, hleads.earliestBest⟩

end Values

/-- A decision is for the earliest of its best candidates. -/
def Decision.IsForBest [Scalar β] (d : Decision β) : Prop :=
  ∃ place visits, d.candidates[place]? = some ⟨d.action, visits, d.best⟩ ∧
    EarliestBest (d.candidates.map (·.best)) place

namespace SearchTree

/-! ## The children of the root -/

section Children

variable {t : SearchTree σ β} {p : Problem σ ε β} {start : σ}

/-- A node is the child of one node alone. -/
theorem Linked.eq_of_mem_children (h : t.Linked p start) {i j c : Nat} {n m : SearchNode σ β}
    (hn : t.node? i = some n) (hm : t.node? j = some m) (hi : c ∈ n.children)
    (hj : c ∈ m.children) : i = j := by
  obtain ⟨x, _, hx, _, hparent, _⟩ := h.child i n hn c hi
  obtain ⟨y, _, hy, _, hparent', _⟩ := h.child j m hm c hj
  rw [hx, Option.some.injEq] at hy
  rwa [← hy, hparent, Option.some.injEq] at hparent'

/-- The way up from any node but the root goes through one child of the root. -/
theorem Linked.countP_children (h : t.Linked p start) {root : SearchNode σ β}
    (hroot : t.node? 0 = some root) {id : Nat} {n : SearchNode σ β} (hn : t.node? id = some n)
    (hpos : 0 < id) : root.children.countP (· ∈ t.lineage id) = 1 := by
  refine h.induction (P := fun id => 0 < id → root.children.countP (· ∈ t.lineage id) = 1)
    (fun hpos => absurd hpos (Nat.lt_irrefl 0)) ?_ hn hpos
  intro i m c hm hc ih _
  rw [h.lineage_child hm hc]
  by_cases hi : i = 0
  · subst hi
    rw [hroot, Option.some.injEq] at hm
    subst hm
    have hone : root.children.countP (· == c) = 1 :=
      List.count_eq_one_of_mem (h.nodup_children hroot) hc
    rw [← hone, h.lineage_root]
    refine List.countP_congr fun j hj => ?_
    have := h.lt_child hroot j hj
    simp
    omega
  · rw [← ih (Nat.pos_of_ne_zero hi)]
    refine List.countP_congr fun j hj => ?_
    have hne : j ≠ c := by
      rintro rfl
      exact hi (h.eq_of_mem_children hm hroot hc hj)
    simp [hne]

theorem sum_indicator_eq_countP {ι : Type} (r : ι → Bool) (places : List ι) :
    (places.map fun i => if r i then 1 else 0).sum = places.countP r := by
  induction places with
  | nil => rfl
  | cons i rest ih => rw [List.map_cons, List.sum_cons, ih, List.countP_cons, Nat.add_comm]

/-- If each of some things is counted at one of some places alone, the counts of all places together
are the number of things. -/
theorem sum_countP_eq_length {ι κ : Type} {r : ι → κ → Bool} {places : List ι} {things : List κ}
    (hone : ∀ x ∈ things, places.countP (r · x) = 1) :
    (places.map fun i => things.countP (r i)).sum = things.length := by
  induction things with
  | nil => simp
  | cons x things ih =>
    obtain ⟨hx, hrest⟩ := List.forall_mem_cons.mp hone
    calc
      _ = (places.map fun i => things.countP (r i) + if r i x then 1 else 0).sum := by
        simp only [List.countP_cons]
      _ = things.length + (places.map fun i => if r i x then 1 else 0).sum := by
        rw [List.sum_map_add, ih hrest]
      _ = (x :: things).length := by
        rw [sum_indicator_eq_countP (r · x), hx, List.length_cons]

end Children

section Decisions

variable [Elementary β] {t : SearchTree σ β} {p : Problem σ ε β} {start : σ} {k : Nat}
  {log : List (Finding β)}

/-- If every round has added a node, each report went up from another node than the root. -/
theorem Sound.exists_lineage_pos (h : Sound p start k log t) (hsize : t.size = 1 + k)
    {finding : Finding β} (hfinding : finding ∈ log) :
    ∃ c n, 0 < c ∧ t.node? c = some n ∧ finding.path = t.lineage c := by
  obtain ⟨wasted, hpaths, _⟩ := h.paths
  have hzero : wasted = 0 := by
    have hlength := congrArg List.length hpaths
    simp only [List.length_map, List.length_append, List.length_range', List.length_replicate,
      h.length_log] at hlength
    omega
  have hmem : finding.path ∈ log.map (·.path) := List.mem_map_of_mem hfinding
  rw [hpaths, hzero, List.replicate_zero, List.append_nil, List.mem_map] at hmem
  obtain ⟨c, hc, hpath⟩ := hmem
  rw [List.mem_range'_1] at hc
  obtain ⟨n, hn⟩ : ∃ n, t.node? c = some n := exists_node? (by omega)
  exact ⟨c, n, hc.1, hn, hpath.symm⟩

/-- What is known of the children of a node. -/
def candidates (t : SearchTree σ β) (n : SearchNode σ β) : List (Candidate β) :=
  n.children.filterMap fun c => (t.node? c).map SearchNode.candidate

omit [Elementary β] in
theorem Linked.map_candidates (h : t.Linked p start) {id : Nat} {n : SearchNode σ β}
    (hn : t.node? id = some n) {γ : Type} {f : Candidate β → γ} {g : Nat → γ}
    (hsame : ∀ c ∈ n.children, ∀ m, t.node? c = some m → f m.candidate = g c) :
    (t.candidates n).map f = n.children.map g := by
  rw [candidates, List.map_filterMap, ← List.filterMap_eq_map]
  refine List.filterMap_congr fun c hc => ?_
  obtain ⟨m, _, hm, _⟩ := h.child id n hn c hc
  simp [hm, hsame c hc m hm]

/-- If every round has added a node, the children of the root have been visited as often as there
were rounds. -/
theorem Sound.sum_visits_candidates (h : Sound p start k log t) (hsize : t.size = 1 + k)
    {root : SearchNode σ β} (hroot : t.node? 0 = some root) :
    ((t.candidates root).map (·.visits)).sum = k := by
  have hvisits : (t.candidates root).map (·.visits) =
      root.children.map fun c => log.countP fun finding => decide (c ∈ finding.path) := by
    refine h.linked.map_candidates hroot fun c _ m hm => ?_
    rw [SearchNode.candidate, (h.accounted c m hm).1, valuesAt, List.length_map,
      List.countP_eq_length_filter]
  have hone : ∀ finding ∈ log,
      root.children.countP (fun c => decide (c ∈ finding.path)) = 1 := by
    intro finding hfinding
    obtain ⟨c, n, hpos, hn, hpath⟩ := h.exists_lineage_pos hsize hfinding
    rw [hpath]
    exact h.linked.countP_children hroot hn hpos
  rw [hvisits, sum_countP_eq_length hone, h.length_log]

/-- The decision of a tree is for the earliest best child of the root, and leads where its action
leads. -/
theorem Sound.of_decision? (h : Sound p start k log t) {step rounds : Nat} {decision : Decision β}
    {after : σ} (hdecision : t.decision? step rounds = some (decision, after)) :
    p.act start decision.action = .ok after ∧ decision.step = step ∧ decision.rounds = rounds ∧
      decision.IsForBest ∧
      ∃ root, t.node? 0 = some root ∧ decision.candidates = t.candidates root := by
  obtain ⟨root, hroot, _, hstate⟩ := h.linked.root
  cases hchosen : t.bestChild? with
  | none => simp [decision?, hroot, hchosen] at hdecision
  | some c =>
    have hleader := hchosen
    rw [h.linked.bestChild?_eq hroot] at hleader
    obtain ⟨place, v, hplace, hbest⟩ := earliestBest_of_leader hleader
    rw [List.getElem?_map, Option.map_eq_some_iff] at hplace
    obtain ⟨c', hat, heq⟩ := hplace
    rw [(Prod.mk.inj heq).1] at hat
    have hc := List.mem_of_getElem? hat
    obtain ⟨n, action, hn, _, _, haction, hact⟩ := h.linked.child 0 root hroot c hc
    have hmade : t.decision? step rounds =
        some (⟨step, action, n.best, rounds, t.candidates root⟩, n.state) := by
      simp [decision?, hroot, hchosen, hn, haction, candidates]
    rw [hmade, Option.some.injEq, Prod.mk.injEq] at hdecision
    obtain ⟨rfl, rfl⟩ := hdecision
    have hbests : (t.candidates root).map (·.best) = root.children.map t.bestAt :=
      h.linked.map_candidates hroot fun _ _ _ hm => (bestAt_of_node? hm).symm
    have hvalues : (t.candidates root).map id = root.children.map
        fun c => ((t.node? c).map SearchNode.candidate).getD ⟨0, 0, 0.0⟩ :=
      h.linked.map_candidates hroot fun _ _ _ hm => by simp [hm]
    refine ⟨hstate ▸ hact, rfl, rfl, ⟨place, n.visits, ?_, ?_⟩, root, hroot, rfl⟩
    · rw [List.map_id] at hvalues
      simp [hvalues, hat, hn, SearchNode.candidate, haction]
    · rw [hbests]
      rw [List.map_map] at hbest
      exact hbest

/-- There is a decision unless the root stands alone. -/
theorem Sound.size_of_decision?_eq_none (h : Sound p start k log t) {step rounds : Nat}
    (hnone : t.decision? step rounds = none) : t.size = 1 := by
  have hpos := h.linked.size_pos
  by_contra hmany
  obtain ⟨root, hroot, _⟩ := h.linked.root
  obtain ⟨m, hm⟩ : ∃ m, t.node? 1 = some m := exists_node? (by omega)
  obtain ⟨q, n, _, hn, hone⟩ := h.linked.parent 1 m hm Nat.one_pos
  have hzero : q = 0 := Nat.lt_one_iff.mp (h.linked.lt_child hn 1 hone)
  rw [hzero, hroot, Option.some.injEq] at hn
  cases hchosen : t.bestChild? with
  | none =>
    rw [h.linked.bestChild?_eq hroot, leader_eq_none_iff, List.map_eq_nil_iff, hn] at hchosen
    simp [hchosen] at hone
  | some c =>
    have hleader := hchosen
    rw [h.linked.bestChild?_eq hroot] at hleader
    have hc := mem_of_leader hleader
    rw [List.map_map, List.mem_map] at hc
    obtain ⟨c', hc', heq⟩ := hc
    obtain ⟨x, _, hx, _⟩ := h.linked.child 0 root hroot c' hc'
    rw [show c' = c from heq] at hx
    simp [decision?, hroot, hchosen, hx] at hnone

end Decisions

end SearchTree

end ShapeGrammar
