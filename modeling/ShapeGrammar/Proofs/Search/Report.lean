import ShapeGrammar.Proofs.Search.Select

/-!
# The way back

A value is reported along a lineage, from its end to the root. As a child stands behind its parent,
each node is told what has become of its children. Main statements: what a report leaves of every
node, and that the flags and the records are right again after it.
-/
namespace ShapeGrammar

variable {σ ε β : Type}

/-- The values that were reported to a node. -/
def valuesAt (log : List (Finding β)) (id : Nat) : List β :=
  (log.filter fun finding => id ∈ finding.path).map (·.value)

theorem valuesAt_concat (log : List (Finding β)) (path : List Nat) (value : β) (id : Nat) :
    valuesAt (log ++ [⟨path, value⟩]) id =
      valuesAt log id ++ if id ∈ path then [value] else [] := by
  by_cases hid : id ∈ path <;> simp [valuesAt, hid]

theorem SearchNode.alike_record [Scalar β] (n : SearchNode σ β) (value : β)
    (belowSettled : Bool) : n.Alike (n.record value belowSettled) :=
  ⟨rfl, rfl, rfl, rfl, rfl⟩

namespace SearchTree

variable {t : SearchTree σ β} {p : Problem σ ε β} {start : σ}

/-- What is asked of the path of a report: it goes up to ever smaller numbers and leaves out no
parent. -/
structure Upward (t : SearchTree σ β) (path : List Nat) : Prop where
  sorted : path.Pairwise (· > ·)
  closed : ∀ id n, t.node? id = some n → ∀ c ∈ n.children, c ∈ path → id ∈ path

theorem Linked.upward_lineage (h : t.Linked p start) (id : Nat) : t.Upward (t.lineage id) :=
  ⟨t.pairwise_lineage id, fun _ _ hn _ hc => h.mem_lineage_of_child hn hc⟩

theorem Linked.upward_root (h : t.Linked p start) : t.Upward [0] := by
  rw [← h.lineage_root]
  exact h.upward_lineage 0

variable [Scalar β]

theorem node?_recordAt (value : β) (t : SearchTree σ β) (id j : Nat) :
    (recordAt value t id).node? j = (t.node? j).map fun n =>
      if j = id then n.record value (t.openChildren n).isEmpty else n := by
  unfold recordAt
  cases hid : t.node? id with
  | none =>
    cases hj : t.node? j with
    | none => simp
    | some n =>
      have hne : j ≠ id := by
        rintro rfl
        rw [hid] at hj
        cases hj
      simp [hne]
  | some m =>
    simp only [node?_modify]
    by_cases hj : j = id
    · simp [hj, hid]
    · simp [hj]

/-- What a report along a path leaves: the nodes of the path take in the value, and each of them
sees its children as they are in the end. -/
theorem node?_backpropagate (value : β) {path : List Nat} (hpath : path.Pairwise (· > ·))
    (hlt : ∀ id n, t.node? id = some n → ∀ c ∈ n.children, id < c) :
    ∀ id, (t.backpropagate value path).node? id = (t.node? id).map fun n =>
      if id ∈ path then n.record value ((t.backpropagate value path).openChildren n).isEmpty
      else n := by
  induction path generalizing t with
  | nil => simp [backpropagate]
  | cons x rest ih =>
    intro id
    obtain ⟨hx, hrest⟩ := List.pairwise_cons.mp hpath
    have hlt' : ∀ j n, (recordAt value t x).node? j = some n → ∀ c ∈ n.children, j < c := by
      intro j m hm
      rw [node?_recordAt, Option.map_eq_some_iff] at hm
      obtain ⟨n, hn, rfl⟩ := hm
      have := hlt j n hn
      split <;> exact this
    have hafter := ih hrest hlt'
    have hfold : t.backpropagate value (x :: rest) =
        (recordAt value t x).backpropagate value rest := rfl
    rw [hfold]
    by_cases hid : id = x
    · have hnot : x ∉ rest := fun hmem => by
        have := hx x hmem
        omega
      subst hid
      rw [hafter, node?_recordAt, Option.map_map]
      cases hn : t.node? id with
      | none => rfl
      | some n =>
        -- the children stand behind the node, so nothing more happens to them
        have hsame : ((recordAt value t id).backpropagate value rest).openChildren n =
            t.openChildren n := by
          refine openChildren_congr fun c hc => isSettledAt_congr ?_
          have hidc := hlt id n hn c hc
          have hne : c ≠ id := by omega
          have hcrest : c ∉ rest := fun hmem => by
            have := hx c hmem
            omega
          rw [hafter, node?_recordAt, Option.map_map]
          cases t.node? c <;> simp [hne, hcrest]
        simp [hnot, hsame]
    · rw [hafter, node?_recordAt, Option.map_map]
      cases t.node? id <;> simp [hid]

@[simp] theorem size_backpropagate (t : SearchTree σ β) (value : β) (path : List Nat) :
    (t.backpropagate value path).size = t.size := by
  induction path generalizing t with
  | nil => rfl
  | cons x rest ih =>
    have hrecord : (recordAt value t x).size = t.size := by
      unfold recordAt
      split
      · rfl
      · rw [size_modify]
    rw [← hrecord]
    exact ih (recordAt value t x)

section Paths

variable {value : β} {path : List Nat}

theorem Linked.node?_backpropagate_eq_some (h : t.Linked p start) (hpath : t.Upward path)
    {id : Nat} {m : SearchNode σ β} :
    (t.backpropagate value path).node? id = some m ↔ ∃ n, t.node? id = some n ∧
      (if id ∈ path then n.record value ((t.backpropagate value path).openChildren n).isEmpty
        else n) = m := by
  rw [node?_backpropagate value hpath.sorted (fun id n hn => h.lt_child hn) id,
    Option.map_eq_some_iff]

theorem Linked.backpropagate (h : t.Linked p start) (hpath : t.Upward path) :
    (t.backpropagate value path).Linked p start := by
  refine h.of_map (node?_backpropagate value hpath.sorted fun id n hn => h.lt_child hn) ?_
  intro id n
  split
  · exact SearchNode.alike_record n value _
  · exact ⟨rfl, rfl, rfl, rfl, rfl⟩

theorem Linked.lineage_backpropagate (h : t.Linked p start) (hpath : t.Upward path) :
    (t.backpropagate value path).lineage = t.lineage := by
  funext id
  refine lineage_congr fun j _ => ?_
  rw [parentOf?, parentOf?,
    node?_backpropagate value hpath.sorted (fun id n hn => h.lt_child hn) j]
  cases t.node? j with
  | none => rfl
  | some n =>
    simp only [Option.map_some, Option.bind_some]
    split <;> rfl

/-- A report visits the nodes of its path. -/
theorem Linked.visited_backpropagate (h : t.Linked p start) (hpath : t.Upward path)
    (hoff : ∀ id n, t.node? id = some n → 0 < id → id ∉ path → n.visits ≠ 0) :
    (t.backpropagate value path).Visited := by
  intro id m hm hpos
  obtain ⟨n, hn, rfl⟩ := (h.node?_backpropagate_eq_some hpath).mp hm
  by_cases hid : id ∈ path
  · rw [if_pos hid]
    exact Nat.succ_ne_zero n.visits
  · rw [if_neg hid]
    exact hoff id n hn hpos hid

/-- Nothing that is settled is unsettled by a report. -/
theorem Linked.isSettledAt_backpropagate (h : t.Linked p start) (hpath : t.Upward path) {id : Nat}
    (hid : t.isSettledAt id = true) : (t.backpropagate value path).isSettledAt id = true := by
  rw [isSettledAt, Option.any_eq_true] at hid
  obtain ⟨n, hn, hsettled⟩ := hid
  rw [isSettledAt, Option.any_eq_true]
  refine ⟨_, (h.node?_backpropagate_eq_some hpath).mpr ⟨n, hn, rfl⟩, ?_⟩
  split
  · simp [SearchNode.record, hsettled]
  · exact hsettled

/-- The flags are right after a report if they were before it. -/
theorem Judged.backpropagate (h : t.Linked p start) (hjudged : t.Judged) (hpath : t.Upward path) :
    (t.backpropagate value path).Judged := by
  intro id m hm
  obtain ⟨n, hn, rfl⟩ := (h.node?_backpropagate_eq_some hpath).mp hm
  have hbefore := hjudged id n hn
  by_cases hid : id ∈ path
  · simp only [if_pos hid]
    have hstill : n.isSettled = true → n.untried.isEmpty = true ∧
        (t.backpropagate value path).openChildren n = [] := by
      intro hsettled
      obtain ⟨_, hempty, hnone⟩ := hbefore.mp hsettled
      rw [openChildren_eq_nil_iff] at hnone ⊢
      exact ⟨hempty, fun c hc => h.isSettledAt_backpropagate hpath (hnone c hc)⟩
    have hvisits : 1 ≤ n.visits + 1 := Nat.le_add_left 1 n.visits
    simp only [SearchNode.record, openChildren, Bool.or_eq_true, Bool.and_eq_true,
      List.isEmpty_iff] at hstill ⊢
    constructor
    · rintro (hsettled | hnow)
      · exact ⟨hvisits, hstill hsettled⟩
      · exact ⟨hvisits, hnow⟩
    · rintro ⟨_, hnow⟩
      exact .inr hnow
  · simp only [if_neg hid]
    -- no child of a node off the path is on it
    have hsame : (t.backpropagate value path).openChildren n = t.openChildren n := by
      refine openChildren_congr fun c hc => isSettledAt_congr ?_
      have hcpath : c ∉ path := fun hmem => hid (hpath.closed id n hn c hc hmem)
      rw [node?_backpropagate value hpath.sorted (fun id n hn => h.lt_child hn) c]
      cases t.node? c <;> simp [hcpath]
    rw [hsame]
    exact hbefore

/-- The records of a tree are those of a log: each node counts the values that were reported to it,
and none of them exceeds its best one. -/
def Accounted (t : SearchTree σ β) (log : List (Finding β)) : Prop :=
  ∀ id n, t.node? id = some n → n.visits = (valuesAt log id).length ∧
    n.values.count = (valuesAt log id).length ∧ ∀ v ∈ valuesAt log id, ¬ n.best < v

theorem Accounted.backpropagate {log : List (Finding β)} (h : t.Linked p start)
    (haccounted : t.Accounted log) (hpath : t.Upward path) :
    (t.backpropagate value path).Accounted (log ++ [⟨path, value⟩]) := by
  intro id m hm
  obtain ⟨n, hn, rfl⟩ := (h.node?_backpropagate_eq_some hpath).mp hm
  obtain ⟨hvisits, hcount, hbest⟩ := haccounted id n hn
  rw [valuesAt_concat]
  by_cases hid : id ∈ path
  · simp only [if_pos hid, List.length_append, List.length_singleton]
    refine ⟨congrArg (· + 1) hvisits, congrArg (· + 1) hcount, ?_⟩
    intro v hv
    rw [List.mem_append, List.mem_singleton] at hv
    simp only [SearchNode.record]
    split
    next hnew =>
      rcases hv with hv | rfl
      · -- an older value does not exceed the new best one, as it does not exceed the old one
        rcases hnew with hzero | hless
        · have hpos := List.length_pos_of_mem hv
          omega
        · exact fun hlt => hbest v hv (Scalar.lt_trans hless hlt)
      · exact Scalar.lt_irrefl _
    next hold =>
      rcases hv with hv | rfl
      · exact hbest v hv
      · exact fun hlt => hold (.inr hlt)
  · simp only [if_neg hid, List.append_nil]
    exact ⟨hvisits, hcount, hbest⟩

end Paths

end SearchTree

end ShapeGrammar
