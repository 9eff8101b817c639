import ShapeGrammar.Proofs.Derivation.Budget

/-!
# Room cuts successors off

A limit on a list, or on the nodes of a tree, changes nothing about what a rule makes: the first of
its successors are there, as many as fit, and the others are not. Main statement:
`successors_fill_room`.
-/
namespace ShapeGrammar

namespace Derivation

variable {α : Type} {d : Derivation α} {id : Nat} {n : Node α}

/-- A node that has grown, with the new nodes in order behind the children it had. -/
theorem node?_grow (hn : d.tree.node? id = some n) (kids : List (Shape α × Status)) :
    (d.grow id kids).tree.node? id =
      some { n with
        status := .expanded
        children := n.children ++ List.range' d.tree.size kids.length } := by
  have hset : (d.tree.setStatus id .expanded).node? id = some { n with status := .expanded } :=
    Tree.node?_setStatus_eq_some.mpr ⟨n, hn, by rw [if_pos rfl]⟩
  have hold := Tree.node?_attach_old kids id hset
  rwa [if_pos rfl, Tree.size_setStatus] at hold

/-- The nodes that a growing node gets. -/
theorem node?_grow_new (hn : d.tree.node? id = some n) {kids : List (Shape α × Status)} {k : Nat}
    (hk : k < kids.length) :
    (d.grow id kids).tree.node? (d.tree.size + k) =
      some ⟨kids[k].1, kids[k].2, n.depth + 1, []⟩ := by
  have hset : (d.tree.setStatus id .expanded).node? id = some { n with status := .expanded } :=
    Tree.node?_setStatus_eq_some.mpr ⟨n, hn, by rw [if_pos rfl]⟩
  have hnew := Tree.node?_attach_new kids hset hk
  rwa [Tree.size_setStatus] at hnew

variable [Elementary α]

/-- Expanding a node under a limit, when `all` are the children that it gets under none: it gets the
first of them, as many as there is room for, with the same shapes and statuses, and the expansion
is clipped exactly if some are left over. -/
structure FillsRoom (d : Derivation α) (id : Nat) (n : Node α) (all : List (Shape α × Status))
    (maxNodes : Nat) : Prop where
  result : (d.expand id maxNodes).1 =
    .ok (if maxNodes - d.tree.size < all.length then .clipped else .expanded)
  grown : (d.expand id maxNodes).2 = d.grow id (all.take (maxNodes - d.tree.size))
  node : (d.expand id maxNodes).2.tree.node? id =
    some { n with
      status := .expanded
      children := n.children ++
        List.range' d.tree.size (min (maxNodes - d.tree.size) all.length) }
  size : (d.expand id maxNodes).2.tree.size =
    d.tree.size + min (maxNodes - d.tree.size) all.length
  child : ∀ k (hk : k < all.length), k < maxNodes - d.tree.size →
    (d.expand id maxNodes).2.tree.node? (d.tree.size + k) =
      some ⟨all[k].1, all[k].2, n.depth + 1, []⟩

theorem fillsRoom_of_expand (hn : d.tree.node? id = some n) {all : List (Shape α × Status)}
    {maxNodes : Nat}
    (he : d.expand id maxNodes =
      (.ok (if maxNodes - d.tree.size < all.length then .clipped else .expanded),
        d.grow id (all.take (maxNodes - d.tree.size)))) :
    d.FillsRoom id n all maxNodes := by
  constructor
  all_goals rw [he]
  · rw [node?_grow hn, List.length_take]
  · simp [grow]
  · intro k hk hroom
    have htaken : k < (all.take (maxNodes - d.tree.size)).length := by
      rw [List.length_take]
      exact Nat.lt_min.mpr ⟨hroom, hk⟩
    have hnew := node?_grow_new hn htaken
    rwa [List.getElem_take] at hnew

/-- Whether successors go onto a list or into a tree, a limit only cuts them off. An operator
applied onto a list has the same result under every limit, and it leaves the list with the first
of the successors that an application without limit makes behind it, as many as fit; if it fails,
the list is as it was. Expanding a node under some limit comes to the same as under every other, but
for how many of the children the tree gets; with room for all of them it is not clipped. -/
theorem successors_fill_room :
    (∀ (values : String → Option α) (op : Operator α) (shape : Shape α),
      match op.apply values shape with
      | .error cause => ∀ limit out,
        (op.applyOnto values limit shape).onto out = (.error cause, out)
      | .ok made => ∀ limit out,
        (op.applyOnto values limit shape).onto out =
          (.ok made.current, out ++ (made.emitted.take (limit - out.size)).toArray)) ∧
    ∀ (d : Derivation α) (id : Nat) (n : Node α), d.tree.node? id = some n →
      (d.grammar.rule? n.shape.name = none ∧ ∀ maxNodes,
        d.expand id maxNodes =
          (.ok .terminal, { d with tree := d.tree.setStatus id .terminal })) ∨
      ∃ rule, d.grammar.rule? n.shape.name = some rule ∧
        ((∃ cause, Growth.unlimited d.grammar.value? rule.operators n.shape = .error cause ∧
          ∀ maxNodes, d.expand id maxNodes =
            (.error cause, { d with tree := d.tree.setStatus id .expanded })) ∨
        ∃ all : List (Shape α × Status),
          Growth.unlimited d.grammar.value? rule.operators n.shape = .ok (all.map Prod.fst) ∧
          (∀ maxNodes, d.tree.size + all.length ≤ maxNodes →
            d.expand id maxNodes = (.ok .expanded, d.grow id all)) ∧
          ∀ maxNodes, d.FillsRoom id n all maxNodes) := by
  refine ⟨fun values op shape => ?_, fun d id n hn => ?_⟩
  · have honto := fun limit => op.onto_applyOnto values limit shape
    cases happly : op.apply values shape with
    | error cause => simpa only [happly] using honto
    | ok made => simpa only [happly, filled] using honto
  · rcases expand_alternatives hn with hbare | ⟨rule, hrule, hfails | ⟨all, hunlimited, he⟩⟩
    · exact .inl hbare
    · exact .inr ⟨rule, hrule, .inl hfails⟩
    · refine .inr ⟨rule, hrule, .inr ⟨all, hunlimited, fun maxNodes hroom => ?_,
        fun maxNodes => fillsRoom_of_expand hn (he maxNodes)⟩⟩
      have hfits : ¬maxNodes - d.tree.size < all.length := by omega
      rw [he, if_neg hfits, List.take_of_length_le (by omega)]

/-- Tiles the scope with posts of width one. -/
def posts : Operator Float32 :=
  .tile .x ⟨"1", .number 1.0⟩ "Post"

/-- Three posts in a row. -/
def fence : Grammar Float32 where
  attributes := .empty
  rules := ⟨[("Start", ⟨"Start", [
    .resize ⟨⟨"3", .number 3.0⟩, ⟨"1", .number 1.0⟩, ⟨"1", .number 1.0⟩⟩, posts]⟩)], by decide⟩

/-- A list of one shape that may hold three takes two of the posts, a tree that may have three nodes
has room for two, and one of four nodes for all of them. -/
theorem successors_fill_room_fence :
    ((posts.applyOnto fence.value? 3 (Shape.start.resize ⟨3.0, 1.0, 1.0⟩)).onto #[.start]).2.size =
      3 ∧
    (start .start fence).tree.node? 0 = some ⟨.start, .pending, 0, []⟩ ∧
    ((start .start fence).expand 0 3).1 = .ok .clipped ∧
    ((start .start fence).expand 0 3).2.tree.size = 3 ∧
    ((start .start fence).expand 0 4).1 = .ok .expanded ∧
    ((start .start fence).expand 0 4).2.tree.size = 4 := by
  obtain ⟨honto, hexpand⟩ := @successors_fill_room Float32 _
  have hn : (start .start fence).tree.node? 0 = some ⟨.start, .pending, 0, []⟩ := rfl
  obtain ⟨made, hmade, hthree⟩ : ∃ made,
      posts.apply fence.value? (Shape.start.resize ⟨3.0, 1.0, 1.0⟩) = .ok made ∧
        made.emitted.length = 3 := ⟨_, rfl, rfl⟩
  obtain ⟨rule, hrule, all, hall, hlength⟩ : ∃ rule,
      fence.rule? "Start" = some rule ∧ ∃ all,
        Growth.unlimited fence.value? rule.operators .start = .ok all ∧ all.length = 3 :=
    ⟨_, rfl, _, rfl, rfl⟩
  refine ⟨?_, hn, ?_⟩
  · have hposts := honto fence.value? posts (Shape.start.resize ⟨3.0, 1.0, 1.0⟩)
    rw [hmade] at hposts
    simp [hposts 3 #[.start], hthree]
  · rcases hexpand _ 0 _ hn with
      ⟨hnone, _⟩ | ⟨rule', hrule', ⟨cause, hfails, _⟩ | ⟨kids, hkids, _, hfills⟩⟩
    · cases hnone
    · cases hrule.symm.trans hrule'
      cases hall.symm.trans hfails
    · cases hrule.symm.trans hrule'
      cases hall.symm.trans hkids
      have hcount : kids.length = 3 := by simpa using hlength
      have hsize : (start .start fence).tree.size = 1 := rfl
      have hfew := hfills 3
      have hmany := hfills 4
      simp [hfew.result, hfew.size, hmany.result, hmany.size, hsize, hcount]

end Derivation

end ShapeGrammar
