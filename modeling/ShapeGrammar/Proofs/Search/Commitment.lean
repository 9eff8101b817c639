import ShapeGrammar.Proofs.Derivation.Commitment
import ShapeGrammar.Proofs.Search.Guided

/-!
# Commitments in a search

The state of a node of a search tree is what guided steps lead to: those before the search and those
on the way down to the node. A rollout copies it and draws what is still open, so all that those
steps fixed is as they fixed it. Main statement: commitments are permanent, in derivations and in
the rollouts of a search.
-/
namespace ShapeGrammar

theorem Queue.head?_of_pop? {α : Type} {q r : Queue α} {x : α} (h : q.pop? = some (x, r)) :
    q.head? = some x := by
  obtain ⟨front, back⟩ := q
  cases front with
  | cons y rest =>
    simp only [pop?, Option.some.injEq, Prod.mk.injEq] at h
    rw [head?, h.1]
  | nil =>
    simp only [pop?] at h
    split at h
    next y rest heq =>
      simp only [Option.some.injEq, Prod.mk.injEq] at h
      rw [head?, List.getLast?_eq_head?_reverse, heq, List.head?_cons, h.1]
    · cases h

namespace Derivation

variable {α : Type} {d : Derivation α}

theorem queue_pop?_of_pop? {popped : Derivation α} {id : Nat} (h : d.pop? = some (id, popped)) :
    d.queue.pop? = some (id, popped.queue) := by
  unfold pop? at h
  split at h
  · cases h
  next taken =>
    cases h
    exact taken

/-- What has choices to make is the node that the next guided step takes. -/
theorem Canonical.exists_of_frontSpace? (h : d.Canonical []) {space : ActionSpace}
    (hspace : d.frontSpace? = some space) : ∃ id popped n, d.pop? = some (id, popped) ∧
      d.tree.node? id = some n ∧ n.status = .pending ∧
      ActionSpace.ofShape d.grammar n.shape.name = some space := by
  simp only [frontSpace?, Option.bind_eq_bind, Option.bind_eq_some_iff] at hspace
  obtain ⟨id, hfront, n, hn, hofShape⟩ := hspace
  cases hpop : d.pop? with
  | none =>
    have hempty := pop?_eq_none_iff.mp hpop
    simp only [Queue.toList, List.append_eq_nil_iff, List.reverse_eq_nil_iff] at hempty
    simp [front?, Queue.head?, hempty] at hfront
  | some taken =>
    obtain ⟨id', popped⟩ := taken
    obtain ⟨m, hm, hp⟩ := (h.pop hpop).exists_pending (List.mem_singleton_self id')
    rw [front?, Queue.head?_of_pop? (queue_pop?_of_pop? hpop), Option.some.injEq] at hfront
    subst hfront
    rw [(pop?_eq_some hpop).1, hn, Option.some.injEq] at hm
    subst hm
    exact ⟨_, popped, n, rfl, hn, hp, hofShape⟩

/-- A copy of a complete derivation is complete. -/
theorem Canonical.copy_queue_eq_nil (h : d.Canonical []) (hcomplete : d.isComplete = true) :
    d.copy.queue.toList = [] := by
  rw [h.alike_copy.queue, ← Queue.isEmpty_iff]
  exact hcomplete

section Steps

variable [Elementary α]

/-- What a step fixes is still as the step fixed it, whatever steps follow. -/
theorem Canonical.attribute?_guide_of_fixed (h : d.Canonical []) {action maxNodes i : Nat}
    {space : ActionSpace} (hspace : d.frontSpace? = some space) {key : String}
    (hkey : space.free[i]? = some key) (later : List (Nat × Nat)) :
    ∃ a, d.grammar.attribute? key = some a ∧
      (d.guide ((action, maxNodes) :: later)).grammar.attribute? key =
        some (a.commit (action / 10 ^ i % 10)) := by
  obtain ⟨id, popped, n, hpop, hn, hp, hofShape⟩ := h.exists_of_frontSpace? hspace
  have hfixed : (ActionSpace.fixedBy d.grammar n.shape.name)[i]? = some key := by
    simpa only [ActionSpace.fixedBy, hofShape] using hkey
  obtain ⟨a, ha, _, hcommit⟩ :=
    (ActionSpace.attribute?_commit d.grammar n.shape.name action).1 i key hfixed
  rw [← grammar_applyAction_of_pop? hpop hn hp action maxNodes] at hcommit
  have hclosed : (d.applyAction action maxNodes).2.grammar.isFree key = false := by
    simp [Grammar.isFree, hcommit, Attribute.isFree, Attribute.commit]
  refine ⟨a, ha, ?_⟩
  rw [guide_cons, (h.applyAction action maxNodes).attribute?_guide_of_closed hclosed, hcommit]

/-- A random completion of a copy leaves what is closed. -/
theorem attribute?_completeRandomly_of_closed {key : String}
    (hclosed : d.grammar.isFree key = false) (rng : Generator) (limits : Limits) (clock : Clock) :
    (d.copy.completeRandomly rng limits clock).2.1.grammar.attribute? key =
      d.grammar.attribute? key := by
  rw [completeRandomly_eq, (steady_grammar _).complete rfl]
  exact (d.grammar.narrows_randomizeFree rng).closed hclosed

/-- A rollout of what guided steps lead to derives under what any of those steps fixed. -/
theorem Canonical.attribute?_completeRandomly_of_fixed (h : d.Canonical [])
    {before later : List (Nat × Nat)} {action maxNodes i : Nat} {space : ActionSpace} {key : String}
    (hspace : (d.guide before).frontSpace? = some space) (hkey : space.free[i]? = some key)
    {state : Derivation α}
    (halike : Alike state (d.guide (before ++ (action, maxNodes) :: later))) :
    ∃ a, (d.guide before).grammar.attribute? key = some a ∧ ∀ rng limits clock,
      (state.copy.completeRandomly rng limits clock).2.1.grammar.attribute? key =
        some (a.commit (action / 10 ^ i % 10)) := by
  obtain ⟨a, ha, hfixed⟩ := (h.guide before).attribute?_guide_of_fixed hspace hkey later
  rw [← guide_append, ← halike.grammar] at hfixed
  refine ⟨a, ha, fun rng limits clock => ?_⟩
  rw [attribute?_completeRandomly_of_closed, hfixed]
  simp [Grammar.isFree, hfixed, Attribute.isFree, Attribute.commit]

end Steps

end Derivation

namespace Evaluator

open ShapeGrammar.Derivation ShapeGrammar.SearchTree

variable {α β : Type} [Elementary α] [Elementary β] [Precision α β]

/-- A rollout of a derivation in which nothing is left to do scores what is drawn of it, if the
renderer draws alike. -/
theorem rollout_of_queue_eq_nil (e : Evaluator α β) {d : Derivation α}
    (h : d.copy.queue.toList = []) {s s' : Session}
    (hdraw : e.renderer.draw s.effort.renders = e.renderer.draw s'.effort.renders) :
    (e.rollout d s).1 = (e.scoreFaces (d.faces false) s').1 := by
  have hredraw : (d.copy.redraw s.rng).queue.toList = [] := h
  have hrun : d.copy.completeRandomly s.rng e.limits (e.clock s.begun) =
      (.ok ((d.copy.redraw s.rng).report {} .completed), d.copy.redraw s.rng,
        (d.grammar.randomizeFree s.rng).2) := by
    have hcomplete := complete_of_queue_eq_nil hredraw e.limits (e.clock s.begun)
    simp only [completeRandomly, redraw] at hcomplete ⊢
    rw [hcomplete]
    rfl
  rw [rollout, hrun]
  simp only [scoreResult, scoreFaces, Session.countDerivation, hdraw]
  rfl

/-- What a search plays below guided steps is what the same actions lead to as guided steps. -/
theorem alike_guide_of_play (e : Evaluator α β) {d state : Derivation α} (h : d.Canonical [])
    (steps : List (Nat × Nat)) {actions : List Nat}
    (hplay : e.problem.play (d.guide steps).copy actions = .ok state) :
    Alike state (d.guide (steps ++ actions.map fun action => (action, e.limits.maxNodes))) := by
  rw [guide_append]
  exact (alike_of_play (h.guide steps).copy hplay).trans
    ((h.guide steps).alike_copy.follow _ actions)

/-- Nothing that is done with a derivation changes a rule, the name of an attribute or its
declaration, or an attribute that is fixed or is a constant, and a full derivation fixes nothing.
A guided step fixes the open choices of the node it takes, each at its digit of the action, and
leaves all other attributes. In a search below guided steps the state of a node is what the actions
on the way down lead to; a rollout of such a state derives under all that any of those steps fixed,
and if the state is complete it scores what is drawn of the state, whatever it draws at random; two
such scores agree unless the renderer itself draws them differently. All this holds whatever clocks
show. -/
theorem commitments_permanent :
    (∀ (d : Derivation α) (calls : List Call) (clocks : Nat → Clock),
      (d.after calls clocks).grammar.rules = d.grammar.rules ∧
      (d.after calls clocks).grammar.attributes.keys = d.grammar.attributes.keys ∧
      ∀ name a, d.grammar.attribute? name = some a →
        ∃ b, (d.after calls clocks).grammar.attribute? name = some b ∧
          b.declaration = a.declaration ∧ (a.fixed = true ∨ a.ranged = false → b = a)) ∧
    (∀ (d : Derivation α) (limits : Limits) (clock : Clock),
      (∀ done, (turn limits d done clock).derivation.grammar = d.grammar) ∧
      (d.complete limits clock).2.grammar = d.grammar ∧
      ∀ rng name,
        ((d.completeRandomly rng limits clock).2.1.grammar.attribute? name).map (·.fixed) =
          (d.grammar.attribute? name).map (·.fixed)) ∧
    (∀ (d popped : Derivation α) (id : Nat) (n : Node α) (action maxNodes : Nat),
      d.pop? = some (id, popped) → d.tree.node? id = some n → n.status = .pending →
      (∀ i key, (ActionSpace.fixedBy d.grammar n.shape.name)[i]? = some key →
        ∃ a, d.grammar.attribute? key = some a ∧ a.fixed = false ∧
          (d.applyAction action maxNodes).2.grammar.attribute? key =
            some (a.commit (action / 10 ^ i % 10))) ∧
      ∀ key, key ∉ ActionSpace.fixedBy d.grammar n.shape.name →
        (d.applyAction action maxNodes).2.grammar.attribute? key = d.grammar.attribute? key) ∧
    ∀ (e : Evaluator α β) (shape : Shape α) (g : Grammar α) (steps : List (Nat × Nat)),
      let root := (Derivation.start shape g).guide steps
      (∀ k log t id n, Rounds e.problem (e.searchTree root) k log t → t.node? id = some n →
        e.problem.play root.copy (t.actionsTo id) = .ok n.state) ∧
      ∀ actions state, e.problem.play root.copy actions = .ok state →
        (∀ before action maxNodes later space i key,
          steps ++ actions.map (fun action => (action, e.limits.maxNodes)) =
            before ++ (action, maxNodes) :: later →
          ((Derivation.start shape g).guide before).frontSpace? = some space →
          space.free[i]? = some key →
          ∃ a, ((Derivation.start shape g).guide before).grammar.attribute? key = some a ∧
            ∀ rng limits clock,
              (state.copy.completeRandomly rng limits clock).2.1.grammar.attribute? key =
                some (a.commit (action / 10 ^ i % 10))) ∧
        (state.isComplete = true → ∀ s s' : Session,
          e.renderer.draw s.effort.renders = e.renderer.draw s'.effort.renders →
            (e.rollout state s).1 = (e.scoreFaces (state.faces false) s').1) := by
  refine ⟨fun d calls clocks => ?_, fun d limits clock => ⟨fun done => ?_, ?_, fun rng name => ?_⟩,
    fun d popped id n action maxNodes hpop hn hp => ?_, fun e shape g steps => ?_⟩
  · have hnarrows := d.narrows_after calls clocks
    exact ⟨hnarrows.rules, hnarrows.keys, fun name a => hnarrows.exists_attribute?⟩
  · exact (steady_grammar d.grammar).turn rfl limits done clock
  · exact (steady_grammar d.grammar).complete rfl limits clock
  · rw [completeRandomly_eq, (steady_grammar _).complete rfl]
    exact d.grammar.fixed_randomizeFree rng name
  · obtain ⟨hfixed, hother⟩ := ActionSpace.attribute?_commit d.grammar n.shape.name action
    rw [grammar_applyAction_of_pop? hpop hn hp]
    refine ⟨fun i key hi => ?_, hother⟩
    obtain ⟨a, ha, hopen, hcommit⟩ := hfixed i key hi
    simp only [Attribute.isFree, Bool.and_eq_true, Bool.not_eq_true'] at hopen
    exact ⟨a, ha, hopen.2, hcommit⟩
  · intro root
    have hfirst : (Derivation.start shape g).Canonical [] := .start shape g
    refine ⟨fun k log t id n hrounds hn => hrounds.sound.linked.play_actionsTo hn, ?_⟩
    intro actions state hplay
    have halike := e.alike_guide_of_play hfirst steps hplay
    refine ⟨fun before action maxNodes later space i key hpath hspace hkey => ?_,
      fun hcomplete s s' hdraw => ?_⟩
    · exact hfirst.attribute?_completeRandomly_of_fixed hspace hkey (hpath ▸ halike)
    · have hstate : state.Canonical [] := halike.symm.canonical (hfirst.guide _)
      exact e.rollout_of_queue_eq_nil (hstate.copy_queue_eq_nil hcomplete) hdraw

end Evaluator

end ShapeGrammar
