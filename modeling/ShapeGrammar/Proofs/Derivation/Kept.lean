import ShapeGrammar.Proofs.Derivation.Following

/-!
# What every step keeps

A run takes nodes from the queue and expands those that wait, and it does nothing else. What both
keep lasts through every run, wherever a limit or a clock ends it and whether or not it fails; what
is also kept when choices are fixed, drawn or copied lasts through every sequence of calls. Main
statements: `Steady.complete` and `Invariant.after`.
-/
namespace ShapeGrammar

namespace Derivation

variable {α : Type} [Elementary α]

/-- A property that lasts while nodes are taken from the queue and those that wait are expanded. -/
structure Steady (P : Derivation α → Prop) : Prop where
  pop : ∀ {d popped : Derivation α} {id : Nat}, P d → d.pop? = some (id, popped) → P popped
  expand : ∀ {d popped : Derivation α} {id : Nat} {n : Node α} (maxNodes : Nat), P d →
    d.pop? = some (id, popped) → popped.tree.node? id = some n → n.status = .pending →
    P (popped.expand id maxNodes).2

/-- A property that lasts whatever is done. -/
structure Invariant (P : Derivation α → Prop) : Prop extends Steady P where
  fixChoices : ∀ {d : Derivation α} (name : String) (action : Nat),
    P d → P (d.fixChoices name action)
  redraw : ∀ {d : Derivation α} (rng : Generator), P d → P (d.redraw rng)
  copy : ∀ {d : Derivation α}, P d → P d.copy

variable {P : Derivation α → Prop} {d : Derivation α}

namespace Steady

/-- It is enough if every expansion keeps the property, also of nodes that are still in the queue
or do not wait. -/
theorem of_expand
    (pop : ∀ {d popped : Derivation α} {id : Nat}, P d → d.pop? = some (id, popped) → P popped)
    (expand : ∀ {d : Derivation α} (id maxNodes : Nat), P d → P (d.expand id maxNodes).2) :
    Steady P where
  pop := pop
  expand maxNodes hd taken _ _ := expand _ maxNodes (pop hd taken)

theorem turn (h : Steady P) (hd : P d) (limits : Limits) (done : Progress) (clock : Clock) :
    P (Derivation.turn limits d done clock).derivation := by
  unfold Derivation.turn
  split
  · exact hd
  next id popped taken =>
    have hpopped := h.pop hd taken
    split
    · exact hd
    · split
      · exact hpopped
      next n hn =>
        split
        · exact hpopped
        next hwaits =>
          split
          · exact hpopped
          · rw [Turn.derivation_ofExpansion]
            exact h.expand limits.maxNodes hd taken hn (by simpa [Node.isVisited] using hwaits)

theorem runFrom (h : Steady P) (hd : P d) (limits : Limits) (done : Progress) (clock : Clock) :
    P (Derivation.runFrom limits d done clock).2.2 := by
  fun_induction Derivation.runFrom limits d done clock with
  | case1 d done clock result done' d' hturn =>
    have hkept := h.turn hd limits done clock
    rwa [hturn] at hkept
  | case2 d done clock done' d' hturn ih =>
    have hkept := h.turn hd limits done clock
    rw [hturn] at hkept
    exact ih hkept

/-- What every turn keeps, every run keeps. -/
theorem complete (h : Steady P) (hd : P d) (limits : Limits) (clock : Clock) :
    P (d.complete limits clock).2 :=
  h.runFrom hd limits {} clock

end Steady

theorem pop?_fixChoices {popped : Derivation α} {id : Nat} (h : d.pop? = some (id, popped))
    (name : String) (action : Nat) :
    (d.fixChoices name action).pop? = some (id, popped.fixChoices name action) := by
  unfold pop? at h ⊢
  simp only [Derivation.fixChoices] at h ⊢
  split at h
  · cases h
  · cases h
    rfl

namespace Invariant

theorem applyAction (h : Invariant P) (hd : P d) (action maxNodes : Nat) :
    P (d.applyAction action maxNodes).2 := by
  unfold Derivation.applyAction
  split
  · exact hd
  next id popped taken =>
    have hpopped := h.pop hd taken
    split
    · exact hpopped
    next n hn =>
      split
      · exact hpopped
      next hwaits =>
        -- the choices may as well be fixed before the node is taken
        have hfixed := h.fixChoices n.shape.name action hd
        exact h.expand maxNodes hfixed (pop?_fixChoices taken n.shape.name action) hn
          (by simpa [Node.isVisited] using hwaits)

theorem perform (h : Invariant P) (hd : P d) (call : Call) (clock : Clock) :
    P (d.perform call clock) := by
  cases call with
  | guided action maxNodes => exact h.applyAction hd action maxNodes
  | full limits => exact h.complete hd limits clock
  | random rng limits => exact h.complete (h.redraw rng hd) limits clock
  | copy => exact h.copy hd

/-- What every step keeps, every sequence of calls keeps. -/
theorem after (h : Invariant P) (hd : P d) (calls : List Call) (clocks : Nat → Clock) :
    P (d.after calls clocks) := by
  induction calls generalizing d clocks with
  | nil => exact hd
  | cons call rest ih => exact ih (h.perform hd call (clocks 0)) _

end Invariant

end Derivation

end ShapeGrammar
