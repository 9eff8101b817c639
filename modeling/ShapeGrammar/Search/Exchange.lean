import ShapeGrammar.Search.Acceptance
import ShapeGrammar.Search.Evaluator
import ShapeGrammar.Search.Proposal

/-!
# Replica exchange

Finds the levels under which a grammar builds what a target shows by sampling. Two chains walk
through the values of the grammar in local moves, one at a low and one at a high temperature, and
now and then exchange their temperatures: the hot chain roams, the cold one refines. A move is
accepted by its energy, the score of the building it leads to, and after each move a chain cools
down.
-/
namespace ShapeGrammar

/-- A walk through the values of a grammar. -/
structure Chain (α β : Type) where
  grammar : Grammar α
  energy : β
  temperature : β
  bestGrammar : Grammar α
  bestEnergy : β
  proposals : Nat
  accepted : Nat
  deriving DecidableEq, Repr

/-- Two chains and how often they exchanged their temperatures. -/
structure Replicas (α β : Type) where
  first : Chain α β
  second : Chain α β
  swapsAttempted : Nat
  swapsAccepted : Nat
  deriving DecidableEq, Repr

/-- The state of the chains after some iterations. -/
structure Snapshot (α β : Type) where
  iteration : Nat
  bestEnergy : β
  bestGrammar : Grammar α
  firstTemperature : β
  secondTemperature : β
  deriving DecidableEq, Repr

namespace Chain

variable {α β : Type}

/-- A chain that has not moved. -/
def start (grammar : Grammar α) (energy temperature : β) : Chain α β where
  grammar := grammar
  energy := energy
  temperature := temperature
  bestGrammar := grammar
  bestEnergy := energy
  proposals := 0
  accepted := 0

section Bookkeeping

variable [Scalar β]

/-- Takes note of an energy that was proposed. -/
def consider (c : Chain α β) (grammar : Grammar α) (energy : β) : Chain α β :=
  let c := { c with proposals := c.proposals + 1 }
  if energy < c.bestEnergy then { c with bestEnergy := energy, bestGrammar := grammar } else c

/-- Moves to a proposal. -/
def accept (c : Chain α β) (grammar : Grammar α) (energy : β) : Chain α β :=
  { c with grammar, energy, accepted := c.accepted + 1 }

def cool (c : Chain α β) (factor : β) : Chain α β :=
  { c with temperature := c.temperature / factor }

end Bookkeeping

end Chain

namespace Replicas

variable {α β : Type}

/-- The chain that has seen the lowest energy; the first one if both have. -/
def leading [Scalar β] (r : Replicas α β) : Chain α β :=
  if r.second.bestEnergy < r.first.bestEnergy then r.second else r.first

/-- Exchanges the temperatures. -/
def swap (r : Replicas α β) : Replicas α β :=
  { r with
    first := { r.first with temperature := r.second.temperature }
    second := { r.second with temperature := r.first.temperature }
    swapsAccepted := r.swapsAccepted + 1 }

def snapshot [Scalar β] (r : Replicas α β) (iteration : Nat) : Snapshot α β where
  iteration := iteration
  bestEnergy := r.leading.bestEnergy
  bestGrammar := r.leading.bestGrammar
  firstTemperature := r.first.temperature
  secondTemperature := r.second.temperature

/-- An attempt to exchange temperatures. -/
def exchange [Elementary β] (r : Replicas α β) (s : Session) : Replicas α β × Session :=
  let r := { r with swapsAttempted := r.swapsAttempted + 1 }
  let (accepted, rng) := s.rng.chance
    (swapAcceptance r.first.energy r.first.temperature r.second.energy r.second.temperature)
  (if accepted then r.swap else r, { s with rng })

end Replicas

namespace Evaluator

variable {α β : Type} [Elementary α] [Elementary β] [Precision α β]

/-- One move of a chain. -/
def moveChain (e : Evaluator α β) (cooling : β) (c : Chain α β) (s : Session) :
    Except (SearchError α) (Chain α β) × Session :=
  let (next, rng) := c.grammar.propose s.rng
  match e.energy next { s with rng } with
  | (.error cause, s) => (.error cause, s)
  | (.ok energy, s) =>
    let (accepted, rng) := s.rng.chance (moveAcceptance c.energy energy c.temperature)
    let c := c.consider next energy
    (.ok ((if accepted then c.accept next energy else c).cool cooling), { s with rng })

/-- One move of each chain. -/
def moveBoth (e : Evaluator α β) (cooling : β) (r : Replicas α β) (s : Session) :
    Except (SearchError α) (Replicas α β) × Session :=
  match e.moveChain cooling r.first s with
  | (.error cause, s) => (.error cause, s)
  | (.ok first, s) =>
    match e.moveChain cooling r.second s with
    | (.error cause, s) => (.error cause, s)
    | (.ok second, s) => (.ok { r with first, second }, s)

/-- One iteration: an exchange by chance, otherwise moves. -/
def iterateReplicas (e : Evaluator α β) (config : ExchangeConfig β) (r : Replicas α β)
    (s : Session) : Except (SearchError α) (Replicas α β) × Session :=
  let (exchanging, rng) := s.rng.chance config.swapProbability
  let s := { s with rng }
  if exchanging then
    let (r, s) := r.exchange s
    (.ok r, s)
  else e.moveBoth config.coolingFactor r s

/-- A chain at a random place. -/
def randomChain (e : Evaluator α β) (grammar : Grammar α) (temperature : β) (s : Session) :
    Except (SearchError α) (Chain α β) × Session :=
  let (grammar, rng) := grammar.releaseAll.randomizeAll s.rng
  let (energy, s) := e.energy grammar { s with rng }
  (energy.map fun energy => .start grammar energy temperature, s)

/-- Two chains at random places, the cold one first. -/
def randomReplicas (e : Evaluator α β) (config : ExchangeConfig β) (grammar : Grammar α)
    (s : Session) : Except (SearchError α) (Replicas α β) × Session :=
  match e.randomChain grammar config.lowTemperature s with
  | (.error cause, s) => (.error cause, s)
  | (.ok first, s) =>
    match e.randomChain grammar config.highTemperature s with
    | (.error cause, s) => (.error cause, s)
    | (.ok second, s) =>
      (.ok { first, second, swapsAttempted := 0, swapsAccepted := 0 }, s)

/-- Further iterations after `done` of them, with the snapshots taken. -/
def exchangeFrom (e : Evaluator α β) (config : ExchangeConfig β) :
    Nat → Nat → Replicas α β → Session →
      Except (SearchError α) (Replicas α β) × List (Snapshot α β) × Session
  | 0, _, r, s => (.ok r, [], s)
  | iterations + 1, done, r, s =>
    match e.iterateReplicas config r s with
    | (.error cause, s) => (.error cause, [], s)
    | (.ok r, s) =>
      let (result, snapshots, s) := e.exchangeFrom config iterations (done + 1) r s
      let due := 0 < config.snapshotInterval && (done + 1) % config.snapshotInterval == 0
      (result, if due then r.snapshot (done + 1) :: snapshots else snapshots, s)

/-- Samples the values of a grammar with two chains. Gives the chains they end up as, and the
snapshots taken on the way, also those before a failure. -/
def replicaExchange (e : Evaluator α β) (config : ExchangeConfig β) (grammar : Grammar α)
    (s : Session) : Except (SearchError α) (Replicas α β) × List (Snapshot α β) × Session :=
  match e.randomReplicas config grammar s with
  | (.error cause, s) => (.error cause, [], s)
  | (.ok r, s) => e.exchangeFrom config config.iterations 0 r s

end Evaluator

end ShapeGrammar
