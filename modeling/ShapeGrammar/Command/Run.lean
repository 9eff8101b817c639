import ShapeGrammar.Command.Arguments
import ShapeGrammar.Command.Report
import ShapeGrammar.Image.Resample
import ShapeGrammar.Number.Machine
import ShapeGrammar.Search.ConfigSource
import ShapeGrammar.Search.Exchange
import ShapeGrammar.Search.Guided

/-!
# Commands

Three commands work on a grammar: `mcts` and `mcmc` search for the levels under which it builds
what a target drawing shows, and `render` draws random buildings. Each says what it does and leaves
its results in a folder. Clocks stand still while a command works: a limit on the time of a
derivation stops it only if it allows no time at all.
-/
namespace ShapeGrammar

namespace Command

/-- What a command works with: its arguments, the files it finds and the seed of a moment. -/
structure Setting where
  arguments : Arguments
  folder : Folder
  freshSeed : UInt64

/-- How a command has to be called. -/
def usage : List String :=
  ["Usage:",
    "  inverse mcts <grammar.json> <target.png> [--steps N] [--iterations N]",
    "  inverse mcmc <grammar.json> <target.png> [--iterations N]",
    "  inverse render <grammar.json> [--count N] [--shaded]",
    "Common flags: --config FILE  --seed N  --out DIR"]

def grammarMessage (e : GrammarError Float32) : String :=
  e.message Float32.text

def searchMessage (e : SearchError Float32) : String :=
  e.message Float32.text

namespace Setting

/-- The configuration a command is given, under the numbers among its arguments. -/
def config (c : Setting) : Command (SearchConfig Float32 Float) := do
  let config ← match c.arguments.value? "--config" with
    | none => pure .usual
    | some path => do
      let text ← require ioMessage (c.folder.text path)
      require SearchConfig.LoadError.message (SearchConfig.load text)
  match c.arguments.count? "--seed" with
  | none => return config
  | some seed => return { config with seed := some (.ofNat seed) }

/-- The folder for the results, made if it is not there, and the setting with it. -/
def output (c : Setting) (usual : String) : Command (String × Setting) := do
  let path := (c.arguments.value? "--out").getD usual
  let folder ← require ioMessage (c.folder.make path)
  modify fun r => { r with folders := r.folders ++ [path] }
  return (path, { c with folder })

/-- The grammar at a path. -/
def grammar (c : Setting) (path : String) : Command (Grammar Float32) := do
  require grammarMessage (Grammar.load (← require ioMessage (c.folder.text path)))

/-- The target at a path, in the size of the view. -/
def target (c : Setting) (path : String) (view : Viewport Float32) : Command GrayImage := do
  let image ← require imageMessage (c.folder.image path)
  if image.width = view.width ∧ image.height = view.height then return image
  else
    say ("  Resizing target from " ++ toString image.width ++ "x" ++ toString image.height
      ++ " to " ++ toString view.width ++ "x" ++ toString view.height ++ ".")
    return image.resample (α := Float32) view.width view.height

end Setting

/-- The paths of a grammar and a target, which both have to be given. -/
def grammarAndTarget (args : Arguments) : Command (String × String) :=
  match args.operands with
  | grammar :: target :: _ => return (grammar, target)
  | _ => throw .usage

/-- The evaluator of a configuration for a target. -/
def evaluator (config : SearchConfig Float32 Float) (target : GrayImage) :
    Command (Evaluator Float32 Float) :=
  require SizeMismatch.message
    (Evaluator.ofTarget config.view target config.metric config.limits)

/-- A drawing over its target. -/
def preview (e : Evaluator Float32 Float) (target drawing : GrayImage) : Command FileContent := do
  return .color (← require SizeMismatch.message
    (RgbImage.preview target drawing e.metric.edgeThreshold))

def sayGrammar (g : Grammar Float32) : Command Unit :=
  say ("  " ++ toString g.attributes.toList.length ++ " attributes, "
    ++ toString g.rules.toList.length ++ " rules.")

def sayEffort (effort : Effort) : Command Unit := do
  say ""
  say ("Derivations: " ++ toString effort.derivations ++ " (" ++ toString effort.truncated
    ++ " truncated), expansions: " ++ toString effort.expansions)
  say ("Renders: " ++ toString effort.renders)

/-! ## Guided search -/

/-- Says what was decided and draws the derivation it led to. -/
def reportDecision (folder : Folder) (e : Evaluator Float32 Float) (target : GrayImage)
    (out : String) (entry : Decision Float × Derivation Float32) : Command Unit := do
  let (decision, live) := entry
  say ("  Step " ++ toString decision.step ++ ": action " ++ toString decision.action
    ++ " (value " ++ Float.fixed 4 decision.best ++ ", " ++ toString decision.rounds
    ++ " iterations, " ++ toString decision.candidates.length ++ " children)")
  tryWrite folder (Path.join out ("result_" ++ toString decision.step ++ ".png"))
    (← preview e target (e.renderDerivation .line true live))

/-- The tree search, node by node. -/
def guided (c : Setting) : Command Unit := do
  let (grammarPath, targetPath) ← grammarAndTarget c.arguments
  let config ← c.config
  let steps := (c.arguments.count? "--steps").getD config.tree.maxSteps
  let rounds := (c.arguments.count? "--iterations").getD config.tree.maxIterations
  let tree := { config.tree with maxSteps := steps, maxIterations := rounds }
  let (out, c) ← c.output "results"
  let seed := config.seed.getD c.freshSeed
  say "=== Procbuild Inverse Search (MCTS) ==="
  say ("Grammar: " ++ grammarPath)
  say ("Target: " ++ targetPath)
  say ("Output: " ++ out)
  say ("Seed: " ++ toString seed)
  say ("Outer steps: " ++ toString steps ++ ", iterations per step: " ++ toString rounds)
  say ""
  say "[1/4] Loading grammar..."
  let grammar ← c.grammar grammarPath
  sayGrammar grammar
  say "[2/4] Loading target..."
  let target ← c.target targetPath config.view
  let e ← evaluator config target
  say ("  " ++ toString e.target.edgeCount ++ " edge pixels.")
  say "[3/4] Searching..."
  let (result, run, s) := e.guide tree grammar (.seeded seed)
  write c.folder (Path.join out "visits.txt")
    (.text (String.join (run.decisions.map fun d => d.line Float.text ++ "\n")))
  run.history.forM (reportDecision c.folder e target out)
  require searchMessage result
  say ("  " ++ toString run.decisions.length ++ " decisions, final value "
    ++ Float.fixed 4 run.best ++ ".")
  if !run.live.isComplete then
    say ("  " ++ toString run.live.queue.length ++ " nonterminals still pending.")
  say "[4/4] Writing results..."
  write c.folder (Path.join out "final.png")
    (← preview e target (e.renderDerivation .line true run.live))
  write c.folder (Path.join out "best_grammar.json") (.text run.live.grammar.save)
  sayEffort s.effort

/-! ## Sampling -/

/-- Says how far the chains are and draws the best building. -/
def reportSnapshot (folder : Folder) (e : Evaluator Float32 Float) (target : GrayImage)
    (out : String) (shot : Snapshot Float32 Float) : Command Unit := do
  say ("  Iteration " ++ toString shot.iteration ++ ": best energy "
    ++ Float.fixed 5 shot.bestEnergy ++ " (T = " ++ Float.fixed 3 shot.firstTemperature ++ " / "
    ++ Float.fixed 3 shot.secondTemperature ++ ")")
  match e.renderGrammar .line shot.bestGrammar with
  | .error cause => warn ("  Warning: could not derive snapshot: " ++ searchMessage cause)
  | .ok drawing =>
    tryWrite folder (Path.join out ("result_" ++ toString shot.iteration ++ ".png"))
      (← preview e target drawing)

/-- A part of a whole in percent; none of nothing. -/
def percent (part whole : Nat) : Float :=
  if whole = 0 then 0.0 else 100.0 * (part : Float) / (whole : Float)

/-- Says how a chain did. -/
def sayChain (number : Nat) (chain : Chain Float32 Float) : Command Unit :=
  say ("  Chain " ++ toString number ++ ": accepted " ++ toString chain.accepted ++ " / "
    ++ toString chain.proposals ++ " ("
    ++ Float.fixed 1 (percent chain.accepted chain.proposals) ++ "%), final T = "
    ++ Float.fixed 3 chain.temperature)

/-- Replica exchange. -/
def sampled (c : Setting) : Command Unit := do
  let (grammarPath, targetPath) ← grammarAndTarget c.arguments
  let config ← c.config
  let iterations := (c.arguments.count? "--iterations").getD config.exchange.iterations
  let exchange := { config.exchange with iterations }
  let (out, c) ← c.output "results_mcmc"
  let seed := config.seed.getD c.freshSeed
  say "=== Procbuild Inverse Search (MCMC) ==="
  say ("Grammar: " ++ grammarPath)
  say ("Target: " ++ targetPath)
  say ("Output: " ++ out)
  say ("Seed: " ++ toString seed)
  say ("Iterations: " ++ toString iterations ++ ", temperatures: "
    ++ Float.text exchange.lowTemperature ++ " / " ++ Float.text exchange.highTemperature)
  say ""
  say "[1/4] Loading grammar..."
  let grammar ← c.grammar grammarPath
  sayGrammar grammar
  say "[2/4] Loading target..."
  let target ← c.target targetPath config.view
  let e ← evaluator config target
  say "[3/4] Sampling..."
  let (result, snapshots, s) := e.replicaExchange exchange grammar (.seeded seed)
  write c.folder (Path.join out "scores.csv")
    (.text ("iteration,best_energy\n" ++ String.join (snapshots.map fun shot =>
      toString shot.iteration ++ "," ++ Float.text shot.bestEnergy ++ "\n")))
  snapshots.forM (reportSnapshot c.folder e target out)
  let replicas ← require searchMessage result
  let best := replicas.leading
  say ("  Best energy: " ++ Float.fixed 5 best.bestEnergy)
  say ("  Swaps: " ++ toString replicas.swapsAccepted ++ " / "
    ++ toString replicas.swapsAttempted ++ " accepted")
  sayChain 0 replicas.first
  sayChain 1 replicas.second
  say "[4/4] Writing results..."
  let drawing ← require searchMessage (e.renderGrammar .line best.bestGrammar)
  write c.folder (Path.join out "final.png") (← preview e target drawing)
  write c.folder (Path.join out "best_grammar.json") (.text best.bestGrammar.save)
  best.bestGrammar.choices.forM fun (name, value) =>
    say ("  " ++ name ++ " = " ++ Float32.text value)
  sayEffort s.effort

/-! ## Random buildings -/

/-- Draws `count` further buildings, `done` of them being there already. -/
def drawBuildings (folder : Folder) (view : Viewport Float32) (limits : Limits) (mode : DrawMode)
    (out : String) (grammar : Grammar Float32) : Nat → Nat → Generator → Command Unit
  | 0, _, _ => return ()
  | count + 1, done, rng => do
    let (result, params, rng) := Evaluator.randomBuilding limits grammar rng
    let (outcome, d) ← require (fun cause => searchMessage (.ofEval cause)) result
    let name := "building_" ++ toString done
    write folder (Path.join out (name ++ ".png")) (.gray (view.draw mode (d.faces false)))
    write folder (Path.join out (name ++ ".json")) (.text params.save)
    let note := if outcome.isTruncated then " (truncated: " ++ outcome.stop.name ++ ")" else ""
    say ("  " ++ name ++ ": " ++ toString outcome.expansions ++ " expansions, "
      ++ toString d.tree.size ++ " nodes" ++ note)
    drawBuildings folder view limits mode out grammar count (done + 1) rng

/-- Draws random buildings. -/
def buildings (c : Setting) : Command Unit := do
  let some grammarPath := c.arguments.operands.head? | throw .usage
  let config ← c.config
  let count := (c.arguments.count? "--count").getD 1
  let mode := if c.arguments.has "--shaded" then DrawMode.shaded else DrawMode.line
  let (out, c) ← c.output "generated"
  let seed := config.seed.getD c.freshSeed
  say "=== Procbuild Random Buildings ==="
  say ("Grammar: " ++ grammarPath)
  say ("Output: " ++ out)
  say ("Seed: " ++ toString seed)
  say ""
  say "[1/2] Loading grammar..."
  let grammar ← c.grammar grammarPath
  say ("[2/2] Rendering " ++ toString count ++ " building(s)...")
  drawBuildings c.folder config.view config.limits mode out grammar count 0 (.seeded seed)

/-! ## Dispatch -/

/-- The command that the arguments ask for. -/
def ofSetting (c : Setting) : Command Unit :=
  match c.arguments.command with
  | "mcts" => guided c
  | "mcmc" => sampled c
  | "render" => buildings c
  | _ => throw .usage

/-- Runs a command. Gives its exit code, and its report with the failure in it if there was one. -/
def run (c : Setting) : UInt8 × Report :=
  match (ExceptT.run (ofSetting c)).run {} with
  | (.ok (), report) => (0, report)
  | (.error .usage, report) => (2, { report with warnings := report.warnings ++ usage })
  | (.error (.failed message), report) =>
    (1, { report with warnings := report.warnings ++ ["Error: " ++ message] })

end Command

end ShapeGrammar
