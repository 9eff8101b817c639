import ShapeGrammar.Proofs.Derivation.Reading
import ShapeGrammar.Proofs.Grammar.Redrawing

/-!
# What a derivation can fail at

An expression has no value if it reads an attribute that there is none of or divides by zero, an
operator fails if one of its parameters has no value or if no number counts its tiles, and nothing
else fails. The names that are checked when a grammar is loaded are all that its rules read, and
the attributes stay, whatever is done with a derivation: the first cause is ruled out for good.
Main statement: `faults_of_valid`.
-/
namespace ShapeGrammar

variable {α : Type}

/-! ## Causes -/

/-- Whether an expression is part of another one, or that one itself. -/
inductive Expr.Within : Expr α → Expr α → Prop where
  | self (e : Expr α) : Within e e
  | neg {e operand : Expr α} : Within e operand → Within e (.neg operand)
  | left {e left right : Expr α} {op : BinaryOp} : Within e left → Within e (.binary op left right)
  | right {e left right : Expr α} {op : BinaryOp} :
    Within e right → Within e (.binary op left right)

/-- An expression has no value because something in it is divided by what comes to zero. -/
inductive Expr.DividesByZero [Scalar α] (values : String → Option α) (scope : Vec3 α)
    (e : Expr α) : EvalError α → Prop where
  | intro {dividend divisor : Expr α} {a b : α} : Within (.binary .div dividend divisor) e →
    dividend.eval values scope = .ok a → divisor.eval values scope = .ok b →
    (b == 0.0) = true → DividesByZero values scope e (.divisionByZero a b)

/-- An operator fails because of the values at hand: a parameter divides by zero, or a length holds
no finite number of tiles. -/
inductive Operator.Faults [Scalar α] (values : String → Option α) (scope : Vec3 α) :
    Operator α → EvalError α → Prop where
  | division {op : Operator α} {p : Param α} {err : EvalError α} : p ∈ op.params →
    p.expr.DividesByZero values scope err → Faults values scope op err
  | tiles {axis : Axis} {size : Param α} {name : String} {tile : α} :
    size.expr.eval values scope = .ok tile → Scalar.isFinite (scope.get axis / tile) = false →
    Faults values scope (.tile axis size name) (.endlessRepeat tile (scope.get axis))

/-- Some names are read and one of them is without a value. -/
inductive Missing (values : String → Option α) (names : List String) : EvalError α → Prop where
  | intro {name : String} : name ∈ names → values name = none →
    Missing values names (.unknownAttribute name)

theorem Missing.of_subset {values : String → Option α} {names more : List String}
    {err : EvalError α} (h : Missing values names err) (hsub : ∀ name ∈ names, name ∈ more) :
    Missing values more err := by
  obtain ⟨hname, hnone⟩ := h
  exact .intro (hsub _ hname) hnone

theorem Expr.DividesByZero.of_within [Scalar α] {values : String → Option α} {scope : Vec3 α}
    {e e' : Expr α} {err : EvalError α} (h : e.DividesByZero values scope err)
    (hwithin : ∀ part, Within part e → Within part e') : e'.DividesByZero values scope err := by
  obtain ⟨hpart, ha, hb, hzero⟩ := h
  exact .intro (hwithin _ hpart) ha hb hzero

/-! ## From expressions to rules -/

variable {values : String → Option α} {err : EvalError α}

theorem bind_eq_error {ε β γ : Type} {x : Except ε β} {f : β → Except ε γ} {err : ε}
    (h : x >>= f = .error err) : x = .error err ∨ ∃ b, x = .ok b ∧ f b = .error err := by
  cases x with
  | error cause => exact .inl (congrArg Except.error (Except.error.inj h))
  | ok b => exact .inr ⟨b, rfl, h⟩

namespace Expr

variable [Scalar α] {scope : Vec3 α}

theorem combine_eq_error {op : BinaryOp} {a b : α} (h : combine op a b = .error err) :
    op = .div ∧ (b == 0.0) = true ∧ err = .divisionByZero a b := by
  cases op with
  | add | sub | mul => cases h
  | div =>
    rw [combine] at h
    split at h
    next hzero => exact ⟨rfl, hzero, (Except.error.inj h).symm⟩
    · cases h

/-- Why an expression has no value. -/
theorem eval_eq_error {e : Expr α} (h : e.eval values scope = .error err) :
    Missing values e.attributeNames err ∨ e.DividesByZero values scope err := by
  induction e with
  | number value => cases h
  | extent axis => cases h
  | «attribute» name =>
    rw [eval] at h
    split at h
    · cases h
    next hnone =>
      rw [← Except.error.inj h]
      exact .inl (.intro (List.mem_singleton_self name) hnone)
  | neg operand ih =>
    rcases bind_eq_error h with hoperand | ⟨a, _, hok⟩
    · exact (ih hoperand).imp_right fun hdivides => hdivides.of_within fun _ => .neg
    · cases hok
  | binary op left right ihl ihr =>
    rcases bind_eq_error h with hleft | ⟨a, ha, h⟩
    · exact (ihl hleft).imp
        (fun hmissing => hmissing.of_subset fun _ => List.mem_append_left _)
        (fun hdivides => hdivides.of_within fun _ => .left)
    · rcases bind_eq_error h with hright | ⟨b, hb, h⟩
      · exact (ihr hright).imp
          (fun hmissing => hmissing.of_subset fun _ => List.mem_append_right _)
          (fun hdivides => hdivides.of_within fun _ => .right)
      · obtain ⟨rfl, hzero, rfl⟩ := combine_eq_error h
        exact .inr (.intro (.self _) ha hb hzero)

end Expr

namespace Operator

section Parameters

variable [Elementary α] {scope : Vec3 α}

theorem evalVector_eq_error {v : Vec3 (Param α)} (h : evalVector values scope v = .error err) :
    ∃ p ∈ v.toList, p.expr.eval values scope = .error err := by
  rcases bind_eq_error h with hx | ⟨x, _, h⟩
  · exact ⟨v.x, by simp [Vec3.toList], hx⟩
  rcases bind_eq_error h with hy | ⟨y, _, h⟩
  · exact ⟨v.y, by simp [Vec3.toList], hy⟩
  rcases bind_eq_error h with hz | ⟨z, _, h⟩
  · exact ⟨v.z, by simp [Vec3.toList], hz⟩
  · cases h

theorem evalParts_eq_error {parts : List (SplitPart α)}
    (h : evalParts values scope parts = .error err) :
    ∃ p ∈ parts.map (·.size), p.expr.eval values scope = .error err := by
  induction parts with
  | nil => cases h
  | cons part rest ih =>
    rcases bind_eq_error h with hsize | ⟨size, _, h⟩
    · exact ⟨part.size, List.mem_cons_self, hsize⟩
    rcases bind_eq_error h with hrest | ⟨sizes, _, h⟩
    · obtain ⟨p, hp, heval⟩ := ih hrest
      exact ⟨p, List.mem_cons_of_mem _ hp, heval⟩
    · cases h

end Parameters

variable [Elementary α] {shape : Shape α} {op : Operator α}

/-- What a parameter fails at, its operator fails at. -/
theorem of_param {p : Param α} {scope : Vec3 α} (hp : p ∈ op.params)
    (h : p.expr.eval values scope = .error err) :
    Missing values (Param.readBy op.params) err ∨ op.Faults values scope err :=
  (Expr.eval_eq_error h).imp
    (fun hmissing => hmissing.of_subset fun _ hname => List.mem_flatMap.mpr ⟨p, hp, hname⟩)
    (fun hdivides => .division hp hdivides)

/-- Why an operator fails. -/
theorem effect_eq_error (h : op.effect values shape = .error err) :
    Missing values (Param.readBy op.params) err ∨ op.Faults values shape.size err := by
  cases op with
  | extrude height =>
    rcases bind_eq_error h with hheight | ⟨_, _, h⟩
    · exact of_param (List.mem_singleton_self height) hheight
    · cases h
  | split axis parts =>
    rcases bind_eq_error h with hparts | ⟨specs, _, h⟩
    · obtain ⟨p, hp, heval⟩ := evalParts_eq_error hparts
      exact of_param hp heval
    · split at h <;> cases h
  | tile axis size name =>
    rcases bind_eq_error h with hsize | ⟨tile, htile, h⟩
    · exact of_param (List.mem_singleton_self size) hsize
    · split at h
      · cases h
      · rcases bind_eq_error h with hcount | ⟨_, _, h⟩
        · rw [tileCount] at hcount
          split at hcount
          · cases hcount
          next hendless =>
            rw [← Except.error.inj hcount]
            exact .inr (.tiles htile (Bool.not_eq_true _ ▸ hendless))
        · cases h
  | translate v | rotate v | resize v =>
    rcases bind_eq_error h with hvector | ⟨_, _, h⟩
    · obtain ⟨p, hp, heval⟩ := evalVector_eq_error hvector
      exact of_param hp heval
    · cases h
  | decompose names =>
    rw [effect] at h
    split at h <;> cases h
  | copy name => cases h
  | paint color => cases h

theorem applyWithin_eq_error {limit : Nat} (h : op.applyWithin values limit shape = .error err) :
    op.effect values shape = .error err := by
  rw [applyWithin_eq_map] at h
  rcases happly : op.apply values shape with cause | made
  all_goals rw [happly] at h
  all_goals cases h
  rcases bind_eq_error happly with heffect | ⟨effect, _, hends⟩
  · exact heffect
  · split at hends <;> cases hends

end Operator

/-- Why a rule fails: one of its operators does. -/
theorem Growth.ofOperators_eq_error [Elementary α] {room : Nat} {ops : List (Operator α)}
    {shape : Shape α} (h : ofOperators values room ops shape = .error err) :
    ∃ op ∈ ops, ∃ scope,
      Missing values (Param.readBy op.params) err ∨ op.Faults values scope err := by
  induction ops generalizing shape with
  | nil =>
    rw [ofOperators] at h
    split at h <;> cases h
  | cons op rest ih =>
    rw [ofOperators] at h
    split at h
    next happly =>
      rw [Except.error.inj h] at happly
      exact ⟨op, List.mem_cons_self, _,
        Operator.effect_eq_error (Operator.applyWithin_eq_error happly)⟩
    · obtain ⟨op, hop, hcause⟩ := ih h
      exact ⟨op, List.mem_cons_of_mem _ hop, hcause⟩
    · cases h

/-! ## Grammars that know what they read -/

namespace Grammar

/-- Every attribute that a rule reads is there. -/
def Informed (g : Grammar α) : Prop :=
  ∀ name rule, g.rule? name = some rule → ∀ key ∈ rule.readAttributes, key ∈ g.attributes.keys

/-- Being informed depends on the rules and on the names of the attributes. -/
theorem Informed.congr {g g' : Grammar α} (h : g.Informed) (hrules : g'.rules = g.rules)
    (hkeys : g'.attributes.keys = g.attributes.keys) : g'.Informed := by
  intro name rule hrule key hkey
  rw [rule?, hrules] at hrule
  rw [hkeys]
  exact h name rule hrule key hkey

/-- What a parameter of a rule reads has a value. -/
theorem Informed.isSome_value? {g : Grammar α} (h : g.Informed) {name : String} {rule : Rule α}
    (hrule : g.rule? name = some rule) {op : Operator α} (hop : op ∈ rule.operators) {p : Param α}
    (hp : p ∈ op.params) {key : String} (hkey : key ∈ p.expr.attributeNames) :
    (g.value? key).isSome = true := by
  have hread : key ∈ rule.readAttributes :=
    List.mem_flatMap.mpr ⟨p, List.mem_flatMap.mpr ⟨op, hop, hp⟩, hkey⟩
  rw [value?, Option.isSome_map, attribute?, Table.isSome_find?_iff]
  exact h name rule hrule key hread

/-- A rule of a grammar fails, and it is the values at hand that one of its operators fails at. -/
def Fault [Scalar α] (g : Grammar α) (err : EvalError α) : Prop :=
  ∃ name rule op scope, g.rule? name = some rule ∧ op ∈ rule.operators ∧
    op.Faults g.value? scope err

theorem fault_of_ofOperators [Elementary α] {g : Grammar α} (h : g.Informed) {name : String}
    {rule : Rule α} (hrule : g.rule? name = some rule) {room : Nat} {shape : Shape α}
    (herr : Growth.ofOperators g.value? room rule.operators shape = .error err) : g.Fault err := by
  obtain ⟨op, hop, scope, ⟨hread, hnone⟩ | hfault⟩ := Growth.ofOperators_eq_error herr
  · obtain ⟨p, hp, hname⟩ := List.mem_flatMap.mp hread
    have hvalue := h.isSome_value? hrule hop hp hname
    rw [hnone] at hvalue
    cases hvalue
  · exact ⟨name, rule, op, scope, hrule, hop, hfault⟩

/-- What is checked when a grammar is loaded makes it informed. -/
theorem informed_of_validate [Scalar α] {g : Grammar α} (hvalid : g.validate = .ok ()) :
    g.Informed := by
  intro name rule hrule key hkey
  have hchecked := validateRule_of_validate hvalid hrule
  simp only [validateRule] at hchecked
  split at hchecked
  · cases hchecked
  · split at hchecked
    · cases hchecked
    next hfound =>
      have hthere := List.find?_eq_none.mp hfound key hkey
      rwa [Bool.not_eq_true', Bool.not_eq_false, Table.contains, Table.isSome_find?_iff] at hthere

end Grammar

/-! ## From rules to runs -/

namespace Derivation

section Steps

variable [Elementary α] {d : Derivation α}

theorem fault_of_expand (h : d.grammar.Informed) {id maxNodes : Nat}
    (herr : (d.expand id maxNodes).1 = .error err) : d.grammar.Fault err := by
  cases hn : d.tree.node? id with
  | none =>
    rw [expand, hn] at herr
    cases herr
  | some n =>
    rcases expand_cases maxNodes hn with
      ⟨_, heq⟩ | ⟨rule, hrule, ⟨cause, hcause, heq⟩ | ⟨_, _, heq⟩⟩
    · rw [heq] at herr
      cases herr
    · rw [heq] at herr
      cases herr
      exact Grammar.fault_of_ofOperators h hrule hcause
    · rw [heq] at herr
      cases herr

theorem fault_of_turn (h : d.grammar.Informed) {limits : Limits} {done done' : Progress}
    {clock : Clock} {d' : Derivation α}
    (hturn : turn limits d done clock = .stop (.error err) done' d') :
    d.grammar.Fault err := by
  unfold turn at hturn
  split at hturn
  · cases hturn
  next id popped taken =>
    have hgrammar := (pop?_eq_some taken).2.1
    split at hturn
    · cases hturn
    · split at hturn
      · cases hturn
      · split at hturn
        · cases hturn
        · split at hturn
          · cases hturn
          · rcases hmade : popped.expand id limits.maxNodes with ⟨cause | _ | _ | _, e⟩
            all_goals
              rw [hmade] at hturn
              cases hturn
            rw [← hgrammar] at h ⊢
            exact fault_of_expand h (congrArg Prod.fst hmade)

theorem fault_of_runFrom {limits : Limits} {done : Progress} {clock : Clock}
    (h : d.grammar.Informed) (herr : (runFrom limits d done clock).1 = .error err) :
    d.grammar.Fault err := by
  fun_induction runFrom limits d done clock with
  | case1 d done clock result done' d' hturn =>
    cases herr
    exact fault_of_turn h hturn
  | case2 d done clock done' d' hturn ih =>
    have hgrammar := (steady_grammar d.grammar).turn rfl limits done clock
    rw [hturn] at hgrammar
    rw [← (show d'.grammar = d.grammar from hgrammar)] at h ⊢
    exact ih h herr

theorem fault_of_complete {limits : Limits} {clock : Clock} (h : d.grammar.Informed)
    (herr : (d.complete limits clock).1 = .error err) : d.grammar.Fault err := by
  have hrun : (runFrom limits d {} clock).1 = .error err := by
    rcases hrun : runFrom limits d {} clock with ⟨cause | stop, done, d'⟩
    · rw [complete, hrun] at herr
      exact congrArg Except.error (Except.error.inj herr)
    · rw [complete, hrun] at herr
      cases herr
  exact fault_of_runFrom h hrun

theorem grammar_complete (d : Derivation α) (limits : Limits) (clock : Clock) :
    (d.complete limits clock).2.grammar = d.grammar :=
  (steady_grammar d.grammar).complete rfl limits clock

/-- Whether a call returns an error. -/
def FailsWith (d : Derivation α) (call : Call) (err : EvalError α) (clock : Clock := .stopped) :
    Prop :=
  match call with
  | .guided action maxNodes => (d.applyAction action maxNodes).1 = .error err
  | .full limits => (d.complete limits clock).1 = .error err
  | .random rng limits => (d.completeRandomly rng limits clock).1 = .error err
  | .copy => False

/-- The derivations that searches make of a grammar and a first shape, while clocks show what is
allowed: between calls levels are drawn, opened, decided and moved. -/
inductive ReachedUnder (allowed : Clock → Prop) (g : Grammar α) (shape : Shape α) :
    Derivation α → Prop where
  | start : ReachedUnder allowed g shape (.start shape g)
  | perform {d : Derivation α} {clock : Clock} (h : ReachedUnder allowed g shape d)
    (hclock : allowed clock) (call : Call) : ReachedUnder allowed g shape (d.perform call clock)
  | redraw {d : Derivation α} (h : ReachedUnder allowed g shape d) {g' : Grammar α}
    (hg : d.grammar.Reaches g') : ReachedUnder allowed g shape { d with grammar := g' }

/-- The derivations that searches make while no clock runs. -/
abbrev Reached (g : Grammar α) (shape : Shape α) (d : Derivation α) : Prop :=
  ReachedUnder (· = .stopped) g shape d

variable {g : Grammar α} {shape : Shape α}

theorem Reached.perform (h : d.Reached g shape) (call : Call) : (d.perform call).Reached g shape :=
  ReachedUnder.perform h rfl call

theorem ReachedUnder.informed {allowed : Clock → Prop} (hd : d.ReachedUnder allowed g shape)
    (h : g.Informed) : d.grammar.Informed := by
  induction hd with
  | start => exact h
  | @perform d clock _ _ call ih =>
    have hnarrows : d.grammar.Narrows (d.perform call clock).grammar :=
      narrows_after d [call] fun _ => clock
    exact ih.congr hnarrows.rules hnarrows.keys
  | redraw _ hg ih => exact ih.congr hg.redrawn.rules hg.redrawn.keys

/-- A guided step fails only by the expansion that follows its choices. -/
theorem applyAction_eq_error {action maxNodes : Nat}
    (herr : (d.applyAction action maxNodes).1 = .error err) :
    ∃ id popped name, d.pop? = some (id, popped) ∧
      ((popped.fixChoices name action).expand id maxNodes).1 = .error err ∧
      (d.applyAction action maxNodes).2 =
        ((popped.fixChoices name action).expand id maxNodes).2 := by
  unfold applyAction at herr ⊢
  split at herr
  · cases herr
  next id popped taken =>
    split at herr
    · cases herr
    next n _ =>
      split at herr
      · cases herr
      next hvisited =>
        rw [if_neg hvisited]
        refine ⟨id, popped, n.shape.name, taken, ?_, rfl⟩
        change ((popped.fixChoices n.shape.name action).expand id maxNodes).1.map _ = _ at herr
        cases hmade : ((popped.fixChoices n.shape.name action).expand id maxNodes).1 with
        | error cause =>
          rw [hmade] at herr
          exact congrArg Except.error (Except.error.inj herr)
        | ok made =>
          rw [hmade] at herr
          cases herr

theorem fault_of_applyAction (h : d.grammar.Informed) {action maxNodes : Nat}
    (herr : (d.applyAction action maxNodes).1 = .error err) :
    (d.applyAction action maxNodes).2.grammar.Fault err := by
  obtain ⟨id, popped, name, hpop, hexpand, hleft⟩ := applyAction_eq_error herr
  have hnarrows := ActionSpace.narrows_commit popped.grammar name action
  have hinformed : (popped.fixChoices name action).grammar.Informed := by
    rw [← (pop?_eq_some hpop).2.1] at h
    exact h.congr hnarrows.rules hnarrows.keys
  rw [hleft, grammar_expand]
  exact fault_of_expand hinformed hexpand

theorem fault_of_failsWith (h : d.grammar.Informed) {call : Call} {clock : Clock}
    (herr : d.FailsWith call err clock) : (d.perform call clock).grammar.Fault err := by
  cases call with
  | guided action maxNodes => exact fault_of_applyAction h herr
  | full limits =>
    rw [perform, grammar_complete]
    exact fault_of_complete h herr
  | random rng limits =>
    have hnarrows := d.grammar.narrows_randomizeFree rng
    rw [perform, completeRandomly_eq, grammar_complete]
    exact fault_of_complete (h.congr hnarrows.rules hnarrows.keys) herr
  | copy => cases herr

/-- A grammar that is valid when it is loaded never fails on a name. Whatever is done with its
derivations, of any first shape, and whatever clocks show: an error that is returned comes from an
operator of a rule that divides by zero in a parameter or finds no finite number of tiles, and every
attribute that a rule reads has a value. An expression reads the attributes it names and no others,
and so does an operator with its parameters. -/
theorem faults_of_valid {allowed : Clock → Prop} (hvalid : g.validate = .ok ())
    (hd : d.ReachedUnder allowed g shape) :
    (∀ call err clock, d.FailsWith call err clock →
      (∀ name, err ≠ .unknownAttribute name) ∧ (d.perform call clock).grammar.Fault err) ∧
    (∀ name rule, d.grammar.rule? name = some rule → ∀ op ∈ rule.operators,
      ∀ p ∈ op.params, ∀ key ∈ p.expr.attributeNames,
        ∃ value, d.grammar.value? key = some value) ∧
    (∀ (e : Expr α) values values', AgreeOn e.attributeNames values values' → ∀ scope,
      e.eval values scope = e.eval values' scope) ∧
    ∀ (op : Operator α) values values', AgreeOn (Param.readBy op.params) values values' →
      ∀ shape limit, op.apply values shape = op.apply values' shape ∧
        op.applyWithin values limit shape = op.applyWithin values' limit shape := by
  have hinformed := hd.informed (Grammar.informed_of_validate hvalid)
  refine ⟨fun call err clock herr => ?_, fun name rule hrule op hop p hp key hkey => ?_,
    fun e values values' hagree scope => Expr.eval_congr scope hagree,
    fun op values values' hagree shape limit => ?_⟩
  · have hfault := fault_of_failsWith hinformed herr
    refine ⟨fun name heq => ?_, hfault⟩
    obtain ⟨_, _, _, _, _, _, hcause⟩ := hfault
    rw [heq] at hcause
    rcases hcause with ⟨_, hdivides⟩
    cases hdivides
  · exact Option.isSome_iff_exists.mp (hinformed.isSome_value? hrule hop hp hkey)
  · exact ⟨by simp only [Operator.apply, Operator.effect_congr hagree],
      Operator.applyWithin_congr hagree limit shape⟩

end Steps

/-- A slab whose height is divided by a choice that may be zero. -/
def wedge : Grammar Float32 where
  attributes := ⟨[("run", .choice "run" 0.0 9.0)], by decide⟩
  rules := ⟨[("Start", ⟨"Start", [
    .extrude ⟨"1 / run", .binary .div (.number 1.0) (.attribute "run")⟩]⟩)], by decide⟩

/-- A run that is out of time does nothing. At the lowest level of its choice a guided step then
fails, for it divides by zero. -/
theorem faults_of_valid_wedge :
    let late : Clock := fun k => k + 1
    let d := (start .start wedge).perform (.full { maxMillis := some 1 }) late
    wedge.validate = .ok () ∧ d.ReachedUnder (fun _ => True) wedge .start ∧
    d.FailsWith (.guided 0 10) (.divisionByZero 1.0 0.0) ∧
    (d.perform (.guided 0 10)).grammar.Fault (.divisionByZero 1.0 0.0) := by
  intro late d
  have hvalid : wedge.validate = .ok () := rfl
  have hd : d.ReachedUnder (fun _ => True) wedge .start := .perform .start trivial _
  have hlate : d = start .start wedge := by
    rw [show d = ((start .start wedge).complete { maxMillis := some 1 } late).2 from rfl, complete,
      runFrom_of_stop rfl]
  have hfails : d.FailsWith (.guided 0 10) (.divisionByZero 1.0 0.0) := by
    rw [hlate]
    rfl
  exact ⟨hvalid, hd, hfails, ((faults_of_valid hvalid hd).1 _ _ _ hfails).2⟩

end Derivation

end ShapeGrammar
