import ShapeGrammar.Number.Scalar

/-!
# The lower envelope of parabolas

Each place `p` of a line carries a parabola `(q - p) ^ 2 + height`. What is wanted at every place
`q` is the least of them. Parabolas of one shape cross once, so the one that is least changes from
left to right through the places in order: a stack of arcs, each least from where it starts up to
where the next one starts. The stack stands in two buffers that serve one line after the other; a
step that would leave a buffer, or take the first arc off the stack, gives nothing.
-/
namespace ShapeGrammar

/-- Where an arc of an envelope starts. -/
inductive Border (α : Type) where
  /-- Before every place. -/
  | before
  | cross (x : α)
  /-- Behind every place: no arc starts there. -/
  | behind

namespace Border

variable {α : Type} [Scalar α]

/-- Whether a border lies at `x` or behind it. -/
def reaches (x : α) : Border α → Bool
  | .before => false
  | .cross y => x ≤ y
  | .behind => true

/-- Whether a border lies before a place. -/
def isPassed (q : Nat) : Border α → Bool
  | .before => true
  | .cross y => y < (q : α)
  | .behind => false

end Border

/-- The buffers of an envelope: the sites of its arcs and where the arcs start, with one border more
behind the last arc. What stands behind that is left over from other lines. -/
structure Envelope (α : Type) where
  sites : Array Nat
  borders : Array (Border α)

namespace Envelope

variable {α : Type}

/-- Buffers with room for lines of some length. -/
def ofLength [Scalar α] (length : Nat) : Envelope α :=
  ⟨Array.replicate length 0, Array.replicate (length + 1) (.cross 0.0)⟩

/-- Sets a cell of a buffer; nothing if there is no such cell. -/
def put? {β : Type} (cells : Array β) (i : Nat) (x : β) : Option (Array β) :=
  if h : i < cells.size then some (cells.set i x h) else none

/-- Puts an arc at an index, with nothing behind it. -/
def place? (e : Envelope α) (k site : Nat) (border : Border α) : Option (Envelope α) := do
  let sites ← put? e.sites k site
  let borders ← put? e.borders k border
  let borders ← put? borders (k + 1) .behind
  return ⟨sites, borders⟩

variable [Scalar α]

/-- Where the parabola of a site meets that of an earlier one. -/
def meet (site : Nat) (height : α) (earlier : Nat) (earlierHeight : α) : α :=
  let p : α := site
  let q : α := earlier
  ((height + p * p) - (earlierHeight + q * q)) / ((p + p) - (q + q))

/-- Where the parabola of a site meets an arc, and whether the arc starts no earlier: then it lies
above that parabola all along. -/
def contact? (e : Envelope α) (heights : Array α) (site k : Nat) : Option (α × Bool) := do
  let earlier ← e.sites[k]?
  let x := meet site (← heights[site]?) earlier (← heights[earlier]?)
  return (x, (← e.borders[k]?).reaches x)

/-- The last arc from index `k` on down that does not lie above the parabola of a site, and where it
meets that. -/
def follow? (e : Envelope α) (heights : Array α) (site : Nat) : Nat → Option (Nat × α)
  | 0 => do
    let (x, above) ← e.contact? heights site 0
    if above then none else some (0, x)
  | k + 1 => do
    let (x, above) ← e.contact? heights site (k + 1)
    if above then e.follow? heights site k else some (k + 1, x)

/-- Puts the parabola of the next site on an envelope whose last arc has index `k`, in place of the
arcs that lie above it. -/
def push? (e : Envelope α) (heights : Array α) (site k : Nat) : Option (Envelope α × Nat) := do
  let (k, x) ← e.follow? heights site k
  return (← e.place? (k + 1) site (.cross x), k + 1)

/-- Puts the parabolas of `count` sites from `site` on on an envelope. -/
def pushFrom? (heights : Array α) : (count site : Nat) → Envelope α → Nat → Option (Envelope α)
  | 0, _, e, _ => some e
  | count + 1, site, e, k => do
    let (e, k) ← e.push? heights site k
    pushFrom? heights count (site + 1) e k

/-- The arc from index `k` on that is least at a place: the next one starts no earlier. -/
def reign? (e : Envelope α) (q k : Nat) : Option Nat :=
  if h : k + 1 < e.borders.size then
    if e.borders[k + 1].isPassed q then e.reign? q (k + 1) else some k
  else none
termination_by e.borders.size - k

/-- The value at a place of the parabola of a site. -/
def valueAt (site : Nat) (height : α) (q : Nat) : α :=
  let d := (q : α) - (site : α)
  d * d + height

/-- The values of an envelope at `count` places from `q` on, behind the ones found already. The arc
with index `k` is the last one looked at. -/
def valuesFrom? (e : Envelope α) (heights : Array α) :
    (count q k : Nat) → Array α → Option (Array α)
  | 0, _, _, found => some found
  | count + 1, q, k, found => do
    let k ← e.reign? q k
    let site ← e.sites[k]?
    let height ← heights[site]?
    e.valuesFrom? heights count (q + 1) k (found.push (valueAt site height q))

/-- At every place of a line, the least of the parabolas of all its places. The buffers are given
back for the next line. -/
def squaredDistances? (heights : Array α) (e : Envelope α) :
    Option (Array α × Envelope α) :=
  if heights.isEmpty then some (#[], e)
  else do
    let e ← pushFrom? heights (heights.size - 1) 1 (← e.place? 0 0 .before) 0
    let values ← e.valuesFrom? heights heights.size 0 0 #[]
    return (values, e)

/-- The least values along each of some lines: the buffers serve one line after the other. -/
def sweep? : List (Array α) → Envelope α → Option (List (Array α) × Envelope α)
  | [], e => some ([], e)
  | line :: rest, e => do
    let (values, e) ← squaredDistances? line e
    let (others, e) ← sweep? rest e
    return (values :: others, e)

end Envelope

end ShapeGrammar
