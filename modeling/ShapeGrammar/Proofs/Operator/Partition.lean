import Mathlib.Algebra.BigOperators.Ring.List
import Mathlib.Algebra.Order.BigOperators.Group.List
import Mathlib.Algebra.Order.Floor.Semiring
import Mathlib.Order.CompletePartialOrder
import Mathlib.Order.Interval.Set.Disjoint
import Mathlib.Tactic.Linarith
import Mathlib.Tactic.NormNum
import Mathlib.Tactic.Ring
import ShapeGrammar.Operator.Apply
import ShapeGrammar.Proofs.Number.Evaluable

/-!
# Cutting a scope

At exact numbers the parts of a split and the tiles of a scope are intervals, one behind the other.
The lengths of a split come from sums over its parts, and the places of its parts from another sum,
which goes on where a part is dropped. Main statement: `scope_partitioned`.
-/
namespace ShapeGrammar

/-! ## Lengths -/

theorem Scalar.positivePart_eq_max (x : ℚ) : positivePart x = max x 0 := by
  unfold positivePart
  rw [Scalar.zero_rat]
  split
  next h => exact (max_eq_left h.le).symm
  next h => exact (max_eq_right (not_lt.mp h)).symm

namespace Split

theorem tolerance_eq : (tolerance : ℚ) = 1 / 10000 := by
  unfold tolerance
  norm_num

/-- The length that a part takes for itself. -/
def own (total : ℚ) : SizeMode × ℚ → ℚ
  | (.absolute, size) => max size 0
  | (.relative, size) => max size 0 * total
  | (.floating, _) => 0

/-- What absolute and relative parts take of a length together. -/
def claim (total : ℚ) (specs : List (SizeMode × ℚ)) : ℚ :=
  (specs.map (own total)).sum

/-- The weight of a part in sharing what is left over. -/
def share : SizeMode × ℚ → ℚ
  | (.floating, size) => max size 0
  | _ => 0

theorem foldl_eq_add_sum {β : Type} {f : ℚ → β → ℚ} {g : β → ℚ} (h : ∀ sum x, f sum x = sum + g x)
    (xs : List β) (start : ℚ) : xs.foldl f start = start + (xs.map g).sum := by
  induction xs generalizing start with
  | nil => simp
  | cons x xs ih => simp [ih, h, add_assoc]

theorem claimed_eq_claim (total : ℚ) (specs : List (SizeMode × ℚ)) :
    claimed total specs = claim total specs := by
  unfold claimed claim
  rw [foldl_eq_add_sum (g := own total)]
  · norm_num
  · rintro sum ⟨_ | _ | _, size⟩ <;> simp [own, Scalar.positivePart_eq_max]

theorem weight_eq_sum (specs : List (SizeMode × ℚ)) : weight specs = (specs.map share).sum := by
  unfold weight
  rw [foldl_eq_add_sum (g := share)]
  · norm_num
  · rintro sum ⟨_ | _ | _, size⟩ <;> simp [share, Scalar.positivePart_eq_max]

theorem length_eq (total weight rest : ℚ) (spec : SizeMode × ℚ) :
    length total weight rest spec =
      own total spec + if 0 < weight then share spec / weight * rest else 0 := by
  obtain ⟨_ | _ | _, size⟩ := spec <;>
    simp [length, own, share, Scalar.positivePart_eq_max, Scalar.zero_rat]

section Lengths

variable {total : ℚ} {specs : List (SizeMode × ℚ)} {ls : List ℚ}

theorem own_nonneg (h : 0 ≤ total) (spec : SizeMode × ℚ) : 0 ≤ own total spec := by
  obtain ⟨_ | _ | _, size⟩ := spec <;> simp only [own] <;> positivity

theorem share_nonneg (spec : SizeMode × ℚ) : 0 ≤ share spec := by
  obtain ⟨_ | _ | _, size⟩ := spec <;> simp [share]

theorem weight_pos_iff : 0 < weight specs ↔ ∃ size, (.floating, size) ∈ specs ∧ 0 < size := by
  have hnonneg : ∀ s ∈ specs.map share, 0 ≤ s := by
    rintro _ hs
    obtain ⟨spec, _, rfl⟩ := List.mem_map.mp hs
    exact share_nonneg spec
  rw [weight_eq_sum]
  constructor
  · intro hpos
    by_contra hnone
    push Not at hnone
    refine hpos.ne' (List.sum_eq_zero fun s hs => ?_)
    obtain ⟨⟨_ | _ | _, size⟩, hmem, rfl⟩ := List.mem_map.mp hs
    · rfl
    · rfl
    · exact max_eq_right (hnone size hmem)
  · rintro ⟨size, hmem, hpos⟩
    calc 0 < max size 0 := lt_max_of_lt_left hpos
      _ ≤ (specs.map share).sum :=
        List.single_le_sum hnonneg _ (List.mem_map.mpr ⟨_, hmem, rfl⟩)

/-- The lengths of all parts, by the claims of the parts. -/
theorem lengths_eq (total : ℚ) (specs : List (SizeMode × ℚ)) :
    lengths total specs =
      if total + tolerance < claim total specs then none
      else some (specs.map (length total (weight specs) (max (total - claim total specs) 0))) := by
  rw [lengths, claimed_eq_claim, Scalar.positivePart_eq_max]

theorem sum_length (total rest : ℚ) (specs : List (SizeMode × ℚ)) :
    (specs.map (length total (weight specs) rest)).sum =
      claim total specs + if 0 < weight specs then rest else 0 := by
  have hparts : specs.map (length total (weight specs) rest) = specs.map fun spec =>
      own total spec + if 0 < weight specs then share spec / weight specs * rest else 0 :=
    List.map_congr_left fun spec _ => length_eq total _ rest spec
  rw [hparts, List.sum_map_add]
  congr 1
  split
  next hpos =>
    simp only [div_mul_comm, mul_comm (rest / _)]
    rw [List.sum_map_mul_right, ← weight_eq_sum]
    exact mul_div_cancel₀ rest hpos.ne'
  next => simp

theorem length_nonneg {weight rest : ℚ} (htotal : 0 ≤ total) (hrest : 0 ≤ rest)
    (spec : SizeMode × ℚ) : 0 ≤ length total weight rest spec := by
  have hown := own_nonneg htotal spec
  have hshare := share_nonneg spec
  rw [length_eq]
  split <;> positivity

/-- Lengths for all parts. If there is something to share, they fill up the length that is cut or
go past it; else they are what was claimed. They never go past it by more than the tolerance. -/
structure Fits (total : ℚ) (specs : List (SizeMode × ℚ)) (ls : List ℚ) : Prop where
  length_eq : ls.length = specs.length
  nonneg : ∀ l ∈ ls, 0 ≤ l
  sum_of_floating : (∃ size, (.floating, size) ∈ specs ∧ 0 < size) →
    ls.sum = max total (claim total specs)
  sum_of_rigid : (¬∃ size, (.floating, size) ∈ specs ∧ 0 < size) → ls.sum = claim total specs
  sum_le : ls.sum ≤ total + tolerance

theorem lengths_eq_none_iff :
    lengths total specs = none ↔ total + tolerance < claim total specs := by
  simp [lengths_eq]

theorem fits_of_lengths (htotal : 0 ≤ total) (h : lengths total specs = some ls) :
    Fits total specs ls := by
  have hfits : claim total specs ≤ total + tolerance := by
    rw [← not_lt, ← lengths_eq_none_iff, h]
    exact Option.some_ne_none ls
  rw [lengths_eq, if_neg (not_lt.mpr hfits), Option.some.injEq] at h
  have htolerance : (0 : ℚ) ≤ tolerance := by norm_num [tolerance_eq]
  have hsum := sum_length total (max (total - claim total specs) 0) specs
  have hshared : claim total specs + max (total - claim total specs) 0 =
      max total (claim total specs) := by
    rw [← max_add_add_left, add_sub_cancel, add_zero]
  subst h
  refine ⟨List.length_map .., ?_, fun hfloating => ?_, fun hrigid => ?_, ?_⟩
  · intro l hl
    obtain ⟨spec, _, rfl⟩ := List.mem_map.mp hl
    exact length_nonneg htotal (le_max_right _ _) spec
  · exact (hsum.trans (by rw [if_pos (weight_pos_iff.mpr hfloating)])).trans hshared
  · exact hsum.trans (by rw [if_neg (mt weight_pos_iff.mp hrigid), add_zero])
  · refine hsum.trans_le ?_
    split
    · exact hshared.trans_le (max_le (le_add_of_nonneg_right htolerance) hfits)
    · rwa [add_zero]

end Lengths

/-! ## Cuts -/

section Cuts

variable {ls : List ℚ}

theorem cuts_eq (offset : ℚ) (ls : List ℚ) :
    cuts offset ls = ls.zipIdx.map fun (l, i) => (offset + (ls.take i).sum, l) := by
  induction ls generalizing offset with
  | nil => rfl
  | cons l rest ih =>
    rw [cuts, ih, List.zipIdx_cons, List.map_cons, List.zipIdx_succ]
    simp [Function.comp_def, add_assoc]

/-- A cut starts where the one before it ends, or behind that. -/
theorem cuts_spaced (offset : ℚ) (h : ∀ l ∈ ls, 0 ≤ l) :
    (cuts offset ls).Pairwise (fun c d => c.1 + c.2 ≤ d.1) ∧
      ∀ c ∈ cuts offset ls, offset ≤ c.1 ∧ c.1 + c.2 ≤ offset + ls.sum := by
  induction ls generalizing offset with
  | nil => simp [cuts]
  | cons l rest ih =>
    have hl := h l (List.mem_cons_self ..)
    have hrest : ∀ l' ∈ rest, 0 ≤ l' := fun l' hl' => h l' (List.mem_cons_of_mem l hl')
    have hsum := List.sum_nonneg hrest
    obtain ⟨hpairwise, hwithin⟩ := ih (offset + l) hrest
    rw [cuts, List.pairwise_cons, List.forall_mem_cons, List.sum_cons]
    refine ⟨⟨fun c hc => (hwithin c hc).1, hpairwise⟩, ⟨le_refl _, by linarith⟩, fun c hc => ?_⟩
    obtain ⟨hlow, hhigh⟩ := hwithin c hc
    constructor <;> linarith

end Cuts

end Split

/-! ## Pieces of a scope -/

/-- A piece of a scope: its name, where it starts along an axis, and its length. -/
structure Piece where
  name : String
  offset : ℚ
  length : ℚ
  deriving DecidableEq

namespace Piece

/-- What a piece takes of the axis. -/
def span (p : Piece) : Set ℚ :=
  Set.Ico p.offset (p.offset + p.length)

/-- The piece as a shape. -/
def shape (whole : Shape ℚ) (axis : Axis) (p : Piece) : Shape ℚ :=
  whole.slice axis p.offset p.length p.name

/-- Parts of given lengths, one behind the other. Those that are dropped or have no length take up
their room nevertheless. -/
def kept (parts : List (SplitPart ℚ)) (lengths : List ℚ) : List Piece :=
  (parts.zip lengths.zipIdx).filterMap fun (part, length, i) =>
    if part.name ≠ discardName ∧ 0 < length then
      some ⟨part.name, (lengths.take i).sum, length⟩
    else none

/-- A number of tiles in a row. -/
def row (name : String) (count : ℕ) (length : ℚ) : List Piece :=
  (List.range count).map fun i : ℕ => ⟨name, i * length, length⟩

theorem kept_eq (parts : List (SplitPart ℚ)) (lengths : List ℚ) :
    kept parts lengths = (parts.zip (Split.cuts 0 lengths)).filterMap fun (part, offset, length) =>
      if part.name ≠ discardName ∧ 0 < length then some ⟨part.name, offset, length⟩ else none := by
  rw [kept, Split.cuts_eq, List.zip_map_right, List.filterMap_map]
  simp

theorem splitShapes_eq (whole : Shape ℚ) (axis : Axis) (parts : List (SplitPart ℚ))
    (lengths : List ℚ) :
    Operator.splitShapes whole axis parts lengths =
      (kept parts lengths).map (Piece.shape whole axis) := by
  rw [kept_eq, List.map_filterMap, Operator.splitShapes, Scalar.zero_rat]
  congr 1
  funext ⟨part, offset, length⟩
  by_cases hkept : part.name ≠ discardName ∧ 0 < length <;> simp [hkept, Piece.shape]

/-- Pieces within a range, each behind the one before it. -/
structure Apart (stop : ℚ) (pieces : List Piece) : Prop where
  disjoint : pieces.Pairwise fun p q => Disjoint p.span q.span
  pos : ∀ p ∈ pieces, 0 < p.length
  within : ∀ p ∈ pieces, p.span ⊆ Set.Icc 0 stop

theorem span_disjoint {p q : Piece} (h : p.offset + p.length ≤ q.offset) :
    Disjoint p.span q.span := by
  rw [span, span, Set.Ico_disjoint_Ico]
  exact (min_le_left _ _).trans (h.trans (le_max_right _ _))

theorem pairwise_zip {β γ : Type} {R : γ → γ → Prop} {ys : List γ} (h : ys.Pairwise R)
    (xs : List β) : (xs.zip ys).Pairwise fun p q => R p.2 q.2 := by
  induction h generalizing xs with
  | nil => simp
  | cons hfirst _ ih =>
    cases xs with
    | nil => simp
    | cons x xs =>
      exact .cons (fun p hp => hfirst p.2 (List.of_mem_zip hp).2) (ih xs)

theorem kept_apart (parts : List (SplitPart ℚ)) {lengths : List ℚ} {stop : ℚ}
    (h : ∀ l ∈ lengths, 0 ≤ l) (hstop : lengths.sum ≤ stop) : Apart stop (kept parts lengths) := by
  obtain ⟨hpairwise, hwithin⟩ := Split.cuts_spaced 0 h
  have hcut {p : Piece} (hp : p ∈ kept parts lengths) :
      (p.offset, p.length) ∈ Split.cuts 0 lengths ∧ 0 < p.length := by
    rw [kept_eq] at hp
    obtain ⟨⟨part, offset, length⟩, hmem, hsome⟩ := List.mem_filterMap.mp hp
    simp only [Option.ite_none_right_eq_some, Option.some.injEq] at hsome
    obtain ⟨⟨_, hpos⟩, rfl⟩ := hsome
    exact ⟨(List.of_mem_zip hmem).2, hpos⟩
  refine ⟨?_, fun p hp => (hcut hp).2, fun p hp x hx => ?_⟩
  · rw [kept_eq, List.pairwise_filterMap]
    refine (pairwise_zip hpairwise parts).imp ?_
    rintro ⟨part, offset, length⟩ ⟨part', offset', length'⟩ hbehind p hp q hq
    simp only [Option.ite_none_right_eq_some, Option.some.injEq] at hp hq
    obtain ⟨_, rfl⟩ := hp
    obtain ⟨_, rfl⟩ := hq
    exact span_disjoint hbehind
  · obtain ⟨hlow, hhigh⟩ := hwithin _ (hcut hp).1
    obtain ⟨hx, hx'⟩ := hx
    constructor <;> linarith

/-- A tile ends where a later one starts, or before that. -/
theorem tile_end_le {i j : ℕ} (h : i < j) {length : ℚ} (hlength : 0 ≤ length) :
    i * length + length ≤ j * length := by
  have hsucc : ((i + 1 : ℕ) : ℚ) ≤ j := Nat.cast_le.mpr h
  have hend := mul_le_mul_of_nonneg_right hsucc hlength
  rwa [Nat.cast_succ, add_one_mul] at hend

theorem row_apart (name : String) (count : ℕ) {length : ℚ} (hlength : 0 < length) :
    Apart (count * length) (row name count length) := by
  refine ⟨?_, ?_, ?_⟩
  · rw [row, List.pairwise_map]
    exact List.pairwise_lt_range.imp fun hlt => span_disjoint (tile_end_le hlt hlength.le)
  · simpa [row] using fun _ _ => hlength
  · intro p hp x hx
    obtain ⟨i, hi, rfl⟩ := List.mem_map.mp hp
    obtain ⟨hlow, hhigh⟩ := hx
    have hle := tile_end_le (List.mem_range.mp hi) hlength.le
    exact ⟨hlow.trans' (by positivity), (hhigh.trans_le hle).le⟩

/-- Every point of a length lies in a tile, or where two meet. -/
theorem exists_step {f : ℕ → ℚ} {n : ℕ} {x : ℚ} (hn : 0 < n) (hlow : f 0 ≤ x) (hhigh : x ≤ f n) :
    ∃ i < n, f i ≤ x ∧ x ≤ f (i + 1) := by
  induction n with
  | zero => exact absurd hn (lt_irrefl 0)
  | succ n ih =>
    rcases Nat.eq_zero_or_pos n with rfl | hpos
    · exact ⟨0, hn, hlow, hhigh⟩
    · rcases le_total x (f n) with hle | hge
      · obtain ⟨i, hi, hstep⟩ := ih hpos hle
        exact ⟨i, hi.trans n.lt_succ_self, hstep⟩
      · exact ⟨n, n.lt_succ_self, hge, hhigh⟩

theorem row_covers (name : String) {count : ℕ} {length : ℚ} (hcount : 0 < count)
    (hlength : 0 < length) :
    ⋃ p ∈ row name count length, Set.Icc p.offset (p.offset + p.length) =
      Set.Icc 0 (count * length) := by
  ext x
  simp only [row, Set.mem_iUnion, List.mem_map, List.mem_range, exists_prop, Set.mem_Icc]
  constructor
  · rintro ⟨_, ⟨i, hi, rfl⟩, hlow, hhigh⟩
    exact ⟨hlow.trans' (by positivity), hhigh.trans (tile_end_le hi hlength.le)⟩
  · rintro ⟨hlow, hhigh⟩
    obtain ⟨i, hi, hstart, hstop⟩ := exists_step (f := fun i => (i : ℚ) * length) hcount
      (by simpa using hlow) hhigh
    refine ⟨_, ⟨i, hi, rfl⟩, hstart, ?_⟩
    rwa [Nat.cast_succ, add_one_mul] at hstop

/-- A piece is laid out like the whole, moved along the axis. -/
theorem place_shape (whole : Shape ℚ) (axis : Axis) (p : Piece) (point : Vec3 ℚ) :
    (p.shape whole axis).transform.place point =
      whole.transform.place (point.set axis (point.get axis + p.offset)) := by
  cases axis <;>
    simp [shape, Shape.slice, Shape.translate, Matrix.mul, Matrix.translation, Matrix.identity,
      Matrix.apply, Matrix.place, Vec3.zero, Vec3.set, Vec3.get, Scalar.zero_rat,
      Scalar.one_rat] <;>
    refine ⟨?_, ?_, ?_⟩ <;> ring

end Piece

namespace Operator

variable {values : String → Option ℚ} {whole : Shape ℚ} {axis : Axis}

theorem apply_of_ends {op : Operator ℚ} {made : Successors ℚ}
    (h : op.effect values whole = .ok (.ends made)) :
    op.apply values whole = .ok ⟨made.toList, none⟩ := by
  rw [apply, h]
  rfl

theorem apply_split {parts : List (SplitPart ℚ)} {specs : List (SizeMode × ℚ)}
    (hspecs : evalParts values whole.size parts = .ok specs) :
    (split axis parts).apply values whole =
      .ok ⟨((Split.lengths (whole.size.get axis) specs).elim [] (Piece.kept parts)).map
        (Piece.shape whole axis), none⟩ := by
  have heffect : (split axis parts).effect values whole = .ok (.ends (.listed
      (((Split.lengths (whole.size.get axis) specs).elim [] (Piece.kept parts)).map
        (Piece.shape whole axis)))) := by
    rw [effect, hspecs]
    cases hlengths : Split.lengths (whole.size.get axis) specs with
    | none => simp [bind, Except.bind, pure, Except.pure, hlengths]
    | some lengths =>
      simp [bind, Except.bind, pure, Except.pure, hlengths, Piece.splitShapes_eq]
  exact apply_of_ends heffect

theorem tileCount_eq (total size : ℚ) : tileCount total size = .ok (max 1 ⌊total / size⌋₊) := by
  have hfinite : Scalar.isFinite (total / size) = true := by
    norm_num [Scalar.isFinite]
  rw [tileCount, if_pos hfinite, max_comm]
  rfl

theorem apply_tile {size : Param ℚ} {name : String} {tile : ℚ}
    (heval : size.expr.eval values whole.size = .ok tile) (htotal : 0 < whole.size.get axis)
    (htile : 0 < tile) :
    (Operator.tile axis size name).apply values whole =
      .ok ⟨(Piece.row name (max 1 ⌊whole.size.get axis / tile⌋₊)
        (whole.size.get axis / (max 1 ⌊whole.size.get axis / tile⌋₊ : ℕ))).map
          (Piece.shape whole axis), none⟩ := by
  have hsizes : ¬(whole.size.get axis ≤ 0 ∨ tile ≤ 0) := by
    rw [not_or, not_le, not_le]
    exact ⟨htotal, htile⟩
  have heffect : (Operator.tile axis size name).effect values whole = .ok (.ends
      (tiles whole axis name (max 1 ⌊whole.size.get axis / tile⌋₊))) := by
    rw [effect, heval, Scalar.zero_rat]
    change (if _ then _ else (tileCount _ _ >>= _)) = _
    rw [if_neg hsizes, tileCount_eq]
    rfl
  rw [apply_of_ends heffect, Piece.row, List.map_map]
  rfl

/-- A tile is as long as was asked for, or longer, unless there is less. -/
theorem min_le_length {total tile : ℚ} (htotal : 0 < total) (htile : 0 < tile) :
    min tile total ≤ total / (max 1 ⌊total / tile⌋₊ : ℕ) := by
  rcases lt_or_ge (total / tile) 1 with hfew | hmany
  · rw [Nat.floor_eq_zero.mpr hfew]
    simp
  · have hcount : 1 ≤ ⌊total / tile⌋₊ := Nat.le_floor (by rwa [Nat.cast_one])
    have hpos : (0 : ℚ) < ⌊total / tile⌋₊ := by exact_mod_cast hcount
    have hle := Nat.floor_le (div_pos htotal htile).le
    rw [max_eq_right hcount]
    refine (min_le_left _ _).trans ?_
    rw [le_div_iff₀ hpos]
    rwa [le_div_iff₀ htile, mul_comm] at hle

/-- Cutting a scope leaves nothing of it twice. Lengths are found unless absolute and relative parts
claim more than there is; parts that are kept lie one behind the other where all parts before them
end. Tiles are as many as fit, one at least, and fill the scope. Every piece is laid out like the
scope itself, moved to its place. -/
theorem scope_partitioned (values : String → Option ℚ) (whole : Shape ℚ) (axis : Axis) :
    (∀ total specs, 0 ≤ total →
      (Split.lengths total specs = none ↔ total + Split.tolerance < Split.claim total specs) ∧
      ∀ lengths, Split.lengths total specs = some lengths → Split.Fits total specs lengths) ∧
    (∀ parts specs, 0 ≤ whole.size.get axis → evalParts values whole.size parts = .ok specs →
      ∃ pieces,
        (split axis parts).apply values whole =
          .ok ⟨pieces.map (Piece.shape whole axis), none⟩ ∧
        (Split.lengths (whole.size.get axis) specs = none → pieces = []) ∧
        (∀ lengths, Split.lengths (whole.size.get axis) specs = some lengths →
          pieces = Piece.kept parts lengths) ∧
        Piece.Apart (whole.size.get axis + Split.tolerance) pieces) ∧
    (∀ (size : Param ℚ) name tile, 0 < whole.size.get axis →
      size.expr.eval values whole.size = .ok tile → 0 < tile →
      ∃ count length pieces, count = max 1 ⌊whole.size.get axis / tile⌋₊ ∧
        count * length = whole.size.get axis ∧ min tile (whole.size.get axis) ≤ length ∧
        pieces = Piece.row name count length ∧
        (Operator.tile axis size name).apply values whole =
          .ok ⟨pieces.map (Piece.shape whole axis), none⟩ ∧
        Piece.Apart (whole.size.get axis) pieces ∧
        ⋃ p ∈ pieces, Set.Icc p.offset (p.offset + p.length) =
          Set.Icc 0 (whole.size.get axis)) ∧
    ∀ (p : Piece) (point : Vec3 ℚ),
      (p.shape whole axis).name = p.name ∧
      (p.shape whole axis).size = whole.size.set axis p.length ∧
      (p.shape whole axis).transform.place point =
        whole.transform.place (point.set axis (point.get axis + p.offset)) := by
  refine ⟨fun total specs htotal => ⟨Split.lengths_eq_none_iff, fun lengths h =>
    Split.fits_of_lengths htotal h⟩, fun parts specs htotal hspecs => ?_,
    fun size name tile htotal heval htile => ?_,
    fun p point => ⟨rfl, rfl, Piece.place_shape whole axis p point⟩⟩
  · refine ⟨_, apply_split hspecs, fun hnone => by rw [hnone]; rfl,
      fun lengths hsome => by rw [hsome]; rfl, ?_⟩
    cases hlengths : Split.lengths (whole.size.get axis) specs with
    | none => exact ⟨.nil, by simp, by simp⟩
    | some lengths =>
      have hfits := Split.fits_of_lengths htotal hlengths
      exact Piece.kept_apart parts hfits.nonneg hfits.sum_le
  · have hcount : 0 < max 1 ⌊whole.size.get axis / tile⌋₊ :=
      Nat.lt_of_lt_of_le Nat.one_pos (Nat.le_max_left _ _)
    have hcast : (0 : ℚ) < (max 1 ⌊whole.size.get axis / tile⌋₊ : ℕ) := Nat.cast_pos.mpr hcount
    have hwhole := mul_div_cancel₀ (whole.size.get axis) hcast.ne'
    have hlength := div_pos htotal hcast
    refine ⟨_, _, _, rfl, hwhole, min_le_length htotal htile, rfl,
      apply_tile heval htotal htile, ?_, ?_⟩
    · have hapart := Piece.row_apart name (max 1 ⌊whole.size.get axis / tile⌋₊) hlength
      rwa [hwhole] at hapart
    · rw [Piece.row_covers name hcount hlength, hwhole]

/-- A front ten wide and four high. -/
def front : Shape ℚ :=
  ⟨"Front", .identity, ⟨10, 4, 0⟩, .ones⟩

/-- Two at the left end, half of the front in the middle, and the rest shared one to three, of which
the first share is left out. -/
def bays : List (SplitPart ℚ) :=
  [⟨⟨"2", .number 2⟩, .absolute, "Left"⟩, ⟨⟨"1", .number 1⟩, .floating, "NIL"⟩,
    ⟨⟨"0.5", .number 0.5⟩, .relative, "Middle"⟩, ⟨⟨"3", .number 3⟩, .floating, "Right"⟩]

/-- What the sizes of the bays come to. -/
def bayLengths : List (SizeMode × ℚ) :=
  [(.absolute, 2), (.floating, 1), (.relative, 0.5), (.floating, 3)]

/-- The gap of three quarters stays, and three tiles do for a front of ten if they are to be three
wide. -/
theorem scope_partitioned_front :
    Split.lengths 10 bayLengths = some [2, 3 / 4, 5, 9 / 4] ∧
    ([2, 3 / 4, 5, 9 / 4] : List ℚ).sum = max 10 (Split.claim 10 bayLengths) ∧
    ((split .x bays).apply (fun _ => none) front = .ok ⟨[front.slice .x 0 2 "Left",
      front.slice .x (11 / 4) 5 "Middle", front.slice .x (31 / 4) (9 / 4) "Right"], none⟩) ∧
    Piece.Apart (10 + Split.tolerance)
      [⟨"Left", 0, 2⟩, ⟨"Middle", 11 / 4, 5⟩, ⟨"Right", 31 / 4, 9 / 4⟩] ∧
    ⋃ p ∈ Piece.row "Bay" 3 (10 / 3), Set.Icc p.offset (p.offset + p.length) = Set.Icc 0 10 := by
  obtain ⟨hlengths, hsplit, htile, -⟩ := scope_partitioned (fun _ => none) front .x
  have hten : Split.lengths 10 bayLengths = some [2, 3 / 4, 5, 9 / 4] := by decide +kernel
  have hfits := (hlengths 10 _ (by norm_num)).2 _ hten
  obtain ⟨pieces, happly, -, hkept, hapart⟩ := hsplit bays bayLengths (by decide +kernel) rfl
  have hpieces : pieces = [⟨"Left", 0, 2⟩, ⟨"Middle", 11 / 4, 5⟩, ⟨"Right", 31 / 4, 9 / 4⟩] :=
    (hkept _ hten).trans (by decide +kernel)
  obtain ⟨count, length, tiles, hcount, hwhole, -, hrow, -, -, hcovers⟩ :=
    htile ⟨"3", .number 3⟩ "Bay" 3 (by decide +kernel) rfl (by norm_num)
  have hthree : count = 3 := hcount.trans (by decide +kernel)
  subst hpieces hthree
  have hthird : length = 10 / 3 := by
    rw [eq_div_iff (by norm_num), mul_comm]
    exact hwhole
  rw [hrow, hthird] at hcovers
  exact ⟨hten, hfits.sum_of_floating ⟨1, by simp [bayLengths], one_pos⟩, happly, hapart, hcovers⟩

end Operator

end ShapeGrammar
