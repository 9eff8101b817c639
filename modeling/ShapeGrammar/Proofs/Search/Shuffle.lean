import Mathlib.Data.Set.Function
import ShapeGrammar.Proofs.Random.Evenness
import ShapeGrammar.Proofs.Search.Pool

/-!
# A pool is a shuffled array

Drawing from a pool is drawing from an array that is written out, each entry drawn giving way to the
last one. Every order in which actions can be drawn comes from exactly one choice of places. Main
statement: `draws_shuffle`.
-/
namespace ShapeGrammar

namespace ActionPool

variable {p : ActionPool}

/-! ## What is drawn from given places -/

/-- Takes the entries at some places, one after the other. -/
def drawEach : List ℕ → ActionPool → List ℕ × ActionPool
  | [], p => ([], p)
  | place :: places, p =>
    let (action, p) := p.drawAt place
    let (actions, p) := drawEach places p
    (action :: actions, p)

/-- The same on an array that is written out: the last entry is put where one was taken. -/
def shuffle : List ℕ → List ℕ → List ℕ × List ℕ
  | [], entries => ([], entries)
  | place :: places, entries =>
    let (actions, left) := shuffle places ((entries.set place (entries.getLastD 0)).dropLast)
    (entries.getD place 0 :: actions, left)

/-- Places that can be drawn from one after the other: the first below `size`, and each next one
below one less. -/
def Places (size : ℕ) (places : List ℕ) : Prop :=
  ∀ i place, places[i]? = some place → place < size - i

@[simp] theorem places_nil (size : ℕ) : Places size [] := by
  intro i place h
  simp at h

@[simp] theorem places_cons {size place : ℕ} {places : List ℕ} :
    Places size (place :: places) ↔ place < size ∧ Places (size - 1) places := by
  constructor
  · intro h
    refine ⟨h 0 place rfl, fun i q hq => ?_⟩
    have hnext := h (i + 1) q hq
    omega
  · rintro ⟨hfirst, hrest⟩ i q hq
    cases i with
    | zero =>
      rw [List.getElem?_cons_zero, Option.some.injEq] at hq
      omega
    | succ i =>
      have hnext := hrest i q hq
      omega

theorem Places.length_le {size : ℕ} {places : List ℕ} (h : Places size places) :
    places.length ≤ size := by
  induction places generalizing size with
  | nil => simp
  | cons place places ih =>
    obtain ⟨hplace, hrest⟩ := places_cons.mp h
    have hlength := ih hrest
    simp only [List.length_cons]
    omega

@[simp] theorem remaining_drawAt (place : ℕ) :
    (p.drawAt place).2.remaining = p.remaining - 1 :=
  rfl

/-! ## The array -/

theorem getElem?_toList {i : ℕ} (h : i < p.remaining) : p.toList[i]? = some (p.entry i) := by
  simp [toList, h]

theorem drawAt_fst {place : ℕ} (h : place < p.remaining) :
    (p.drawAt place).1 = p.toList.getD place 0 := by
  rw [List.getD_eq_getElem?_getD, getElem?_toList h]
  rfl

theorem getLastD_toList (h : 0 < p.remaining) :
    p.toList.getLastD 0 = p.entry (p.remaining - 1) := by
  rw [List.getLastD_eq_getLast?, List.getLast?_eq_getElem?, length_toList,
    getElem?_toList (by omega), Option.getD_some]

/-- A draw puts the last entry at its place. -/
theorem toList_drawAt_eq {place : ℕ} (h : place < p.remaining) :
    (p.drawAt place).2.toList = (p.toList.set place (p.toList.getLastD 0)).dropLast := by
  rw [getLastD_toList (by omega)]
  refine List.ext_getElem (by simp) fun i hi _ => ?_
  have hi' : i < p.remaining - 1 := by simpa using hi
  rw [List.getElem_dropLast, List.getElem_set]
  simp only [toList, List.getElem_map, List.getElem_range, entry_drawAt hi', eq_comm]

/-- Drawing from a pool is drawing from the array of its entries. -/
theorem drawEach_eq_shuffle {places : List ℕ} (h : Places p.remaining places) :
    (p.drawEach places).1 = (shuffle places p.toList).1 ∧
      (p.drawEach places).2.toList = (shuffle places p.toList).2 := by
  induction places generalizing p with
  | nil => exact ⟨rfl, rfl⟩
  | cons place places ih =>
    obtain ⟨hplace, hrest⟩ := places_cons.mp h
    obtain ⟨hactions, hleft⟩ := ih (p := (p.drawAt place).2) hrest
    rw [toList_drawAt_eq hplace] at hactions hleft
    exact ⟨congrArg₂ List.cons (drawAt_fst hplace) hactions, hleft⟩

/-! ## What has been drawn and what is left -/

@[simp] theorem remaining_drawEach (places : List ℕ) :
    (p.drawEach places).2.remaining = p.remaining - places.length := by
  induction places generalizing p with
  | nil => rfl
  | cons place places ih =>
    have hrest := ih (p := (p.drawAt place).2)
    rw [remaining_drawAt] at hrest
    rw [List.length_cons, drawEach, hrest]
    omega

@[simp] theorem length_drawEach (places : List ℕ) :
    (p.drawEach places).1.length = places.length := by
  induction places generalizing p with
  | nil => rfl
  | cons place places ih => simp [drawEach, ih]

/-- What was drawn and what is left are together what there was. -/
theorem perm_drawEach {places : List ℕ} (h : Places p.remaining places) :
    p.toList.Perm ((p.drawEach places).1 ++ (p.drawEach places).2.toList) := by
  induction places generalizing p with
  | nil => exact .refl _
  | cons place places ih =>
    obtain ⟨hplace, hrest⟩ := places_cons.mp h
    exact (toList_drawAt hplace).trans ((ih (p := (p.drawAt place).2) hrest).cons _)

/-! ## What is recorded -/

/-- The record of a pool: places that are left, each with a later one. -/
def Recorded (p : ActionPool) : Prop :=
  ∀ key entry, p.moved[key]? = some entry → key < p.remaining ∧ key < entry

/-- What stands at the last place is none of the earlier ones. -/
theorem Recorded.le_entry (h : p.Recorded) (place : ℕ) : place ≤ p.entry place := by
  unfold entry
  cases hkept : p.moved[place]? with
  | none => rfl
  | some entry => exact (h place entry hkept).2.le

theorem recorded_full (size : ℕ) : (full size).Recorded := by
  intro key entry h
  simp [full] at h

theorem Recorded.drawAt (h : p.Recorded) {place : ℕ} (hplace : place < p.remaining) :
    (p.drawAt place).2.Recorded := by
  intro key entry hkept
  have hlast := h.le_entry (p.remaining - 1)
  simp only [ActionPool.drawAt, Std.TreeMap.getElem?_erase, Nat.compare_eq_eq] at hkept
  split at hkept
  · cases hkept
  next hkey =>
    split at hkept
    next hsame =>
      have hold := h key entry hkept
      simp only [remaining_drawAt]
      omega
    next hmoves =>
      rw [Std.TreeMap.getElem?_insert] at hkept
      simp only [Nat.compare_eq_eq, remaining_drawAt] at hkept ⊢
      split at hkept
      · rw [Option.some.injEq] at hkept
        omega
      · have hold := h key entry hkept
        omega

theorem Recorded.drawEach (h : p.Recorded) {places : List ℕ} (hplaces : Places p.remaining places) :
    (p.drawEach places).2.Recorded := by
  induction places generalizing p with
  | nil => exact h
  | cons place places ih =>
    obtain ⟨hplace, hrest⟩ := places_cons.mp hplaces
    exact ih (h.drawAt hplace) hrest

/-- A draw records one entry at most. -/
theorem size_moved_drawAt_le (p : ActionPool) (place : ℕ) :
    (p.drawAt place).2.moved.size ≤ p.moved.size + 1 := by
  refine Std.TreeMap.size_erase_le.trans ?_
  split
  · exact Nat.le_succ _
  · exact Std.TreeMap.size_insert_le

theorem size_moved_drawEach_le (places : List ℕ) :
    (p.drawEach places).2.moved.size ≤ p.moved.size + places.length := by
  induction places generalizing p with
  | nil => exact Nat.le_refl _
  | cons place places ih =>
    have hrest := ih (p := (p.drawAt place).2)
    have hfirst := size_moved_drawAt_le p place
    simp only [drawEach, List.length_cons]
    omega

/-! ## Orders of drawing -/

theorem injOn_drawEach (hp : p.toList.Nodup) {places places' : List ℕ}
    (h : Places p.remaining places) (h' : Places p.remaining places')
    (heq : (p.drawEach places).1 = (p.drawEach places').1) : places = places' := by
  induction places generalizing p places' with
  | nil =>
    have hlength := congrArg List.length heq
    simpa using hlength.symm
  | cons place places ih =>
    cases places' with
    | nil => simp [drawEach] at heq
    | cons place' places' =>
      obtain ⟨hplace, hrest⟩ := places_cons.mp h
      obtain ⟨hplace', hrest'⟩ := places_cons.mp h'
      obtain ⟨hfirst, htail⟩ := List.cons.inj heq
      have hsame : place = place' := by
        have hentry : p.entry place = p.entry place' := hfirst
        rw [← Option.some_inj, ← getElem?_toList hplace, ← getElem?_toList hplace'] at hentry
        exact (List.getElem?_inj (by simpa using hplace) hp).mp hentry
      subst hsame
      have hleft : (p.drawAt place).2.toList.Nodup :=
        ((toList_drawAt hplace).nodup_iff.mp hp).of_cons
      rw [ih hleft hrest hrest' htail]

theorem surjOn_drawEach (hp : p.toList.Nodup) {actions : List ℕ} (hnodup : actions.Nodup)
    (hmem : ∀ action ∈ actions, action ∈ p.toList) :
    ∃ places, Places p.remaining places ∧ (p.drawEach places).1 = actions := by
  induction actions generalizing p with
  | nil => exact ⟨[], places_nil _, rfl⟩
  | cons action actions ih =>
    obtain ⟨place, hplace, rfl⟩ : ∃ place < p.remaining, p.entry place = action := by
      simpa [toList] using hmem action List.mem_cons_self
    obtain ⟨hfirst, hrest⟩ := List.nodup_cons.mp hnodup
    have hperm := toList_drawAt hplace
    have hleft : (p.drawAt place).2.toList.Nodup := (hperm.nodup_iff.mp hp).of_cons
    obtain ⟨places, hplaces, hactions⟩ := ih hleft hrest fun action haction => by
      have hwas := hperm.mem_iff.mp (hmem action (List.mem_cons_of_mem _ haction))
      refine (List.mem_cons.mp hwas).resolve_left ?_
      rintro rfl
      exact hfirst haction
    exact ⟨place :: places, places_cons.mpr ⟨hplace, hplaces⟩, congrArg _ hactions⟩

/-- Choices of places and orders of drawing correspond to each other. -/
theorem bijOn_drawEach (hp : p.toList.Nodup) (count : ℕ) :
    Set.BijOn (fun places => (p.drawEach places).1)
      {places | places.length = count ∧ Places p.remaining places}
      {actions | actions.length = count ∧ actions.Nodup ∧
        ∀ action ∈ actions, action ∈ p.toList} := by
  refine ⟨?_, ?_, ?_⟩
  · rintro places ⟨rfl, hplaces⟩
    have hperm := perm_drawEach hplaces
    refine ⟨length_drawEach places, ((hperm.nodup_iff.mp hp).of_append_left), ?_⟩
    exact fun action haction => hperm.mem_iff.mpr (List.mem_append_left _ haction)
  · rintro places ⟨_, hplaces⟩ places' ⟨_, hplaces'⟩ heq
    exact injOn_drawEach hp hplaces hplaces' heq
  · rintro actions ⟨rfl, hnodup, hmem⟩
    obtain ⟨places, hplaces, rfl⟩ := surjOn_drawEach hp hnodup hmem
    exact ⟨places, ⟨(length_drawEach places).symm, hplaces⟩, rfl⟩

/-! ## Draws of a generator -/

/-- The places that a generator draws one after the other, until no entry is left. -/
def placesDrawn : ℕ → ℕ → Generator → List ℕ
  | 0, _, _ => []
  | count + 1, size, rng =>
    if size = 0 then []
    else
      let (place, rng) := rng.below (.ofNat size)
      place.toNat :: placesDrawn count (size - 1) rng

/-- Draws a number of times, or until nothing is left. -/
def drawMany : ℕ → ActionPool → Generator → List ℕ × ActionPool × Generator
  | 0, p, rng => ([], p, rng)
  | count + 1, p, rng =>
    match p.draw rng with
    | none => ([], p, rng)
    | some (action, p, rng) =>
      let (actions, p, rng) := drawMany count p rng
      (action :: actions, p, rng)

theorem draw_of_pos (h : 0 < p.remaining) (rng : Generator) :
    p.draw rng =
      let drawn := rng.below (.ofNat p.remaining)
      some ((p.drawAt drawn.1.toNat).1, (p.drawAt drawn.1.toNat).2, drawn.2) := by
  have hsome : ¬p.isEmpty = true := by
    rw [isEmpty, beq_iff_eq]
    omega
  rw [draw, if_neg hsome]

/-- A run of draws takes the entries at the places that the generator draws. -/
theorem drawMany_eq_drawEach (count : ℕ) (p : ActionPool) (rng : Generator) :
    Places p.remaining (placesDrawn count p.remaining rng) ∧
      (placesDrawn count p.remaining rng).length = min count p.remaining ∧
      (drawMany count p rng).1 = (p.drawEach (placesDrawn count p.remaining rng)).1 ∧
      (drawMany count p rng).2.1 = (p.drawEach (placesDrawn count p.remaining rng)).2 := by
  induction count generalizing p rng with
  | zero => simp [placesDrawn, drawMany, drawEach]
  | succ count ih =>
    rcases Nat.eq_zero_or_pos p.remaining with hzero | hpos
    · have hnone : p.draw rng = none := by
        rw [draw_eq_none_iff, isEmpty, beq_iff_eq, hzero]
      simp [placesDrawn, drawMany, drawEach, hzero, hnone]
    · have hplace := Generator.below_lt hpos rng
      obtain ⟨hplaces, hlength, hactions, hleft⟩ :=
        ih (p.drawAt (rng.below (.ofNat p.remaining)).1.toNat).2
          (rng.below (.ofNat p.remaining)).2
      rw [remaining_drawAt] at hplaces hlength hactions hleft
      simp only [placesDrawn, if_neg hpos.ne', drawMany, draw_of_pos hpos, drawEach]
      refine ⟨places_cons.mpr ⟨hplace, hplaces⟩, ?_, congrArg _ hactions, hleft⟩
      rw [List.length_cons, hlength]
      omega

/-! ## The whole of it -/

/-- What has been drawn from a pool of all actions below `size`, and what the pool has become, once
the entries at some places were taken. -/
structure Shuffled (size : ℕ) (places actions : List ℕ) (p : ActionPool) : Prop where
  /-- The array that is written out gives the same actions and keeps the same entries. -/
  array : (actions, p.toList) = shuffle places (List.range size)
  nodup : actions.Nodup
  lt : ∀ action ∈ actions, action < size
  perm : (actions ++ p.toList).Perm (List.range size)
  remaining : p.remaining = size - places.length
  draw_eq_none_iff : ∀ rng, p.draw rng = none ↔ places.length = size
  size_moved_le : p.moved.size ≤ places.length
  recorded : p.Recorded
  /-- Whatever is left, each place is given by equally many words of the generator. -/
  even : size < 2 ^ 64 → ∀ place < p.remaining,
    {word | Generator.accept (.ofNat p.remaining) word = some (.ofNat place)}.ncard =
      2 ^ 64 / p.remaining

theorem shuffled_drawEach {size : ℕ} {places : List ℕ} (h : Places size places) :
    Shuffled size places ((full size).drawEach places).1 ((full size).drawEach places).2 := by
  have hperm := perm_drawEach (p := full size) h
  rw [toList_full] at hperm
  have hleft : ((full size).drawEach places).2.remaining = size - places.length :=
    remaining_drawEach places
  have hlength := h.length_le
  constructor
  case array =>
    obtain ⟨hactions, hentries⟩ := drawEach_eq_shuffle (p := full size) h
    rw [toList_full] at hactions hentries
    rw [hactions, hentries]
  case nodup => exact (hperm.nodup_iff.mp List.nodup_range).of_append_left
  case lt =>
    intro action haction
    exact List.mem_range.mp (hperm.mem_iff.mpr (List.mem_append_left _ haction))
  case perm => exact hperm.symm
  case remaining => exact hleft
  case draw_eq_none_iff =>
    intro rng
    rw [ActionPool.draw_eq_none_iff, isEmpty, beq_iff_eq, hleft]
    omega
  case size_moved_le =>
    have hmoved := size_moved_drawEach_le (p := full size) places
    have hnone : (full size).moved.size = 0 := rfl
    omega
  case recorded => exact (recorded_full size).drawEach h
  case even =>
    intro hword place hplace
    rw [hleft] at hplace ⊢
    have hrange : (UInt64.ofNat (size - places.length)).toNat = size - places.length := by
      rw [UInt64.toNat_ofNat', Nat.mod_eq_of_lt (by omega)]
    have hnumber : (UInt64.ofNat place).toNat = place := by
      rw [UInt64.toNat_ofNat', Nat.mod_eq_of_lt (by omega)]
    rw [Generator.ncard_accept (by omega), hrange]

/-- A pool of any size is an array of its actions that is shuffled as it is drawn from. Whatever
places the entries are taken from, the draws are those of the array, with no action drawn twice and
none lost, and the record stays as short as the run. The orders in which so many actions can be
drawn correspond to the choices of so many places. A run of a generator is one with the places that
it draws, each in turn among those that are left, and it goes on until nothing is left. -/
theorem draws_shuffle (size : ℕ) :
    (∀ places, Places size places →
      Shuffled size places ((full size).drawEach places).1 ((full size).drawEach places).2) ∧
    (∀ count, Set.BijOn (fun places => ((full size).drawEach places).1)
      {places | places.length = count ∧ Places size places}
      {actions | actions.length = count ∧ actions.Nodup ∧ ∀ action ∈ actions, action < size}) ∧
    ∀ count rng,
      Places size (placesDrawn count size rng) ∧
      (placesDrawn count size rng).length = min count size ∧
      (drawMany count (full size) rng).1 =
        ((full size).drawEach (placesDrawn count size rng)).1 ∧
      (drawMany count (full size) rng).2.1 =
        ((full size).drawEach (placesDrawn count size rng)).2 := by
  refine ⟨fun places => shuffled_drawEach, fun count => ?_, fun count rng => ?_⟩
  · have hnodup : (full size).toList.Nodup := by
      rw [toList_full]
      exact List.nodup_range
    have hbij := bijOn_drawEach hnodup count
    simp only [toList_full, List.mem_range] at hbij
    exact hbij
  · exact drawMany_eq_drawEach count (full size) rng

/-- Of three actions the entry in front is taken three times: the last one moves there first. -/
theorem draws_shuffle_three :
    Places 3 [0, 0, 0] ∧ ((full 3).drawEach [0, 0, 0]).1 = [0, 2, 1] ∧
      ∀ rng, ((full 3).drawEach [0, 0, 0]).2.draw rng = none := by
  have hplaces : Places 3 [0, 0, 0] := by simp
  have hdrawn := (draws_shuffle 3).1 _ hplaces
  have harray : shuffle [0, 0, 0] (List.range 3) = ([0, 2, 1], []) := rfl
  refine ⟨hplaces, ?_, fun rng => (hdrawn.draw_eq_none_iff rng).mpr rfl⟩
  exact congrArg Prod.fst (hdrawn.array.trans harray)

end ActionPool

end ShapeGrammar
