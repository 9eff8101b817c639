import Mathlib.Data.List.Induction
import Mathlib.Data.List.Nodup
import ShapeGrammar.Proofs.Grammar.Decision
import ShapeGrammar.Proofs.Grammar.Digits
import ShapeGrammar.Proofs.Grammar.Validity

/-!
# The choices of a rule

The choices of a rule are the open attributes that its parameters name, each once and in the order
in which they are first named. A valid grammar has no more of them in a rule than a word can count,
however its attributes have been set since. Main statement: `actions_eq_levels`, that the actions of
a rule are the ways to give a level to each of its choices.
-/
namespace ShapeGrammar

namespace ActionSpace

@[simp] theorem distinct_nil : distinct [] = [] :=
  rfl

theorem distinct_concat (names : List String) (name : String) :
    distinct (names ++ [name]) =
      if (distinct names).contains name then distinct names else distinct names ++ [name] := by
  simp [distinct]

@[simp] theorem mem_distinct {names : List String} {name : String} :
    name ∈ distinct names ↔ name ∈ names := by
  induction names using List.reverseRecOn with
  | nil => simp
  | append_singleton names last ih =>
    rw [distinct_concat]
    split
    next h =>
      rw [List.contains_iff_mem] at h
      rw [List.mem_append, List.mem_singleton, ih]
      constructor
      · exact .inl
      · rintro (hname | rfl)
        · exact hname
        · exact ih.mp h
    next => rw [List.mem_append, List.mem_append, ih]

theorem nodup_distinct (names : List String) : (distinct names).Nodup := by
  induction names using List.reverseRecOn with
  | nil => simp
  | append_singleton names last ih =>
    rw [distinct_concat]
    split
    · exact ih
    next h =>
      rw [List.contains_iff_mem] at h
      refine List.nodup_append.mpr ⟨ih, List.nodup_singleton last, ?_⟩
      intro name hname other hother heq
      rw [List.mem_singleton] at hother
      exact h (hother ▸ heq ▸ hname)

/-- The names that are picked out of a list come in the order in which they first stand in it. -/
theorem pairwise_idxOf_distinct (chosen : String → Bool) (names : List String) :
    (distinct (names.filter chosen)).Pairwise fun a b => names.idxOf a < names.idxOf b := by
  induction names using List.reverseRecOn with
  | nil => simp
  | append_singleton names last ih =>
    have hold : (distinct (names.filter chosen)).Pairwise fun a b =>
        (names ++ [last]).idxOf a < (names ++ [last]).idxOf b := by
      refine ih.imp_of_mem fun ha hb hlt => ?_
      rw [mem_distinct, List.mem_filter] at ha hb
      rwa [List.idxOf_append_of_mem ha.1, List.idxOf_append_of_mem hb.1]
    rw [List.filter_append, List.filter_cons, List.filter_nil]
    split
    next hchosen =>
      rw [distinct_concat]
      split
      · exact hold
      next hnew =>
        rw [List.contains_iff_mem, mem_distinct, List.mem_filter, not_and'] at hnew
        refine List.pairwise_append.mpr ⟨hold, List.pairwise_singleton _ _, fun a ha b hb => ?_⟩
        rw [List.mem_singleton] at hb
        rw [mem_distinct, List.mem_filter] at ha
        rw [hb, List.idxOf_append_of_mem ha.1, List.idxOf_append_of_notMem (hnew hchosen)]
        exact Nat.lt_add_right _ (List.idxOf_lt_length_of_mem ha.1)
    next => simpa using hold

end ActionSpace

namespace Grammar

variable {α : Type} [Scalar α] {g g' : Grammar α} {name : String} {rule : Rule α}

/-- In a valid grammar no rule has more choices than an action can count. -/
theorem length_rangedNames_le (hvalid : g.validate = .ok ()) (hrule : g.rule? name = some rule) :
    (g.rangedNames rule).length ≤ ActionSpace.maxFree := by
  have hchecked := validateRule_of_validate hvalid hrule
  simp only [validateRule] at hchecked
  split at hchecked
  · cases hchecked
  · split at hchecked
    · cases hchecked
    · split at hchecked
      · cases hchecked
      next hcount => exact Nat.not_lt.mp hcount

/-- The choices that are open are among those that are counted, however attributes have been set
since. -/
theorem length_distinct_isFree_le (hvalid : g.validate = .ok ()) (hsnapshot : g.Snapshot g')
    (hrule : g'.rule? name = some rule) :
    (ActionSpace.distinct (rule.namedAttributes.filter g'.isFree)).length ≤
      ActionSpace.maxFree := by
  rw [hsnapshot.rule?_eq] at hrule
  refine Nat.le_trans ?_ (length_rangedNames_le hvalid hrule)
  refine (ActionSpace.nodup_distinct _).length_le_of_subset fun key hkey => ?_
  rw [ActionSpace.mem_distinct, List.mem_filter] at hkey
  obtain ⟨a, ha, hfree⟩ := isFree_iff.mp hkey.2
  have hranged : g'.isRanged key = true := by
    rw [isRanged_iff]
    exact ⟨a, ha, (Bool.and_eq_true_iff.mp hfree).1⟩
  rw [rangedNames, ActionSpace.mem_distinct, List.mem_filter, ← hsnapshot.isRanged_eq]
  exact ⟨hkey.1, hranged⟩

end Grammar

namespace ActionSpace

variable {α : Type} [Scalar α] {s : ActionSpace} {g g' : Grammar α} {action : Nat}

theorem map_fst_zip_levels (s : ActionSpace) (action : Nat) :
    (s.free.zip (s.levels action)).map Prod.fst = s.free := by
  refine List.map_fst_zip (Nat.le_of_eq ?_)
  rw [levels, length_digits]

/-- Each choice of a space is fixed at its digit of an action. -/
theorem attribute?_decode_of_getElem? (hnodup : s.free.Nodup) {i : Nat} {key : String}
    (hi : s.free[i]? = some key) :
    (s.decode g action).attribute? key =
      (g.attribute? key).map (·.commit (action / 10 ^ i % 10)) := by
  rw [decode_eq]
  refine attribute?_commitAll_of_mem ?_ ?_ g
  · rw [map_fst_zip_levels]
    exact hnodup
  · have hlt : i < s.free.length := (List.getElem?_eq_some_iff.mp hi).1
    refine List.mem_of_getElem? (i := i) ?_
    rw [List.getElem?_zip_eq_some]
    exact ⟨hi, getElem?_digits hlt action⟩

theorem attribute?_decode_of_notMem {key : String} (h : key ∉ s.free) :
    (s.decode g action).attribute? key = g.attribute? key := by
  rw [decode_eq]
  refine attribute?_commitAll_of_notMem ?_ g
  rwa [map_fst_zip_levels]

theorem snapshot_decode (s : ActionSpace) (g : Grammar α) (action : Nat) :
    g.Snapshot (s.decode g action) :=
  snapshot_commitAll g _

/-- Once the choices of a rule are fixed none is left. -/
theorem ofShape_decode {name : String} {rule : Rule α} (hrule : g.rule? name = some rule)
    (hspace : ofShape g name = some s) : ofShape (s.decode g action) name = some ⟨[]⟩ := by
  rw [ofShape, hrule, Option.map_some, Option.some.injEq] at hspace
  have hnone : rule.namedAttributes.filter (s.decode g action).isFree = [] := by
    rw [List.filter_eq_nil_iff]
    intro key hkey hopen
    by_cases hmem : key ∈ s.free
    · obtain ⟨i, hi⟩ := List.mem_iff_getElem?.mp hmem
      have hnodup : s.free.Nodup := hspace ▸ nodup_distinct _
      obtain ⟨a, ha, hfree⟩ := Grammar.isFree_iff.mp hopen
      rw [attribute?_decode_of_getElem? hnodup hi, Option.map_eq_some_iff] at ha
      obtain ⟨b, _, rfl⟩ := ha
      simp [Attribute.isFree, Attribute.commit] at hfree
    · -- an attribute that the action does not fix was not open before either
      have hbefore : g.isFree key = true := by
        rw [Grammar.isFree, attribute?_decode_of_notMem hmem] at hopen
        exact hopen
      refine hmem ?_
      rw [← hspace, mem_distinct, List.mem_filter]
      exact ⟨hkey, hbefore⟩
  rw [ofShape, (snapshot_decode s g action).rule?_eq, hrule, Option.map_some, hnone]
  rfl

/-- In a valid grammar, however its attributes have been set since: the choices of a rule are the
open attributes that its parameters name, each once, in the order in which they are first named;
there are `k ≤ 19` of them, and `10 ^ k` actions. The digits of an action are one level for each
choice, any such levels are the digits of one action, and no step from levels to an action exceeds
a word. Deciding by an action gives each choice the value of its digit and fixes it, leaves all
else as it was, and leaves the rule a single action. -/
theorem actions_eq_levels {name : String} {rule : Rule α} (hvalid : g.validate = .ok ())
    (hsnapshot : g.Snapshot g') (hrule : g'.rule? name = some rule) :
    ∃ s, ofShape g' name = some s ∧ s.free.Nodup ∧
      (∀ key, key ∈ s.free ↔ key ∈ rule.namedAttributes ∧ g'.isFree key = true) ∧
      s.free.Pairwise
        (fun a b => rule.namedAttributes.idxOf a < rule.namedAttributes.idxOf b) ∧
      s.free.length ≤ 19 ∧ s.size = 10 ^ s.free.length ∧
      (∀ action < s.size, (s.levels action).length = s.free.length ∧
        (∀ level ∈ s.levels action, level < 10) ∧ encode (s.levels action) = action) ∧
      (∀ levels : List Nat, levels.length = s.free.length → (∀ level ∈ levels, level < 10) →
        encode levels < s.size ∧ s.levels (encode levels) = levels ∧
        ∀ level rest, level :: rest <:+ levels → encode rest * 10 + min level 9 ≤ limit) ∧
      ∀ action, (s.decode g' action).rules = g'.rules ∧
        (∀ i key, s.free[i]? = some key → (s.levels action)[i]? = some (action / 10 ^ i % 10) ∧
          ∃ a, g'.attribute? key = some a ∧ (s.decode g' action).attribute? key =
            some { a with value := a.levelValue (action / 10 ^ i % 10), fixed := true }) ∧
        (∀ key, key ∉ s.free → (s.decode g' action).attribute? key = g'.attribute? key) ∧
        ∃ after, ofShape (s.decode g' action) name = some after ∧ after.size = 1 := by
  let s : ActionSpace := ⟨distinct (rule.namedAttributes.filter g'.isFree)⟩
  have hspace : ofShape g' name = some s := by
    rw [ofShape, hrule, Option.map_some]
  have hnodup : s.free.Nodup := nodup_distinct _
  have hmem (key : String) : key ∈ s.free ↔ key ∈ rule.namedAttributes ∧ g'.isFree key = true := by
    rw [mem_distinct, List.mem_filter]
  have hcount : s.free.length ≤ maxFree :=
    Grammar.length_distinct_isFree_le hvalid hsnapshot hrule
  have hsize := size_eq_pow hcount
  refine ⟨s, hspace, hnodup, hmem, pairwise_idxOf_distinct _ _, hcount, hsize, ?_, ?_, ?_⟩
  · intro action haction
    rw [hsize] at haction
    exact ⟨length_digits _ _, fun level hlevel => lt_ten_of_mem_digits hlevel,
      encode_digits haction⟩
  · intro levels hlength hlevels
    have hdigits := digits_encode hlevels
    have hlt := encode_lt levels
    rw [hlength] at hdigits hlt
    rw [hsize]
    exact ⟨hlt, hdigits, fun level rest hsuffix =>
      encode_step_le_limit (hlength ▸ hcount) hsuffix⟩
  · intro action
    refine ⟨(snapshot_decode s g' action).rules, ?_, ?_, _, ofShape_decode hrule hspace, rfl⟩
    · intro i key hi
      obtain ⟨hlt, rfl⟩ := List.getElem?_eq_some_iff.mp hi
      obtain ⟨a, ha, _⟩ := Grammar.isFree_iff.mp ((hmem _).mp (List.getElem_mem hlt)).2
      refine ⟨getElem?_digits hlt action, a, ha, ?_⟩
      rw [attribute?_decode_of_getElem? hnodup hi, ha]
      rfl
    · intro key hkey
      exact attribute?_decode_of_notMem hkey

/-- A house whose width is named twice and whose eaves cannot be chosen. -/
def house : Grammar Float32 where
  attributes := ⟨[("eaves", .constant "eaves" 0.25), ("height", .choice "height" 1.0 10.0),
    ("width", .choice "width" 2.0 11.0)], by decide⟩
  rules := ⟨[("Start", ⟨"Start", [
    .resize ⟨⟨"width", .attribute "width"⟩, ⟨"width", .attribute "width"⟩,
      ⟨"eaves", .attribute "eaves"⟩⟩,
    .extrude ⟨"height", .attribute "height"⟩]⟩)], by decide⟩

/-- The house has a hundred actions: a level for its width and one for its height. -/
theorem actions_eq_levels_house : house.validate = .ok () ∧ ∃ s, ofShape house "Start" = some s ∧
    s.free = ["width", "height"] ∧ s.size = 100 ∧ encode (s.levels 37) = 37 ∧
    (s.decode house 37).attributes.find? "width" =
      some { Attribute.choice "width" 2.0 11.0 with
        value := (Attribute.choice "width" 2.0 11.0).levelValue 7, fixed := true } := by
  have hvalid : house.validate = .ok () := rfl
  have hrule : house.rule? "Start" = some _ := rfl
  obtain ⟨s, hspace, _, _, _, _, hsize, hlevels, _, hdecode⟩ :=
    actions_eq_levels hvalid (.refl house) hrule
  have hfree : s.free = ["width", "height"] := by
    have hcomputed : ofShape house "Start" = some ⟨["width", "height"]⟩ := rfl
    rw [hspace, Option.some.injEq] at hcomputed
    rw [hcomputed]
  rw [hfree] at hsize
  obtain ⟨_, a, ha, hfixed⟩ := (hdecode 37).2.1 0 "width" (by rw [hfree]; rfl)
  cases ha
  exact ⟨hvalid, s, hspace, hfree, hsize, (hlevels 37 (by rw [hsize]; decide)).2.2, hfixed⟩

end ActionSpace

end ShapeGrammar
