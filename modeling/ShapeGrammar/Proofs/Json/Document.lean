import Mathlib.Data.List.DropRight
import ShapeGrammar.Proofs.Json.Leaf

/-!
# Documents are read back

A document written with one member a line is read as that document, if all its texts are texts. The
reader takes at least one character for each call, so that the length of what is written bounds the
calls; blanks before a value make no difference to it. Main statement: `read?_pretty`.
-/
namespace ShapeGrammar

namespace Json

/-- Whether every text and every key in a document is one. -/
def isClean : Json → Bool
  | .garbled => false
  | .array items => cleanItems items
  | .object members => cleanMembers members
  | _ => true
where
  cleanItems : List Json → Bool
    | [] => true
    | item :: rest => isClean item && cleanItems rest
  cleanMembers : List (String × Json) → Bool
    | [] => true
    | (_, item) :: rest => isClean item && cleanMembers rest

theorem cleanItems_map {β : Type} {write : β → Json} (h : ∀ x, (write x).isClean = true)
    (xs : List β) : isClean.cleanItems (xs.map write) = true := by
  induction xs with
  | nil => rfl
  | cons x xs ih => rw [List.map_cons, isClean.cleanItems, h x, ih, Bool.and_self]

theorem cleanMembers_map {β : Type} {write : β → Json} (h : ∀ x, (write x).isClean = true)
    (entries : List (String × β)) :
    isClean.cleanMembers (entries.map fun (key, x) => (key, write x)) = true := by
  induction entries with
  | nil => rfl
  | cons entry entries ih => rw [List.map_cons, isClean.cleanMembers, h entry.2, ih, Bool.and_self]

/-! ## Blanks -/

theorem skipBlanks_cons {c : Char} (hc : isBlank c = false) (cs : List Char) :
    skipBlanks (c :: cs) = c :: cs := by
  simp [skipBlanks, hc]

theorem skipBlanks_newline (level : Nat) (cs : List Char) :
    skipBlanks (newline level ++ cs) = skipBlanks cs := by
  have hblanks : ∀ c ∈ newline level, isBlank c = true := by
    intro c hc
    rcases List.mem_cons.mp hc with rfl | hc
    · decide
    · rw [List.eq_of_mem_replicate hc]
      decide
  rw [skipBlanks, List.dropWhile_append_of_pos hblanks, skipBlanks]

theorem skipBlanks_skipBlanks (cs : List Char) : skipBlanks (skipBlanks cs) = skipBlanks cs :=
  List.dropWhile_idempotent isBlank cs

theorem value_congr {cs ds : List Char} (h : skipBlanks cs = skipBlanks ds) (fuel : Nat) :
    value fuel cs = value fuel ds := by
  cases fuel with
  | zero => rfl
  | succ fuel => rw [value, value, h]

theorem items_congr {cs ds : List Char} (h : skipBlanks cs = skipBlanks ds) (fuel : Nat)
    (done : List Json) : items fuel done cs = items fuel done ds := by
  cases fuel with
  | zero => rfl
  | succ fuel => rw [items, items, value_congr h]

theorem members_congr {cs ds : List Char} (h : skipBlanks cs = skipBlanks ds) (fuel : Nat)
    (sound : Bool) (done : List (String × Json)) :
    members fuel sound done cs = members fuel sound done ds := by
  cases fuel with
  | zero => rfl
  | succ fuel => rw [members, members, h]

theorem value_newline (fuel level : Nat) (cs : List Char) :
    value fuel (newline level ++ cs) = value fuel cs :=
  value_congr (skipBlanks_newline level cs) fuel

/-! ## Values without other values in them -/

theorem numberEnds_nil : NumberEnds [] :=
  ⟨by simp [DigitsEnd], by simp, by simp, by simp⟩

theorem numberEnds_cons {c : Char} (hdigit : c.isDigit = false) (hpoint : c ≠ '.')
    (hlower : c ≠ 'e') (hupper : c ≠ 'E') (rest : List Char) : NumberEnds (c :: rest) :=
  ⟨digitsEnd_cons hdigit rest, by simp [hpoint], by simp [hlower], by simp [hupper]⟩

theorem numberEnds_comma (rest : List Char) : NumberEnds (',' :: rest) :=
  numberEnds_cons (by decide) (by decide) (by decide) (by decide) rest

theorem numberEnds_newline (level : Nat) (rest : List Char) : NumberEnds (newline level ++ rest) :=
  numberEnds_cons (by decide) (by decide) (by decide) (by decide) _

theorem isBlank_of_isDigit {c : Char} (hc : c.isDigit = true) : isBlank c = false := by
  rw [Bool.eq_false_iff]
  intro hblank
  simp only [isBlank, Bool.or_eq_true, decide_eq_true_eq] at hblank
  rcases hblank with ((rfl | rfl) | rfl) | rfl <;> exact absurd hc (by decide)

theorem value_digit {c : Char} (hc : c.isDigit = true) (fuel : Nat) (cs : List Char) :
    value (fuel + 1) (c :: cs) = magnitude false (c :: cs) := by
  rw [value, skipBlanks_cons (isBlank_of_isDigit hc)]
  split
  case h_8 => rfl
  all_goals
    rename_i heq
    rw [List.cons.injEq] at heq
    rw [heq.1] at hc
    exact absurd hc (by decide)

theorem value_render (n : Numeral) (fuel : Nat) {rest : List Char} (hrest : NumberEnds rest) :
    value (fuel + 1) (n.render ++ rest) = some (.number n, rest) := by
  have hmagnitude := magnitude_render n hrest
  rw [render_eq, List.append_assoc, List.append_assoc, List.append_assoc]
  cases hsign : n.negative with
  | true =>
    rw [hsign] at hmagnitude
    exact hmagnitude
  | false =>
    rw [hsign] at hmagnitude
    obtain ⟨c, digits, hd, hc⟩ := toDigits_eq_cons n.whole
    rw [hd] at hmagnitude ⊢
    exact (value_digit hc fuel _).trans hmagnitude

theorem value_quote {fuel : Nat} {s : String} (hfuel : s.length < fuel) (rest : List Char) :
    value (fuel + 1) (quote s ++ rest) = some (.text s, rest) := by
  have htail := stringTail_quote hfuel rest
  simp only [quote, List.cons_append, List.append_assoc, List.nil_append]
  rw [value, skipBlanks_cons (by decide)]
  simp only [htail]

/-! ## All values -/

/-- Whether a text starts with something that is no blank and closes no container. -/
def Opens (cs : List Char) : Prop :=
  ∃ c rest, cs = c :: rest ∧ isBlank c = false ∧ c ≠ ']' ∧ c ≠ '\x7d'

theorem Opens.append {cs : List Char} (h : Opens cs) (tail : List Char) : Opens (cs ++ tail) := by
  obtain ⟨c, rest, rfl, hc⟩ := h
  exact ⟨c, rest ++ tail, rfl, hc⟩

theorem Opens.skipBlanks_eq {cs : List Char} (h : Opens cs) : skipBlanks cs = cs := by
  obtain ⟨c, rest, rfl, hblank, _⟩ := h
  exact skipBlanks_cons hblank rest

theorem opens_cons {c : Char} (hblank : isBlank c = false) (hitems : c ≠ ']')
    (hmembers : c ≠ '\x7d') (rest : List Char) : Opens (c :: rest) :=
  ⟨c, rest, rfl, hblank, hitems, hmembers⟩

theorem opens_render (n : Numeral) : Opens n.render := by
  rw [render_eq]
  cases n.negative with
  | true => exact opens_cons (by decide) (by decide) (by decide) _
  | false =>
    obtain ⟨c, digits, hd, hc⟩ := toDigits_eq_cons n.whole
    have hne {d : Char} (hd : d.isDigit = false) : c ≠ d := by
      rintro rfl
      rw [hc] at hd
      cases hd
    rw [hd]
    exact opens_cons (isBlank_of_isDigit hc) (hne (by decide)) (hne (by decide)) _

theorem opens_block (level : Nat) (j : Json) : Opens (block level j) := by
  match j with
  | .array [] | .array (_ :: _) | .object [] | .object (_ :: _) | .text _ | .null | .garbled
  | .bool true | .bool false => exact opens_cons (by decide) (by decide) (by decide) _
  | .number n => exact opens_render n

/-- Items after an opening bracket, where there are any. -/
theorem value_array {fuel : Nat} {cs : List Char} (h : Opens (skipBlanks cs)) :
    value (fuel + 1) ('[' :: cs) = items fuel [] cs := by
  rw [value, skipBlanks_cons (by decide), ← items_congr (skipBlanks_skipBlanks cs)]
  obtain ⟨c, rest, hcs, _, hclose, _⟩ := h
  simp only [hcs]
  split
  next heq => exact absurd (List.cons.inj heq).1 hclose
  · rfl

/-- Members after an opening brace, where there are any. -/
theorem value_object {fuel : Nat} {cs : List Char} (h : Opens (skipBlanks cs)) :
    value (fuel + 1) ('\x7b' :: cs) = members fuel true [] cs := by
  rw [value, skipBlanks_cons (by decide), ← members_congr (skipBlanks_skipBlanks cs)]
  obtain ⟨c, rest, hcs, _, _, hclose⟩ := h
  simp only [hcs]
  split
  next heq => exact absurd (List.cons.inj heq).1 hclose
  · rfl

theorem opens_blockItems (level : Nat) (item : Json) (items : List Json) (tail : List Char) :
    Opens (skipBlanks (blockItems level (item :: items) ++ tail)) := by
  have h := opens_block level item
  cases items with
  | nil =>
    rw [blockItems, List.append_assoc, skipBlanks_newline, (h.append _).skipBlanks_eq]
    exact h.append _
  | cons next items =>
    rw [blockItems, List.append_assoc, List.append_assoc, skipBlanks_newline,
      (h.append _).skipBlanks_eq]
    · exact h.append _
    · simp

theorem opens_blockMembers (level : Nat) (member : String × Json)
    (members : List (String × Json)) (tail : List Char) :
    Opens (skipBlanks (blockMembers level (member :: members) ++ tail)) := by
  have h (rest : List Char) : Opens (quote member.1 ++ rest) :=
    opens_cons (by decide) (by decide) (by decide) _
  cases members with
  | nil =>
    rw [blockMembers, List.append_assoc, List.append_assoc, skipBlanks_newline,
      (h _).skipBlanks_eq]
    exact h _
  | cons next members =>
    rw [blockMembers, List.append_assoc, List.append_assoc, skipBlanks_newline,
      (h _).skipBlanks_eq]
    · exact h _
    · simp

theorem block_pos (level : Nat) (j : Json) : 0 < (block level j).length := by
  obtain ⟨c, rest, h, _⟩ := opens_block level j
  rw [h]
  exact Nat.succ_pos _

theorem length_lt_quote (s : String) : s.length + 1 < (quote s).length := by
  have h := length_le_flatMap_escape s.toList
  rw [String.length_toList] at h
  simp only [quote, List.length_cons, List.length_append, List.length_nil]
  omega

/-- What follows the last of several items. -/
theorem items_last {fuel : Nat} {item : Json} {cs : List Char} (level : Nat) (done : List Json)
    (rest : List Char) (h : value fuel cs = some (item, newline level ++ ']' :: rest)) :
    items (fuel + 1) done cs = some (.array (done.reverse ++ [item]), rest) := by
  rw [items, h]
  simp only [skipBlanks_newline, skipBlanks_cons (show isBlank ']' = false by decide),
    List.reverse_cons]

theorem items_next {fuel : Nat} {item : Json} {cs rest : List Char} (done : List Json)
    (h : value fuel cs = some (item, ',' :: rest)) :
    items (fuel + 1) done cs = items fuel (item :: done) rest := by
  rw [items, h]
  simp only [skipBlanks_cons (show isBlank ',' = false by decide)]

/-- The key of a member and what stands before its value. -/
theorem members_key {fuel : Nat} {key : String} (hfuel : key.length < fuel) (level : Nat)
    (done : List (String × Json)) (cs : List Char) :
    members (fuel + 1) true done (newline level ++ (quote key ++ (':' :: ' ' :: cs))) =
      match value fuel cs with
      | none => none
      | some (item, rest) =>
        match skipBlanks rest with
        | ',' :: rest => members fuel true ((key, item) :: done) rest
        | '\x7d' :: rest => some (.object ((key, item) :: done).reverse, rest)
        | _ => none := by
  have htail := stringTail_quote hfuel (':' :: ' ' :: cs)
  have hvalue : value fuel (' ' :: cs) = value fuel cs := by
    apply value_congr
    simp [skipBlanks, isBlank]
  rw [members, skipBlanks_newline]
  simp only [quote, List.cons_append, List.append_assoc, List.nil_append]
  rw [skipBlanks_cons (by decide)]
  simp only [htail, skipBlanks_cons (show isBlank ':' = false by decide),
    Option.isSome_some, Option.getD_some, Bool.true_and, if_true]
  exact hvalue ▸ rfl

/-- A value takes at least one call. -/
theorem exists_fuel {level fuel : Nat} {j : Json} (hfuel : (block level j).length ≤ fuel) :
    ∃ less, fuel = less + 1 :=
  Nat.exists_eq_succ_of_ne_zero (Nat.ne_of_gt (Nat.lt_of_lt_of_le (block_pos level j) hfuel))

theorem value_leaf {j : Json} {level fuel : Nat} {rest : List Char} (hclean : j.isClean = true)
    (hitems : ∀ items, j ≠ .array items) (hmembers : ∀ members, j ≠ .object members)
    (hfuel : (block level j).length ≤ fuel) (hrest : NumberEnds rest) :
    value fuel (block level j ++ rest) = some (j, rest) := by
  obtain ⟨fuel, rfl⟩ := exists_fuel hfuel
  cases j with
  | null => rfl
  | bool b => cases b <;> rfl
  | number n => exact value_render n fuel hrest
  | text s =>
    have hlength := length_lt_quote s
    simp only [block, leaf] at hfuel
    exact value_quote (by omega) rest
  | garbled => cases hclean
  | array items => exact absurd rfl (hitems items)
  | object members => exact absurd rfl (hmembers members)

mutual

/-- A value is read back, if nothing that follows could go on with it. -/
theorem value_block : ∀ (j : Json) {level fuel : Nat} {rest : List Char}, j.isClean = true →
    (block level j).length ≤ fuel → NumberEnds rest →
      value fuel (block level j ++ rest) = some (j, rest)
  | .array [], _, _, _, _, hfuel, _ => by
    obtain ⟨fuel, rfl⟩ := exists_fuel hfuel
    rfl
  | .object [], _, _, _, _, hfuel, _ => by
    obtain ⟨fuel, rfl⟩ := exists_fuel hfuel
    rfl
  | .array (item :: items), level, _, rest, hclean, hfuel, _ => by
    obtain ⟨fuel, rfl⟩ := exists_fuel hfuel
    have hblock : block level (.array (item :: items)) =
        '[' :: (blockItems (level + 1) (item :: items) ++ (newline level ++ [']'])) := by
      simp [block]
    rw [hblock, List.length_cons, List.length_append] at hfuel
    rw [hblock, List.cons_append, List.append_assoc, List.append_assoc,
      value_array (opens_blockItems _ _ _ _)]
    exact items_block item items [] rest hclean (by omega)
  | .object ((key, item) :: members), level, _, rest, hclean, hfuel, _ => by
    obtain ⟨fuel, rfl⟩ := exists_fuel hfuel
    have hblock : block level (.object ((key, item) :: members)) =
        '\x7b' :: (blockMembers (level + 1) ((key, item) :: members) ++
          (newline level ++ ['\x7d'])) := by
      simp [block]
    rw [hblock, List.length_cons, List.length_append] at hfuel
    rw [hblock, List.cons_append, List.append_assoc, List.append_assoc,
      value_object (opens_blockMembers _ _ _ _)]
    exact members_block key item members [] rest hclean (by omega)
  | .null, _, _, _, hclean, hfuel, hrest => value_leaf hclean (by simp) (by simp) hfuel hrest
  | .bool _, _, _, _, hclean, hfuel, hrest => value_leaf hclean (by simp) (by simp) hfuel hrest
  | .number _, _, _, _, hclean, hfuel, hrest => value_leaf hclean (by simp) (by simp) hfuel hrest
  | .text _, _, _, _, hclean, hfuel, hrest => value_leaf hclean (by simp) (by simp) hfuel hrest
termination_by j => sizeOf j
decreasing_by
  · simp only [array.sizeOf_spec, List.cons.sizeOf_spec]
    omega
  · simp only [object.sizeOf_spec, List.cons.sizeOf_spec, Prod.mk.sizeOf_spec]
    omega

/-- The items of an array are read back behind those read so far. -/
theorem items_block (item : Json) : ∀ (items : List Json) {level fuel outer : Nat}
    (done : List Json) (rest : List Char), isClean.cleanItems (item :: items) = true →
    (blockItems level (item :: items)).length ≤ fuel →
      Json.items fuel done (blockItems level (item :: items) ++ (newline outer ++ ']' :: rest)) =
        some (.array (done.reverse ++ item :: items), rest)
  | [], level, fuel, outer, done, rest, hclean, hfuel => by
    obtain ⟨hitem, _⟩ := Bool.and_eq_true_iff.mp hclean
    rw [blockItems, List.length_append, newline, List.length_cons] at hfuel
    obtain ⟨fuel, rfl⟩ := Nat.exists_eq_succ_of_ne_zero (show fuel ≠ 0 by omega)
    rw [blockItems, List.append_assoc]
    apply items_last
    rw [value_newline]
    exact value_block item hitem (by omega) (numberEnds_newline outer _)
  | next :: items, level, fuel, outer, done, rest, hclean, hfuel => by
    obtain ⟨hitem, hitems⟩ := Bool.and_eq_true_iff.mp hclean
    have hblock : blockItems level (item :: next :: items) =
        newline level ++ (block level item ++ (',' :: blockItems level (next :: items))) := by
      simp [blockItems]
    rw [hblock, List.length_append, newline, List.length_cons, List.length_append,
      List.length_cons] at hfuel
    obtain ⟨fuel, rfl⟩ := Nat.exists_eq_succ_of_ne_zero (show fuel ≠ 0 by omega)
    rw [hblock, List.append_assoc, List.append_assoc, List.cons_append,
      items_next done ((value_newline fuel level _).trans
        (value_block item hitem (by omega) (numberEnds_comma _))),
      items_block next items (item :: done) rest hitems (by omega)]
    simp
termination_by items => 1 + sizeOf item + sizeOf items
decreasing_by
  · omega
  · omega
  · simp only [List.cons.sizeOf_spec]
    omega

/-- The members of an object are read back behind those read so far. -/
theorem members_block (key : String) (item : Json) : ∀ (members : List (String × Json))
    {level fuel outer : Nat} (done : List (String × Json)) (rest : List Char),
    isClean.cleanMembers ((key, item) :: members) = true →
    (blockMembers level ((key, item) :: members)).length ≤ fuel →
      Json.members fuel true done
        (blockMembers level ((key, item) :: members) ++ (newline outer ++ '\x7d' :: rest)) =
        some (.object (done.reverse ++ (key, item) :: members), rest)
  | [], level, fuel, outer, done, rest, hclean, hfuel => by
    obtain ⟨hitem, _⟩ := Bool.and_eq_true_iff.mp hclean
    have hkey := length_lt_quote key
    rw [blockMembers, List.length_append, newline, List.length_cons, List.length_append,
      List.length_cons, List.length_cons] at hfuel
    obtain ⟨fuel, rfl⟩ := Nat.exists_eq_succ_of_ne_zero (show fuel ≠ 0 by omega)
    rw [blockMembers, List.append_assoc, List.append_assoc, List.cons_append, List.cons_append,
      members_key (by omega), value_block item hitem (by omega) (numberEnds_newline outer _)]
    simp only [skipBlanks_newline, skipBlanks_cons (show isBlank '\x7d' = false by decide),
      List.reverse_cons]
  | (nextKey, next) :: members, level, fuel, outer, done, rest, hclean, hfuel => by
    obtain ⟨hitem, hmembers⟩ := Bool.and_eq_true_iff.mp hclean
    have hkey := length_lt_quote key
    have hblock : blockMembers level ((key, item) :: (nextKey, next) :: members) =
        newline level ++ (quote key ++ (':' :: ' ' :: (block level item ++
          (',' :: blockMembers level ((nextKey, next) :: members))))) := by
      simp [blockMembers]
    rw [hblock, List.length_append, newline, List.length_cons, List.length_append,
      List.length_cons, List.length_cons, List.length_append, List.length_cons] at hfuel
    obtain ⟨fuel, rfl⟩ := Nat.exists_eq_succ_of_ne_zero (show fuel ≠ 0 by omega)
    rw [hblock, List.append_assoc, List.append_assoc, List.cons_append, List.cons_append,
      List.append_assoc, List.cons_append, members_key (by omega),
      value_block item hitem (by omega) (numberEnds_comma _)]
    simp only [skipBlanks_cons (show isBlank ',' = false by decide)]
    rw [members_block nextKey next members ((key, item) :: done) rest hmembers (by omega)]
    simp
termination_by members => 1 + sizeOf item + sizeOf members
decreasing_by
  · omega
  · omega
  · simp only [List.cons.sizeOf_spec, Prod.mk.sizeOf_spec]
    omega

end

/-- A document is read back from its text. -/
theorem read?_pretty {j : Json} (hclean : j.isClean = true) : read? j.pretty = some j := by
  have hvalue : value (2 * (block 0 j).length + 2) (block 0 j) = some (j, []) := by
    have h : value (2 * (block 0 j).length + 2) (block 0 j ++ []) = some (j, []) :=
      value_block j hclean (by omega) numberEnds_nil
    rwa [List.append_nil] at h
  simp [read?, pretty, hvalue, skipBlanks]

end Json

end ShapeGrammar
