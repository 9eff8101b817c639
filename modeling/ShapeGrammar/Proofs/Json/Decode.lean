import Mathlib.Data.List.Nodup
import ShapeGrammar.Json.Decode

/-!
# Records, lists and tables are read back

A record that was written with its fields in order is read as those fields. A list or a table is
read back exactly if each of its items is. Main statements: `record?_object`, `list?_map_eq`,
`table?_map_eq`.
-/
namespace ShapeGrammar

/-! ## Lists of readings -/

section Readings

variable {β γ : Type} {read : β → Option γ}

/-- What is read of each item of a list. -/
theorem mapM_cons_eq_some {x : β} {xs : List β} {ys : List γ} :
    (x :: xs).mapM read = some ys ↔
      ∃ y rest, read x = some y ∧ xs.mapM read = some rest ∧ y :: rest = ys := by
  simp [List.mapM_cons, Option.bind_eq_some_iff]

theorem mapM_map_eq_some (write : γ → β) (ys : List γ) :
    (ys.map write).mapM read = some ys ↔ ∀ y ∈ ys, read (write y) = some y := by
  induction ys with
  | nil => simp
  | cons y ys ih =>
    rw [List.map_cons, mapM_cons_eq_some, List.forall_mem_cons, ← ih]
    constructor
    · rintro ⟨z, rest, hz, hrest, heq⟩
      obtain ⟨rfl, rfl⟩ := List.cons.inj heq
      exact ⟨hz, hrest⟩
    · rintro ⟨hy, hys⟩
      exact ⟨y, ys, hy, hys, rfl⟩

/-- Every item that was read was read from one. -/
theorem exists_of_mem_mapM {xs : List β} {ys : List γ} (h : xs.mapM read = some ys) {y : γ}
    (hy : y ∈ ys) : ∃ x, read x = some y := by
  induction xs generalizing ys with
  | nil =>
    cases h
    cases hy
  | cons x xs ih =>
    obtain ⟨z, rest, hz, hrest, rfl⟩ := mapM_cons_eq_some.mp h
    rcases List.mem_cons.mp hy with rfl | hy
    · exact ⟨x, hz⟩
    · exact ih hrest hy

end Readings

/-! ## Tables -/

namespace Table

variable {β : Type}

theorem insertEntry_last {key : String} {value : β} {entries : List (String × β)}
    (h : ∀ name ∈ entries.map Prod.fst, name < key) :
    insertEntry key value entries = entries ++ [(key, value)] := by
  induction entries with
  | nil => rfl
  | cons entry rest ih =>
    obtain ⟨k, x⟩ := entry
    have hfirst : k < key := h k (by simp)
    rw [insertEntry, if_neg (String.lt_asymm hfirst), if_pos hfirst,
      ih fun name hname => h name (by simp [hname]), List.cons_append]

theorem foldl_insert_entries {rest : List (String × β)} (t : Table β)
    (h : ((t.entries ++ rest).map Prod.fst).Pairwise (· < ·)) :
    (rest.foldl (fun t entry => t.insert entry.1 entry.2) t).entries = t.entries ++ rest := by
  induction rest generalizing t with
  | nil => rw [List.foldl_nil, List.append_nil]
  | cons entry rest ih =>
    have hlast : (t.insert entry.1 entry.2).entries = t.entries ++ [entry] := by
      refine insertEntry_last fun name hname => ?_
      rw [List.map_append, List.pairwise_append] at h
      exact h.2.2 name hname entry.1 (by simp)
    rw [List.append_cons, ← hlast] at h
    rw [List.foldl_cons, ih _ h, hlast, ← List.append_cons]

/-- The table of entries that are in order has them. -/
theorem entries_ofList {entries : List (String × β)}
    (h : (entries.map Prod.fst).Pairwise (· < ·)) : (ofList entries).entries = entries :=
  foldl_insert_entries empty h

theorem mem_insertEntry {entry : String × β} {key : String} {value : β}
    {entries : List (String × β)} (h : entry ∈ insertEntry key value entries) :
    entry = (key, value) ∨ entry ∈ entries := by
  induction entries with
  | nil => exact .inl (List.mem_singleton.mp h)
  | cons first rest ih =>
    rw [insertEntry] at h
    split_ifs at h
    · exact List.mem_cons.mp h
    · rcases List.mem_cons.mp h with rfl | h
      · exact .inr List.mem_cons_self
      · exact (ih h).imp_right (List.mem_cons_of_mem _)
    · exact (List.mem_cons.mp h).imp_right (List.mem_cons_of_mem _)

/-- A table has no entries but those it is made of. -/
theorem mem_of_mem_ofList {entry : String × β} {entries : List (String × β)}
    (h : entry ∈ (ofList entries).entries) : entry ∈ entries := by
  suffices hall : ∀ t : Table β,
      entry ∈ (entries.foldl (fun t entry => t.insert entry.1 entry.2) t).entries →
        entry ∈ t.entries ∨ entry ∈ entries from
    (hall empty h).resolve_left (List.not_mem_nil)
  clear h
  induction entries with
  | nil => exact fun t h => .inl h
  | cons first rest ih =>
    intro t h
    rcases ih _ h with hinserted | hrest
    · rcases mem_insertEntry hinserted with rfl | hkept
      · exact .inr List.mem_cons_self
      · exact .inl hkept
    · exact .inr (List.mem_cons_of_mem _ hrest)

theorem ext_entries {s t : Table β} (h : s.entries = t.entries) : s = t := by
  cases s
  cases t
  cases h
  rfl

end Table

namespace Json

/-! ## Records -/

theorem occurrences_le_one (name : String) {fields : List (String × Json)}
    (h : (fields.map Prod.fst).Nodup) : occurrences name fields ≤ 1 := by
  have hcount : occurrences name fields = (fields.map Prod.fst).count name := by
    rw [occurrences, ← List.countP_eq_length_filter, List.count, List.countP_map]
    rfl
  rw [hcount]
  exact List.nodup_iff_count_le_one.mp h name

theorem lookup_fields {fields : List (String × Json)} (h : (fields.map Prod.fst).Nodup) :
    (fields.map Prod.fst).map (fun name => fields.lookup name) =
      fields.map fun field => some field.2 := by
  induction fields with
  | nil => rfl
  | cons field rest ih =>
    rw [List.map_cons, List.nodup_cons] at h
    have hrest : (rest.map Prod.fst).map (fun name => (field :: rest).lookup name) =
        (rest.map Prod.fst).map fun name => rest.lookup name := by
      refine List.map_congr_left fun name hname => ?_
      have hne : name ≠ field.1 := fun heq => h.1 (heq ▸ hname)
      rw [List.lookup_cons, beq_eq_false_iff_ne.mpr hne]
    rw [List.map_cons, List.map_cons, hrest, ih h.2, List.map_cons, List.lookup_cons_self]

/-- A record that was written as an object, all fields in order, is read as its fields. -/
theorem record?_object {fields : List (String × Json)} {names : List String}
    (hnames : fields.map Prod.fst = names) (hnodup : names.Nodup) :
    record? names (.object fields) = some ⟨false, fields.map fun field => some field.2⟩ := by
  subst hnames
  have honce : (fields.map Prod.fst).all (fun name => occurrences name fields ≤ 1) = true :=
    List.all_eq_true.mpr fun name _ => decide_eq_true (occurrences_le_one name hnodup)
  rw [record?, if_pos honce, lookup_fields hnodup]

/-- What is made of such a record is made of its fields. -/
theorem bind_record?_object {β : Type} {fields : List (String × Json)} {names : List String}
    (hnames : fields.map Prod.fst = names) (hnodup : names.Nodup) (make : Record → Option β) :
    (record? names (.object fields) >>= make) =
      make ⟨false, fields.map fun field => some field.2⟩ := by
  rw [record?_object hnames hnodup, Option.bind_eq_bind, Option.bind_some]

namespace Record

variable {β : Type} {r : Record} {i : ℕ} {read : Json → Option β} {x : β}

theorem exists_of_required (h : r.required i read = some x) : ∃ j, read j = some x := by
  obtain ⟨j, _, hj⟩ := Option.bind_eq_some_iff.mp h
  exact ⟨j, hj⟩

theorem exists_of_orElse {default : β} (h : r.orElse i read default = some x) :
    x = default ∨ ∃ j, read j = some x := by
  rw [orElse] at h
  split at h
  · exact .inl (Option.some.inj h).symm
  · exact .inr ⟨_, h⟩

end Record

/-! ## Lists and tables -/

theorem list?_map_eq {β : Type} {read : Json → Option β} (write : β → Json) (xs : List β) :
    list? read (.array (xs.map write)) = some xs ↔ ∀ x ∈ xs, read (write x) = some x :=
  mapM_map_eq_some write xs

theorem exists_of_mem_list? {β : Type} {read : Json → Option β} {j : Json} {xs : List β}
    (h : list? read j = some xs) {x : β} (hx : x ∈ xs) : ∃ item, read item = some x := by
  cases j with
  | array items => exact exists_of_mem_mapM h hx
  | _ => cases h

/-- What is read of the members of an object. -/
def readEntry {β : Type} (read : Json → Option β) (member : String × Json) : Option (String × β) :=
  (read member.2).map fun x => (member.1, x)

theorem table?_object {β : Type} (read : Json → Option β) (members : List (String × Json)) :
    table? read (.object members) = (members.mapM (readEntry read)).map Table.ofList := by
  have hentry : (fun member : String × Json => do return (member.1, ← read member.2)) =
      readEntry read := by
    funext member
    rw [readEntry]
    cases read member.2 <;> rfl
  rw [← hentry, Option.map_eq_bind]
  rfl

theorem keys_of_readEntry {β : Type} {read : Json → Option β} {members : List (String × Json)}
    {entries : List (String × β)} (h : members.mapM (readEntry read) = some entries) :
    entries.map Prod.fst = members.map Prod.fst := by
  induction members generalizing entries with
  | nil =>
    cases h
    rfl
  | cons member members ih =>
    obtain ⟨entry, rest, hentry, hrest, rfl⟩ := mapM_cons_eq_some.mp h
    obtain ⟨x, _, rfl⟩ := Option.map_eq_some_iff.mp hentry
    rw [List.map_cons, List.map_cons, ih hrest]

/-- A table is read back if each of its values is. -/
theorem table?_map_eq {β : Type} {read : Json → Option β} (write : β → Json) (t : Table β) :
    table? read (.object (t.entries.map fun (key, x) => (key, write x))) = some t ↔
      ∀ x ∈ t.values, read (write x) = some x := by
  have hkept : (t.entries.map fun entry => (entry.1, write entry.2)).mapM (readEntry read) =
      some t.entries ↔ ∀ x ∈ t.values, read (write x) = some x := by
    rw [mapM_map_eq_some, Table.values, List.forall_mem_map]
    refine forall₂_congr fun entry _ => ?_
    rw [readEntry, Option.map_eq_some_iff]
    constructor
    · rintro ⟨x, hx, heq⟩
      rw [hx, ← heq]
    · exact fun h => ⟨entry.2, h, rfl⟩
  rw [table?_object, ← hkept, Option.map_eq_some_iff]
  constructor
  · rintro ⟨entries, hentries, rfl⟩
    have hkeys := keys_of_readEntry hentries
    rw [List.map_map] at hkeys
    have hordered : (entries.map Prod.fst).Pairwise (· < ·) :=
      hkeys ▸ (Table.ofList entries).ordered
    rw [hentries, Table.entries_ofList hordered]
  · exact fun h => ⟨t.entries, h, Table.ext_entries (Table.entries_ofList t.ordered)⟩

theorem exists_of_mem_table? {β : Type} {read : Json → Option β} {j : Json} {t : Table β}
    (h : table? read j = some t) {x : β} (hx : x ∈ t.values) : ∃ item, read item = some x := by
  cases j with
  | object members =>
    rw [table?_object, Option.map_eq_some_iff] at h
    obtain ⟨entries, hentries, rfl⟩ := h
    obtain ⟨entry, hentry, rfl⟩ := List.mem_map.mp hx
    obtain ⟨member, hmember⟩ := exists_of_mem_mapM hentries (Table.mem_of_mem_ofList hentry)
    obtain ⟨y, hy, rfl⟩ := Option.map_eq_some_iff.mp hmember
    exact ⟨member.2, hy⟩
  | _ => cases h

end Json

end ShapeGrammar
