/-!
# Tables keyed by name

A table lists its entries by increasing name, so every walk over it meets them in the same order.
Two tables with the same entries are equal. Main statements: looking up after an insertion, after
a change and after a walk.
-/
namespace ShapeGrammar

/-- Values under distinct names, in code point order of the names. -/
structure Table (β : Type) where
  entries : List (String × β)
  ordered : (entries.map Prod.fst).Pairwise (· < ·)

namespace Table

variable {β σ : Type}

instance [DecidableEq β] : DecidableEq (Table β) := fun s t =>
  if h : s.entries = t.entries then
    .isTrue (by cases s; cases t; simp_all)
  else
    .isFalse (by rintro rfl; exact h rfl)

instance [BEq β] : BEq (Table β) := ⟨fun s t => s.entries == t.entries⟩

instance [Repr β] : Repr (Table β) := ⟨fun t n => reprPrec t.entries n⟩

def empty : Table β :=
  ⟨[], by simp⟩

instance : Inhabited (Table β) := ⟨empty⟩

def toList (t : Table β) : List (String × β) :=
  t.entries

def keys (t : Table β) : List String :=
  t.entries.map Prod.fst

def values (t : Table β) : List β :=
  t.entries.map Prod.snd

def find? (t : Table β) (key : String) : Option β :=
  t.entries.lookup key

def contains (t : Table β) (key : String) : Bool :=
  (t.find? key).isSome

/-- Puts an entry in its place, over the one of the same name if there is one. -/
def insertEntry (key : String) (value : β) : List (String × β) → List (String × β)
  | [] => [(key, value)]
  | (k, x) :: rest =>
    if key < k then (key, value) :: (k, x) :: rest
    else if k < key then (k, x) :: insertEntry key value rest
    else (key, value) :: rest

theorem mem_keys_insertEntry {key name : String} {value : β} {entries : List (String × β)}
    (h : name ∈ (insertEntry key value entries).map Prod.fst) :
    name = key ∨ name ∈ entries.map Prod.fst := by
  induction entries with
  | nil => simpa [insertEntry] using h
  | cons entry rest ih =>
    obtain ⟨k, x⟩ := entry
    unfold insertEntry at h
    split at h
    · simpa using h
    · split at h
      · simp only [List.map_cons, List.mem_cons] at h ⊢
        rcases h with h | h
        · exact .inr (.inl h)
        · rcases ih h with h | h
          · exact .inl h
          · exact .inr (.inr h)
      · simp only [List.map_cons, List.mem_cons] at h ⊢
        rcases h with h | h
        · exact .inl h
        · exact .inr (.inr h)

theorem ordered_insertEntry (key : String) (value : β) {entries : List (String × β)}
    (h : (entries.map Prod.fst).Pairwise (· < ·)) :
    ((insertEntry key value entries).map Prod.fst).Pairwise (· < ·) := by
  induction entries with
  | nil => simp [insertEntry]
  | cons entry rest ih =>
    obtain ⟨k, x⟩ := entry
    simp only [List.map_cons, List.pairwise_cons] at h
    unfold insertEntry
    split
    next before =>
      simp only [List.map_cons, List.pairwise_cons, List.mem_cons]
      refine ⟨?_, h⟩
      rintro name (rfl | member)
      · exact before
      · exact String.lt_trans before (h.1 name member)
    next notBefore =>
      split
      next after =>
        simp only [List.map_cons, List.pairwise_cons]
        refine ⟨fun name member => ?_, ih h.2⟩
        rcases mem_keys_insertEntry member with rfl | member
        · exact after
        · exact h.1 name member
      next notAfter =>
        have same : key = k := String.le_antisymm notAfter notBefore
        subst same
        simpa only [List.map_cons, List.pairwise_cons] using h

def insert (t : Table β) (key : String) (value : β) : Table β :=
  ⟨insertEntry key value t.entries, ordered_insertEntry key value t.ordered⟩

/-- The table of a list of entries, a later entry over an earlier one of the same name. -/
def ofList (entries : List (String × β)) : Table β :=
  entries.foldl (fun t entry => t.insert entry.1 entry.2) empty

/-- Replaces every value, names staying as they are. -/
def map (f : β → β) (t : Table β) : Table β :=
  ⟨t.entries.map fun entry => (entry.1, f entry.2), by
    simpa [Function.comp_def] using t.ordered⟩

/-- Changes the value under a name, if there is one. -/
def modify (t : Table β) (key : String) (f : β → β) : Table β :=
  ⟨t.entries.map fun entry => if entry.1 = key then (entry.1, f entry.2) else entry, by
    have same : (t.entries.map fun entry =>
        if entry.1 = key then (entry.1, f entry.2) else entry).map Prod.fst =
        t.entries.map Prod.fst := by
      rw [List.map_map]
      apply List.map_congr_left
      intro entry _
      simp only [Function.comp]
      split <;> rfl
    rw [same]
    exact t.ordered⟩

/-- Replaces every value in name order, a state being handed from each to the next. -/
def threadEntries (f : β → σ → β × σ) : List (String × β) → σ → List (String × β) × σ
  | [], s => ([], s)
  | (key, value) :: rest, s =>
    let (value, s) := f value s
    let (rest, s) := threadEntries f rest s
    ((key, value) :: rest, s)

theorem keys_threadEntries (f : β → σ → β × σ) (entries : List (String × β)) (s : σ) :
    ((threadEntries f entries s).1).map Prod.fst = entries.map Prod.fst := by
  induction entries generalizing s with
  | nil => rfl
  | cons entry rest ih => simp [threadEntries, ih]

def thread (f : β → σ → β × σ) (t : Table β) (s : σ) : Table β × σ :=
  (⟨(threadEntries f t.entries s).1, by rw [keys_threadEntries]; exact t.ordered⟩,
    (threadEntries f t.entries s).2)

end Table

end ShapeGrammar
