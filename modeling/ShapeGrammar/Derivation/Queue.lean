/-!
# Queues

Values leave a queue in the order in which they came. Those that came last are kept last first, so
that neither adding nor taking walks along all of them. Main statements: what each operation does
to the list of the values that wait.
-/
namespace ShapeGrammar

/-- Values that wait for their turn: first those of `front` in order, then those of `back` from its
end. -/
structure Queue (α : Type) where
  front : List α
  back : List α
  deriving Repr

namespace Queue

variable {α : Type}

/-- The values that wait, in order. -/
def toList (q : Queue α) : List α :=
  q.front ++ q.back.reverse

def ofList (xs : List α) : Queue α :=
  ⟨xs, []⟩

/-- Lets values queue up. -/
def append (q : Queue α) (xs : List α) : Queue α :=
  { q with back := xs.reverse ++ q.back }

/-- Takes the value whose turn it is. -/
def pop? (q : Queue α) : Option (α × Queue α) :=
  match q.front with
  | x :: rest => some (x, ⟨rest, q.back⟩)
  | [] =>
    match q.back.reverse with
    | x :: rest => some (x, ofList rest)
    | [] => none

/-- The value whose turn it is. -/
def head? (q : Queue α) : Option α :=
  match q.front with
  | x :: _ => some x
  | [] => q.back.getLast?

def length (q : Queue α) : Nat :=
  q.front.length + q.back.length

def isEmpty (q : Queue α) : Bool :=
  q.front.isEmpty && q.back.isEmpty

@[simp] theorem toList_ofList (xs : List α) : (ofList xs).toList = xs := by
  simp [toList, ofList]

@[simp] theorem toList_append (q : Queue α) (xs : List α) :
    (q.append xs).toList = q.toList ++ xs := by
  simp [toList, append]

@[simp] theorem length_toList (q : Queue α) : q.toList.length = q.length := by
  simp [toList, length]

@[simp] theorem length_append (q : Queue α) (xs : List α) :
    (q.append xs).length = q.length + xs.length := by
  simp [← length_toList]

theorem toList_of_pop? {q r : Queue α} {x : α} (h : q.pop? = some (x, r)) :
    q.toList = x :: r.toList := by
  obtain ⟨front, back⟩ := q
  cases front with
  | cons y rest =>
    simp only [pop?, Option.some.injEq, Prod.mk.injEq] at h
    obtain ⟨rfl, rfl⟩ := h
    rfl
  | nil =>
    simp only [pop?] at h
    split at h
    next y rest e =>
      simp only [Option.some.injEq, Prod.mk.injEq] at h
      obtain ⟨rfl, rfl⟩ := h
      simp [toList, ofList, e]
    · cases h

theorem pop?_eq_none_iff {q : Queue α} : q.pop? = none ↔ q.toList = [] := by
  obtain ⟨front, back⟩ := q
  cases front with
  | cons y rest => simp [pop?, toList]
  | nil =>
    simp only [pop?, toList, List.nil_append]
    split <;> simp_all

end Queue

end ShapeGrammar
