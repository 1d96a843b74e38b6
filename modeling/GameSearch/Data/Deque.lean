/-!
# Double-ended queues

A queue that takes elements at both ends and gives them from the front, as a list for the front and
a reversed list for the back.  `Deque.toList` is the view that the other operations are described
by.
-/

namespace GameSearch

/-- A double-ended queue. -/
structure Deque (α : Type) where
  front : List α := []
  /-- The elements after those of `front`, the last one first. -/
  back : List α := []

namespace Deque

variable {α : Type}

instance : EmptyCollection (Deque α) := ⟨{}⟩

/-- The elements from the front. -/
def toList (q : Deque α) : List α := q.front ++ q.back.reverse

def size (q : Deque α) : Nat := q.front.length + q.back.length

def isEmpty (q : Deque α) : Bool := q.front.isEmpty && q.back.isEmpty

/-- The queue with one more element in front. -/
def pushFront (q : Deque α) (a : α) : Deque α := { q with front := a :: q.front }

/-- The queue with more elements in front. -/
def prepend (q : Deque α) (as : List α) : Deque α := { q with front := as ++ q.front }

/-- The queue with one more element at its end. -/
def pushBack (q : Deque α) (a : α) : Deque α := { q with back := a :: q.back }

/-- The first element and the rest of the queue. -/
def popFront? (q : Deque α) : Option (α × Deque α) :=
  match q.front with
  | a :: rest => some (a, { q with front := rest })
  | [] =>
    match q.back.reverse with
    | a :: rest => some (a, { front := rest, back := [] })
    | [] => none

@[simp] theorem toList_empty : (∅ : Deque α).toList = [] := rfl

@[simp] theorem length_toList (q : Deque α) : q.toList.length = q.size := by simp [toList, size]

@[simp] theorem toList_pushFront (q : Deque α) (a : α) :
    (q.pushFront a).toList = a :: q.toList := rfl

@[simp] theorem toList_prepend (q : Deque α) (as : List α) :
    (q.prepend as).toList = as ++ q.toList := by simp [prepend, toList]

@[simp] theorem toList_pushBack (q : Deque α) (a : α) :
    (q.pushBack a).toList = q.toList ++ [a] := by simp [pushBack, toList]

theorem popFront?_eq_none {q : Deque α} : q.popFront? = none ↔ q.toList = [] := by
  obtain ⟨front, back⟩ := q
  cases front with
  | cons a rest => simp [popFront?, toList]
  | nil =>
    simp only [popFront?, toList, List.nil_append]
    split <;> simp_all

theorem popFront?_eq_some {q r : Deque α} {a : α} (h : q.popFront? = some (a, r)) :
    q.toList = a :: r.toList := by
  obtain ⟨front, back⟩ := q
  cases front with
  | cons b rest =>
    simp only [popFront?, Option.some.injEq, Prod.mk.injEq] at h
    obtain ⟨rfl, rfl⟩ := h
    rfl
  | nil =>
    simp only [popFront?] at h
    split at h
    · rename_i heq
      simp only [Option.some.injEq, Prod.mk.injEq] at h
      obtain ⟨rfl, rfl⟩ := h
      simp [toList, heq]
    · simp at h

end Deque

end GameSearch
