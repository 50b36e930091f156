/-!
# Queues

First come, first served, in constant time on average: items leave at `front` and enter at `back`,
which is kept in reverse. `Queue.toList` is the order in which they leave.
-/

namespace DeviceCode

structure Queue (α : Type) where
  front : List α
  back : List α := []

namespace Queue

variable {α : Type}

def toList (q : Queue α) : List α := q.front ++ q.back.reverse

def ofList (xs : List α) : Queue α := { front := xs }

def pushAll (q : Queue α) (xs : List α) : Queue α := { q with back := xs.reverseAux q.back }

def pop? (q : Queue α) : Option (α × Queue α) :=
  match q.front with
  | x :: front => some (x, { q with front })
  | [] =>
    match q.back.reverse with
    | x :: front => some (x, { front })
    | [] => none

@[simp] theorem toList_ofList (xs : List α) : (ofList xs).toList = xs := by simp [ofList, toList]

@[simp] theorem toList_pushAll (q : Queue α) (xs : List α) :
    (q.pushAll xs).toList = q.toList ++ xs := by
  simp [pushAll, toList, List.reverseAux_eq]

theorem pop?_eq (q : Queue α) :
    q.pop?.map (fun p => (p.1, p.2.toList)) = q.toList.head?.map fun x => (x, q.toList.tail) := by
  obtain ⟨front, back⟩ := q
  cases front with
  | cons x front => simp [pop?, toList]
  | nil =>
    cases h : back.reverse with
    | nil => simp [pop?, toList, h]
    | cons x rest => simp [pop?, toList, h]

end Queue

end DeviceCode
