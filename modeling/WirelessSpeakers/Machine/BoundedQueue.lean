import Mathlib.Data.List.Basic

/-! # Queues of bounded capacity

The capacity is part of the type and its bound a field, so no queue ever holds more than it may.
Sending to a full queue and receiving from an empty one are refused; waiting is left to the caller.
`Accounts` is the trace invariant of a queue: what was taken, followed by what is still inside,
is what was accepted, in order.
-/

/-- At most `capacity` elements, oldest first. -/
structure BoundedQueue (α : Type*) (capacity : ℕ) where
  items : List α
  bound : items.length ≤ capacity
deriving DecidableEq

namespace BoundedQueue

variable {α : Type*} {capacity : ℕ}

def empty : BoundedQueue α capacity := ⟨[], Nat.zero_le _⟩

def Full (queue : BoundedQueue α capacity) : Prop := queue.items.length = capacity

instance (queue : BoundedQueue α capacity) : Decidable queue.Full :=
  inferInstanceAs (Decidable (_ = _))

/-- Append behind the others, unless the queue is full. -/
def send? (queue : BoundedQueue α capacity) (x : α) : Option (BoundedQueue α capacity) :=
  if room : queue.items.length < capacity then
    some ⟨queue.items ++ [x], by rw [List.length_append, List.length_singleton]; exact room⟩
  else none

/-- Take the oldest element, if there is one. -/
def receive? (queue : BoundedQueue α capacity) : Option (α × BoundedQueue α capacity) :=
  match held : queue.items with
  | [] => none
  | x :: rest => some (x, ⟨rest, by have := queue.bound; rw [held, List.length_cons] at this; omega⟩)

@[ext] theorem ext {first second : BoundedQueue α capacity} (same : first.items = second.items) :
    first = second := by
  cases first
  cases second
  cases same
  rfl

theorem send?_eq_some_iff {queue next : BoundedQueue α capacity} {x : α} :
    queue.send? x = some next ↔ ¬ queue.Full ∧ next.items = queue.items ++ [x] := by
  have bound := queue.bound
  simp only [send?, Full]
  constructor
  · intro sent
    split_ifs at sent with room
    cases sent
    exact ⟨by omega, rfl⟩
  · rintro ⟨room, same⟩
    rw [dif_pos (by omega)]
    exact congrArg some (ext same.symm)

theorem receive?_eq_some_iff {queue next : BoundedQueue α capacity} {x : α} :
    queue.receive? = some (x, next) ↔ queue.items = x :: next.items := by
  rcases queue with ⟨items, bound⟩
  cases items with
  | nil => simp [receive?]
  | cons y rest =>
    simp only [receive?, Option.some.injEq, Prod.mk.injEq, List.cons.injEq]
    constructor
    · rintro ⟨rfl, rfl⟩
      exact ⟨rfl, rfl⟩
    · rintro ⟨rfl, same⟩
      exact ⟨rfl, ext same⟩

theorem receive?_eq_none_iff {queue : BoundedQueue α capacity} :
    queue.receive? = none ↔ queue.items = [] := by
  rcases queue with ⟨items, bound⟩
  cases items <;> simp [receive?]

section Accounting

variable {β : Type*} (value : α → β)

/-- What was taken, then what is still inside, is what was accepted. -/
def Accounts (queue : BoundedQueue α capacity) (taken accepted : List β) : Prop :=
  taken ++ queue.items.map value = accepted

theorem accounts_empty : Accounts value (empty : BoundedQueue α capacity) [] [] := rfl

theorem Accounts.send {queue next : BoundedQueue α capacity} {x : α} {taken accepted : List β}
    (held : Accounts value queue taken accepted) (sent : queue.send? x = some next) :
    Accounts value next taken (accepted ++ [value x]) := by
  obtain ⟨_, same⟩ := send?_eq_some_iff.mp sent
  rw [Accounts, same, List.map_append, ← List.append_assoc, held]
  rfl

theorem Accounts.receive {queue next : BoundedQueue α capacity} {x : α} {taken accepted : List β}
    (held : Accounts value queue taken accepted) (received : queue.receive? = some (x, next)) :
    Accounts value next (taken ++ [value x]) accepted := by
  rw [Accounts, receive?_eq_some_iff.mp received, List.map_cons] at held
  rw [Accounts, List.append_assoc, List.singleton_append, held]

end Accounting

end BoundedQueue
