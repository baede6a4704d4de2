import WirelessSpeakers.Machine.RefCount

/-! # Loops over linked lists

A loop that follows the pointers of a list, with a body that goes on with another state or leaves the loop, is
a fold over the nodes. The edits of a list are two: a node is put in front, and a node behind another one is
taken out. A list that is searched may move what it finds to its front.
-/

/-- `for (p = head; p != NULL; p = p->next)`. A node that must not be read and a loop that does not end are
`none`; `error` leaves the loop. -/
def scan {α ν σ β : Type*} (read : α → Option ν) (next : ν → Option α)
    (body : σ → α → ν → Except β σ) :
    ℕ → Option α → σ → Option (Except β σ)
  | _, none, s => some (.ok s)
  | 0, some _, _ => none
  | fuel + 1, some p, s => (read p).bind fun node =>
    match body s p node with
    | .error b => some (.error b)
    | .ok s => scan read next body fuel (next node) s

namespace Chain

variable {α ν σ β : Type*} {next : α → Option α} {p : Option α} {a b : α} {l front back : List α}

/-- The loop over a list is a fold. -/
theorem scan_eq {read : α → Option ν} (link : ν → Option α) (node : α → ν)
    (h : Chain (fun a => link (node a)) p l) (readable : ∀ a ∈ l, read a = some (node a))
    (body : σ → α → ν → Except β σ) {fuel : ℕ} (enough : l.length ≤ fuel) (s : σ) :
    scan read link body fuel p s = some (l.foldlM (fun s a => body s a (node a)) s) := by
  induction h generalizing fuel s with
  | nil => cases fuel <;> rfl
  | @cons a rest _ ih =>
    cases fuel with
    | zero => simp at enough
    | succ fuel =>
      have behind := fun s => ih (fun b member => readable b (List.mem_cons_of_mem a member))
        (Nat.le_of_succ_le_succ enough) s
      simp only [scan, readable a List.mem_cons_self, Option.bind_some, List.foldlM_cons]
      cases body s a (node a) with
      | error b => rfl
      | ok s => exact behind s

variable [DecidableEq α]

/-- A node put in front. -/
theorem push (h : Chain next p l) (fresh : a ∉ l) : Chain (Function.update next a p) (some a) (a :: l) := by
  apply Chain.cons
  rw [Function.update_self]
  apply h.congr
  intro b member
  apply Function.update_of_ne
  rintro rfl
  exact fresh member

/-- The node behind another one taken out. -/
theorem detach (h : Chain next p (front ++ b :: a :: back)) :
    Chain (Function.update next b (next a)) p (front ++ b :: back) := by
  have apart := h.nodup
  have inFront : ∀ c ∈ front, c ≠ b := by
    rintro c member rfl
    exact (List.nodup_append.mp apart).2.2 c member c List.mem_cons_self rfl
  have behind : b ∉ back := fun member =>
    (List.nodup_cons.mp (List.nodup_append.mp apart).2.1).1 (List.mem_cons_of_mem a member)
  apply h.replaceEnd fun c member => Function.update_of_ne (inFront c member) _ _
  rw [Function.update_self]
  have rest := (cons_iff.mp (cons_iff.mp h.suffix).2).2
  apply rest.congr
  intro c member
  apply Function.update_of_ne
  rintro rfl
  exact behind member

end Chain

namespace List

variable {α : Type*} [DecidableEq α] {a : α}

/-- What a search leaves behind that moves its finding to the front. -/
def moveToFront (a : α) (l : List α) : List α := a :: l.erase a

theorem moveToFront_append {front back : List α} (apart : a ∉ front) :
    (front ++ a :: back).moveToFront a = a :: (front ++ back) := by
  simp [moveToFront, List.erase_append_right _ apart]

end List
