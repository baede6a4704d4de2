import WirelessSpeakers.Machine.Program

/-! # Programs on recorded samples

Where the hardware shows anything at any time, a run is determined by what the program has sampled.
`feed` executes a program on a recording and says how much of it was read, so that the moments of two
reads can be compared; `stored` is what its stores leave behind, one after the other.
-/

namespace Program

variable {C V ε α β : Type}

/-- Execute a program on a recording, from the `n`-th sample on: the outcome, the registers, and the next
sample. -/
def feed : Program C V ε α → (ℕ → V) → ℕ → C → Except ε α × C × ℕ
  | done a, _, n, c => (.ok a, c, n)
  | fail e, _, n, c => (.error e, c, n)
  | sample k, s, n, c => (k (s n)).feed s (n + 1) c
  | fetch k, s, n, c => (k c).feed s n c
  | store f p, s, n, c => p.feed s n (f c)

/-- The registers after every store of the same execution, in order. -/
def stored : Program C V ε α → (ℕ → V) → ℕ → C → List C
  | done _, _, _, _ => []
  | fail _, _, _, _ => []
  | sample k, s, n, c => (k (s n)).stored s (n + 1) c
  | fetch k, s, n, c => (k c).stored s n c
  | store f p, s, n, c => f c :: p.stored s n (f c)

/-- Nothing is left to do. -/
def Ended : Program C V ε α → Prop
  | done _ => True
  | fail _ => True
  | sample _ => False
  | fetch _ => False
  | store _ _ => False

/-- Every store keeps `P`, up to one with which the program ends and which brings `B`. -/
def KeepsUntil (P B : C → Prop) : Program C V ε α → Prop
  | done _ => True
  | fail _ => True
  | sample k => ∀ v, (k v).KeepsUntil P B
  | fetch k => ∀ c, (k c).KeepsUntil P B
  | store f p => ((∀ c, P c → P (f c)) ∧ p.KeepsUntil P B) ∨ ((∀ c, P c → B (f c)) ∧ p.Ended)

/-- How many samples a bounded loop takes until one satisfies `cond`. -/
def polled (cond : V → Bool) (s : ℕ → V) : ℕ → ℕ → ℕ
  | _, 0 => 0
  | n, bound + 1 => if cond (s n) then 1 else polled cond s (n + 1) bound + 1

section

variable {p : Program C V ε α} {next : α → Program C V ε β} {s : ℕ → V} {n n' : ℕ} {c c' : C}

theorem feed_bind_ok {a : α} (first : p.feed s n c = (.ok a, c', n')) :
    (p >>= next).feed s n c = (next a).feed s n' c' := by
  change (p.bind next).feed s n c = _
  induction p generalizing n c with
  | done a =>
    cases first
    rfl
  | fail e => cases first
  | sample k ih => exact ih (s n) first
  | fetch k ih => exact ih c first
  | store f p ih => exact ih first

theorem feed_bind_error {e : ε} (first : p.feed s n c = (.error e, c', n')) :
    (p >>= next).feed s n c = (.error e, c', n') := by
  change (p.bind next).feed s n c = _
  induction p generalizing n c with
  | done a => cases first
  | fail e =>
    cases first
    rfl
  | sample k ih => exact ih (s n) first
  | fetch k ih => exact ih c first
  | store f p ih => exact ih first

/-- On hardware without restrictions every recording is that of a run. -/
theorem runs_of_feed {hw : Hardware C V} (free : ∀ c v w, hw.Reach c v w) {out : Except ε α} {v : V}
    (fed : p.feed s n c = (out, c', n')) : ∃ v', p.Runs hw c v out c' v' := by
  induction p generalizing n c v with
  | done a =>
    cases fed
    exact ⟨v, .done⟩
  | fail e =>
    cases fed
    exact ⟨v, .fail⟩
  | sample k ih =>
    obtain ⟨v', run⟩ := ih (s n) (v := s n) fed
    exact ⟨v', .sample (free _ _ _) run⟩
  | fetch k ih =>
    obtain ⟨v', run⟩ := ih c (v := v) fed
    exact ⟨v', .fetch run⟩
  | store f p ih =>
    obtain ⟨v', run⟩ := ih (v := v) fed
    exact ⟨v', .store (free _ _ _) run⟩

/-- Only the samples that are still to come matter. -/
theorem feed_congr {s' : ℕ → V} (same : ∀ i, n ≤ i → s' i = s i) : p.feed s' n c = p.feed s n c := by
  induction p generalizing n c with
  | done a => rfl
  | fail e => rfl
  | sample k ih =>
    rw [feed, feed, same n (Nat.le_refl n)]
    exact ih (s n) fun i later => same i (Nat.le_of_succ_le later)
  | fetch k ih => exact ih c same
  | store f p ih => exact ih same

/-- And every run has a recording. -/
theorem Runs.exists_feed {hw : Hardware C V} {out : Except ε α} {v v' : V}
    (run : p.Runs hw c v out c' v') (n : ℕ) : ∃ s n', p.feed s n c = (out, c', n') := by
  induction run generalizing n with
  | @done a c v => exact ⟨fun _ => v, n, rfl⟩
  | @fail e c v => exact ⟨fun _ => v, n, rfl⟩
  | @sample k c v w out c' v' _ _ ih =>
    obtain ⟨s, n', fed⟩ := ih (n + 1)
    refine ⟨fun i => if i = n then w else s i, n', ?_⟩
    rw [feed, if_pos rfl, ← fed]
    exact feed_congr fun i later => if_neg (Nat.ne_of_gt later)
  | fetch _ ih => exact ih n
  | store _ _ ih => exact ih n

/-- A program that only reads comes to a result, and leaves the registers alone. -/
theorem Reads.feed_eq (reads : p.Reads) : ∃ a n', p.feed s n c = (.ok a, c, n') := by
  induction p generalizing n with
  | done a => exact ⟨a, n, rfl⟩
  | fail e => exact absurd reads id
  | sample k ih => exact ih (s n) (reads (s n))
  | fetch k ih => exact ih c (reads c)
  | store f p => exact absurd reads id

theorem Reads.stored_bind {a : α} (reads : p.Reads) (first : p.feed s n c = (.ok a, c', n')) :
    (p >>= next).stored s n c = (next a).stored s n' c' := by
  change (p.bind next).stored s n c = _
  induction p generalizing n with
  | done a =>
    cases first
    rfl
  | fail e => exact absurd reads id
  | sample k ih => exact ih (s n) (reads (s n)) first
  | fetch k ih => exact ih c (reads c) first
  | store f p => exact absurd reads id

theorem Reads.feed_zoom {C' V' : Type} {get : C' → C} {put : C → C' → C'} {view : V' → V} {s : ℕ → V'}
    {c : C'} (reads : p.Reads) : (p.zoom get put view).feed s n c =
      ((p.feed (fun i => view (s i)) n (get c)).1, c, (p.feed (fun i => view (s i)) n (get c)).2.2) := by
  induction p generalizing n with
  | done a => rfl
  | fail e => exact absurd reads id
  | sample k ih => exact ih (view (s n)) (reads (view (s n)))
  | fetch k ih => exact ih (get c) (reads (get c))
  | store f p => exact absurd reads id

variable {P B : C → Prop}

/-- A part whose stores all keep `P` comes first. -/
theorem Stores.keepsUntil_bind {R : α → Prop} (stores : p.Stores (fun f => ∀ c, P c → P (f c)) R)
    (rest : ∀ a, R a → (next a).KeepsUntil P B) : (p >>= next).KeepsUntil P B := by
  change (p.bind next).KeepsUntil P B
  induction p with
  | done a => exact rest a stores
  | fail e => trivial
  | sample k ih => exact fun v => ih v (stores v)
  | fetch k ih => exact fun c => ih c (stores c)
  | store f p ih => exact .inl ⟨stores.1, ih stores.2⟩

theorem KeepsUntil.stored_eq (keeps : p.KeepsUntil P B) (held : P c) : ∃ kept, (∀ d ∈ kept, P d) ∧
    (p.stored s n c = kept ∨ ∃ d, B d ∧ p.stored s n c = kept ++ [d]) := by
  induction p generalizing n c with
  | done a => exact ⟨[], nofun, .inl rfl⟩
  | fail e => exact ⟨[], nofun, .inl rfl⟩
  | sample k ih => exact ih (s n) (keeps (s n)) held
  | fetch k ih => exact ih c (keeps c) held
  | store f p ih =>
    rcases keeps with ⟨step, keeps⟩ | ⟨last, ended⟩
    · obtain ⟨kept, all, whole⟩ := ih keeps (step c held) (n := n)
      refine ⟨f c :: kept, List.forall_mem_cons.mpr ⟨step c held, all⟩, ?_⟩
      rcases whole with whole | ⟨d, back, whole⟩
      · exact .inl (congrArg (f c :: ·) whole)
      · exact .inr ⟨d, back, congrArg (f c :: ·) whole⟩
    · have nothing : p.stored s n (f c) = [] := by
        cases p with
        | done a => rfl
        | fail e => rfl
        | sample k => exact absurd ended id
        | fetch k => exact absurd ended id
        | store g p => exact absurd ended id
      exact ⟨[], nofun, .inr ⟨f c, last c held, congrArg (f c :: ·) nothing⟩⟩

variable {cond : V → Bool} {bound : ℕ}

theorem feed_spin : (spin cond bound : Program C V ε Unit).feed s n c =
    (.ok (), c, n + polled cond s n bound) := by
  induction bound generalizing n with
  | zero => rfl
  | succ bound ih =>
    rw [spin, feed, polled]
    split
    · rfl
    · rw [ih]
      congr 2
      omega

end

end Program
