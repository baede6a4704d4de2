import Mathlib.Algebra.Order.Group.Multiset
import Mathlib.Data.Finset.Card

/-! # Reference counts

Nodes with at most one pointer each, and a count in every node. Besides the pointers of the nodes
there are those that somebody holds from outside. Counts are `Exact` if each one is the number of
pointers to its node, of both kinds. The operations below keep that, each with the pointers that it
takes over from outside or hands out, so that nothing is freed while a pointer leads to it and nothing
stays that no pointer leads to.
-/

/-- The nodes in use, where each one points, and its count. -/
structure Counted (α : Type*) where
  live : Finset α
  next : α → Option α
  count : α → ℕ

/-- The nodes from a pointer on, up to one that points nowhere. -/
inductive Chain {α : Type*} (next : α → Option α) : Option α → List α → Prop
  | nil : Chain next none []
  | cons {a : α} {rest : List α} : Chain next (next a) rest → Chain next (some a) (a :: rest)

namespace Chain

variable {α : Type*} {next other : α → Option α} {p : Option α} {a b : α} {chain ahead : List α}

theorem nil_iff : Chain next p [] ↔ p = none := by
  constructor
  · intro h
    cases h
    rfl
  · rintro rfl
    exact .nil

theorem cons_iff : Chain next p (a :: chain) ↔ p = some a ∧ Chain next (next a) chain := by
  constructor
  · intro h
    cases h with
    | cons rest => exact ⟨rfl, rest⟩
  · rintro ⟨rfl, rest⟩
    exact .cons rest

theorem some_iff : Chain next (some a) chain ↔ ∃ rest, chain = a :: rest ∧ Chain next (next a) rest := by
  constructor
  · intro h
    cases h with
    | cons rest => exact ⟨_, rfl, rest⟩
  · rintro ⟨rest, rfl, h⟩
    exact .cons h

theorem head_mem (h : Chain next (some a) chain) : a ∈ chain := by
  obtain ⟨rest, rfl, _⟩ := some_iff.mp h
  exact List.mem_cons_self

/-- A pointer has one chain only. -/
theorem unique (first : Chain next p chain) (second : Chain next p ahead) : chain = ahead := by
  induction first generalizing ahead with
  | nil =>
    cases second
    rfl
  | cons _ ih =>
    obtain ⟨rest, rfl, behind⟩ := some_iff.mp second
    rw [ih behind]

/-- A node of a chain has a chain of its own, the rest of the first. -/
theorem suffix (h : Chain next p (chain ++ a :: ahead)) : Chain next (some a) (a :: ahead) := by
  induction chain generalizing p with
  | nil =>
    obtain ⟨rfl, rest⟩ := cons_iff.mp h
    exact .cons rest
  | cons b rest ih => exact ih (cons_iff.mp h).2

theorem nodup (h : Chain next p chain) : chain.Nodup := by
  induction h with
  | nil => exact List.nodup_nil
  | @cons a rest h ih =>
    refine List.nodup_cons.mpr ⟨fun again => ?_, ih⟩
    obtain ⟨front, back, rfl⟩ := List.append_of_mem again
    have same := congrArg List.length ((Chain.cons h).unique h.suffix)
    simp only [List.length_cons, List.length_append] at same
    omega

/-- A chain stays where its pointers stay. -/
theorem stays (h : Chain next p chain) {inside : α → Prop} (first : ∀ a, p = some a → inside a)
    (step : ∀ a b, inside a → next a = some b → inside b) : ∀ a ∈ chain, inside a := by
  induction h with
  | nil => simp
  | @cons b rest _ ih =>
    have here := first b rfl
    intro c member
    rcases List.mem_cons.mp member with rfl | behind
    · exact here
    · exact ih (fun d => step b d here) c behind

/-- Pointers that are not followed do not matter. -/
theorem congr (h : Chain next p chain) (agree : ∀ a ∈ chain, other a = next a) : Chain other p chain := by
  induction h with
  | nil => exact .nil
  | @cons a rest _ ih =>
    have here := agree a List.mem_cons_self
    exact .cons (here ▸ ih fun b member => agree b (List.mem_cons_of_mem _ member))

theorem mem_of_next (h : Chain next p chain) (member : a ∈ chain) (step : next a = some b) : b ∈ chain := by
  obtain ⟨front, back, rfl⟩ := List.append_of_mem member
  obtain ⟨rest, same, behind⟩ := some_iff.mp h.suffix
  cases same
  obtain ⟨rest, rfl, _⟩ := some_iff.mp (step ▸ behind)
  simp

/-- A chain that has a last node starts somewhere. -/
theorem exists_head (h : Chain next p (chain ++ [a])) : ∃ b, p = some b ∧ b ∈ chain ++ [a] := by
  cases chain with
  | nil => exact ⟨a, (cons_iff.mp h).1, List.mem_cons_self⟩
  | cons b rest => exact ⟨b, (cons_iff.mp h).1, List.mem_cons_self⟩

/-- The last node of a chain points nowhere, and it is the only one. -/
theorem last_iff (h : Chain next p (chain ++ [a])) (member : b ∈ chain ++ [a]) : next b = none ↔ b = a := by
  constructor
  · intro ends
    obtain ⟨front, back, same⟩ := List.append_of_mem member
    rw [same] at h
    have behind := (cons_iff.mp h.suffix).2
    rw [ends] at behind
    cases behind
    exact ((List.append_inj' same rfl).2 |> List.singleton_inj.mp).symm
  · rintro rfl
    cases next_eq : next b with
    | none => rfl
    | some c =>
      have behind := (cons_iff.mp h.suffix).2
      rw [next_eq] at behind
      cases behind

/-- A chain with another end. -/
theorem replaceEnd {behind : List α} (h : Chain next p (chain ++ a :: behind))
    (agree : ∀ b ∈ chain, other b = next b)
    (tail : Chain other (other a) ahead) : Chain other p (chain ++ a :: ahead) := by
  induction chain generalizing p with
  | nil =>
    obtain ⟨rfl, _⟩ := cons_iff.mp h
    exact .cons tail
  | cons b rest ih =>
    obtain ⟨rfl, behind⟩ := cons_iff.mp h
    refine .cons ?_
    rw [agree b List.mem_cons_self]
    exact ih behind fun c member => agree c (List.mem_cons_of_mem b member)

variable [DecidableEq α]

/-- Chains end as before where the last node of some of them is given a chain that avoids it. -/
theorem link (h : Chain next p chain) (tail : Chain next (some b) ahead) (apart : a ∉ ahead) :
    ∃ chain, Chain (Function.update next a (some b)) p chain := by
  induction h with
  | nil => exact ⟨[], .nil⟩
  | @cons c rest _ ih =>
    rcases eq_or_ne c a with rfl | other
    · refine ⟨c :: ahead, .cons ?_⟩
      rw [Function.update_self]
      refine tail.congr fun d member => Function.update_of_ne ?_ _ _
      rintro rfl
      exact apart member
    · obtain ⟨chain, ih⟩ := ih
      exact ⟨c :: chain, .cons (by rwa [Function.update_of_ne other])⟩

/-- Chains end where they are cut. -/
theorem cut (h : Chain next p chain) (a : α) : ∃ chain, Chain (Function.update next a none) p chain := by
  induction h with
  | nil => exact ⟨[], .nil⟩
  | @cons c rest _ ih =>
    rcases eq_or_ne c a with rfl | other
    · refine ⟨[c], .cons ?_⟩
      rw [Function.update_self]
      exact .nil
    · obtain ⟨chain, ih⟩ := ih
      exact ⟨c :: chain, .cons (by rwa [Function.update_of_ne other])⟩

end Chain

namespace Counted

variable {α : Type*} [DecidableEq α]

section Edits

variable (nodes : Counted α) (a : α)

/-- The nodes that point to one. -/
def sources : Finset α := nodes.live.filter (nodes.next · = some a)

def setNext (p : Option α) : Counted α := { nodes with next := Function.update nodes.next a p }

/-- One pointer more. -/
def raise : Counted α := { nodes with count := Function.update nodes.count a (nodes.count a + 1) }

/-- One pointer less. -/
def lower : Counted α := { nodes with count := Function.update nodes.count a (nodes.count a - 1) }

/-- The last pointer less. -/
def discard : Counted α := { nodes.lower a with live := nodes.live.erase a }

/-- A new node, with one pointer to it. -/
def insert : Counted α where
  live := Insert.insert a nodes.live
  next := Function.update nodes.next a none
  count := Function.update nodes.count a 1

@[simp] theorem setNext_next_self (p : Option α) : (nodes.setNext a p).next a = p := Function.update_self _ _ _

@[simp] theorem insert_next_self : (nodes.insert a).next a = none := Function.update_self _ _ _

variable {a} {b : α}

theorem setNext_next_of_ne (other : b ≠ a) (p : Option α) : (nodes.setNext a p).next b = nodes.next b :=
  Function.update_of_ne other _ _

theorem insert_next_of_ne (other : b ≠ a) : (nodes.insert a).next b = nodes.next b :=
  Function.update_of_ne other _ _

end Edits

/-- One pointer to the head of a chain is given up: nodes are freed up to the first one that another
pointer leads to. -/
def release : List α → Counted α → Counted α
  | [], nodes => nodes
  | a :: rest, nodes => if nodes.count a = 1 then release rest (nodes.discard a) else nodes.lower a

/-- What a pointer holds. -/
def pointee : Option α → Multiset α
  | none => 0
  | some a => {a}

omit [DecidableEq α] in
@[simp] theorem pointee_some_add (a : α) (held : Multiset α) : pointee (some a) + held = a ::ₘ held :=
  Multiset.singleton_add a held

omit [DecidableEq α] in
@[simp] theorem pointee_none_add (held : Multiset α) : pointee none + held = held := zero_add held

omit [DecidableEq α] in
theorem mem_pointee {p : Option α} {a : α} : a ∈ pointee p ↔ p = some a := by
  cases p with
  | none => simp [pointee]
  | some b => simp [pointee, eq_comm]

theorem count_pointee (p : Option α) (a : α) : (pointee p).count a = if p = some a then 1 else 0 := by
  cases p with
  | none => simp [pointee]
  | some b => simp [pointee, Multiset.count_singleton, eq_comm]

/-- Every count is the number of pointers, and pointers lead to nodes in use. -/
structure Exact (nodes : Counted α) (held : Multiset α) : Prop where
  counted : ∀ a ∈ nodes.live, nodes.count a = (nodes.sources a).card + held.count a
  positive : ∀ a ∈ nodes.live, 0 < nodes.count a
  closed : ∀ a ∈ nodes.live, ∀ b, nodes.next a = some b → b ∈ nodes.live
  owned : ∀ a ∈ held, a ∈ nodes.live
  ends : ∀ a ∈ nodes.live, ∃ chain, Chain nodes.next (some a) chain

section Exact

variable {nodes : Counted α} {held : Multiset α} {a b : α} {p : Option α} {chain : List α}

theorem mem_sources : b ∈ nodes.sources a ↔ b ∈ nodes.live ∧ nodes.next b = some a := Finset.mem_filter

/-- A chain from a node in use stays among the nodes in use. -/
theorem Exact.chain_live (exact : Exact nodes held) (h : Chain nodes.next p chain)
    (alive : ∀ a, p = some a → a ∈ nodes.live) : ∀ a ∈ chain, a ∈ nodes.live :=
  h.stays alive fun a b here => exact.closed a here b

/-- Only the pointer from outside is left. -/
theorem Exact.sole (exact : Exact nodes (a ::ₘ held)) (last : nodes.count a = 1) :
    nodes.sources a = ∅ ∧ a ∉ held := by
  have counted := exact.counted a (exact.owned a (Multiset.mem_cons_self a held))
  rw [Multiset.count_cons_self, last] at counted
  exact ⟨Finset.card_eq_zero.mp (by omega), Multiset.count_eq_zero.mp (by omega)⟩

theorem Exact.lower (exact : Exact nodes (a ::ₘ held)) (more : nodes.count a ≠ 1) :
    Exact (nodes.lower a) held where
  counted b alive := by
    have counted := exact.counted b alive
    change Function.update nodes.count a (nodes.count a - 1) b = (nodes.sources b).card + _
    rcases eq_or_ne b a with rfl | other
    · rw [Multiset.count_cons_self] at counted
      rw [Function.update_self]
      omega
    · rwa [Multiset.count_cons_of_ne other, ← Function.update_of_ne other _ nodes.count] at counted
  positive b alive := by
    have positive := exact.positive b alive
    change 0 < Function.update nodes.count a (nodes.count a - 1) b
    rcases eq_or_ne b a with rfl | other
    · rw [Function.update_self]
      omega
    · rwa [Function.update_of_ne other]
  closed := exact.closed
  owned b member := exact.owned b (Multiset.mem_cons_of_mem member)
  ends := exact.ends

theorem Exact.discard (exact : Exact nodes (a ::ₘ held)) (last : nodes.count a = 1) :
    Exact (nodes.discard a) (pointee (nodes.next a) + held) := by
  obtain ⟨unpointed, unheld⟩ := exact.sole last
  have here := exact.owned a (Multiset.mem_cons_self a held)
  have off : ∀ b ∈ nodes.live, nodes.next b ≠ some a := fun b alive step => by
    have : b ∈ nodes.sources a := mem_sources.mpr ⟨alive, step⟩
    simp [unpointed] at this
  refine ⟨fun b alive => ?_, fun b alive => ?_, fun b alive c step => ?_, fun b member => ?_, fun b alive => ?_⟩
  · obtain ⟨other, alive⟩ := Finset.mem_erase.mp alive
    have counted := exact.counted b alive
    have fewer : (nodes.discard a).sources b = (nodes.sources b).erase a := by
      ext c
      change c ∈ (nodes.live.erase a).filter (nodes.next · = some b) ↔ _
      rw [Finset.mem_filter, Finset.mem_erase, Finset.mem_erase, mem_sources, and_assoc]
    change Function.update nodes.count a (nodes.count a - 1) b = _
    rw [Multiset.count_cons_of_ne other] at counted
    rw [Function.update_of_ne other, fewer, Multiset.count_add, count_pointee, counted]
    split_ifs with step
    · have := Finset.card_erase_add_one (mem_sources.mpr ⟨here, step⟩)
      omega
    · rw [Finset.erase_eq_of_notMem fun member => step (mem_sources.mp member).2]
      omega
  · obtain ⟨other, alive⟩ := Finset.mem_erase.mp alive
    change 0 < Function.update nodes.count a (nodes.count a - 1) b
    rw [Function.update_of_ne other]
    exact exact.positive b alive
  · have there := (Finset.mem_erase.mp alive).2
    refine Finset.mem_erase.mpr ⟨?_, exact.closed b there c step⟩
    rintro rfl
    exact off b there step
  · rcases Multiset.mem_add.mp member with ahead | behind
    · have step := mem_pointee.mp ahead
      refine Finset.mem_erase.mpr ⟨?_, exact.closed a here b step⟩
      rintro rfl
      exact off b here step
    · refine Finset.mem_erase.mpr ⟨?_, exact.owned b (Multiset.mem_cons_of_mem behind)⟩
      rintro rfl
      exact unheld behind
  · exact exact.ends b (Finset.mem_erase.mp alive).2

/-- Along a chain: the pointer moves on to the next node, until it is not the last one to its node. -/
theorem Exact.release (h : Chain nodes.next p chain) (exact : Exact nodes (pointee p + held)) :
    Exact (release chain nodes) held := by
  induction chain generalizing nodes p with
  | nil =>
    cases h
    rwa [pointee_none_add] at exact
  | cons a rest ih =>
    obtain ⟨rfl, behind⟩ := Chain.cons_iff.mp h
    rw [pointee_some_add] at exact
    unfold Counted.release
    split
    · next last => exact ih behind (exact.discard last)
    · next more => exact exact.lower more

theorem Exact.raise (exact : Exact nodes held) (alive : a ∈ nodes.live) : Exact (nodes.raise a) (a ::ₘ held) where
  counted b there := by
    have counted := exact.counted b there
    change Function.update nodes.count a (nodes.count a + 1) b = (nodes.sources b).card + _
    rcases eq_or_ne b a with rfl | other
    · rw [Function.update_self, Multiset.count_cons_self]
      omega
    · rwa [Function.update_of_ne other, Multiset.count_cons_of_ne other]
  positive b there := by
    have positive := exact.positive b there
    change 0 < Function.update nodes.count a (nodes.count a + 1) b
    rcases eq_or_ne b a with rfl | other
    · rw [Function.update_self]
      omega
    · rwa [Function.update_of_ne other]
  closed := exact.closed
  owned b member := by
    rcases Multiset.mem_cons.mp member with rfl | member
    · exact alive
    · exact exact.owned b member
  ends := exact.ends

/-- Nothing points to memory that is not in use. -/
theorem Exact.next_ne (exact : Exact nodes held) (alive : b ∈ nodes.live) (fresh : a ∉ nodes.live) :
    nodes.next b ≠ some a := fun step => fresh (exact.closed b alive a step)

theorem Exact.insert (exact : Exact nodes held) (fresh : a ∉ nodes.live) :
    Exact (nodes.insert a) (a ::ₘ held) := by
  have elsewhere : ∀ b ∈ nodes.live, b ≠ a := fun b alive same => fresh (same ▸ alive)
  have sources : ∀ b, (nodes.insert a).sources b = nodes.sources b := by
    intro b
    ext c
    simp only [mem_sources, Counted.insert, Finset.mem_insert]
    constructor
    · rintro ⟨rfl | alive, step⟩
      · simp at step
      · rw [Function.update_of_ne (elsewhere c alive)] at step
        exact ⟨alive, step⟩
    · rintro ⟨alive, step⟩
      exact ⟨.inr alive, by rwa [Function.update_of_ne (elsewhere c alive)]⟩
  refine ⟨fun b alive => ?_, fun b alive => ?_, fun b alive c step => ?_, fun b member => ?_, fun b alive => ?_⟩
  · rw [sources]
    rcases Finset.mem_insert.mp alive with rfl | alive
    · have none : nodes.sources b = ∅ := by
        refine Finset.eq_empty_of_forall_notMem fun c member => ?_
        obtain ⟨alive, step⟩ := mem_sources.mp member
        exact exact.next_ne alive fresh step
      have unheld : held.count b = 0 := Multiset.count_eq_zero.mpr fun member => fresh (exact.owned b member)
      change Function.update nodes.count b 1 b = _
      rw [Function.update_self, none, Multiset.count_cons_self, unheld, Finset.card_empty]
    · change Function.update nodes.count a 1 b = _
      rw [Function.update_of_ne (elsewhere b alive), Multiset.count_cons_of_ne (elsewhere b alive)]
      exact exact.counted b alive
  · change 0 < Function.update nodes.count a 1 b
    rcases Finset.mem_insert.mp alive with rfl | alive
    · rw [Function.update_self]
      exact Nat.one_pos
    · rw [Function.update_of_ne (elsewhere b alive)]
      exact exact.positive b alive
  · change Function.update nodes.next a none b = some c at step
    rcases Finset.mem_insert.mp alive with rfl | alive
    · simp at step
    · rw [Function.update_of_ne (elsewhere b alive)] at step
      exact Finset.mem_insert_of_mem (exact.closed b alive c step)
  · rcases Multiset.mem_cons.mp member with rfl | member
    · exact Finset.mem_insert_self _ _
    · exact Finset.mem_insert_of_mem (exact.owned b member)
  · rcases Finset.mem_insert.mp alive with rfl | alive
    · refine ⟨[b], .cons ?_⟩
      change Chain _ (Function.update nodes.next b none b) []
      rw [Function.update_self]
      exact .nil
    · obtain ⟨chain, h⟩ := exact.ends b alive
      have inside := exact.chain_live h fun c same => Option.some_inj.mp same ▸ alive
      exact ⟨chain, h.congr fun c member => Function.update_of_ne (elsewhere c (inside c member)) _ _⟩

theorem mem_sources_setNext (alive : a ∈ nodes.live) {c : α} :
    c ∈ (nodes.setNext a p).sources b ↔ (c = a ∧ p = some b) ∨ (c ≠ a ∧ c ∈ nodes.sources b) := by
  simp only [mem_sources, setNext]
  rcases eq_or_ne c a with rfl | other
  · simp [alive]
  · rw [Function.update_of_ne other]
    simp [other]

/-- A pointer from outside becomes that of a node, which had none. -/
theorem Exact.link (exact : Exact nodes (b ::ₘ held)) (alive : a ∈ nodes.live) (last : nodes.next a = none)
    (tail : Chain nodes.next (some b) chain) (apart : a ∉ chain) : Exact (nodes.setNext a (some b)) held where
  counted c there := by
    have counted := exact.counted c there
    have without : a ∉ nodes.sources c := fun member => by
      have step := (mem_sources.mp member).2
      rw [last] at step
      contradiction
    change nodes.count c = _
    rcases eq_or_ne c b with rfl | other
    · have more : (nodes.setNext a (some c)).sources c = Insert.insert a (nodes.sources c) := by
        ext d
        rw [mem_sources_setNext alive, Finset.mem_insert]
        grind
      rw [Multiset.count_cons_self] at counted
      rw [more, Finset.card_insert_of_notMem without]
      omega
    · have same : (nodes.setNext a (some b)).sources c = nodes.sources c := by
        ext d
        rw [mem_sources_setNext alive]
        grind
      rwa [same, ← Multiset.count_cons_of_ne other]
  positive := exact.positive
  closed c there d step := by
    change Function.update nodes.next a (some b) c = some d at step
    rcases eq_or_ne c a with rfl | other
    · rw [Function.update_self] at step
      cases step
      exact exact.owned b (Multiset.mem_cons_self b held)
    · rw [Function.update_of_ne other] at step
      exact exact.closed c there d step
  owned c member := exact.owned c (Multiset.mem_cons_of_mem member)
  ends c there := by
    obtain ⟨_, h⟩ := exact.ends c there
    exact h.link tail apart

/-- The pointer of a node is handed out. -/
theorem Exact.unlink (exact : Exact nodes held) (alive : a ∈ nodes.live) (step : nodes.next a = some b) :
    Exact (nodes.setNext a none) (b ::ₘ held) where
  counted c there := by
    have counted := exact.counted c there
    have fewer : (nodes.setNext a none).sources c = (nodes.sources c).erase a := by
      ext d
      rw [mem_sources_setNext alive, Finset.mem_erase]
      simp
    change nodes.count c = _
    rcases eq_or_ne c b with rfl | other
    · have := Finset.card_erase_add_one (mem_sources.mpr ⟨alive, step⟩)
      rw [fewer, Multiset.count_cons_self]
      omega
    · have without : a ∉ nodes.sources c := fun member => by
        have := (mem_sources.mp member).2
        rw [step] at this
        exact other (Option.some_inj.mp this).symm
      rwa [fewer, Finset.erase_eq_of_notMem without, Multiset.count_cons_of_ne other]
  positive := exact.positive
  closed c there d step := by
    change Function.update nodes.next a none c = some d at step
    rcases eq_or_ne c a with rfl | other
    · simp at step
    · rw [Function.update_of_ne other] at step
      exact exact.closed c there d step
  owned c member := by
    rcases Multiset.mem_cons.mp member with rfl | member
    · exact exact.closed a alive c step
    · exact exact.owned c member
  ends c there := by
    obtain ⟨_, h⟩ := exact.ends c there
    exact h.cut a

/-- A chain has no more nodes than there are in use. -/
theorem Exact.chain_length_le (exact : Exact nodes held) (alive : a ∈ nodes.live)
    (h : Chain nodes.next (some a) chain) : chain.length ≤ nodes.live.card := by
  rw [← List.toFinset_card_of_nodup h.nodup]
  refine Finset.card_le_card fun b member => ?_
  exact exact.chain_live h (fun c same => Option.some_inj.mp same ▸ alive) b (List.mem_toFinset.mp member)

/-- A node in use is held, or another one points to it. -/
theorem Exact.held_or_source (exact : Exact nodes held) (alive : a ∈ nodes.live) :
    a ∈ held ∨ ∃ b ∈ nodes.live, nodes.next b = some a := by
  have counted := exact.counted a alive
  have positive := exact.positive a alive
  rcases (nodes.sources a).eq_empty_or_nonempty with none | ⟨b, source⟩
  · rw [none, Finset.card_empty] at counted
    exact .inl (Multiset.count_pos.mp (by omega))
  · exact .inr ⟨b, mem_sources.mp source⟩

/-- Every node in use lies on a chain from a pointer that somebody holds. -/
theorem Exact.rooted (exact : Exact nodes held) (alive : a ∈ nodes.live) :
    ∃ root ∈ held, ∃ chain, Chain nodes.next (some root) chain ∧ a ∈ chain := by
  obtain ⟨chain, h⟩ := exact.ends a alive
  -- the chain grows with every step back, and it has room for so many
  obtain ⟨room, enough⟩ : ∃ room, nodes.live.card ≤ chain.length + room := ⟨_, Nat.le_add_left _ _⟩
  induction room generalizing a chain with
  | zero =>
    rcases exact.held_or_source alive with root | ⟨b, there, step⟩
    · exact ⟨a, root, chain, h, h.head_mem⟩
    · have long := exact.chain_length_le there (.cons (step ▸ h))
      rw [List.length_cons] at long
      omega
  | succ room ih =>
    rcases exact.held_or_source alive with root | ⟨b, there, step⟩
    · exact ⟨a, root, chain, h, h.head_mem⟩
    · obtain ⟨root, owned, whole, from_root, member⟩ := ih there (b :: chain) (.cons (step ▸ h)) (by
        rw [List.length_cons]
        omega)
      exact ⟨root, owned, whole, from_root, from_root.mem_of_next member step⟩

/-- What is in use cannot leave a set that holds the pointers from outside and is closed under those inside. -/
theorem Exact.confined (exact : Exact nodes held) (inside : α → Prop) (start : ∀ a ∈ held, inside a)
    (step : ∀ a b, inside a → nodes.next a = some b → inside b) (alive : a ∈ nodes.live) : inside a := by
  obtain ⟨root, member, chain, h, there⟩ := exact.rooted alive
  exact h.stays (fun b same => Option.some_inj.mp same ▸ start root member) step a there

/-- Where nothing is held, everything has been freed. -/
theorem Exact.empty (exact : Exact nodes 0) : nodes.live = ∅ := by
  refine Finset.eq_empty_of_forall_notMem fun a alive => ?_
  obtain ⟨root, member, _⟩ := exact.rooted alive
  exact Multiset.notMem_zero root member

end Exact

end Counted
