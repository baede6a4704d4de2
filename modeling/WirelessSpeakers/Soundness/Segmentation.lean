import WirelessSpeakers.Model.System

/-! # Commands and the cuts of the byte stream

The control thread looks at the first byte of every pbuf and at no other byte, except for the reply of
the port selector, which it receives as a message of its own. So a stream is handled alike however it
is cut only if nothing in it is a command behind its first byte, and the port selector is not asked for
in front of anything.
-/

namespace WirelessSpeakers.Soundness

open Model TapeMachine

variable {t u v : TcpThread} {label : TcpLabel} {b c : Byte}

/-- `tcp_thread` from `t` on, whatever the calls return. -/
def connection (t : TcpThread) : TapeMachine TcpThread TcpLabel where
  init := t
  step := tcpThread

def tcpLabel : Event → Option TcpLabel
  | .tcp label => some label
  | _ => none

/-- The control thread's part of a run of the program is a run of the thread. -/
theorem connection_of_run {env : Environment} {s s' : System} {tape : List Event}
    (started : s.stackInit = .deleted) (ran : (program env).runFrom s tape = some s') :
    (connection s.tcp).run (tape.filterMap tcpLabel) = some s'.tcp := by
  refine runFrom_project (n := connection s.tcp) System.tcp tcpLabel (fun s => s.stackInit = .deleted)
    ?_ started ran
  intro s e t here step
  cases System.step_eq_some_iff.mp step with
  | udpInit now | tcpInit now => rw [here] at now; contradiction
  | tcp thread shared =>
    refine ⟨here, ?_, nofun⟩
    rintro _ ⟨⟩
    exact tcpThread_eq_some_iff.mpr thread
  | udp | pit0 | arrive | post => exact ⟨here, nofun, fun _ => rfl⟩

/-- The message that a label brings. -/
def messageOf : TcpLabel → Option Netbuf
  | .recv buf => some buf
  | _ => none

/-- The menu that a label writes to. -/
def menuOf : TcpLabel → Option Menu
  | .write menu => some menu
  | _ => none

/-- The port number that a label puts into `port_selection`. -/
def portOf : TcpLabel → Option Port
  | .send block true => some block.port
  | _ => none

/-- The calls that can fail have not failed. -/
def succeeds : TcpLabel → Bool
  | .listen ok | .accept ok | .send _ ok => ok
  | .recvErr => false
  | _ => true

/-- A run of the thread from `t` that receives these messages, and in which no call fails. -/
structure Serves (t : TcpThread) (messages : List Netbuf) (tape : List TcpLabel) (u : TcpThread) :
    Prop where
  ran : (connection t).run tape = some u
  succeeded : ∀ label ∈ tape, succeeds label = true
  received : tape.filterMap messageOf = messages

/-- The thread waits for the next message. -/
def Waiting (u : TcpThread) : Prop := u.pc = .recv ∨ u.pc = .recvReply

/-- What the handling of a stream comes to. -/
structure Outcome where
  currentMenu : Menu
  musicState : Byte
  menus : List Menu
  ports : List Port
deriving DecidableEq, Repr

def outcome (tape : List TcpLabel) (u : TcpThread) : Outcome :=
  ⟨u.currentMenu, u.musicState, tape.filterMap menuOf, tape.filterMap portOf⟩

/-- Having received these messages the thread may come to wait for more with this outcome. -/
def Ends (t : TcpThread) (messages : List Netbuf) (o : Outcome) : Prop :=
  ∃ tape u, Serves t messages tape u ∧ Waiting u ∧ outcome tape u = o

/-- A way of cutting a stream into messages and each message into non-empty pbufs. -/
structure Cuts (messages : List Netbuf) (stream : List Byte) : Prop where
  nonempty : ∀ buf ∈ messages, ∀ p ∈ buf.chain, p.payload ≠ []
  bytes : messages.flatMap Netbuf.bytes = stream

/-- However a stream is cut, the thread can handle all of it, and any two ways have the same
outcome. -/
def SegmentationFree (t : TcpThread) (stream : List Byte) : Prop :=
  ∀ first second, Cuts first stream → Cuts second stream →
    (∃ o, Ends t first o) ∧ ∀ o o', Ends t first o → Ends t second o' → o = o'

/-- Behind the first command `b` of the stream, the character `c` is not a command: not in the menu
that `b` leaves, and not for a music state that the thread knows. -/
structure Inert (t : TcpThread) (b c : Byte) : Prop where
  menu : c ≠ charX
  music : c = char1 → t.musicState ≠ 1 ∧ t.musicState ≠ 0
  selector : c = char2 →
    b ≠ charX ∧ (t.currentMenu = .commStatus ∨ t.currentMenu = .mainMenu ∧ b = char3)
  status : c = char3 → b ≠ charX ∧ (t.currentMenu ≠ .mainMenu ∨ b = char3)

/-- The streams with at most one command, that being the first byte, and not followed by anything if
it asks for a port. -/
def Insensitive (t : TcpThread) : List Byte → Prop
  | [] => True
  | b :: later => later = [] ∨ (b = char2 → t.currentMenu = .commStatus) ∧ ∀ c ∈ later, Inert t b c

/-- What `MusicState` is about to become. -/
def pendingMusic : TcpPc → Option Byte
  | .audioOutput _ music _ | .setMusicState music _ => some music
  | _ => none

/-- The variables as the command under way will leave them. -/
def settled (u : TcpThread) : TcpThread :=
  { u with pc := .recv, musicState := (pendingMusic u.pc).getD u.musicState }

/-- The screens that the command under way has still to write. -/
def remaining : TcpPc → List Menu
  | .clearBits _ => tcpPrintMenu.map Chunk.menu
  | .write chunks _ => chunks.map Chunk.menu
  | .setBits _ | .receiveStatus _ => (tcpPrintUdpStatus ⟨0, 0, 0⟩).map Chunk.menu
  | _ => []

/-- The variables behind the command `c`. -/
def handled (t : TcpThread) (c : Byte) : TcpThread := settled (tcpSwitch t c [])

/-- The screens that it writes before it waits for anything. -/
def writes (t : TcpThread) (c : Byte) : List Menu := remaining (tcpSwitch t c []).pc

/-- `c` is not a command here. -/
def Ignored (t : TcpThread) (c : Byte) : Prop := (tcpSwitch t c []).pc = .next []

/-- `c` opens the port selector. -/
def Asks (t : TcpThread) (c : Byte) : Prop := c = char2 ∧ t.currentMenu ≠ .commStatus

@[simp] theorem settled_switch (rest : List Pbuf) : settled (tcpSwitch t c rest) = handled t c := by
  unfold handled tcpSwitch
  split_ifs <;> rfl

@[simp] theorem remaining_switch (rest : List Pbuf) :
    remaining (tcpSwitch t c rest).pc = writes t c := by
  unfold writes tcpSwitch
  split_ifs <;> rfl

theorem switch_of_ignored (ignored : Ignored t c) (rest : List Pbuf) :
    tcpSwitch t c rest = { t with pc := .next rest } := by
  unfold Ignored tcpSwitch at ignored
  unfold tcpSwitch
  split_ifs at ignored ⊢ <;> rfl

/-- A command that writes nothing and leaves the variables alone is none. -/
theorem ignored_of_unchanged (quiet : writes t c = [])
    (music : (handled t c).musicState = t.musicState) : Ignored t c := by
  unfold writes tcpSwitch at quiet
  unfold handled tcpSwitch at music
  unfold Ignored tcpSwitch
  split_ifs at quiet music ⊢ with isX is1 on off
  · contradiction
  · rw [on] at music
    exact absurd (show (0 : Byte) = 1 from music) (by decide)
  · rw [off] at music
    exact absurd (show (1 : Byte) = 0 from music) (by decide)
  all_goals first | rfl | contradiction

theorem ignored_iff : Ignored t c ↔
    c ≠ charX ∧ (c = char1 → t.musicState ≠ 1 ∧ t.musicState ≠ 0) ∧
      (c = char2 → t.currentMenu = .commStatus) ∧ (c = char3 → t.currentMenu ≠ .mainMenu) := by
  unfold Ignored tcpSwitch
  by_cases isX : c = charX
  · simp [isX]
  by_cases is1 : c = char1
  · subst is1
    split_ifs <;> simp_all [char1, char2, char3]
  by_cases is2 : c = char2
  · subst is2
    cases menu : t.currentMenu <;> simp [charX, char1, char2, char3]
  · simp only [isX, is1, is2]
    split_ifs <;> simp_all

/-- The switch knows the music state before a command exactly if it knows it behind. -/
theorem handled_music : (handled t b).musicState ≠ 1 ∧ (handled t b).musicState ≠ 0 ↔
    t.musicState ≠ 1 ∧ t.musicState ≠ 0 := by
  unfold handled tcpSwitch
  split_ifs <;> simp_all [settled, pendingMusic]

theorem handled_commStatus (mild : ¬ Asks t b) : (handled t b).currentMenu = .commStatus ↔
    b ≠ charX ∧ (t.currentMenu = .commStatus ∨ t.currentMenu = .mainMenu ∧ b = char3) := by
  unfold Asks at mild
  unfold handled tcpSwitch
  split_ifs <;> simp_all [settled, charX, char1, char2, char3]

theorem handled_mainMenu (mild : ¬ Asks t b) : (handled t b).currentMenu ≠ .mainMenu ↔
    b ≠ charX ∧ (t.currentMenu ≠ .mainMenu ∨ b = char3) := by
  unfold Asks at mild
  unfold handled tcpSwitch
  split_ifs <;> simp_all [settled, charX, char1, char2, char3]

theorem inert_iff (mild : ¬ Asks t b) : Inert t b c ↔ Ignored (handled t b) c := by
  rw [ignored_iff, handled_music, handled_commStatus mild, handled_mainMenu mild]
  constructor
  · exact fun inert => ⟨inert.menu, inert.music, inert.selector, inert.status⟩
  · exact fun ⟨menu, music, selector, status⟩ => ⟨menu, music, selector, status⟩

/-- The pbufs of the present message that the loop has still to look at. -/
def fragments : TcpPc → List Pbuf
  | .clearBits k | .write _ k => match k with
    | .next rest | .freeStatus rest => rest
    | _ => []
  | .dispatch p rest => p :: rest
  | .audioOutput _ _ rest | .setMusicState _ rest | .setBits rest | .receiveStatus rest
  | .freeStatus rest | .next rest => rest
  | _ => []

/-- The positions from which the thread asks for the reply of the port selector. -/
def asking : TcpPc → Bool
  | .clearBits k | .write _ k => match k with
    | .reply => true
    | _ => false
  | .deleteForReply | .recvReply => true
  | _ => false

/-- The positions inside the loops over messages and fragments, up to that reply. -/
def inside : TcpPc → Bool
  | .clearBits _ | .write _ _ | .recv | .dispatch _ _ | .audioOutput _ _ _ | .setMusicState _ _
  | .deleteForReply | .recvReply | .setBits _ | .receiveStatus _ | .freeStatus _ | .next _
  | .delete => true
  | _ => false

/-- What a step leaves as it is that neither looks at a fragment nor receives a message. -/
structure Quiet (u : TcpThread) (label : TcpLabel) (v : TcpThread) : Prop where
  settled : settled v = settled u
  menus : (menuOf label).toList ++ remaining v.pc = remaining u.pc
  fragments : fragments v.pc = fragments u.pc
  inside : inside v.pc = true
  asking : asking v.pc = asking u.pc
  ports : portOf label = none

theorem quiet_step (thread : TcpStep u label v) (within : inside u.pc = true)
    (ok : succeeds label = true) (message : messageOf label = none)
    (command : ∀ c, label ≠ .switch c) : Quiet u label v := by
  obtain ⟨pc, firstMenuPrint, currentMenu, musicState⟩ := u
  cases thread with
  | listen ok here | accept here | refused here | readPort garbage here port
  | readX garbage here back | malloc block here stored | sent here | timeout here | tick here
  | close here | deleteConn here => cases here; contradiction
  | recv | recvReply | recvErr | replyErr => contradiction
  | switch => exact absurd rfl (command _)
  | @write chunk chunks k here =>
    cases here
    cases chunks <;> cases k <;> exact ⟨rfl, rfl, rfl, rfl, rfl, rfl⟩
  | @reg script later access music rest here step =>
    cases here
    by_cases done : later.ops = []
    · simp only [if_pos done]
      exact ⟨rfl, rfl, rfl, rfl, rfl, rfl⟩
    · simp only [if_neg done]
      exact ⟨rfl, rfl, rfl, rfl, rfl, rfl⟩
  | @clearBits k here =>
    cases here
    cases k <;> exact ⟨rfl, rfl, rfl, rfl, rfl, rfl⟩
  | status values here | setBits here | setMusicState here | deleteForReply here | delete here
  | freeStatus here | last here | next here =>
    cases here
    exact ⟨rfl, rfl, rfl, rfl, rfl, rfl⟩

/-- The thread has met the command `b`, has written `menus`, and has nothing but ignored characters
before it. -/
structure Handling (t : TcpThread) (b : Byte) (menus : List Menu) (u : TcpThread) : Prop where
  settled : settled u = handled t b
  menus : menus ++ remaining u.pc = writes t b
  ignored : ∀ p ∈ fragments u.pc, Ignored (handled t b) p.first
  inside : inside u.pc = true
  asking : asking u.pc = true → Asks t b

theorem Handling.quiet {menus : List Menu} (held : Handling t b menus u) (quiet : Quiet u label v) :
    Handling t b (menus ++ (menuOf label).toList) v where
  settled := quiet.settled.trans held.settled
  menus := by rw [List.append_assoc, quiet.menus, held.menus]
  ignored := by rw [quiet.fragments]; exact held.ignored
  inside := quiet.inside
  asking := by rw [quiet.asking]; exact held.asking

/-- The first fragment is handled. -/
theorem handling_first {rest : List Pbuf} (later : ∀ p ∈ rest, Ignored (handled t b) p.first) :
    Handling t b [] (tcpSwitch t b rest) where
  settled := settled_switch rest
  menus := remaining_switch rest
  ignored := by
    have subset : ∀ p ∈ fragments (tcpSwitch t b rest).pc, p ∈ rest := by
      unfold tcpSwitch
      split_ifs <;> simp [fragments]
    exact fun p member => later p (subset p member)
  inside := by
    unfold tcpSwitch
    split_ifs <;> rfl
  asking := by
    unfold tcpSwitch
    split_ifs with isX is1 on off is2 menu <;> simp only [asking, Bool.false_eq_true, false_imp_iff]
    rintro -
    refine ⟨is2, ?_⟩
    rintro same
    rw [same] at menu
    contradiction

/-- A fragment behind it is not a command. -/
theorem Handling.ignore {menus : List Menu} {p : Pbuf} {rest : List Pbuf}
    (held : Handling t b menus u) (here : u.pc = .dispatch p rest) :
    Handling t b menus (tcpSwitch u p.first rest) := by
  obtain ⟨pc, firstMenuPrint, currentMenu, musicState⟩ := u
  cases here
  have ignored := held.ignored p List.mem_cons_self
  rw [← held.settled] at ignored
  rw [switch_of_ignored (t := ⟨.dispatch p rest, firstMenuPrint, currentMenu, musicState⟩) ignored]
  exact ⟨held.settled, held.menus, fun q member => held.ignored q (List.mem_cons_of_mem p member),
    rfl, nofun⟩

/-- The messages of a stream in which nothing but the first byte may be a command. -/
def Mild (t : TcpThread) : List Netbuf → Prop
  | [] => True
  | buf :: more => (Asks t buf.p.first → more = []) ∧
      ∀ p ∈ buf.next ++ more.flatMap Netbuf.chain, Ignored (handled t buf.p.first) p.first

/-- The course of a run over such messages: before the first one, before its first byte, behind. -/
inductive Course (t : TcpThread) : List Netbuf → List Menu → TcpThread → Prop
  | idle : Course t [] [] t
  | fresh (buf : Netbuf) : Course t [buf] [] { t with pc := .dispatch buf.p buf.next }
  | handling {buf : Netbuf} {more : List Netbuf} {menus : List Menu} {u : TcpThread}
      (held : Handling t buf.p.first menus u) : Course t (buf :: more) menus u

private theorem course_step {messages : List Netbuf} {menus : List Menu} (waiting : t.pc = .recv)
    (course : Course t messages menus u) (thread : TcpStep u label v) (ok : succeeds label = true)
    (mild : Mild t (messages ++ (messageOf label).toList)) :
    Course t (messages ++ (messageOf label).toList) (menus ++ (menuOf label).toList) v ∧
      portOf label = none := by
  cases course with
  | idle =>
    cases thread with
    | recv buf here => exact ⟨.fresh buf, rfl⟩
    | recvErr here => contradiction
    | _ => simp_all
  | fresh buf =>
    cases thread with
    | switch here =>
      cases here
      exact ⟨.handling (handling_first fun p member => mild.2 p (by simpa using .inl member)), rfl⟩
    | _ => simp_all
  | @handling buf more menus u held =>
    by_cases receives : ∃ next, label = .recv next
    · obtain ⟨next, rfl⟩ := receives
      cases thread with
      | recv _ here =>
        refine ⟨.handling ⟨?_, ?_, ?_, rfl, nofun⟩, rfl⟩
        · rw [← held.settled]
          simp [settled, pendingMusic, here]
        · have written := held.menus
          rw [here] at written
          simpa [remaining, menuOf] using written
        · intro p member
          refine mild.2 p (List.mem_append_right _ ?_)
          simpa [messageOf] using .inr member
      | recvReply _ here =>
        have asks := held.asking (by rw [here]; rfl)
        exact absurd (mild.1 asks) (by simp [messageOf])
    by_cases looks : ∃ c, label = .switch c
    · obtain ⟨c, rfl⟩ := looks
      cases thread with
      | switch here =>
        exact ⟨by simpa [messageOf, menuOf] using .handling (held.ignore here), rfl⟩
    · have silent : messageOf label = none := by
        cases label <;> first | rfl | exact absurd ⟨_, rfl⟩ receives
      have quiet := quiet_step thread held.inside ok silent fun c same => looks ⟨c, same⟩
      rw [silent]
      exact ⟨by simpa using .handling (held.quiet quiet), quiet.ports⟩

theorem Mild.of_append {first second : List Netbuf} (mild : Mild t (first ++ second)) :
    Mild t first := by
  cases first with
  | nil => trivial
  | cons buf more =>
    refine ⟨fun asks => (List.append_eq_nil_iff.mp (mild.1 asks)).1, fun p member => mild.2 p ?_⟩
    change p ∈ buf.next ++ (more ++ second).flatMap Netbuf.chain
    rw [List.flatMap_append, ← List.append_assoc]
    exact List.mem_append_left _ member

/-- A run that serves such messages follows that course. -/
theorem course_of_serves {messages : List Netbuf} {tape : List TcpLabel} (waiting : t.pc = .recv)
    (serves : Serves t messages tape u) (mild : Mild t messages) :
    Course t messages (tape.filterMap menuOf) u ∧ tape.filterMap portOf = [] := by
  obtain ⟨ran, succeeded, rfl⟩ := serves
  refine history (m := connection t) (P := fun past u =>
    (∀ label ∈ past, succeeds label = true) → Mild t (past.filterMap messageOf) →
      Course t (past.filterMap messageOf) (past.filterMap menuOf) u ∧ past.filterMap portOf = [])
    (fun _ _ => ⟨.idle, rfl⟩) ?_ ran succeeded mild
  intro past u label v _ ih step succeeded mild
  rw [filterMap_snoc] at mild
  have ok := succeeded label (List.mem_append_right past List.mem_cons_self)
  obtain ⟨course, ports⟩ :=
    ih (fun other member => succeeded other (List.mem_append_left [label] member)) mild.of_append
  obtain ⟨next, silent⟩ :=
    course_step waiting course (tcpThread_eq_some_iff.mp step) ok mild
  simp only [filterMap_snoc]
  exact ⟨next, by rw [ports, silent]; rfl⟩

/-- What the first byte of a stream alone comes to. -/
def firstOutcome (t : TcpThread) : List Byte → Outcome
  | [] => ⟨t.currentMenu, t.musicState, [], []⟩
  | b :: _ => ⟨(handled t b).currentMenu, (handled t b).musicState, writes t b, []⟩

theorem first_mem {p : Pbuf} (nonempty : p.payload ≠ []) : p.first ∈ p.payload := by
  obtain ⟨byte, rest, payload⟩ := List.exists_cons_of_ne_nil nonempty
  simp [Pbuf.first, payload]

/-- The messages of a stream: none, or a first one that begins with the first byte. -/
theorem Cuts.cases {messages : List Netbuf} {stream : List Byte} (cuts : Cuts messages stream) :
    (messages = [] ∧ stream = []) ∨ ∃ buf more later, messages = buf :: more ∧
      stream = buf.p.first :: later ∧
        ∀ p ∈ buf.next ++ more.flatMap Netbuf.chain, p.first ∈ later := by
  obtain ⟨nonempty, rfl⟩ := cuts
  cases messages with
  | nil => exact .inl ⟨rfl, rfl⟩
  | cons buf more =>
    have parts : ∀ p ∈ (buf :: more).flatMap Netbuf.chain, p.payload ≠ [] := by
      intro p member
      obtain ⟨message, received, part⟩ := List.mem_flatMap.mp member
      exact nonempty message received p part
    have whole : (buf :: more).flatMap Netbuf.bytes =
        ((buf :: more).flatMap Netbuf.chain).flatMap Pbuf.payload := List.flatMap_assoc.symm
    rw [whole]
    rw [List.flatMap_cons, Netbuf.chain, List.cons_append] at parts ⊢
    obtain ⟨first, behind, payload⟩ := List.exists_cons_of_ne_nil (parts buf.p List.mem_cons_self)
    refine .inr ⟨buf, more, behind ++ (buf.next ++ more.flatMap Netbuf.chain).flatMap Pbuf.payload,
      rfl, ?_, ?_⟩
    · simp [Pbuf.first, payload]
    · intro p member
      have part := first_mem (parts p (List.mem_cons_of_mem _ member))
      exact List.mem_append_right behind (List.mem_flatMap.mpr ⟨p, member, part⟩)

theorem Cuts.mild {messages : List Netbuf} {stream : List Byte} (cuts : Cuts messages stream)
    (insensitive : Insensitive t stream) : Mild t messages := by
  rcases cuts.cases with ⟨rfl, rfl⟩ | ⟨buf, more, later, rfl, rfl, heads⟩
  · trivial
  rcases insensitive with rfl | ⟨mild, inert⟩
  · have single : buf.next ++ more.flatMap Netbuf.chain = [] :=
      List.eq_nil_iff_forall_not_mem.mpr fun p member => absurd (heads p member) List.not_mem_nil
    have parts := List.flatMap_eq_nil_iff.mp (List.append_eq_nil_iff.mp single).2
    refine ⟨fun _ => ?_, by simp [single]⟩
    exact List.eq_nil_iff_forall_not_mem.mpr fun m member => List.cons_ne_nil _ _ (parts m member)
  · have quiet : ¬ Asks t buf.p.first := fun asks => asks.2 (mild asks.1)
    exact ⟨fun asks => absurd asks quiet,
      fun p member => (inert_iff quiet).mp (inert _ (heads p member))⟩

/-- A thread that waits has nothing pending. -/
theorem Waiting.pending (waits : Waiting u) : pendingMusic u.pc = none ∧ remaining u.pc = [] := by
  rcases waits with here | here <;> rw [here] <;> exact ⟨rfl, rfl⟩

/-- Every cut of an insensitive stream has the outcome of its first byte. -/
theorem outcome_of_insensitive {messages : List Netbuf} {stream : List Byte} {o : Outcome}
    (waiting : t.pc = .recv) (insensitive : Insensitive t stream) (cuts : Cuts messages stream)
    (ends : Ends t messages o) : o = firstOutcome t stream := by
  obtain ⟨tape, u, serves, waits, rfl⟩ := ends
  obtain ⟨course, ports⟩ := course_of_serves waiting serves (cuts.mild insensitive)
  rcases cuts.cases with ⟨rfl, rfl⟩ | ⟨buf, more, later, rfl, rfl, heads⟩
  · generalize written : tape.filterMap menuOf = menus at course
    cases course
    simp [outcome, firstOutcome, written, ports]
  · generalize written : tape.filterMap menuOf = menus at course
    cases course with
    | fresh => rcases waits with here | here <;> contradiction
    | handling held =>
      obtain ⟨music, none⟩ := waits.pending
      have menus := held.menus
      rw [none, List.append_nil] at menus
      simp [outcome, firstOutcome, written, ports, ← held.settled, settled, music, menus]

/-- The same in the program: whatever else happens, a connection that delivers such a stream ends with
that outcome. -/
theorem outcome_of_run {env : Environment} {s s' : System} {tape : List Event}
    {messages : List Netbuf} {stream : List Byte} (reachable : (program env).Reachable s)
    (waiting : s.tcp.pc = .recv) (ran : (program env).runFrom s tape = some s')
    (succeeded : ∀ label, .tcp label ∈ tape → succeeds label = true)
    (received : (tape.filterMap tcpLabel).filterMap messageOf = messages)
    (cuts : Cuts messages stream) (insensitive : Insensitive s.tcp stream) (waits : Waiting s'.tcp) :
    outcome (tape.filterMap tcpLabel) s'.tcp = firstOutcome s.tcp stream := by
  have started : s.stackInit = .deleted := by
    by_contra unstarted
    rw [(System.unstarted_of_reachable reachable).tcp unstarted] at waiting
    contradiction
  refine outcome_of_insensitive waiting insensitive cuts
    ⟨_, _, ⟨connection_of_run started ran, fun label member => ?_, received⟩, waits, rfl⟩
  obtain ⟨e, taken, same⟩ := List.mem_filterMap.mp member
  cases e with
  | tcp other =>
    cases same
    exact succeeded _ taken
  | _ => contradiction

/-- The thread can go on from `u` to `v`, receiving `messages` and writing `menus`. -/
def Yields (u : TcpThread) (messages : List Netbuf) (menus : List Menu) (v : TcpThread) : Prop :=
  ∃ tape, Serves u messages tape v ∧ tape.filterMap menuOf = menus

theorem Yields.trans {w : TcpThread} {first second : List Netbuf} {menus menus' : List Menu}
    (left : Yields u first menus v) (right : Yields v second menus' w) :
    Yields u (first ++ second) (menus ++ menus') w := by
  obtain ⟨tape, ⟨ran, succeeded, rfl⟩, rfl⟩ := left
  obtain ⟨tape', ⟨ran', succeeded', rfl⟩, rfl⟩ := right
  refine ⟨tape ++ tape', ⟨?_, ?_, List.filterMap_append⟩, List.filterMap_append⟩
  · rw [run, runFrom_append]
    exact Option.bind_eq_some_iff.mpr ⟨v, ran, ran'⟩
  · intro label member
    exact (List.mem_append.mp member).elim (succeeded label) (succeeded' label)

theorem Yields.step (thread : TcpStep u label v) (ok : succeeds label = true) :
    Yields u (messageOf label).toList (menuOf label).toList v := by
  have ran : (connection u).run [label] = some v := by
    simpa [run, connection] using tcpThread_eq_some_iff.mpr thread
  exact ⟨[label], ⟨ran, by simpa using ok, filterMap_snoc _ [] label⟩, filterMap_snoc _ [] label⟩

theorem Yields.refl (u : TcpThread) : Yields u [] [] u := ⟨[], ⟨rfl, by simp, rfl⟩, rfl⟩

/-- The writes of a print function. -/
theorem yields_write {chunks : List Chunk} {k : Continuation} (here : u.pc = .write chunks k)
    (some : chunks ≠ []) : Yields u [] (chunks.map Chunk.menu) { u with pc := k.resume } := by
  induction chunks generalizing u with
  | nil => contradiction
  | cons chunk chunks ih =>
    have first := Yields.step (.write here) rfl
    by_cases done : chunks = []
    · subst done
      exact first
    · rw [if_neg done] at first
      exact first.trans (ih rfl done)

theorem yields_printMenu {k : Continuation} (here : u.pc = .clearBits k) :
    Yields u [] (tcpPrintMenu.map Chunk.menu) { u with pc := k.resume } :=
  (Yields.step (.clearBits here) rfl).trans (yields_write rfl (List.cons_ne_nil _ _))

theorem yields_status {rest : List Pbuf} (here : u.pc = .setBits rest) :
    Yields u [] ((tcpPrintUdpStatus ⟨0, 0, 0⟩).map Chunk.menu) { u with pc := .next rest } := by
  have asked := Yields.step (.setBits here) rfl
  have shown := asked.trans (Yields.step (.status ⟨0, 0, 0⟩ rfl) rfl)
  have written := shown.trans (yields_write rfl (List.cons_ne_nil _ _))
  exact written.trans (Yields.step (.freeStatus rfl) rfl)

theorem yields_audioOutput {script : Script} {music : Byte} {rest : List Pbuf}
    (here : u.pc = .audioOutput script music rest) (unfinished : script.ops ≠ []) :
    Yields u [] [] { u with pc := .next rest, musicState := music } := by
  induction weight : script.weight using Nat.strong_induction_on generalizing script u with
  | _ n ih =>
    subst weight
    obtain ⟨access, later, _, step, _, lighter⟩ := Script.enabled unfinished ({} : Peripherals)
    have next := Yields.step (.reg here step) rfl
    by_cases done : later.ops = []
    · rw [if_pos done] at next
      exact next.trans (Yields.step (.setMusicState rfl) rfl)
    · rw [if_neg done] at next
      exact next.trans (ih later.weight lighter rfl done rfl)

/-- The thread handles the fragment before it. -/
theorem yields_command {p : Pbuf} {rest : List Pbuf} (here : u.pc = .dispatch p rest)
    (mild : ¬ Asks u p.first) :
    Yields u [] (writes u p.first) { handled u p.first with pc := .next rest } := by
  have looked := Yields.step (.switch here) rfl
  generalize p.first = c at looked mild ⊢
  unfold handled writes
  unfold tcpSwitch at looked ⊢
  split_ifs at looked ⊢ with isX is1 on off is2 menu is3 main
  · exact looked.trans (yields_printMenu (k := .next rest) rfl)
  · exact looked.trans (yields_audioOutput rfl (List.cons_ne_nil _ _))
  · exact looked.trans (yields_audioOutput rfl (List.cons_ne_nil _ _))
  · exact looked
  · exact absurd ⟨is2, by rintro same; simp [same] at menu⟩ mild
  · exact looked
  · exact looked.trans (yields_status rfl)
  · exact looked
  · exact looked

theorem switch_of_asks (asks : Asks t c) (rest : List Pbuf) : tcpSwitch t c rest =
    { t with pc := .write tcpPrintSelector .reply, currentMenu := .portSelector } := by
  obtain ⟨rfl, other⟩ := asks
  cases menu : t.currentMenu with
  | commStatus => exact absurd menu other
  | mainMenu | portSelector => simp [tcpSwitch, menu, charX, char1, char2]

/-- The thread opens the port selector and waits for the reply. -/
theorem yields_asks {p : Pbuf} {rest : List Pbuf} (here : u.pc = .dispatch p rest)
    (asks : Asks u p.first) :
    Yields u [] (writes u p.first) { handled u p.first with pc := .recvReply } := by
  have looked := Yields.step (.switch here) rfl
  unfold writes handled
  rw [switch_of_asks asks] at looked ⊢
  have shown := looked.trans (yields_write rfl (List.cons_ne_nil _ _))
  exact shown.trans (Yields.step (.deleteForReply rfl) rfl)

/-- The reply of the port selector, whatever it is, leads back to the main menu. -/
theorem yields_reply (buf : Netbuf) (here : u.pc = .recvReply) :
    Yields u [buf] (tcpPrintMenu.map Chunk.menu)
      { u with pc := .next buf.next, currentMenu := .mainMenu } := by
  have received := Yields.step (.recvReply buf here) rfl
  by_cases back : (netbufCopy buf (fun _ => 0) 10).1 0 = charX
  · have read := received.trans (Yields.step (.readX (fun _ => 0) rfl back) rfl)
    exact read.trans (yields_printMenu (k := .next buf.next) rfl)
  · have read := received.trans (Yields.step (.readPort (fun _ => 0) rfl back) rfl)
    have stored := read.trans (Yields.step (.malloc ⟨0, decodePort _⟩ rfl rfl) rfl)
    have sent := stored.trans (Yields.step (.sent rfl) rfl)
    exact sent.trans (yields_printMenu (k := .next buf.next) rfl)

/-- Behind the last fragment the thread receives again. -/
theorem yields_last (here : u.pc = .next []) : Yields u [] [] { u with pc := .recv } :=
  (Yields.step (.last here) rfl).trans (Yields.step (.delete rfl) rfl)

/-- The loop over the fragments comes to an end, or to the port selector. -/
theorem yields_fragments {p : Pbuf} {rest : List Pbuf} (here : u.pc = .dispatch p rest) :
    ∃ menus v, Yields u [] menus v ∧ Waiting v := by
  induction rest generalizing u p with
  | nil =>
    by_cases asks : Asks u p.first
    · exact ⟨_, _, yields_asks here asks, .inr rfl⟩
    · exact ⟨_, _, (yields_command here asks).trans (yields_last rfl), .inl rfl⟩
  | cons q rest ih =>
    by_cases asks : Asks u p.first
    · exact ⟨_, _, yields_asks here asks, .inr rfl⟩
    · have moved := (yields_command here asks).trans (Yields.step (.next rfl) rfl)
      obtain ⟨menus, v, behind, waits⟩ := ih (u := { handled u p.first with pc := .dispatch q rest }) rfl
      exact ⟨_, v, moved.trans behind, waits⟩

/-- The thread handles any message. -/
theorem yields_message (buf : Netbuf) (waits : Waiting u) :
    ∃ menus v, Yields u [buf] menus v ∧ Waiting v := by
  rcases waits with here | here
  · have received := Yields.step (.recv buf here) rfl
    obtain ⟨menus, v, behind, waits⟩ :=
      yields_fragments (u := { u with pc := .dispatch buf.p buf.next }) rfl
    exact ⟨_, v, received.trans behind, waits⟩
  · have answered := yields_reply buf here
    cases fragments : buf.next with
    | nil =>
      rw [fragments] at answered
      exact ⟨_, _, answered.trans (yields_last rfl), .inl rfl⟩
    | cons p rest =>
      rw [fragments] at answered
      have moved := answered.trans (Yields.step (.next rfl) rfl)
      obtain ⟨menus, v, behind, waits⟩ :=
        yields_fragments (u := { u with pc := .dispatch p rest, currentMenu := .mainMenu }) rfl
      exact ⟨_, v, moved.trans behind, waits⟩

theorem yields_messages (messages : List Netbuf) (waits : Waiting u) :
    ∃ menus v, Yields u messages menus v ∧ Waiting v := by
  induction messages generalizing u with
  | nil => exact ⟨[], u, .refl u, waits⟩
  | cons buf more ih =>
    obtain ⟨menus, v, left, waits⟩ := yields_message buf waits
    obtain ⟨menus', w, right, waits⟩ := ih waits
    exact ⟨_, w, left.trans right, waits⟩

theorem Yields.ends {messages : List Netbuf} {menus : List Menu} (yields : Yields u messages menus v)
    (waits : Waiting v) : ∃ o, Ends u messages o ∧ o.currentMenu = v.currentMenu ∧
      o.musicState = v.musicState ∧ o.menus = menus := by
  obtain ⟨tape, serves, rfl⟩ := yields
  exact ⟨_, ⟨tape, v, serves, waits, rfl⟩, rfl, rfl, rfl⟩

/-- However its messages are cut, the thread can handle all of a stream. -/
theorem exists_ends (messages : List Netbuf) (waits : Waiting u) : ∃ o, Ends u messages o := by
  obtain ⟨menus, v, yields, waits⟩ := yields_messages messages waits
  obtain ⟨o, ends, _⟩ := yields.ends waits
  exact ⟨o, ends⟩

/-- The first fragment of a message, up to the next one. -/
theorem yields_first (waiting : t.pc = .recv) (mild : ¬ Asks t b) (behind : List Byte)
    (rest : List Pbuf) :
    Yields t [⟨⟨b :: behind, 0⟩, rest⟩] (writes t b) { handled t b with pc := .next rest } :=
  (Yields.step (.recv ⟨⟨b :: behind, 0⟩, rest⟩ waiting) rfl).trans
    (yields_command (u := { t with pc := .dispatch ⟨b :: behind, 0⟩ rest }) rfl mild)

/-- The last fragment of a message, up to the next message. -/
theorem yields_final {p : Pbuf} (here : u.pc = .dispatch p []) :
    ∃ v, Yields u [] (writes u p.first) v ∧ Waiting v ∧
      v.musicState = (handled u p.first).musicState := by
  by_cases asks : Asks u p.first
  · exact ⟨_, yields_asks here asks, .inr rfl, rfl⟩
  · refine ⟨{ handled u p.first with pc := .recv }, ?_, .inl rfl, rfl⟩
    simpa using (yields_command here asks).trans (yields_last rfl)

/-- A command behind the first one is overlooked in one pbuf, and not in one of its own. -/
theorem sensitive_behind (waiting : t.pc = .recv) (mild : ¬ Asks t b)
    (command : ¬ Ignored (handled t b) c) (before behind : List Byte) :
    ¬ SegmentationFree t (b :: (before ++ c :: behind)) := by
  intro free
  have whole : Yields t [⟨⟨b :: (before ++ c :: behind), 0⟩, []⟩] (writes t b)
      { handled t b with pc := .recv } := by
    simpa using (yields_first waiting mild (before ++ c :: behind) []).trans (yields_last rfl)
  obtain ⟨o, ends, _, music, menus⟩ := whole.ends (.inl rfl)
  have moved : Yields t [⟨⟨b :: before, 0⟩, [⟨c :: behind, 0⟩]⟩] (writes t b)
      { handled t b with pc := .dispatch ⟨c :: behind, 0⟩ [] } := by
    simpa [messageOf, menuOf] using
      (yields_first waiting mild before [⟨c :: behind, 0⟩]).trans (Yields.step (.next rfl) rfl)
  obtain ⟨v, last, waits, known⟩ := yields_final
    (u := { handled t b with pc := .dispatch ⟨c :: behind, 0⟩ [] }) rfl
  obtain ⟨o', ends', _, music', menus'⟩ := (moved.trans last).ends waits
  have same : o = o' := by
    refine (free _ _ ⟨?_, ?_⟩ ⟨?_, ?_⟩).2 o o' ends ends' <;> simp [Netbuf.bytes, Netbuf.chain]
  subst same
  refine command (ignored_of_unchanged ?_ ?_)
  · exact List.self_eq_append_right.mp (menus.symm.trans menus')
  · exact known.symm.trans (music'.symm.trans music)

/-- A reply behind the command that asks for it is overlooked in one pbuf, and not in a message of its
own. -/
theorem sensitive_reply {later : List Byte} (waiting : t.pc = .recv) (asks : Asks t b)
    (some : later ≠ []) : ¬ SegmentationFree t (b :: later) := by
  intro free
  have whole : Yields t [⟨⟨b :: later, 0⟩, []⟩] (writes t b) { handled t b with pc := .recvReply } :=
    (Yields.step (.recv ⟨⟨b :: later, 0⟩, []⟩ waiting) rfl).trans
      (yields_asks (u := { t with pc := .dispatch ⟨b :: later, 0⟩ [] }) rfl asks)
  obtain ⟨o, ends, menu, _⟩ := whole.ends (.inr rfl)
  have prompted : Yields t [⟨⟨[b], 0⟩, []⟩] (writes t b) { handled t b with pc := .recvReply } :=
    (Yields.step (.recv ⟨⟨[b], 0⟩, []⟩ waiting) rfl).trans
      (yields_asks (u := { t with pc := .dispatch ⟨[b], 0⟩ [] }) rfl asks)
  have answered := (prompted.trans (yields_reply ⟨⟨later, 0⟩, []⟩ rfl)).trans (yields_last rfl)
  obtain ⟨o', ends', menu', _⟩ := answered.ends (.inl rfl)
  have same : o = o' := by
    refine (free _ _ ⟨?_, ?_⟩ ⟨?_, ?_⟩).2 o o' ends ends' <;>
      simp [Netbuf.bytes, Netbuf.chain, some]
  subst same
  have selector : (handled t b).currentMenu = .portSelector := by
    rw [handled, switch_of_asks asks]
    rfl
  have main : (handled t b).currentMenu = .mainMenu := menu.symm.trans menu'
  rw [selector] at main
  contradiction

/-- The handling of a stream does not depend on its cuts exactly if the stream has at most one command
that the thread acts upon, as its first byte, and ends there if that command asks for a port. -/
theorem segmentationFree_iff (waiting : t.pc = .recv) (stream : List Byte) :
    SegmentationFree t stream ↔ Insensitive t stream := by
  constructor
  · intro free
    cases stream with
    | nil => trivial
    | cons b later =>
      by_cases none : later = []
      · exact .inl none
      by_cases asks : Asks t b
      · exact absurd free (sensitive_reply waiting asks none)
      refine .inr ⟨fun is2 => by_contra fun other => asks ⟨is2, other⟩, fun c member => ?_⟩
      refine (inert_iff asks).mpr (by_contra fun command => ?_)
      obtain ⟨before, behind, rfl⟩ := List.append_of_mem member
      exact sensitive_behind waiting asks command before behind free
  · intro insensitive first second cuts cuts'
    refine ⟨exists_ends first (.inl waiting), fun o o' ends ends' => ?_⟩
    exact (outcome_of_insensitive waiting insensitive cuts ends).trans
      (outcome_of_insensitive waiting insensitive cuts' ends').symm

/-- The first client has been shown the main menu. -/
def atRecv : TcpThread := { pc := .recv }

example : ((program board).run (.stackInit :: connectTape)).map System.tcp = some atRecv := by rfl

/-- The mute command with a line end behind it is one command, however it is cut. -/
theorem segmentationFree_muteLine : SegmentationFree atRecv [char1, 0x0D, 0x0A] := by
  refine (segmentationFree_iff rfl _).mpr (.inr ⟨by decide, ?_⟩)
  rintro c (_ | ⟨_, _ | ⟨_, ⟨⟩⟩⟩)
  · exact ⟨by decide, by decide, by decide, by decide⟩
  · exact ⟨by decide, by decide, by decide, by decide⟩

/-- Two mute commands in one pbuf toggle the music once, in two pbufs twice. -/
theorem not_segmentationFree : ¬ ∀ t stream, t.pc = .recv → SegmentationFree t stream := by
  intro free
  have command : ¬ Ignored (handled atRecv char1) char1 := by
    rw [Ignored]
    decide
  exact sensitive_behind rfl (fun asks => absurd asks.1 (by decide)) command [] []
    (free atRecv [char1, char1] rfl)

end WirelessSpeakers.Soundness
