import WirelessSpeakers.Model.System

/-! # What the client sees

`current_menu` is a static, and so it survives the connection; the opening of the next connection
prints the main menu and clears the event bit all the same. The screen last written, the event bit and
`current_menu` agree at every outer receive exactly as long as no connection is accepted while the
variable still says something else. Within one connection every command keeps them together.
-/

namespace WirelessSpeakers.Soundness

open Model TapeMachine

variable {env : Environment} {s t : System}

/-- The screen that the client of the present connection sees. -/
def shownAfter (shown : Option Menu) : Event → Option Menu
  | .tcp (.accept true) => none
  | .tcp (.write menu) => some menu
  | _ => shown

/-- The last screen written to the present connection of a run. -/
def shown (tape : List Event) : Option Menu := tape.foldl shownAfter none

@[simp] theorem shown_snoc (past : List Event) (e : Event) :
    shown (past ++ [e]) = shownAfter (shown past) e := by
  simp only [shown, List.foldl_append, List.foldl_cons, List.foldl_nil]

/-- The screen that a print function leaves, by what follows it. -/
def printed : Continuation → Menu
  | .recv | .next _ => .mainMenu
  | .reply => .portSelector
  | .freeStatus _ => .commStatus

/-- The screen, the event bit and `current_menu` agree. -/
structure Shows (t : TcpThread) (shown : Option Menu) (onUdpMenu : Bool) : Prop where
  menu : shown = some t.currentMenu
  bit : onUdpMenu = true ↔ t.currentMenu = .commStatus
  outer : t.currentMenu ≠ .portSelector

/-- What holds where between two outer receives. -/
def Showing (t : TcpThread) (shown : Option Menu) (onUdpMenu : Bool) : Prop :=
  match t.pc with
  | .absent | .start | .accept | .close | .deleteConn | .returned => t.currentMenu ≠ .portSelector
  | .clearBits k => t.currentMenu = .mainMenu ∧ printed k = .mainMenu
  | .write chunks k => t.currentMenu = printed k ∧ (∀ chunk ∈ chunks, chunk.menu = printed k) ∧
      (k ≠ .reply → (onUdpMenu = true ↔ printed k = .commStatus))
  | .recv | .dispatch _ _ | .audioOutput _ _ _ | .setMusicState _ _ | .next _ | .delete
  | .freeStatus _ => Shows t shown onUdpMenu
  | .setBits _ => t.currentMenu = .commStatus
  | .receiveStatus _ => t.currentMenu = .commStatus ∧ onUdpMenu = true
  | .deleteForReply | .recvReply | .readReply _ | .malloc _ _ | .send _ _ _ | .fault => True

/-- The event bit behind a statement of `tcp_thread`. -/
def bitAfter (onUdpMenu : Bool) : TcpLabel → Bool
  | .clearBits => false
  | .setBits => true
  | _ => onUdpMenu

theorem bitAfter_of_shared {w v : World} {label : TcpLabel} (shared : w.tcp label = some v) :
    v.onUdpMenu = bitAfter w.onUdpMenu label := by
  have frame := (World.tcp_frame shared).onUdpMenu
  cases label with
  | clearBits | setBits => cases shared; rfl
  | _ => exact frame (by simp) (by simp)

private theorem showing_switch {t : TcpThread} {shown : Option Menu} {onUdpMenu : Bool} {command : Byte}
    {rest : List Pbuf} (shows : Shows t shown onUdpMenu) :
    Showing (tcpSwitch t command rest) shown onUdpMenu := by
  obtain ⟨menu, bit, opened⟩ := shows
  unfold tcpSwitch
  split_ifs with isX is1 on off is2 selects is3 main
  · exact ⟨rfl, rfl⟩
  · exact ⟨menu, bit, opened⟩
  · exact ⟨menu, bit, opened⟩
  · exact ⟨menu, bit, opened⟩
  · exact ⟨rfl, menu_of_mem_tcpPrintSelector, fun other => absurd rfl other⟩
  · exact ⟨menu, bit, opened⟩
  · exact rfl
  · exact ⟨menu, bit, opened⟩
  · exact ⟨menu, bit, opened⟩

/-- A print function ends with its own screen. -/
private theorem showing_write {t : TcpThread} {shown : Option Menu} {onUdpMenu : Bool} {chunk : Chunk}
    {chunks : List Chunk} {k : Continuation} (held : Showing t shown onUdpMenu)
    (here : t.pc = .write (chunk :: chunks) k) :
    Showing { t with pc := if chunks = [] then k.resume else .write chunks k } (some chunk.menu)
      onUdpMenu := by
  simp only [Showing, here] at held
  obtain ⟨menu, tags, bit⟩ := held
  have tag := tags chunk List.mem_cons_self
  split_ifs with last
  · cases k with
    | reply => trivial
    | recv => exact ⟨by rw [tag, menu], by rw [menu]; exact bit (by simp), by rw [menu]; nofun⟩
    | next rest => exact ⟨by rw [tag, menu], by rw [menu]; exact bit (by simp), by rw [menu]; nofun⟩
    | freeStatus rest =>
      exact ⟨by rw [tag, menu], by rw [menu]; exact bit (by simp), by rw [menu]; nofun⟩
  · exact ⟨menu, fun other member => tags other (List.mem_cons_of_mem _ member), bit⟩

/-- One statement of `tcp_thread`, provided that no connection is accepted in another menu. -/
theorem showing_tcp {t v : TcpThread} {label : TcpLabel} {shown : Option Menu} {onUdpMenu : Bool}
    (held : Showing t shown onUdpMenu) (prints : t.firstMenuPrint = 0) (thread : TcpStep t label v)
    (opens : label = .accept true → t.currentMenu = .mainMenu) :
    Showing v (shownAfter shown (.tcp label)) (bitAfter onUdpMenu label) := by
  cases thread with
  | switch here =>
    simp only [Showing, here] at held
    exact showing_switch held
  | write here => exact showing_write held here
  | accept here =>
    simp only [prints, if_true]
    exact ⟨opens rfl, rfl⟩
  | refused here => exact held
  | listen ok here =>
    simp only [Showing, here] at held
    cases ok <;> exact held
  | clearBits here =>
    simp only [Showing, here] at held
    obtain ⟨menu, after⟩ := held
    refine ⟨menu.trans after.symm, ?_, fun _ => ?_⟩
    · rw [after]
      exact menu_of_mem_tcpPrintMenu
    · simp [bitAfter, after]
  | setBits here =>
    simp only [Showing, here] at held
    exact ⟨held, rfl⟩
  | status values here =>
    simp only [Showing, here] at held
    exact ⟨held.1, menu_of_mem_tcpPrintUdpStatus values, fun _ => by simp [bitAfter, held.2, printed]⟩
  | recvErr here =>
    simp only [Showing, here] at held
    exact held.outer
  | reg here step =>
    simp only [Showing, here] at held
    simp only [Showing]
    split_ifs <;> exact ⟨held.menu, held.bit, held.outer⟩
  | recv buf here | setMusicState here | delete here | freeStatus here | last here | next here =>
    simp only [Showing, here] at held
    exact ⟨held.menu, held.bit, held.outer⟩
  | close here | deleteConn here =>
    simp only [Showing, here] at held
    exact held
  | readX garbage here back | sent here | timeout here => exact ⟨rfl, rfl⟩
  | recvReply buf here | replyErr here | deleteForReply here | readPort garbage here port
  | malloc block here stored | tick here => trivial

/-- `first_menu_print` is never assigned. -/
theorem firstMenuPrint_tcp {t v : TcpThread} {label : TcpLabel} (thread : TcpStep t label v) :
    v.firstMenuPrint = t.firstMenuPrint := by
  cases thread with
  | switch here => unfold tcpSwitch; split_ifs <;> rfl
  | _ => rfl

theorem firstMenuPrint_of_reachable (reachable : (program env).Reachable s) :
    s.tcp.firstMenuPrint = 0 := by
  refine invariant (m := program env) (P := fun s => s.tcp.firstMenuPrint = 0) rfl ?_ reachable
  intro s e t _ held step
  cases System.step_eq_some_iff.mp step with
  | tcp thread shared => exact (firstMenuPrint_tcp thread).trans held
  | _ => exact held

/-- No connection is accepted while `current_menu` is another one. -/
def OpensInMain (env : Environment) (tape : List Event) : Prop :=
  ∀ s, (program env).Takes tape s (.tcp (.accept true)) → s.tcp.currentMenu = .mainMenu

theorem showing_of_run {tape : List Event} (opens : OpensInMain env tape)
    (ran : (program env).run tape = some s) : Showing s.tcp (shown tape) s.world.onUdpMenu := by
  refine history (m := program env)
    (P := fun past s => OpensInMain env past → Showing s.tcp (shown past) s.world.onUdpMenu)
    (fun _ => by simp [Showing, program]) ?_ ran opens
  intro past s e t before ih step opens
  have held := ih fun v taken => opens v (taken.mono (List.prefix_append past [e]))
  rw [shown_snoc]
  cases System.step_eq_some_iff.mp step with
  | tcp thread shared =>
    have prints := firstMenuPrint_of_reachable ⟨past, before⟩
    change Showing _ _ (World.onUdpMenu _)
    rw [bitAfter_of_shared shared]
    apply showing_tcp held prints thread
    rintro rfl
    exact opens s (takes_snoc.mpr (.inr ⟨before, rfl⟩))
  | udp thread shared =>
    change Showing _ _ (World.onUdpMenu _)
    rw [(World.udp_frame shared).onUdpMenu]
    exact held
  | udpInit here => exact held
  | tcpInit here =>
    rw [(System.unstarted_of_reachable ⟨past, before⟩).tcp (by rw [here]; decide)] at held ⊢
    exact held
  | pit0 => exact held
  | arrive d => exact held
  | post shared =>
    obtain ⟨_, _, _, rfl⟩ := World.post_eq.mp shared
    exact held

/-- Between the acceptance of a connection and its first receive, with a stale `current_menu`. -/
def StaleOpening (t : TcpThread) : Prop :=
  t.currentMenu ≠ .mainMenu ∧ (t.pc = .clearBits .recv ∨
    ∃ chunks, t.pc = .write chunks .recv ∧ ∀ chunk ∈ chunks, chunk.menu = .mainMenu)

/-- The opening ends at the first receive, with the main menu on the screen. -/
private theorem staleOpening_tcp {t v : TcpThread} {label : TcpLabel} (stale : StaleOpening t)
    (thread : TcpStep t label v) :
    StaleOpening v ∨ label = .write .mainMenu ∧ v.pc = .recv ∧ v.currentMenu ≠ .mainMenu := by
  obtain ⟨menu, clearing | ⟨chunks, writing, tags⟩⟩ := stale
  · cases thread with
    | clearBits here =>
      cases clearing.symm.trans here
      exact .inl ⟨menu, .inr ⟨tcpPrintMenu, rfl, menu_of_mem_tcpPrintMenu⟩⟩
    | _ => simp_all
  · cases thread with
    | @write chunk rest k here =>
      cases writing.symm.trans here
      have tag := tags chunk List.mem_cons_self
      by_cases last : rest = []
      · subst last
        exact .inr ⟨by rw [tag], rfl, menu⟩
      · refine .inl ⟨menu, .inr ⟨rest, if_neg last, ?_⟩⟩
        exact fun other member => tags other (List.mem_cons_of_mem _ member)
    | _ => simp_all

/-- At every outer receive of the run, the client sees what `current_menu` says. -/
def MenuAgrees (env : Environment) (tape : List Event) : Prop :=
  ∀ past s, past <+: tape → (program env).run past = some s → s.tcp.pc = .recv →
    Shows s.tcp (shown past) s.world.onUdpMenu

/-- A run that agrees has opened no connection in another menu, or is still opening it. -/
private theorem opensInMain_or_staleOpening {tape : List Event}
    (ran : (program env).run tape = some s) (agrees : MenuAgrees env tape) :
    OpensInMain env tape ∨ StaleOpening s.tcp := by
  refine history (m := program env)
    (P := fun past s => MenuAgrees env past → OpensInMain env past ∨ StaleOpening s.tcp)
    (fun _ => .inl fun _ taken => absurd taken not_takes_nil) ?_ ran agrees
  intro past s e t before ih step agrees
  have held := ih fun earlier v initial => agrees earlier v (initial.trans (List.prefix_append _ _))
  have after := agrees _ t List.prefix_rfl (run_snoc.mpr ⟨s, before, step⟩)
  rcases held with opens | stale
  · by_cases bad : e = .tcp (.accept true) ∧ s.tcp.currentMenu ≠ .mainMenu
    · obtain ⟨rfl, menu⟩ := bad
      right
      have prints := firstMenuPrint_of_reachable ⟨past, before⟩
      cases System.step_eq_some_iff.mp step with
      | tcp thread shared =>
        cases thread with
        | accept here => exact ⟨menu, .inl (if_pos prints)⟩
    · left
      intro v taken
      rcases takes_snoc.mp taken with earlier | ⟨same, rfl⟩
      · exact opens v earlier
      · cases before.symm.trans same
        exact not_not.mp fun menu => bad ⟨rfl, menu⟩
  · right
    cases System.step_eq_some_iff.mp step with
    | tcp thread shared =>
      rcases staleOpening_tcp stale thread with still | ⟨rfl, here, menu⟩
      · exact still
      · have seen := (after here).menu
        rw [shown_snoc] at seen
        exact absurd (Option.some.inj seen).symm menu
    | tcpInit here =>
      rw [(System.unstarted_of_reachable ⟨past, before⟩).tcp (by rw [here]; decide)] at stale
      exact absurd rfl stale.1
    | _ => exact stale

/-- The menu state agrees with the client's screen, in a run that ends at the outer receive, exactly if
no connection was accepted while `current_menu` was another than the main menu. -/
theorem menuAgrees_iff {tape : List Event} {u : System} (ran : (program env).run tape = some u)
    (waiting : u.tcp.pc = .recv) : MenuAgrees env tape ↔ OpensInMain env tape := by
  constructor
  · intro agrees
    rcases opensInMain_or_staleOpening ran agrees with opens | ⟨_, clearing | ⟨_, writing, _⟩⟩
    · exact opens
    · rw [waiting] at clearing
      contradiction
    · rw [waiting] at writing
      contradiction
  · intro opens past s initial before here
    have held := showing_of_run (fun v taken => opens v (taken.mono initial)) before
    simpa only [Showing, here] using held

/-- A client asks for the status report and disconnects; the next one connects. -/
def reconnectTape : List Event :=
  .stackInit :: connectTape ++
    [.tcp (.recv (keystroke char3)), .tcp (.switch char3), .tcp .setBits, .post ⟨0, 0, 0⟩,
      .tcp (.status ⟨0, 0, 0⟩)] ++ List.replicate 7 (.tcp (.write .commStatus)) ++
    [.tcp .freeStatus, .tcp .next, .tcp .delete, .tcp .recvErr, .tcp .close, .tcp .deleteConn] ++
    connectTape.drop 2

/-- The board with a task that posts status blocks. -/
def reportingBoard : Environment := { board with statusProducer := true }

theorem not_menuAgrees_reconnect : ¬ MenuAgrees reportingBoard reconnectTape := by
  intro agrees
  have taken : ∃ s, (program reportingBoard).Takes reconnectTape s (.tcp (.accept true)) ∧
      s.tcp.currentMenu = .commStatus :=
    ⟨_, ⟨reconnectTape.take 25, ⟨connectTape.drop 3, rfl⟩, rfl⟩, rfl⟩
  obtain ⟨s, taken, menu⟩ := taken
  have opens := (menuAgrees_iff (u := _) rfl rfl).mp agrees s taken
  rw [menu] at opens
  contradiction

theorem not_menuAgrees : ¬ ∀ env tape, env.statusProducer = true → MenuAgrees env tape := by
  intro agrees
  have ran : ∃ s, (program reportingBoard).run reconnectTape = some s ∧ s.tcp.pc = .recv ∧
      s.tcp.currentMenu = .commStatus := ⟨_, rfl, rfl, rfl⟩
  obtain ⟨s, ran, waiting, menu⟩ := ran
  have seen := (agrees reportingBoard reconnectTape rfl _ s List.prefix_rfl ran waiting).menu
  rw [menu] at seen
  contradiction

end WirelessSpeakers.Soundness
