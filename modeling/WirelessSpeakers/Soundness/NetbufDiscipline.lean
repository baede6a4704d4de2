import Mathlib.Data.List.Nodup
import WirelessSpeakers.Soundness.Segmentation

/-! # The netbufs of the control thread

`tcp_thread` keeps one netbuf variable for the messages and for the reply of the port prompt. The
netbuf of the command is deleted in front of the prompt, so that the loop over the pbufs and the delete
behind it go on with the reply. As long as every reply is received, each netbuf is deleted exactly once
and no other is touched. A receive of the reply that fails stores a null pointer, and the next statement
is `netbuf_copy`.
-/

namespace WirelessSpeakers.Soundness

open Model TapeMachine

variable {t v : TcpThread} {label : TcpLabel}

/-- The netbufs by the ordinal of the receive that allocated them: how many there were, the one that
`buf` points to, null being `none`, and the ones that `netbuf_delete` was given. -/
structure NetbufLedger where
  received : ℕ := 0
  buf : Option ℕ := none
  deleted : List ℕ := []
deriving DecidableEq, Repr

/-- `netconn_recv` stores a fresh netbuf or null; `netbuf_delete` ignores null. -/
def NetbufLedger.after (ledger : NetbufLedger) : TcpLabel → NetbufLedger
  | .recv _ => { ledger with received := ledger.received + 1, buf := some ledger.received }
  | .recvErr => { ledger with buf := none }
  | .delete => { ledger with deleted := ledger.deleted ++ ledger.buf.toList }
  | _ => ledger

/-- The netbufs behind a run of the thread. -/
def netbufs (tape : List TcpLabel) : NetbufLedger := tape.foldl NetbufLedger.after {}

@[simp] theorem netbufs_snoc (past : List TcpLabel) (label : TcpLabel) :
    netbufs (past ++ [label]) = (netbufs past).after label := by
  simp only [netbufs, List.foldl_append, List.foldl_cons, List.foldl_nil]

/-- The next statement applies `netbuf_data`, `netbuf_copy` or `netbuf_next` to `buf`. In the state
`fault` it is the `netbuf_copy` behind a failed receive. -/
def applies : TcpPc → Bool
  | .dispatch _ _ | .readReply _ | .fault | .next _ => true
  | _ => false

/-- The thread is at a call of `netconn_accept` or `netconn_recv`, or leaves a connection. -/
def outside : TcpPc → Bool
  | .accept | .recv | .recvReply | .close | .deleteConn => true
  | _ => false

/-- What is applied to `buf` finds a netbuf that is not deleted; no netbuf is deleted twice; and each
one has been deleted when the thread accepts or receives again, or closes the connection. -/
structure Disciplined (t : TcpThread) (ledger : NetbufLedger) : Prop where
  applied : applies t.pc = true → ∃ n, ledger.buf = some n ∧ n ∉ ledger.deleted
  once : ledger.deleted.Nodup
  all : outside t.pc = true → ∀ n < ledger.received, ledger.deleted.count n = 1

/-- `tcp_thread` from its first statement on. -/
abbrev tcpFromStart : TapeMachine TcpThread TcpLabel := connection { pc := .start }

/-- The netbufs are handled correctly all along a run. -/
def KeepsDiscipline (tape : List TcpLabel) : Prop :=
  ∀ past s, past <+: tape → tcpFromStart.run past = some s → Disciplined s (netbufs past)

/-- Between a receive and the delete for its netbuf. -/
def handling : TcpPc → Bool
  | .absent | .start | .accept | .clearBits .recv | .write _ .recv | .recv | .recvReply | .close
  | .deleteConn | .fault | .returned => false
  | _ => true

/-- All netbufs received so far are deleted, but for the one that is being handled. -/
def Held (pc : TcpPc) (ledger : NetbufLedger) : Prop :=
  if handling pc then ∃ n, ledger = ⟨n + 1, some n, List.range n⟩
  else ledger.deleted = List.range ledger.received

theorem Held.mono {pc later : TcpPc} {ledger : NetbufLedger} (held : Held pc ledger)
    (same : handling later = handling pc) : Held later ledger := by
  unfold Held
  rw [same]
  exact held

theorem handling_tcpSwitch (command : Byte) (rest : List Pbuf) :
    handling (tcpSwitch t command rest).pc = true := by
  unfold tcpSwitch
  split_ifs <;> rfl

theorem handling_resume (chunk : Chunk) (chunks later : List Chunk) (k : Continuation) :
    handling (if later = [] then k.resume else .write later k) =
      handling (.write (chunk :: chunks) k) := by
  cases k <;> split_ifs <;> rfl

/-- One statement of the thread, unless it is a receive of the reply that fails. -/
theorem held_step {ledger : NetbufLedger} (held : Held t.pc ledger) (step : TcpStep t label v)
    (replied : label = .recvErr → t.pc ≠ .recvReply) : Held v.pc (ledger.after label) := by
  cases step with
  | recv buf here | recvReply buf here =>
    rw [here] at held
    change ledger.deleted = List.range ledger.received at held
    refine ⟨ledger.received, ?_⟩
    rw [NetbufLedger.after, held]
  | recvErr here =>
    rw [here] at held
    exact held
  | replyErr here => exact absurd here (replied rfl)
  | deleteForReply here | delete here =>
    rw [here] at held
    obtain ⟨n, rfl⟩ := held
    exact List.range_succ.symm
  | listen ok here =>
    rw [here] at held
    apply held.mono
    cases ok <;> rfl
  | accept here =>
    rw [here] at held
    apply held.mono
    dsimp only
    split_ifs <;> rfl
  | refused here => exact held
  | clearBits here =>
    rw [here] at held
    apply held.mono
    rename_i k
    cases k <;> rfl
  | write here =>
    rw [here] at held
    exact held.mono (handling_resume _ _ _ _)
  | switch here =>
    rw [here] at held
    exact held.mono (handling_tcpSwitch _ _)
  | reg here step =>
    rw [here] at held
    apply held.mono
    dsimp only
    split_ifs <;> rfl
  | setBits here | setMusicState here | readPort garbage here port | readX garbage here back
  | malloc block here stored | sent here | timeout here | tick here | status values here
  | freeStatus here | last here | next here | close here | deleteConn here =>
    rw [here] at held
    exact held.mono rfl

/-- The thread has no null netbuf in hand. -/
theorem Held.disciplined {ledger : NetbufLedger} (held : Held t.pc ledger) (sound : t.pc ≠ .fault) :
    Disciplined t ledger := by
  cases inside : handling t.pc with
  | true =>
    rw [Held, if_pos inside] at held
    obtain ⟨n, rfl⟩ := held
    refine ⟨fun _ => ⟨n, rfl, List.not_mem_range_self⟩, List.nodup_range, ?_⟩
    intro leaves
    cases here : t.pc <;> simp_all [handling, outside]
  | false =>
    rw [Held, if_neg (by simp [inside])] at held
    refine ⟨?_, by rw [held]; exact List.nodup_range, ?_⟩
    · intro applied
      cases here : t.pc <;> simp_all [handling, applies]
    · intro _ n below
      rw [held]
      exact List.count_eq_one_of_mem List.nodup_range (List.mem_range.mpr below)

/-- Only a failed receive of the reply leads to the call with a null netbuf. -/
theorem sound_step (step : TcpStep t label v) (replied : label = .recvErr → t.pc ≠ .recvReply) :
    v.pc ≠ .fault := by
  cases step with
  | replyErr here => exact absurd here (replied rfl)
  | listen ok here => cases ok <;> nofun
  | accept here => dsimp only; split_ifs <;> nofun
  | refused here => rw [here]; nofun
  | write here =>
    rename_i k
    cases k <;> (dsimp only; split_ifs <;> nofun)
  | switch here => unfold tcpSwitch; split_ifs <;> nofun
  | reg here step => dsimp only; split_ifs <;> nofun
  | _ => nofun

/-- The netbuf discipline holds along a run exactly if no receive of a port reply fails in it. -/
theorem keepsDiscipline_iff (tape : List TcpLabel) : KeepsDiscipline tape ↔
    ∀ s, tcpFromStart.Takes tape s .recvErr → s.pc ≠ .recvReply := by
  constructor
  · rintro disciplined s ⟨past, initial, ran⟩ here
    have fails : tcpFromStart.run (past ++ [.recvErr]) = some { s with pc := .fault } :=
      run_snoc.mpr ⟨s, ran, tcpThread_eq_some_iff.mpr (.replyErr here)⟩
    obtain ⟨n, found, _⟩ := (disciplined _ _ initial fails).applied rfl
    rw [netbufs_snoc] at found
    contradiction
  · intro replied past s initial ran
    have held : past <+: tape → Held s.pc (netbufs past) ∧ s.pc ≠ .fault := by
      refine history (m := tcpFromStart)
        (P := fun past s => past <+: tape → Held s.pc (netbufs past) ∧ s.pc ≠ .fault) ?_ ?_ ran
      · intro _
        exact ⟨rfl, nofun⟩
      · intro past s label t before ih step longer
        obtain ⟨held, _⟩ := ih ((List.prefix_append past [label]).trans longer)
        have statement := tcpThread_eq_some_iff.mp step
        have succeeds : label = .recvErr → s.pc ≠ .recvReply := by
          rintro rfl
          exact replied s ⟨past, longer, before⟩
        rw [netbufs_snoc]
        exact ⟨held_step held statement succeeds, sound_step statement succeeds⟩
    obtain ⟨held, sound⟩ := held initial
    exact held.disciplined sound

/-- The client asks for the port selector and disconnects at the prompt. -/
def hangUpAtPrompt : List TcpLabel :=
  [.listen true, .accept true, .clearBits, .write .mainMenu, .write .mainMenu,
    .recv (keystroke char2), .switch char2, .write .portSelector, .write .portSelector, .delete,
    .recvErr]

/-- The next statement copies from a null netbuf. -/
theorem not_keepsDiscipline : ¬ ∀ tape, KeepsDiscipline tape := by
  intro disciplined
  obtain ⟨n, found, _⟩ := (disciplined hangUpAtPrompt hangUpAtPrompt _ List.prefix_rfl rfl).applied rfl
  contradiction

end WirelessSpeakers.Soundness
