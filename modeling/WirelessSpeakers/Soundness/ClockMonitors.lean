import WirelessSpeakers.Soundness.ClockEdits
import WirelessSpeakers.Soundness.ClockRules

/-! # Clock monitors in internal modes

A monitor that is on shows that the external reference is selected and in use. Every entry into an
external mode starts with both monitors off and turns one on only when `IREFST` is clear. The exits
turn off one monitor each, `CME0` or, in `fee_fei_rtc`, `CME1`, so the invariant breaks exactly where
an exit is called with the other one on.
-/

namespace WirelessSpeakers.Soundness

open Model Program TapeMachine

/-- Both monitors are off. -/
@[mk_iff]
structure MonitorsOff (r : ClockRegisters) : Prop where
  cme0 : r.mcg.cme0 = false
  cme1 : r.mcg.cme1 = false

/-- The external reference is selected and in use. -/
structure External (r : ClockRegisters) (v : ClockStatus) : Prop where
  irefs : r.mcg.irefs = false
  irefst : v.irefst = false

/-- The monitors are off, or the external reference is in use. -/
def Monitored (r : ClockRegisters) (v : ClockStatus) : Prop := MonitorsOff r ∨ External r v

/-- The monitor that the call does not turn off is off already. -/
def LeavesNoMonitor (x : Transition) (mcg : Mcg) : Prop :=
  match x with
  | .feeFeiRtc _ => mcg.cme0 = false
  | .fbeFei _ | .fbeFbi .. | .feeFbi .. | .feeFei _ => mcg.cme1 = false
  | _ => True

instance (x : Transition) (mcg : Mcg) : Decidable (LeavesNoMonitor x mcg) :=
  match x with
  | .feeFeiRtc _ => inferInstanceAs (Decidable (mcg.cme0 = false))
  | .fbeFei _ | .fbeFbi .. | .feeFbi .. | .feeFei _ => inferInstanceAs (Decidable (mcg.cme1 = false))
  | .pllInit .. | .peePbe _ | .pbePee _ | .pbeFbe _ | .fbePbe .. | .pbeBlpe _ | .blpePbe ..
  | .blpeFbe _ | .fbeBlpe _ | .feiFbe .. | .fbeFee _ | .feeFbe _ | .fbiFbe .. | .fbiBlpi ..
  | .blpiFbi .. | .fbiFee .. | .fbiFei _ | .feiFbi .. | .feiFee .. | .feiFeeRtc _ => isTrue trivial

/-- What a call owes: the invariant, where it may rely on its condition. -/
abbrev monitoring (x : Transition) : Contract ClockRegisters ClockStatus :=
  ⟨mcgHardware, fun r => LeavesNoMonitor x r.mcg, Monitored⟩

theorem external_stable : mcgHardware.Stable External := by
  rintro r v move w ⟨irefs, irefst⟩ moved
  refine ⟨irefs, ?_⟩
  cases move with
  | irefst =>
    cases moved
    exact irefs
  | clkst =>
    obtain ⟨x, _, rfl⟩ := Option.map_eq_some_iff.mp moved
    exact irefst
  | pllst | ircst | oscinit0 | lock0 | rtc =>
    cases moved
    exact irefst

theorem monitored_stable : mcgHardware.Stable Monitored := by
  rintro r v move w (off | external) moved
  · exact .inl off
  · exact .inr (external_stable r v move w external moved)

section

variable {x : Transition} {r : ClockRegisters} {v : ClockStatus} {α : Type} {q : ClockDriver α}
  {next : α → ClockDriver ℤ} {rest : ClockDriver ℤ} {mode : ClockMode}

/-- Both monitors are off in a mode with the internal reference. -/
theorem Monitored.guard (held : Monitored r v)
    (passed : ∀ w, Monitored r w → (mode.irefst = true → MonitorsOff r) →
      rest.Ensures (monitoring x) (fun _ => Monitored) r w) :
    (do requireMode mode; rest).Ensures (monitoring x) (fun _ => Monitored) r v := by
  refine ensures_guard (fun w reach seen => ?_) fun w reach _ => ?_
  · apply passed w (monitored_stable.reach held reach)
    intro internal
    obtain ⟨u, before, _, irefst⟩ := seen.irefst
    apply held.resolve_right
    intro external
    have still := external_stable.reach external before
    rw [still.irefst, internal] at irefst
    cases irefst
  · exact monitored_stable.reach held reach

/-- A part that keeps the monitors off. -/
theorem MonitorsOff.bind (off : MonitorsOff r)
    (keeps : q.Stores (fun f => ∀ r, MonitorsOff r → MonitorsOff (f r)) fun _ => True)
    (rest : ∀ a r w, MonitorsOff r → (next a).Ensures (monitoring x) (fun _ => Monitored) r w) :
    (q >>= next).Ensures (monitoring x) (fun _ => Monitored) r v := by
  have keeps : q.Keeps (monitoring x) fun r _ => MonitorsOff r :=
    keeps.mono fun f off r _ _ => off r
  apply keeps.bind _ (fun _ _ => .inl) off (fun _ _ _ => .inl) rest
  exact fun _ _ _ _ off _ => off

/-- An edit that keeps the monitors off. -/
theorem MonitorsOff.edit {e : ClockEdit} (off : MonitorsOff (e.apply r))
    (after : ∀ w, MonitorsOff (e.apply r) →
      rest.Ensures (monitoring x) (fun _ => Monitored) (e.apply r) w) :
    (do ClockDriver.edit e; rest).Ensures (monitoring x) (fun _ => Monitored) r v :=
  ensures_bind.mpr fun w _ _ => ⟨.inl off, after w off⟩

/-- An exit turns off one monitor, and finds the other off. -/
theorem ensures_disable {e : ClockEdit} (off : LeavesNoMonitor x r.mcg → MonitorsOff (e.apply r))
    (after : ∀ w, MonitorsOff (e.apply r) →
      rest.Ensures (monitoring x) (fun _ => Monitored) (e.apply r) w) :
    (do ClockDriver.edit e; rest).Ensures (monitoring x) (fun _ => Monitored) r v :=
  ensures_bind.mpr fun w _ permitted => ⟨.inl (off permitted), after w (off permitted)⟩

/-- With the monitors off, the external reference is waited for. -/
theorem MonitorsOff.pollIrefst (off : MonitorsOff r) (irefs : r.mcg.irefs = false)
    (arrived : ∀ w, External r w → rest.Ensures (monitoring x) (fun _ => Monitored) r w) :
    (do waitIrefst false; rest).Ensures (monitoring x) (fun _ => Monitored) r v := by
  refine ensures_bind.mpr (ensures_wait.mpr fun w _ => ⟨fun seen => ?_, fun _ => .inl off⟩)
  exact arrived w ⟨irefs, eq_of_beq seen⟩

/-- Only for a crystal the oscillator is waited for. -/
theorem MonitorsOff.pollOscinit {cond : Bool} {n : ℕ} (off : MonitorsOff r)
    (after : ∀ w, rest.Ensures (monitoring x) (fun _ => Monitored) r w) :
    (do ClockDriver.onlyIf cond (waitOscinit n); rest).Ensures (monitoring x)
      (fun _ => Monitored) r v := by
  refine ensures_bind.mpr (ensures_onlyIf.mpr ⟨fun _ => ?_, fun _ => after v⟩)
  exact ensures_wait.mpr fun w _ => ⟨fun _ => after w, fun _ => .inl off⟩

/-- The rest of a call in an external mode. -/
theorem External.done (external : External r v)
    (keeps : rest.Stores (fun f => ∀ r v, External r v → External (f r) v) fun _ => True) :
    rest.Ensures (monitoring x) (fun _ => Monitored) r v := by
  have keeps : rest.Keeps (monitoring x) External := keeps.mono fun f kept r v _ => kept r v
  exact (keeps.ensures external_stable (fun _ _ => .inr) external).mono fun _ _ _ => .inr

/-- The rest of a call with the monitors off. -/
theorem MonitorsOff.done (off : MonitorsOff r)
    (keeps : rest.Stores (fun f => ∀ r, MonitorsOff r → MonitorsOff (f r)) fun _ => True) :
    rest.Ensures (monitoring x) (fun _ => Monitored) r v := by
  rw [← bind_pure rest]
  exact off.bind keeps fun _ _ _ off => .inl off

/-- Most exits turn off `CME0`, and no monitor on again. -/
theorem ensures_disableMonitor (leaves : ∀ mcg, LeavesNoMonitor x mcg → mcg.cme1 = false)
    (keeps : rest.Stores (fun f => ∀ r, MonitorsOff r → MonitorsOff (f r)) fun _ => True) :
    (do disableMonitor; rest).Ensures (monitoring x) (fun _ => Monitored) r v := by
  apply ensures_disable
  · intro left
    exact ⟨by simp, by simpa using leaves _ left⟩
  · exact fun w off => off.done keeps

/-- Checks come before the first edit. -/
theorem Monitored.bind (held : Monitored r v)
    (keeps : q.Stores (fun f => ∀ r v, Monitored r v → Monitored (f r) v) fun _ => True)
    (rest : ∀ a r w, Monitored r w → (next a).Ensures (monitoring x) (fun _ => Monitored) r w) :
    (q >>= next).Ensures (monitoring x) (fun _ => Monitored) r v := by
  have keeps : q.Keeps (monitoring x) Monitored := keeps.mono fun f kept r v _ => kept r v
  exact keeps.bind monitored_stable (fun _ _ => id) held (fun _ _ _ => id) rest

end

section

variable {x : Transition} {m : ClockMode} {c p d f : ℤ} {h e s range : BitVec 8} {r : ClockRegisters}
  {v : ClockStatus}

theorem MonitorsOff.congr {r' : ClockRegisters} (off : MonitorsOff r) (cme0 : r'.mcg.cme0 = r.mcg.cme0)
    (cme1 : r'.mcg.cme1 = r.mcg.cme1) : MonitorsOff r' :=
  ⟨cme0.trans off.cme0, cme1.trans off.cme1⟩

theorem External.congr {r' : ClockRegisters} (external : External r v)
    (irefs : r'.mcg.irefs = r.mcg.irefs) : External r' v :=
  ⟨irefs.trans external.irefs, external.irefst⟩

theorem monitored_congr {r' : ClockRegisters} (held : Monitored r v)
    (cme0 : r'.mcg.cme0 = r.mcg.cme0) (cme1 : r'.mcg.cme1 = r.mcg.cme1)
    (irefs : r'.mcg.irefs = r.mcg.irefs) : Monitored r' v :=
  held.imp (fun off => off.congr cme0 cme1) fun external => external.congr irefs

/-- Calls that write neither a monitor nor `IREFS`. -/
theorem ensures_monitored_of_edits (held : Monitored r v)
    (aside : ∀ a ∈ x.edits, ∀ r, (a.apply r).mcg.cme0 = r.mcg.cme0 ∧
      (a.apply r).mcg.cme1 = r.mcg.cme1 ∧ (a.apply r).mcg.irefs = r.mcg.irefs) :
    x.program.Ensures (monitoring x) (fun _ => Monitored) r v := by
  refine (Stores.ensures (k := monitoring x) x.stores_program monitored_stable ?_ (fun _ _ => id) held)
  rintro _ ⟨a, member, rfl⟩ r v _ held
  obtain ⟨cme0, cme1, irefs⟩ := aside a member r
  exact monitored_congr held cme0 cme1 irefs

/-- The writes of `C2` and `C1` and the polls for the external reference. -/
theorem MonitorsOff.enterExternal {clks : BitVec 8} {n : ℕ} {rest : ClockDriver ℤ} (off : MonitorsOff r)
    (keeps : rest.Stores (fun f => ∀ r v, External r v → External (f r) v) fun _ => True) :
    (do
      ClockDriver.edit (oscillatorEdit range h e)
      ClockDriver.edit (externalEdit clks (frdivVal c))
      ClockDriver.onlyIf (e ≠ 0) (waitOscinit n)
      waitIrefst false
      rest).Ensures (monitoring x) (fun _ => Monitored) r v := by
  apply MonitorsOff.edit (off.congr (by simp [oscillatorEdit]) (by simp [oscillatorEdit]))
  intro v off
  apply MonitorsOff.edit (off.congr (by simp [externalEdit]) (by simp [externalEdit]))
  intro v off
  apply off.pollOscinit
  intro v
  exact off.pollIrefst (by simp [externalEdit]) fun v external => external.done keeps

/-- `fei_fbe` and `fbi_fbe`, behind the guard. -/
theorem ensures_toFbe_monitored (off : MonitorsOff r) :
    (toFbe c h e).Ensures (monitoring x) (fun _ => Monitored) r v := by
  apply off.bind (by simp [checkCrystalMax])
  intro _ r v off
  apply off.bind (by simp [checkCrystal])
  intro _ r v off
  apply off.enterExternal
  simp only [waitClkst, enableMonitor, stores_bind, stores_wait, stores_edit, stores_pure]
  exact fun _ _ => ⟨fun r v external => external.congr (by simp), trivial⟩

theorem ensures_pllInit_monitored (select : BitVec 8) (held : Monitored r v) :
    (pllInit c h e p d select).Ensures (monitoring x) (fun _ => Monitored) r v := by
  apply held.guard
  intro v held internal
  have off := internal rfl
  apply off.bind (by simp [checkCrystalMax])
  intro _ r v off
  apply off.bind (by simp)
  intro _ r v off
  apply off.bind (by simp [checkDividers])
  intro _ r v off
  apply off.bind (by simp [checkReference])
  intro _ r v off
  apply off.bind (by simp [checkOutput])
  intro _ r v off
  apply off.enterExternal
  have kept (a : ClockEdit) (aside : ∀ r, (a.apply r).mcg.irefs = r.mcg.irefs) (r : ClockRegisters)
      (v : ClockStatus) (external : External r v) : External (a.apply r) v := external.congr (aside r)
  simp only [waitClkst, enableMonitor, waitPllst, waitLock, switchToPll, stores_bind, stores_wait,
    stores_edit, stores_look, stores_pure]
  refine fun _ _ => ⟨kept _ (by simp), kept _ (by simp [prdivEdit]), kept _ (by simp [vdivEdit]), ?_⟩
  exact fun _ _ _ _ _ _ => ⟨kept _ (by simp), fun _ _ => trivial⟩

/-- The common head of `fbi_fee` and `fei_fee`, up to the edit of `C1`. -/
theorem ensures_toFee_monitored {next : ℤ → ClockDriver ℤ} (off : MonitorsOff r)
    (rest : ∀ a r w, MonitorsOff r → r.mcg.irefs = false →
      (next a).Ensures (monitoring x) (fun _ => Monitored) r w) :
    (toFee c h e >>= next).Ensures (monitoring x) (fun _ => Monitored) r v := by
  simp only [toFee, bind_assoc]
  apply off.bind (by simp [checkCrystalMax])
  intro _ r v off
  apply off.bind (by simp [checkCrystal])
  intro _ r v off
  apply MonitorsOff.edit (off.congr (by simp [oscillatorEdit]) (by simp [oscillatorEdit]))
  intro v off
  apply off.bind (by simp)
  intro _ r v off
  apply off.bind (by simp [checkFll])
  intro out r v off
  apply MonitorsOff.edit (off.congr (by simp [externalEdit]) (by simp [externalEdit]))
  intro v off
  exact rest out _ v off (by simp [externalEdit])

theorem ensures_fbiFee_monitored (held : Monitored r v) :
    (fbiFee c h e).Ensures (monitoring x) (fun _ => Monitored) r v := by
  apply held.guard
  intro v held internal
  apply ensures_toFee_monitored (internal rfl)
  intro out r v off irefs
  apply off.pollOscinit
  intro v
  refine off.pollIrefst irefs fun v external => external.done ?_
  simp only [waitClkst, enableMonitor, stores_bind, stores_wait, stores_edit, stores_pure]
  exact fun _ _ => ⟨fun r v external => external.congr (by simp), trivial⟩

theorem ensures_feiFee_monitored (held : Monitored r v) :
    (feiFee c h e).Ensures (monitoring x) (fun _ => Monitored) r v := by
  apply held.guard
  intro v held internal
  apply ensures_toFee_monitored (internal rfl)
  intro out r v off irefs
  apply off.pollOscinit
  intro v
  refine off.pollIrefst irefs fun v external => external.done ?_
  simp only [enableMonitor, stores_bind, stores_edit, stores_pure]
  exact ⟨fun r v external => external.congr (by simp), trivial⟩

/-- The RTC registers have no part in it. -/
theorem ensures_feiFeeRtc_monitored (held : Monitored r v) :
    (feiFeeRtc f).Ensures (monitoring x) (fun _ => Monitored) r v := by
  apply held.guard
  intro v held internal
  have off := internal rfl
  apply off.bind (by simp)
  intro _ r v off
  apply off.bind (by simp +contextual [enableRtc, monitorsOff_iff])
  intro flags r v off
  apply off.bind (by simp [rtcCount])
  intro count r v off
  apply off.bind (by simp)
  intro _ r v off
  apply off.bind (by simp)
  intro counted r v off
  apply off.bind (by simp +contextual [restoreRtc, monitorsOff_iff])
  intro _ r v off
  apply off.bind (by simp +contextual [restoreRtc, monitorsOff_iff])
  intro _ r v off
  apply MonitorsOff.edit (off.congr (by simp) (by simp))
  intro v off
  apply MonitorsOff.edit (off.congr (by simp) (by simp))
  intro v off
  refine off.pollIrefst (by simp) fun v external => external.done ?_
  simp only [checkFll, stores_bind, stores_look, stores_failIf, stores_edit, stores_pure]
  exact fun _ _ => ⟨fun r v external => external.congr (by simp), trivial⟩

/-- The guard and the checks of an exit to FEI. -/
theorem ensures_checked_monitored {next : ℤ → ClockDriver ℤ} (held : Monitored r v)
    (rest : ∀ a r w, (next a).Ensures (monitoring x) (fun _ => Monitored) r w) :
    (do requireMode m; checkSlowIrc f; checkFll f >>= next).Ensures (monitoring x)
      (fun _ => Monitored) r v := by
  apply held.guard
  intro v held _
  apply held.bind (by simp [checkSlowIrc])
  intro _ r v held
  exact held.bind (by simp [checkFll]) fun out r v _ => rest out r v

theorem ensures_fbeFei_monitored (held : Monitored r v) :
    (fbeFei f).Ensures (monitoring (.fbeFei f)) (fun _ => Monitored) r v := by
  apply ensures_checked_monitored held
  intro out r v
  refine ensures_disableMonitor (fun _ cme1 => cme1) ?_
  simp +contextual [waitIrefst, waitClkst, monitorsOff_iff]

theorem ensures_feeFei_monitored (held : Monitored r v) :
    (feeFei f).Ensures (monitoring (.feeFei f)) (fun _ => Monitored) r v := by
  apply ensures_checked_monitored held
  intro out r v
  refine ensures_disableMonitor (fun _ cme1 => cme1) ?_
  simp +contextual [waitIrefst, monitorsOff_iff]

theorem ensures_feeFeiRtc_monitored (held : Monitored r v) :
    (feeFeiRtc f).Ensures (monitoring (.feeFeiRtc f)) (fun _ => Monitored) r v := by
  apply ensures_checked_monitored held
  intro out r v
  apply ensures_disable
  · intro cme0
    exact ⟨by simpa [LeavesNoMonitor] using cme0, by simp⟩
  intro v off
  apply off.done
  simp +contextual [waitIrefst, monitorsOff_iff]

/-- The guard, the check and the edit of `IRCS` of an exit to FBI. -/
theorem ensures_ircs_monitored {rest : ClockDriver ℤ} (held : Monitored r v)
    (after : ∀ r w, rest.Ensures (monitoring x) (fun _ => Monitored) r w) :
    (do requireMode m; checkIrc f s; ClockDriver.edit (ircsEdit s); rest).Ensures (monitoring x)
      (fun _ => Monitored) r v := by
  apply held.guard
  intro v held _
  apply held.bind (by simp [checkIrc, checkSlowIrc])
  intro _ r v held
  refine held.bind (stores_edit.mpr ⟨fun r v held => ?_, trivial⟩) fun _ r v _ => after r v
  exact monitored_congr held (by simp [ircsEdit_eq]) (by simp [ircsEdit_eq]) (by simp [ircsEdit_eq])

theorem ensures_fbeFbi_monitored (held : Monitored r v) :
    (fbeFbi f s).Ensures (monitoring (.fbeFbi f s)) (fun _ => Monitored) r v := by
  apply ensures_ircs_monitored held
  intro r v
  refine ensures_disableMonitor (fun _ cme1 => cme1) ?_
  simp +contextual [waitIrcst, waitClkst, waitIrefst, ircOut, monitorsOff_iff]

theorem ensures_feeFbi_monitored (held : Monitored r v) :
    (feeFbi f s).Ensures (monitoring (.feeFbi f s)) (fun _ => Monitored) r v := by
  apply ensures_ircs_monitored held
  intro r v
  refine ensures_disableMonitor (fun _ cme1 => cme1) ?_
  simp +contextual [waitIrcst, waitClkst, waitIrefst, ircOut, monitorsOff_iff]

/-- FBI is left for FEI with the monitors off since its entry. -/
theorem ensures_fbiFei_monitored (held : Monitored r v) :
    (fbiFei f).Ensures (monitoring x) (fun _ => Monitored) r v := by
  refine held.guard fun v _ internal => (internal rfl).done ?_
  simp +contextual [checkSlowIrc, checkFll, waitIrefst, waitClkst, monitorsOff_iff]

/-- Every call keeps the invariant under its condition. -/
theorem ensures_program_monitored (x : Transition) (held : Monitored r v) :
    x.program.Ensures (monitoring x) (fun _ => Monitored) r v := by
  cases x with
  | pllInit c h e p d select => exact ensures_pllInit_monitored select held
  | feiFbe => exact held.guard fun v _ internal => ensures_toFbe_monitored (internal rfl)
  | fbiFbe => exact held.guard fun v _ internal => ensures_toFbe_monitored (internal rfl)
  | fbiFee => exact ensures_fbiFee_monitored held
  | feiFee => exact ensures_feiFee_monitored held
  | feiFeeRtc => exact ensures_feiFeeRtc_monitored held
  | fbeFei => exact ensures_fbeFei_monitored held
  | feeFei => exact ensures_feeFei_monitored held
  | feeFeiRtc => exact ensures_feeFeiRtc_monitored held
  | fbeFbi => exact ensures_fbeFbi_monitored held
  | feeFbi => exact ensures_feeFbi_monitored held
  | fbiFei => exact ensures_fbiFei_monitored held
  | peePbe | pbePee | pbeFbe | fbePbe | pbeBlpe | blpePbe | blpeFbe | fbeBlpe | fbeFee | feeFbe
  | fbiBlpi | blpiFbi | feiFbi =>
    apply ensures_monitored_of_edits held
    simp [Transition.edits, prdivEdit, vdivEdit, ircsEdit_eq]

end

/-- In a run in which `fee_fei_rtc` never writes while `CME0` is set, and no other exit to an internal
mode while `CME1` is, both monitors are off in every state in which `what_mcg_mode` can report FEI, FBI
or BLPI. -/
theorem monitors_off {r : ClockRegisters} {v : ClockStatus} (cme0 : r.mcg.cme0 = false)
    (cme1 : r.mcg.cme1 = false) {tape : List (SessionEvent Transition ClockMove)} {s : ClockSession}
    (paired : ∀ u x, (clockSessions r v).Takes tape u .access → u.Writes x →
      LeavesNoMonitor x u.registers.mcg) (visit : (clockSessions r v).Visits tape s)
    {mode : ClockMode} {r' : ClockRegisters} {v' : ClockStatus}
    (reported : whatMcgMode.Runs mcgHardware s.registers s.status (.ok (some mode)) r' v')
    (internal : mode ∈ [.fei, .fbi, .blpi]) :
    s.registers.mcg.cme0 = false ∧ s.registers.mcg.cme1 = false := by
  have invariant : Session.Invariant mcgHardware Transition.program
      (fun x r => LeavesNoMonitor x r.mcg) Monitored (fun _ => Monitored) r v := by
    refine ⟨.inl ⟨cme0, cme1⟩, fun _ => monitored_stable, monitored_stable, fun _ _ _ => id, ?_⟩
    exact fun _ x r v held => ensures_program_monitored x held
  have held := (invariant.sound paired visit).1
  obtain ⟨_, seen⟩ := ensures_plain_iff.mp (ensures_firstMode (k := mcgHardware.plain)) _ _ _ reported
  obtain ⟨u, before, _, irefst⟩ := (seen mode rfl).irefst
  have uses : mode.irefst = true := by
    revert internal
    cases mode <;> decide
  rcases held with off | external
  · exact ⟨off.cme0, off.cme1⟩
  · have still := external_stable.reach external before
    rw [still.irefst, uses] at irefst
    cases irefst

/-- From FEI to FEE behind the oscillator and back by `exit`. -/
def feeTape (exit : Transition) (rest : ℕ) : List (SessionEvent Transition ClockMove) :=
  [[.call (.feiFee 8000000 0 0)], List.replicate 7 .access, [.move .irefst],
    List.replicate 4 .access, [.call exit], List.replicate 6 .access, [.move .irefst],
    List.replicate rest .access].flatten

theorem monitors_off_fee_fei : ∃ s r' v',
    (clockSessions resetRegisters resetStatus).run (feeTape (.feeFei 32768) 3) = some s ∧
      whatMcgMode.Runs mcgHardware s.registers s.status (.ok (some .fei)) r' v' ∧
      s.registers.mcg.cme0 = false ∧ s.registers.mcg.cme1 = false := by
  have reports : ((clockSessions resetRegisters resetStatus).run (feeTape (.feeFei 32768) 3)).bind
      (fun s => (whatMcgMode.replay mcgHardware [] s.registers s.status).map Prod.fst) =
        some (.ok (some .fei)) := by decide
  obtain ⟨s, ran, reported⟩ := Option.bind_eq_some_iff.mp reports
  obtain ⟨⟨_, r', v'⟩, replayed, rfl⟩ := Option.map_eq_some_iff.mp reported
  have run := Runs.of_replay replayed
  refine ⟨s, r', v', ran, run, monitors_off (by decide) (by decide) ?_ (visits_of_run ran) run
    (by decide)⟩
  intro u x taken writes
  have tested := taken.test (p := fun s _ => s.testWrites fun x r => decide (LeavesNoMonitor x r.mcg))
    (by decide)
  exact of_decide_eq_true (writes.test tested)

/-- `fee_fei_rtc` goes to FEI with `CME0` on where `fei_fee` has turned it on. -/
theorem monitor_left_on : ¬ ∀ tape s mode r' v',
    (clockSessions resetRegisters resetStatus).run tape = some s →
      whatMcgMode.Runs mcgHardware s.registers s.status (.ok (some mode)) r' v' →
      mode ∈ [.fei, .fbi, .blpi] → s.registers.mcg.cme0 = false ∧ s.registers.mcg.cme1 = false := by
  intro never
  have reports : ((clockSessions resetRegisters resetStatus).run (feeTape (.feeFeiRtc 32768) 4)).bind
      (fun s => (whatMcgMode.replay mcgHardware [] s.registers s.status).map fun left =>
        (left.1, s.registers.mcg.cme0)) = some (.ok (some .fei), true) := by decide
  obtain ⟨s, ran, reported⟩ := Option.bind_eq_some_iff.mp reports
  obtain ⟨⟨out, r', v'⟩, replayed, found⟩ := Option.map_eq_some_iff.mp reported
  obtain ⟨rfl, cme0⟩ := Prod.mk.inj found
  have off := never _ s .fei r' v' ran (Runs.of_replay replayed) (by decide)
  exact absurd (off.1.symm.trans cme0) Bool.false_ne_true

end WirelessSpeakers.Soundness
