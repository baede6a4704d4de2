import WirelessSpeakers.Soundness.Dividers

/-! # The limits of the PLL

Between calls for one crystal the PLL is off, or the programmed dividers keep its reference and its
output within their limits, whichever call has programmed them. `blpe_pbe` leaves out the check of the
output, so its arguments have to pass it.
-/

namespace WirelessSpeakers.Soundness

open Model Program TapeMachine

/-- The PLL is within its limits for this crystal. -/
structure InSpec (crystalVal : ℤ) (mcg : Mcg) : Prop where
  reference : 2000000 ≤ crystalVal.tdiv mcg.prdiv ∧ crystalVal.tdiv mcg.prdiv ≤ 4000000
  output : 48000000 ≤ crystalVal.tdiv mcg.prdiv * mcg.vdiv ∧
    crystalVal.tdiv mcg.prdiv * mcg.vdiv ≤ 100000000

/-- The arguments of `blpe_pbe` pass the check that `fbe_pbe` makes. -/
def OutputFits (x : Transition) : Prop :=
  match x with
  | .blpePbe c p d => c.tdiv p * d ≤ 100000000
  | _ => True

instance (x : Transition) : Decidable (OutputFits x) :=
  match x with
  | .blpePbe c p d => inferInstanceAs (Decidable (c.tdiv p * d ≤ 100000000))
  | .pllInit .. | .peePbe _ | .pbePee _ | .pbeFbe _ | .fbePbe .. | .pbeBlpe _ | .blpeFbe _
  | .fbeBlpe _ | .fbeFei _ | .feiFbe .. | .fbeFee _ | .feeFbe _ | .fbeFbi .. | .fbiFbe ..
  | .fbiBlpi .. | .blpiFbi .. | .fbiFee .. | .feeFbi .. | .fbiFei _ | .feiFbi .. | .feiFee ..
  | .feeFei _ | .feiFeeRtc _ | .feeFeiRtc _ => isTrue trivial

/-- The PLL is off, or within its limits. -/
def Ranged (c : ℤ) (r : ClockRegisters) (v : ClockStatus) : Prop := InSpec c r.mcg ∨ PllOff r v

theorem ranged_survives {c : ℤ} : Survives (Ranged c) where
  stable r v move w held moved := held.imp_right fun off => pllOff_stable r v move w off moved
  leaves f leaves r v held := by
    refine held.imp (fun inSpec => ?_) fun off => pllOff_survives.leaves f leaves r v off
    have prdiv : (f r).mcg.prdiv = r.mcg.prdiv := by rw [Mcg.prdiv, Mcg.prdiv, leaves.prdiv0]
    have vdiv : (f r).mcg.vdiv = r.mcg.vdiv := by rw [Mcg.vdiv, Mcg.vdiv, leaves.vdiv0]
    exact ⟨by rw [prdiv]; exact inSpec.reference, by rw [prdiv, vdiv]; exact inSpec.output⟩

section

variable {c p d : ℤ} {r : ClockRegisters} {v : ClockStatus} {out : Except ℤ ℤ}

theorem Programmed.inSpec {mcg : Mcg} (programmed : Programmed c p d mcg)
    (output : c.tdiv p * d ≤ 100000000) : InSpec c mcg := by
  have limits := product_limits programmed.reference programmed.factor
  obtain ⟨rfl, rfl, reference, _⟩ := programmed
  exact ⟨reference, limits.1, output⟩

theorem Divides.ranged (divides : Divides c p d (Ranged c) (c.tdiv p * d ≤ 100000000) out r v) :
    Ranged c r v := by
  rcases divides with ⟨before, _⟩ | ⟨programmed, output⟩
  · exact before
  · exact .inl (programmed.inSpec output)

/-- The check of the output bounds the product itself. -/
theorem output_of_pllFits (fits : PllFits c p d) : c.tdiv p * d ≤ 100000000 := by
  obtain ⟨_, factor, reference, _, output⟩ := fits
  rwa [int_product reference factor] at output

theorem ensures_ranged (x : Transition) (same : ∀ c', x.crystalVal? = some c' → c' = c)
    (ranged : Ranged c r v) :
    x.program.Ensures (underCondition fun _ => OutputFits x) (fun _ => Ranged c) r v := by
  cases x with
  | pllInit _ _ _ _ _ select =>
    obtain rfl := same _ rfl
    refine (ensures_pllInit_divides select ranged_survives ranged ?_).mono fun _ _ _ =>
      Divides.ranged
    exact fun _ _ => output_of_pllFits
  | fbePbe =>
    obtain rfl := same _ rfl
    refine (ensures_fbePbe_divides ranged_survives ranged ?_).mono fun _ _ _ => Divides.ranged
    exact fun _ _ => output_of_pllFits
  | blpePbe =>
    obtain rfl := same _ rfl
    refine (ensures_blpePbe_divides ranged_survives ranged ?_).mono fun _ _ _ => Divides.ranged
    exact fun _ => id
  | _ => exact ensures_survives ranged_survives rfl ranged

end

theorem ranged_invariant {c : ℤ} {r : ClockRegisters} {v : ClockStatus} (reset : AtReset r v) :
    Session.Invariant mcgHardware Transition.program (fun x _ => OutputFits x) (fun _ _ => True)
      (fun log r v => OneCrystal c log → Ranged c r v) r v where
  start _ := .inr ⟨reset.plls, reset.pllst⟩
  stable log r v move w ranged moved one := ranged_survives.stable r v move w (ranged one) moved
  stays _ _ _ _ _ _ := trivial
  enough _ _ _ _ := trivial
  calls log x r v ranged := by
    by_cases one : OneCrystal c log ∧ ∀ c', x.crystalVal? = some c' → c' = c
    · obtain ⟨earlier, same⟩ := one
      exact (ensures_ranged x same (ranged earlier)).mono fun _ _ _ ranged _ => ranged
    · refine ensures_of_forall (fun _ _ => trivial) fun out r v longer => absurd ?_ one
      exact ⟨longer.init, longer (x, out) (by simp)⟩

/-- In a run in which `blpe_pbe` only writes with arguments that pass the check of the output, and all
calls so far have the same crystal, the PLL is within its limits whenever `what_mcg_mode` can report PBE
or PEE between calls. -/
theorem pll_in_spec {r : ClockRegisters} {v : ClockStatus} (reset : AtReset r v)
    {tape : List (SessionEvent Transition ClockMove)} {s : ClockSession}
    (fits : ∀ u x, (clockSessions r v).Takes tape u .access → u.Writes x → OutputFits x)
    (visit : (clockSessions r v).Visits tape s) (idle : s.running = none) {c : ℤ}
    (crystal : OneCrystal c s.log) {mode : ClockMode} {r' : ClockRegisters} {v' : ClockStatus}
    (reported : whatMcgMode.Runs mcgHardware s.registers s.status (.ok (some mode)) r' v')
    (pll : mode ∈ [.pbe, .pee]) : InSpec c s.registers.mcg := by
  have ranged := ((ranged_invariant reset).sound fits visit).2 idle crystal
  obtain ⟨_, seen⟩ := ensures_plain_iff.mp (ensures_firstMode (k := mcgHardware.plain)) _ _ _ reported
  have wanted : true ∈ mode.pllst := by
    revert pll
    cases mode <;> decide
  obtain ⟨u, before, _, pllst⟩ := (seen mode rfl).pllst true wanted
  apply ranged.resolve_right
  intro off
  have still := pllOff_stable.reach off before
  exact absurd (pllst.symm.trans still.pllst) (by decide)

/-- From FEI over FBE and BLPE to PBE. -/
def blpePbeTape (c p d : ℤ) : List (SessionEvent Transition ClockMove) :=
  [[.call (.feiFbe c 0 0)], List.replicate 5 .access, [.move .irefst, .move .clkst],
    List.replicate 6 .access, [.call (.fbeBlpe c)], List.replicate 6 .access,
    [.call (.blpePbe c p d)], List.replicate 6 .access, [.move .pllst, .move (.lock0 true)],
    List.replicate 5 .access].flatten

theorem pll_in_spec_96MHz : ∃ s r' v',
    (clockSessions resetRegisters resetStatus).run (blpePbeTape 8000000 2 24) = some s ∧
      whatMcgMode.Runs mcgHardware s.registers s.status (.ok (some .pbe)) r' v' ∧
      InSpec 8000000 s.registers.mcg := by
  have reports : ((clockSessions resetRegisters resetStatus).run (blpePbeTape 8000000 2 24)).bind
      (fun s => (whatMcgMode.replay mcgHardware [] s.registers s.status).map fun left =>
        (left.1, s.running.isNone, s.log)) = some (.ok (some .pbe), true,
          [(.feiFbe 8000000 0 0, .ok 8000000), (.fbeBlpe 8000000, .ok 8000000),
            (.blpePbe 8000000 2 24, .ok 8000000)]) := by decide +kernel
  obtain ⟨s, ran, reported⟩ := Option.bind_eq_some_iff.mp reports
  obtain ⟨⟨out, r', v'⟩, replayed, found⟩ := Option.map_eq_some_iff.mp reported
  simp only [Prod.mk.injEq, Option.isNone_iff_eq_none] at found
  obtain ⟨rfl, idle, log⟩ := found
  have crystal : OneCrystal 8000000 s.log := by simp [OneCrystal, log, Transition.crystalVal?]
  have run := Runs.of_replay replayed
  refine ⟨s, r', v', ran, run, pll_in_spec atReset_reset ?_ (visits_of_run ran) idle crystal run
    (by decide)⟩
  intro u x taken writes
  have tested := taken.test (p := fun s _ => s.testWrites fun x _ => decide (OutputFits x))
    (by decide +kernel)
  exact of_decide_eq_true (writes.test tested)

/-- `blpe_pbe` with 50 MHz, 13 and 55 succeeds, and the PLL runs at 211 MHz. -/
theorem pll_out_of_spec : ¬ ∀ tape s c x f mode r' v',
    (clockSessions resetRegisters resetStatus).run tape = some s → s.running = none →
      OneCrystal c s.log → s.log.getLast? = some (x, .ok f) →
      whatMcgMode.Runs mcgHardware s.registers s.status (.ok (some mode)) r' v' →
      mode ∈ [.pbe, .pee] → InSpec c s.registers.mcg := by
  intro always
  have reports : ((clockSessions resetRegisters resetStatus).run (blpePbeTape 50000000 13 55)).bind
      (fun s => (whatMcgMode.replay mcgHardware [] s.registers s.status).map fun left =>
        (left.1, s.running.isNone, s.log)) = some (.ok (some .pbe), true,
          [(.feiFbe 50000000 0 0, .ok 50000000), (.fbeBlpe 50000000, .ok 50000000),
            (.blpePbe 50000000 13 55, .ok 50000000)]) := by decide +kernel
  have output : ((clockSessions resetRegisters resetStatus).run (blpePbeTape 50000000 13 55)).map
      (fun s => (50000000 : ℤ).tdiv s.registers.mcg.prdiv * s.registers.mcg.vdiv) = some 211538415 := by
    decide +kernel
  obtain ⟨s, ran, reported⟩ := Option.bind_eq_some_iff.mp reports
  obtain ⟨⟨out, r', v'⟩, replayed, found⟩ := Option.map_eq_some_iff.mp reported
  simp only [Prod.mk.injEq, Option.isNone_iff_eq_none] at found
  obtain ⟨rfl, idle, log⟩ := found
  have crystal : OneCrystal 50000000 s.log := by simp [OneCrystal, log, Transition.crystalVal?]
  have last : s.log.getLast? = some (.blpePbe 50000000 13 55, .ok 50000000) := by simp [log]
  have inSpec := always _ s _ _ _ .pbe r' v' ran idle crystal last (Runs.of_replay replayed) (by decide)
  rw [ran, Option.map_some, Option.some.injEq] at output
  have limit := inSpec.output.2
  omega

end WirelessSpeakers.Soundness
