import WirelessSpeakers.Soundness.ModeAutomaton

/-! # The two ways to start up

`main` reaches PEE in four calls, or in one call of `pll_init`. Each call of the first way leaves its
mode and its registers to the next, and each of its checks is one that `pll_init` makes too, or
follows from those. The `IRCS` write of `fei_fbi` and its detour of `C1` leave nothing behind.
-/

namespace WirelessSpeakers.Soundness

open Model Program TapeMachine

/-- An assertion about what a sequence of calls has returned and the registers it leaves. -/
def Collects (P : List (Except ℤ ℤ) → ClockRegisters → Prop) :
    Except ℤ (List (Except ℤ ℤ)) → ClockRegisters → ClockStatus → Prop :=
  fun res r _ => ∀ outs, res = .ok outs → P outs r

section

variable {r : ClockRegisters} {v : ClockStatus} {P : List (Except ℤ ℤ) → ClockRegisters → Prop}

/-- The rule of a sequence of calls. -/
theorem ensures_calls_cons {x : Transition} {list : List Transition}
    (first : x.program.Ensures onHardware (fun out =>
      (calls list).Ensures onHardware (Collects fun outs => P (out :: outs))) r v) :
    (calls (x :: list)).Ensures onHardware (Collects P) r v := by
  simp only [calls, List.mapM_cons, ensures_bind, ensures_attempt]
  apply first.mono
  intro out r v rest
  refine ensures_bind.mpr (rest.mono fun res r v collected => ?_)
  cases res with
  | error e => exact fun _ same => by cases same
  | ok outs =>
    rintro _ ⟨⟩
    exact collected outs rfl

theorem ensures_calls_nil (done : P [] r) : (calls []).Ensures onHardware (Collects P) r v := by
  rintro _ ⟨⟩
  exact done

theorem ensures_calls_of_forall {list : List Transition} (all : ∀ outs r, P outs r) :
    (calls list).Ensures onHardware (Collects P) r v :=
  ensures_of_forall (fun _ _ => trivial) fun _ r _ outs _ => all outs r

end

/-- Unless a poll times out, all calls succeed exactly if `fits`, and then the last one returns `f`
and the registers are `r'`. -/
def Completes (fits : Prop) (f : ℤ) (r' : ClockRegisters) (outs : List (Except ℤ ℤ))
    (r : ClockRegisters) : Prop :=
  (∀ out ∈ outs, ¬ TimedOut out) →
    ((∀ out ∈ outs, ∃ f, out = .ok f) ↔ fits) ∧ (fits → outs.getLast? = some (.ok f) ∧ r = r')

namespace Completes

variable {fits : Prop} {f : ℤ} {r r' : ClockRegisters} {outs : List (Except ℤ ℤ)} {code : ℤ}

theorem late (timeout : code ∈ timeoutCodes) (member : .error code ∈ outs) :
    Completes fits f r' outs r :=
  fun timely => absurd ⟨code, timeout, rfl⟩ (timely _ member)

theorem refused (code : ℤ) (unfit : ¬ fits) (member : .error code ∈ outs) : Completes fits f r' outs r := by
  refine fun _ => ⟨⟨fun all => ?_, fun fit => absurd fit unfit⟩, fun fit => absurd fit unfit⟩
  obtain ⟨f, same⟩ := all _ member
  cases same

theorem passed (fit : fits) (all : ∀ out ∈ outs, ∃ f, out = .ok f)
    (last : outs.getLast? = some (.ok f)) : Completes fits f r outs r :=
  fun _ => ⟨⟨fun _ => fit, fun _ => all⟩, fun _ => ⟨last, rfl⟩⟩

end Completes

section

variable {irc c p d : ℤ} {h e select : BitVec 8} {r : ClockRegisters} {v : ClockStatus}

/-- The registers in PBE after the first three calls. -/
def startUpPbe (c p d : ℤ) (h e : BitVec 8) (r : ClockRegisters) : ClockRegisters :=
  (vdivEdit d).apply ((prdivEdit p).apply ((ClockEdit.c6 0 c6Cme0Mask).apply
    ((externalEdit 2 (frdivVal c)).apply ((oscillatorEdit (rangeVal c) h e).apply
      ((ClockEdit.c1 c1ClksMask (c1Clks 1)).apply ((ircsEdit 0).apply r))))))

/-- The registers in PBE on the way of `pll_init`. -/
def pllInitPbe (c p d : ℤ) (h e : BitVec 8) (r : ClockRegisters) : ClockRegisters :=
  (vdivEdit d).apply ((prdivEdit p).apply ((ClockEdit.c6 0 c6Cme0Mask).apply
    ((externalEdit 2 (frdivVal c)).apply
      ((oscillatorEdit (if c ≤ 8000000 then 1 else 2) h e).apply r))))

/-- The frequency of the PLL by the registers. -/
def pllOut (c : ℤ) (pbe : ClockRegisters) : ℤ := int (c.tdiv pbe.mcg.prdiv * pbe.mcg.vdiv)

/-- The four calls. -/
theorem ensures_startUp (holds : Holds .fei r.mcg v) (slow : IrcFits irc 0) :
    (startUp irc c h e p d).Ensures onHardware
      (Collects (Completes (CrystalFits c e ∧ PllFits c p d) (pllOut c (startUpPbe c p d h e r))
        ((ClockEdit.c1 c1ClksMask 0).apply (startUpPbe c p d h e r)))) r v := by
  refine ensures_calls_cons (ensures_feiFbi holds ?_ (absurd slow) fun _ a w holds => ?_)
  · exact fun code timeout r w => ensures_calls_of_forall fun outs r =>
      .late timeout List.mem_cons_self
  apply ensures_calls_cons
  apply holds.enter
  intro w holds
  refine ensures_toFbe holds rfl rfl ?_ (fun unfit w _ => ?_) fun crystal w holds => ?_
  · exact fun code timeout r w => ensures_calls_of_forall fun outs r => .late timeout (by simp)
  · exact ensures_calls_of_forall fun outs r => .refused (crystalCode c) (mt And.left unfit) (by simp)
  refine ensures_calls_cons (ensures_fbePbe holds ?_ (fun unfit code w _ => ?_) fun pll w holds => ?_)
  · exact fun code timeout r w => ensures_calls_of_forall fun outs r => .late timeout (by simp)
  · exact ensures_calls_of_forall fun outs r => .refused code (mt And.right unfit) (by simp)
  refine ensures_calls_cons (ensures_pbePee holds ?_ fun w holds => ensures_calls_nil ?_)
  · exact fun code timeout r w => ensures_calls_of_forall fun outs r => .late timeout (by simp)
  · exact .passed ⟨crystal, pll⟩ (by simp) rfl

/-- The one call. -/
theorem ensures_pllInit_completes (holds : Holds .fei r.mcg v) :
    (pllInit c h e p d select).Ensures onHardware (fun out r' _ =>
      Completes (InitFits c e p d) (pllOut c (pllInitPbe c p d h e r))
        ((ClockEdit.c1 c1ClksMask 0).apply (pllInitPbe c p d h e r)) [out] r') r v := by
  refine ensures_pllInit select holds ?_ (fun unfit code w _ => ?_) fun fits w _ => ?_
  · exact fun code timeout r w => .late timeout List.mem_cons_self
  · exact .refused code unfit List.mem_cons_self
  · exact .passed fits (by simp) rfl

/-- The low band of the oscillator cannot feed the PLL, so the checks agree. -/
theorem initFits_iff : InitFits c e p d ↔ CrystalFits c e ∧ PllFits c p d := by
  unfold InitFits CrystalFits
  constructor
  · rintro ⟨small, band, pll⟩
    refine ⟨⟨small, fun crystal => ?_⟩, pll⟩
    have within := band crystal
    omega
  · rintro ⟨⟨small, bands⟩, pll⟩
    have reference := le_of_tdiv (by decide) pll.1.1 pll.2.2.1.1
    refine ⟨small, fun crystal => ?_, pll⟩
    have within := bands crystal
    omega

/-- On either way the registers come out the same, if `IRCS` was 0 as it is out of reset. -/
theorem startUpPbe_eq (fits : PllFits c p d) (ircs : r.mcg.ircs = false) :
    ((ClockEdit.c1 c1ClksMask 0).apply (startUpPbe c p d h e r)).mcg =
      ((ClockEdit.c1 c1ClksMask 0).apply (pllInitPbe c p d h e r)).mcg := by
  have reference := le_of_tdiv (by decide) fits.1.1 fits.2.2.1.1
  have range : rangeVal c = if c ≤ 8000000 then 1 else 2 := by
    simp [rangeVal, show ¬ c ≤ 40000 by omega]
  have c1 (frdiv : BitVec 8) : assign (assign r.mcg.c1 c1ClksMask (c1Clks 1))
      (c1ClksMask ||| c1FrdivMask ||| c1IrefsMask) (c1Clks 2 ||| c1Frdiv frdiv) =
        assign r.mcg.c1 (c1ClksMask ||| c1FrdivMask ||| c1IrefsMask) (c1Clks 2 ||| c1Frdiv frdiv) :=
    assign_assign (by decide)
  have c2 : assign r.mcg.c2 c2IrcsMask 0 = r.mcg.c2 := by
    apply assign_cleared
    intro i within mask
    obtain rfl : i = 0 := by
      by_contra other
      revert mask
      revert i
      decide
    exact ircs
  simp only [startUpPbe, pllInitPbe, range, ClockEdit.apply, oscillatorEdit, externalEdit, prdivEdit,
    vdivEdit, ircsEdit, ne_eq, not_true_eq_false, if_false, c1, c2]

theorem pllOut_startUpPbe : pllOut c (startUpPbe c p d h e r) = pllOut c (pllInitPbe c p d h e r) := by
  rfl

end

/-- From reset, with `IRCS` 0 and a slow internal reference within its limits, and no poll timing out:
all four calls succeed exactly if `pll_init` does, and then both ways return the same frequency and
leave the same `C1`, `C2`, `C5` and `C6`. -/
theorem start_up_agrees {r : ClockRegisters} {v : ClockStatus} (reset : AtReset r v)
    (ircs : r.mcg.ircs = false) {irc c p d : ℤ} {h e select : BitVec 8} (slow : 31250 ≤ irc ∧ irc ≤ 39063)
    {outs : List (Except ℤ ℤ)} {out : Except ℤ ℤ} {r₁ r₂ : ClockRegisters} {v₁ v₂ : ClockStatus}
    (first : (startUp irc c h e p d).Runs mcgHardware r v (.ok outs) r₁ v₁)
    (firstTimely : ∀ out ∈ outs, ¬ TimedOut out)
    (second : (pllInit c h e p d select).Runs mcgHardware r v out r₂ v₂)
    (secondTimely : ¬ TimedOut out) :
    ((∀ out ∈ outs, ∃ f, out = .ok f) ↔ ∃ f, out = .ok f) ∧
      ((∃ f, out = .ok f) → outs.getLast? = some out ∧ r₁.mcg.c1 = r₂.mcg.c1 ∧
        r₁.mcg.c2 = r₂.mcg.c2 ∧ r₁.mcg.c5 = r₂.mcg.c5 ∧ r₁.mcg.c6 = r₂.mcg.c6) := by
  have holds := holds_of_reset reset
  have fits : IrcFits irc 0 := slow
  obtain ⟨all, route⟩ := ensures_plain_iff.mp (ensures_startUp holds fits) _ _ _ first outs rfl firstTimely
  obtain ⟨one, direct⟩ := ensures_plain_iff.mp (ensures_pllInit_completes holds) _ _ _ second
    (by simpa using secondTimely)
  rw [initFits_iff] at one direct
  have same : (∀ out ∈ outs, ∃ f, out = .ok f) ↔ ∃ f, out = .ok f := by
    rw [all, ← one]
    simp
  refine ⟨same, fun success => ?_⟩
  have fit := all.mp (same.mpr success)
  obtain ⟨last, rfl⟩ := route fit
  obtain ⟨only, rfl⟩ := direct fit
  have mcg := startUpPbe_eq (h := h) (e := e) (d := d) fit.2 ircs
  have frequency : out = .ok (pllOut c (pllInitPbe c p d h e r)) := by simpa using only
  rw [mcg, last, frequency, pllOut_startUpPbe]
  exact ⟨rfl, rfl, rfl, rfl, rfl⟩

/-- Every status bit follows before every access. -/
def promptly : List (List ClockMove) :=
  List.replicate 40 [.irefst, .pllst, .ircst, .clkst, .oscinit0 true, .lock0 true]

/-- The values of `main`: 50 MHz, and 60 MHz behind the PLL. -/
theorem start_up_agrees_main : ∃ outs out r₁ r₂ v₁ v₂,
    (startUp 32768 50000000 0 0 25 30).Runs mcgHardware resetRegisters resetStatus (.ok outs) r₁ v₁ ∧
      (pllInit 50000000 0 0 25 30 1).Runs mcgHardware resetRegisters resetStatus out r₂ v₂ ∧
      outs.getLast? = some out ∧ r₁.mcg.c1 = r₂.mcg.c1 ∧ r₁.mcg.c2 = r₂.mcg.c2 ∧
      r₁.mcg.c5 = r₂.mcg.c5 ∧ r₁.mcg.c6 = r₂.mcg.c6 := by
  have first : ((startUp 32768 50000000 0 0 25 30).replay mcgHardware promptly resetRegisters
      resetStatus).map Prod.fst =
        some (.ok [.ok 32768, .ok 50000000, .ok 50000000, .ok 60000000]) := by decide +kernel
  have second : ((pllInit 50000000 0 0 25 30 1).replay mcgHardware promptly resetRegisters
      resetStatus).map Prod.fst = some (.ok 60000000) := by decide +kernel
  obtain ⟨⟨_, r₁, v₁⟩, replayed₁, rfl⟩ := Option.map_eq_some_iff.mp first
  obtain ⟨⟨_, r₂, v₂⟩, replayed₂, rfl⟩ := Option.map_eq_some_iff.mp second
  have run₁ := Runs.of_replay replayed₁
  have run₂ := Runs.of_replay replayed₂
  have agrees := start_up_agrees atReset_reset (by decide) (by decide) run₁ (by simp [TimedOut]) run₂
    (by simp [TimedOut])
  exact ⟨_, _, r₁, r₂, v₁, v₂, run₁, run₂, agrees.2 ⟨_, rfl⟩⟩

end WirelessSpeakers.Soundness
