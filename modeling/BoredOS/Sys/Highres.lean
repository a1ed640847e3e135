import Mathlib

/-!
# The Clock in Nanoseconds

`get_time_ns_highres` reads `kernel_ticks`, the TSC and `last_tick_tsc` one after the other. After
an interrupt between the reads, the ticks are old and the part of a millisecond is new. The scale is
in static variables that calls on other processors store too.

`highres_monotone` is about runs in which no interrupt comes between the reads of a call and nobody
raises the scale in a millisecond for which a call has returned.
-/

namespace BoredOS.Sys.Highres

open Nat

/-- The variables of the clock, with `cur_tick` and `cur_tsc` of a call. `retTick` records the tick
for which a call returned last. -/
structure Clock where
  kernelTicks : ℕ
  lastTickTsc : ℕ
  cyclesPerMs : ℕ
  lastCalibTick : ℕ
  lastCalibTsc : ℕ
  curTick : ℕ
  curTsc : ℕ
  retTick : Option ℕ

def boot : Clock := ⟨0, 0, 3000000, 0, 0, 0, 0, none⟩

/-- The ticks since the last calibration, for a call that has read `tick`. -/
def Clock.calibTicks (s : Clock) (tick : ℕ) : ℕ := (tick + (2 ^ 64 - s.lastCalibTick)) % 2 ^ 64

/-- The scale that a call with these reads measures, if it stores it. -/
def Clock.measured (s : Clock) (tick tsc : ℕ) : Option ℕ :=
  let cpm := (tsc - s.lastCalibTsc) / s.calibTicks tick
  if s.lastCalibTsc ≠ 0 ∧ 100 ≤ s.calibTicks tick ∧ 100000 ≤ cpm ∧ cpm ≤ 100000000 then some cpm
  else none

/-- The calibration of a call with these reads, at first and after 100 ticks. -/
def Clock.calibrate (s : Clock) (tick tsc : ℕ) : Clock :=
  if s.lastCalibTsc = 0 ∨ 100 ≤ s.calibTicks tick then
    { s with
      cyclesPerMs := (s.measured tick tsc).getD s.cyclesPerMs
      lastCalibTick := tick
      lastCalibTsc := tsc }
  else s

/-- The `delta_tsc` of a call; a TSC that is behind `last_tick_tsc` counts as no time. -/
def Clock.delta (s : Clock) : ℕ := if s.lastTickTsc > 0 then s.curTsc - s.lastTickTsc else 0

/-- The `sub_ms_ns` of a call. -/
def Clock.subMs (s : Clock) : ℕ :=
  min (s.delta * 1000000 % 2 ^ 64 / if s.cyclesPerMs = 0 then 3000000 else s.cyclesPerMs) 999999

/-- The two stores of the interrupt, the three reads of a call, and the calibration of a call on
another processor that has read `tick` and `tsc`. -/
inductive Act
  | tick
  | stamp (tsc : ℕ)
  | readTick
  | readTsc (tsc : ℕ)
  | readRef
  | other (tick tsc : ℕ)

/-- What a call returns, and the product and the sum that it computes, as they are without a bound
on numbers. -/
structure Reading where
  value : ℕ
  product : ℕ
  sum : ℕ
  deriving DecidableEq

def Clock.reading (s : Clock) : Reading where
  value := (s.curTick * 1000000 + s.subMs) % 2 ^ 64
  product := s.delta * 1000000
  sum := s.curTick * 1000000 + s.subMs

def step (s : Clock) : Act → Clock
  | .tick => { s with kernelTicks := (s.kernelTicks + 1) % 2 ^ 64 }
  | .stamp tsc => { s with lastTickTsc := tsc }
  | .readTick => { s with curTick := s.kernelTicks }
  | .readTsc tsc => Clock.calibrate { s with curTsc := tsc } s.curTick tsc
  | .readRef => { s with retTick := some s.curTick }
  | .other tick tsc => s.calibrate tick tsc

def readings (s : Clock) : List Act → List Reading
  | [] => []
  | .readRef :: as => s.reading :: readings (step s .readRef) as
  | a :: as => readings (step s a) as

/-- How far a call is. -/
inductive Phase
  | idle
  | ticked
  | timed

/-- Another caller has read the ticks within the last hundred of them, and does not raise the scale
of a millisecond for which a call has returned. -/
structure Gentle (s : Clock) (tick tsc : ℕ) : Prop where
  recent : tick ≤ s.kernelTicks ∧ s.kernelTicks < tick + 100
  started : 0 < tsc
  scale : s.retTick = some s.kernelTicks → ∀ cpm ∈ s.measured tick tsc, cpm ≤ s.cyclesPerMs

/-- The TSC grows from `t` on by at most `rate` in a millisecond, no call meets an interrupt, a tick
comes at least once in an hour, and the ticks stay below `2 ^ 64` nanoseconds. -/
inductive Orderly (rate : ℕ) : Phase → Clock → ℕ → List Act → Prop
  | done {ph s t} : Orderly rate ph s t []
  | interrupt {s t tsc as} (ht : t < tsc) (hticks : (s.kernelTicks + 1 + 1) * 1000000 ≤ 2 ^ 64)
      (h : Orderly rate .idle (step (step s .tick) (.stamp tsc)) tsc as) :
      Orderly rate .idle s t (.tick :: .stamp tsc :: as)
  | readTick {s t as} (h : Orderly rate .ticked (step s .readTick) t as) :
      Orderly rate .idle s t (.readTick :: as)
  | readTsc {s t tsc as} (ht : t < tsc) (h : Orderly rate .timed (step s (.readTsc tsc)) tsc as) :
      Orderly rate .ticked s t (.readTsc tsc :: as)
  | readRef {s t as} (hhour : s.delta ≤ 3600000 * rate)
      (h : Orderly rate .idle (step s .readRef) t as) :
      Orderly rate .timed s t (.readRef :: as)
  | other {ph s t tick tsc as} (hgentle : Gentle s tick tsc)
      (h : Orderly rate ph (step s (.other tick tsc)) t as) :
      Orderly rate ph s t (.other tick tsc :: as)

/-- The next calibration is up to a hundred ticks away. -/
def Clock.Calibrated (s : Clock) : Prop :=
  s.lastCalibTsc ≠ 0 ∧ s.kernelTicks < s.lastCalibTick + 100

/-- No call before `t` returned more than `v`, and the next one will not return less. -/
structure Settled (ph : Phase) (s : Clock) (t v : ℕ) : Prop where
  calib : s.lastCalibTick ≤ s.kernelTicks
  ticks : (s.kernelTicks + 1) * 1000000 ≤ 2 ^ 64
  tick : ph ≠ .idle → s.curTick = s.kernelTicks
  timed : ph = .timed → s.curTsc = t ∧ s.Calibrated
  value : v ≤ s.kernelTicks * 1000000 ∨ s.retTick = some s.kernelTicks ∧ s.Calibrated ∧
    ∃ tsc ≤ t, v ≤ s.kernelTicks * 1000000 + Clock.subMs { s with curTsc := tsc }

section

variable {rate : ℕ} {ph : Phase} {s : Clock} {t v tick tsc : ℕ}

theorem subMs_lt (s : Clock) : s.subMs < 1000000 :=
  lt_succ_of_le (min_le_right ..)

/-- Any part of a millisecond ends with the next tick. -/
theorem add_part_le {k n : ℕ} (h : n < 1000000) : k * 1000000 + n ≤ (k + 1) * 1000000 := by
  omega

theorem add_part_lt {k n : ℕ} (hk : (k + 1) * 1000000 ≤ 2 ^ 64) (h : n < 1000000) :
    k * 1000000 + n < 2 ^ 64 := by
  omega

/-- Later in a millisecond the part of it is not smaller. -/
theorem subMs_mono (h : tsc ≤ s.curTsc) (hdelta : s.delta * 1000000 < 2 ^ 64) :
    Clock.subMs { s with curTsc := tsc } ≤ s.subMs := by
  refine inf_le_inf_right _ (Nat.div_le_div_right ?_)
  rw [mod_eq_of_lt hdelta]
  refine le_trans (mod_le ..) (mul_le_mul_right _ ?_)
  unfold Clock.delta
  dsimp only
  split
  · exact Nat.sub_le_sub_right h _
  · exact le_refl _

theorem le_of_mem_measured {cpm : ℕ} (h : cpm ∈ s.measured tick tsc) : 100000 ≤ cpm := by
  unfold Clock.measured at h
  grind

/-- What a calibration leaves: the scale that it measures, and its own reads. -/
theorem calibrate_cases (s : Clock) (tick tsc : ℕ) :
    (s.calibrate tick tsc = s ∧ s.lastCalibTsc ≠ 0 ∧ s.calibTicks tick < 100) ∨
      s.calibrate tick tsc = { s with
        cyclesPerMs := (s.measured tick tsc).getD s.cyclesPerMs
        lastCalibTick := tick, lastCalibTsc := tsc } := by
  unfold Clock.calibrate
  split
  · exact .inr rfl
  · exact .inl ⟨rfl, by omega, by omega⟩

/-- A scale that is not raised makes the part of a millisecond no smaller. -/
theorem subMs_le_of_scale {n : ℕ} (h : ∀ cpm ∈ s.measured tick tsc, cpm ≤ s.cyclesPerMs) :
    Clock.subMs { s with curTsc := n } ≤ Clock.subMs { s.calibrate tick tsc with curTsc := n } := by
  obtain ⟨heq, -⟩ | heq := calibrate_cases s tick tsc
  · rw [heq]
  · rw [heq]
    cases hcpm : s.measured tick tsc with
    | none => exact le_refl _
    | some cpm =>
      have hlow := le_of_mem_measured hcpm
      have hle := h cpm hcpm
      refine inf_le_inf_right _ ?_
      simp only [Option.getD_some]
      rw [if_neg (by omega), if_neg (by omega)]
      exact Nat.div_le_div_left hle (by omega)

/-- After a calibration by a caller with a recent tick the next one is far. -/
theorem Calibrated.calibrate (hcalib : s.lastCalibTick ≤ s.kernelTicks)
    (hlt : s.kernelTicks < 2 ^ 64) (htick : tick ≤ s.kernelTicks)
    (hnear : s.kernelTicks < tick + 100) (htsc : 0 < tsc)
    (h : s.Calibrated ∨ tick = s.kernelTicks) :
    (s.calibrate tick tsc).lastCalibTick ≤ s.kernelTicks ∧ (s.calibrate tick tsc).Calibrated := by
  obtain ⟨heq, hne, hticks⟩ | heq := calibrate_cases s tick tsc
  · rw [heq]
    refine ⟨hcalib, h.elim id fun htick => ⟨hne, ?_⟩⟩
    unfold Clock.calibTicks at hticks
    omega
  · rw [heq]
    exact ⟨htick, htsc.ne', hnear⟩

/-- A calibrated clock is not calibrated again in the same tick. -/
theorem calibrate_eq (hcalib : s.lastCalibTick ≤ s.kernelTicks) (hlt : s.kernelTicks < 2 ^ 64)
    (h : s.Calibrated) : s.calibrate s.kernelTicks tsc = s := by
  obtain ⟨hne, hnear⟩ := h
  refine if_neg ?_
  unfold Clock.calibTicks
  omega

/-! ## One act -/

namespace Settled

/-- The new tick is worth more than any part of a millisecond. -/
theorem interrupt (hs : Settled .idle s t v)
    (hticks : (s.kernelTicks + 1 + 1) * 1000000 ≤ 2 ^ 64) :
    Settled .idle (step (step s .tick) (.stamp tsc)) tsc v := by
  have hk : (s.kernelTicks + 1) % 2 ^ 64 = s.kernelTicks + 1 := mod_eq_of_lt (by omega)
  refine ⟨?_, ?_, nofun, nofun, .inl ?_⟩
  · exact le_trans hs.calib (by simp only [step, hk]; omega)
  · simpa only [step, hk] using hticks
  · change v ≤ (s.kernelTicks + 1) % 2 ^ 64 * 1000000
    rw [hk]
    obtain hle | ⟨-, -, n, -, hle⟩ := hs.value
    · exact hle.trans (Nat.mul_le_mul_right _ (le_succ _))
    · have hpart := add_part_le (k := s.kernelTicks) (subMs_lt { s with curTsc := n })
      exact le_trans hle hpart

theorem readTick (hs : Settled .idle s t v) : Settled .ticked (step s .readTick) t v :=
  ⟨hs.calib, hs.ticks, fun _ => rfl, nofun, hs.value⟩

/-- A call after another one in the same tick keeps the scale; any other may change it. -/
theorem readTsc (hs : Settled .ticked s t v) (ht : t < tsc) :
    Settled .timed (step s (.readTsc tsc)) tsc v := by
  have hlt : s.kernelTicks < 2 ^ 64 := by
    have hticks := hs.ticks
    omega
  have hstep : step s (.readTsc tsc) =
      Clock.calibrate { s with curTsc := tsc } s.kernelTicks tsc := by
    rw [step, hs.tick nofun]
  have hkept : (step s (.readTsc tsc)).kernelTicks = s.kernelTicks ∧
      (step s (.readTsc tsc)).curTick = s.curTick ∧
      (step s (.readTsc tsc)).curTsc = tsc := by
    rw [hstep]
    obtain ⟨heq, -⟩ | heq := calibrate_cases { s with curTsc := tsc } s.kernelTicks tsc <;>
      rw [heq] <;> exact ⟨rfl, rfl, rfl⟩
  obtain ⟨hk, htick, htsc⟩ := hkept
  obtain ⟨hle, hcalibrated⟩ := Calibrated.calibrate (s := { s with curTsc := tsc })
    hs.calib hlt (show s.kernelTicks ≤ _ from le_refl _) (by dsimp only; omega)
    (zero_lt_of_lt ht) (.inr rfl)
  refine ⟨?_, hk ▸ hs.ticks, fun _ => ?_, fun _ => ⟨htsc, hstep ▸ hcalibrated⟩, ?_⟩
  · rw [hk, hstep]
    exact hle
  · rw [hk, htick, hs.tick nofun]
  · rw [hk]
    refine hs.value.imp_right fun ⟨hret, hcal, n, hn, hv⟩ => ?_
    rw [hstep, calibrate_eq (s := { s with curTsc := tsc }) hs.calib hlt hcal]
    exact ⟨hret, hcal, n, by omega, hv⟩

/-- A call does not return less than the last one, and nothing overflows. -/
theorem readRef (hs : Settled .timed s t v) (hdelta : s.delta * 1000000 < 2 ^ 64) :
    v ≤ s.reading.value ∧ s.reading.product < 2 ^ 64 ∧ s.reading.sum < 2 ^ 64 ∧
      Settled .idle (step s .readRef) t s.reading.value := by
  obtain ⟨hcalib, hticks, htick, htimed, hvalue⟩ := hs
  have hcur := htick nofun
  obtain ⟨htsc, hcalibrated⟩ := htimed rfl
  have hEq : s.reading.sum = s.kernelTicks * 1000000 + s.subMs :=
    congrArg (fun n => n * 1000000 + s.subMs) hcur
  have hsum : s.reading.sum < 2 ^ 64 := by
    rw [hEq]
    exact add_part_lt hticks (subMs_lt s)
  have hread : s.reading.value = s.kernelTicks * 1000000 + s.subMs :=
    (mod_eq_of_lt hsum).trans hEq
  rw [hread]
  refine ⟨?_, hdelta, hsum, hcalib, hticks, nofun, nofun, .inr ⟨?_, hcalibrated, t, le_refl _, ?_⟩⟩
  · obtain hle | ⟨-, -, n, hn, hle⟩ := hvalue
    · exact le_trans hle (Nat.le_add_right ..)
    · exact hle.trans (Nat.add_le_add_left (subMs_mono (htsc.symm ▸ hn) hdelta) _)
  · exact congrArg some hcur
  · subst htsc
    exact le_refl _

theorem other (hs : Settled ph s t v) (hgentle : Gentle s tick tsc) :
    Settled ph (step s (.other tick tsc)) t v := by
  obtain ⟨hcalib, hticks, htick, htimed, hvalue⟩ := hs
  have hlt : s.kernelTicks < 2 ^ 64 := by omega
  have hkept : (s.calibrate tick tsc).kernelTicks = s.kernelTicks ∧
      (s.calibrate tick tsc).curTick = s.curTick ∧ (s.calibrate tick tsc).curTsc = s.curTsc ∧
      (s.calibrate tick tsc).retTick = s.retTick := by
    obtain ⟨heq, -⟩ | heq := calibrate_cases s tick tsc <;>
      rw [heq] <;> exact ⟨rfl, rfl, rfl, rfl⟩
  obtain ⟨hk, hct, hcc, hret⟩ := hkept
  have hcal : s.Calibrated → (s.calibrate tick tsc).Calibrated := fun h =>
    (Calibrated.calibrate hcalib hlt hgentle.recent.1 hgentle.recent.2 hgentle.started (.inl h)).2
  have hle : (s.calibrate tick tsc).lastCalibTick ≤ s.kernelTicks := by
    obtain ⟨heq, -⟩ | heq := calibrate_cases s tick tsc
    · rw [heq]
      exact hcalib
    · rw [heq]
      exact hgentle.recent.1
  simp only [step]
  refine ⟨hk ▸ hle, hk ▸ hticks, fun hph => ?_, fun hph => ?_, ?_⟩
  · rw [hct, hk, htick hph]
  · exact ⟨hcc.trans (htimed hph).1, hcal (htimed hph).2⟩
  · rw [hk, hret]
    refine hvalue.imp_right fun ⟨hr, hc, n, hn, hv⟩ => ⟨hr, hcal hc, n, hn, hv.trans ?_⟩
    exact Nat.add_le_add_left (subMs_le_of_scale (hgentle.scale hr)) _

end Settled

/-! ## Runs -/

theorem readings_spec {as : List Act} (hrate : 3600000 * rate * 1000000 < 2 ^ 64)
    (h : Orderly rate ph s t as) (hs : Settled ph s t v) :
    (v :: (readings s as).map Reading.value).IsChain (· ≤ ·) ∧
      ∀ r ∈ readings s as, r.product < 2 ^ 64 ∧ r.sum < 2 ^ 64 := by
  induction h generalizing v with
  | done => exact ⟨.singleton v, nofun⟩
  | interrupt _ hticks _ ih => exact ih (hs.interrupt hticks)
  | readTick _ ih => exact ih hs.readTick
  | readTsc ht _ ih => exact ih (hs.readTsc ht)
  | readRef hhour _ ih =>
    have hdelta := lt_of_le_of_lt (Nat.mul_le_mul_right 1000000 hhour) hrate
    obtain ⟨hle, hproduct, hsum, hs'⟩ := hs.readRef hdelta
    obtain ⟨hchain, hall⟩ := ih hs'
    exact ⟨.cons_cons hle hchain, List.forall_mem_cons.2 ⟨⟨hproduct, hsum⟩, hall⟩⟩
  | other hgentle _ ih => exact ih (hs.other hgentle)

end

end BoredOS.Sys.Highres
