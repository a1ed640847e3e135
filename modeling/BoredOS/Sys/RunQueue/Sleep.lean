import BoredOS.Sys.RunQueue.Model

/-!
# Sleeping

`handle_sys_nanosleep` rounds a request down to milliseconds, cuts it to 32 bits and adds it to the
32-bit tick; the scheduler wakes the process once the tick is not below the sum. `sleeps_iff` says
for which requests and ticks no process wakes too early: the request is whole milliseconds or less
than one and ends before the tick is 0 again, or the sum is 0, which the scheduler takes for no
timeout at all.
-/

namespace BoredOS.Sys.RunQueue

variable {proc proc' : Proc} {sec nsec start : Int}

/-- `handle_sys_nanosleep` for a request that can be read; `none` if the process does not sleep. -/
def handleSysNanosleep (proc : Proc) (sec nsec getTicks : Int) : Option Proc :=
  let ms := (sec % 2 ^ 64 * 1000 + nsec % 2 ^ 64 / 1000000) % 2 ^ 64
  if ms = 0 ∧ nsec = 0 ∧ sec = 0 then none
  else
    let ms := if ms = 0 ∧ 0 < nsec then 1 else ms
    let ticks := ms % 2 ^ 32
    let ticks := if ticks = 0 ∧ 0 < ms then 1 else ticks
    some { proc with state := .blocked, sleepUntil := ((getTicks + ticks) % 2 ^ 32).toNat }

/-- A live process that is blocked may run from the tick of its timeout on. -/
theorem runnable_blocked_iff {now : ℕ} (hblocked : proc.state = .blocked) (hpid : proc.pid ≠ 0)
    (hlive : proc.killPending = false ∧ proc.exited = false) :
    runnable proc now = true ↔ 0 < proc.sleepUntil ∧ proc.sleepUntil ≤ now := by
  have hpid' : proc.pid ≠ 0#32 := hpid
  simp [runnable, hblocked, hlive.1, hlive.2, hpid']

/-- The milliseconds of a request, as the call counts them. -/
def requestMs (sec nsec : Int) : Int := sec * 1000 + nsec / 10 ^ 6

/-- The request and the tick of the call for which the process does not wake early. -/
def SleepSafe (sec nsec start : Int) : Prop :=
  -- nothing is lost by rounding down, and the tick does not wrap before the end
  (nsec % 10 ^ 6 = 0 ∨ requestMs sec nsec = 0) ∧ start + max 1 (requestMs sec nsec) < 2 ^ 32 ∨
  -- the end is tick 0, and no timeout wakes the process
  (start + requestMs sec nsec) % 2 ^ 32 = 0 ∧ requestMs sec nsec % 2 ^ 32 ≠ 0 ∨
  -- the same with the one tick that stands for 0, and with a request of a multiple of 2 ^ 64
  requestMs sec nsec % 2 ^ 32 = 0 ∧
    if requestMs sec nsec % 2 ^ 64 = 0 ∧ nsec = 0 then start = 0 else start = 2 ^ 32 - 1

instance decidableSleepSafe (sec nsec start : Int) : Decidable (SleepSafe sec nsec start) := by
  unfold SleepSafe
  infer_instance

/-- The tick until which the call makes the process sleep, by the request. -/
theorem sleepUntil_handleSysNanosleep (hnsec : 0 ≤ nsec ∧ nsec < 10 ^ 9)
    (hcall : handleSysNanosleep proc sec nsec start = some proc') :
    (sec ≠ 0 ∨ nsec ≠ 0) ∧ ∃ ticks : Int,
      proc' = { proc with state := .blocked, sleepUntil := ((start + ticks) % 2 ^ 32).toNat } ∧
      ((requestMs sec nsec % 2 ^ 32 ≠ 0 ∧ ticks = requestMs sec nsec % 2 ^ 32) ∨
        (requestMs sec nsec % 2 ^ 32 = 0 ∧
          ticks = if requestMs sec nsec % 2 ^ 64 = 0 ∧ nsec = 0 then 0 else 1)) := by
  have hms : (sec % 2 ^ 64 * 1000 + nsec % 2 ^ 64 / 1000000) % 2 ^ 64 =
      requestMs sec nsec % 2 ^ 64 := by
    unfold requestMs
    omega
  have hnone : requestMs sec nsec % 2 ^ 64 = 0 ∨ sec ≠ 0 ∨ nsec ≠ 0 := by
    unfold requestMs
    omega
  simp only [handleSysNanosleep, hms] at hcall
  generalize requestMs sec nsec = ms at hcall hnone ⊢
  split at hcall
  · cases hcall
  next hsleeps =>
    cases hcall
    refine ⟨by omega, _, rfl, ?_⟩
    split <;> split <;> split <;> omega

/-- When a 32-bit tick that starts at `start` is first not below `wake`: at once if it is already
there, and otherwise before it wraps. -/
theorem early_iff {wake : ℕ} (hstart : 0 ≤ start ∧ start < 2 ^ 32) (hwake : wake < 2 ^ 32)
    (need : Int) (hneed : 0 < need) :
    (∀ k : Int, 0 ≤ k → 0 < wake ∧ wake ≤ ((start + k) % 2 ^ 32).toNat → need ≤ k) ↔
      wake = 0 ∨ start + need ≤ wake := by
  constructor
  · intro h
    rcases Nat.eq_zero_or_pos wake with hzero | hpos
    · exact .inl hzero
    right
    rcases le_or_gt (wake : Int) start with hle | hlt
    · -- the time is up at once
      have := h 0 le_rfl ⟨hpos, by omega⟩
      omega
    · have := h (wake - start) (by omega) ⟨hpos, by omega⟩
      omega
  · rintro (hzero | hle) k hk ⟨hpos, hnow⟩
    · omega
    · omega

/-- The test of `process_schedule` lets a live process run because of its timeout only when at least
the requested time, rounded up to ticks, has passed since the call, exactly under the condition. -/
theorem sleeps_iff (hsec : 0 ≤ sec) (hnsec : 0 ≤ nsec ∧ nsec < 10 ^ 9)
    (hstart : 0 ≤ start ∧ start < 2 ^ 32) (hpid : proc.pid ≠ 0)
    (hlive : proc.killPending = false ∧ proc.exited = false)
    (hcall : handleSysNanosleep proc sec nsec start = some proc') :
    (∀ k : Int, 0 ≤ k → runnable proc' ((start + k) % 2 ^ 32).toNat = true →
      (sec * 10 ^ 9 + nsec + (10 ^ 6 - 1)) / 10 ^ 6 ≤ k) ↔ SleepSafe sec nsec start := by
  obtain ⟨hzero, ticks, rfl, hticks⟩ := sleepUntil_handleSysNanosleep hnsec hcall
  have hneed : (sec * 10 ^ 9 + nsec + (10 ^ 6 - 1)) / 10 ^ 6 =
      requestMs sec nsec + if nsec % 10 ^ 6 = 0 then 0 else 1 := by
    unfold requestMs
    split <;> omega
  have hms : 0 ≤ requestMs sec nsec ∧ (requestMs sec nsec = 0 → nsec % 10 ^ 6 ≠ 0) := by
    unfold requestMs
    omega
  simp only [@runnable_blocked_iff { proc with
    state := .blocked, sleepUntil := ((start + ticks) % 2 ^ 32).toNat } _ rfl hpid hlive]
  rw [early_iff hstart (by omega) _ (by rw [hneed]; split <;> omega), hneed]
  unfold SleepSafe
  generalize requestMs sec nsec = ms at hms hticks ⊢
  rcases hticks with ⟨hne, rfl⟩ | ⟨hEq, rfl⟩ <;> split <;> split <;> omega

/-- At tick 4294967290 a sleep of six milliseconds has no end, which meets the property, and one of
seven ends at once, which does not. -/
theorem sleeps_iff_wrap :
    (∀ k : Int, 0 ≤ k → runnable { fresh 5 1 5 none with state := .blocked, sleepUntil := 0 }
        ((4294967290 + k) % 2 ^ 32).toNat = true →
      (0 * 10 ^ 9 + 6000000 + (10 ^ 6 - 1)) / 10 ^ 6 ≤ k) ∧
    ¬ ∀ k : Int, 0 ≤ k → runnable { fresh 5 1 5 none with state := .blocked, sleepUntil := 1 }
        ((4294967290 + k) % 2 ^ 32).toNat = true →
      (0 * 10 ^ 9 + 7000000 + (10 ^ 6 - 1)) / 10 ^ 6 ≤ k :=
  ⟨(@sleeps_iff (fresh 5 1 5 none) _ 0 6000000 4294967290 (by decide) (by decide) (by decide)
      (by decide) (by decide) rfl).2 (by decide),
    fun h => absurd ((@sleeps_iff (fresh 5 1 5 none) _ 0 7000000 4294967290 (by decide) (by decide)
      (by decide) (by decide) (by decide) rfl).1 h) (by decide)⟩

/-- One and a half milliseconds end after one tick. -/
theorem nanosleep_short : (handleSysNanosleep (fresh 5 1 5 none) 0 1500000 0).map (runnable · 1) =
    some true := by
  decide

end BoredOS.Sys.RunQueue
