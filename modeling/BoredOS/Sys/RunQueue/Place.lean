import BoredOS.Sys.RunQueue.Processors

/-!
# One Processor per Process

The two calls that switch processes, `process_schedule` and `process_terminate_current_with_status`,
on any number of processors. What they do to the processors is one step of a small abstract machine
(`Place.switch`): the processor lets go of one process and takes one that may run on it
(`place_step`). Such a step keeps that `running_cpu` names the processor on which a process is
current, so no process is on two of them (`one_cpu_per_process`).
-/

namespace BoredOS.Sys.RunQueue

open Function Lib.Update Nat Lib.Transition Option

/-! ## The abstract machine -/

/-- Who is on which processor, and who may be. -/
structure Place where
  count : ℕ
  cpuCount : ℕ
  current : ℕ → Option ℕ
  idle : ℕ → Option ℕ
  running : ℕ → Option ℕ
  affinity : ℕ → Option ℕ

namespace Place

variable {v : Place} {cpu cur chosen : ℕ}

/-- A processor lets go of one process and takes another. -/
def switch (v : Place) (cpu cur chosen : ℕ) : Place :=
  { v with
    current := update v.current cpu (some chosen)
    running := update (update v.running cur none) chosen (some cpu) }

/-- The process may be there: it is not bound to another processor and not on one. -/
def Fits (v : Place) (cpu p : ℕ) : Prop :=
  (v.affinity p = some cpu ∨ v.affinity p = none) ∧ (v.running p = some cpu ∨ v.running p = none)

/-- `running` says where the processes are current, they may be there, and each processor has an
idle process of its own. -/
structure Ok (v : Place) : Prop where
  running : ∀ p < v.count, ∀ c, v.running p = some c ↔ c < v.cpuCount ∧ v.current c = some p
  bound : ∀ c < v.cpuCount, ∀ p, v.current c = some p → v.affinity p = some c ∨ v.affinity p = none
  idle : ∀ c < v.cpuCount, ∃ p, v.idle c = some p ∧ v.affinity p = some c

theorem Ok.fits_idle (h : v.Ok) (hcpu : cpu < v.cpuCount) (hp : chosen < v.count)
    (hidle : v.idle cpu = some chosen) : v.Fits cpu chosen := by
  obtain ⟨p, hp', haffinity⟩ := h.idle cpu hcpu
  obtain rfl : chosen = p := some.inj (hidle.symm.trans hp')
  refine ⟨.inl haffinity, ?_⟩
  cases hrun : v.running chosen with
  | none => exact .inr rfl
  | some c =>
    obtain ⟨hc, hcurrent⟩ := (h.running chosen hp c).1 hrun
    have hbound := h.bound c hc chosen hcurrent
    exact .inl (by simpa [haffinity, eq_comm] using hbound)

theorem Ok.switch (h : v.Ok) (hcpu : cpu < v.cpuCount) (hcur : v.current cpu = some cur)
    (hfits : v.Fits cpu chosen) : (v.switch cpu cur chosen).Ok := by
  obtain ⟨haffinity, hfree⟩ := hfits
  constructor
  · intro p hp c
    have hrun := h.running p hp c
    unfold Place.switch
    dsimp only
    rcases eq_or_ne p chosen with rfl | hchosen
    · rw [update_self]
      by_cases hc : c = cpu
      · simp [hc, hcpu]
      · -- it was on no other processor
        rw [update_of_ne hc, ← hrun]
        rcases hfree with hfree | hfree <;> simp [hfree, Ne.symm hc]
    · rw [update_of_ne hchosen]
      by_cases hc : c = cpu
      · subst hc
        -- only the process that the processor lets go was on it
        have hleft : p ≠ cur → v.running p ≠ some c := fun hne hc' =>
          hne (some.inj ((hrun.1 hc').2.symm.trans hcur))
        by_cases hp' : p = cur
        · simp [hp', hcpu, Ne.symm (hp' ▸ hchosen)]
        · simp [hp', hleft hp', Ne.symm hchosen]
      · rw [update_of_ne hc, ← hrun]
        by_cases hp' : p = cur
        · subst hp'
          have hon := (h.running p hp cpu).2 ⟨hcpu, hcur⟩
          simp [hon, Ne.symm hc]
        · rw [update_of_ne hp']
  · intro c hc p hp
    by_cases hEq : c = cpu
    · subst hEq
      obtain rfl : chosen = p := by simpa [Place.switch] using hp
      exact haffinity
    · exact h.bound c hc p (by simpa [Place.switch, hEq] using hp)
  · exact h.idle

end Place

/-! ## The calls -/

variable {s s' : State} {p cpu cur chosen : ℕ} {status : Int} {a : Act}

def place (s : State) : Place where
  count := s.count
  cpuCount := s.cpuCount
  current := s.current
  idle := s.idle
  running p := (s.procs p).runningCpu
  affinity p := (s.procs p).cpuAffinity

theorem place_of_view (h : s'.view = s.view) : place s' = place s := by
  change place s'.view = place s.view
  rw [h]

theorem place_modify {f : Proc → Proc} (hf : ∀ proc, (f proc).cpuAffinity = proc.cpuAffinity) :
    place (s.modify p f) =
      { place s with running := update (place s).running p (f (s.procs p)).runningCpu } := by
  simp only [place, State.modify, Place.mk.injEq, true_and]
  constructor <;> funext q <;> by_cases hq : q = p
  · simp [hq]
  · simp [hq]
  · simp [hq, hf]
  · simp [hq]

theorem place_started (h : place s' = { place s with
    running := update (place s).running cur none }) :
    place (started s' cpu chosen) = (place s).switch cpu cur chosen := by
  refine (place_modify (by exact fun _ => rfl)).trans ?_
  change { place s' with
    current := update (place s').current cpu (some chosen)
    running := update (place s').running chosen (some cpu) } = _
  rw [h]
  rfl

theorem place_stopped : place (stopped s cur status) =
    { place s with running := update (place s).running cur none } := by
  have hended : place (endSection s cur status) = place s := by
    refine (place_modify (by exact fun _ => rfl)).trans ?_
    change { place s with running := update (place s).running cur ((place s).running cur) } = _
    rw [update_eq_self]
  refine (place_modify (by exact fun _ => rfl)).trans ?_
  rw [hended]

/-- The process is the idle one of the processor, or it may run there and is not to end. -/
def Eligible (s : State) (cpu p : ℕ) : Prop :=
  s.idle cpu = some p ∨ matchesCpu (s.procs p) cpu = true ∧ (s.procs p).killPending = false ∧
    (s.procs p).exited = false

theorem Eligible.fits (h : Eligible s cpu p) (hok : (place s).Ok) (hcpu : cpu < s.cpuCount)
    (hp : p < s.count) : (place s).Fits cpu p := by
  rcases h with hidle | ⟨hmatches, -⟩
  · exact hok.fits_idle hcpu hp hidle
  · simpa [matchesCpu, Place.Fits, place, or_comm] using hmatches

/-- The pieces of the two calls, on the processors that there are. -/
inductive Switches (s : State) : Act → Prop
  | schedule (cpu now : ℕ) : cpu < s.cpuCount → Switches s (.schedule cpu now)
  | terminateCurrent (cpu : ℕ) (status : Int) : cpu < s.cpuCount →
    Switches s (.terminateCurrent cpu status)
  | reparent (p : ℕ) : Switches s (.reparent p)

/-- Each piece leaves the processors alone or switches one of them. -/
theorem place_step (hb : Bounded s) (hok : (place s).Ok) (ha : Switches s a)
    (hstep : step s a = some s') : place s' = place s ∨ ∃ cpu < s.cpuCount, ∃ cur chosen,
      s.current cpu = some cur ∧ chosen < s.count ∧ Eligible s cpu chosen ∧
      place s' = (place s).switch cpu cur chosen := by
  cases ha with
  | schedule cpu now hcpu =>
    obtain ⟨-, rfl⟩ | ⟨cur, chosen, s₁, hchoice, hs₁, rfl⟩ := processSchedule_cases hstep
    · exact .inl rfl
    obtain ⟨hcur, hlt, hchosen⟩ := scheduleChoice_spec hb hchoice
    -- a sleeper that is due is made ready before the switch
    have hplace : place s₁ = place s := by
      rcases hs₁ with rfl | rfl
      · rfl
      · exact place_of_view (view_modify fun _ => rfl)
    by_cases hne : cur = chosen
    · left
      rw [← hplace, switchTo, if_pos hne]
    · right
      refine ⟨cpu, hcpu, cur, chosen, hcur, hlt, ?_, ?_⟩
      swap
      · rw [← hplace, switchTo, if_neg hne]
        exact place_started (place_modify fun _ => rfl)
      rcases hchosen with hEq | hidle | ⟨hmatches, hrunnable⟩
      · exact absurd hEq.symm hne
      · exact .inl hidle
      · exact .inr ⟨hmatches, by simp_all [runnable]⟩
  | terminateCurrent cpu status hcpu =>
    obtain ⟨-, rfl⟩ | ⟨cur, -, -, ⟨-, hidle, -⟩ | ⟨chosen, hchoice, rfl⟩⟩ :=
      processTerminateCurrent_cases hstep
    · exact .inl rfl
    · -- every processor has an idle process to go on with
      obtain ⟨p, hp, -⟩ := hok.idle cpu hcpu
      cases hidle.symm.trans hp
    · obtain ⟨hcur, hlt, hchosen⟩ := terminateChoice_spec hb hchoice
      right
      refine ⟨cpu, hcpu, cur, chosen, hcur, hlt, ?_,
        (place_of_view (view_dropOrphan.trans view_notifySection)).trans
          (place_started place_stopped)⟩
      rcases hchosen with hidle | ⟨hmatches, hready⟩
      · exact .inl hidle
      · exact .inr ⟨hmatches, by simp_all [ready]⟩
  | reparent => exact .inl (place_of_view (view_step (by trivial) hstep))

/-! ## Runs -/

/-- Every interleaving of the pieces from a state in which the processors are in order. -/
def switchSystem : System State Act where
  init s := (place s).Ok ∧ Bounded s
  step s a s' := step s a = some s'

/-- On every processor of every reachable state: nobody else has its process, `running_cpu` names
it, and the process is bound to no other one. And every further piece goes on with the process that
is there, with the idle one or with one that is not to end. -/
theorem one_cpu_per_process (h : switchSystem.Reachable Switches s) :
    (∀ c < s.cpuCount, ∀ d < s.cpuCount, ∀ p, s.current c = some p → s.current d = some p → c = d) ∧
    (∀ p < s.count, (s.procs p).exited = false → ∀ c, (s.procs p).runningCpu = some c ↔
      c < s.cpuCount ∧ s.current c = some p) ∧
    (∀ c < s.cpuCount, ∀ p d, s.current c = some p → (s.procs p).cpuAffinity = some d → c = d) ∧
    ∀ a s', Switches s a → step s a = some s' → ∀ c p, s'.current c = some p →
      s.current c = some p ∨ s.idle c = some p ∨
        (s.procs p).killPending = false ∧ (s.procs p).exited = false := by
  obtain ⟨hok, hb⟩ : (place s).Ok ∧ Bounded s := by
    apply h.invariant (I := fun s => (place s).Ok ∧ Bounded s) fun _ hs => hs
    intro s a s' ⟨hok, hb⟩ ha hstep
    refine ⟨?_, (step_current hb hstep).1⟩
    obtain hEq | ⟨cpu, hcpu, cur, chosen, hcur, hlt, hmay, hEq⟩ := place_step hb hok ha hstep
    · exact hEq ▸ hok
    · exact hEq ▸ hok.switch hcpu hcur (hmay.fits hok hcpu hlt)
  refine ⟨fun c hc d hd p hp hp' => ?_, fun p hp _ => hok.running p hp, fun c hc p d hp hd => ?_,
    fun a s' ha hstep c p hp => ?_⟩
  · have hrun := hok.running p (hb.current c p hp)
    exact some.inj (((hrun c).2 ⟨hc, hp⟩).symm.trans ((hrun d).2 ⟨hd, hp'⟩))
  · have hbound := hok.bound c hc p hp
    simpa [place, hd, eq_comm] using hbound
  · obtain hEq | ⟨cpu, -, cur, chosen, -, -, hmay, hEq⟩ := place_step hb hok ha hstep
    · exact .inl ((congrArg (fun v => v.current c) hEq).symm.trans hp)
    · have hcurrent : update s.current cpu (some chosen) c = some p :=
        (congrArg (fun v => v.current c) hEq).symm.trans hp
      by_cases hc : c = cpu
      · subst hc
        obtain rfl : chosen = p := by simpa using hcurrent
        exact .inr (hmay.imp_right And.right)
      · exact .inl (by simpa [hc] using hcurrent)

/-- Two processors on their idle processes, a process that is ready and one that sleeps until tick
5, in one queue. -/
def twoProcessors : State :=
  { processInit 2 with
    count := 4
    procs := fun p =>
      if p < 2 then
        { fresh 0 0 0 (some p) with runningCpu := some p, created := true, tabled := true }
      else if p = 2 then { fresh 1 0 1 none with created := true, tabled := true }
      else
        { fresh 2 0 2 none with
          state := .blocked, sleepUntil := 5, created := true, tabled := true }
    next := fun p => if p < 4 then some ((p + 1) % 4) else none
    current := fun cpu => if cpu < 2 then some cpu else none
    idle := fun cpu => if cpu < 2 then some cpu else none }

theorem place_twoProcessors_ok : (place twoProcessors).Ok := by
  constructor
  · intro p hp c
    change p < 4 at hp
    by_cases hc : c < 2
    · interval_cases p <;> interval_cases c <;> decide
    · interval_cases p <;> simp [place, twoProcessors, processInit, fresh] <;> omega
  · intro c hc p hp
    change c < 2 at hc
    interval_cases c <;> (cases hp; exact .inl rfl)
  · intro c hc
    change c < 2 at hc
    interval_cases c
    · exact ⟨0, rfl, rfl⟩
    · exact ⟨1, rfl, rfl⟩

theorem bounded_twoProcessors : Bounded twoProcessors := by
  have hcpu : ∀ c q : ℕ, (if c < 2 then some c else none) = some q → q < 4 := by
    intro c q hq
    obtain ⟨hc, rfl⟩ := ite_some_none_eq_some.1 hq
    omega
  refine ⟨fun p q hq => ?_, hcpu, hcpu⟩
  obtain ⟨-, rfl⟩ := ite_some_none_eq_some.1 hq
  exact mod_lt _ (by decide)

/-- The second processor takes the process that is ready and the first one, at tick 5, the one that
slept, past those that are on the second. -/
theorem one_cpu_per_process_two : ∃ s s', step twoProcessors (.schedule 1 0) = some s ∧
    s.current 1 = some 2 ∧ step s (.schedule 0 5) = some s' ∧ s'.current 0 = some 3 ∧
    ∀ c, (s'.procs 2).runningCpu = some c ↔ c < s'.cpuCount ∧ s'.current c = some 2 := by
  obtain ⟨s, hfirst, hcount, hcur⟩ : ∃ s, step twoProcessors (.schedule 1 0) = some s ∧
      s.cpuCount = 2 ∧ s.current 1 = some 2 := by
    apply exists_of_any
    decide
  obtain ⟨s', hsecond, hlt, hexited, hcur'⟩ : ∃ s', step s (.schedule 0 5) = some s' ∧
      2 < s'.count ∧ (s'.procs 2).exited = false ∧ s'.current 0 = some 3 := by
    obtain rfl := some.inj hfirst.symm
    apply exists_of_any
    decide
  have hstart : switchSystem.Reachable Switches twoProcessors :=
    .start ⟨place_twoProcessors_ok, bounded_twoProcessors⟩
  have hreach : switchSystem.Reachable Switches s' :=
    (hstart.next (.schedule 1 0 (by decide)) hfirst).next (.schedule 0 5 (by omega)) hsecond
  exact ⟨s, s', hfirst, hcur, hsecond, hcur', (one_cpu_per_process hreach).2.1 2 hlt hexited⟩

end BoredOS.Sys.RunQueue
