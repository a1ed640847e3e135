import BoredOS.Sys.RunQueue.Model

/-!
# The Run Queue Is One Cycle

Most pieces of the calls leave the queue alone (`Quiet`). A new process keeps it one cycle if it is
put behind a live one, and a process that ends keeps it one cycle if at most 2048 processes are
alive. So in the runs that meet `QueueSafe` the queue is the cycle of the live processes
(`run_queue_of_safe_run`). Both conditions are needed: `not_runQueueOk_link` and
`not_runQueueOk_end` show that a step without them breaks the queue.
-/

namespace BoredOS.Sys.RunQueue

open Lib.Ring Lib.Transition Function List State IsRing
open Option (bind_some ite_none_right_eq_some ite_some_none_eq_some map_eq_some_iff)

variable {cpu : ℕ} {next : ℕ → Option ℕ} {ys : List ℕ} {s s' s'' : State} {p q head : ℕ}

@[simp] theorem modify_count (f : Proc → Proc) : (s.modify p f).count = s.count := rfl

/-! ## Steps that leave the queue alone -/

theorem created_iff : Created s p ↔ Live s p ∨ Terminated s p := by
  unfold Live Terminated
  cases (s.procs p).exited <;> simp

theorem Live.not_terminated (h : Live s p) : ¬ Terminated s p := by
  intro ht
  have hEq := h.2.symm.trans ht.2
  cases hEq

/-- What the queue and the processors depend on in a process. -/
def Proc.view (proc : Proc) : Proc :=
  { fresh 0 0 0 proc.cpuAffinity with
    exited := proc.exited, runningCpu := proc.runningCpu, created := proc.created }

def State.view (s : State) : State :=
  { s with
    procs := fun p => (s.procs p).view, buckets := fun _ => [], nextPid := 0, reaperPid := 0 }

variable {f : Proc → Proc}

theorem view_modify (hf : ∀ proc, (f proc).view = proc.view) : (s.modify p f).view = s.view := by
  have hprocs : (fun q => ((s.modify p f).procs q).view) = fun q => (s.procs q).view := by
    funext q
    by_cases hq : q = p
    · subst hq
      simp [State.modify, hf]
    · simp [State.modify, hq]
  unfold State.view
  rw [hprocs]
  rfl

theorem view_wakeExit (proc : Proc) : (wakeExit proc).view = proc.view := by
  unfold wakeExit
  split <;> rfl

theorem view_notifySection : (notifySection s p).view = s.view := by
  unfold notifySection
  split
  · apply view_modify
    intro proc
    unfold notifyProc
    dsimp only
    split <;> exact view_wakeExit proc
  · rfl

theorem view_dropOrphan : (dropOrphan s p).view = s.view := by
  unfold dropOrphan
  split <;> rfl

/-- Reparenting keeps what another parent, the wake-up of a reaper and leaving the table keep. -/
theorem reparentAll_induction {I : State → Prop}
    (hparent : ∀ s q pid, I s → I (s.modify q fun proc => { proc with parentPid := pid }))
    (hwake : ∀ s q, I s → I (s.modify q wakeExit))
    (hremove : ∀ s pid, I s → I (pidTableRemove s pid)) (h : I s) : I (reparentAll s p) := by
  have hchain : ∀ pid chain s, I s → I (reparentChain pid chain s) := by
    intro pid chain
    induction chain with
    | nil => exact fun _ h => h
    | cons q rest ih =>
      intro s h
      unfold reparentChain
      split
      · exact ih s h
      · have h' := hparent s q (targetReaper s.reaperPid) h
        dsimp only
        split
        · exact ih _ h'
        · split
          · exact ih _ (hwake _ _ h')
          · split
            · exact hremove _ _ h'
            · exact ih _ (hremove _ _ h')
  unfold reparentAll
  generalize List.range pidHashBuckets = buckets
  induction buckets generalizing s with
  | nil => exact h
  | cons idx rest ih => exact ih (hchain _ _ _ h)

theorem view_reparentAll : (reparentAll s p).view = s.view :=
  reparentAll_induction (I := fun s' => s'.view = s.view)
    (fun _ _ _ h => (view_modify (by exact fun _ => rfl)).trans h)
    (fun _ _ h => (view_modify view_wakeExit).trans h) (fun _ _ h => h) rfl

/-- The pieces that leave the queue and the processors alone. -/
def Aside : Act → Prop
  | .insert _ | .condemn _ _ | .reparent _ | .notify _ | .wait _ | .waited _ | .reap _
  | .setState _ _ _ | .setReaper _ => True
  | _ => False

/-- Steps aside of the queue do not change what the invariant sees. -/
theorem view_step {a : Act} (ha : Aside a) (hstep : step s a = some s') : s'.view = s.view := by
  cases a with
  | insert | condemn =>
    obtain ⟨-, rfl⟩ := ite_some_none_eq_some.1 hstep
    exact view_modify fun _ => rfl
  | reparent =>
    obtain ⟨-, rfl⟩ := ite_some_none_eq_some.1 hstep
    exact view_reparentAll
  | notify =>
    obtain ⟨-, rfl⟩ := ite_some_none_eq_some.1 hstep
    exact view_notifySection
  | wait =>
    cases hstep
    unfold waitSection
    split
    · rfl
    · exact view_modify fun _ => rfl
  | waited | setState =>
    cases hstep
    exact view_modify fun _ => rfl
  | reap =>
    obtain ⟨-, rfl⟩ := ite_some_none_eq_some.1 hstep
    rfl
  | setReaper =>
    cases hstep
    rfl
  | _ => exact ha.elim

/-- The same processes are alive and the same have ended, with the same links. -/
structure Quiet (s s' : State) : Prop where
  live : ∀ p, Live s' p ↔ Live s p
  terminated : ∀ p, Terminated s' p ↔ Terminated s p
  next : ∀ p, Created s p → s'.next p = s.next p

open Quiet

namespace Quiet

theorem refl (s : State) : Quiet s s := ⟨fun _ => Iff.rfl, fun _ => Iff.rfl, fun _ _ => rfl⟩

theorem created (h : Quiet s s') : Created s' p ↔ Created s p := by
  rw [created_iff, h.live, h.terminated, ← created_iff]

theorem trans (h : Quiet s s') (h' : Quiet s' s'') : Quiet s s'' where
  live p := (h'.live p).trans (h.live p)
  terminated p := (h'.terminated p).trans (h.terminated p)
  next p hp := by rw [h'.next p (h.created.2 hp), h.next p hp]

theorem runQueueOk (h : Quiet s s') (hok : RunQueueOk s) : RunQueueOk s' := by
  obtain ⟨hring, hended⟩ := hok
  constructor
  · apply congr hring h.live
    intro q hq
    exact h.next q hq.1
  · intro p hp
    have hp' := (h.terminated p).1 hp
    rw [h.next p hp'.1]
    exact hended p hp'

/-- Changes of the table and the processors. -/
theorem of_eq (hcount : s'.count = s.count) (hprocs : s'.procs = s.procs)
    (hnext : s'.next = s.next) : Quiet s s' where
  live p := by simp only [Live, Created, hcount, hprocs]
  terminated p := by simp only [Terminated, Created, hcount, hprocs]
  next p _ := by rw [hnext]

theorem of_view (h : s'.view = s.view) : Quiet s s' where
  live p := by
    change Live s'.view p ↔ Live s.view p
    rw [h]
  terminated p := by
    change Terminated s'.view p ↔ Terminated s.view p
    rw [h]
  next p _ := congrArg (fun s => s.next p) h

/-- Changes of the other fields of a process. -/
theorem modify (hf : ∀ proc, (f proc).created = proc.created ∧ (f proc).exited = proc.exited) :
    Quiet s (s.modify p f) := by
  have hsame : ∀ q, ((s.modify p f).procs q).created = (s.procs q).created ∧
      ((s.modify p f).procs q).exited = (s.procs q).exited := by
    intro q
    by_cases hq : q = p
    · subst hq
      simpa [State.modify] using hf (s.procs q)
    · simp [State.modify, hq]
  constructor
  · intro q
    simp only [Live, Created, hsame q, modify_count]
  · intro q
    simp only [Terminated, Created, hsame q, modify_count]
  · intro q _
    rfl

/-- A process that is set up is not in the queue. -/
theorem allocate {proc : Proc} (hproc : proc.created = false) : Quiet s (allocate s proc) := by
  have hcreated : ∀ q, Created (RunQueue.allocate s proc) q ↔ Created s q := by
    intro q
    unfold Created RunQueue.allocate
    by_cases hq : q = s.count
    · subst hq
      simp [hproc]
    · simp only [update_of_ne hq]
      constructor
      · rintro ⟨hlt, hc⟩
        exact ⟨by omega, hc⟩
      · rintro ⟨hlt, hc⟩
        exact ⟨by omega, hc⟩
  have hne : ∀ q, Created s q → q ≠ s.count := fun q hq => ne_of_lt hq.1
  have hexited : ∀ q, Created s q →
      ((RunQueue.allocate s proc).procs q).exited = (s.procs q).exited := by
    intro q hq
    simp [RunQueue.allocate, hne q hq]
  constructor
  · intro q
    unfold Live
    rw [hcreated q]
    exact and_congr_right fun hq => by rw [hexited q hq]
  · intro q
    unfold Terminated
    rw [hcreated q]
    exact and_congr_right fun hq => by rw [hexited q hq]
  · intro q hq
    simp [RunQueue.allocate, hne q hq]

/-- Changes of the table or the processors, and of one process. -/
theorem of_modify {s₀ : State} (hcount : s₀.count = s.count)
    (hprocs : s₀.procs = s.procs) (hnext : s₀.next = s.next)
    (hf : ∀ proc, (f proc).created = proc.created ∧ (f proc).exited = proc.exited) :
    Quiet s (s₀.modify p f) :=
  (of_eq hcount hprocs hnext).trans (modify hf)

theorem of_allocate {pid : BitVec 32} {proc : Proc} (hproc : proc.created = false) :
    Quiet s (RunQueue.allocate { s with nextPid := pid } proc) := by
  have hpid : Quiet s { s with nextPid := pid } := of_eq rfl rfl rfl
  exact hpid.trans (allocate hproc)

end Quiet

/-! ## Next in line -/

/-- The current process and the one next in line, where `process_schedule` looks for one. -/
def scheduleChoice (s : State) (cpu now : ℕ) : Option (ℕ × ℕ) :=
  match s.current cpu with
  | none => none
  | some cur =>
    if (s.procs cur).killPending = true ∧ (s.procs cur).pid ≠ 0 then none
    else
      (pickFrom s cur (fun p => matchesCpu (s.procs p) cpu && runnable (s.procs p) now)
        (s.next cur)).map fun found => (cur, found.getD (fallback s cpu cur))

/-- The ending process and the one next in line, where `process_terminate_current_with_status`
finds one. -/
def terminateChoice (s : State) (cpu : ℕ) (status : Int) : Option (ℕ × ℕ) :=
  match s.current cpu with
  | none => none
  | some cur =>
    let ended := (endSection s cur status).modify cur fun proc =>
      { proc with runningCpu := none }
    (pickFrom ended ((s.next cur).getD cur)
      (fun p => matchesCpu (ended.procs p) cpu && ready (ended.procs p)) (s.next cur)).bind
      fun found => (found <|> s.idle cpu).map fun p => (cur, p)

variable {now : ℕ} {status : Int}

/-- Nothing happens, or the processor goes to the chosen process, which may be woken. -/
theorem processSchedule_cases (h : processSchedule s cpu now = some s') :
    scheduleChoice s cpu now = none ∧ s' = s ∨ ∃ cur chosen s₁,
      scheduleChoice s cpu now = some (cur, chosen) ∧ (s₁ = s ∨ s₁ = s.modify chosen wake) ∧
      s' = switchTo s₁ cpu cur chosen := by
  unfold processSchedule at h
  unfold scheduleChoice
  cases hcur : s.current cpu with
  | none =>
    rw [hcur] at h
    cases h
    exact .inl ⟨rfl, rfl⟩
  | some cur =>
    simp only [hcur] at h ⊢
    by_cases hkill : (s.procs cur).killPending = true ∧ (s.procs cur).pid ≠ 0
    · rw [if_pos hkill] at h ⊢
      cases h
      exact .inl ⟨rfl, rfl⟩
    · rw [if_neg hkill] at h ⊢
      obtain ⟨found, hfound, rfl⟩ := map_eq_some_iff.1 h
      rw [hfound]
      refine .inr ⟨cur, found.getD (fallback s cpu cur), ?_⟩
      cases found with
      | none => exact ⟨s, rfl, .inl rfl, rfl⟩
      | some =>
        dsimp only
        split
        · exact ⟨_, rfl, .inr rfl, rfl⟩
        · exact ⟨s, rfl, .inl rfl, rfl⟩

/-- The current process has ended and is on no processor. -/
def stopped (s : State) (cur : ℕ) (status : Int) : State :=
  (endSection s cur status).modify cur fun proc => { proc with runningCpu := none }

/-- A processor starts a process. -/
def started (s : State) (cpu p : ℕ) : State :=
  { s with current := update s.current cpu (some p) }.modify p
    fun proc => { proc with runningCpu := some cpu }

/-- The ways through `process_terminate_current`. -/
theorem processTerminateCurrent_cases (h : processTerminateCurrent s cpu status = some s') :
    s.current cpu = none ∧ s' = s ∨ ∃ cur, s.current cpu = some cur ∧ Created s cur ∧
      (terminateChoice s cpu status = none ∧ s.idle cpu = none ∧ s' = stopped s cur status ∨
        ∃ chosen, terminateChoice s cpu status = some (cur, chosen) ∧
          s' = dropOrphan (notifySection (started (stopped s cur status) cpu chosen) cur) cur) := by
  unfold processTerminateCurrent at h
  unfold terminateChoice
  cases hcur : s.current cpu with
  | none =>
    rw [hcur] at h
    cases h
    exact .inl ⟨rfl, rfl⟩
  | some cur =>
    simp only [hcur] at h ⊢
    obtain ⟨hmortal, hsection⟩ := ite_none_right_eq_some.1 h
    obtain ⟨found, hfound, rfl⟩ := map_eq_some_iff.1 hsection
    refine .inr ⟨cur, rfl, hmortal.1, ?_⟩
    rw [hfound, bind_some]
    cases hnext : found <|> s.idle cpu with
    | none =>
      have hidle : (found <|> ((endSection s cur status).modify cur fun proc =>
          { proc with runningCpu := none }).idle cpu) = none := hnext
      rw [hidle]
      have hboth : found = none ∧ s.idle cpu = none := by simpa using hnext
      exact .inl ⟨rfl, hboth.2, rfl⟩
    | some p =>
      have hidle : (found <|> ((endSection s cur status).modify cur fun proc =>
          { proc with runningCpu := none }).idle cpu) = some p := hnext
      rw [hidle]
      exact .inr ⟨p, rfl, rfl⟩

theorem quiet_switchTo (cpu cur chosen : ℕ) : Quiet s (switchTo s cpu cur chosen) := by
  unfold switchTo
  split
  · exact refl s
  · have hcur : Quiet s (s.modify cur fun proc => { proc with runningCpu := none }) :=
      modify (by simp)
    apply hcur.trans
    apply trans (modify (p := chosen) (f := fun proc =>
      { proc with runningCpu := some cpu }) (by simp))
    exact of_eq rfl rfl rfl

theorem quiet_processSchedule (h : processSchedule s cpu now = some s') : Quiet s s' := by
  obtain ⟨-, rfl⟩ | ⟨cur, chosen, s₁, -, rfl | rfl, rfl⟩ := processSchedule_cases h
  · exact refl s'
  · exact quiet_switchTo _ _ _
  · exact (of_view (view_modify (by exact fun _ => rfl))).trans (quiet_switchTo _ _ _)

/-! ## A new process -/

section

theorem live_markCreated (hb : Building s p) :
    Live ({ s with next := next }.modify p markCreated) q ↔ Live s q ∨ q = p := by
  obtain ⟨hlt, -, hexited⟩ := hb
  unfold Live Created State.modify
  by_cases hq : q = p
  · subst hq
    simp [markCreated, hlt, hexited]
  · simp [hq]

theorem terminated_markCreated (hb : Building s p) :
    Terminated ({ s with next := next }.modify p markCreated) q ↔ Terminated s q := by
  obtain ⟨-, -, hexited⟩ := hb
  unfold Terminated Created State.modify
  by_cases hq : q = p
  · subst hq
    simp [markCreated, hexited]
  · simp [hq]

theorem Building.not_created (hb : Building s p) : ¬ Created s p := by
  intro hc
  have hEq := hc.2.symm.trans hb.2.1
  cases hEq

theorem linkAfter_self (h : p ≠ head) : linkAfter next head p p = next head := by
  simp [linkAfter, h]

theorem linkAfter_other (hhead : q ≠ head) (hp : q ≠ p) : linkAfter next head p q = next q := by
  simp [linkAfter, hhead, hp]

/-- A process is linked in behind the head of the ring. -/
theorem runQueueOk_linkAfter (hok : RunQueueOk s) (hb : Building s p) (hhead : Live s head) :
    RunQueueOk ({ s with next := linkAfter s.next head p }.modify p markCreated) := by
  obtain ⟨hring, hended⟩ := hok
  have hnew : ∀ q, Created s q → q ≠ p := by
    rintro q hq rfl
    exact hb.not_created hq
  constructor
  · apply insertAfter (p := head) (x := p) hring hhead
    · intro hlive
      exact hb.not_created hlive.1
    · exact update_self ..
    · exact linkAfter_self (Ne.symm (hnew head hhead.1))
    · intro y hy hne
      exact linkAfter_other hne (hnew y hy.1)
    · intro q
      exact live_markCreated hb
  · intro q hq
    have hq' := (terminated_markCreated hb).1 hq
    have hne : q ≠ head := by
      rintro rfl
      exact hhead.not_terminated hq'
    exact (linkAfter_other hne (hnew q hq'.1)).trans (hended q hq')

/-- The first process is a ring of its own. -/
theorem runQueueOk_linkSelf (hok : RunQueueOk s) (hb : Building s p) (hnone : ∀ q, ¬ Live s q) :
    RunQueueOk ({ s with next := update s.next p (some p) }.modify p markCreated) := by
  constructor
  · apply single (x := p)
    · simp [State.modify]
    · intro q
      exact (live_markCreated hb).trans (or_iff_right (hnone q))
  · intro q hq
    have hq' := (terminated_markCreated hb).1 hq
    have hne : q ≠ p := by
      rintro rfl
      exact hb.not_created hq'.1
    exact (update_of_ne hne _ _).trans (hok.2 q hq')

end

/-! ## The number of live processes -/

theorem mem_live_iff : q ∈ (List.range s.count).filter (fun p => decide (Live s p)) ↔ Live s q := by
  simp only [mem_filter, mem_range, decide_eq_true_eq, and_iff_right_iff_imp]
  intro hlive
  exact hlive.1.1

theorem not_live_of_liveCount (h : liveCount s = 0) : ¬ Live s q := by
  intro hlive
  have hmem := mem_live_iff.2 hlive
  rw [length_eq_zero_iff.1 h] at hmem
  exact not_mem_nil hmem

theorem runQueueOk_linkSection (hok : RunQueueOk s) (hb : Building s p)
    (hsafe : QueueSafe s (.link p)) : RunQueueOk (linkSection s p) := by
  change (queueHead s).elim (liveCount s = 0) (Live s) at hsafe
  unfold linkSection
  cases hhead : queueHead s with
  | none =>
    rw [hhead] at hsafe
    exact runQueueOk_linkSelf hok hb fun q => not_live_of_liveCount hsafe
  | some =>
    rw [hhead] at hsafe
    exact runQueueOk_linkAfter hok hb hsafe

theorem runQueueOk_spawnSection (hok : RunQueueOk s)
    (hsafe : (s.current cpu).elim True (Live s)) : RunQueueOk (spawnSection s cpu) := by
  unfold spawnSection
  cases hcur : s.current cpu with
  | none => exact hok
  | some parent =>
    rw [hcur] at hsafe
    -- the process is set up first, which leaves the queue alone
    have hquiet := @Quiet.of_allocate s (s.nextPid + 1) (fresh s.nextPid
      (s.procs parent).pid (s.procs parent).pgid (s.procs parent).cpuAffinity) rfl
    apply runQueueOk_linkAfter (hquiet.runQueueOk hok) _ ((hquiet.live parent).2 hsafe)
    exact ⟨Nat.lt_succ_self _, by simp [allocate, fresh], by simp [allocate, fresh]⟩

/-! ## The end of a process -/

section

variable {proc hops : ℕ}

/-- With enough hops the search arrives at the process before. -/
theorem scanPrev_eq (h : Visits next p (p :: ys) proc) (hproc : proc ∉ ys)
    (hhops : ys.length < hops) :
    scanPrev next proc hops p = (p :: ys).getLast (cons_ne_nil _ _) := by
  induction ys generalizing p hops with
  | nil =>
    obtain ⟨-, r, hr, rfl⟩ := h
    cases hops with
    | zero => rfl
    | succ => simp [scanPrev, hr]
  | cons y ys ih =>
    obtain ⟨-, r, hr, hrest⟩ := h
    obtain rfl : r = y := hrest.1
    obtain ⟨hne, hproc'⟩ := ne_and_not_mem_of_not_mem_cons hproc
    cases hops with
    | zero => simp at hhops
    | succ hops =>
      have hlen : ys.length < hops := by simpa using hhops
      have hgo : ¬ (r = proc ∨ hops = 0) := by
        rintro (hEq | hzero)
        · exact hne hEq.symm
        · omega
      simp only [scanPrev, hr, if_neg hgo]
      rw [ih hrest hproc' hlen, getLast_cons_cons]

/-- With too few hops it stops somewhere else. -/
theorem next_scanPrev_ne (h : Visits next p (p :: ys) proc) (hproc : proc ∉ ys)
    (hpos : 0 < hops) (hhops : hops ≤ ys.length) :
    next (scanPrev next proc hops p) ≠ some proc := by
  induction ys generalizing p hops with
  | nil =>
    simp only [length_nil, Nat.le_zero] at hhops
    omega
  | cons y ys ih =>
    obtain ⟨-, r, hr, hrest⟩ := h
    obtain rfl : r = y := hrest.1
    obtain ⟨hne, hproc'⟩ := ne_and_not_mem_of_not_mem_cons hproc
    obtain ⟨hops, rfl⟩ := Nat.exists_eq_succ_of_ne_zero (ne_of_gt hpos)
    by_cases hzero : hops = 0
    · simp only [scanPrev, hr, hzero, or_true, if_true, ne_eq, Option.some.injEq]
      exact fun hEq => hne hEq.symm
    · have hgo : ¬ (r = proc ∨ hops = 0) := by
        rintro (hEq | hz)
        · exact hne hEq.symm
        · exact hzero hz
      simp only [scanPrev, hr, if_neg hgo]
      apply ih hrest hproc' (Nat.pos_of_ne_zero hzero)
      simpa using hhops

end

section

variable {status : Int}

theorem live_endSection : Live (endSection s p status) q ↔ Live s q ∧ q ≠ p := by
  unfold Live Created endSection State.modify
  by_cases hq : q = p
  · subst hq
    simp [markEnded]
  · simp [hq]

theorem runqueueUnlink_self (next : ℕ → Option ℕ) : runqueueUnlink next p p = none := by
  unfold runqueueUnlink
  split
  next h => exact h
  next =>
    split
    · simp
    · dsimp only
      split <;> simp

/-- Whatever is found, the links of ended processes stay as they are, except that of `p`. -/
theorem runqueueUnlink_of_not_prev (hqp : q ≠ p) (hq : next q ≠ some p) :
    runqueueUnlink next p q = next q := by
  unfold runqueueUnlink
  split
  · rfl
  · split
    · simp [hqp]
    · dsimp only
      split
      next hb =>
        have hne : q ≠ scanPrev next p maxHops p := by
          intro hEq
          rw [← hEq] at hb
          exact hq hb
        simp [hqp, hne]
      next => simp [hqp]

/-- The circle from a live process, cut open behind it. -/
theorem exists_circle (hok : RunQueueOk s) (hp : Live s p) :
    ∃ xs, Visits s.next p (p :: xs) p ∧ (p :: xs).Nodup ∧ (∀ q, q ∈ p :: xs ↔ Live s q) ∧
      xs.length + 1 = liveCount s := by
  obtain ⟨xs, hvisits, hnodup, hmem⟩ := exists_cons hok.1 hp
  refine ⟨xs, hvisits, hnodup, hmem, Perm.length_eq
    ((perm_ext_iff_of_nodup hnodup (nodup_range.filter _)).2 fun q => ?_)⟩
  rw [hmem q, mem_live_iff]

/-- The circle without a process that ends. -/
theorem isRing_endSection (hok : RunQueueOk s) (hp : Live s p) (hcount : liveCount s ≤ maxHops) :
    IsRing (endSection s p status).next (Live (endSection s p status)) := by
  obtain ⟨xs, hvisits, hnodup, hmem, hlength⟩ := exists_circle hok hp
  have hnotmem : p ∉ xs := (nodup_cons.1 hnodup).1
  rcases eq_nil_or_concat xs with rfl | ⟨ys, b, rfl⟩
  · -- it was the only one
    intro q hq
    obtain ⟨hlive, hne⟩ := live_endSection.1 hq
    exact absurd (mem_singleton.1 ((hmem q).2 hlive)) hne
  · rw [concat_eq_append] at hvisits hnodup hmem hlength hnotmem
    have hlt : (ys ++ [b]).length < maxHops := by omega
    have hscan : scanPrev s.next p maxHops p = b := by
      rw [scanPrev_eq hvisits hnotmem hlt]
      simp
    obtain ⟨-, r, hr, hrest⟩ := id hvisits
    have hb : s.next b = some p := hrest.next_last
    have hbp : b ≠ p := by
      rintro rfl
      exact hnotmem (by simp)
    have hrp : r ≠ p := by
      -- the node after `p` is the first of the others
      intro hEq
      apply hnotmem
      cases ys with
      | nil => exact absurd (hrest.1.symm.trans hEq) hbp
      | cons => simp [← hEq, hrest.1]
    have hlinks : (endSection s p status).next = update (update s.next b (some r)) p none := by
      simp [endSection, State.modify, runqueueUnlink, hr, hrp, hscan, hb]
    apply unlink hvisits hnodup hmem
    · rw [hlinks, hr]
      simp [hbp]
    · intro y hy
      have hyp : y ≠ p := by
        rintro rfl
        exact hnotmem (by simp [hy])
      have hyb : y ≠ b := by
        rintro rfl
        exact (nodup_append.1 (nodup_cons.1 hnodup).2).2.2 y hy y (by simp) rfl
      rw [hlinks]
      simp [hyp, hyb]
    · intro q
      exact live_endSection

/-- A process leaves the ring, if the walk to its predecessor is not cut off. -/
theorem runQueueOk_endSection (hok : RunQueueOk s) (hc : Created s p)
    (hcount : Live s p → liveCount s ≤ maxHops) : RunQueueOk (endSection s p status) := by
  constructor
  · rcases created_iff.1 hc with hlive | hended
    · exact isRing_endSection hok hlive (hcount hlive)
    · -- it had ended before
      apply congr hok.1
      · intro q
        rw [live_endSection, and_iff_left_iff_imp]
        rintro hlive rfl
        exact hlive.not_terminated hended
      · intro q _
        simp [endSection, State.modify, runqueueUnlink, hok.2 p hended]
  · intro q hq
    by_cases hqp : q = p
    · subst hqp
      exact runqueueUnlink_self s.next
    · have hq' : Terminated s q := by
        simpa [Terminated, Created, endSection, State.modify, hqp] using hq
      have hnone := hok.2 q hq'
      exact (runqueueUnlink_of_not_prev hqp (by simp [hnone])).trans hnone

/-- The current process ends; the rest leaves the queue alone. -/
theorem quiet_processTerminateCurrent (h : processTerminateCurrent s cpu status = some s') :
    s' = s ∨ ∃ cur, s.current cpu = some cur ∧ Created s cur ∧
      Quiet (endSection s cur status) s' := by
  obtain ⟨-, rfl⟩ | ⟨cur, hcur, hc, hcase⟩ := processTerminateCurrent_cases h
  · exact .inl rfl
  have hstopped : Quiet (endSection s cur status) (stopped s cur status) := modify (by simp)
  refine .inr ⟨cur, hcur, hc, ?_⟩
  obtain ⟨-, -, rfl⟩ | ⟨chosen, -, rfl⟩ := hcase
  · exact hstopped
  · apply hstopped.trans
    apply trans _ (of_view (view_dropOrphan.trans view_notifySection))
    apply of_modify <;> simp

theorem runQueueOk_processTerminateCurrent (hok : RunQueueOk s)
    (hsafe : QueueSafe s (.terminateCurrent cpu status))
    (h : processTerminateCurrent s cpu status = some s') : RunQueueOk s' := by
  change (s.current cpu).elim True fun cur => Live s cur → liveCount s ≤ maxHops at hsafe
  obtain rfl | ⟨cur, hcur, hc, hquiet⟩ := quiet_processTerminateCurrent h
  · exact hok
  · rw [hcur] at hsafe
    exact hquiet.runQueueOk (runQueueOk_endSection hok hc hsafe)

end

/-! ## The loops of the scheduler end -/

section

variable {ok : ℕ → Bool} {start fuel : ℕ}

/-- The walk of the scheduler ends within one round of the ring. -/
theorem isSome_pick (h : Visits next p ys start) (hne : ys ≠ [])
    (hfuel : ys.length ≤ fuel) : (pick next start ok fuel p).isSome = true := by
  induction ys generalizing p fuel with
  | nil => exact absurd rfl hne
  | cons y ys ih =>
    obtain ⟨rfl, r, hr, hrest⟩ := h
    obtain ⟨fuel, rfl⟩ : ∃ n, fuel = n + 1 := ⟨fuel - 1, by simp at hfuel; omega⟩
    unfold pick
    split
    · rfl
    · simp only [hr]
      split
      · rfl
      next hstart =>
        apply ih hrest
        · rintro rfl
          exact hstart hrest
        · simpa using hfuel

theorem liveCount_le : liveCount s ≤ s.count := by
  simpa [liveCount] using length_filter_le (fun p => decide (Live s p)) (List.range s.count)

/-- From the process after a live one the loop comes back to that one. -/
theorem isSome_pickFrom (hok : RunQueueOk s) (hc : Created s p) :
    (pickFrom s p ok (s.next p)).isSome = true := by
  rcases created_iff.1 hc with hlive | hended
  · obtain ⟨xs, ⟨-, r, hr, hrest⟩, -, -, hlength⟩ := exists_circle hok hlive
    have hcount := liveCount_le (s := s)
    rw [hr]
    cases xs with
    | nil =>
      obtain rfl : r = p := hrest
      have hself : Visits s.next r [r] r := ⟨rfl, r, hr, rfl⟩
      apply isSome_pick hself (cons_ne_nil _ _)
      simp only [length_nil, length_singleton] at hlength ⊢
      omega
    | cons => exact isSome_pick hrest (cons_ne_nil _ _) (by omega)
  · rw [hok.2 p hended]
    rfl

end

/-! ## Runs -/

theorem runQueueOk_processInit (cpuCount : ℕ) : RunQueueOk (processInit cpuCount) := by
  have hcreated : ∀ p, Created (processInit cpuCount) p ↔ p = 0 := by
    intro p
    simp [Created, processInit]
  constructor
  · apply single (x := 0)
    · rfl
    · intro q
      unfold Live
      rw [hcreated q]
      simp [processInit, fresh]
  · intro p hp
    have hEq : false = true := hp.2
    cases hEq

/-- A piece that meets the condition keeps the queue one cycle. -/
theorem runQueueOk_step {a : Act} (hok : RunQueueOk s) (hsafe : QueueSafe s a)
    (hstep : step s a = some s') : RunQueueOk s' := by
  cases a with
  | create | createElf =>
    cases hstep
    exact (of_allocate rfl).runQueueOk hok
  | link =>
    obtain ⟨hb, rfl⟩ := ite_some_none_eq_some.1 hstep
    exact runQueueOk_linkSection hok hb hsafe
  | duplicate | createThread =>
    cases hstep
    exact runQueueOk_spawnSection hok hsafe
  | apEntry cpu p =>
    obtain ⟨-, rfl⟩ := ite_some_none_eq_some.1 hstep
    have hquiet : Quiet s (apEntry s cpu p) := by
      apply of_modify <;> simp
    exact hquiet.runQueueOk hok
  | schedule => exact (quiet_processSchedule hstep).runQueueOk hok
  | terminate =>
    obtain ⟨hmortal, rfl⟩ := ite_some_none_eq_some.1 hstep
    exact runQueueOk_endSection hok hmortal.1 hsafe
  | terminateCurrent => exact runQueueOk_processTerminateCurrent hok hsafe hstep
  | _ => exact (of_view (view_step (by trivial) hstep)).runQueueOk hok

theorem reachable_runCalls {ok : State → Act → Prop} (hok : ∀ s a, ok s a)
    {calls : List (State → List Act)} (h : runQueueSystem.Reachable ok s)
    (hrun : runCalls s calls = some s') : runQueueSystem.Reachable ok s' := by
  have hpieces : ∀ (acts : List Act) (s s' : State), runQueueSystem.Reachable ok s →
      acts.foldlM step s = some s' → runQueueSystem.Reachable ok s' := by
    intro acts
    induction acts with
    | nil =>
      intro s s' h hrun
      cases hrun
      exact h
    | cons a acts ih =>
      intro s s' h hrun
      obtain ⟨s₁, hfirst, hrest⟩ := Option.bind_eq_some_iff.1 hrun
      exact ih s₁ s' (h.next (hok s a) hfirst) hrest
  induction calls generalizing s with
  | nil =>
    cases hrun
    exact h
  | cons call calls ih =>
    obtain ⟨s₁, hfirst, hrest⟩ := Option.bind_eq_some_iff.1 hrun
    exact ih (hpieces (call s) s s₁ h hfirst) hrest

/-- In a run in which new processes are put behind live ones and at most 2048 processes are alive
when one ends, the queue is the cycle of the live processes and has none that has ended. -/
theorem run_queue_of_safe_run (h : runQueueSystem.Reachable QueueSafe s) : RunQueueOk s := by
  apply h.invariant (I := RunQueueOk)
  · rintro s ⟨cpuCount, rfl⟩
    exact runQueueOk_processInit cpuCount
  · intro s a s' hok hsafe hstep
    exact runQueueOk_step hok hsafe hstep

/-- A process is started, forks, and ends before its child, while processor 0 goes through the
queue. -/
def shortRun : List Act :=
  [.createElf 0 false, .link 1, .insert 1, .createElf 0 false, .link 2, .insert 2,
    .schedule 0 0, .duplicate 0, .insert 3, .reparent 2, .terminateCurrent 0 0, .reap 2]

theorem run_queue_of_safe_run_short :
    ∃ s, System.runWithin step QueueSafe (processInit 1) shortRun = some s ∧ Live s 3 ∧
      RunQueueOk s := by
  refine (exists_of_any (P := (Live · 3)) ?_).imp fun s ⟨hrun, hlive⟩ =>
    ⟨hrun, hlive, run_queue_of_safe_run ?_⟩
  · decide +kernel
  · apply System.Reachable.of_runWithin (fun _ _ _ h => h) _ hrun
    exact System.Reachable.start ⟨1, rfl⟩

/-- Three processes are started. The first sleeps, the second waits and the third is marked to be
killed. -/
def stoppedRun : List Act :=
  [.createElf 0 false, .link 1, .insert 1, .createElf 0 false, .link 2, .insert 2,
    .createElf 0 false, .link 3, .insert 3, .setState 1 true 9, .setState 2 true 0, .condemn 3 0]

/-- The process with pid 128 heads the first chain and has ended when the next one is created, which
is then linked to nothing. -/
theorem run_queue_not_cycle :
    ∃ s, runQueueSystem.Reachable (fun _ _ => True) s ∧ ¬ RunQueueOk s := by
  obtain ⟨s, hrun, hlive, hnone⟩ : ∃ s, runCalls (processInit 1)
      (List.replicate 128 (fun s => processCreateElf s 0 false) ++
        [fun s => processTerminateWithStatus s 128 0, fun s => processCreateElf s 0 false]) =
      some s ∧ Live s 129 ∧ s.next 129 = none := by
    apply exists_of_any
    decide +kernel
  refine ⟨s, reachable_runCalls (fun _ _ => trivial) (.start ⟨1, rfl⟩) hrun, ?_⟩
  intro hok
  obtain ⟨q, hq, -⟩ := exists_next hok.1 hlive
  rw [hnone] at hq
  cases hq

/-! ## The conditions are needed -/

/-- Behind an ended process a new one is not linked to any other. -/
theorem not_runQueueOk_link (hok : RunQueueOk s) (hb : Building s p)
    (hhead : queueHead s = some head) (hended : Terminated s head) :
    ¬ RunQueueOk (linkSection s p) := by
  intro hafter
  have hlive : Live (linkSection s p) p := (live_markCreated hb).2 (.inr rfl)
  obtain ⟨q, hq, -⟩ := exists_next hafter.1 hlive
  have hne : p ≠ head := by
    rintro rfl
    exact hb.not_created hended.1
  have hnone : (linkSection s p).next p = none := by
    simp only [linkSection, hhead, State.modify, linkAfter_self hne]
    exact hok.2 head hended
  rw [hnone] at hq
  cases hq

/-- With more live processes the one before is not found and still links to the ended one. -/
theorem not_runQueueOk_end {status : Int} (hok : RunQueueOk s) (hp : Live s p)
    (hcount : maxHops < liveCount s) : ¬ RunQueueOk (endSection s p status) := by
  intro hafter
  obtain ⟨xs, hvisits, hnodup, hmem, hlength⟩ := exists_circle hok hp
  have hnotmem : p ∉ xs := (nodup_cons.1 hnodup).1
  obtain ⟨-, r, hr, hrest⟩ := id hvisits
  rcases eq_nil_or_concat xs with rfl | ⟨ys, b, rfl⟩
  · simp only [length_nil, maxHops] at hlength hcount
    omega
  rw [concat_eq_append] at hvisits hnodup hmem hlength hnotmem hrest
  have hbp : b ≠ p := by
    rintro rfl
    exact hnotmem (by simp)
  have hscan : s.next (scanPrev s.next p maxHops p) ≠ some p := by
    apply next_scanPrev_ne hvisits hnotmem (by simp [maxHops])
    omega
  have hlinks : (endSection s p status).next = update s.next p none := by
    simp [endSection, State.modify, runqueueUnlink, hr, hscan]
  have hlive : Live (endSection s p status) b :=
    live_endSection.2 ⟨(hmem b).1 (by simp), hbp⟩
  obtain ⟨q, hq, hqlive⟩ := exists_next hafter.1 hlive
  rw [hlinks, update_of_ne hbp, hrest.next_last] at hq
  cases hq
  exact (live_endSection.1 hqlive).2 rfl

/-- So from a queue in order, linking a new process and ending one keep it so exactly under these
conditions. -/
theorem queue_kept_iff (hok : RunQueueOk s) :
    (∀ p head, Building s p → queueHead s = some head → Created s head →
      (RunQueueOk (linkSection s p) ↔ Live s head)) ∧
    ∀ p status, Mortal s p →
      (RunQueueOk (processTerminateSection s p status) ↔ (Live s p → liveCount s ≤ maxHops)) := by
  refine ⟨fun p head hb hhead hc => ⟨fun h => ?_, fun hlive => ?_⟩,
    fun p status hp => ⟨fun h hlive => ?_, runQueueOk_endSection hok hp.1⟩⟩
  · exact (created_iff.1 hc).resolve_right fun hended => not_runQueueOk_link hok hb hhead hended h
  · exact runQueueOk_linkSection hok hb (by simpa [QueueSafe, hhead])
  · exact not_lt.1 fun hlt => not_runQueueOk_end hok hlive hlt h

theorem queue_kept_iff_second :
    RunQueueOk (linkSection (processCreateElfAlloc (processInit 1) 0 false) 1) :=
  ((queue_kept_iff ((Quiet.of_allocate rfl).runQueueOk (runQueueOk_processInit 1))).1 1 0
    (by decide) rfl (by decide)).2 (by decide)

end BoredOS.Sys.RunQueue
