import BoredOS.Lib.Transition

/-!
# The Semaphore of an Address Space

`vmm_down_read`, `vmm_up_read`, `vmm_down_write` and `vmm_up_write` of `mem/vmm.c` over the wait
queue of `sys/wait_queue.c`, by any number of tasks. A step is a section under the lock of the
semaphore, an operation on the queue or a store into the state of a task. `wait_queue_wake_all` is
called with the lock held, so it is a step of its own before which nobody else takes the lock.

The semaphore excludes in every run. A task registers as waiting in one section and goes to sleep
later, without the lock; what is done in between may leave it asleep (`SemSafe` tells when).
-/

namespace BoredOS.Mem.Vmm.Semaphore

open Function Lib.Transition Option List

/-- What a task asks for. -/
inductive Kind where
  | read
  | write
  deriving DecidableEq

/-- Where a task is in `vmm_down_read` or `vmm_down_write`. Between `registered` and `removed` it is
inside `wait_queue_wait`: it is marked as blocked, then on the queue, and taken off it again. -/
inductive Pc where
  | idle
  | trying (kind : Kind)
  | registered (kind : Kind)
  | blocking (kind : Kind)
  | queued (kind : Kind)
  | removed (kind : Kind)
  deriving DecidableEq

/-- `vmm_rwsem_t` and the tasks: where they are, and which are in `PROC_STATE_BLOCKED`. `readers`
and `writers` are the tasks between a down and its up. `waker` is the task at the end of an up: it
has the lock and is about to call `wait_queue_wake_all`. A waiting task is counted once, so no
counter goes below zero. -/
structure SemState where
  count : ℤ
  waitReaders : ℕ
  waitWriters : ℕ
  waitQ : List ℕ
  readers : List ℕ
  writers : List ℕ
  pc : ℕ → Pc
  blocked : List ℕ
  waker : Option ℕ

open SemState

def SemState.goto (s : SemState) (t : ℕ) (pc : Pc) : SemState := { s with pc := update s.pc t pc }

/-! ## The wait queue -/

def waitQueueAdd (s : SemState) (t : ℕ) : SemState :=
  { s with waitQ := if t ∈ s.waitQ then s.waitQ else t :: s.waitQ }

def waitQueueRemove (s : SemState) (t : ℕ) : SemState := { s with waitQ := s.waitQ.erase t }

def waitQueueWakeAll (s : SemState) : SemState :=
  { s with blocked := s.blocked.filter (· ∉ s.waitQ) }

/-! ## The calls -/

/-- The first section of `vmm_down_read`. -/
def vmmDownRead (s : SemState) (t : ℕ) : SemState :=
  if 0 ≤ s.count ∧ s.waitWriters = 0 then
    { s with count := s.count + 1, readers := t :: s.readers }.goto t .idle
  else { s with waitReaders := s.waitReaders + 1 }.goto t (.registered .read)

/-- The first section of `vmm_down_write`. -/
def vmmDownWrite (s : SemState) (t : ℕ) : SemState :=
  if s.count = 0 then { s with count := -1, writers := t :: s.writers }.goto t .idle
  else { s with waitWriters := s.waitWriters + 1 }.goto t (.registered .write)

/-- The section after the wait; the loop then starts again. -/
def afterWait (s : SemState) (t : ℕ) : Kind → SemState
  | .read => { s with waitReaders := s.waitReaders - 1 }.goto t (.trying .read)
  | .write => { s with waitWriters := s.waitWriters - 1 }.goto t (.trying .write)

/-- The section of `vmm_up_read`, up to the wake-up. -/
def vmmUpRead (s : SemState) (t : ℕ) : SemState :=
  let s := { s with readers := s.readers.erase t }
  if 0 < s.count then
    { s with
      count := s.count - 1
      waker := if s.count - 1 = 0 ∧ 0 < s.waitWriters then some t else none }
  else s

/-- The section of `vmm_up_write`, up to the wake-up. -/
def vmmUpWrite (s : SemState) (t : ℕ) : SemState :=
  { s with
    writers := s.writers.erase t
    count := 0
    waker := if 0 < s.waitWriters ∨ 0 < s.waitReaders then some t else none }

/-- The next step of a task that waits or is about to. A blocked task is not run. -/
def semNext (s : SemState) (t : ℕ) : Option SemState :=
  match s.pc t with
  | .idle => none
  | .trying .read => if s.waker = none then some (vmmDownRead s t) else none
  | .trying .write => if s.waker = none then some (vmmDownWrite s t) else none
  | .registered kind => some ({ s with blocked := t :: s.blocked }.goto t (.blocking kind))
  | .blocking kind => some ((waitQueueAdd s t).goto t (.queued kind))
  | .queued kind =>
    if t ∉ s.blocked then some ((waitQueueRemove s t).goto t (.removed kind)) else none
  | .removed kind => if s.waker = none then some (afterWait s t kind) else none

/-- A task makes a call, goes on with it, or leaves the semaphore; the queue is woken. -/
inductive SemAct where
  | down (t : ℕ) (kind : Kind)
  | next (t : ℕ)
  | up (t : ℕ) (kind : Kind)
  | wake

def semStep (s : SemState) : SemAct → Option SemState
  | .down t kind =>
    if s.pc t = .idle ∧ s.waker ≠ some t then some (s.goto t (.trying kind)) else none
  | .next t => semNext s t
  | .up t .read => if t ∈ s.readers ∧ s.waker = none then some (vmmUpRead s t) else none
  | .up t .write => if t ∈ s.writers ∧ s.waker = none then some (vmmUpWrite s t) else none
  | .wake => s.waker.map fun _ => { waitQueueWakeAll s with waker := none }

def vmmRwsemInit : SemState :=
  { count := 0, waitReaders := 0, waitWriters := 0, waitQ := [], readers := [], writers := [],
    pc := fun _ => .idle, blocked := [], waker := none }

def semSystem : System SemState SemAct where
  init s := s = vmmRwsemInit
  step s e s' := semStep s e = some s'

/-! ## The property -/

/-- There are only readers, and `count` is their number, or there is one writer and `count` is
-1. -/
def Exclusive (s : SemState) : Prop :=
  s.writers = [] ∧ s.count = s.readers.length ∨ s.readers = [] ∧ s.writers.length = 1 ∧ s.count = -1

/-- A task is blocked, and nobody holds the semaphore or is about to wake the queue. -/
def Stranded (s : SemState) : Prop :=
  s.count = 0 ∧ s.blocked ≠ [] ∧ s.waker = none ∧ s.readers = [] ∧ s.writers = []
  deriving Decidable

/-- A task goes to sleep while the semaphore is held or the queue is about to be woken; when the
queue is woken, every blocked task is on it; and the last holder wakes the queue unless nobody is
blocked. -/
def SemSafe (s : SemState) : SemAct → Prop
  | .down _ _ => True
  | .next t =>
    s.pc t = .registered .read ∨ s.pc t = .registered .write → s.count = 0 → s.waker ≠ none
  | .up _ .read => s.count = 1 → 0 < s.waitWriters ∨ s.blocked = []
  | .up _ .write => (0 < s.waitWriters ∨ 0 < s.waitReaders) ∨ s.blocked = []
  | .wake => ∀ q ∈ s.blocked, q ∈ s.waitQ

instance (s : SemState) : (e : SemAct) → Decidable (SemSafe s e)
  | .down _ _ => .isTrue trivial
  | .next t => inferInstanceAs (Decidable (s.pc t = .registered .read ∨
      s.pc t = .registered .write → s.count = 0 → s.waker ≠ none))
  | .up _ .read => inferInstanceAs (Decidable (s.count = 1 → 0 < s.waitWriters ∨ s.blocked = []))
  | .up _ .write => inferInstanceAs
      (Decidable ((0 < s.waitWriters ∨ 0 < s.waitReaders) ∨ s.blocked = []))
  | .wake => inferInstanceAs (Decidable (∀ q ∈ s.blocked, q ∈ s.waitQ))

/-! ## Every run -/

variable {s s' : SemState} {t : ℕ}

/-- While the queue is about to be woken nobody has the semaphore. -/
structure Inv (s : SemState) : Prop where
  exclusive : Exclusive s
  freed : s.waker ≠ none → s.count = 0

/-- If `count` is 0, there is no holder. -/
theorem Inv.stranded_iff {P : Prop} (h : Inv s')
    (hiff : ¬ (s'.count = 0 ∧ s'.blocked ≠ [] ∧ s'.waker = none) ↔ P) :
    Inv s' ∧ (¬ Stranded s → (¬ Stranded s' ↔ P)) := by
  refine ⟨h, fun _ => hiff.symm.trans (not_congr ?_) |>.symm⟩
  refine ⟨fun ⟨hcount, hblocked, hwaker⟩ => ?_, fun hs => ⟨hs.1, hs.2.1, hs.2.2.1⟩⟩
  obtain ⟨hw, hr⟩ | ⟨-, -, hneg⟩ := h.exclusive
  · exact ⟨hcount, hblocked, hwaker, by simpa [hcount] using hr.symm, hw⟩
  · omega

/-- A step of a task that waits or is about to: the invariant is kept, and the task is stranded
exactly if the step does not meet the condition. -/
theorem next_spec (h : Inv s) (hstep : semNext s t = some s') :
    Inv s' ∧ (¬ Stranded s → (¬ Stranded s' ↔ SemSafe s (.next t))) := by
  have hmeets : (∀ kind, s.pc t ≠ .registered kind) → SemSafe s (.next t) :=
    fun hne hreg => absurd hreg (not_or.2 ⟨hne _, hne _⟩)
  -- most steps touch nothing that the property is about
  have hquiet : ∀ u, Inv u → (¬ Stranded s → ¬ Stranded u) → (∀ kind, s.pc t ≠ .registered kind) →
      Inv u ∧ (¬ Stranded s → (¬ Stranded u ↔ SemSafe s (.next t))) :=
    fun u hu hfree hne => ⟨hu, fun hs => iff_of_true (hfree hs) (hmeets hne)⟩
  unfold semNext at hstep
  cases hpc : s.pc t with
  | idle => simp [hpc] at hstep
  | trying kind =>
    cases kind with
    | read =>
      simp only [hpc] at hstep
      obtain ⟨hlock, rfl⟩ := ite_some_none_eq_some.1 hstep
      unfold vmmDownRead
      split
      next hfree =>
        refine hquiet _ ⟨.inl ?_, fun hne => absurd hlock hne⟩ (fun _ hs => ?_) (by simp [hpc])
        · obtain ⟨hw, hr⟩ | ⟨-, -, hneg⟩ := h.exclusive
          · exact ⟨hw, by simp [goto, hr]⟩
          · omega
        · exact cons_ne_nil _ _ hs.2.2.2.1
      next => exact hquiet _ ⟨h.1, h.2⟩ id (by simp [hpc])
    | write =>
      simp only [hpc] at hstep
      obtain ⟨hlock, rfl⟩ := ite_some_none_eq_some.1 hstep
      unfold vmmDownWrite
      split
      next hfree =>
        refine hquiet _ ⟨.inr ?_, fun hne => absurd hlock hne⟩ (fun _ hs => ?_) (by simp [hpc])
        · obtain ⟨hw, hr⟩ | ⟨-, -, hneg⟩ := h.exclusive
          · exact ⟨by simpa [goto, hfree] using hr.symm, by simp [goto, hw], rfl⟩
          · omega
        · exact cons_ne_nil _ _ hs.2.2.2.2
      next => exact hquiet _ ⟨h.1, h.2⟩ id (by simp [hpc])
  | registered kind =>
    simp only [hpc] at hstep
    cases hstep
    refine Inv.stranded_iff ⟨h.1, h.2⟩ ?_
    cases kind <;> simp [SemSafe, hpc, goto]
  | blocking =>
    simp only [hpc] at hstep
    cases hstep
    exact hquiet _ ⟨h.1, h.2⟩ id (by simp [hpc])
  | queued =>
    simp only [hpc] at hstep
    obtain ⟨-, rfl⟩ := ite_some_none_eq_some.1 hstep
    exact hquiet _ ⟨h.1, h.2⟩ id (by simp [hpc])
  | removed kind =>
    simp only [hpc] at hstep
    obtain ⟨-, rfl⟩ := ite_some_none_eq_some.1 hstep
    cases kind with
    | read | write => exact hquiet _ ⟨h.1, h.2⟩ id (by simp [hpc])

theorem step_spec {e : SemAct} (h : Inv s) (hstep : semStep s e = some s') :
    Inv s' ∧ (¬ Stranded s → (¬ Stranded s' ↔ SemSafe s e)) := by
  cases e with
  | down =>
    obtain ⟨-, rfl⟩ := ite_some_none_eq_some.1 hstep
    exact ⟨⟨h.1, h.2⟩, fun hs => iff_of_true hs trivial⟩
  | next => exact next_spec h hstep
  | up t kind =>
    cases kind with
    | read =>
      obtain ⟨⟨ht, -⟩, rfl⟩ := ite_some_none_eq_some.1 hstep
      obtain ⟨hw, hr⟩ | ⟨hnil, -⟩ := h.exclusive
      · have hlen := length_erase_of_mem ht
        have hpos := length_pos_of_mem ht
        simp only [vmmUpRead, if_pos (show 0 < s.count by omega)]
        refine Inv.stranded_iff ⟨.inl ⟨hw, by simp only; omega⟩, fun hne => ?_⟩ ?_
        · by_contra hzero
          exact hne (if_neg fun htest => hzero htest.1)
        · by_cases hlast : s.count = 1
          · by_cases hww : 0 < s.waitWriters <;> simp [SemSafe, hlast, hww]
          · have hne : s.count - 1 ≠ 0 := by omega
            simp [SemSafe, hlast, hne]
      · simp [hnil] at ht
    | write =>
      obtain ⟨⟨ht, -⟩, rfl⟩ := ite_some_none_eq_some.1 hstep
      obtain ⟨hw, -⟩ | ⟨hr, hone, -⟩ := h.exclusive
      · simp [hw] at ht
      · have hnone : s.writers.erase t = [] := by
          rw [← length_eq_zero_iff, length_erase_of_mem ht, hone]
        refine Inv.stranded_iff ⟨.inl ⟨hnone, by simp [vmmUpWrite, hr]⟩, fun _ => rfl⟩ ?_
        by_cases htest : 0 < s.waitWriters ∨ 0 < s.waitReaders <;>
          simp [vmmUpWrite, SemSafe, htest]
  | wake =>
    obtain ⟨t, ht, rfl⟩ := map_eq_some_iff.1 hstep
    have hcount := h.freed (by simp [ht])
    exact Inv.stranded_iff ⟨h.1, fun hne => absurd rfl hne⟩
      (by simp [waitQueueWakeAll, SemSafe, hcount])

theorem inv_vmmRwsemInit : Inv vmmRwsemInit := ⟨.inl ⟨rfl, rfl⟩, fun _ => rfl⟩

/-- The semaphore excludes in every run. In a run whose steps all meet the condition nobody is
stranded, and the first step that does not meet it strands a task. -/
theorem mmap_sem_of_safe_run (s : SemState) :
    (semSystem.Reachable (fun _ _ => True) s → Exclusive s) ∧
    (semSystem.Reachable SemSafe s → ¬ Stranded s ∧
      ∀ e s', semStep s e = some s' → (¬ Stranded s' ↔ SemSafe s e)) := by
  refine ⟨fun h => ?_, fun h => ?_⟩
  · apply Inv.exclusive
    apply h.invariant
    · rintro _ rfl
      exact inv_vmmRwsemInit
    · exact fun s e s' hs _ hstep => (step_spec hs hstep).1
  · obtain ⟨hinv, hfree⟩ : Inv s ∧ ¬ Stranded s := by
      apply h.invariant (I := fun s => Inv s ∧ ¬ Stranded s)
      · rintro _ rfl
        exact ⟨inv_vmmRwsemInit, by decide⟩
      · rintro s e s' ⟨hinv, hfree⟩ hsafe hstep
        obtain ⟨hinv', hiff⟩ := step_spec hinv hstep
        exact ⟨hinv', (hiff hfree).2 hsafe⟩
    exact ⟨hfree, fun e s' hstep => (step_spec hinv hstep).2 hfree⟩

/-- A reader waits for a writer, is woken and gets the semaphore. -/
theorem mmap_sem_of_safe_run_woken : ∃ s, System.runWithin semStep SemSafe vmmRwsemInit
      [.down 0 .write, .next 0, .down 1 .read, .next 1, .next 1, .next 1, .up 0 .write, .wake,
        .next 1, .next 1, .next 1] = some s ∧ s.readers = [1] ∧ ¬ Stranded s := by
  refine (exists_of_any (P := fun s => s.readers = [1]) ?_).imp fun s ⟨hrun, hreaders⟩ =>
    ⟨hrun, hreaders, ((mmap_sem_of_safe_run s).2 ?_).1⟩
  · decide +kernel
  · exact .of_runWithin (fun _ _ _ h => h) (.start rfl) hrun

/-- A task registers behind a writer, which leaves and wakes an empty queue; then the task goes to
sleep, and nobody else is in a call. -/
theorem mmap_sem_strands : ∃ s, System.runWithin semStep (fun _ _ => True) vmmRwsemInit
      [.down 0 .write, .next 0, .down 1 .write, .next 1, .up 0 .write, .wake, .next 1, .next 1] =
        some s ∧ Stranded s ∧ s.blocked = [1] ∧ s.waitQ = [1] := by
  apply exists_of_any
  decide +kernel

end BoredOS.Mem.Vmm.Semaphore
