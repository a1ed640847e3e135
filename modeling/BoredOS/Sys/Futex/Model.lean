import BoredOS.Lib.SList
import BoredOS.Mem.Mmu.Translation
import BoredOS.Sys.RunQueue.Processors

/-!
# Futexes

`FUTEX_WAIT` and `FUTEX_WAKE` of `sys/syscall_time.c`. A waiting process is put at the head of a
list by a node that is part of the process, under the physical address of the word at that time. A
wake walks the list of its own key and takes out the nodes that have its physical address, or its
address space and address.

The other calls are those of `Sys.RunQueue`, in any interleaving; a run may also change the page
tables at any time and in any way, which covers page faults, copies on write and forks. `waits`
records the past: the address on which a process is blocked in `FUTEX_WAIT`. The code does not keep
it.
-/

namespace BoredOS.Sys.Futex

open Function Option Lib.SList Lib.Transition Mem.Pmm Mem.Mmu RunQueue

/-- `struct futex_waiter_entry`, without the pointer to the process that it is part of. -/
structure Waiter where
  uaddr : ℕ
  pml4Phys : ℕ
  physAddr : ℕ
  next : Option ℕ

/-- The processes, the page tables and the futex buckets. A process has the frame of its PML4,
which names its address space; a node is named by its process. -/
structure FutexState where
  rq : State
  mm : Mm
  pml4 : ℕ → ℕ
  head : ℕ → Option ℕ
  node : ℕ → Waiter
  waits : ℕ → Option ℕ

/-! ## The keys -/

def futexBuckets : ℕ := 64

/-- `proc->pml4_phys`. -/
def pml4Phys (m : FutexState) (p : ℕ) : ℕ := m.pml4 p * pageSize

def futexGetPhys (m : FutexState) (p uaddr : ℕ) : ℕ := mmuVirtToPhys m.mm (m.pml4 p) uaddr

def futexKey (m : FutexState) (p uaddr : ℕ) : ℕ :=
  let phys := futexGetPhys m p uaddr
  if phys ≠ 0 then phys else uaddr ^^^ pml4Phys m p

/-- `futex_bucket`: `(key >> 2) & (FUTEX_BUCKETS - 1)`. -/
def futexBucket (key : ℕ) : ℕ := key / 4 % futexBuckets

/-! ## Waiting -/

/-- The node is filled and put at the head of the list, and the process is blocked. -/
def enqueue (m : FutexState) (p uaddr : ℕ) : FutexState :=
  let b := futexBucket (futexKey m p uaddr)
  { m with
    rq := m.rq.modify p fun proc => { proc with state := .blocked }
    head := update m.head b (some p)
    node := update m.node p
      ⟨uaddr, pml4Phys m p, futexGetPhys m p uaddr, m.head b⟩
    waits := update m.waits p (some uaddr) }

/-- `kernel_futex_wait`; `equal` tells whether the word has the expected value. -/
def kernelFutexWait (m : FutexState) (p uaddr : ℕ) (equal : Bool) : FutexState :=
  if equal = true then enqueue m p uaddr else m

/-- What `handle_sys_futex` stores in `sleep_until` for a timeout in seconds and nanoseconds. -/
def deadline (now : ℕ) (sec nsec : ℤ) : ℕ :=
  let ms := ((sec % 2 ^ 64 * 1000 + nsec % 2 ^ 64 / 1000000) % 2 ^ 64).toNat
  let ms := if ms = 0 ∧ 0 < nsec then 1 else ms
  (now + ms % 2 ^ 32) % 2 ^ 32

/-- `handle_sys_futex` with `FUTEX_WAIT`. -/
def sysFutexWait (m : FutexState) (p uaddr : ℕ) (equal : Bool) (now : ℕ)
    (timeout : Option (ℤ × ℤ)) : FutexState :=
  let m := match timeout with
    | some (sec, nsec) =>
      { m with
        rq := m.rq.modify p fun proc => { proc with sleepUntil := deadline now sec nsec } }
    | none => m
  kernelFutexWait m p uaddr equal

/-! ## Waking -/

/-- The test of `kernel_futex_wake` for the word at `phys` and for `uaddr` in a space. -/
def futexMatch (phys space uaddr : ℕ) (w : Waiter) : Bool :=
  (phys != 0 && w.physAddr != 0 && w.physAddr == phys) ||
    (w.pml4Phys == space && w.uaddr == uaddr)

/-- `*pprev`: the head of the bucket, or the link of a node. -/
def getLink (m : FutexState) (b : ℕ) : Option ℕ → Option ℕ
  | none => m.head b
  | some q => (m.node q).next

def setLink (m : FutexState) (b : ℕ) (prev link : Option ℕ) : FutexState :=
  match prev with
  | none => { m with head := update m.head b link }
  | some q => { m with node := update m.node q { m.node q with next := link } }

/-- The process of a node runs again and the node is cleared. -/
def release (m : FutexState) (p : ℕ) : FutexState :=
  { m with
    rq := m.rq.modify p fun proc => { proc with state := .running }
    node := update m.node p ⟨0, 0, 0, none⟩
    waits := update m.waits p none }

/-- The loop of `kernel_futex_wake`. A list that ends has at most one node for each process, so
with fuel for all of them `none` means that the loop never ends. -/
def wakeLoop (b phys space uaddr : ℕ) (count : ℤ) :
    ℕ → FutexState → Option ℕ → Option ℕ → ℕ → Option (FutexState × ℕ)
  | 0, _, _, _, _ => none
  | fuel + 1, m, prev, cur, woken =>
    match cur with
    | none => some (m, woken)
    | some p =>
      if (woken : ℤ) < count then
        if futexMatch phys space uaddr (m.node p) = true then
          let m := release (setLink m b prev (m.node p).next) p
          wakeLoop b phys space uaddr count fuel m prev (getLink m b prev) (woken + 1)
        else wakeLoop b phys space uaddr count fuel m (some p) (m.node p).next woken
      else some (m, woken)

/-- `kernel_futex_wake` by the process `p`, with the number of processes woken. -/
def kernelFutexWake (m : FutexState) (p uaddr : ℕ) (count : ℤ) : Option (FutexState × ℕ) :=
  let b := futexBucket (futexKey m p uaddr)
  wakeLoop b (futexGetPhys m p uaddr) (pml4Phys m p) uaddr count (m.rq.count + 1) m none
    (m.head b) 0

/-! ## The system -/

/-- A piece of another call, with the PML4 of the process that it makes, if any; a program that
replaces its address space; a change of the page tables; the two calls. -/
inductive FutexAct where
  | run (a : Act) (pml4 : ℕ)
  | exec (cpu pml4 : ℕ)
  | memory (mm : Mm)
  | wait (cpu uaddr : ℕ) (equal : Bool) (now : ℕ) (timeout : Option (ℤ × ℤ))
  | wake (cpu uaddr : ℕ) (count : ℤ)

/-- A process that can make a call: it runs, has not ended and is not inside another call. -/
def CanCall (m : FutexState) (p : ℕ) : Prop :=
  (m.rq.procs p).state = .running ∧ (m.rq.procs p).exited = false ∧ (m.rq.procs p).waitsExit = false
  deriving Decidable

/-- The PML4 of a process that a piece makes: a thread has that of its process. -/
def newPml4 (m : FutexState) (a : Act) (pml4 : ℕ) : ℕ → ℕ :=
  match a with
  | .create _ _ | .createElf _ _ | .duplicate _ => update m.pml4 m.rq.count pml4
  | .createThread cpu =>
    (m.rq.current cpu).elim m.pml4 fun parent =>
      update m.pml4 m.rq.count (m.pml4 parent)
  | _ => m.pml4

/-- A process that is blocked makes no call that blocks it. -/
def Possible (m : FutexState) : Act → Prop
  | .wait cpu => ∀ p ∈ m.rq.current cpu, (m.rq.procs p).state ≠ .blocked
  | .setState p true _ => (m.rq.procs p).state ≠ .blocked
  | _ => True

instance (m : FutexState) : (a : Act) → Decidable (Possible m a)
  | .wait cpu =>
    inferInstanceAs (Decidable (∀ p ∈ m.rq.current cpu, (m.rq.procs p).state ≠ .blocked))
  | .setState p true _ => inferInstanceAs (Decidable ((m.rq.procs p).state ≠ .blocked))
  | .setState _ false _ | .create _ _ | .createElf _ _ | .link _ | .insert _ | .duplicate _
  | .createThread _ | .apEntry _ _ | .schedule _ _ | .condemn _ _ | .reparent _ | .terminate _ _
  | .notify _ | .terminateCurrent _ _ | .waited _ | .reap _ | .setReaper _ => .isTrue trivial

/-- A process that is not blocked any more waits no longer. -/
def stillWaits (rq : State) (waits : ℕ → Option ℕ) (p : ℕ) : Option ℕ :=
  if (rq.procs p).state = .blocked then waits p else none

def futexStep (m : FutexState) : FutexAct → Option FutexState
  | .run a pml4 =>
    if Possible m a then
      (step m.rq a).map fun rq =>
        { m with rq, pml4 := newPml4 m a pml4, waits := stillWaits rq m.waits }
    else none
  | .exec cpu pml4 =>
    match m.rq.current cpu with
    | none => none
    | some p =>
      if CanCall m p then some { m with pml4 := update m.pml4 p pml4 } else none
  | .memory mm => some { m with mm }
  | .wait cpu uaddr equal now timeout =>
    match m.rq.current cpu with
    | none => none
    | some p =>
      if CanCall m p then some (sysFutexWait m p uaddr equal now timeout) else none
  | .wake cpu uaddr count =>
    match m.rq.current cpu with
    | none => none
    | some p =>
      if CanCall m p then (kernelFutexWake m p uaddr count).map Prod.fst else none

/-- A step is a piece of another call, a change of the page tables, or a call of the process that
runs on a processor. -/
theorem futexStep_cases {m m' : FutexState} {e : FutexAct} (h : futexStep m e = some m') :
    (∃ a pml4 rq, e = .run a pml4 ∧ Possible m a ∧ step m.rq a = some rq ∧
      m' = { m with rq, pml4 := newPml4 m a pml4, waits := stillWaits rq m.waits }) ∨
    (∃ mm, e = .memory mm ∧ m' = { m with mm }) ∨
    ∃ cpu p, m.rq.current cpu = some p ∧ CanCall m p ∧
      ((∃ pml4, e = .exec cpu pml4 ∧ m' = { m with pml4 := update m.pml4 p pml4 }) ∨
        (∃ uaddr equal now timeout, e = .wait cpu uaddr equal now timeout ∧
          m' = sysFutexWait m p uaddr equal now timeout) ∨
        ∃ uaddr count woken, e = .wake cpu uaddr count ∧
          kernelFutexWake m p uaddr count = some (m', woken)) := by
  unfold futexStep at h
  cases e with
  | run a pml4 =>
    obtain ⟨hposs, hmap⟩ := ite_none_right_eq_some.1 h
    obtain ⟨rq, hrq, rfl⟩ := map_eq_some_iff.1 hmap
    exact .inl ⟨a, pml4, rq, rfl, hposs, hrq, rfl⟩
  | memory mm =>
    cases h
    exact .inr (.inl ⟨mm, rfl, rfl⟩)
  | exec cpu pml4 =>
    cases hcur : m.rq.current cpu with
    | none => simp [hcur] at h
    | some p =>
      simp only [hcur] at h
      obtain ⟨hp, rfl⟩ := ite_some_none_eq_some.1 h
      exact .inr (.inr ⟨cpu, p, hcur, hp, .inl ⟨pml4, rfl, rfl⟩⟩)
  | wait cpu uaddr equal now timeout =>
    cases hcur : m.rq.current cpu with
    | none => simp [hcur] at h
    | some p =>
      simp only [hcur] at h
      obtain ⟨hp, rfl⟩ := ite_some_none_eq_some.1 h
      exact .inr (.inr ⟨cpu, p, hcur, hp, .inr (.inl ⟨uaddr, equal, now, timeout, rfl, rfl⟩)⟩)
  | wake cpu uaddr count =>
    cases hcur : m.rq.current cpu with
    | none => simp [hcur] at h
    | some p =>
      simp only [hcur] at h
      obtain ⟨hp, heq⟩ := ite_none_right_eq_some.1 h
      obtain ⟨⟨m₁, woken⟩, hrun, rfl⟩ := map_eq_some_iff.1 heq
      exact .inr (.inr ⟨cpu, p, hcur, hp, .inr (.inr ⟨uaddr, count, woken, rfl, hrun⟩)⟩)

/-- After `futex_init` the buckets are empty. -/
def futexInit (cpuCount : ℕ) (mm : Mm) (pml4 : ℕ) : FutexState :=
  { rq := processInit cpuCount
    mm
    pml4 := fun _ => pml4
    head := fun _ => none
    node := fun _ => ⟨0, 0, 0, none⟩
    waits := fun _ => none }

def futexSystem : System FutexState FutexAct where
  init m := ∃ cpuCount mm pml4, m = futexInit cpuCount mm pml4
  step m e m' := futexStep m e = some m'

/-! ## The property of the queues -/

def FutexState.next (m : FutexState) (p : ℕ) : Option ℕ := (m.node p).next

/-- The process is blocked in `FUTEX_WAIT` on the address of its node. -/
def BlockedAtNode (m : FutexState) (p : ℕ) : Prop :=
  p < m.rq.count ∧ (m.rq.procs p).exited = false ∧ (m.rq.procs p).state = .blocked ∧
    m.waits p = some (m.node p).uaddr

/-- Every list of the buckets ends and has no node twice, no node is on two lists, and the nodes
are of processes that exist and are blocked in `FUTEX_WAIT` on the address of the node. -/
def QueuesOk (m : FutexState) : Prop :=
  ∃ lists : ℕ → List ℕ,
    (∀ b < futexBuckets, Slist m.next (m.head b) (lists b) ∧ (lists b).Nodup) ∧
    (∀ b < futexBuckets, ∀ b' < futexBuckets, b ≠ b' → List.Disjoint (lists b) (lists b')) ∧
    ∀ b < futexBuckets, ∀ p ∈ lists b, BlockedAtNode m p

/-- The process that `process_schedule` finds in the queue. -/
def scheduleFound (s : State) (cpu now : ℕ) : Option ℕ :=
  match s.current cpu with
  | none => none
  | some cur =>
    if (s.procs cur).killPending = true ∧ (s.procs cur).pid ≠ 0 then none
    else
      (pickFrom s cur (fun p => matchesCpu (s.procs p) cpu && runnable (s.procs p) now)
        (s.next cur)).join

/-- A piece takes a blocked process out of its wait: its timeout has expired and it is scheduled, it
gets a signal, a child of it ends, or it ends itself. -/
def Disturbs (s : State) : Act → ℕ → Prop
  | .schedule cpu now, p => scheduleFound s cpu now = some p
  | .terminate q _, p => p = q
  | .notify q, p => notified s q = some p
  | .terminateCurrent cpu status, p =>
    s.current cpu = some p ∨ (terminateChoice s cpu status).isSome = true ∧
        (s.current cpu).bind (notified s) = some p
  | .setState q false _, p => p = q
  | _, _ => False

instance (s : State) : (a : Act) → (p : ℕ) → Decidable (Disturbs s a p)
  | .schedule cpu now, p => inferInstanceAs (Decidable (scheduleFound s cpu now = some p))
  | .terminate q _, p => inferInstanceAs (Decidable (p = q))
  | .notify q, p => inferInstanceAs (Decidable (notified s q = some p))
  | .terminateCurrent cpu status, p => inferInstanceAs (Decidable (s.current cpu = some p ∨
      (terminateChoice s cpu status).isSome = true ∧ (s.current cpu).bind (notified s) = some p))
  | .setState q false _, p => inferInstanceAs (Decidable (p = q))
  | .setState _ true _, _ | .create _ _, _ | .createElf _ _, _ | .link _, _ | .insert _, _
  | .duplicate _, _ | .createThread _, _ | .apEntry _ _, _ | .condemn _ _, _ | .reparent _, _
  | .wait _, _ | .waited _, _ | .reap _, _ | .setReaper _, _ => .isFalse fun h => h

/-- A process that is blocked in `FUTEX_WAIT` is left there by everything but `FUTEX_WAKE`. -/
def FutexSafe (m : FutexState) : FutexAct → Prop
  | .run a _ => ∀ p < m.rq.count, m.waits p ≠ none → ¬ Disturbs m.rq a p
  | _ => True

instance (m : FutexState) : (e : FutexAct) → Decidable (FutexSafe m e)
  | .run a _ => inferInstanceAs
      (Decidable (∀ p < m.rq.count, m.waits p ≠ none → ¬ Disturbs m.rq a p))
  | .exec _ _ | .memory _ | .wait _ _ _ _ _ | .wake _ _ _ => .isTrue trivial

end BoredOS.Sys.Futex
