import BoredOS.Lib.Ring
import BoredOS.Lib.Transition

/-!
# The Run Queue

The processes of `sys/process.c` are linked in a circle by `next`, from which the scheduler picks
the next one to run. The calls that create, end, wait for and schedule processes are cut here at the
borders of their `runqueue_lock` sections. A run of `runQueueSystem` takes the pieces of all calls
in any order, so it has every interleaving of the calls, on any number of processors.

A new process is put behind the process that heads the first chain of the pid table
(`linkSection`). That process may have ended. An ended process is taken out by a search for the one
before it, which gives up after 2047 hops (`scanPrev`).
-/

namespace BoredOS.Sys.RunQueue

open Lib.Ring Lib.Transition Function List

/-- `PROC_STATE_*`. -/
inductive ProcState where
  | running
  | blocked
  | zombie
  deriving DecidableEq, Repr

/-- The fields of `process_t` that creation, scheduling and termination use. For `running_cpu` and
`cpu_affinity`, `none` stands for `-1` and for `CPU_AFFINITY_ANY`. `waitsExit` tells that the
process is in its own `wait_exit_queue`. The last two record the past: the process was put into the
run queue, and into the pid table. -/
structure Proc where
  pid : BitVec 32
  parentPid : BitVec 32
  pgid : BitVec 32
  state : ProcState
  exited : Bool
  killPending : Bool
  exitStatus : Int
  sleepUntil : ℕ
  runningCpu : Option ℕ
  cpuAffinity : Option ℕ
  waitsExit : Bool
  created : Bool
  tabled : Bool

/-- The process table and the processors. A process is named by the number of its allocation;
`buckets` has the chains of `pid_hash_table`. -/
structure State where
  count : ℕ
  procs : ℕ → Proc
  next : ℕ → Option ℕ
  buckets : ℕ → List ℕ
  nextPid : BitVec 32
  reaperPid : BitVec 32
  cpuCount : ℕ
  current : ℕ → Option ℕ
  idle : ℕ → Option ℕ

def State.modify (s : State) (p : ℕ) (f : Proc → Proc) : State :=
  { s with procs := update s.procs p (f (s.procs p)) }

/-! ## The pid table -/

def pidHashBuckets : ℕ := 128

def pidHash (pid : BitVec 32) : ℕ := pid.toNat % pidHashBuckets

def pidTableInsert (s : State) (p : ℕ) : State :=
  let idx := pidHash (s.procs p).pid
  { s with buckets := update s.buckets idx (p :: s.buckets idx) }.modify p
    fun proc => { proc with tabled := true }

def pidTableFind (s : State) (pid : BitVec 32) : Option ℕ :=
  (s.buckets (pidHash pid)).find? fun p => decide ((s.procs p).pid = pid)

def pidTableRemove (s : State) (pid : BitVec 32) : State :=
  let idx := pidHash pid
  { s with
    buckets := update s.buckets idx
      ((s.buckets idx).eraseP fun p => decide ((s.procs p).pid = pid)) }

/-! ## Creation -/

/-- The fields of a process that has just been set up. -/
def fresh (pid parentPid pgid : BitVec 32) (cpuAffinity : Option ℕ) : Proc :=
  { pid, parentPid, pgid, state := .running, exited := false, killPending := false,
    exitStatus := 0, sleepUntil := 0, runningCpu := none, cpuAffinity, waitsExit := false,
    created := false, tabled := false }

/-- `process_alloc_struct`, which clears the memory, and the stores into the new process. -/
def allocate (s : State) (proc : Proc) : State :=
  { s with
    count := s.count + 1
    procs := update s.procs s.count proc
    next := update s.next s.count none }

/-- `process_create` before the process is linked. Only a user process takes a pid. -/
def processCreateAlloc (s : State) (cpu : ℕ) (isUser : Bool) : State :=
  let pid := if isUser then s.nextPid else 0
  let parent := (s.current cpu).map s.procs
  allocate { s with nextPid := if isUser then s.nextPid + 1 else s.nextPid }
    (fresh pid (parent.elim 0 Proc.pid) (parent.elim pid Proc.pgid) (some 0))

/-- `process_create_elf` before the process is linked. If the file cannot be loaded, the call goes
no further. -/
def processCreateElfAlloc (s : State) (cpu : ℕ) (explicitTty : Bool) : State :=
  let parent := (s.current cpu).map s.procs
  allocate { s with nextPid := s.nextPid + 1 } (fresh s.nextPid (parent.elim 0 Proc.pid)
      (if explicitTty then s.nextPid else parent.elim s.nextPid Proc.pgid) none)

/-- `new_proc->next = head->next; head->next = new_proc;` -/
def linkAfter (next : ℕ → Option ℕ) (head p : ℕ) : ℕ → Option ℕ :=
  update (update next p (next head)) head (some p)

def markCreated (proc : Proc) : Proc := { proc with created := true }

/-- The process behind which `process_create` and `process_create_elf` put a new one. -/
def queueHead (s : State) : Option ℕ := (s.buckets 0).head? <|> s.current 0

/-- The section of `process_create` and of `process_create_elf`. -/
def linkSection (s : State) (p : ℕ) : State :=
  { s with
    next := match queueHead s with
      | some head => linkAfter s.next head p
      | none => update s.next p (some p) }.modify p markCreated

/-- The section that `process_duplicate` and `process_create_thread` have in common: a process is
set up and put behind the current one. -/
def spawnSection (s : State) (cpu : ℕ) : State :=
  match s.current cpu with
  | none => s
  | some parent =>
    let s' := allocate { s with nextPid := s.nextPid + 1 }
      (fresh s.nextPid (s.procs parent).pid (s.procs parent).pgid (s.procs parent).cpuAffinity)
    { s' with next := linkAfter s'.next parent s.count }.modify s.count markCreated

def processDuplicateSection (s : State) (cpu : ℕ) : State := spawnSection s cpu

def processCreateThreadSection (s : State) (cpu : ℕ) : State := spawnSection s cpu

/-- What `ap_entry` does with its first process, after `process_create`. -/
def apEntry (s : State) (cpu p : ℕ) : State :=
  { s with
    current := update s.current cpu (some p)
    idle := update s.idle cpu (some p) }.modify p
    fun proc => { proc with cpuAffinity := some cpu }

/-! ## Unlinking -/

/-- The loop of `runqueue_unlink_locked`. The test of `prev` against `proc` in its body never
holds, since the loop is left before. -/
def scanPrev (next : ℕ → Option ℕ) (proc : ℕ) : ℕ → ℕ → ℕ
  | 0, prev => prev
  | hops + 1, prev =>
    match next prev with
    | none => prev
    | some q => if q = proc ∨ hops = 0 then prev else scanPrev next proc hops q

def maxHops : ℕ := 2048

def runqueueUnlink (next : ℕ → Option ℕ) (proc : ℕ) : ℕ → Option ℕ :=
  if next proc = none then next
  else if next proc = some proc then update next proc none
  else
    let prev := scanPrev next proc maxHops proc
    if next prev = some proc then
      update (update next prev (next proc)) proc none
    else update next proc none

/-! ## Waking -/

def wake (proc : Proc) : Proc := { proc with state := .running, sleepUntil := 0 }

/-- `wait_queue_wake_all` on the `wait_exit_queue` of the process. -/
def wakeExit (proc : Proc) : Proc := if proc.waitsExit = true then wake proc else proc

/-- What the parent or the reaper of an ended process gets. -/
def notifyProc (proc : Proc) : Proc :=
  let proc := wakeExit proc
  if proc.state = .blocked then wake proc else proc

def targetReaper (reaperPid : BitVec 32) : BitVec 32 := if reaperPid ≠ 0 then reaperPid else 1

/-- The process that is told about the end of another one. -/
def notified (s : State) (p : ℕ) : Option ℕ :=
  let parent := if (s.procs p).parentPid ≠ 0 then pidTableFind s (s.procs p).parentPid else none
  parent <|> pidTableFind s (targetReaper s.reaperPid)

/-- The end of both terminating calls. -/
def notifySection (s : State) (p : ℕ) : State :=
  match notified s p with
  | some q => s.modify q notifyProc
  | none => s

/-! ## The scheduler -/

def matchesCpu (proc : Proc) (cpu : ℕ) : Bool :=
  (proc.cpuAffinity == some cpu || proc.cpuAffinity == none) &&
    (proc.runningCpu == none || proc.runningCpu == some cpu)

/-- The test of `process_schedule`. -/
def runnable (proc : Proc) (now : ℕ) : Bool :=
  (!proc.killPending && !proc.exited && proc.state != .zombie) && (proc.pid == 0 ||
      (proc.state == .running && (proc.sleepUntil == 0 || decide (proc.sleepUntil ≤ now))) ||
      (proc.state == .blocked && decide (0 < proc.sleepUntil) && decide (proc.sleepUntil ≤ now)))

/-- The test of `process_terminate_current_with_status`. -/
def ready (proc : Proc) : Bool :=
  !proc.killPending && !proc.exited && proc.state == .running

/-- The loop over the queue: the first process with `ok`, until `start` or the end. With fuel for
every process, `none` means that the loop never ends. -/
def pick (next : ℕ → Option ℕ) (start : ℕ) (ok : ℕ → Bool) : ℕ → ℕ → Option (Option ℕ)
  | 0, _ => none
  | fuel + 1, p =>
    if ok p = true then some (some p)
    else
      match next p with
      | none => some none
      | some q => if q = start then some none else pick next start ok fuel q

/-- The loop from the first process on, if there is one. -/
def pickFrom (s : State) (start : ℕ) (ok : ℕ → Bool) : Option ℕ → Option (Option ℕ)
  | none => some none
  | some first => pick s.next start ok s.count first

/-- What the processor runs if the loop of `process_schedule` found nothing. -/
def fallback (s : State) (cpu cur : ℕ) : ℕ :=
  let proc := s.procs cur
  if proc.state = .zombie ∨ proc.state = .blocked ∨ proc.killPending = true then
    (s.idle cpu).getD cur
  else cur

/-- The processor goes over to another process. -/
def switchTo (s : State) (cpu cur chosen : ℕ) : State :=
  if cur = chosen then s
  else
    let s := s.modify cur fun proc => { proc with runningCpu := none }
    let s := s.modify chosen fun proc => { proc with runningCpu := some cpu }
    { s with current := update s.current cpu (some chosen) }

/-- `process_schedule`. If the current process is to be killed, the call goes on with
`process_terminate_current_with_status`, which has its own section. -/
def processSchedule (s : State) (cpu now : ℕ) : Option State :=
  match s.current cpu with
  | none => some s
  | some cur =>
    if (s.procs cur).killPending = true ∧ (s.procs cur).pid ≠ 0 then some s
    else
      (pickFrom s cur (fun p => matchesCpu (s.procs p) cpu && runnable (s.procs p) now)
        (s.next cur)).map fun found =>
        match found with
        | some p =>
          let s := if (s.procs p).state = .blocked then s.modify p wake else s
          switchTo s cpu cur p
        | none => switchTo s cpu cur (fallback s cpu cur)

/-! ## Termination -/

/-- A processor runs the process. Only the first 32 processors are asked. -/
def isCurrent (s : State) (p : ℕ) : Bool :=
  (range (min s.cpuCount 32)).any fun cpu => s.current cpu == some p

/-- `process_terminate_with_status` for a process that some processor runs. -/
def markKilled (s : State) (p : ℕ) (status : Int) : State :=
  s.modify p fun proc => { proc with killPending := true, exitStatus := status }

/-- `reparent_cb` for the processes of one chain. A zombie that nobody will wait for leaves its
chain, and with it the loop loses the rest of the chain. -/
def reparentChain (pid : BitVec 32) : List ℕ → State → State
  | [], s => s
  | q :: rest, s =>
    if (s.procs q).parentPid ≠ pid then reparentChain pid rest s
    else
      let target := targetReaper s.reaperPid
      let s := s.modify q fun proc => { proc with parentPid := target }
      if (s.procs q).state ≠ .zombie then reparentChain pid rest s
      else
        match pidTableFind s target with
        | some reaper => reparentChain pid rest (s.modify reaper wakeExit)
        | none =>
          if pidTableFind s (s.procs q).pid = some q then pidTableRemove s (s.procs q).pid
          else reparentChain pid rest (pidTableRemove s (s.procs q).pid)

/-- The part of `process_cleanup_inner` about the table. -/
def reparentAll (s : State) (p : ℕ) : State :=
  (range pidHashBuckets).foldl (fun s idx => reparentChain (s.procs p).pid (s.buckets idx) s) s

def markEnded (status : Int) (proc : Proc) : Proc :=
  { proc with state := .zombie, exited := true, exitStatus := status, killPending := false }

/-- The process is ended and taken out of the queue, as both terminating calls do. -/
def endSection (s : State) (p : ℕ) (status : Int) : State :=
  { s with next := runqueueUnlink s.next p }.modify p (markEnded status)

/-- The section of `process_terminate_with_status`. -/
def processTerminateSection (s : State) (p : ℕ) (status : Int) : State := endSection s p status

/-- `process_terminate_current_with_status` leaves the table to nobody. -/
def dropOrphan (s : State) (cur : ℕ) : State :=
  if (s.procs cur).parentPid = 0 ∧ s.reaperPid = 0 then pidTableRemove s (s.procs cur).pid else s

/-- The section of `process_terminate_current_with_status` for the current process `cur`. -/
def terminateCurrentSection (s : State) (cpu cur : ℕ) (status : Int) : Option State :=
  let nextInQueue := s.next cur
  let s := (endSection s cur status).modify cur fun proc => { proc with runningCpu := none }
  (pickFrom s (nextInQueue.getD cur) (fun p => matchesCpu (s.procs p) cpu && ready (s.procs p))
    nextInQueue).map fun found =>
    match found <|> s.idle cpu with
    | none => s
    | some p =>
      let s := { s with current := update s.current cpu (some p) }.modify p
        fun proc => { proc with runningCpu := some cpu }
      dropOrphan (notifySection s cur) cur

/-! ## Waiting -/

def waitSection (s : State) (cpu : ℕ) : State :=
  match s.current cpu with
  | none => s
  | some caller => s.modify caller fun proc => { proc with state := .blocked, waitsExit := true }

/-- The caller waits no longer. -/
def waitedSection (s : State) (p : ℕ) : State :=
  s.modify p fun proc => { proc with waitsExit := false }

/-- What `waitpid_scan_cb` looks for. -/
def waitMatches (s : State) (callerPid : BitVec 32) (targetPid : Int) (p : ℕ) : Bool :=
  let proc := s.procs p
  proc.pid != 0 && proc.parentPid == callerPid && (if 0 < targetPid then proc.pid.toInt == targetPid
    else if targetPid = -1 then true
    else if targetPid = 0 then
      (pidTableFind s callerPid).any fun caller => proc.pgid == (s.procs caller).pgid
    else proc.pgid == BitVec.ofInt 32 (-targetPid))

/-- The processes in the order of `process_table_for_each`. -/
def tableOrder (s : State) : List ℕ := (range pidHashBuckets).flatMap s.buckets

/-- What other calls do to the state of a process: it sleeps, waits for something or is woken. -/
def setState (s : State) (p : ℕ) (blocked : Bool) (sleepUntil : ℕ) : State :=
  s.modify p fun proc =>
    { proc with state := if blocked = true then .blocked else .running, sleepUntil }

/-! ## The system -/

inductive Act where
  | create (cpu : ℕ) (isUser : Bool)
  | createElf (cpu : ℕ) (explicitTty : Bool)
  | link (p : ℕ)
  | insert (p : ℕ)
  | duplicate (cpu : ℕ)
  | createThread (cpu : ℕ)
  | apEntry (cpu p : ℕ)
  | schedule (cpu now : ℕ)
  | condemn (p : ℕ) (status : Int)
  | reparent (p : ℕ)
  | terminate (p : ℕ) (status : Int)
  | notify (p : ℕ)
  | terminateCurrent (cpu : ℕ) (status : Int)
  | wait (cpu : ℕ)
  | waited (p : ℕ)
  | reap (p : ℕ)
  | setState (p : ℕ) (blocked : Bool) (sleepUntil : ℕ)
  | setReaper (pid : BitVec 32)
  deriving DecidableEq, Repr

/-- The process was put into the run queue. -/
def Created (s : State) (p : ℕ) : Prop := p < s.count ∧ (s.procs p).created = true
  deriving Decidable

/-- The process is being set up. -/
def Building (s : State) (p : ℕ) : Prop :=
  p < s.count ∧ (s.procs p).created = false ∧ (s.procs p).exited = false
  deriving Decidable

/-- A process that a terminating call goes on with: the kernel is left alone, and the end of `init`
stops the machine. -/
def Mortal (s : State) (p : ℕ) : Prop :=
  Created s p ∧ (s.procs p).pid ≠ 0 ∧ (s.procs p).pid ≠ 1
  deriving Decidable

/-- `process_terminate_current_with_status` after its cleanup. -/
def processTerminateCurrent (s : State) (cpu : ℕ) (status : Int) : Option State :=
  match s.current cpu with
  | none => some s
  | some cur => if Mortal s cur then terminateCurrentSection s cpu cur status else none

/-- A piece is taken for a process for which some call can be at that point. -/
def step (s : State) : Act → Option State
  | .create cpu isUser => some (processCreateAlloc s cpu isUser)
  | .createElf cpu explicitTty => some (processCreateElfAlloc s cpu explicitTty)
  | .link p => if Building s p then some (linkSection s p) else none
  | .insert p =>
    if Created s p ∧ (s.procs p).tabled = false then some (pidTableInsert s p) else none
  | .duplicate cpu => some (processDuplicateSection s cpu)
  | .createThread cpu => some (processCreateThreadSection s cpu)
  | .apEntry cpu p => if Created s p then some (apEntry s cpu p) else none
  | .schedule cpu now => processSchedule s cpu now
  | .condemn p status => if Mortal s p then some (markKilled s p status) else none
  | .reparent p => if Mortal s p then some (reparentAll s p) else none
  | .terminate p status => if Mortal s p then some (processTerminateSection s p status) else none
  | .notify p => if Mortal s p then some (notifySection s p) else none
  | .terminateCurrent cpu status => processTerminateCurrent s cpu status
  | .wait cpu => some (waitSection s cpu)
  | .waited p => some (waitedSection s p)
  | .reap p =>
    if Created s p ∧ (s.procs p).exited = true then
      some (pidTableRemove s (s.procs p).pid)
    else none
  | .setState p blocked sleepUntil => some (setState s p blocked sleepUntil)
  | .setReaper pid => some { s with reaperPid := pid }

/-- The state after `process_init`, on a machine with some number of processors. -/
def processInit (cpuCount : ℕ) : State :=
  { count := 1
    procs := fun _ =>
      { fresh 0 0 0 (some 0) with runningCpu := some 0, created := true, tabled := true }
    next := fun p => if p = 0 then some 0 else none
    buckets := fun idx => if idx = 0 then [0] else []
    nextPid := 1
    reaperPid := 0
    cpuCount
    current := fun cpu => if cpu = 0 then some 0 else none
    idle := fun cpu => if cpu = 0 then some 0 else none }

def runQueueSystem : System State Act where
  init s := ∃ cpuCount, s = processInit cpuCount
  step s a s' := step s a = some s'

/-! ## The calls

What a call does when it is not interleaved with others. -/

def processCreate (s : State) (cpu : ℕ) (isUser : Bool) : List Act :=
  [.create cpu isUser, .link s.count, .insert s.count]

def processCreateElf (s : State) (cpu : ℕ) (explicitTty : Bool) : List Act :=
  [.createElf cpu explicitTty, .link s.count, .insert s.count]

def processDuplicate (s : State) (cpu : ℕ) : List Act :=
  if s.current cpu = none then [] else [.duplicate cpu, .insert s.count]

def processCreateThread (s : State) (cpu : ℕ) : List Act :=
  if s.current cpu = none then [] else [.createThread cpu, .insert s.count]

def processTerminateWithStatus (s : State) (p : ℕ) (status : Int) : List Act :=
  let proc := s.procs p
  if proc.pid = 0 ∨ proc.state = .zombie ∨ proc.killPending = true then []
  else if isCurrent s p = true then [.condemn p status]
  else [.reparent p, .terminate p status, .notify p]

def processTerminateCurrentWithStatus (s : State) (cpu : ℕ) (status : Int) : List Act :=
  match s.current cpu with
  | none => []
  | some cur =>
    if (s.procs cur).pid = 0 then [] else [.reparent cur, .terminateCurrent cpu status]

/-- One round of `process_waitpid`. The call returns, or it sleeps and has another round. -/
def processWaitpid (s : State) (cpu : ℕ) (callerPid : BitVec 32) (targetPid : Int)
    (noHang : Bool) : List Act :=
  let children := (tableOrder s).filter (waitMatches s callerPid targetPid)
  match children.find? fun p => (s.procs p).state == .zombie with
  | some z => [.reap z]
  | none => if children = [] ∨ noHang = true then [] else [.wait cpu]

def runCalls (s : State) : List (State → List Act) → Option State
  | [] => some s
  | call :: calls => ((call s).foldlM step s).bind fun s' => runCalls s' calls

/-! ## The property -/

/-- A created process that has not terminated. -/
def Live (s : State) (p : ℕ) : Prop := Created s p ∧ (s.procs p).exited = false
  deriving Decidable

/-- A process that was created and has terminated. -/
def Terminated (s : State) (p : ℕ) : Prop := Created s p ∧ (s.procs p).exited = true
  deriving Decidable

/-- From each live process one visits every live process once along `next` and is back, and the
terminated ones are not linked. -/
def RunQueueOk (s : State) : Prop :=
  (∀ p, Live s p → ∃ visited, Visits s.next p visited p ∧ visited.Nodup ∧
    ∀ q, q ∈ visited ↔ Live s q) ∧
  ∀ p, Terminated s p → s.next p = none

def liveCount (s : State) : ℕ := ((range s.count).filter fun p => decide (Live s p)).length

/-- The process behind which a new one is put has not ended, and a process that ends finds the one
before it. -/
def QueueSafe (s : State) : Act → Prop
  | .link _ => (queueHead s).elim (liveCount s = 0) (Live s)
  | .duplicate cpu => (s.current cpu).elim True (Live s)
  | .createThread cpu => (s.current cpu).elim True (Live s)
  | .terminate p _ => Live s p → liveCount s ≤ maxHops
  | .terminateCurrent cpu _ =>
    (s.current cpu).elim True fun cur => Live s cur → liveCount s ≤ maxHops
  | _ => True

instance decidableElim {o : Option ℕ} {P : Prop} {f : ℕ → Prop} [Decidable P] [DecidablePred f] :
    Decidable (o.elim P f) :=
  match o with
  | none => inferInstanceAs (Decidable P)
  | some p => inferInstanceAs (Decidable (f p))

instance (s : State) : (a : Act) → Decidable (QueueSafe s a)
  | .link _ => inferInstanceAs (Decidable ((queueHead s).elim (liveCount s = 0) (Live s)))
  | .duplicate cpu => inferInstanceAs (Decidable ((s.current cpu).elim True (Live s)))
  | .createThread cpu => inferInstanceAs (Decidable ((s.current cpu).elim True (Live s)))
  | .terminate p _ => inferInstanceAs (Decidable (Live s p → liveCount s ≤ maxHops))
  | .terminateCurrent cpu _ => inferInstanceAs (Decidable
      ((s.current cpu).elim True fun cur => Live s cur → liveCount s ≤ maxHops))
  | .create _ _ | .createElf _ _ | .insert _ | .apEntry _ _ | .schedule _ _ | .condemn _ _
  | .reparent _ | .notify _ | .wait _ | .waited _ | .reap _ | .setState _ _ _
  | .setReaper _ => .isTrue trivial

end BoredOS.Sys.RunQueue
