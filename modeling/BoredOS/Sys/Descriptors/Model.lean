import BoredOS.Lib.RefCount
import BoredOS.Lib.Transition

/-!
# Descriptor Tables and What They Refer To

Every process has a table of 64 descriptor slots (`sys/process.h`). A used slot has a kind and a
pointer: to a reference-counted handle of an open file, to a pipe (with a counter for each end) or
to a socket. Objects are numbered in the order in which they are made; the handle of an open file
has the number of the file.

What a call finds in the file system and whether the allocator has memory for it are part of the
call.
-/

namespace BoredOS.Sys.Descriptors

open Lib.RefCount Function List Pi

/-! ## Slots, objects and counters -/

/-- `PROC_FD_KIND_*` of a used slot. -/
inductive Kind where
  | file
  | pipeRead
  | pipeWrite
  | socket
deriving DecidableEq, Repr

/-- What is allocated and freed. -/
inductive ObjKind where
  | fileRef
  | pipe
  | socket
deriving DecidableEq, Repr

/-- `fd_kind[i]` and `fds[i]` of a used slot. -/
structure Ref where
  kind : Kind
  id : ℕ
deriving DecidableEq, Repr

structure Obj where
  kind : ObjKind
  id : ℕ
deriving DecidableEq, Repr

/-- Both ends of a pipe are references to it. -/
def Kind.obj : Kind → ObjKind
  | .file => .fileRef
  | .pipeRead => .pipe
  | .pipeWrite => .pipe
  | .socket => .socket

def Ref.obj (r : Ref) : Obj := ⟨r.kind.obj, r.id⟩

def maxProcessFds : ℕ := 64

/-- The slots of a process; `none` is a null pointer. -/
abbrev Fds := Fin maxProcessFds → Option Ref

def emptyFds : Fds := fun _ => none

/-- The counters and allocated objects, the files that are open, the next number, and the two
counters of process creation. -/
structure Kernel where
  table : Table Ref Obj
  fileOpen : ℕ → Bool
  fresh : ℕ
  nextPid : ℕ
  spawnShebangDepth : Int

/-- `vfs_open` of a file that can be opened. -/
def vfsOpen (k : Kernel) : Kernel :=
  { k with fileOpen := update k.fileOpen k.fresh true, fresh := k.fresh + 1 }

def vfsClose (k : Kernel) (i : ℕ) : Kernel :=
  { k with fileOpen := update k.fileOpen i false }

/-- `kmalloc` of a `process_fd_file_ref_t` for the open file `i`, with its first value of `refs`. -/
def allocFileRef (k : Kernel) (i refs : ℕ) : Kernel :=
  { k with table := k.table.create Ref.obj ⟨.fileRef, i⟩ (single ⟨.file, i⟩ refs) }

/-- `kfree_null(ref)` -/
def freeFileRef (k : Kernel) (i : ℕ) : Kernel := { k with table := k.table.free ⟨.fileRef, i⟩ }

/-- `fs_create_pipe_state` with memory. -/
def fsCreatePipeState (k : Kernel) : Kernel :=
  { k with
    table := k.table.create Ref.obj ⟨.pipe, k.fresh⟩
      (single ⟨.pipeRead, k.fresh⟩ 1 + single ⟨.pipeWrite, k.fresh⟩ 1)
    fresh := k.fresh + 1 }

/-- `process_socket_create` with memory. -/
def processSocketCreate (k : Kernel) : Kernel :=
  { k with
    table := k.table.create Ref.obj ⟨.socket, k.fresh⟩ (single ⟨.socket, k.fresh⟩ 1)
    fresh := k.fresh + 1 }

/-! ## One reference -/

/-- `fd_addref`, for what the slot refers to. -/
def addref (k : Kernel) (r : Ref) : Kernel := { k with table := k.table.addref r }

def fdAddref (k : Kernel) (p : Fds) (fd : Fin maxProcessFds) : Kernel :=
  match p fd with
  | some r => addref k r
  | none => k

/-- The counter goes down by one, and the object is freed if so decided. -/
def putRef (k : Kernel) (r : Ref) (last : Bool) : Kernel :=
  if last then { k with table := (k.table.sub r).free r.obj }
  else { k with table := k.table.sub r }

/-- The file part of `process_close_fd_inner`: the one who takes the counter from 1 closes the
file. -/
def closeFile (k : Kernel) (i : ℕ) : Kernel :=
  let last := decide (k.table.count ⟨.file, i⟩ = 1)
  if last then putRef (vfsClose k i) ⟨.file, i⟩ true else putRef k ⟨.file, i⟩ false

/-- The pipe part: the pipe is freed when no end is left. -/
def closePipe (k : Kernel) (r : Ref) : Kernel :=
  let t := k.table.sub r
  putRef k r (decide (t.count ⟨.pipeRead, r.id⟩ ≤ 0 ∧ t.count ⟨.pipeWrite, r.id⟩ ≤ 0))

def processSocketRelease (k : Kernel) (i : ℕ) : Kernel :=
  putRef k ⟨.socket, i⟩ (! decide (1 < k.table.count ⟨.socket, i⟩))

/-- The part of `process_close_fd_inner` that depends on the kind. -/
def release (k : Kernel) (r : Ref) : Kernel :=
  match r.kind with
  | .file => closeFile k r.id
  | .pipeRead => closePipe k r
  | .pipeWrite => closePipe k r
  | .socket => processSocketRelease k r.id

/-! ## The calls on one table -/

/-- The table of the calling process and the kernel. -/
structure Ctx where
  fds : Fds
  kernel : Kernel

def Ctx.setFd (c : Ctx) (fd : Fin maxProcessFds) (x : Option Ref) : Ctx :=
  { c with fds := update c.fds fd x }

/-- `fd < 0 || fd >= MAX_PROCESS_FDS` -/
def fdIndex (fd : Int) : Option (Fin maxProcessFds) :=
  if h : 0 ≤ fd ∧ fd < maxProcessFds then some ⟨fd.toNat, by omega⟩ else none

/-- `process_close_fd_inner` for an index in range. -/
def processCloseFdInner (c : Ctx) (fd : Fin maxProcessFds) : Ctx :=
  match c.fds fd with
  | none => c
  | some r => { fds := update c.fds fd none, kernel := release c.kernel r }

def fsAllocFdSlot (p : Fds) (start : ℕ) : Option (Fin maxProcessFds) :=
  (finRange maxProcessFds).find? fun i => decide (start ≤ i.val) && (p i).isNone

/-- `ENOMEM`, `EFAULT` and `EMFILE` of `sys/errno.h`. -/
def enomem : Int := 12
def efault : Int := 14
def emfile : Int := 24

/-- What `fs_cmd_open` meets: an error before or at `vfs_open`, or an open file and then memory for
its handle or none. -/
inductive OpenTrial where
  | refused (e : Int)
  | opened (memory : Bool)
deriving DecidableEq, Repr

def fsCmdOpen (c : Ctx) : OpenTrial → Ctx × Int
  | .refused e => (c, -e)
  | .opened false => ({ c with kernel := vfsClose (vfsOpen c.kernel) c.kernel.fresh }, -enomem)
  | .opened true =>
    let i := c.kernel.fresh
    let k := allocFileRef (vfsOpen c.kernel) i 1
    match fsAllocFdSlot c.fds 0 with
    | some fd => (.setFd { c with kernel := k } fd (some ⟨.file, i⟩), fd)
    | none => ({ c with kernel := vfsClose (freeFileRef k i) i }, -emfile)

def fsCmdClose (c : Ctx) (fd : Int) : Ctx × Int :=
  match fdIndex fd with
  | none => (c, -1)
  | some i => if (c.fds i).isNone then (c, -1) else (processCloseFdInner c i, 0)

/-- A slot gets what another one has, and the counter follows. -/
def copySlot (c : Ctx) (oldfd newfd : Fin maxProcessFds) : Ctx :=
  let c' := c.setFd newfd (c.fds oldfd)
  { c' with kernel := fdAddref c'.kernel c'.fds oldfd }

def fsCmdDup (c : Ctx) (oldfd : Int) : Ctx × Int :=
  match fdIndex oldfd with
  | none => (c, -1)
  | some old =>
    if (c.fds old).isNone then (c, -1)
    else
      match fsAllocFdSlot c.fds 0 with
      | none => (c, -1)
      | some new => (copySlot c old new, new)

def fsCmdDup2 (c : Ctx) (oldfd newfd : Int) : Ctx × Int :=
  match fdIndex oldfd, fdIndex newfd with
  | some old, some new =>
    if (c.fds old).isNone then (c, -1)
    else if old = new then (c, new)
    -- closing an empty slot changes nothing
    else (copySlot (processCloseFdInner c new) old new, new)
  | _, _ => (c, -1)

/-- `fs_cmd_pipe`: whether the pointer is valid, and whether there is memory. -/
def fsCmdPipe (c : Ctx) (valid memory : Bool) : Ctx × Int :=
  if !valid then (c, -efault)
  else
    match fsAllocFdSlot c.fds 0 with
    | none => (c, -1)
    | some rfd =>
      match fsAllocFdSlot c.fds (rfd + 1) with
      | none => (c, -1)
      | some wfd =>
        if !memory then (c, -1)
        else
          let i := c.kernel.fresh
          let c' : Ctx := { c with kernel := fsCreatePipeState c.kernel }
          ((c'.setFd rfd (some ⟨.pipeRead, i⟩)).setFd wfd (some ⟨.pipeWrite, i⟩), 0)

/-- The slot is emptied and its socket released. -/
def undoSocket (c : Ctx) (fd : Fin maxProcessFds) (i : ℕ) : Ctx :=
  { fds := update c.fds fd none, kernel := processSocketRelease c.kernel i }

def placeSocket (c : Ctx) (fd : Fin maxProcessFds) : Ctx :=
  Ctx.setFd { c with kernel := processSocketCreate c.kernel } fd (some ⟨.socket, c.kernel.fresh⟩)

/-- `handle_sys_socketpair`: whether the domain and the pointer are right, whether there is memory
for either socket, and whether `unix_socketpair` succeeds. -/
def handleSysSocketpair (c : Ctx) (valid memory₁ memory₂ paired : Bool) : Ctx × Int :=
  if !valid then (c, -1)
  else
    match fsAllocFdSlot c.fds 0 with
    | none => (c, -1)
    | some fd₁ =>
      if !memory₁ then (c, -1)
      else
        let i₁ := c.kernel.fresh
        let c₁ := placeSocket c fd₁
        match fsAllocFdSlot c₁.fds 0 with
        | none => (undoSocket c₁ fd₁ i₁, -1)
        | some fd₂ =>
          if !memory₂ then (undoSocket c₁ fd₁ i₁, -1)
          else
            let i₂ := c₁.kernel.fresh
            let c₂ := placeSocket c₁ fd₂
            if paired then (c₂, 0)
            else (undoSocket (undoSocket c₂ fd₁ i₁) fd₂ i₂, -1)

/-- The loop of `process_exec_replace_current` that closes the descriptors from 3 on. -/
def execCloseFds (c : Ctx) : Ctx :=
  ((finRange maxProcessFds).filter fun i => 3 ≤ i.val).foldl processCloseFdInner c

/-- The loop of `process_cleanup_inner` that closes all descriptors. -/
def processCleanupFds (c : Ctx) : Ctx := (finRange maxProcessFds).foldl processCloseFdInner c

/-! ## Creating a process -/

/-- A process: its pid, its slots and whether it has exited. -/
structure Proc where
  pid : ℕ
  fds : Fds
  exited : Bool := false

/-- One turn of the loops that give a child what its parent has. -/
def inheritFd (parent : Fds) (child : Ctx) (i : Fin maxProcessFds) : Ctx :=
  let child' := child.setFd i (parent i)
  { child' with kernel := fdAddref child'.kernel child'.fds i }

def inheritAll (k : Kernel) (parent : Fds) : Ctx :=
  (finRange maxProcessFds).foldl (inheritFd parent) { fds := emptyFds, kernel := k }

/-- What a fork meets: no memory for the process structure, none for the address space or the
kernel stack, or enough. -/
inductive ForkTrial where
  | noStruct
  | noMemory
  | succeeds
deriving DecidableEq, Repr

/-- The descriptor part of `process_duplicate`: everything that can fail comes before the copy. -/
def processDuplicate (k : Kernel) (parent : Fds) : ForkTrial → Kernel × Option Proc
  | .noStruct => (k, none)
  | .noMemory => ({ k with nextPid := k.nextPid + 1 }, none)
  | .succeeds =>
    let child := inheritAll { k with nextPid := k.nextPid + 1 } parent
    (child.kernel, some { pid := k.nextPid, fds := child.fds })

/-- `process_create_thread` has the same loop after its own allocations. -/
def processCreateThread (k : Kernel) (parent : Fds) (t : ForkTrial) : Kernel × Option Proc :=
  processDuplicate k parent t

/-- What opening a terminal for a new process meets: the file cannot be opened, there is no memory
for the handle of the open file, or both succeed. -/
inductive TtyTrial where
  | closed
  | noRef
  | opened
deriving DecidableEq, Repr

/-- What one call of `process_create_elf` meets before it looks at the path: memory for the
structure and for the page tables, the terminal that was asked for, and `/dev/console` at each of
the three slots. -/
structure Setup where
  struct : Bool
  pageTables : Bool
  tty : TtyTrial
  console : Fin 3 → TtyTrial

/-- Why `process_create_elf` gives up after it has set up the descriptors. -/
inductive Refusal where
  /-- `vfs_get_info` fails -/
  | missing
  /-- `vfs_check_permission` fails -/
  | denied
  /-- `elf_load` fails -/
  | notElf
  /-- no memory for the stacks -/
  | noStack
  /-- `mmu_map_page` fails -/
  | notMapped
deriving DecidableEq, Repr

/-- What a path leads to: a refusal, a script with the path of its interpreter, or a program that
starts. -/
inductive Image where
  | refused (e : Setup) (why : Refusal)
  | script (e : Setup) (interp : Image)
  | starts (e : Setup)

/-- The slots 0 to 2. -/
def stdFd (i : Fin 3) : Fin maxProcessFds := ⟨i.val, by have := i.isLt; simp [maxProcessFds]; omega⟩

/-- The slots of the terminal that was asked for: one handle with three references. -/
def openTty (k : Kernel) : TtyTrial → Ctx
  | .closed => { fds := emptyFds, kernel := k }
  | .noRef => { fds := emptyFds, kernel := vfsOpen k }
  | .opened =>
    { fds := fun fd => if fd.val < 3 then some ⟨.file, k.fresh⟩ else none
      kernel := allocFileRef (vfsOpen k) k.fresh 3 }

def inheritStd (k : Kernel) (parent : Fds) : Ctx :=
  ((finRange 3).map stdFd).foldl (inheritFd parent) { fds := emptyFds, kernel := k }

/-- `console_ref` is looked for if there is none yet. -/
def openConsole (k : Kernel) : Option ℕ → TtyTrial → Kernel × Option ℕ
  | some i, _ => (k, some i)
  | none, .closed => (k, none)
  | none, .noRef => (vfsOpen k, none)
  | none, .opened => (allocFileRef (vfsOpen k) k.fresh 0, some k.fresh)

/-- One turn of the loop that gives an empty slot the console. -/
def consoleFd (console : Fin 3 → TtyTrial) (cr : Ctx × Option ℕ) (i : Fin 3) : Ctx × Option ℕ :=
  if (cr.1.fds (stdFd i)).isSome then cr
  else
    match openConsole cr.1.kernel cr.2 (console i) with
    | (k, none) => ({ cr.1 with kernel := k }, none)
    | (k, some j) =>
      (.setFd { cr.1 with kernel := addref k ⟨.file, j⟩ } (stdFd i) (some ⟨.file, j⟩), some j)

def setupFds (k : Kernel) (parent : Fds) (tty : Bool) (e : Setup) : Ctx :=
  let c := if tty then openTty k e.tty else inheritStd k parent
  ((finRange 3).foldl (consoleFd e.console) (c, none)).1

/-- The start of `process_create_elf`: the structure, its pid and its page tables. -/
def createStruct (k : Kernel) (e : Setup) (rest : Kernel → Kernel × Option Proc) :
    Kernel × Option Proc :=
  if !e.struct then (k, none)
  else if !e.pageTables then ({ k with nextPid := k.nextPid + 1 }, none)
  else rest { k with nextPid := k.nextPid + 1 }

/-- `process_create_elf`, up to the process it returns. `tty` tells whether a terminal was asked
for. None of the returns without a process gives the descriptors back: `process_put` frees the
structure only. The files that are read on the way are closed at once and left out. -/
def processCreateElf (parent : Fds) (tty : Bool) : Image → Kernel → Kernel × Option Proc
  | .refused e _, k => createStruct k e fun k => ((setupFds k parent tty e).kernel, none)
  | .starts e, k => createStruct k e fun k' =>
    let c := setupFds k' parent tty e
    (c.kernel, some { pid := k.nextPid, fds := c.fds })
  | .script e interp, k => createStruct k e fun k =>
    let k' := (setupFds k parent tty e).kernel
    if 4 ≤ k'.spawnShebangDepth then ({ k' with spawnShebangDepth := 0 }, none)
    else
      let r := processCreateElf parent tty interp
        { k' with spawnShebangDepth := k'.spawnShebangDepth + 1 }
      ({ r.1 with spawnShebangDepth := r.1.spawnShebangDepth - 1 }, r.2)

/-! ## The system -/

/-- The kernel and the processes in the order of their creation. -/
structure State where
  kernel : Kernel
  procs : List Proc

inductive Call where
  | openFile (trial : OpenTrial)
  | close (fd : Int)
  | dup (oldfd : Int)
  | dup2 (oldfd newfd : Int)
  | pipe (valid memory : Bool)
  | socketpair (valid memory₁ memory₂ paired : Bool)
  | duplicate (trial : ForkTrial)
  | createThread (trial : ForkTrial)
  /-- `process_exec_replace_current`, and whether it replaces the image -/
  | exec (replaced : Bool)
  /-- its own end, or the one by a signal or by the hangup of its terminal -/
  | exit
  | spawn (tty : Bool) (image : Image)

/-- The process that calls has a new table. -/
def State.putCtx (s : State) (i : ℕ) (p : Proc) (c : Ctx) : State :=
  { kernel := c.kernel, procs := s.procs.set i { p with fds := c.fds } }

/-- A process is added if there is one. -/
def State.addProc (s : State) (r : Kernel × Option Proc) : State :=
  { kernel := r.1, procs := s.procs ++ r.2.toList }

/-- `process_terminate_current_with_status` and `process_terminate_with_status`: pid 0 stays, and
the end of pid 1 stops the machine. Closing the last handle of a pseudo terminal's master ends the
processes of that terminal from within `vfs_close`. No slot but the one being closed refers to that
file then, so these ends are steps of their own after the call. -/
def exitProc (s : State) (i : ℕ) (p : Proc) : Option State :=
  if p.pid = 0 then some s
  else if p.pid = 1 then none
  else
    let c := processCleanupFds { fds := p.fds, kernel := s.kernel }
    some { kernel := c.kernel, procs := s.procs.set i { p with fds := c.fds, exited := true } }

def callStep (s : State) (i : ℕ) (p : Proc) : Call → Option State
  | .openFile t => some (s.putCtx i p (fsCmdOpen ⟨p.fds, s.kernel⟩ t).1)
  | .close fd => some (s.putCtx i p (fsCmdClose ⟨p.fds, s.kernel⟩ fd).1)
  | .dup oldfd => some (s.putCtx i p (fsCmdDup ⟨p.fds, s.kernel⟩ oldfd).1)
  | .dup2 oldfd newfd => some (s.putCtx i p (fsCmdDup2 ⟨p.fds, s.kernel⟩ oldfd newfd).1)
  | .pipe valid memory => some (s.putCtx i p (fsCmdPipe ⟨p.fds, s.kernel⟩ valid memory).1)
  | .socketpair valid memory₁ memory₂ paired =>
    some (s.putCtx i p
      (handleSysSocketpair ⟨p.fds, s.kernel⟩ valid memory₁ memory₂ paired).1)
  | .duplicate t => some (s.addProc (processDuplicate s.kernel p.fds t))
  | .createThread t => some (s.addProc (processCreateThread s.kernel p.fds t))
  | .exec replaced =>
    if replaced then some (s.putCtx i p (execCloseFds ⟨p.fds, s.kernel⟩)) else some s
  | .exit => exitProc s i p
  | .spawn tty image => some (s.addProc (processCreateElf p.fds tty image s.kernel))

/-- A call of the process at an index, if it has not exited. -/
def step (s : State) (a : ℕ × Call) : Option State :=
  match s.procs[a.1]? with
  | none => none
  | some p => if p.exited then none else callStep s a.1 p a.2

/-- The kernel process with its empty table, and nothing open. -/
def processInit : State where
  kernel :=
    { table := { count := fun _ => 0, alive := fun _ => false }
      fileOpen := fun _ => false
      fresh := 0
      nextPid := 1
      spawnShebangDepth := 0 }
  procs := [{ pid := 0, fds := emptyFds }]

def descriptorSystem : Lib.Transition.System State (ℕ × Call) where
  init s := s = processInit
  step s a s' := step s a = some s'

/-! ## What the counters should say -/

/-- The number of slots of a table that refer to something with a kind. -/
def heldBy (p : Fds) : Ref → ℕ := fun r => ∑ fd, if p fd = some r then 1 else 0

/-- The slots of a process that has not exited. -/
def Proc.held (p : Proc) : Ref → ℕ := if p.exited then 0 else heldBy p.fds

/-- The number of slots of existing processes that refer to something with a kind. -/
def State.slots (s : State) : Ref → ℕ := (s.procs.map Proc.held).sum

/-- Every counter is the number of slots, and what no slot refers to is freed and closed. -/
structure RefsOk (s : State) : Prop where
  refs : ∀ r : Ref, s.kernel.table.alive r.obj = true → s.kernel.table.count r = s.slots r
  freed : ∀ o : Obj, s.kernel.table.alive o = true ↔ ∃ r : Ref, r.obj = o ∧ 0 < s.slots r
  closed : ∀ i, s.kernel.fileOpen i = true ↔ 0 < s.slots ⟨.file, i⟩

/-! ## The calls that keep them right -/

/-- The slot is filled before the console is looked for. -/
def Setup.given (e : Setup) (parent : Fds) (tty : Bool) (i : Fin 3) : Prop :=
  if tty then e.tty = .opened else (parent (stdFd i)).isSome = true
  deriving Decidable

/-- The new process gets a descriptor. -/
def Setup.Takes (e : Setup) (parent : Fds) (tty : Bool) : Prop :=
  ∃ i, e.given parent tty i ∨ e.console i = .opened
  deriving Decidable

/-- A file is opened and no handle is made for it. -/
def Setup.Leaks (e : Setup) (parent : Fds) (tty : Bool) : Prop :=
  (tty = true ∧ e.tty = .noRef) ∨ ∃ i, ¬ e.given parent tty i ∧ e.console i = .noRef ∧
      ∀ j < i, e.given parent tty j ∨ e.console j ≠ .opened
  deriving Decidable

/-- Memory for the structure and the page tables, so that descriptors are set up. -/
def Setup.Begins (e : Setup) : Prop := e.struct = true ∧ e.pageTables = true
  deriving Decidable

/-- Every attempt that comes to nothing has taken no descriptor, and none has opened a file without
a handle for it. -/
def SpawnSafe (parent : Fds) (tty : Bool) : Image → Int → Prop
  | .refused e _, _ => e.Begins → ¬ e.Takes parent tty ∧ ¬ e.Leaks parent tty
  | .starts e, _ => e.Begins → ¬ e.Leaks parent tty
  | .script e interp, depth =>
    e.Begins → (¬ e.Takes parent tty ∧ ¬ e.Leaks parent tty) ∧
      (depth < 4 → SpawnSafe parent tty interp (depth + 1))

instance decidableSpawnSafe {parent : Fds} {tty : Bool} :
    (image : Image) → (depth : Int) → Decidable (SpawnSafe parent tty image depth)
  | .refused e _, _ =>
    inferInstanceAs (Decidable (e.Begins → ¬ e.Takes parent tty ∧ ¬ e.Leaks parent tty))
  | .starts e, _ => inferInstanceAs (Decidable (e.Begins → ¬ e.Leaks parent tty))
  | .script e interp, depth =>
    have := @decidableSpawnSafe parent tty interp (depth + 1)
    inferInstanceAs (Decidable (e.Begins → (¬ e.Takes parent tty ∧ ¬ e.Leaks parent tty) ∧
      (depth < 4 → SpawnSafe parent tty interp (depth + 1))))

/-- The condition of a call: only spawning has one. -/
def DescriptorSafe (s : State) (a : ℕ × Call) : Prop :=
  match s.procs[a.1]?, a.2 with
  | some p, .spawn tty image => SpawnSafe p.fds tty image s.kernel.spawnShebangDepth
  | _, _ => True

instance {s : State} {a : ℕ × Call} : Decidable (DescriptorSafe s a) := by
  unfold DescriptorSafe
  split <;> infer_instance

end BoredOS.Sys.Descriptors
