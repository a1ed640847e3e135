import BoredOS.Sys.Exec.Elf

/-!
# Replacing the Image of a Process

`process_exec_replace_current` of `sys/process.c` with `elf_load`, over the state that it changes:
the process, its register frame, the address spaces and the blocks of the kernel heap.

An address space is a top table whose slots lead to trees of mappings. A new one has the slots of
the kernel in its upper half, so their trees are the same in all address spaces. A write that leaves
the buffer it is meant for is recorded in `overrun`: what it hits is not known.

The call first follows the interpreters of scripts (`execPrelude`), then builds the new image beside
the old one, and takes everything back if the file cannot be loaded. After that it gives up the old
segments and takes over the credentials of the file, and only then sets up the stack, which can
still fail. `ExecSafe` says when nothing is lost by a call that fails.
-/

namespace BoredOS.Sys.Exec

open Function List

open Mem.Mmu (pml4Idx)

/-! ## The machine -/

/-- An entry of `elf_segments`. -/
structure Segment where
  ptr : ℕ
  vaddr : ℕ
  size : ℕ
  deriving DecidableEq, Repr

structure Ids where
  uid : BitVec 32
  euid : BitVec 32
  suid : BitVec 32
  gid : BitVec 32
  egid : BitVec 32
  sgid : BitVec 32
  groups : List (BitVec 32)
  isSuidElevated : Bool
  deriving DecidableEq, Repr

/-- The signal state of a process, by signal. -/
structure Signals where
  mask : BitVec 64
  pending : BitVec 64
  handlers : ℕ → BitVec 64
  actionMask : ℕ → BitVec 64
  actionFlags : ℕ → Int

/-- A descriptor slot: `fds`, `fd_kind` and `fd_flags`. -/
structure Slot where
  object : Option ℕ
  kind : ℕ
  flags : Int
  deriving DecidableEq, Repr

/-- The fields of `process_t` that the call reads or that belong to the image. `pml4Refs` is what
`pml4_refcount` points to. -/
structure Process where
  isUser : Bool
  vmmSpace : Option ℕ
  pml4 : ℕ
  pml4Refs : Option ℕ
  userStack : Option ℕ
  segments : List Segment
  heapStart : ℕ
  heapEnd : ℕ
  ids : Ids
  slots : ℕ → Slot
  signals : Signals

/-- A `vmm_space_t` with the areas that were inserted. -/
structure Space where
  pml4 : ℕ
  areas : List (ℕ × ℕ × ℕ)
  brk : ℕ
  refs : ℕ
  deriving DecidableEq, Repr

/-- A mapped page: the block of the heap, the page in it, and the flags. -/
structure Entry where
  block : ℕ
  page : ℕ
  flags : ℕ
  deriving DecidableEq, Repr

structure Frame where
  rip : ℕ
  rdi : ℕ
  rsi : ℕ
  rsp : ℕ
  others : List ℕ
  deriving DecidableEq, Repr

/-- Blocks, tables, trees and spaces are named by numbers that are never used again. -/
structure Machine where
  proc : Process
  frame : Frame
  roots : ℕ → ℕ → Option ℕ
  kernelRoots : ℕ → Option ℕ
  trees : ℕ → ℕ → Option Entry
  spaces : ℕ → Option Space
  heap : ℕ → Option (List UInt8)
  nextId : ℕ
  shebangDepth : Int
  overrun : Bool

/-- What an address space maps at an address. -/
def Machine.addressSpace (m : Machine) (pml4 v : ℕ) : Option Entry :=
  (m.roots pml4 (pml4Idx v)).bind fun t => m.trees t v

/-! ## Memory -/

def setAt {β : Type} (f : ℕ → ℕ → β) (i j : ℕ) (b : β) : ℕ → ℕ → β :=
  update f i (update (f i) j b)

/-- `mmu_map_page`, if it does not fail. -/
def mapPage (m : Machine) (pml4 v : ℕ) (e : Entry) : Machine :=
  match m.roots pml4 (pml4Idx v) with
  | some t => { m with trees := setAt m.trees t v (some e) }
  | none =>
    { m with
      roots := setAt m.roots pml4 (pml4Idx v) (some m.nextId)
      trees := update m.trees m.nextId fun v' => if v' = v then some e else none
      nextId := m.nextId + 1 }

/-- `mmu_unmap_page`. -/
def unmapPage (m : Machine) (pml4 v : ℕ) : Machine :=
  match m.roots pml4 (pml4Idx v) with
  | some t => { m with trees := setAt m.trees t v none }
  | none => m

def unmapPages (m : Machine) (pml4 : ℕ) (pages : List ℕ) : Machine :=
  pages.foldl (fun m v => unmapPage m pml4 v) m

def kfree (m : Machine) (ptr : ℕ) : Machine := { m with heap := update m.heap ptr none }

/-- `mmu_create_context`: the upper half is that of the kernel. -/
def createContext (m : Machine) : Machine × ℕ :=
  ({ m with
    roots := update m.roots m.nextId fun slot =>
      if 256 ≤ slot then m.kernelRoots slot else none
    nextId := m.nextId + 1 }, m.nextId)

/-- `vmm_create_space`. -/
def createSpace (m : Machine) : Machine × ℕ × ℕ :=
  let (m, pml4) := createContext m
  ({ m with
    spaces := update m.spaces m.nextId (some { pml4, areas := [], brk := 0, refs := 1 })
    nextId := m.nextId + 1 }, m.nextId, pml4)

/-- `mmu_destroy_context`: only the lower half is given back. -/
def destroyContext (m : Machine) (pml4 : ℕ) : Machine :=
  { m with roots := update m.roots pml4 fun _ => none }

/-- `vmm_destroy_space`. -/
def destroySpace (m : Machine) (id : ℕ) : Machine :=
  match m.spaces id with
  | none => m
  | some space =>
    if 1 < space.refs then
      { m with
        spaces := update m.spaces id (some { space with refs := space.refs - 1 }) }
    else
      destroyContext { m with spaces := update m.spaces id none } space.pml4

/-- `vma_create` and `vma_insert`. -/
def addArea (m : Machine) (id start stop flags : ℕ) : Machine :=
  { m with
    spaces := update m.spaces id
      ((m.spaces id).map fun space => { space with areas := (start, stop, flags) :: space.areas }) }

/-! ## Loading -/

/-- The segment is listed, if there is a place. -/
def listSegment (m : Machine) (seg : Segment) : Machine :=
  if m.proc.segments.length < 4 then
    { m with proc := { m.proc with segments := m.proc.segments ++ [seg] } }
  else m

/-- The segment gets an area, readable, writable and executable. -/
def coverSegment (m : Machine) (seg : Segment) (area : Bool) : Machine :=
  match m.proc.vmmSpace with
  | some id => if area = true then addArea m id seg.vaddr (seg.vaddr + seg.size) 7 else m
  | none => m

def processAddElfSegment (m : Machine) (seg : Segment) (area : Bool) : Machine :=
  coverSegment (listSegment m seg) seg area

/-- The loop that maps the pages of a segment, until a page cannot be mapped. -/
def mapSegment (pml4 block flags : ℕ) (maps : ℕ → Bool) : ℕ → List ℕ → Machine → Machine × Bool
  | _, [], m => (m, true)
  | p, v :: rest, m =>
    if maps p = true then
      mapSegment pml4 block flags maps (p + 1) rest (mapPage m pml4 v ⟨block, p, flags⟩)
    else (m, false)

/-- The bytes of the segment in its block; they may not fit. -/
def fillBlock (m : Machine) (vaddr memsz : ℕ) (bytes : List UInt8) : Machine :=
  { m with
    heap := update m.heap m.nextId
      (some ((replicate (vaddr % 4096) 0 ++ bytes).take (blockSize (totalNeeded vaddr memsz))))
    nextId := m.nextId + 1
    overrun := m.overrun ||
      decide (blockSize (totalNeeded vaddr memsz) < vaddr % 4096 + bytes.length) }

/-- One round of the loop of `load_elf_segments`. -/
def loadItem (pml4 : ℕ) (m : Machine) : Item → Machine × Bool
  | .bad => (m, false)
  | .skip => (m, true)
  | .segment vaddr memsz flags bytes allocates maps area =>
    if allocates = true ∧ allocatable (totalNeeded vaddr memsz) = true then
      let ptr := m.nextId
      let (m, mapped) := mapSegment pml4 ptr flags maps 0 (segmentPages vaddr memsz)
        (fillBlock m vaddr memsz bytes)
      if mapped = true then
        (processAddElfSegment m ⟨ptr, startPage vaddr, totalNeeded vaddr memsz⟩ area, true)
      else (kfree m ptr, false)
    else (m, false)

/-- `load_elf_segments`, for the file and for its dynamic linker. -/
def loadElfSegments (pml4 : ℕ) : List Item → Machine → Machine × Bool
  | [], m => (m, true)
  | item :: rest, m =>
    match loadItem pml4 m item with
    | (m, true) => loadElfSegments pml4 rest m
    | (m, false) => (m, false)

/-! ## The call -/

/-- Which allocations of the call succeed. -/
structure World where
  files : Files
  spaceOk : Bool
  contextOk : Bool
  exec : SegmentWorld
  interp : SegmentWorld
  stackOk : Bool
  stackMapOk : Bool
  refcountOk : Bool
  stackAreaOk : Bool
  heapAreaOk : Bool

def enoent : Int := 2

def enoexec : Int := 8

def enomem : Int := 12

def eacces : Int := 13

def eloop : Int := 40

/-- Where the call is when it begins to build an image: it has failed, or it will load a file. -/
inductive Prelude where
  | fails (code : Int)
  | load (path : Path) (args : Option Path) (stat : Stat)

/-- What the first part of the call leaves: where it is, the counter of nested scripts as it is when
the call returns, and whether the buffer for the arguments was too small. -/
structure PreludeResult where
  outcome : Prelude
  depth : Int
  overrun : Bool

/-- The mode that is checked: a file without one has `0755`. -/
def Stat.fmode (stat : Stat) : BitVec 32 := if stat.mode ≠ 0 then stat.mode else 0o755

/-- `vfs_check_permission` for a file outside `/dev`; `ids` are those of the current process. -/
def vfsCheckPermission (mode uid gid requestedMask : BitVec 32) (ids : Ids) : Bool :=
  if ids.euid = 0 then
    !(decide (requestedMask &&& 1 ≠ 0) && decide (mode &&& 0o040000 = 0) &&
      decide (mode &&& 0o170000 ≠ 0) && decide (mode &&& 0o111 = 0))
  else if ids.euid = uid then
    decide (((mode >>> 6) &&& 7) &&& requestedMask = requestedMask)
  else if ids.egid = gid ∨ gid ∈ ids.groups then
    decide (((mode >>> 3) &&& 7) &&& requestedMask = requestedMask)
  else decide ((mode &&& 7) &&& requestedMask = requestedMask)

/-- The first part of the call, which calls itself for the interpreter of a script. `fuel` bounds
the nesting and is enough if it is more than `4 - depth`. -/
def execPrelude (files : Files) (ids : Ids) : ℕ → Int → Path → Option Path → PreludeResult
  | 0, depth, _, _ => ⟨.fails 0, depth, false⟩
  | fuel + 1, depth, path, args =>
    if files.exists_ path = false then ⟨.fails (-enoent), depth, false⟩
    else if files.isDirectory path = true then ⟨.fails (-eacces), depth, false⟩
    else
      match files.getInfo path with
      | none => ⟨.fails (-enoent), depth, false⟩
      | some stat =>
        if vfsCheckPermission stat.fmode stat.uid stat.gid 1 ids = false then
          ⟨.fails (-eacces), depth, false⟩
        else
          match shebang (scriptHeader files path) with
          | none => ⟨.load path args stat, depth, false⟩
          | some (interp, arg) =>
            if 4 ≤ depth then ⟨.fails (-eloop), 0, false⟩
            else
              let newArgs := scriptArgs arg path args
              let r := execPrelude files ids fuel (depth + 1) interp (some newArgs)
              { r with
                depth := r.depth - 1
                overrun := r.overrun || decide (newArgsSize ≤ newArgs.length) }

/-- The fuel for all scripts that may be nested. -/
def execFuel (depth : Int) : ℕ := (4 - depth).toNat + 1

/-- The new space, or a bare context if there is no memory for one. -/
def newSpace (w : World) (m : Machine) : Machine × Option ℕ × Option ℕ :=
  if w.spaceOk = true then
    let (m, id, pml4) := createSpace m
    (m, some id, some pml4)
  else if w.contextOk = true then
    let (m, pml4) := createContext m
    (m, none, some pml4)
  else (m, none, none)

def dropNew (m : Machine) (space : Option ℕ) (pml4 : ℕ) : Machine :=
  match space with
  | some id => destroySpace m id
  | none => destroyContext m pml4

def freeSegments (m : Machine) (segs : List Segment) : Machine :=
  segs.foldl (fun m seg => kfree m seg.ptr) m

def Segment.pages (seg : Segment) : List ℕ :=
  (range ((seg.size + 4095) / 4096)).map fun i => (seg.vaddr + i * 4096) % 2 ^ 64

/-- The old segments are unmapped and freed. -/
def releaseSegments (m : Machine) (segs : List Segment) : Machine :=
  segs.foldl (fun m seg =>
    kfree (if m.proc.pml4 ≠ 0 then unmapPages m m.proc.pml4 seg.pages else m) seg.ptr) m

/-- What the set-user-id and set-group-id bits of the file do. -/
def execIds (nosuid : Bool) (stat : Stat) (ids : Ids) : Ids :=
  let ids :=
    if nosuid = false ∧ stat.mode &&& 0o4000 ≠ 0 then
      { ids with euid := stat.uid, suid := stat.uid }
    else ids
  let ids :=
    if nosuid = false ∧ stat.mode &&& 0o2000 ≠ 0 then
      { ids with egid := stat.gid, sgid := stat.gid }
    else ids
  { ids with isSuidElevated := decide (ids.euid ≠ ids.uid ∨ ids.egid ≠ ids.gid) }

def userStackTop : ℕ := 0x00007FFFFFFFF000

def userStackSize : ℕ := 262144

/-- The arguments in `args_str`: separated by spaces, or in quotes. At most 30 count. -/
def splitArgs : ℕ → List UInt8 → List (List UInt8)
  | 0, _ => []
  | n + 1, s =>
    match s.dropWhile fun c => c == 32 with
    | [] => []
    | 34 :: rest =>
      rest.takeWhile (fun c => c != 34) :: splitArgs n ((rest.dropWhile fun c => c != 34).drop 1)
    | c :: rest =>
      (c :: rest).takeWhile (fun c => c != 32) ::
        splitArgs n ((c :: rest).dropWhile fun c => c != 32)

/-- `argv`. -/
def argvOf (path : Path) (args : Option Path) : List (List UInt8) :=
  path :: splitArgs 30 (args.getD [])

/-- The stack pointer below the strings, the auxiliary vector, the environment and `argv`. -/
def stackPointer (argv : List (List UInt8)) : ℕ :=
  let strings := userStackTop - (argv.map fun a => a.length + 1).sum
  (strings - (1 + (argv.length + 1) + 1 + 28) * 8) / 16 * 16

def stackPages : List ℕ :=
  (range (userStackSize / 4096)).map fun i => userStackTop - userStackSize + i * 4096

/-- The areas of the stack and of the heap. -/
def addAreas (w : World) (m : Machine) : Option ℕ → Machine
  | none => m
  | some id =>
    let m :=
      if w.stackAreaOk = true then addArea m id (userStackTop - userStackSize) userStackTop 0x23
      else m
    let m :=
      { m with
        spaces := update m.spaces id
          ((m.spaces id).map fun space => { space with brk := 0x20000000 }) }
    if w.heapAreaOk = true then addArea m id 0x20000000 0x20000000 0x43 else m

/-- The old stack and the old address space, which other threads may still use, are given back. -/
def releaseOld (m : Machine) (old : Process) : Machine :=
  let m :=
    match old.userStack with
    | some ptr => kfree (if old.pml4 ≠ 0 then unmapPages m old.pml4 stackPages else m) ptr
    | none => m
  if (old.pml4Refs.getD 0) ≤ 1 then
    match old.vmmSpace with
    | some id => destroySpace m id
    | none => if old.pml4 ≠ 0 then destroyContext m old.pml4 else m
  else m

/-- `process_init_signal_state`. -/
def initSignals : Signals := ⟨0, 0, fun _ => 0, fun _ => 0, fun _ => 0⟩

/-- The end of a call that succeeds. -/
def commit (w : World) (m : Machine) (space : Option ℕ) (pml4 stack : ℕ) (path : Path)
    (args : Option Path) : Machine :=
  let old := m.proc
  let argv := argvOf path args
  let m := addAreas w m space
  let m := releaseOld m old
  { m with
    proc := { m.proc with
      vmmSpace := space, pml4, pml4Refs := if w.refcountOk = true then some 1 else none,
      userStack := some stack, heapStart := 0x20000000, heapEnd := 0x20000000,
      slots := fun fd => if fd < 3 then m.proc.slots fd else ⟨none, 0, 0⟩, signals := initSignals }
    frame := ⟨entryPoint w.files path, argv.length, stackPointer argv + 8, stackPointer argv,
      m.frame.others.map fun _ => 0⟩ }

/-- The stack could not be set up: the new segments and the new space are given back. -/
def abandon (m : Machine) (space : Option ℕ) (pml4 : ℕ) (saved : Option ℕ) : Machine :=
  let m := freeSegments m m.proc.segments
  dropNew { m with proc := { m.proc with segments := [], vmmSpace := saved } } space pml4

/-- A cleared page for the stack. -/
def allocStack (m : Machine) : Machine :=
  { m with
    heap := update m.heap m.nextId (some (replicate 4096 0))
    nextId := m.nextId + 1 }

/-- The credentials of the file. -/
def takeIds (w : World) (m : Machine) (path : Path) (stat : Stat) : Machine :=
  { m with proc := { m.proc with ids := execIds (w.files.nosuid path) stat m.proc.ids } }

/-- The call after the file was loaded: the old segments and the credentials go first, then the
stack is set up. -/
def finish (w : World) (m : Machine) (space : Option ℕ) (pml4 : ℕ) (old : Process) (path : Path)
    (args : Option Path) (stat : Stat) : Machine × Int :=
  let m := takeIds w (releaseSegments m (old.segments.take 4)) path stat
  if w.stackOk = false then (abandon m space pml4 old.vmmSpace, -enomem)
  else
    let stack := m.nextId
    let m := allocStack m
    if w.stackMapOk = false then (abandon (kfree m stack) space pml4 old.vmmSpace, -enomem)
    else
      let m := mapPage m pml4 (userStackTop - 4096) ⟨stack, 0, 3⟩
      let m := { m with proc := { m.proc with vmmSpace := old.vmmSpace } }
      (commit w m space pml4 stack path args, 0)

/-- The file could not be loaded. -/
def rollback (w : World) (m : Machine) (space : Option ℕ) (pml4 : ℕ) (old : Process)
    (path : Path) : Machine × Int :=
  let m := freeSegments m m.proc.segments
  let m := { m with
    proc := { m.proc with segments := old.segments.take 4, vmmSpace := old.vmmSpace } }
  (dropNew m space pml4,
    if w.files.exists_ path = false then -enoent
    else if w.files.isDirectory path = true then -eacces else -enoexec)

/-- The process has an empty image in the new space. -/
def startImage (m : Machine) (space : Option ℕ) : Machine :=
  { m with proc := { m.proc with segments := [], vmmSpace := space } }

/-- The file is loaded into the new space. -/
def buildImage (w : World) (m : Machine) (space : Option ℕ) (pml4 : ℕ) (old : Process)
    (path : Path) (args : Option Path) (stat : Stat) : Machine × Int :=
  match loadElfSegments pml4 (elfItems w.files w.exec w.interp path) m with
  | (m, true) => finish w m space pml4 old path args stat
  | (m, false) => rollback w m space pml4 old path

/-- The call for a file that is not a script. -/
def replaceImage (w : World) (m : Machine) (path : Path) (args : Option Path) (stat : Stat) :
    Machine × Int :=
  match newSpace w m with
  | (m', _, none) => (m', -1)
  | (m', space, some pml4) =>
    buildImage w (startImage m' space) space pml4 m.proc path args stat

/-- `process_exec_replace_current`, for a frame and a path that are there. -/
def processExecReplaceCurrent (w : World) (m : Machine) (path : Path) (args : Option Path) :
    Machine × Int :=
  if m.proc.isUser = false then (m, -1)
  else
    let r := execPrelude w.files m.proc.ids (execFuel m.shebangDepth) m.shebangDepth path args
    let m := { m with shebangDepth := r.depth, overrun := m.overrun || r.overrun }
    match r.outcome with
    | .fails code => (m, code)
    | .load path args stat => replaceImage w m path args stat

/-! ## The property -/

/-- The process, its frame, its address space and the memory of its segments are the same. -/
structure SameImage (m m' : Machine) : Prop where
  proc : m'.proc = m.proc
  frame : m'.frame = m.frame
  addressSpace : ∀ v, m'.addressSpace m.proc.pml4 v = m.addressSpace m.proc.pml4 v
  space : m.proc.vmmSpace.bind m'.spaces = m.proc.vmmSpace.bind m.spaces
  memory : ∀ seg ∈ m.proc.segments, m'.heap seg.ptr = m.heap seg.ptr

/-- The image is the same, and nothing was written outside of a buffer. -/
def Same (m m' : Machine) : Prop := SameImage m m' ∧ m'.overrun = false

/-- The numbers in use are below `nextId`, and at most four segments are listed. -/
structure Wf (m : Machine) : Prop where
  segments : m.proc.segments.length ≤ 4
  ptr : ∀ seg ∈ m.proc.segments, seg.ptr < m.nextId
  pml4 : m.proc.pml4 < m.nextId
  space : ∀ id, m.proc.vmmSpace = some id → id < m.nextId
  roots : ∀ slot t, m.roots m.proc.pml4 slot = some t → t < m.nextId
  kernelRoots : ∀ slot t, m.kernelRoots slot = some t → t < m.nextId
  entries : ∀ t v e, m.trees t v = some e → e.block < m.nextId

/-- The tree of the address is one that a new address space would have in common with this one. -/
def SharedAt (m : Machine) (v : ℕ) : Prop :=
  256 ≤ pml4Idx v ∧ m.kernelRoots (pml4Idx v) ≠ none ∧
    m.roots m.proc.pml4 (pml4Idx v) = m.kernelRoots (pml4Idx v)
  deriving Decidable

def mappedPages (maps : ℕ → Bool) : ℕ → List ℕ → List ℕ
  | _, [] => []
  | p, v :: rest => if maps p = true then v :: mappedPages maps (p + 1) rest else []

/-- The loop goes on after the item. -/
def Item.loads : Item → Bool
  | .bad => false
  | .skip => true
  | .segment vaddr memsz _ _ allocates maps _ =>
    allocates && allocatable (totalNeeded vaddr memsz) &&
      (range (segmentPages vaddr memsz).length).all maps

/-- The bytes of the segment do not fit into its block. -/
def Item.spills : Item → Bool
  | .bad => false
  | .skip => false
  | .segment vaddr memsz _ bytes allocates _ _ =>
    (allocates && allocatable (totalNeeded vaddr memsz)) &&
      decide (blockSize (totalNeeded vaddr memsz) < vaddr % 4096 + bytes.length)

def Item.pages : Item → List ℕ
  | .bad => []
  | .skip => []
  | .segment vaddr memsz _ _ allocates maps _ =>
    if allocates = true ∧ allocatable (totalNeeded vaddr memsz) = true then
      mappedPages maps 0 (segmentPages vaddr memsz)
    else []

/-- The items that the loop goes through, with the one where it gives up. -/
def processed : List Item → List Item
  | [] => []
  | item :: rest => if item.loads = true then item :: processed rest else [item]

/-- The segments that are loaded fit into their blocks and have no page of the kernel. -/
def Clean (m : Machine) (items : List Item) : Prop :=
  ∀ item ∈ processed items, item.spills = false ∧ ∀ v ∈ item.pages, ¬ SharedAt m v
  deriving Decidable

/-- What building the image from a file may lose if it fails. The segments that are loaded fit into
their blocks and leave the kernel's half alone, and if the stack cannot be set up after the file was
loaded, the process had no segments and keeps its credentials. -/
def ImageSafe (w : World) (m : Machine) (path : Path) (stat : Stat) : Prop :=
  let items := elfItems w.files w.exec w.interp path
  if w.spaceOk = false ∧ w.contextOk = false then m.overrun = false
  else if items.all Item.loads = false then m.overrun = false ∧ Clean m items
  else if w.stackOk = false ∨ w.stackMapOk = false then
    m.overrun = false ∧ Clean m items ∧ m.proc.segments = [] ∧
      execIds (w.files.nosuid path) stat m.proc.ids = m.proc.ids
  else True
  deriving Decidable

/-- A call that fails loses nothing: the arguments of scripts fit into their buffer, and the file
that the call comes to is safe to load. -/
def ExecSafe (w : World) (m : Machine) (path : Path) (args : Option Path) : Prop :=
  m.proc.isUser = true →
    let r := execPrelude w.files m.proc.ids (execFuel m.shebangDepth) m.shebangDepth path args
    match r.outcome with
    | .fails _ => r.overrun = false
    | .load path _ stat => ImageSafe w { m with overrun := r.overrun } path stat

end BoredOS.Sys.Exec
