import BoredOS.Mem.Mmu.Model

/-!
# The Address Spaces of `mem/vmm.c`

The areas of a space are kept as the list that `vma_head` leads to, ordered by address. `vma_find`,
`vma_insert` and `vma_remove` are written here as what they do to the list. How they do it with the
search tree is in `BoredOS.Mem.Vma`, and `BoredOS.Mem.Vmm.Tree` says in which runs the tree gives
the answers of the list. `vma_create` may fail for want of memory, which an argument decides. The
records of spaces and contexts come from the slab allocator and are left out. The semaphores and the
TLB are left out too, every call runs as one step.
-/

namespace BoredOS.Mem.Vmm

open Pmm Mmu List

def efault : Int := 14

def eacces : Int := 13

def pageFlagSlab : BitVec 32 := 1#32 <<< 11

def pageFlagKmallocLarge : BitVec 32 := 1#32 <<< 12

/-- The `VMA_TYPE_*` constants. -/
inductive VmaType where
  | anon
  | file
  | device
  | shm
  deriving DecidableEq, Repr

def vmaFlagRead : BitVec 32 := 0x01#32

def vmaFlagWrite : BitVec 32 := 0x02#32

def vmaFlagExec : BitVec 32 := 0x04#32

def vmaFlagShared : BitVec 32 := 0x08#32

def vmaFlagCow : BitVec 32 := 0x10#32

def vmaFlagStack : BitVec 32 := 0x20#32

def vmaFlagHeap : BitVec 32 := 0x40#32

/-- `vm_area_t`. -/
structure Area where
  start : ℕ
  end_ : ℕ
  type : VmaType
  flags : BitVec 32
  backingFile : Option ℕ
  fileOffset : ℕ
  deriving DecidableEq

/-- `vmm_space_t`. -/
structure Space where
  pml4 : ℕ
  vmas : List Area
  refcount : ℕ
  mmapBase : ℕ
  mmapEnd : ℕ
  brkStart : ℕ
  brkCurrent : ℕ

/-- The page tables, the frame of the zero page and the contents of the page frames. -/
structure Vm where
  mm : Mm
  zeroPage : Option ℕ
  data : ℕ → ℕ → BitVec 8

namespace Vm

/-- A change of the tables and the page descriptors. -/
def withMm (vm : Vm) (m : Mm) : Vm := { vm with mm := m }

def setFrame (vm : Vm) (f : ℕ) (bytes : ℕ → BitVec 8) : Vm :=
  { vm with data := Function.update vm.data f bytes }

end Vm

/-- `(x + PAGE_MASK) & ~PAGE_MASK` on 64-bit words. -/
def pageAlignUp (x : ℕ) : ℕ := (x + (pageSize - 1)) % 2 ^ 64 / pageSize * pageSize

/-- `x & ~PAGE_MASK`. -/
def pageAlignDown (x : ℕ) : ℕ := x / pageSize * pageSize

/-! ## Areas -/

/-- `vma_create`; `mem` tells whether `kmalloc` finds memory. -/
def vmaCreate (mem : Bool) (start end_ : ℕ) (type : VmaType) (flags : BitVec 32) : Option Area :=
  if pageAlignDown start ≥ pageAlignUp end_ ∨ mem = false then none
  else some ⟨pageAlignDown start, pageAlignUp end_, type, flags, none, 0⟩

def vmaFind (vmas : List Area) (addr : ℕ) : Option Area :=
  vmas.find? fun a => decide (addr ≥ a.start ∧ addr < a.end_)

/-- The place of an area in the list. -/
def insertSorted (a : Area) : List Area → List Area
  | [] => [a]
  | b :: rest => if a.end_ ≤ b.start then a :: b :: rest else b :: insertSorted a rest

/-- `vma_insert`; it refuses an area that overlaps another. -/
def vmaInsert (vmas : List Area) (a : Area) : List Area × Bool :=
  if vmas.any (fun b => !(decide (a.end_ ≤ b.start) || decide (a.start ≥ b.end_))) = true then
    (vmas, false)
  else (insertSorted a vmas, true)

def vmaRemove (vmas : List Area) (a : Area) : List Area := vmas.erase a

/-! ## Unmapping -/

/-- A frame that is mapped in private memory loses a reference, unless it belongs to another
allocator. -/
def unrefMapped (cpu : ℕ) (zero : Option ℕ) (m : Mm) (pml4 v : ℕ) : Mm :=
  let p := mmuVirtToPhys m pml4 v
  if p = 0 then m
  else
    match pmmPaddrToPage m.pmm p with
    | none => m
    | some pg =>
      if some pg ≠ zero ∧ ¬ Has (m.pmm.pages pg).flags
          (pageFlagFree ||| pageFlagSlab ||| pageFlagKmallocLarge) then
        m.withPmm (pmmPageUnref m.pmm cpu pg)
      else m

/-- The pages of a range lose a reference. -/
def unrefRange (cpu : ℕ) (zero : Option ℕ) (m : Mm) (pml4 start pages : ℕ) : Mm :=
  (range pages).foldl (fun m i => unrefMapped cpu zero m pml4 (pageAt start i)) m

/-- `curr->type == VMA_TYPE_ANON && !(curr->flags & VMA_FLAG_SHARED)`. -/
def Area.isPrivateAnon (a : Area) : Bool :=
  decide (a.type = .anon ∧ ¬ Has a.flags vmaFlagShared)

/-- What `vmm_unmap` does to an area that meets the range. -/
def cutArea (mem : Bool) (vmas : List Area) (curr : Area) (addr end_ : ℕ) : List Area :=
  let moved := (curr.fileOffset + (end_ - curr.start)) % 2 ^ 64
  if curr.start ≥ addr ∧ curr.end_ ≤ end_ then vmaRemove vmas curr
  else if curr.start < addr ∧ curr.end_ > end_ then
    match vmaCreate mem end_ curr.end_ curr.type curr.flags with
    | none => vmas
    | some right =>
      let right :=
        { right with
          backingFile := curr.backingFile
          fileOffset := if curr.type = .file then moved else right.fileOffset }
      let vmas := (vmaInsert (vmaRemove vmas curr) { curr with end_ := addr }).1
      (vmaInsert vmas right).1
  else if curr.start < addr ∧ curr.end_ ≤ end_ then
    (vmaInsert (vmaRemove vmas curr) { curr with end_ := addr }).1
  else if curr.start ≥ addr ∧ curr.end_ > end_ then
    (vmaInsert (vmaRemove vmas curr)
      { curr with
        start := end_
        fileOffset := if curr.type = .file then moved else curr.fileOffset }).1
  else vmas

/-- One turn of the loop of `vmm_unmap`. -/
def unmapArea (cpu : ℕ) (mem : Bool) (zero : Option ℕ) (pml4 addr end_ : ℕ)
    (acc : Mm × List Area) (curr : Area) : Mm × List Area :=
  let (m, vmas) := acc
  if curr.start ≥ end_ ∨ curr.end_ ≤ addr then (m, vmas)
  else
    let unmapStart := if curr.start > addr then curr.start else addr
    let unmapEnd := if curr.end_ < end_ then curr.end_ else end_
    let m :=
      if curr.isPrivateAnon = true then
        unrefRange cpu zero m pml4 unmapStart ((unmapEnd + 2 ^ 64 - unmapStart) % 2 ^ 64 / pageSize)
      else m
    (m, cutArea mem vmas curr addr end_)

/-- `vmm_unmap`; the loop runs over the areas that were there at its start. -/
def vmmUnmap (cpu : ℕ) (mem : Bool) (vm : Vm) (space : Space) (addr length : ℕ) :
    Vm × Space × Int :=
  if length = 0 ∨ addr % pageSize ≠ 0 then (vm, space, -einval)
  else
    let alignedLen := pageAlignUp length
    let end_ := (addr + alignedLen) % 2 ^ 64
    let (m, vmas) := space.vmas.foldl
      (unmapArea cpu mem vm.zeroPage space.pml4 addr end_) (vm.mm, space.vmas)
    let m := (mmuUnmapPages cpu m space.pml4 addr (alignedLen / pageSize)).1
    (vm.withMm m, { space with vmas := vmas }, 0)

/-! ## Protection -/

/-- The `VMA_FLAG_*` bits of `MMU_PROT_*` bits. -/
def vmaFlagsOf (prot : BitVec 32) : BitVec 32 :=
  (if Has prot mmuProtRead then vmaFlagRead else 0) |||
    (if Has prot mmuProtWrite then vmaFlagWrite else 0) |||
    (if Has prot mmuProtExec then vmaFlagExec else 0)

def vmmProtect (vm : Vm) (space : Space) (addr length : ℕ) (prot : BitVec 32) : Vm × Space × Int :=
  if length = 0 ∨ addr % pageSize ≠ 0 then (vm, space, -einval)
  else
    let alignedLen := pageAlignUp length
    let end_ := (addr + alignedLen) % 2 ^ 64
    let vmas := space.vmas.map fun a =>
      if a.start < end_ ∧ a.end_ > addr then
        { a with flags :=
            (a.flags &&& ~~~(vmaFlagRead ||| vmaFlagWrite ||| vmaFlagExec)) ||| vmaFlagsOf prot }
      else a
    let m := (range (alignedLen / pageSize)).foldl
      (fun m i => (mmuProtectPage m space.pml4 (pageAt addr i) (prot ||| mmuProtUser)).1) vm.mm
    (vm.withMm m, { space with vmas := vmas }, 0)

/-! ## Mapping -/

def userMmapBase : ℕ := 0x0000700000000000

def userMmapEnd : ℕ := 0x00007FFFF0000000

/-- `(x + (alignment - 1)) & ~(alignment - 1)` for a power of two, on 64-bit words. -/
def alignUpTo (alignment x : ℕ) : ℕ := (x + (alignment - 1)) % 2 ^ 64 / alignment * alignment

/-- The loop of `vma_find_unmapped_area`. -/
def gapSearch (alignedMin alignedLength maxAddr alignment : ℕ) : List Area → ℕ
  | [] => 0
  | curr :: rest =>
    let candidate := alignUpTo alignment curr.end_
    let gapEnd := (rest.head?.map Area.start).getD maxAddr
    let candidate := if candidate < alignedMin then alignedMin else candidate
    let gapEnd := if gapEnd > maxAddr then maxAddr else gapEnd
    if gapEnd ≥ candidate ∧ gapEnd - candidate ≥ alignedLength then candidate
    else gapSearch alignedMin alignedLength maxAddr alignment rest

/-- `vma_find_unmapped_area`; `0` stands for no area. -/
def vmaFindUnmappedArea (vmas : List Area) (minAddr maxAddr length alignment : ℕ) : ℕ :=
  if length = 0 ∨ minAddr ≥ maxAddr ∨ length > maxAddr - minAddr then 0
  else
    let alignment := if alignment < pageSize then pageSize else alignment
    let alignedLength := pageAlignUp length
    let alignedMin := alignUpTo alignment minAddr
    let first := (alignedMin + alignedLength) % 2 ^ 64
    match vmas with
    | [] => if first ≤ maxAddr then alignedMin else 0
    | curr :: _ =>
      if curr.start ≥ first then alignedMin
      else gapSearch alignedMin alignedLength maxAddr alignment vmas

/-- The start that `vmm_map` chooses, if there is one. -/
def mapStart (space : Space) (hint alignedLen : ℕ) : Option ℕ :=
  if hint = 0 then
    let start := vmaFindUnmappedArea space.vmas space.mmapBase space.mmapEnd alignedLen pageSize
    if start = 0 then none else some start
  else if hint < 0x10000 ∨ (hint + alignedLen) % 2 ^ 64 > space.mmapEnd then none
  else some hint

/-- The `vma_flags` of `vmm_map`. -/
def mapVmaFlags (prot flags : BitVec 32) : BitVec 32 :=
  vmaFlagsOf prot ||| (if Has flags mmuFlagCow then vmaFlagCow else 0) |||
    (if Has flags vmaFlagShared then vmaFlagShared else 0)

/-- The `vma_type` of `vmm_map`. -/
def mapVmaType (flags : BitVec 32) (file : Option ℕ) : VmaType :=
  match file with
  | none => .anon
  | some _ => if Has flags vmaFlagShared then .shm else .file

/-- `vmm_map`; `none` is the NULL result. -/
def vmmMap (mem : Bool) (space : Space) (hint length : ℕ) (prot flags : BitVec 32)
    (file : Option ℕ) (offset : ℕ) : Space × Option ℕ :=
  if length = 0 then (space, none)
  else
    let alignedLen := pageAlignUp length
    match mapStart space hint alignedLen with
    | none => (space, none)
    | some start =>
      match vmaCreate mem start ((start + alignedLen) % 2 ^ 64) (mapVmaType flags file)
          (mapVmaFlags prot flags) with
      | none => (space, none)
      | some vma =>
        let (vmas, inserted) :=
          vmaInsert space.vmas { vma with backingFile := file, fileOffset := offset }
        if inserted = true then ({ space with vmas := vmas }, some start) else (space, none)

/-! ## The heap -/

/-- The first break. -/
def heapBase : ℕ := 0x20000000

/-- A frame that is mapped at a page of the heap loses a reference. -/
def unrefHeapPage (cpu : ℕ) (zero : Option ℕ) (m : Mm) (pml4 v : ℕ) : Mm :=
  let p := mmuVirtToPhys m pml4 v
  if p = 0 then m
  else
    match pmmPaddrToPage m.pmm p with
    | none => m
    | some pg => if some pg ≠ zero then m.withPmm (pmmPageUnref m.pmm cpu pg) else m

/-- The pages above the new break lose a reference and are unmapped. -/
def releaseHeap (cpu : ℕ) (zero : Option ℕ) (m : Mm) (pml4 newAligned oldAligned : ℕ) : Mm :=
  if newAligned < oldAligned then
    let pages := (oldAligned - newAligned) / pageSize
    let m := (range pages).foldl
      (fun m i => unrefHeapPage cpu zero m pml4 (pageAt newAligned i)) m
    (mmuUnmapPages cpu m pml4 newAligned pages).1
  else m

/-- `c->flags & VMA_FLAG_HEAP`. -/
def Area.isHeap (a : Area) : Bool := decide (Has a.flags vmaFlagHeap)

/-- What a call leaves, with the areas that it has handed to `vma_destroy`. For `vmm_brk` the break
in the space is also what it returns. -/
structure SpaceResult where
  vm : Vm
  space : Space
  destroyed : List Area

/-- `vmm_brk` on a space that has no heap area. -/
def brkCreate (mem : Bool) (vm : Vm) (space : Space) (newBrk : ℕ) : SpaceResult :=
  let newAligned := pageAlignUp newBrk
  let vmas :=
    if newAligned > space.brkStart then
      match vmaCreate mem space.brkStart newAligned .anon
          (vmaFlagRead ||| vmaFlagWrite ||| vmaFlagHeap) with
      | none => space.vmas
      | some heap => (vmaInsert space.vmas heap).1
    else space.vmas
  ⟨vm, { space with vmas := vmas, brkCurrent := newBrk }, []⟩

/-- `vmm_brk` above the current break. -/
def brkGrow (vm : Vm) (space : Space) (heap : Area) (newBrk : ℕ) : SpaceResult :=
  let vmas := (vmaInsert (vmaRemove space.vmas heap) { heap with end_ := pageAlignUp newBrk }).1
  ⟨vm, { space with vmas := vmas, brkCurrent := newBrk }, []⟩

/-- `vmm_brk` below the current break. -/
def brkShrink (cpu : ℕ) (vm : Vm) (space : Space) (heap : Area) (newBrk : ℕ) : SpaceResult :=
  let newAligned := pageAlignUp newBrk
  let m := releaseHeap cpu vm.zeroPage vm.mm space.pml4 newAligned (pageAlignUp space.brkCurrent)
  let vmas := vmaRemove space.vmas heap
  if newAligned > heap.start then
    let vmas := (vmaInsert vmas { heap with end_ := newAligned }).1
    ⟨vm.withMm m, { space with vmas := vmas, brkCurrent := newBrk }, []⟩
  else ⟨vm.withMm m, { space with vmas := vmas, brkCurrent := newBrk }, [heap]⟩

def vmmBrk (cpu : ℕ) (mem : Bool) (vm : Vm) (space : Space) (newBrk : ℕ) : SpaceResult :=
  if newBrk = 0 ∨ newBrk = space.brkCurrent then ⟨vm, space, []⟩
  else
    let space :=
      if space.brkStart = 0 then { space with brkStart := heapBase, brkCurrent := heapBase }
      else space
    if newBrk < space.brkStart then ⟨vm, space, []⟩
    else
      match space.vmas.find? Area.isHeap with
      | none => brkCreate mem vm space newBrk
      | some heap =>
        if newBrk > space.brkCurrent then brkGrow vm space heap newBrk
        else brkShrink cpu vm space heap newBrk

/-! ## Creation, cloning and destruction -/

/-- `vmm_init`: the zero page; `bytes` is what is in the frames. -/
def vmmInit (cpu : ℕ) (m : Mm) (bytes : ℕ → ℕ → BitVec 8) : Option Vm := do
  let (s, p) ← pmmAllocOrder m.pmm cpu 0 (pageFlagKernel ||| pageFlagZero)
  let vm : Vm := ⟨m.withPmm s, p, bytes⟩
  match p with
  | none => some vm
  | some z => some (vm.setFrame z fun _ => 0)

/-- The record that `vmm_create_space` fills in. -/
def freshSpace (pml4 : ℕ) : Space := ⟨pml4, [], 1, userMmapBase, userMmapEnd, 0, 0⟩

/-- `vmm_create_space`; `mem` tells whether the records of the space and its context find memory. -/
def vmmCreateSpace (cpu : ℕ) (mem : Bool) (m : Mm) (kernel : ℕ) : Option (Mm × Option Space) := do
  let (m, r) ← mmuCreateContext cpu mem m kernel
  some (m, r.map freshSpace)

/-- The flags of an area after `vmm_clone_space` has passed it. -/
def cloneFlags (flags : BitVec 32) : BitVec 32 :=
  if Has flags vmaFlagWrite ∧ ¬ Has flags vmaFlagShared then flags ||| vmaFlagCow else flags

def parentAreas (vmas : List Area) : List Area :=
  vmas.map fun a => { a with flags := cloneFlags a.flags }

/-- The areas of the child: `mem` tells for which of them `vma_create` finds memory. -/
def childAreas (mem : Area → Bool) (vmas : List Area) : List Area :=
  vmas.foldl (fun acc a =>
    match vmaCreate (mem a) a.start a.end_ a.type (cloneFlags a.flags) with
    | none => acc
    | some clone =>
      (vmaInsert acc { clone with backingFile := a.backingFile, fileOffset := a.fileOffset }).1) []

/-- An address lies in an area with `VMA_FLAG_SHARED`. -/
def inShared (vmas : List Area) (v : ℕ) : Bool :=
  ((vmaFind vmas v).map fun a => decide (Has a.flags vmaFlagShared)).getD false

/-- `vmm_clone_space`, called by the process whose space is cloned. The results are the machine, the
parent and, unless memory ran out, the child. -/
def vmmCloneSpace (cpu : ℕ) (mem : Bool) (areaMem : Area → Bool) (m : Mm) (kernel : ℕ)
    (parent : Space) : Option (Mm × Space × Option Space) := do
  let (m, r) ← vmmCreateSpace cpu mem m kernel
  match r with
  | none => some (m, parent, none)
  | some child =>
    let parent' := { parent with vmas := parentAreas parent.vmas }
    let child :=
      { child with
        vmas := childAreas areaMem parent.vmas
        mmapBase := parent.mmapBase
        mmapEnd := parent.mmapEnd
        brkStart := parent.brkStart
        brkCurrent := parent.brkCurrent }
    let m ← mmuCloneUserCow cpu (inShared parent'.vmas) m parent.pml4 child.pml4
    some (m, parent', some child)

/-- `vmm_destroy_space`; `none` for the space says that it is gone. -/
def vmmDestroySpace (cpu : ℕ) (zero : Option ℕ) (m : Mm) (kernel : ℕ) (space : Space) :
    Mm × Option Space :=
  let refcount := (space.refcount + 2 ^ 32 - 1) % 2 ^ 32
  if refcount > 0 then (m, some { space with refcount := refcount })
  else
    let m := space.vmas.foldl (fun m a =>
      if a.isPrivateAnon = true then
        unrefRange cpu zero m space.pml4 a.start ((a.end_ - a.start) / pageSize)
      else m) m
    (mmuDestroyPml4 cpu m kernel space.pml4, none)

/-! ## Page faults -/

def maxStackSize : ℕ := 8 * 1024 * 1024

/-- The fault was raised by a present entry. -/
def faultPresent : BitVec 32 := 1#32

def faultWrite : BitVec 32 := 2#32

/-- The access was an instruction fetch. -/
def faultExec : BitVec 32 := 16#32

/-- The check of `regs->rsp` before a stack grows; there are no registers in faults that the kernel
raises for a user. -/
def farBelowStack (rsp : Option ℕ) (faultAddr : ℕ) : Bool :=
  match rsp with
  | none => false
  | some rsp =>
    decide (rsp < 0xFFFF800000000000 ∧ faultAddr < (rsp + 2 ^ 64 - 128) % 2 ^ 64 ∧
      (faultAddr + 4096) % 2 ^ 64 < rsp)

/-- The area for a fault: the one around the address, or the stack above it, grown. -/
def faultArea (space : Space) (faultAddr : ℕ) (rsp : Option ℕ) : Space × Except Int Area :=
  match vmaFind space.vmas faultAddr with
  | some vma => (space, .ok vma)
  | none =>
    match space.vmas.find? fun c => decide (c.start > faultAddr) with
    | none => (space, .error (-efault))
    | some next =>
      if ¬ Has next.flags vmaFlagStack then (space, .error (-efault))
      else if farBelowStack rsp faultAddr = true then (space, .error (-eacces))
      else if next.end_ - pageAlignDown faultAddr > maxStackSize then (space, .error (-eacces))
      else
        match space.vmas.find? fun c =>
            decide (Has c.flags vmaFlagStack ∧ c.start > faultAddr) with
        | none => (space, .error (-efault))
        | some target =>
          let grown := { target with start := pageAlignDown faultAddr }
          ({ space with vmas := (vmaInsert (vmaRemove space.vmas target) grown).1 }, .ok grown)

/-- `zero_page_paddr`. -/
def zeroPaddr (vm : Vm) : ℕ := (vm.zeroPage.map (· * pageSize)).getD 0

/-- The map flags for a new page in an area. -/
def newPageFlags (vmaFlags : BitVec 32) : BitVec 32 :=
  (mmuProtRead ||| mmuProtUser) ||| (if Has vmaFlags vmaFlagWrite then mmuProtWrite else 0) |||
    (if Has vmaFlags vmaFlagExec then mmuProtExec else 0)

/-- The branch of `vmm_handle_page_fault` for a page that is not present. What the mapping returns
is dropped. -/
def faultAbsent (cpu : ℕ) (vm : Vm) (pml4 page : ℕ) (write : Bool) (vmaFlags : BitVec 32) :
    Option (Vm × Int) :=
  if write = false ∧ zeroPaddr vm ≠ 0 then do
    let (m, _) ← mmuMapPage cpu vm.mm pml4 page (zeroPaddr vm) (mmuProtRead ||| mmuProtUser)
    some (vm.withMm m, 0)
  else do
    let (s, p) ← pmmAllocOrder vm.mm.pmm cpu 0 pageFlagZero
    let vm := vm.withMm (vm.mm.withPmm s)
    match p with
    | none => some (vm, -enomem)
    | some p =>
      let vm := vm.setFrame p fun _ => 0
      let (m, _) ← mmuMapPage cpu vm.mm pml4 page (p * pageSize) (newPageFlags vmaFlags)
      some (vm.withMm m, 0)

/-- The entry for a private copy of a page. -/
def copiedEntry (pte : Pte) (frame : ℕ) (vmaFlags : BitVec 32) : Pte :=
  let e := (BitVec.ofNat 64 (frame * pageSize) &&& ptAddrMask) |||
    (pte &&& (ptAccessed ||| ptDirty)) ||| ptPresent ||| ptUser ||| ptRw
  if Has vmaFlags vmaFlagExec then e &&& ~~~ptNx else e ||| ptNx

/-- A write fault on a page that is shared after a clone: it is copied. -/
def faultCopy (cpu : ℕ) (vm : Vm) (pt idx : ℕ) (oldPage : ℕ) (vmaFlags : BitVec 32) :
    Option (Vm × Int) := do
  let oldPte := vm.mm.tables pt idx
  let (s, p) ← pmmAllocOrder vm.mm.pmm cpu 0 0
  let vm := vm.withMm (vm.mm.withPmm s)
  match p with
  | none => some (vm, -enomem)
  | some p =>
    let vm := vm.setFrame p (vm.data (frameOf oldPte))
    if Has oldPte ptPresent ∧ Has oldPte ptRw then
      some (vm.withMm (vm.mm.withPmm (pmmFreeOrder vm.mm.pmm cpu p 0)), 0)
    else
      let m := vm.mm.setEntry pt idx (copiedEntry oldPte p vmaFlags)
      let m := if some oldPage ≠ vm.zeroPage then m.withPmm (pmmPageUnref m.pmm cpu oldPage)
        else m
      some (vm.withMm m, 0)

/-- The branch of `vmm_handle_page_fault` for a write to a present page. -/
def faultWriteProtected (cpu : ℕ) (vm : Vm) (pml4 page : ℕ) (vmaFlags : BitVec 32) :
    Option (Vm × Int) :=
  match mmuGetPtePtr vm.mm pml4 page with
  | none => some (vm, -efault)
  | some (pt, idx) =>
    let oldPte := vm.mm.tables pt idx
    match pmmPaddrToPage vm.mm.pmm (physOf oldPte) with
    | none => some (vm.withMm (vm.mm.setEntry pt idx (oldPte ||| ptRw)), 0)
    | some oldPage =>
      if Has vmaFlags vmaFlagShared ∨
          (some oldPage ≠ vm.zeroPage ∧ (vm.mm.pmm.pages oldPage).refcount = 1) then
        some (vm.withMm (vm.mm.setEntry pt idx (oldPte ||| ptRw)), 0)
      else faultCopy cpu vm pt idx oldPage vmaFlags

/-- `vmm_handle_page_fault`; `rsp` is `regs->rsp`. -/
def vmmHandlePageFault (cpu : ℕ) (vm : Vm) (space : Space) (faultAddr : ℕ) (errorCode : BitVec 32)
    (rsp : Option ℕ) : Option (Vm × Space × Int) :=
  if faultAddr ≥ 0x8000000000000000 then some (vm, space, -efault)
  else
    let page := pageAlignDown faultAddr
    let (space, area) := faultArea space faultAddr rsp
    match area with
    | .error e => some (vm, space, e)
    | .ok vma =>
      if Has errorCode faultWrite ∧ ¬ Has vma.flags vmaFlagWrite ∧ ¬ Has vma.flags vmaFlagCow then
        some (vm, space, -eacces)
      else if Has errorCode faultExec ∧ ¬ Has vma.flags vmaFlagExec then
        some (vm, space, -eacces)
      else if ¬ Has errorCode faultPresent then
        (faultAbsent cpu vm space.pml4 page (decide (Has errorCode faultWrite)) vma.flags).map
          fun (vm, ret) => (vm, space, ret)
      else if Has errorCode faultWrite then
        (faultWriteProtected cpu vm space.pml4 page vma.flags).map fun (vm, ret) => (vm, space, ret)
      else some (vm, space, -eacces)

end BoredOS.Mem.Vmm
