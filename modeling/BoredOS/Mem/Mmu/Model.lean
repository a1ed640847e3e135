import BoredOS.Mem.Pmm.Model

/-!
# The Page Tables of `mem/mmu.c`

A page table is addressed by the number of the frame that holds it, and a context by the frame of
its PML4; `p2table` and `p2v` are then the identity. Entries are 64-bit words. Table frames come
from the page allocator and go back to it, so the state of `mem/pmm.c` is part of the state here.
Virtual addresses are 64-bit words kept as natural numbers. The TLB and the locks are left out:
every call runs as one step, and translations are read from the tables.

A function that allocates a table returns `none` when the allocator dereferences NULL.
-/

namespace BoredOS.Mem.Mmu

open Pmm Function List Prod

abbrev Pte := BitVec 64

def ptPresent : Pte := 1#64 <<< 0

def ptRw : Pte := 1#64 <<< 1

def ptUser : Pte := 1#64 <<< 2

def ptPwt : Pte := 1#64 <<< 3

def ptPcd : Pte := 1#64 <<< 4

def ptAccessed : Pte := 1#64 <<< 5

def ptDirty : Pte := 1#64 <<< 6

def ptHuge : Pte := 1#64 <<< 7

def ptGlobal : Pte := 1#64 <<< 8

def ptCow : Pte := 1#64 <<< 9

def ptPat4k : Pte := 1#64 <<< 7

def ptPat2m : Pte := 1#64 <<< 12

def ptNx : Pte := 1#64 <<< 63

def ptAddrMask : Pte := 0x000FFFFFFFFFF000#64

def pt2mAddrMask : Pte := 0x000FFFFFFFE00000#64

def pt1gAddrMask : Pte := 0x000FFFFFC0000000#64

def mmuProtRead : BitVec 32 := 1#32 <<< 0

def mmuProtWrite : BitVec 32 := 1#32 <<< 1

def mmuProtExec : BitVec 32 := 1#32 <<< 2

def mmuProtUser : BitVec 32 := 1#32 <<< 3

def mmuFlagNocache : BitVec 32 := 1#32 <<< 4

def mmuFlagWc : BitVec 32 := 1#32 <<< 5

def mmuFlagGlobal : BitVec 32 := 1#32 <<< 6

def mmuFlagHuge2m : BitVec 32 := 1#32 <<< 7

def mmuFlagCow : BitVec 32 := 1#32 <<< 8

def pageFlagKernel : BitVec 32 := 1#32 <<< 2

def pageFlagDirty : BitVec 32 := 1#32 <<< 7

def einval : Int := 22

def enomem : Int := 12

def eexist : Int := 17

/-- A test of bits as in `if (e & mask)`. -/
def Has {w : ℕ} (e mask : BitVec w) : Prop := e &&& mask ≠ 0
  deriving Decidable

/-- `entry & PT_ADDR_MASK`. -/
def physOf (e : Pte) : ℕ := (e &&& ptAddrMask).toNat

def frameOf (e : Pte) : ℕ := physOf e / pageSize

def pml4Idx (v : ℕ) : ℕ := v / 2 ^ 39 % 512

def pdptIdx (v : ℕ) : ℕ := v / 2 ^ 30 % 512

def pdIdx (v : ℕ) : ℕ := v / 2 ^ 21 % 512

def ptIdx (v : ℕ) : ℕ := v / 2 ^ 12 % 512

structure Mm where
  tables : ℕ → ℕ → Pte
  pmm : PmmState

namespace Mm

def setEntry (m : Mm) (table idx : ℕ) (e : Pte) : Mm :=
  { m with tables := update m.tables table (update (m.tables table) idx e) }

def withPmm (m : Mm) (s : PmmState) : Mm := { m with pmm := s }

end Mm

def pmmPaddrToPage (s : PmmState) (paddr : ℕ) : Option ℕ := pfnToPage s (paddr / pageSize)

def mmuFlagsToPte (flags : BitVec 32) : Pte :=
  let pte := ptPresent
  let pte := if Has flags mmuProtWrite ∧ ¬ Has flags mmuFlagCow then pte ||| ptRw else pte
  let pte := if Has flags mmuProtUser then pte ||| ptUser else pte
  let pte := if ¬ Has flags mmuProtExec then pte ||| ptNx else pte
  let pte := if Has flags mmuFlagGlobal then pte ||| ptGlobal else pte
  let pte := if Has flags mmuFlagCow then pte ||| ptCow else pte
  if Has flags mmuFlagWc then
    if Has flags mmuFlagHuge2m then pte ||| ptPat2m else pte ||| ptPat4k
  else if Has flags mmuFlagNocache then pte ||| (ptPcd ||| ptPwt)
  else pte

/-! ## Table frames -/

def allocTableFrame (cpu : ℕ) (m : Mm) : Option (Mm × Option ℕ) := do
  let (s, p) ← pmmAllocOrder m.pmm cpu 0 (pageFlagKernel ||| pageFlagZero)
  match p with
  | none => some (m.withPmm s, none)
  | some f => some (⟨update m.tables f fun _ => 0, s⟩, some f)

def isValidTablePhys (s : PmmState) (phys : ℕ) : Bool :=
  if phys = 0 ∨ phys % pageSize ≠ 0 then false
  else
    match pmmPaddrToPage s phys with
    | none => false
    | some p => decide (¬ Has (s.pages p).flags pageFlagFree)

def freeTableFrame (cpu : ℕ) (s : PmmState) (phys : ℕ) : PmmState :=
  if isValidTablePhys s phys = true then
    match pmmPaddrToPage s phys with
    | none => s
    | some p =>
      if Has (s.pages p).flags (pageFlagFree ||| pageFlagReserved) then s
      else pmmFreeOrder s cpu p 0
  else s

def isTableEmpty (m : Mm) (table : ℕ) : Bool :=
  (range 512).all fun i => decide (m.tables table i = 0)

/-- `page->flags |= flag`. -/
def orPageFlags (s : PmmState) (p : ℕ) (flag : BitVec 32) : PmmState :=
  s.setPage p { s.pages p with flags := (s.pages p).flags ||| flag }

/-- The dirty bit of an entry that is replaced goes to the page it mapped. -/
def keepDirty (s : PmmState) (old : Pte) (phys : ℕ) : PmmState :=
  match pmmPaddrToPage s phys with
  | none => s
  | some p => if Has old ptDirty then orPageFlags s p pageFlagDirty else s

/-! ## Mapping -/

/-- The entry that links a table. -/
def tableEntry (f : ℕ) : Pte := BitVec.ofNat 64 (f * pageSize) ||| ptPresent ||| ptRw ||| ptUser

/-- The table behind an entry, allocated when the entry is not present. The result has the frame
and the mark `new_*_phys`; `none` is a failed allocation. -/
def mapLevel (cpu : ℕ) (m : Mm) (table idx : ℕ) : Option (Mm × Option (ℕ × Bool)) :=
  if ¬ Has (m.tables table idx) ptPresent then do
    let (m, f) ← allocTableFrame cpu m
    match f with
    | none => some (m, none)
    | some f => some (m.setEntry table idx (tableEntry f), some (f, true))
  else some (m, some (frameOf (m.tables table idx), false))

/-- An error path takes back a table that this call has allocated. -/
def undoLevel (cpu : ℕ) (m : Mm) (table idx f : ℕ) (isNew : Bool) : Mm :=
  if isNew = true then
    let m := m.setEntry table idx 0
    m.withPmm (freeTableFrame cpu m.pmm (f * pageSize))
  else m

/-- The entry for a page of 4 KiB. -/
def pageEntry (phys : ℕ) (flags : BitVec 32) : Pte :=
  (BitVec.ofNat 64 phys &&& ptAddrMask) ||| mmuFlagsToPte flags

/-- The entry for a page of 2 MiB. -/
def hugeEntry (phys : ℕ) (flags : BitVec 32) : Pte :=
  (BitVec.ofNat 64 phys &&& pt2mAddrMask) ||| mmuFlagsToPte flags ||| ptHuge

def mmuMapPageUnlocked (cpu : ℕ) (m : Mm) (pml4 virt phys : ℕ) (flags : BitVec 32) :
    Option (Mm × Int) := do
  let l4 := pml4Idx virt
  let l3 := pdptIdx virt
  let l2 := pdIdx virt
  let l1 := ptIdx virt
  let (m, r) ← mapLevel cpu m pml4 l4
  match r with
  | none => some (m, -enomem)
  | some (pdpt, newPdpt) =>
    if Has (m.tables pdpt l3) ptHuge then some (undoLevel cpu m pml4 l4 pdpt newPdpt, -eexist)
    else do
      let (m, r) ← mapLevel cpu m pdpt l3
      match r with
      | none => some (undoLevel cpu m pml4 l4 pdpt newPdpt, -enomem)
      | some (pd, newPd) =>
        if Has flags mmuFlagHuge2m then
          if virt % 2 ^ 21 ≠ 0 ∨ phys % 2 ^ 21 ≠ 0 then some (m, -einval)
          else some (m.setEntry pd l2 (hugeEntry phys flags), 0)
        else if Has (m.tables pd l2) ptHuge then
          some (undoLevel cpu (undoLevel cpu m pdpt l3 pd newPd) pml4 l4 pdpt newPdpt, -eexist)
        else do
          let (m, r) ← mapLevel cpu m pd l2
          match r with
          | none =>
            some (undoLevel cpu (undoLevel cpu m pdpt l3 pd newPd) pml4 l4 pdpt newPdpt, -enomem)
          | some (pt, _) => some (m.setEntry pt l1 (pageEntry phys flags), 0)

def mmuMapPage (cpu : ℕ) (m : Mm) (pml4 virt phys : ℕ) (flags : BitVec 32) : Option (Mm × Int) :=
  if virt % pageSize ≠ 0 ∨ phys % pageSize ≠ 0 then some (m, -einval)
  else mmuMapPageUnlocked cpu m pml4 virt phys flags

/-! ## Unmapping -/

/-- An emptied table is unlinked and freed; `parent` holds the entry that points to it. -/
def pruneTable (cpu : ℕ) (m : Mm) (parent idx : ℕ) : Mm :=
  let phys := physOf (m.tables parent idx)
  let m := m.setEntry parent idx 0
  m.withPmm (freeTableFrame cpu m.pmm phys)

/-- The tables above an emptied page directory. -/
def pruneUpper (cpu : ℕ) (m : Mm) (pml4 l4 pdpt l3 pd : ℕ) : Mm :=
  if isTableEmpty m pd = true then
    let m := pruneTable cpu m pdpt l3
    if isTableEmpty m pdpt = true then pruneTable cpu m pml4 l4 else m
  else m

/-- The stores of `mmu_unmap_page_unlocked` for a page of 2 MiB. -/
def unmapHuge (cpu : ℕ) (m : Mm) (pml4 l4 pdpt l3 pd l2 : ℕ) : Mm :=
  let old := m.tables pd l2
  let m := m.setEntry pd l2 0
  let m :=
    if Has old ptPresent then m.withPmm (keepDirty m.pmm old (old &&& pt2mAddrMask).toNat) else m
  if l4 < 256 then pruneUpper cpu m pml4 l4 pdpt l3 pd else m

/-- The stores of `mmu_unmap_page_unlocked` for a page of 4 KiB. -/
def unmapLeaf (cpu : ℕ) (m : Mm) (pml4 l4 pdpt l3 pd l2 pt l1 : ℕ) : Mm :=
  let old := m.tables pt l1
  let m := m.setEntry pt l1 0
  let m := if Has old ptPresent then m.withPmm (keepDirty m.pmm old (physOf old)) else m
  if l4 < 256 ∧ isTableEmpty m pt = true then
    pruneUpper cpu (pruneTable cpu m pd l2) pml4 l4 pdpt l3 pd
  else m

def mmuUnmapPageUnlocked (cpu : ℕ) (m : Mm) (pml4 virt : ℕ) : Mm × Int :=
  let l4 := pml4Idx virt
  let l3 := pdptIdx virt
  let l2 := pdIdx virt
  let l1 := ptIdx virt
  let e4 := m.tables pml4 l4
  if ¬ Has e4 ptPresent then (m, 0)
  else if isValidTablePhys m.pmm (physOf e4) = false then (m, 0)
  else
    let pdpt := frameOf e4
    let e3 := m.tables pdpt l3
    if ¬ Has e3 ptPresent then (m, 0)
    else if Has e3 ptHuge then (m, -einval)
    else if isValidTablePhys m.pmm (physOf e3) = false then (m, 0)
    else
      let pd := frameOf e3
      let e2 := m.tables pd l2
      if ¬ Has e2 ptPresent then (m, 0)
      else if isValidTablePhys m.pmm (physOf e2) = false then (m, 0)
      else if Has e2 ptHuge then (unmapHuge cpu m pml4 l4 pdpt l3 pd l2, 0)
      else (unmapLeaf cpu m pml4 l4 pdpt l3 pd l2 (frameOf e2) l1, 0)

def mmuUnmapPage (cpu : ℕ) (m : Mm) (pml4 virt : ℕ) : Mm × Int :=
  if virt % pageSize ≠ 0 then (m, -einval) else mmuUnmapPageUnlocked cpu m pml4 virt

/-- `virt + i * PAGE_SIZE` as a 64-bit word. -/
def pageAt (virt i : ℕ) : ℕ := (virt + i * pageSize) % 2 ^ 64

def mmuUnmapPages (cpu : ℕ) (m : Mm) (pml4 virt count : ℕ) : Mm × Int :=
  if virt % pageSize ≠ 0 then (m, -einval)
  else
    ((range count).foldl (fun m i => (mmuUnmapPageUnlocked cpu m pml4 (pageAt virt i)).1) m, 0)

/-! ## Protection and translation -/

def mmuProtectPage (m : Mm) (pml4 virt : ℕ) (flags : BitVec 32) : Mm × Int :=
  if virt % pageSize ≠ 0 then (m, -einval)
  else
    let e4 := m.tables pml4 (pml4Idx virt)
    if ¬ Has e4 ptPresent then (m, -einval)
    else
      let pdpt := frameOf e4
      let e3 := m.tables pdpt (pdptIdx virt)
      if ¬ Has e3 ptPresent ∨ Has e3 ptHuge then (m, -einval)
      else
        let pd := frameOf e3
        let e2 := m.tables pd (pdIdx virt)
        if ¬ Has e2 ptPresent then (m, -einval)
        else if Has e2 ptHuge then
          (m.setEntry pd (pdIdx virt) ((e2 &&& pt2mAddrMask) ||| mmuFlagsToPte flags ||| ptHuge), 0)
        else
          let pt := frameOf e2
          let e1 := m.tables pt (ptIdx virt)
          if ¬ Has e1 ptPresent then (m, -einval)
          else
            let m := m.setEntry pt (ptIdx virt) ((e1 &&& ptAddrMask) ||| mmuFlagsToPte flags)
            (m.withPmm (keepDirty m.pmm e1 (physOf e1)), 0)

/-- `mmu_virt_to_phys` on a user context; 0 when there is no translation. -/
def mmuVirtToPhys (m : Mm) (pml4 virt : ℕ) : ℕ :=
  let e4 := m.tables pml4 (pml4Idx virt)
  if ¬ Has e4 ptPresent ∨ isValidTablePhys m.pmm (physOf e4) = false then 0
  else
    let e3 := m.tables (frameOf e4) (pdptIdx virt)
    if ¬ Has e3 ptPresent then 0
    else if Has e3 ptHuge then (e3 &&& pt1gAddrMask).toNat + virt % 2 ^ 30
    else if isValidTablePhys m.pmm (physOf e3) = false then 0
    else
      let e2 := m.tables (frameOf e3) (pdIdx virt)
      if ¬ Has e2 ptPresent then 0
      else if Has e2 ptHuge then (e2 &&& pt2mAddrMask).toNat + virt % 2 ^ 21
      else if isValidTablePhys m.pmm (physOf e2) = false then 0
      else
        let e1 := m.tables (frameOf e2) (ptIdx virt)
        if ¬ Has e1 ptPresent then 0 else physOf e1 + virt % pageSize

/-- `mmu_get_pte_ptr`: the table and the index of the entry. -/
def mmuGetPtePtr (m : Mm) (pml4 virt : ℕ) : Option (ℕ × ℕ) :=
  if virt % pageSize ≠ 0 then none
  else
    let e4 := m.tables pml4 (pml4Idx virt)
    if ¬ Has e4 ptPresent ∨ isValidTablePhys m.pmm (physOf e4) = false then none
    else
      let e3 := m.tables (frameOf e4) (pdptIdx virt)
      if ¬ Has e3 ptPresent ∨ Has e3 ptHuge then none
      else if isValidTablePhys m.pmm (physOf e3) = false then none
      else
        let e2 := m.tables (frameOf e3) (pdIdx virt)
        if ¬ Has e2 ptPresent ∨ Has e2 ptHuge then none
        else if isValidTablePhys m.pmm (physOf e2) = false then none
        else some (frameOf e2, ptIdx virt)

/-! ## Contexts -/

/-- `mmu_create_context`; `mem` tells whether `kmalloc` finds memory for the record, and `kernel` is
the PML4 of the kernel. -/
def mmuCreateContext (cpu : ℕ) (mem : Bool) (m : Mm) (kernel : ℕ) : Option (Mm × Option ℕ) :=
  if mem = false then some (m, none)
  else do
    let (m, f) ← allocTableFrame cpu m
    match f with
    | none => some (m, none)
    | some f =>
      let upper := fun i => if 256 ≤ i ∧ i < 512 then m.tables kernel i else m.tables f i
      some (⟨update m.tables f upper, m.pmm⟩, some f)

def destroyPt (cpu : ℕ) (m : Mm) (phys : ℕ) : Mm :=
  if isValidTablePhys m.pmm phys = false then m
  else m.withPmm (freeTableFrame cpu m.pmm phys)

def destroyPd (cpu : ℕ) (m : Mm) (phys : ℕ) : Mm :=
  if isValidTablePhys m.pmm phys = false then m
  else
    let m := (range 512).foldl (fun m i =>
      let pde := m.tables (phys / pageSize) i
      if Has pde ptPresent ∧ ¬ Has pde ptHuge then destroyPt cpu m (physOf pde) else m) m
    m.withPmm (freeTableFrame cpu m.pmm phys)

def destroyPdpt (cpu : ℕ) (m : Mm) (phys : ℕ) : Mm :=
  if isValidTablePhys m.pmm phys = false then m
  else
    let m := (range 512).foldl (fun m i =>
      let pdpte := m.tables (phys / pageSize) i
      if Has pdpte ptPresent ∧ ¬ Has pdpte ptHuge then destroyPd cpu m (physOf pdpte) else m) m
    m.withPmm (freeTableFrame cpu m.pmm phys)

def mmuDestroyPml4 (cpu : ℕ) (m : Mm) (kernel pml4 : ℕ) : Mm :=
  if pml4 = 0 ∨ pml4 = kernel then m
  else if isValidTablePhys m.pmm (pml4 * pageSize) = false then m
  else
    let m := (range 256).foldl (fun m i =>
      let pml4e := m.tables pml4 i
      if Has pml4e ptPresent then destroyPdpt cpu m (physOf pml4e) else m) m
    m.withPmm (freeTableFrame cpu m.pmm (pml4 * pageSize))

/-! ## Copy-on-write clones -/

/-- The address that four indices stand for. -/
def addressOf (l4 l3 l2 l1 : ℕ) : ℕ := l4 * 2 ^ 39 + l3 * 2 ^ 30 + l2 * 2 ^ 21 + l1 * 2 ^ 12

/-- The map flags of `mmu_clone_user_cow` for a shared page; a page without a descriptor is device
memory. -/
def sharedCloneFlags (pte : Pte) (device : Bool) : BitVec 32 :=
  (mmuProtRead ||| mmuProtUser) ||| (if Has pte ptRw then mmuProtWrite else 0) |||
    (if ¬ Has pte ptNx then mmuProtExec else 0) ||| (if device = true then mmuFlagWc else 0)

/-- The entry of the parent after a private page has been cloned. -/
def cowEntry (pte : Pte) : Pte := if Has pte ptRw then (pte &&& ~~~ptRw) ||| ptCow else pte

/-- The map flags of `mmu_clone_user_cow` for a private page, from the new entry of the parent. -/
def privateCloneFlags (pte : Pte) : BitVec 32 :=
  (mmuProtRead ||| mmuProtUser) ||| (if Has pte ptCow then mmuFlagCow else 0) |||
    (if ¬ Has pte ptNx then mmuProtExec else 0)

/-- The innermost body of `mmu_clone_user_cow`; what the mapping returns is dropped. `shared` tells
whether an address lies in an area with `VMA_FLAG_SHARED` of the current process. -/
def cloneEntry (cpu : ℕ) (shared : ℕ → Bool) (child : ℕ) (m : Mm) (pPt l1 virt : ℕ) : Option Mm :=
  let pte := m.tables pPt l1
  if ¬ Has pte ptPresent ∨ ¬ Has pte ptUser then some m
  else
    match pmmPaddrToPage m.pmm (physOf pte) with
    | none =>
      (mmuMapPageUnlocked cpu m child virt (physOf pte) (sharedCloneFlags pte true)).map fst
    | some page =>
      if shared virt = true then
        (mmuMapPageUnlocked cpu m child virt (physOf pte) (sharedCloneFlags pte false)).map fst
      else
        let m := m.setEntry pPt l1 (cowEntry pte)
        let m := m.withPmm (pmmPageRef m.pmm page)
        (mmuMapPageUnlocked cpu m child virt (physOf pte)
          (privateCloneFlags (cowEntry pte))).map fst

/-- A loop of `mmu_clone_user_cow` over the entries of a table: what is not present, a huge page or
no table is skipped. -/
def cloneLevel (body : Mm → ℕ → ℕ → Option Mm) (skipHuge : Bool) (m : Mm) (table n : ℕ) :
    Option Mm :=
  (range n).foldlM (fun m i =>
    let e := m.tables table i
    if ¬ Has e ptPresent then some m
    else if skipHuge = true ∧ Has e ptHuge then some m
    else if isValidTablePhys m.pmm (physOf e) = false then some m
    else body m i (frameOf e)) m

def mmuCloneUserCow (cpu : ℕ) (shared : ℕ → Bool) (m : Mm) (parent child : ℕ) : Option Mm :=
  cloneLevel (fun m l4 pdpt =>
    cloneLevel (fun m l3 pd =>
      cloneLevel (fun m l2 pt =>
        (range 512).foldlM
          (fun m l1 => cloneEntry cpu shared child m pt l1 (addressOf l4 l3 l2 l1)) m)
        true m pd 512)
      true m pdpt 512)
    false m parent 256

end BoredOS.Mem.Mmu
