import Mathlib

/-!
# The Physical Page Allocator of `mem/pmm.c`

A `page_t *` is the frame number of its page, so that `pages_array` is a function and
`page_to_pfn` the identity. A pool of a CPU is the stack of its pages, the last one stored first.
Page contents, the direct map, the locks and the address bounds of the zones, which nothing reads,
are left out. A function returns `none` when it dereferences NULL. Page counts stay far below
`2 ^ 64` and are natural numbers; reference counts are 32-bit words.
-/

namespace BoredOS.Mem.Pmm

open Function

/-- `PMM_MAX_ORDER`. -/
def maxOrder : ℕ := 18

/-- `PMM_PAGE_SIZE`. -/
def pageSize : ℕ := 4096

/-- `sizeof(page_t)`. -/
def sizeofPage : ℕ := 56

def pcpBatchSize : ℕ := 16

def pcpMaxPages : ℕ := 32

def pmmMaxCpus : ℕ := 64

def pageFlagFree : BitVec 32 := 1#32 <<< 0

def pageFlagReserved : BitVec 32 := 1#32 <<< 1

def pageFlagZero : BitVec 32 := 1#32 <<< 5

def pageFlagDma : BitVec 32 := 1#32 <<< 9

def pageFlagDma32 : BitVec 32 := 1#32 <<< 10

/-- `pmm_zone_id_t`. -/
inductive ZoneId where
  | dma
  | dma32
  | normal
  deriving DecidableEq, Repr

/-- `pmm_region_type_t`. -/
inductive RegionType where
  | usable
  | reserved
  | acpiReclaim
  | acpiNvs
  | badRam
  | bootloaderReclaim
  | kernel
  | framebuffer
  deriving DecidableEq, Repr

/-- `pmm_mem_region_t`. -/
structure Region where
  base : ℕ
  length : ℕ
  type : RegionType

/-- `page_t` as the allocator uses it. -/
structure Page where
  flags : BitVec 32
  refcount : ℕ
  order : ℕ
  zone : ZoneId
  freePrev : Option ℕ
  freeNext : Option ℕ

/-- The stores into the head of a free block. -/
def Page.asFree (v : Page) (order : ℕ) : Page :=
  { v with order := order, flags := pageFlagFree, refcount := 0 }

/-- `pmm_zone_t`; the lists are indexed by their order. -/
structure Zone where
  freeLists : ℕ → Option ℕ
  freePages : ℕ

/-- The static variables of `pmm.c`. -/
structure PmmState where
  pages : ℕ → Page
  totalPageCount : ℕ
  usablePageCount : ℕ
  zones : ZoneId → Zone
  pcpPools : ℕ → List ℕ
  smpReady : Bool

namespace PmmState

def setPage (s : PmmState) (p : ℕ) (v : Page) : PmmState :=
  { s with pages := update s.pages p v }

def setZone (s : PmmState) (z : ZoneId) (v : Zone) : PmmState :=
  { s with zones := update s.zones z v }

def setHead (s : PmmState) (z : ZoneId) (order : ℕ) (head : Option ℕ) : PmmState :=
  s.setZone z { s.zones z with freeLists := update (s.zones z).freeLists order head }

def setFreePages (s : PmmState) (z : ZoneId) (n : ℕ) : PmmState :=
  s.setZone z { s.zones z with freePages := n }

def setPool (s : PmmState) (cpu : ℕ) (pool : List ℕ) : PmmState :=
  { s with pcpPools := update s.pcpPools cpu pool }

end PmmState

/-- `pfn_to_page` once `pages_array` is set. -/
def pfnToPage (s : PmmState) (pfn : ℕ) : Option ℕ :=
  if pfn ≥ s.totalPageCount then none else some pfn

def paddrToZoneId (paddr : ℕ) : ZoneId :=
  if paddr < 0x01000000 then .dma else if paddr < 0x100000000 then .dma32 else .normal

/-! ## Free lists -/

/-- `list_add_head` on a free list. -/
def listAddHead (s : PmmState) (z : ZoneId) (order page : ℕ) : PmmState :=
  let head := (s.zones z).freeLists order
  let s := s.setPage page { s.pages page with freePrev := none, freeNext := head }
  let s :=
    match head with
    | none => s
    | some q => s.setPage q { s.pages q with freePrev := some page }
  s.setHead z order (some page)

/-- The first half of `list_remove`: what stands before the page is linked to what follows it. -/
def unlinkNext (s : PmmState) (z : ZoneId) (order page : ℕ) : PmmState :=
  match (s.pages page).freePrev with
  | some q => s.setPage q { s.pages q with freeNext := (s.pages page).freeNext }
  | none =>
    if (s.zones z).freeLists order = some page then
      s.setHead z order (s.pages page).freeNext
    else s

/-- The second half of `list_remove`. -/
def unlinkPrev (s : PmmState) (page : ℕ) : PmmState :=
  match (s.pages page).freeNext with
  | some q => s.setPage q { s.pages q with freePrev := (s.pages page).freePrev }
  | none => s

/-- `list_remove` on a free list. -/
def listRemove (s : PmmState) (z : ZoneId) (order page : ℕ) : PmmState :=
  let s := unlinkNext s z order page
  let s := unlinkPrev s page
  s.setPage page { s.pages page with freePrev := none, freeNext := none }

/-! ## Initialisation -/

def addFreeBlock (s : PmmState) (basePfn order : ℕ) : PmmState :=
  match pfnToPage s basePfn with
  | none => s
  | some page =>
    let z := (s.pages page).zone
    let s := s.setPage page ((s.pages page).asFree order)
    let s := listAddHead s z order page
    let s := s.setFreePages z ((s.zones z).freePages + 2 ^ order)
    { s with usablePageCount := s.usablePageCount + 2 ^ order }

/-- The inner loop of `ingest_usable_range`: the largest block that starts at `currPfn`, ends before
`endPfn` and lies in one zone. -/
def growOrder (currPfn endPfn : ℕ) : ℕ → ℕ → ℕ
  | 0, order => order
  | fuel + 1, order =>
    if order < maxOrder - 1 then
      let blockSize := 2 ^ (order + 1)
      if currPfn % blockSize ≠ 0 ∨ currPfn + blockSize > endPfn then order
      else if paddrToZoneId (currPfn * pageSize) ≠
          paddrToZoneId ((currPfn + blockSize - 1) * pageSize) then order
      else growOrder currPfn endPfn fuel (order + 1)
    else order

/-- The outer loop of `ingest_usable_range`. -/
def ingestLoop (endPfn : ℕ) : ℕ → ℕ → PmmState → PmmState
  | 0, _, s => s
  | fuel + 1, currPfn, s =>
    if currPfn < endPfn then
      let order := growOrder currPfn endPfn maxOrder 0
      ingestLoop endPfn fuel (currPfn + 2 ^ order) (addFreeBlock s currPfn order)
    else s

/-- `ingest_usable_range`; every iteration takes at least one page. -/
def ingestUsableRange (s : PmmState) (startPaddr endPaddr : ℕ) : PmmState :=
  ingestLoop (endPaddr / pageSize) (endPaddr / pageSize - startPaddr / pageSize)
    (startPaddr / pageSize) s

/-- `(x + 0xFFF) & ~0xFFF` on 64-bit words. -/
def alignUp (x : ℕ) : ℕ := (x + 0xFFF) % 2 ^ 64 / pageSize * pageSize

/-- The end of a region as a 64-bit word. -/
def Region.top (r : Region) : ℕ := (r.base + r.length) % 2 ^ 64

/-- `max_paddr` after the first loop of `pmm_init`. -/
def maxPaddr (regions : List Region) : ℕ :=
  regions.foldl (fun m r => if r.type = .usable ∧ r.top > m then r.top else m) 0

/-- `max_usable_len` and `array_paddr` after the second loop of `pmm_init`. -/
def arrayPlace (regions : List Region) : ℕ × ℕ :=
  regions.foldl (fun acc r =>
    if r.type = .usable ∧ r.length > acc.1 then (r.length, alignUp r.base) else acc) (0, 0)

def arraySize (totalPageCount : ℕ) : ℕ :=
  (totalPageCount * sizeofPage + pageSize - 1) / pageSize * pageSize

/-- The body of the last loop of `pmm_init`. -/
def ingestRegion (arrayPfnStart arrayPfnEnd : ℕ) (s : PmmState) (r : Region) : PmmState :=
  if r.type ≠ .usable then s
  else
    let alignedBase := alignUp r.base
    let alignedEnd := r.top / pageSize * pageSize
    if alignedEnd ≤ alignedBase then s
    else
      let regPfnStart := alignedBase / pageSize
      let regPfnEnd := alignedEnd / pageSize
      if regPfnEnd ≤ arrayPfnStart ∨ regPfnStart ≥ arrayPfnEnd then
        ingestUsableRange s alignedBase alignedEnd
      else
        let s :=
          if regPfnStart < arrayPfnStart then
            ingestUsableRange s (regPfnStart * pageSize) (arrayPfnStart * pageSize)
          else s
        if regPfnEnd > arrayPfnEnd then
          ingestUsableRange s (arrayPfnEnd * pageSize) (regPfnEnd * pageSize)
        else s

/-- The state before the regions are ingested: every page is reserved. -/
def reservedPmm (totalPageCount : ℕ) : PmmState where
  pages pfn := ⟨pageFlagReserved, 1, 0, paddrToZoneId (pfn * pageSize), none, none⟩
  totalPageCount := totalPageCount
  usablePageCount := 0
  zones _ := ⟨fun _ => none, 0⟩
  pcpPools _ := []
  smpReady := false

/-- `pmm_init`, `none` when it returns early. -/
def pmmInit (regions : List Region) : Option PmmState :=
  let totalPageCount := maxPaddr regions / pageSize
  let size := arraySize totalPageCount
  let (maxUsableLen, arrayPaddr) := arrayPlace regions
  if regions.length = 0 ∨ arrayPaddr = 0 ∨ maxUsableLen < size then none
  else
    some (regions.foldl
      (ingestRegion (arrayPaddr / pageSize) ((arrayPaddr + size) % 2 ^ 64 / pageSize))
      (reservedPmm totalPageCount))

def pmmInitPercpu (s : PmmState) : PmmState :=
  { s with
    pcpPools := fun cpu => if cpu < pmmMaxCpus then [] else s.pcpPools cpu, smpReady := true }

/-! ## Allocation -/

/-- The search of `alloc_from_zone_locked` for a list that is not empty. -/
def findBlock (lists : ℕ → Option ℕ) : ℕ → ℕ → Option (ℕ × ℕ)
  | 0, _ => none
  | fuel + 1, currOrder =>
    if currOrder < maxOrder then
      match lists currOrder with
      | none => findBlock lists fuel (currOrder + 1)
      | some page => some (currOrder, page)
    else none

/-- The splitting loop of `alloc_from_zone_locked`: the upper halves go back to the lists. -/
def splitBlock (z : ZoneId) (page order : ℕ) : ℕ → PmmState → Option PmmState
  | 0, s => some s
  | currOrder + 1, s =>
    if currOrder + 1 > order then do
      let buddy ← pfnToPage s (page + 2 ^ currOrder)
      let s := s.setPage buddy ({ s.pages buddy with zone := (s.pages page).zone }.asFree currOrder)
      splitBlock z page order currOrder (listAddHead s z currOrder buddy)
    else some s

/-- The stores of an allocation into the descriptor of the page it returns. -/
def markAllocated (s : PmmState) (page order : ℕ) (flags : BitVec 32) : PmmState :=
  s.setPage page
    { s.pages page with order := order, flags := flags &&& ~~~pageFlagZero, refcount := 1 }

def allocFromZoneLocked (s : PmmState) (z : ZoneId) (order : ℕ) (flags : BitVec 32) :
    Option (PmmState × Option ℕ) :=
  match findBlock (s.zones z).freeLists (maxOrder + 1) order with
  | none => some (s, none)
  | some (currOrder, page) => do
    let s ← splitBlock z page order currOrder (listRemove s z currOrder page)
    let s := markAllocated s page order flags
    some (s.setFreePages z ((s.zones z).freePages - 2 ^ order), some page)

/-- The loop that fetches a batch for a pool. -/
def fetchBatch (z : ZoneId) : ℕ → PmmState → Option (PmmState × List ℕ)
  | 0, s => some (s, [])
  | n + 1, s => do
    let (s, p) ← allocFromZoneLocked s z 0 0#32
    match p with
    | none => some (s, [])
    | some page =>
      let (s, rest) ← fetchBatch z n s
      some (s, page :: rest)

/-- The last loop of `pmm_alloc_order`, over the zones from `start_zone` down to `min_zone`. -/
def allocFromZones (order : ℕ) (flags : BitVec 32) :
    List ZoneId → PmmState → Option (PmmState × Option ℕ)
  | [], s => some (s, none)
  | z :: rest, s => do
    let (s, p) ← allocFromZoneLocked s z order flags
    match p with
    | none => allocFromZones order flags rest s
    | some page => some (s, some page)

/-- The zones that an allocation tries. -/
def zonesFor (flags : BitVec 32) : List ZoneId :=
  if flags &&& pageFlagDma ≠ 0 then [.dma]
  else if flags &&& pageFlagDma32 ≠ 0 then [.dma32, .dma]
  else [.normal, .dma32, .dma]

/-- `cpu_id` after the test against `PMM_MAX_CPUS`. -/
def cpuIndex (cpuId : ℕ) : ℕ := if cpuId ≥ pmmMaxCpus then 0 else cpuId

/-- The zone that a pool is filled from. -/
def refillZone (s : PmmState) : ZoneId :=
  if (s.zones .normal).freePages = 0 then .dma32 else .normal

/-- The allocation of one page through the pool of a CPU. -/
def allocFromPool (s : PmmState) (cpu : ℕ) (flags : BitVec 32) : Option (PmmState × Option ℕ) :=
  match s.pcpPools cpu with
  | page :: rest => some (markAllocated (s.setPool cpu rest) page 0 flags, some page)
  | [] => do
    let (s, batch) ← fetchBatch (refillZone s) pcpBatchSize s
    match batch with
    | [] => allocFromZones 0 flags (zonesFor flags) s
    | page :: rest =>
      let s := s.setPool cpu (rest.reverse ++ s.pcpPools cpu)
      some (markAllocated s page 0 flags, some page)

def pmmAllocOrder (s : PmmState) (cpuId order : ℕ) (flags : BitVec 32) :
    Option (PmmState × Option ℕ) :=
  if order ≥ maxOrder then some (s, none)
  else if order = 0 ∧ (flags = 0#32 ∨ flags = pageFlagZero) ∧ s.smpReady = true then
    allocFromPool s (cpuIndex cpuId) flags
  else allocFromZones order flags (zonesFor flags) s

/-- `free_pages` of `pmm_get_stats`. -/
def statsFreePages (s : PmmState) : ℕ :=
  (s.zones .dma).freePages + (s.zones .dma32).freePages + (s.zones .normal).freePages

/-! ## Release -/

/-- The descriptor of the buddy is that of a free block of the order. -/
def mergeable (s : PmmState) (pfn buddyPfn order : ℕ) : Bool :=
  decide (buddyPfn < s.totalPageCount) && decide ((s.pages buddyPfn).flags &&& pageFlagFree ≠ 0) &&
    decide ((s.pages buddyPfn).order = order) &&
    decide ((s.pages buddyPfn).zone = (s.pages pfn).zone) &&
    decide ((s.pages buddyPfn).refcount = 0)

/-- The merging loop of `free_to_zone_locked`, with the head and the order of the block so far. -/
def mergeBuddies (z : ZoneId) : ℕ → PmmState → ℕ → ℕ → PmmState × ℕ × ℕ
  | 0, s, pfn, currOrder => (s, pfn, currOrder)
  | fuel + 1, s, pfn, currOrder =>
    if currOrder < maxOrder - 1 ∧ mergeable s pfn (pfn ^^^ 2 ^ currOrder) currOrder = true then
      mergeBuddies z fuel (listRemove s z currOrder (pfn ^^^ 2 ^ currOrder))
        (min pfn (pfn ^^^ 2 ^ currOrder)) (currOrder + 1)
    else (s, pfn, currOrder)

def freeToZoneLocked (s : PmmState) (z : ZoneId) (page order : ℕ) : PmmState :=
  let (s, page, currOrder) := mergeBuddies z maxOrder s page order
  let s := s.setPage page ((s.pages page).asFree currOrder)
  let s := listAddHead s z currOrder page
  s.setFreePages z ((s.zones z).freePages + 2 ^ order)

/-- The release of one page into the pool of a CPU; a full pool gives a batch back to its zone. -/
def freeToPool (s : PmmState) (cpu page : ℕ) : PmmState :=
  let pool := s.pcpPools cpu
  if pool.length < pcpMaxPages then s.setPool cpu (page :: pool)
  else
    (pool.take pcpBatchSize).foldl (fun s p => freeToZoneLocked s .normal p 0)
      (s.setPool cpu (page :: pool.drop pcpBatchSize))

/-- The last reference to a block is gone. -/
def releaseBlock (s : PmmState) (cpu page order : ℕ) : PmmState :=
  if order = 0 ∧ (s.pages page).zone = .normal ∧ s.smpReady = true then freeToPool s cpu page
  else freeToZoneLocked s (s.pages page).zone page order

def pmmFreeOrder (s : PmmState) (cpuId page order : ℕ) : PmmState :=
  if order ≥ maxOrder then s
  else
    let prev := (s.pages page).refcount
    let s := s.setPage page { s.pages page with refcount := (prev + (2 ^ 32 - 1)) % 2 ^ 32 }
    if prev > 1 then s
    else if prev = 0 then s.setPage page { s.pages page with refcount := 0 }
    else releaseBlock s (cpuIndex cpuId) page order

def pmmPageRef (s : PmmState) (page : ℕ) : PmmState :=
  s.setPage page { s.pages page with refcount := ((s.pages page).refcount + 1) % 2 ^ 32 }

def pmmPageUnref (s : PmmState) (cpuId page : ℕ) : PmmState :=
  pmmFreeOrder s cpuId page (s.pages page).order

end BoredOS.Mem.Pmm
