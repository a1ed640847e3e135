import BoredOS.Mem.Radix.Model

/-!
# The Page Cache of `mem/pagecache.c`

Pages, address spaces and the global dirty count as one state. The radix tree of an address space
holds pages; a page carries its mapping, its index and the flags that this code sets. Reference
counts, locks, the LRU lists and the VMAs of a mapping are left out: nothing here reads them. A
page that is in no mapping has a NULL `mapping`; pages on the allocator's free lists, which reuse
these fields, are never passed to the cache.

The callbacks `read_page` and `write_page` are arguments, a NULL callback being `none`. A result of
`none` is a fault in the radix tree or, in the two loops, a lack of fuel.
-/

namespace BoredOS.Mem.PageCache

open Radix Function

/-- The page frames of a 52-bit physical address space. -/
def frameCount : ℕ := 2 ^ 40

/-- A `page_t *`. -/
abbrev PageId := Fin frameCount

/-- An `address_space_t *`. -/
abbrev MapId := ℕ

/-- The fields of `page_t` that the cache uses; the booleans are the bits `PAGE_FLAG_CACHED`,
`PAGE_FLAG_DIRTY` and `PAGE_FLAG_ERROR`. -/
structure Page where
  mapping : Option MapId
  index : ℕ
  cached : Bool
  dirty : Bool
  error : Bool

/-- The fields of `address_space_t` that the cache uses. -/
structure AddressSpace where
  pageTree : RadixRoot PageId
  nrPages : ℕ
  wbErr : ℕ

/-- All pages, all address spaces and `g_dirty_pages_count`. -/
structure Cache where
  page : PageId → Page
  space : MapId → AddressSpace
  dirtyPagesCount : ℕ

namespace Cache

def setPage (s : Cache) (p : PageId) (v : Page) : Cache :=
  { s with page := update s.page p v }

def setSpace (s : Cache) (m : MapId) (v : AddressSpace) : Cache :=
  { s with space := update s.space m v }

def setTree (s : Cache) (m : MapId) (tree : RadixRoot PageId) : Cache :=
  s.setSpace m { s.space m with pageTree := tree }

end Cache

/-- `pagecache_init` and, for every mapping, `address_space_init`. -/
def pagecacheInit : Cache where
  page _ := ⟨none, 0, false, false, false⟩
  space _ := ⟨radixTreeInit, 0, 0⟩
  dirtyPagesCount := 0

def errseqSet (cur err : ℕ) : ℕ :=
  let newVal := (cur + 0x8000) % 2 ^ 32
  (newVal - newVal % 2) ||| (err % 0x1000 * 2)

/-! ## The dirty flag -/

def pagecacheMarkDirty (s : Cache) (p : PageId) : Option Cache :=
  match (s.page p).mapping with
  | none => some s
  | some m =>
    if (s.page p).dirty then some s
    else do
      let tree ← radixTreeTagSet (s.space m).pageTree (s.page p).index .dirty
      some ({ s with dirtyPagesCount := (s.dirtyPagesCount + 1) % 2 ^ 64 }.setPage p
        { s.page p with dirty := true } |>.setTree m tree)

def pagecacheClearDirty (s : Cache) (p : PageId) : Option Cache :=
  match (s.page p).mapping with
  | none => some s
  | some m =>
    if (s.page p).dirty then do
      let tree ← radixTreeTagClear (s.space m).pageTree (s.page p).index .dirty
      some ({ s with dirtyPagesCount := (s.dirtyPagesCount + (2 ^ 64 - 1)) % 2 ^ 64 }.setPage p
        { s.page p with dirty := false } |>.setTree m tree)
    else some s

/-! ## Adding and removing pages -/

def pagecacheAddPage (s : Cache) (m : MapId) (p : PageId) (index : ℕ) : Option (Cache × ℤ) := do
  let (tree, ret) ← radixTreeInsert (s.space m).pageTree index (some p)
  if ret = 0 then
    some (s.setPage p { s.page p with mapping := some m, index := index, cached := true }
      |>.setSpace m { s.space m with pageTree := tree, nrPages := (s.space m).nrPages + 1 }, 0)
  else some (s.setTree m tree, ret)

/-- The second half of `pagecache_remove_page`: the page leaves the tree. -/
def deletePage (s : Cache) (m : MapId) (p : PageId) : Option Cache := do
  let (tree, _) ← radixTreeDelete (s.space m).pageTree (s.page p).index
  some (s.setPage p { s.page p with mapping := none, cached := false }
    |>.setSpace m { s.space m with pageTree := tree, nrPages := (s.space m).nrPages - 1 })

def pagecacheRemovePage (s : Cache) (m : MapId) (p : PageId) : Option Cache :=
  if (s.page p).dirty then (pagecacheClearDirty s p).bind fun s => deletePage s m p
  else deletePage s m p

/-- The end of `pagecache_get_page` for a page just added: `read_page` fills it, and a page that
cannot be read is taken out again. -/
def readNewPage (s : Cache) (m : MapId) (p : PageId) : Option ℤ → Option (Cache × Option PageId)
  | none => some (s, some p)
  | some readErr =>
    if readErr ≠ 0 then (pagecacheRemovePage s m p).map fun s => (s, none)
    else some (s, some p)

/-- `pagecache_get_page`. `newPage` is the page that `pmm_alloc_page` returns when it is called,
with its flags cleared; `readErr` is the result of `read_page`. -/
def pagecacheGetPage (s : Cache) (m : MapId) (index : ℕ) (newPage : PageId) (readErr : Option ℤ) :
    Option (Cache × Option PageId) := do
  match ← radixTreeLookup (s.space m).pageTree index with
  | some p => some (s, some p)
  | none =>
    let s := s.setPage newPage
      { s.page newPage with cached := false, dirty := false, error := false }
    let (s, ret) ← pagecacheAddPage s m newPage index
    if ret ≠ 0 then
      let again ← radixTreeLookup (s.space m).pageTree index
      some (s, again)
    else readNewPage s m newPage readErr

/-! ## Writing back -/

/-- A state of `pagecache_sync_mapping`: the cache, the pages passed to `write_page` so far and
`synced_count`. -/
structure SyncState where
  cache : Cache
  written : List PageId
  synced : ℕ

/-- What follows a failed `write_page`. -/
def writeFailed (s : Cache) (m : MapId) (p : PageId) : Option Cache := do
  let s ← pagecacheMarkDirty s p
  let s := s.setSpace m { s.space m with wbErr := errseqSet (s.space m).wbErr 5 }
  some (s.setPage p { s.page p with error := true })

/-- The body of the inner loop: one page of a batch. `writePage n p` is the result of the call after
`n` earlier ones. -/
def syncPage (m : MapId) (writePage : ℕ → PageId → ℤ) (st : SyncState) (p : PageId) :
    Option SyncState :=
  if (st.cache.page p).dirty then do
    let s ← pagecacheClearDirty st.cache p
    if writePage st.written.length p ≠ 0 then
      let s ← writeFailed s m p
      some ⟨s, st.written ++ [p], st.synced⟩
    else some ⟨s, st.written ++ [p], st.synced + 1⟩
  else some st

/-- The inner loop. -/
def syncBatch (m : MapId) (writePage : ℕ → PageId → ℤ) : SyncState → List PageId → Option SyncState
  | st, [] => some st
  | st, p :: rest => (syncPage m writePage st p).bind fun st => syncBatch m writePage st rest

/-- The outer loop, from `next_index` on. -/
def syncLoop (m : MapId) (writePage : ℕ → PageId → ℤ) : ℕ → ℕ → SyncState → Option SyncState
  | 0, _, _ => none
  | fuel + 1, nextIndex, st => do
    let dirtyPages ← radixTreeGangLookupTag (st.cache.space m).pageTree nextIndex 16 .dirty
    match dirtyPages.getLast? with
    | none => some st
    | some lastPage =>
      let nextIndex := ((st.cache.page lastPage).index + 1) % 2 ^ 64
      let st ← syncBatch m writePage st dirtyPages
      syncLoop m writePage fuel nextIndex st

/-- More iterations than there are indices in a tree. -/
def loopFuel : ℕ := 2 ^ 42 + 1

def pagecacheSyncMapping (s : Cache) (m : MapId) (writePage : Option (ℕ → PageId → ℤ)) :
    Option SyncState :=
  match writePage with
  | none => some ⟨s, [], 0⟩
  | some writePage => syncLoop m writePage loopFuel 0 ⟨s, [], 0⟩

/-! ## Truncation -/

/-- The inner loop of `pagecache_truncate_range`. -/
def truncateBatch (m : MapId) : Cache → List PageId → Option Cache
  | s, [] => some s
  | s, p :: rest => (pagecacheRemovePage s m p).bind fun s => truncateBatch m s rest

/-- The outer loop of `pagecache_truncate_range`, from `next_idx` on. -/
def truncateLoop (m : MapId) : ℕ → ℕ → Cache → Option Cache
  | 0, _, _ => none
  | fuel + 1, nextIdx, s => do
    let pages ← radixTreeGangLookup (s.space m).pageTree nextIdx 16
    match pages.getLast? with
    | none => some s
    | some lastPage =>
      let nextIdx := ((s.page lastPage).index + 1) % 2 ^ 64
      let s ← truncateBatch m s pages
      truncateLoop m fuel nextIdx s

/-- The page that holds the byte at which the mapping is cut, when it is not the first byte of the
page, has its tail cleared and becomes dirty. -/
def truncatePartial (s : Cache) (m : MapId) (startByte : ℕ) : Option Cache := do
  if startByte % 4096 ≠ 0 then
    match ← radixTreeLookup (s.space m).pageTree (startByte / 4096) with
    | some p => pagecacheMarkDirty s p
    | none => some s
  else some s

def pagecacheTruncateRange (s : Cache) (m : MapId) (startByte : ℕ) : Option Cache :=
  (truncatePartial s m startByte).bind
    (truncateLoop m loopFuel ((startByte + 4095) % 2 ^ 64 / 4096))

/-! ## Calls -/

/-- A call with its arguments and what its callbacks and the allocator return. -/
inductive CacheOp where
  | getPage (m : MapId) (index : ℕ) (newPage : PageId) (readErr : Option ℤ)
  | addPage (m : MapId) (p : PageId) (index : ℕ)
  | markDirty (p : PageId)
  | clearDirty (p : PageId)
  | removePage (m : MapId) (p : PageId)
  | truncateRange (m : MapId) (startByte : ℕ)
  | syncMapping (m : MapId) (writePage : Option (ℕ → PageId → ℤ))

def applyOp (s : Cache) : CacheOp → Option Cache
  | .getPage m index newPage readErr =>
    (pagecacheGetPage s m index newPage readErr).map fun r => r.1
  | .addPage m p index => (pagecacheAddPage s m p index).map fun r => r.1
  | .markDirty p => pagecacheMarkDirty s p
  | .clearDirty p => pagecacheClearDirty s p
  | .removePage m p => pagecacheRemovePage s m p
  | .truncateRange m startByte => pagecacheTruncateRange s m startByte
  | .syncMapping m writePage => (pagecacheSyncMapping s m writePage).map SyncState.cache

end BoredOS.Mem.PageCache
