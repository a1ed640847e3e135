import BoredOS.Lib.ByteMap
import BoredOS.Lib.Transition
import BoredOS.Mem.PageCache.Ops

/-!
# The Contents of tmpfs Files

`tmpfs_vfs_read`, `tmpfs_vfs_write` and `tmpfs_vfs_seek` of `fs/tmpfs.c`. A file is an address space
of the page cache and a size; its bytes are in the pages. The handles given to the calls are open
on files, and buffers are not NULL. A page that is handed out by the cache is referenced until it
has been copied, and the tree keeps a reference of its own, so that no page of a file is freed.

A file is meant to be a sparse byte array, `SparseFile`.
-/

namespace BoredOS.Fs.Tmpfs.File

open Lib.ByteMap Lib.Transition Mem.Radix Mem.PageCache Function

/-! ## The calls -/

/-- `tmpfs_file_handle_t` of an open file. -/
structure Handle where
  inode : MapId
  position : ℕ
  deriving DecidableEq

/-- The page cache, the bytes of all pages, the sizes of the files and the handles. -/
structure Files where
  cache : Cache
  bytes : PageId → ℕ → UInt8
  size : MapId → ℕ
  handle : ℕ → Handle

def Files.tree (s : Files) (m : MapId) : RadixRoot PageId := (s.cache.space m).pageTree

/-- `pagecache_get_page` with the bytes of the page: `pmm_alloc_page(PAGE_FLAG_ZERO)` returns a page
of zeroes and `tmpfs_aops_read_page` leaves them. -/
def getPage (s : Files) (m : MapId) (index : ℕ) (newPage : PageId) :
    Option (Files × Option PageId) := do
  let found ← radixTreeLookup (s.tree m) index
  let bytes := if found.isSome then s.bytes else update s.bytes newPage fun _ => 0
  let (cache, page) ← pagecacheGetPage s.cache m index newPage (some 0)
  some ({ s with cache := cache, bytes := bytes }, page)

/-- `uint32_t pos` of both loops. -/
def posAt (position done : ℕ) : ℕ := (position + done) % 2 ^ 32

/-- `size_t chunk` of both loops. -/
def chunkAt (pos left : ℕ) : ℕ := min (4096 - pos % 4096) left

/-- The loop of `tmpfs_vfs_read`, after `done` of `toRead` bytes. `alloc` gives for each index the
page that the allocator would return. -/
def readLoop (m : MapId) (position toRead : ℕ) (alloc : ℕ → PageId) :
    ℕ → Files → ℕ → Option (Files × List UInt8)
  | 0, _, _ => none
  | fuel + 1, s, done =>
    if done < toRead then do
      let pos := posAt position done
      let chunk := chunkAt pos (toRead - done)
      let (s, page) ← getPage s m (pos / 4096) (alloc (pos / 4096))
      match page with
      | none => some (s, [])
      | some p =>
        let (s', rest) ← readLoop m position toRead alloc fuel s (done + chunk)
        some (s', slice (s.bytes p) (pos % 4096) chunk ++ rest)
    else some (s, [])

def Files.copyIn (s : Files) (p : PageId) (offset : ℕ) (data : List UInt8) : Files :=
  { s with bytes := update s.bytes p (put (s.bytes p) offset data) }

/-- The loop of `tmpfs_vfs_write`, after `done` bytes; it returns `bytes_written`. -/
def writeLoop (m : MapId) (position : ℕ) (data : List UInt8) (alloc : ℕ → PageId) :
    ℕ → Files → ℕ → Option (Files × ℕ)
  | 0, _, _ => none
  | fuel + 1, s, done =>
    if done < data.length then do
      let pos := posAt position done
      let chunk := chunkAt pos (data.length - done)
      let (s, page) ← getPage s m (pos / 4096) (alloc (pos / 4096))
      match page with
      | none => some (s, done)
      | some p =>
        writeLoop m position data alloc fuel
          (s.copyIn p (pos % 4096) ((data.drop done).take chunk)) (done + chunk)
    else some (s, done)

/-- A number of bytes as an `int`. -/
def toInt (n : ℤ) : ℤ := n.bmod (2 ^ 32)

def Files.setPosition (s : Files) (h position : ℕ) : Files :=
  { s with handle := update s.handle h { s.handle h with position := position } }

/-- `tmpfs_vfs_read`: the new state, the bytes in the buffer and the returned number. -/
def tmpfsVfsRead (s : Files) (h size : ℕ) (alloc : ℕ → PageId) : Option (Files × List UInt8 × ℤ) :=
  let position := (s.handle h).position
  let m := (s.handle h).inode
  if size = 0 then some (s, [], 0)
  else if s.size m ≤ position then some (s, [], 0)
  else do
    let toRead := if (position + size) % 2 ^ 64 > s.size m then s.size m - position else size
    let (s, out) ← readLoop m position toRead alloc (toRead + 1) s 0
    some (s.setPosition h (posAt position out.length), out, toInt out.length)

/-- `inode->size` grows to the position of a handle. -/
def Files.growTo (s : Files) (m : MapId) (position : ℕ) : Files :=
  if position > s.size m then { s with size := update s.size m position } else s

def tmpfsVfsWrite (s : Files) (h : ℕ) (data : List UInt8) (alloc : ℕ → PageId) :
    Option (Files × ℤ) :=
  let position := (s.handle h).position
  let m := (s.handle h).inode
  if data.length = 0 then some (s, 0)
  else do
    let (s, written) ← writeLoop m position data alloc (data.length + 1) s 0
    some ((s.setPosition h (posAt position written)).growTo m (posAt position written),
      toInt written)

/-- `new_pos` of `tmpfs_vfs_seek`; the additions of `int` values wrap. -/
def seekPos (position size : ℕ) (offset whence : ℤ) : ℤ :=
  let newPos :=
    if whence = 0 then offset
    else if whence = 1 then toInt (toInt position + offset)
    else if whence = 2 then toInt (toInt size + offset)
    else toInt position
  if newPos < 0 then 0 else newPos

def tmpfsVfsSeek (s : Files) (h : ℕ) (offset whence : ℤ) : Files × ℤ :=
  let newPos := seekPos (s.handle h).position (s.size (s.handle h).inode) offset whence
  (s.setPosition h (newPos.toNat % 2 ^ 32), newPos)

inductive FileCall where
  | seek (h : ℕ) (offset whence : ℤ)
  | read (h size : ℕ) (alloc : ℕ → PageId)
  | write (h : ℕ) (data : List UInt8) (alloc : ℕ → PageId)

open FileCall

/-- A call with the bytes that it puts into a buffer and the number that it returns. A result of
`none` is a NULL dereference. -/
def fileCall (s : Files) : FileCall → Option (Files × List UInt8 × ℤ)
  | .seek h offset whence =>
    some ((tmpfsVfsSeek s h offset whence).1, [], (tmpfsVfsSeek s h offset whence).2)
  | .read h size alloc => tmpfsVfsRead s h size alloc
  | .write h data alloc => (tmpfsVfsWrite s h data alloc).map fun r => (r.1, [], r.2)

/-! ## Runs -/

/-- The allocator returns pages that are in no mapping, a different one for each index that has no
page. A position has 32 bits, so an index is less than `2 ^ 20`. -/
structure Allocates (s : Files) (m : MapId) (alloc : ℕ → PageId) : Prop where
  unused : ∀ i < 2 ^ 20, (s.tree m).itemAt i = none → (s.cache.page (alloc i)).mapping = none
  distinct : Set.InjOn alloc (Set.Iio (2 ^ 20))

/-- What is assumed of a call: allocations succeed, and a size is a `size_t`. -/
def FileCall.Legal (s : Files) : FileCall → Prop
  | .seek _ _ _ => True
  | .read h size alloc => size < 2 ^ 64 ∧ Allocates s (s.handle h).inode alloc
  | .write h _ alloc => Allocates s (s.handle h).inode alloc

/-- Runs of calls that start with empty files. The positions of the handles are `uint32_t` values,
whatever they are. -/
def files : System Files FileCall where
  init s := s.cache = pagecacheInit ∧ (∀ m, s.size m = 0) ∧ ∀ h, (s.handle h).position < 2 ^ 32
  step s c s' := c.Legal s ∧ ∃ r, fileCall s c = some (s', r)

/-! ## Sparse files -/

/-- The bytes at all offsets and the size. -/
structure SparseFile where
  data : ℕ → UInt8
  size : ℕ

/-- Sparse files and the handles on them. -/
structure SparseFiles where
  file : MapId → SparseFile
  handle : ℕ → Handle

open SparseFiles

/-- The bytes from the position on that are in the file, as far as the size of the buffer goes. -/
def SparseFiles.read (a : SparseFiles) (h size : ℕ) : List UInt8 :=
  let f := a.file (a.handle h).inode
  let pos := (a.handle h).position
  slice f.data pos (min (pos + size) f.size - pos)

def SparseFiles.moveTo (a : SparseFiles) (h position : ℕ) : SparseFiles :=
  { a with handle := update a.handle h { a.handle h with position := position } }

/-- The bytes are stored at the position, and the file is long enough for them. -/
def SparseFiles.write (a : SparseFiles) (h : ℕ) (data : List UInt8) : SparseFiles :=
  let f := a.file (a.handle h).inode
  let pos := (a.handle h).position
  { a with
    file := update a.file (a.handle h).inode ⟨put f.data pos data, max f.size (pos + data.length)⟩ }

/-- What the calls are meant to do. -/
def SparseFiles.call (a : SparseFiles) : FileCall → SparseFiles × List UInt8 × ℤ
  | .seek h offset whence =>
    let newPos :=
      seekPos (a.handle h).position (a.file (a.handle h).inode).size offset whence
    (a.moveTo h (newPos.toNat % 2 ^ 32), [], newPos)
  | .read h size _ =>
    let out := a.read h size
    (a.moveTo h ((a.handle h).position + out.length), out, out.length)
  | .write h data _ =>
    ((a.write h data).moveTo h ((a.handle h).position + data.length), [], data.length)

/-- Empty files and handles on them. -/
def SparseFiles.start (handle : ℕ → Handle) : SparseFiles := ⟨fun _ => ⟨fun _ => 0, 0⟩, handle⟩

/-- The byte of a file at an offset; where there is no page, it is 0. -/
def Files.content (s : Files) (m : MapId) (i : ℕ) : UInt8 :=
  match (s.tree m).itemAt (i / 4096) with
  | none => 0
  | some p => s.bytes p (i % 4096)

/-- The sparse files that a state stands for. -/
def Files.abs (s : Files) : SparseFiles where
  file m := ⟨s.content m, s.size m⟩
  handle := s.handle

/-- The call returns, and its results and the new contents are the ones of sparse files. -/
def Refines (s : Files) (c : FileCall) : Prop :=
  ∃ s' r, fileCall s c = some (s', r) ∧ (s'.abs, r) = s.abs.call c

/-- The condition on a call. A read must not get to a size that is negative as an `int`, nor wrap in
`position + size`. A write must not be longer than that or end behind the largest offset; the first
page that it touches has to be page 0 if the file has no page yet; and if it writes nothing, the
position must not be behind the end of the file. -/
def FileCall.Safe (s : Files) : FileCall → Prop
  | .seek _ _ _ => True
  | .read h size _ =>
    size ≠ 0 → (s.handle h).position < s.size (s.handle h).inode →
      (s.handle h).position + size < 2 ^ 64 ∧
      min ((s.handle h).position + size) (s.size (s.handle h).inode) - (s.handle h).position
        < 2 ^ 31
  | .write h data _ =>
    (s.handle h).position + data.length < 2 ^ 32 ∧ data.length < 2 ^ 31 ∧
    (data ≠ [] → (s.tree (s.handle h).inode).rnode.isNull = true → (s.handle h).position < 4096) ∧
    (data = [] → (s.handle h).position ≤ s.size (s.handle h).inode)

instance (s : Files) (c : FileCall) : Decidable (c.Safe s) := by
  cases c <;> unfold FileCall.Safe <;> infer_instance

/-! # tmpfs Files Refine Sparse Files -/

open List Files Nat

/-! ## Contents and pages -/

/-- In the file `m` the bytes `data` have been stored at `pos`; nothing else has changed, except
that there may be more pages. -/
structure Stored (s s' : Files) (m : MapId) (pos : ℕ) (data : List UInt8) : Prop where
  inv : Inv s'.cache
  content : ∀ m', s'.content m' = if m' = m then put (s.content m) pos data else s.content m'
  size : s'.size = s.size
  handle : s'.handle = s.handle
  items : ∀ m' i p, (s.tree m').itemAt i = some p → (s'.tree m').itemAt i = some p

variable {s s' : Files} {m pos index position h : ℕ} {p : PageId} {alloc : ℕ → PageId}
  {data : List UInt8} {c : FileCall}

theorem Stored.content_same (h : Stored s s' m pos []) (m' : MapId) :
    s'.content m' = s.content m' := by
  rw [h.content]
  split
  next hm => rw [hm, put_nil]
  next => rfl

theorem Stored.of_same (m pos : ℕ) (hinv : Inv s'.cache)
    (hcontent : ∀ m', s'.content m' = s.content m') (hsize : s'.size = s.size)
    (hhandle : s'.handle = s.handle)
    (hitems : ∀ m' i p, (s.tree m').itemAt i = some p → (s'.tree m').itemAt i = some p) :
    Stored s s' m pos [] := by
  refine ⟨hinv, ?_, hsize, hhandle, hitems⟩
  intro m'
  rw [put_nil, hcontent]
  split
  next hm => rw [hm]
  next => rfl

theorem Stored.refl (m pos : ℕ) (h : Inv s.cache) : Stored s s m pos [] :=
  .of_same m pos h (fun _ => rfl) rfl rfl fun _ _ _ hi => hi

theorem Stored.trans {s₁ s₂ : Files} {pos' : ℕ} {xs ys : List UInt8}
    (h₁ : Stored s s₁ m pos xs) (h₂ : Stored s₁ s₂ m pos' ys) (hpos : pos' = pos + xs.length) :
    Stored s s₂ m pos (xs ++ ys) := by
  subst hpos
  refine ⟨h₂.inv, ?_, h₂.size.trans h₁.size, h₂.handle.trans h₁.handle, ?_⟩
  · intro m'
    rw [h₂.content, h₁.content, h₁.content, if_pos rfl, put_append]
    split <;> rfl
  · intro m' i p hi
    exact h₂.items m' i p (h₁.items m' i p hi)

theorem isNull_of_item {i : ℕ} (h : (s.tree m).itemAt i = some p) :
    (s.tree m).rnode.isNull = false := by
  by_contra hnull
  rw [itemAt_of_null (by simpa using hnull)] at h
  cases h

/-- `pagecache_get_page` on a file returns the page with the index. -/
theorem getPage_spec (hinv : Inv s.cache) (halloc : Allocates s m alloc) (hi : index < 2 ^ 20)
    (hfirst : (s.tree m).rnode.isNull = true → index = 0) (pos : ℕ) :
    ∃ s' p, getPage s m index (alloc index) = some (s', some p) ∧ Stored s s' m pos [] ∧
      (s'.tree m).itemAt index = some p ∧ Allocates s' m alloc := by
  unfold getPage
  rw [Files.tree, radixTreeLookup_spec (hinv.trees m)]
  cases hitem : (s.cache.space m).pageTree.itemAt index with
  | some p =>
    unfold pagecacheGetPage
    rw [radixTreeLookup_spec (hinv.trees m), hitem]
    exact ⟨s, p, rfl, .refl m pos hinv, hitem, halloc⟩
  | none =>
    have hunused := halloc.unused index hi hitem
    have hgrow : ¬ GrowsEmpty (s.cache.space m).pageTree index (some (alloc index)) := by
      rintro ⟨hnull, -, hpos, -⟩
      exact absurd (hfirst hnull) (by omega)
    obtain ⟨cache, hget, hitems, hmapping⟩ :=
      pagecacheGetPage_new hinv hitem (by omega) hgrow
    have hkept : ∀ m' i p, (s.tree m').itemAt i = some p →
        (cache.space m').pageTree.itemAt i = some p := by
      intro m' i p hp
      rw [hitems, if_neg]
      · exact hp
      · rintro ⟨rfl, rfl⟩
        rw [Files.tree, hitem] at hp
        cases hp
    rw [hget]
    refine ⟨_, alloc index, rfl, ?_, ?_, ?_⟩
    · refine .of_same m pos (pagecacheGetPage_spec hinv hunused hget) ?_ rfl rfl hkept
      intro m'
      funext i
      unfold content
      cases hold : (s.tree m').itemAt (i / 4096) with
      | some p =>
        -- a page that was there is not the new one
        have hne : p ≠ alloc index := by
          rintro rfl
          rw [((hinv.located m' _ _).1 hold).1] at hunused
          cases hunused
        simp [Files.tree, hkept m' _ p hold, update_of_ne hne]
      | none =>
        simp only [Files.tree] at hold ⊢
        rw [hitems, hold]
        by_cases hthere : m' = m ∧ i / 4096 = index
        · simp [hthere]
        · simp [hthere]
    · simp [Files.tree, hitems]
    · refine ⟨?_, halloc.distinct⟩
      intro i hlt hfree
      simp only [Files.tree] at hfree
      rw [hitems] at hfree
      have hne : i ≠ index := by
        rintro rfl
        simp at hfree
      rw [if_neg (by simp [hne])] at hfree
      -- the page of another index is another page
      rw [hmapping _ fun heq => hne (halloc.distinct hlt hi heq)]
      exact halloc.unused i hlt hfree

theorem getPage_growsEmpty (hinv : Inv s.cache) (newPage : PageId)
    (hnull : (s.tree m).rnode.isNull = true) (hpos : 0 < index) (hi : index < 2 ^ 20) :
    getPage s m index newPage = none := by
  unfold Files.tree at hnull
  have hgrow : GrowsEmpty (s.tree m) index (some newPage) := ⟨hnull, rfl, hpos, by omega⟩
  unfold getPage pagecacheGetPage pagecacheAddPage
  simp [Files.tree, radixTreeLookup_spec (hinv.trees m), itemAt_of_null hnull,
    radixTreeInsert_growsEmpty (hinv.trees m) hgrow]

/-- A copy into a page of a file stores the bytes in the file. -/
theorem stored_copyIn (hinv : Inv s.cache) (hitem : (s.tree m).itemAt index = some p) {offset : ℕ}
    (hfits : offset + data.length ≤ 4096) :
    Stored s (s.copyIn p offset data) m (index * 4096 + offset) data := by
  refine ⟨hinv, ?_, rfl, rfl, fun _ _ _ h => h⟩
  intro m'
  funext i
  unfold content
  rw [show (s.copyIn p offset data).tree m' = s.tree m' from rfl]
  by_cases hm : m' = m
  · subst hm
    rw [if_pos rfl]
    by_cases hindex : i / 4096 = index
    · -- the page that is changed
      subst hindex
      simp only [hitem, Files.copyIn, update_self]
      by_cases hin : offset ≤ i % 4096 ∧ i % 4096 < offset + data.length
      · exact put_inside _ _ hin.1 hin.2 (by omega) (by omega)
      · rw [put_outside _ (by omega), put_outside _ (by omega), hitem]
    · rw [put_outside _ (by omega)]
      cases hother : (s.tree m').itemAt (i / 4096) with
      | none => rfl
      | some q =>
        have hne : q ≠ p := by
          rintro rfl
          have h₁ := ((hinv.located m' _ _).1 hother).2
          have h₂ := ((hinv.located m' _ _).1 hitem).2
          exact hindex (h₁.symm.trans h₂)
        simp [Files.copyIn, update_of_ne hne]
  · rw [if_neg hm]
    cases hother : (s.tree m').itemAt (i / 4096) with
    | none => rfl
    | some q =>
      have hne : q ≠ p := by
        rintro rfl
        have h₁ := ((hinv.located m' _ _).1 hother).1
        have h₂ := ((hinv.located m _ _).1 hitem).1
        rw [h₁] at h₂
        exact hm (Option.some.inj h₂)
      simp [Files.copyIn, update_of_ne hne]

/-! ## The loops -/

theorem posAt_lt (position done : ℕ) : posAt position done < 2 ^ 32 := mod_lt _ (by decide)

theorem posAt_of_lt {done : ℕ} (h : position + done < 2 ^ 32) :
    posAt position done = position + done := mod_eq_of_lt h

theorem chunkAt_pos (pos : ℕ) {left : ℕ} (h : 0 < left) : 0 < chunkAt pos left := by
  unfold chunkAt
  omega

theorem chunkAt_le (pos left : ℕ) : chunkAt pos left ≤ left := min_le_right _ _

theorem chunkAt_fits (pos left : ℕ) : pos % 4096 + chunkAt pos left ≤ 4096 := by
  unfold chunkAt
  omega

/-- The bytes that one round copies out of a page. -/
theorem slice_page {done : ℕ}
    (hitem : (s.tree m).itemAt (posAt position done / 4096) = some p) (left : ℕ) :
    slice (s.bytes p) (posAt position done % 4096) (chunkAt (posAt position done) left) =
      slice (fun i => s.content m (i % 2 ^ 32)) (position + done)
        (chunkAt (posAt position done) left) := by
  apply slice_congr
  intro k hk
  have hfits := chunkAt_fits (posAt position done) left
  have hbyte : s.content m (posAt position done / 4096 * 4096 + (posAt position done % 4096 + k)) =
      s.bytes p (posAt position done % 4096 + k) := by
    have hin : posAt position done % 4096 + k < 4096 := by omega
    rw [content, mul_comm _ 4096, mul_add_div (by decide), mul_add_mod,
      div_eq_of_lt hin, mod_eq_of_lt hin, add_zero, hitem]
  rw [← hbyte]
  congr 1
  unfold posAt at *
  omega

/-- The loop copies page by page and may bring pages into the cache on its way. -/
theorem readLoop_spec {m position toRead : ℕ} {alloc : ℕ → PageId} (fuel : ℕ) :
    ∀ {s : Files} {done : ℕ}, Inv s.cache → Allocates s m alloc →
      (∃ i p, (s.tree m).itemAt i = some p) → toRead - done < fuel →
      ∃ s', readLoop m position toRead alloc fuel s done =
        some (s', slice (fun i => s.content m (i % 2 ^ 32)) (position + done) (toRead - done)) ∧
        Stored s s' m 0 [] := by
  induction fuel with
  | zero =>
    intro s done _ _ _ hfuel
    omega
  | succ fuel ih =>
    intro s done hinv halloc hpaged hfuel
    unfold readLoop
    by_cases hmore : done < toRead
    · obtain ⟨i, q, hq⟩ := hpaged
      have hlt := posAt_lt position done
      have hfirst : (s.tree m).rnode.isNull = true → posAt position done / 4096 = 0 := by
        simp [isNull_of_item hq]
      obtain ⟨s₁, p, hget, hst, hitem, halloc₁⟩ :=
        getPage_spec hinv halloc (by omega) hfirst 0
      have hpos := chunkAt_pos (posAt position done) (show 0 < toRead - done by omega)
      have hle := chunkAt_le (posAt position done) (toRead - done)
      obtain ⟨s₂, hrest, hst₂⟩ := @ih s₁ (done + chunkAt (posAt position done) (toRead - done))
        hst.inv halloc₁ ⟨_, _, hitem⟩ (by omega)
      refine ⟨s₂, ?_, hst.trans hst₂ rfl⟩
      rw [if_pos hmore]
      simp only [hget, hrest, Option.bind_eq_bind, Option.bind_some]
      rw [slice_page hitem, hst.content_same, ← add_assoc, ← slice_add]
      congr 4
      omega
    · rw [if_neg hmore, Nat.sub_eq_zero_of_le (by omega)]
      exact ⟨s, rfl, .refl m 0 hinv⟩

/-- The loop stores all of its data. An empty file must be written from its first page on. -/
theorem writeLoop_spec (hend : position + data.length < 2 ^ 32) (fuel : ℕ) :
    ∀ {s : Files} {done : ℕ}, Inv s.cache → Allocates s m alloc →
      ((s.tree m).rnode.isNull = true → posAt position done / 4096 = 0) →
      done ≤ data.length → data.length - done < fuel →
      ∃ s', writeLoop m position data alloc fuel s done = some (s', data.length) ∧
        Stored s s' m (position + done) (data.drop done) ∧
        (done < data.length → ∃ i p, (s'.tree m).itemAt i = some p) := by
  induction fuel with
  | zero =>
    intro s done _ _ _ _ hfuel
    omega
  | succ fuel ih =>
    intro s done hinv halloc hfirst hdone hfuel
    unfold writeLoop
    by_cases hmore : done < data.length
    · have hlt := posAt_lt position done
      obtain ⟨s₁, p, hget, hst, hitem, halloc₁⟩ := getPage_spec hinv halloc
        (by omega) hfirst (position + done)
      have hpos := chunkAt_pos (posAt position done) (show 0 < data.length - done by omega)
      have hle := chunkAt_le (posAt position done) (data.length - done)
      have hfits := chunkAt_fits (posAt position done) (data.length - done)
      have hat : posAt position done / 4096 * 4096 + posAt position done % 4096 =
          position + done := by
        unfold posAt
        omega
      generalize hchunk : chunkAt (posAt position done) (data.length - done) = chunk at *
      have hlen : ((data.drop done).take chunk).length = chunk := by
        simp only [length_take, length_drop]
        omega
      have hcopy : Stored s₁ (s₁.copyIn p (posAt position done % 4096)
          ((data.drop done).take chunk)) m (position + done) ((data.drop done).take chunk) := by
        rw [← hat]
        exact stored_copyIn hst.inv hitem (by omega)
      obtain ⟨s₂, hrest, hst₂, -⟩ := @ih _ (done + chunk) hcopy.inv ⟨halloc₁.1, halloc₁.2⟩
        (fun hnull => absurd hnull (by simp [isNull_of_item (hcopy.items _ _ _ hitem)]))
        (by omega) (by omega)
      refine ⟨s₂, ?_, ?_, fun _ => ⟨_, p, hst₂.items _ _ _ (hcopy.items _ _ _ hitem)⟩⟩
      · rw [if_pos hmore]
        simp only [hget, hchunk, Option.bind_eq_bind, Option.bind_some]
        exact hrest
      · have hall := (hst.trans hcopy rfl).trans hst₂ (by simp only [nil_append, hlen]; omega)
        rwa [nil_append, ← drop_drop, take_append_drop] at hall
    · have heq : done = data.length := by omega
      subst heq
      rw [if_neg hmore, drop_length]
      exact ⟨s, rfl, .refl m _ hinv, fun hlt => absurd hlt hmore⟩

/-! ## The calls keep what they need -/

/-- What holds between two calls. -/
structure Good (s : Files) : Prop where
  inv : Inv s.cache
  paged : ∀ m, 0 < s.size m → ∃ i p, (s.tree m).itemAt i = some p
  size_lt : ∀ m, s.size m < 2 ^ 32
  position_lt : ∀ h, (s.handle h).position < 2 ^ 32

theorem Good.of_init (h : files.init s) : Good s := by
  obtain ⟨hcache, hsize, hposition⟩ := h
  refine ⟨hcache ▸ inv_init, ?_, ?_, hposition⟩
  · intro m hpos
    rw [hsize] at hpos
    omega
  · intro m
    rw [hsize]
    decide

theorem Good.of_stored (h : Good s) (hst : Stored s s' m pos data) : Good s' := by
  refine ⟨hst.inv, ?_, ?_, ?_⟩
  · intro m' hpos
    rw [hst.size] at hpos
    obtain ⟨i, p, hp⟩ := h.paged m' hpos
    exact ⟨i, p, hst.items m' i p hp⟩
  · rw [hst.size]
    exact h.size_lt
  · rw [hst.handle]
    exact h.position_lt

theorem Good.setPosition (h : Good s) (k : ℕ)
    (hlt : position < 2 ^ 32) : Good (s.setPosition k position) := by
  refine { h with position_lt := ?_ }
  intro k'
  by_cases hk : k' = k
  · simpa [Files.setPosition, hk] using hlt
  · simp only [Files.setPosition, update_of_ne hk]
    exact h.position_lt k'

theorem Good.growTo (h : Good s) (hlt : position < 2 ^ 32)
    (hpaged : ∃ i p, (s.tree m).itemAt i = some p) : Good (s.growTo m position) := by
  unfold Files.growTo
  split
  · refine ⟨h.inv, ?_, ?_, h.position_lt⟩
    · intro m' hpos
      by_cases hm : m' = m
      · rw [hm]
        exact hpaged
      · simp only [update_of_ne hm] at hpos
        exact h.paged m' hpos
    · intro m'
      by_cases hm : m' = m
      · simpa [hm] using hlt
      · simp only [update_of_ne hm]
        exact h.size_lt m'
  · exact h

/-! ## The calls on states and on sparse files -/

theorem abs_setPosition (hst : Stored s s' m pos []) (h position : ℕ) :
    (s'.setPosition h position).abs = s.abs.moveTo h position := by
  have hfile : (fun m => (⟨s'.content m, s'.size m⟩ : SparseFile)) =
      fun m => ⟨s.content m, s.size m⟩ := by
    funext m'
    rw [hst.content_same, hst.size]
  have hhandle := hst.handle
  simp only [Files.abs, SparseFiles.moveTo, Files.setPosition, SparseFiles.mk.injEq]
  exact ⟨hfile, by rw [hhandle]⟩

/-- The number of bytes that `tmpfs_vfs_read` reads. -/
def readCount (s : Files) (h size : ℕ) : ℕ :=
  let position := (s.handle h).position
  let fileSize := s.size (s.handle h).inode
  if size = 0 ∨ fileSize ≤ position then 0
  else if (position + size) % 2 ^ 64 > fileSize then fileSize - position else size

theorem setPosition_same (hlt : (s.handle h).position < 2 ^ 32) :
    s.setPosition h (posAt (s.handle h).position 0) = s := by
  rw [posAt_of_lt hlt]
  simp only [Files.setPosition, add_zero, update_eq_self]

theorem tmpfsVfsRead_spec (hgood : Good s) (size : ℕ)
    (halloc : Allocates s (s.handle h).inode alloc) :
    ∃ s', tmpfsVfsRead s h size alloc =
      some (s'.setPosition h (posAt (s.handle h).position (readCount s h size)),
        slice (fun i => s.content (s.handle h).inode (i % 2 ^ 32)) (s.handle h).position
          (readCount s h size), toInt (readCount s h size)) ∧
      Stored s s' (s.handle h).inode 0 [] := by
  unfold tmpfsVfsRead readCount
  by_cases hzero : size = 0
  · refine ⟨s, ?_, .refl _ 0 hgood.inv⟩
    rw [if_pos hzero, if_pos (.inl hzero), setPosition_same (hgood.position_lt h)]
    rfl
  · by_cases hbehind : s.size (s.handle h).inode ≤ (s.handle h).position
    · refine ⟨s, ?_, .refl _ 0 hgood.inv⟩
      rw [if_neg hzero, if_pos hbehind, if_pos (.inr hbehind),
        setPosition_same (hgood.position_lt h)]
      rfl
    · rw [if_neg hzero, if_neg hbehind, if_neg (not_or.2 ⟨hzero, hbehind⟩)]
      generalize (if ((s.handle h).position + size) % 2 ^ 64 > s.size (s.handle h).inode then
        s.size (s.handle h).inode - (s.handle h).position else size) = toRead
      obtain ⟨s', hrun, hst⟩ := @readLoop_spec _ (s.handle h).position toRead alloc (toRead + 1) s 0
        hgood.inv halloc (hgood.paged _ (by omega)) (by omega)
      refine ⟨s', ?_, hst⟩
      simp [hrun]

theorem toInt_eq_iff {n : ℕ} : toInt n = n ↔ n < 2 ^ 31 := by
  simp only [toInt, Int.bmod_def]
  omega

/-- A read is right if and only if it is safe. -/
theorem refines_read_iff (hgood : Good s) {size : ℕ}
    (hlegal : (read h size alloc).Legal s) :
    Refines s (.read h size alloc) ↔ (read h size alloc).Safe s := by
  obtain ⟨hsize, halloc⟩ := hlegal
  obtain ⟨s', hrun, hst⟩ := tmpfsVfsRead_spec hgood size halloc
  have hlt := hgood.size_lt (s.handle h).inode
  have hpos := hgood.position_lt h
  -- the numbers of bytes that are read and that are asked for
  have hcount : readCount s h size = min ((s.handle h).position + size)
      (s.size (s.handle h).inode) - (s.handle h).position ↔
      (size ≠ 0 → (s.handle h).position < s.size (s.handle h).inode →
        (s.handle h).position + size < 2 ^ 64) := by
    simp only [readCount]
    split
    · constructor
      · omega
      · omega
    · split <;> omega
  constructor
  · rintro ⟨s₁, r, hcall, heq⟩
    simp only [fileCall, hrun, Option.some.injEq, Prod.mk.injEq] at hcall
    obtain ⟨rfl, rfl⟩ := hcall
    simp only [call, Prod.mk.injEq] at heq
    obtain ⟨-, hout, hret⟩ := heq
    have hlen := congrArg List.length hout
    simp only [length_slice, SparseFiles.read] at hlen hret
    simp only [Files.abs] at hlen hret
    rw [hlen, toInt_eq_iff] at hret
    intro hne hin
    exact ⟨hcount.1 hlen hne hin, hret⟩
  · intro hsafe
    have hsame := hcount.2 fun hne hin => (hsafe hne hin).1
    have hsmall : readCount s h size < 2 ^ 31 := by
      by_cases hne : size ≠ 0 ∧ (s.handle h).position < s.size (s.handle h).inode
      · rw [hsame]
        exact (hsafe hne.1 hne.2).2
      · simp only [readCount]
        rw [if_pos (by omega)]
        decide
    have hend : (s.handle h).position + readCount s h size < 2 ^ 32 := by omega
    refine ⟨_, _, hrun, ?_⟩
    have hread : s.abs.read h size = slice (fun i => s.content (s.handle h).inode (i % 2 ^ 32))
        (s.handle h).position (readCount s h size) := by
      simp only [SparseFiles.read, Files.abs, ← hsame]
      apply slice_congr
      intro k hk
      rw [mod_eq_of_lt (by omega)]
    simp only [call, hread, length_slice, abs_setPosition hst,
      toInt_eq_iff.2 hsmall, posAt_of_lt hend]
    rfl

/-- The state after `tmpfs_vfs_write` stands for the written file. -/
theorem abs_written (hst : Stored s s' (s.handle h).inode (s.handle h).position data) :
    ((s'.setPosition h ((s.handle h).position + data.length)).growTo (s.handle h).inode
      ((s.handle h).position + data.length)).abs =
      (s.abs.write h data).moveTo h ((s.handle h).position + data.length) := by
  have hcontent : ∀ (s : Files) m n m', (s.growTo m n).content m' = s.content m' := by
    intro s m n m'
    unfold Files.growTo
    split <;> rfl
  have hsize : ∀ (s : Files) m n, (s.growTo m n).size = update s.size m (max (s.size m) n) := by
    intro s m n
    unfold Files.growTo
    split
    next hgt => rw [max_eq_right (by omega)]
    next hle => rw [max_eq_left (by omega), update_eq_self]
  have hhandle : ∀ (s : Files) m n, (s.growTo m n).handle = s.handle := by
    intro s m n
    unfold Files.growTo
    split <;> rfl
  simp only [Files.abs, SparseFiles.moveTo, SparseFiles.write, hcontent, hsize, hhandle,
    SparseFiles.mk.injEq]
  constructor
  · funext m'
    have hnew := hst.content m'
    by_cases hm : m' = (s.handle h).inode
    · subst hm
      rw [if_pos rfl] at hnew
      rw [update_self, update_self, ← hnew, ← hst.size]
      rfl
    · rw [if_neg hm] at hnew
      rw [update_of_ne hm, update_of_ne hm, ← hnew, ← hst.size]
      rfl
  · simp only [Files.setPosition, hst.handle]

/-- `tmpfs_vfs_write` of some bytes, unless it makes a first page that is not page 0. -/
theorem tmpfsVfsWrite_spec (hgood : Good s) (halloc : Allocates s (s.handle h).inode alloc)
    (hne : data ≠ [])
    (hend : (s.handle h).position + data.length < 2 ^ 32)
    (hfirst : (s.tree (s.handle h).inode).rnode.isNull = true → (s.handle h).position < 4096) :
    ∃ s', tmpfsVfsWrite s h data alloc =
      some ((s'.setPosition h ((s.handle h).position + data.length)).growTo (s.handle h).inode
        ((s.handle h).position + data.length), toInt data.length) ∧
      Stored s s' (s.handle h).inode (s.handle h).position data ∧
      ∃ i p, (s'.tree (s.handle h).inode).itemAt i = some p := by
  have hlen : data.length ≠ 0 := by simpa using hne
  have hindex : (s.tree (s.handle h).inode).rnode.isNull = true →
      posAt (s.handle h).position 0 / 4096 = 0 := by
    intro hnull
    have := hfirst hnull
    unfold posAt
    omega
  obtain ⟨s', hrun, hst, hpaged⟩ := writeLoop_spec hend (data.length + 1) hgood.inv halloc hindex
    (zero_le _) (by omega)
  refine ⟨s', ?_, by simpa using hst, hpaged (by omega)⟩
  unfold tmpfsVfsWrite
  simp [hrun, hlen, posAt_of_lt hend]

theorem tmpfsVfsWrite_fault (hgood : Good s) (alloc : ℕ → PageId) (hne : data ≠ [])
    (hnull : (s.tree (s.handle h).inode).rnode.isNull = true)
    (hpos : ¬ (s.handle h).position < 4096) : tmpfsVfsWrite s h data alloc = none := by
  have hlen : 0 < data.length := length_pos_iff.2 hne
  have hlt := hgood.position_lt h
  have hindex : 0 < posAt (s.handle h).position 0 / 4096 := by
    unfold posAt
    omega
  have hsmall := posAt_lt (s.handle h).position 0
  unfold tmpfsVfsWrite writeLoop
  simp [hlen.ne', hlen, getPage_growsEmpty hgood.inv _ hnull hindex (by omega)]

/-- The position of the handle stays a `uint32_t`, however long the write is. -/
theorem position_lt_of_write
    {ret : ℤ} (hne : data ≠ []) (hrun : tmpfsVfsWrite s h data alloc = some (s', ret)) :
    (s'.handle h).position < 2 ^ 32 := by
  unfold tmpfsVfsWrite at hrun
  rw [if_neg (by simpa using hne)] at hrun
  obtain ⟨⟨s₁, written⟩, -, hrest⟩ := Option.bind_eq_some_iff.1 hrun
  cases hrest
  have hlt := posAt_lt (s.handle h).position written
  unfold Files.growTo
  split <;> simpa [Files.setPosition] using hlt

theorem refines_write_nil_iff (hgood : Good s) (h : ℕ) (alloc : ℕ → PageId) :
    Refines s (.write h [] alloc) ↔ (s.handle h).position ≤ s.size (s.handle h).inode := by
  constructor
  · rintro ⟨s', r, hcall, heq⟩
    cases hcall
    have habs := congrArg (fun r => (r.1.file (s.handle h).inode).size) heq
    simp only [SparseFiles.call, SparseFiles.moveTo, SparseFiles.write, Files.abs,
      update_self, length_nil, add_zero] at habs
    omega
  · intro hle
    have habs := abs_written (.refl (s.handle h).inode (s.handle h).position hgood.inv)
    have hsame := setPosition_same (hgood.position_lt h)
    rw [posAt_of_lt (hgood.position_lt h)] at hsame
    rw [length_nil, hsame, Files.growTo, if_neg (by omega)] at habs
    exact ⟨s, _, rfl, congrArg (·, _) habs⟩

/-- A write is right if and only if it is safe. -/
theorem refines_write_iff (hgood : Good s) (hlegal : (write h data alloc).Legal s) :
    Refines s (.write h data alloc) ↔ (write h data alloc).Safe s := by
  by_cases hempty : data = []
  · -- nothing is written, so the file must already reach to the position
    subst hempty
    have hlt := hgood.position_lt h
    rw [refines_write_nil_iff hgood]
    constructor
    · intro hle
      exact ⟨hlt, by decide, fun hne => absurd rfl hne, fun _ => hle⟩
    · intro hsafe
      exact hsafe.2.2.2 rfl
  · by_cases hfault : (s.tree (s.handle h).inode).rnode.isNull = true ∧
        ¬ (s.handle h).position < 4096
    · have hnone := tmpfsVfsWrite_fault hgood alloc hempty hfault.1 hfault.2
      constructor
      · rintro ⟨s', r, hcall, -⟩
        simp [fileCall, hnone] at hcall
      · intro hsafe
        exact absurd (hsafe.2.2.1 hempty hfault.1) hfault.2
    · have hfirst : (s.tree (s.handle h).inode).rnode.isNull = true →
          (s.handle h).position < 4096 := fun hnull => not_not.1 fun hpos => hfault ⟨hnull, hpos⟩
      by_cases hend : (s.handle h).position + data.length < 2 ^ 32
      · obtain ⟨s', hrun, hst, -⟩ := tmpfsVfsWrite_spec hgood hlegal hempty hend hfirst
        have hcall : fileCall s (.write h data alloc) = some
            ((s'.setPosition h ((s.handle h).position + data.length)).growTo (s.handle h).inode
              ((s.handle h).position + data.length), [], toInt data.length) := by
          simp [fileCall, hrun]
        constructor
        · rintro ⟨s₁, r, hcall₁, heq⟩
          rw [hcall] at hcall₁
          cases hcall₁
          simp only [call, Prod.mk.injEq] at heq
          exact ⟨hend, toInt_eq_iff.1 heq.2.2, fun _ => hfirst, fun hnil => absurd hnil hempty⟩
        · intro hsafe
          refine ⟨_, _, hcall, ?_⟩
          rw [abs_written hst, toInt_eq_iff.2 hsafe.2.1]
          rfl
      · -- the position of the handle wraps
        constructor
        · rintro ⟨s₁, r, hcall, heq⟩
          obtain ⟨⟨s₂, ret⟩, hrun, hpair⟩ := Option.map_eq_some_iff.1 hcall
          cases hpair
          have hlt := position_lt_of_write hempty hrun
          have hpos := congrArg (fun r => (r.1.handle h).position) heq
          simp only [call, moveTo, Files.abs, update_self] at hpos
          omega
        · intro hsafe
          exact absurd hsafe.1 hend

/-! ## Runs -/

/-- Safe calls keep what the loops rely on. -/
theorem Good.step (hgood : Good s) (hsafe : c.Safe s) (hstep : files.step s c s') : Good s' := by
  obtain ⟨hlegal, r, hcall⟩ := hstep
  cases c with
  | seek h offset whence =>
    cases hcall
    exact hgood.setPosition h (mod_lt _ (by decide))
  | read h size alloc =>
    obtain ⟨s₁, hrun, hst⟩ := tmpfsVfsRead_spec hgood size hlegal.2
    simp only [fileCall, hrun, Option.some.injEq, Prod.mk.injEq] at hcall
    obtain ⟨rfl, -⟩ := hcall
    exact (hgood.of_stored hst).setPosition h (posAt_lt _ _)
  | write h data alloc =>
    by_cases hempty : data = []
    · subst hempty
      cases hcall
      exact hgood
    · obtain ⟨s₁, hrun, hst, hpaged⟩ :=
        tmpfsVfsWrite_spec hgood hlegal hempty hsafe.1 (hsafe.2.2.1 hempty)
      simp only [fileCall, hrun, Option.map_some, Option.some.injEq, Prod.mk.injEq] at hcall
      obtain ⟨rfl, -⟩ := hcall
      exact ((hgood.of_stored hst).setPosition h hsafe.1).growTo hsafe.1 hpaged

theorem refines_iff_safe (hgood : Good s) (hlegal : c.Legal s) : Refines s c ↔ c.Safe s := by
  cases c with
  | seek h offset whence =>
    exact iff_of_true ⟨_, _, rfl, congrArg (·, _)
      (abs_setPosition (.refl 0 0 hgood.inv) h _)⟩ trivial
  | read => exact refines_read_iff hgood hlegal
  | write => exact refines_write_iff hgood hlegal

theorem abs_of_init (h : files.init s) : s.abs = .start s.handle := by
  have hempty : ∀ m, s.content m = fun _ => 0 := by
    intro m
    funext i
    unfold content Files.tree
    rw [h.1]
    simp [pagecacheInit]
  simp only [Files.abs, start, hempty, h.2.1]

/-- In every run whose calls all met the condition the files are what sparse files have become by
the same calls, and the next call does what it does to sparse files if and only if it meets the
condition. -/
theorem tmpfs_refines_iff {s₀ s : Files} {cs : List FileCall} (hinit : files.init s₀)
    (hrun : files.Trace (fun s c => c.Safe s) s₀ cs s) (c : FileCall) (hlegal : c.Legal s) :
    s.abs = cs.foldl (fun a c => (a.call c).1) (.start s₀.handle) ∧ (Refines s c ↔ c.Safe s) := by
  have hsim : ∀ (s : Files) (c : FileCall) (s' : Files), Good s → c.Safe s → files.step s c s' →
      Good s' ∧ s'.abs = (s.abs.call c).1 := by
    intro s c s' hgood hsafe hstep
    refine ⟨hgood.step hsafe hstep, ?_⟩
    obtain ⟨s₁, r, hcall, heq⟩ := (refines_iff_safe hgood hstep.1).2 hsafe
    obtain ⟨-, r', hcall'⟩ := hstep
    rw [hcall] at hcall'
    cases hcall'
    exact congrArg Prod.fst heq
  obtain ⟨hgood, habs⟩ := @System.Trace.simulates _ _ _ _ _ Good Files.abs
    (fun a c => (a.call c).1) hsim _ _ _ (.of_init hinit) hrun
  rw [abs_of_init hinit] at habs
  exact ⟨habs, refines_iff_safe hgood hlegal⟩

/-- Empty files with all handles on the first one. -/
def emptyFiles : Files := ⟨pagecacheInit, fun _ _ => 0, fun _ => 0, fun _ => ⟨0, 0⟩⟩

/-- An allocator that returns the frames in the order of the indices. -/
def frameAt (i : ℕ) : PageId := ⟨i % frameCount, mod_lt _ (by decide)⟩

theorem init_emptyFiles : files.init emptyFiles :=
  ⟨rfl, fun _ => rfl, fun _ => by simp [emptyFiles]⟩

theorem allocates_frameAt (hcache : s.cache = pagecacheInit) (m : MapId) :
    Allocates s m frameAt := by
  constructor
  · intro i _ _
    rw [hcache]
    rfl
  · intro i hi j hj heq
    simp only [Set.mem_Iio] at hi hj
    have hval := congrArg Fin.val heq
    simp only [frameAt, frameCount] at hval
    omega

/-- Three bytes are written; then a handle moves to the last of them. -/
theorem tmpfs_refines_iff_written : ∃ s,
    files.Trace (fun s c => c.Safe s) emptyFiles [.write 0 [1, 2, 3] frameAt] s ∧
    s.abs = [write 0 [1, 2, 3] frameAt].foldl (fun a c => (a.call c).1)
      (.start emptyFiles.handle) ∧
    (Refines s (.seek 0 (-1) 2) ↔ (seek 0 (-1) 2).Safe s) := by
  have hlegal : (write 0 [1, 2, 3] frameAt).Legal emptyFiles :=
    allocates_frameAt rfl _
  have hsafe : (write 0 [1, 2, 3] frameAt).Safe emptyFiles := by decide
  obtain ⟨s, r, hcall, -⟩ := (refines_iff_safe (.of_init init_emptyFiles) hlegal).2 hsafe
  have htrace : files.Trace (fun s c => c.Safe s) emptyFiles [.write 0 [1, 2, 3] frameAt] s :=
    ⟨s, hsafe, ⟨hlegal, r, hcall⟩, rfl⟩
  exact ⟨s, htrace, tmpfs_refines_iff init_emptyFiles htrace _ trivial⟩

/-- The first write to an empty file is made at its second page. -/
theorem first_write_faults : ∃ s, files.Trace (fun s c => c.Safe s) emptyFiles [.seek 0 4096 0] s ∧
    (write 0 [7] frameAt).Legal s ∧ fileCall s (.write 0 [7] frameAt) = none := by
  have htrace : files.Trace (fun s c => c.Safe s) emptyFiles [.seek 0 4096 0]
      (tmpfsVfsSeek emptyFiles 0 4096 0).1 :=
    ⟨_, trivial, ⟨trivial, _, rfl⟩, rfl⟩
  refine ⟨_, htrace, allocates_frameAt rfl _, ?_⟩
  rfl

end BoredOS.Fs.Tmpfs.File
