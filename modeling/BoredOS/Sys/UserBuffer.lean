import BoredOS.Mem.Mmu.Translation
import BoredOS.Mem.Vmm.Calls

/-!
# Buffers of Data Calls

`is_valid_user_ptr` of `sys/syscall.c`, and which bytes of the buffer `handle_sys_read`,
`handle_sys_write` (`sys/syscall_file.c`), `handle_sys_sendto` and `handle_sys_recvfrom`
(`sys/syscall_net.c`) may touch.

The check looks for a translation or an area for every page. It does not look at the user bits, and
its bound lets addresses through that are not canonical and whose indices are those of the kernel
half. What is missing is exactly `Canonical` and `NoKernelPage` (`userBytes_of_pages`). Reading and
writing make the check; the calls for sockets go on with any buffer (`user_buffer_iff`).
-/

namespace BoredOS.Sys.UserBuffer

open Mem.Pmm Mem.Mmu Mem.Vmm Option Nat Bool

/-! ## The check -/

/-- The caller: whether it is a user process, whether it has a space, and its PML4 (0 for none). -/
structure Caller where
  isUser : Bool
  hasSpace : Bool
  pml4 : ℕ

def userBound : ℕ := 0xFFFF800000000000

def Caller.areas (c : Caller) (s : Machine) : List Area :=
  if c.hasSpace = true then (s.spaces c.pml4).elim [] fun sp => sp.vmas else []

/-- What the loop of `is_valid_user_ptr` asks of a page. -/
def pageOk (s : Machine) (c : Caller) (page : ℕ) : Bool :=
  decide (mmuVirtToPhys s.vm.mm c.pml4 page ≠ 0) || (vmaFind (c.areas s) page).isSome

/-- A loop over pages, with the number of those that are left. -/
def allPages (f : ℕ → Bool) : ℕ → ℕ → Bool
  | 0, _ => true
  | n + 1, page => f page && allPages f n (page + pageSize)

def pageCount (addr size : ℕ) : ℕ := (addr + size - 1) / pageSize - addr / pageSize + 1

def isValidUserPtr (s : Machine) (c : Caller) (addr size : ℕ) : Bool :=
  if size = 0 then true
  else if addr < 0x1000 ∨ userBound ≤ addr then false
  else if userBound < addr + size then false
  else if c.isUser = false then true
  else if c.hasSpace = false ∧ c.pml4 = 0 then false
  else allPages (pageOk s c) (pageCount addr size) (pageAlignDown addr)

/-! ## Bytes of the caller -/

/-- A canonical address of the lower half that is mapped for user access or in an area. -/
def UserByte (s : Machine) (c : Caller) (v : ℕ) : Prop :=
  v < 2 ^ 47 ∧ ((∃ e, lastEntry s.vm.mm c.pml4 v = some (e, true)) ∨
    (vmaFind (c.areas s) (pageAlignDown v)).isSome = true)

/-- The range ends in the lower half. -/
def Canonical (addr size : ℕ) : Prop := addr + size ≤ 2 ^ 47
  deriving Decidable

/-- No page of the range is mapped for the kernel only, outside of all areas. -/
def NoKernelPage (s : Machine) (c : Caller) (addr size : ℕ) : Prop :=
  ∀ i < size, ∀ e, lastEntry s.vm.mm c.pml4 (addr + i) = some (e, false) →
    (vmaFind (c.areas s) (pageAlignDown (addr + i))).isSome = true

/-! ## What the check says -/

variable {f : ℕ → Bool}

theorem allPages_iff : ∀ {n page : ℕ},
    allPages f n page = true ↔ ∀ k < n, f (page + k * pageSize) = true
  | 0, page => by simp [allPages]
  | n + 1, page => by
    rw [allPages, and_eq_true, allPages_iff]
    constructor
    · rintro ⟨hfirst, hrest⟩ k hk
      cases k with
      | zero => rwa [zero_mul, add_zero]
      | succ k =>
        have h := hrest k (by omega)
        rwa [add_assoc, add_comm pageSize, ← succ_mul] at h
    · intro h
      constructor
      · have h0 := h 0 (by omega)
        rwa [zero_mul, add_zero] at h0
      · intro k hk
        rw [add_assoc, add_comm pageSize, ← succ_mul]
        exact h (k + 1) (by omega)

variable {addr size : ℕ} {s : Machine} {c : Caller}

/-- The pages of a range are the pages of its bytes. -/
theorem allPages_range (hsize : 0 < size) :
    allPages f (pageCount addr size) (pageAlignDown addr) = true ↔
      ∀ i < size, f (pageAlignDown (addr + i)) = true := by
  rw [allPages_iff]
  unfold pageCount pageAlignDown
  constructor
  · intro h i hi
    -- the page of the byte, counted from the first one
    have hk := h ((addr + i) / pageSize - addr / pageSize) (by unfold pageSize; omega)
    have heq : addr / pageSize * pageSize + ((addr + i) / pageSize - addr / pageSize) * pageSize =
        (addr + i) / pageSize * pageSize := by
      unfold pageSize
      omega
    rwa [heq] at hk
  · intro h k hk
    -- the page has a byte of the range: its first one, or the start of the range
    have hi : (addr / pageSize + k) * pageSize - addr < size := by
      unfold pageSize at hk ⊢
      omega
    have hb := h _ hi
    have heq : (addr + ((addr / pageSize + k) * pageSize - addr)) / pageSize * pageSize =
        addr / pageSize * pageSize + k * pageSize := by
      unfold pageSize
      omega
    rwa [heq] at hb

theorem pageAlignDown_page (v : ℕ) : pageAlignDown v / pageSize = v / pageSize := by
  unfold pageAlignDown pageSize
  omega

/-- What the check has seen of a buffer that it accepts. -/
theorem isValidUserPtr_pages (huser : c.isUser = true) (hsize : 0 < size)
    (h : isValidUserPtr s c addr size = true) :
    addr + size ≤ userBound ∧ ∀ i < size, pageOk s c (pageAlignDown (addr + i)) = true := by
  unfold isValidUserPtr at h
  rw [if_neg (by omega)] at h
  split at h
  · cases h
  split at h
  · cases h
  rw [if_neg (by simp [huser])] at h
  split at h
  · cases h
  exact ⟨by omega, (allPages_range hsize).1 h⟩

/-- The bytes of such pages are bytes of the caller exactly if the range is canonical and has no
page of the kernel. -/
theorem userBytes_of_pages (hsize : 0 < size)
    (hpages : ∀ i < size, pageOk s c (pageAlignDown (addr + i)) = true) :
    (∀ i < size, UserByte s c (addr + i)) ↔ Canonical addr size ∧ NoKernelPage s c addr size := by
  constructor
  · intro hbytes
    constructor
    · have hlast := (hbytes (size - 1) (by omega)).1
      unfold Canonical
      omega
    · intro i hi e he
      rcases (hbytes i hi).2 with ⟨e', he'⟩ | harea
      · rw [he] at he'
        cases he'
      · exact harea
  · rintro ⟨hcanon, hkernel⟩ i hi
    refine ⟨by unfold Canonical at hcanon; omega, ?_⟩
    have hpage := hpages i hi
    unfold pageOk at hpage
    rw [or_eq_true, decide_eq_true_eq] at hpage
    rcases hpage with htrans | harea
    · obtain ⟨⟨e, user⟩, he⟩ := lastEntry_of_translated htrans
      rw [lastEntry_eq (pageAlignDown_page (addr + i))] at he
      cases user with
      | true => exact .inl ⟨e, he⟩
      | false => exact .inr (hkernel i hi e he)
    · exact .inr harea

/-! ## The calls -/

/-- `PROC_FD_KIND_*`, with `domain` and `type` of a socket. -/
inductive FdKind where
  | file
  | pipeRead
  | pipeWrite
  | socket (domain type : ℕ)
  deriving DecidableEq, Repr

/-- A call with its buffer. `destOk` tells whether `sendto` has an address of the right family, and
`prefault` is the result of `vmm_prefault_user_range`. -/
inductive DataCall where
  | read (kind : FdKind) (buf : ℕ) (len : BitVec 64)
  | write (kind : FdKind) (buf : ℕ) (len : BitVec 64)
  | sendto (kind : FdKind) (buf len : ℕ) (destOk : Bool)
  | recvfrom (kind : FdKind) (buf len : ℕ) (prefault : Bool)
  deriving DecidableEq, Repr

/-- `(int)len` as a `size_t`. -/
def fileLen (len : BitVec 32) : ℕ := (len.signExtend 64).toNat

/-- The range that `fs_cmd_read` hands to the code that copies. -/
def fsCmdRead (s : Machine) (c : Caller) (kind : FdKind) (buf : ℕ) (len : BitVec 32) :
    Option (ℕ × ℕ) :=
  if 0 < len.toNat ∧ isValidUserPtr s c buf len.toNat = false then none
  else
    match kind with
    | .file => some (buf, fileLen len)
    | .pipeRead => if buf = 0 then none else some (buf, len.toNat)
    | .pipeWrite => none
    | .socket _ _ => some (buf, len.toNat)

/-- The range that `fs_cmd_write` hands on. -/
def fsCmdWrite (kind : FdKind) (buf : ℕ) (len : BitVec 32) : Option (ℕ × ℕ) :=
  match kind with
  | .file => some (buf, fileLen len)
  | .pipeRead => none
  | .pipeWrite => if buf = 0 then none else some (buf, len.toNat)
  | .socket _ _ => some (buf, len.toNat)

/-- The range of `handle_sys_read`, whose length is cut to 32 bits before the check. -/
def handleSysRead (s : Machine) (c : Caller) (kind : FdKind) (buf : ℕ) (len : BitVec 64) :
    Option (ℕ × ℕ) :=
  fsCmdRead s c kind buf (len.setWidth 32)

/-- The range of `handle_sys_write` for an open descriptor, whose length is cut after the check. -/
def handleSysWrite (s : Machine) (c : Caller) (kind : FdKind) (buf : ℕ) (len : BitVec 64) :
    Option (ℕ × ℕ) :=
  if buf = 0 ∨ len = 0 then none
  else if c.isUser = true ∧ isValidUserPtr s c buf len.toNat = false then none
  else fsCmdWrite kind buf (len.setWidth 32)

/-- The range that `handle_sys_sendto` hands on. -/
def handleSysSendto (kind : FdKind) (buf len : ℕ) (destOk : Bool) : Option (ℕ × ℕ) :=
  match kind with
  | .socket domain type =>
    if domain = 17 ∨ domain = 1 then some (buf, len)
    else if domain = 2 ∧ type = 1 then some (buf, len)
    else if domain = 2 ∧ (type = 2 ∨ type = 3) ∧ destOk = true then some (buf, len)
    else none
  | _ => none

/-- The range that `handle_sys_recvfrom` hands on. -/
def handleSysRecvfrom (c : Caller) (kind : FdKind) (buf len : ℕ) (prefault : Bool) :
    Option (ℕ × ℕ) :=
  match kind with
  | .socket domain type =>
    if domain = 17 ∨ domain = 1 then some (buf, len)
    else if domain = 2 ∧ (type = 1 ∨ type = 2 ∨ type = 3) then
      if c.hasSpace = true ∧ prefault = false then none else some (buf, len)
    else none
  | _ => none

/-- The part of the buffer that a call may touch; `none` if it returns before. -/
def mayTouch (s : Machine) (c : Caller) : DataCall → Option (ℕ × ℕ)
  | .read kind buf len => handleSysRead s c kind buf len
  | .write kind buf len => handleSysWrite s c kind buf len
  | .sendto kind buf len destOk => handleSysSendto kind buf len destOk
  | .recvfrom kind buf len prefault => handleSysRecvfrom c kind buf len prefault

/-- Every byte that a call may touch is a byte of the caller. Addresses are 64-bit words. -/
def DataOk (s : Machine) (c : Caller) (call : DataCall) : Prop :=
  ∀ range ∈ mayTouch s c call, ∀ i < range.2, UserByte s c ((range.1 + i) % 2 ^ 64)

/-- The page is mapped for user access or in an area. -/
def userPage (s : Machine) (c : Caller) (page : ℕ) : Bool :=
  (lastEntry s.vm.mm c.pml4 page).any (fun x => x.2) || (vmaFind (c.areas s) page).isSome

/-- A range that no check has seen: it is in the lower half and all its pages are pages of the
caller. -/
def Unchecked (s : Machine) (c : Caller) (buf len : ℕ) : Prop :=
  len = 0 ∨ Canonical buf len ∧
    allPages (userPage s c) (pageCount buf len) (pageAlignDown buf) = true

/-- A range that the check accepts, of which `n` bytes are used: what the check leaves out. -/
def Checked (s : Machine) (c : Caller) (kind : FdKind) (buf len n : ℕ) : Prop :=
  isValidUserPtr s c buf len = true → 0 < n →
    Canonical buf n ∧ NoKernelPage s c buf n ∧ (kind = .file → n < 2 ^ 31)

/-- The socket is one for which `sendto` sends. -/
def Sends (destOk : Bool) : FdKind → Prop
  | .socket domain type =>
    domain = 17 ∨ domain = 1 ∨ domain = 2 ∧ (type = 1 ∨ (type = 2 ∨ type = 3) ∧ destOk = true)
  | _ => False

/-- The socket is one from which `recvfrom` receives, and the pages are there. -/
def Receives (c : Caller) (prefault : Bool) : FdKind → Prop
  | .socket domain type =>
    domain = 17 ∨ domain = 1 ∨ domain = 2 ∧ (type = 1 ∨ type = 2 ∨ type = 3) ∧
      ¬ (c.hasSpace = true ∧ prefault = false)
  | _ => False

/-- The condition on the arguments, the tables and the areas for each of the calls. -/
def DataSafe (s : Machine) (c : Caller) : DataCall → Prop
  | .read kind buf len => kind ≠ .pipeWrite →
      Checked s c kind buf (len.toNat % 2 ^ 32) (len.toNat % 2 ^ 32)
  | .write kind buf len => kind ≠ .pipeRead → buf ≠ 0 →
      Checked s c kind buf len.toNat (len.toNat % 2 ^ 32)
  | .sendto kind buf len destOk => Sends destOk kind → Unchecked s c buf len
  | .recvfrom kind buf len prefault => Receives c prefault kind → Unchecked s c buf len

theorem userPage_iff {v : ℕ} :
    userPage s c (pageAlignDown v) = true ↔ (∃ e, lastEntry s.vm.mm c.pml4 v = some (e, true)) ∨
      (vmaFind (c.areas s) (pageAlignDown v)).isSome = true := by
  unfold userPage
  rw [or_eq_true, lastEntry_eq (pageAlignDown_page v), any_eq_true]
  constructor
  · rintro (⟨⟨e, user⟩, he, huser⟩ | harea)
    · exact .inl ⟨e, by rw [he]; exact congrArg (fun u => some (e, u)) huser⟩
    · exact .inr harea
  · rintro (⟨e, he⟩ | harea)
    · exact .inl ⟨(e, true), he, rfl⟩
    · exact .inr harea

/-- The bytes of a range are bytes of the caller exactly if its pages are. -/
theorem userBytes_iff (haddr : addr < 2 ^ 64)
    (hsize : 0 < size) : (∀ i < size, UserByte s c ((addr + i) % 2 ^ 64)) ↔ Canonical addr size ∧
        allPages (userPage s c) (pageCount addr size) (pageAlignDown addr) = true := by
  rw [allPages_range hsize]
  unfold Canonical
  constructor
  · intro h
    -- the first byte is in the lower half, and so the range cannot wrap before it leaves it
    have hcanon : addr + size ≤ 2 ^ 47 := by
      by_contra hbeyond
      have hout := (h (2 ^ 47 - addr) (by omega)).1
      omega
    refine ⟨hcanon, fun i hi => ?_⟩
    have hbyte := (h i hi).2
    rw [mod_eq_of_lt (by omega)] at hbyte
    exact userPage_iff.2 hbyte
  · rintro ⟨hcanon, hpages⟩ i hi
    rw [mod_eq_of_lt (by omega)]
    exact ⟨by omega, userPage_iff.1 (hpages i hi)⟩

def DataCall.buf : DataCall → ℕ
  | .read _ buf _ => buf
  | .write _ buf _ => buf
  | .sendto _ buf _ _ => buf
  | .recvfrom _ buf _ _ => buf

/-- The bytes of the range that a call hands on are bytes of the caller. -/
def RangeOk (s : Machine) (c : Caller) (r : Option (ℕ × ℕ)) : Prop :=
  ∀ range ∈ r, ∀ i < range.2, UserByte s c ((range.1 + i) % 2 ^ 64)

theorem rangeOk_none : RangeOk s c none := nofun

theorem rangeOk_some : RangeOk s c (some (addr, size)) ↔
    ∀ i < size, UserByte s c ((addr + i) % 2 ^ 64) := by
  simp [RangeOk]

theorem rangeOk_unchecked (haddr : addr < 2 ^ 64) :
    RangeOk s c (some (addr, size)) ↔ Unchecked s c addr size := by
  rw [rangeOk_some, Unchecked]
  rcases Nat.eq_zero_or_pos size with rfl | hpos
  · simp
  · rw [userBytes_iff haddr hpos]
    exact ⟨.inr, fun h => h.resolve_left (by omega)⟩

/-- The range after the check, where the length of a file that is negative as an `int` is that of
the whole address space. -/
theorem rangeOk_checked (kind : FdKind) {len : BitVec 32} (huser : c.isUser = true)
    (hlen : len.toNat ≤ size) (h : isValidUserPtr s c addr size = true) :
    RangeOk s c (some (addr, if kind = .file then fileLen len else len.toNat)) ↔
      Checked s c kind addr size len.toNat := by
  rw [rangeOk_some, Checked, imp_iff_right h]
  have hfile : fileLen len = if len.toNat < 2 ^ 31 then len.toNat
      else len.toNat + (2 ^ 64 - 2 ^ 32) := by
    unfold fileLen
    rw [BitVec.toNat_signExtend, BitVec.msb_eq_decide, BitVec.toNat_setWidth]
    by_cases hsmall : len.toNat < 2 ^ 31
    · rw [if_pos hsmall, if_neg (by simpa using hsmall)]
      omega
    · rw [if_neg hsmall, if_pos (by simpa using hsmall)]
      omega
  have hlt := len.isLt
  generalize len.toNat = n at hfile hlen hlt ⊢
  rcases Nat.eq_zero_or_pos n with rfl | hpos
  · simp [hfile]
  obtain ⟨hbound, hpages⟩ := isValidUserPtr_pages huser (by omega) h
  unfold userBound at hbound
  rw [imp_iff_right hpos]
  by_cases hneg : kind = .file ∧ 2 ^ 31 ≤ n
  · -- the range leaves the lower half
    obtain ⟨hkind, hbig⟩ := hneg
    refine iff_of_false (fun hbytes => ?_) fun hsafe => absurd (hsafe.2.2 hkind) (by omega)
    rw [if_pos hkind, hfile, if_neg (by omega)] at hbytes
    have hout := (hbytes (2 ^ 47 - addr) (by omega)).1
    omega
  · have hfit : kind = .file → n < 2 ^ 31 := fun hkind => lt_of_not_ge fun h => hneg ⟨hkind, h⟩
    have hsize : (if kind = .file then fileLen len else n) = n := by
      split
      next hkind => rw [hfile, if_pos (hfit hkind)]
      next => rfl
    rw [hsize]
    have hbytes : (∀ i < n, UserByte s c ((addr + i) % 2 ^ 64)) ↔
        ∀ i < n, UserByte s c (addr + i) :=
      forall₂_congr fun i hi => by rw [mod_eq_of_lt (by omega)]
    rw [hbytes, userBytes_of_pages hpos fun i hi => hpages i (by omega)]
    exact ⟨fun hr => ⟨hr.1, hr.2, hfit⟩, fun hr => ⟨hr.1, hr.2.1⟩⟩

theorem rangeOk_read (huser : c.isUser = true) (kind : FdKind) (buf : ℕ) (len : BitVec 64) :
    RangeOk s c (handleSysRead s c kind buf len) ↔ DataSafe s c (.read kind buf len) := by
  have hlen : len.toNat % 2 ^ 32 = (len.setWidth 32).toNat := (BitVec.toNat_setWidth 32 len).symm
  simp only [handleSysRead, fsCmdRead, DataSafe, hlen]
  generalize len.setWidth 32 = n
  split
  next hrefused =>
    exact iff_of_true rangeOk_none fun _ hvalid => by simp [hvalid] at hrefused
  next hpasses =>
    have hvalid : isValidUserPtr s c buf n.toNat = true := by
      by_contra hnot
      exact hpasses ⟨Nat.pos_of_ne_zero fun hzero => hnot (by simp [isValidUserPtr, hzero]),
        by simpa using hnot⟩
    cases kind with
    | file => simpa using rangeOk_checked .file huser (le_refl _) hvalid
    | pipeRead =>
      by_cases hbuf : buf = 0
      · -- an empty range, since the check refuses the first page
        refine iff_of_true (by simp [hbuf, rangeOk_none]) fun _ hv hpos => ?_
        rw [isValidUserPtr, if_neg (by omega), if_pos (by omega)] at hv
        cases hv
      · simpa [hbuf] using rangeOk_checked .pipeRead huser (le_refl _) hvalid
    | pipeWrite => exact iff_of_true rangeOk_none fun h => absurd rfl h
    | socket domain type =>
      simpa using rangeOk_checked (.socket domain type) huser (le_refl _) hvalid

theorem rangeOk_write (huser : c.isUser = true) (kind : FdKind) (buf : ℕ) (len : BitVec 64) :
    RangeOk s c (handleSysWrite s c kind buf len) ↔ DataSafe s c (.write kind buf len) := by
  have hlen : len.toNat % 2 ^ 32 = (len.setWidth 32).toNat := (BitVec.toNat_setWidth 32 len).symm
  have hle : (len.setWidth 32).toNat ≤ len.toNat := hlen ▸ mod_le _ _
  simp only [handleSysWrite, DataSafe, hlen]
  split
  next hnone =>
    refine iff_of_true rangeOk_none fun _ hbuf _ hpos => ?_
    rcases hnone with hzero | rfl
    · exact absurd hzero hbuf
    · exact absurd hpos (by simp)
  next hsome =>
    obtain ⟨hbuf, -⟩ := not_or.1 hsome
    split
    next hrefused =>
      exact iff_of_true rangeOk_none fun _ _ hvalid => by simp [hvalid] at hrefused
    next hpasses =>
      have hvalid : isValidUserPtr s c buf len.toNat = true := by
        simpa [huser] using hpasses
      unfold fsCmdWrite
      cases kind with
      | file => simpa [hbuf] using rangeOk_checked .file huser hle hvalid
      | pipeRead => exact iff_of_true rangeOk_none fun h => absurd rfl h
      | pipeWrite => simpa [hbuf] using rangeOk_checked .pipeWrite huser hle hvalid
      | socket domain type =>
        simpa [hbuf] using rangeOk_checked (.socket domain type) huser hle hvalid

theorem rangeOk_sendto {buf : ℕ} (hbuf : buf < 2 ^ 64) (kind : FdKind) (len : ℕ) (destOk : Bool) :
    RangeOk s c (handleSysSendto kind buf len destOk) ↔
      DataSafe s c (.sendto kind buf len destOk) := by
  have hiff := @rangeOk_unchecked buf len s c hbuf
  cases kind with
  | socket domain type =>
    simp only [handleSysSendto, DataSafe, Sends]
    split_ifs <;> first
      | exact hiff.trans (imp_iff_right (by tauto)).symm
      | exact iff_of_true rangeOk_none fun h => absurd h (by tauto)
  | _ => exact iff_of_true rangeOk_none fun h => h.elim

theorem rangeOk_recvfrom {buf : ℕ} (hbuf : buf < 2 ^ 64) (kind : FdKind) (len : ℕ)
    (prefault : Bool) : RangeOk s c (handleSysRecvfrom c kind buf len prefault) ↔
      DataSafe s c (.recvfrom kind buf len prefault) := by
  have hiff := @rangeOk_unchecked buf len s c hbuf
  cases kind with
  | socket domain type =>
    simp only [handleSysRecvfrom, DataSafe, Receives]
    split_ifs <;> first
      | exact hiff.trans (imp_iff_right (by tauto)).symm
      | exact iff_of_true rangeOk_none fun h => absurd h (by tauto)
  | _ => exact iff_of_true rangeOk_none fun h => h.elim

/-- The tables of the kernel at the start: frame 1 is its PML4, whose entry 256 leads to the first
gigabyte of the direct map, for the kernel only. -/
def directMap : ℕ → ℕ → Pte :=
  fun f i => if f = 1 ∧ i = 256 then 0x2003 else if f = 2 ∧ i = 0 then 0x83 else 0

/-- The start of the system with these tables. -/
def directMapVm : Option Vm :=
  (pmmInit twoRegions).bind fun s => vmmInit 0 ⟨directMap, s⟩ fun _ _ => 0

theorem init_directMap : ∃ vm, directMapVm = some vm ∧ (vmmSystem 1).init ⟨vm, fun _ => none⟩ :=
  init_twoRegions directMap (low_not_mem_twoRegions (by decide))

def firstCaller : Caller := ⟨true, true, 1048577⟩

/-- The process maps a page at `0x400000`. -/
def mapCalls : List VmmCall :=
  [.create 0 true, .map 1048577 true 0x400000 0x1000 (mmuProtRead ||| mmuProtWrite) 0 none 0]

theorem exists_of_run {test : Machine → Bool}
    (h : (directMapVm.bind fun vm => vmmRun 1 ⟨vm, fun _ => none⟩ mapCalls).any test = true) :
    ∃ s₀ s, (vmmSystem 1).init s₀ ∧ vmmRun 1 s₀ mapCalls = some s ∧ test s = true := by
  obtain ⟨vm, hboot, hinit⟩ := init_directMap
  rw [hboot, bind_some] at h
  obtain ⟨s, hrun, htest⟩ := (any_eq_true _ _).1 h
  exact ⟨_, s, hinit, hrun, htest⟩

end BoredOS.Sys.UserBuffer
