import BoredOS.Mem.Vmm.Cut

/-!
# The Memory System Calls of `sys/syscall_mem.c`

`munmap` and `mprotect` walk the range that a user program passes, page by page, through tables
whose upper half all processes share. Neither call compares the range with the end of the user half.
-/

namespace BoredOS.Sys.SyscallMem

open Mem.Pmm Mem.Mmu Mem.Vmm List Nat

def protRead : BitVec 32 := 0x1#32

def protWrite : BitVec 32 := 0x2#32

def protExec : BitVec 32 := 0x4#32

/-- An element of `shm_mappings`. -/
structure ShmMapping where
  addr : ℕ
  length : ℕ
  seg : Option ℕ

/-- The parts of `process_t` that the calls read. -/
structure Proc where
  isUser : Bool
  space : Space
  shmMappings : List ShmMapping

section

-- what `shm_unref` of a segment does to the page descriptors
variable (shmUnref : ℕ → PmmState → PmmState)

/-- The loop of `handle_sys_munmap` over the shared memory mappings: the first one at the address is
released and removed. -/
def releaseShm (addr : ℕ) (s : PmmState) : List ShmMapping → PmmState × List ShmMapping
  | [] => (s, [])
  | sm :: rest =>
    if sm.addr = addr then
      match sm.seg with
      | none => (s, rest)
      | some seg => (shmUnref seg s, rest)
    else
      let (s, rest) := releaseShm addr s rest
      (s, sm :: rest)

/-- `handle_sys_munmap` of a process that has a `vmm_space`; the result is a 64-bit word. -/
def handleSysMunmap (cpu : ℕ) (mem : Bool) (vm : Vm) (proc : Proc) (addr length : ℕ) :
    Vm × Proc × BitVec 64 :=
  if proc.isUser = false then (vm, proc, -1)
  else if length = 0 then (vm, proc, 0)
  else
    let alignedLen := pageAlignUp length
    let (s, shmMappings) := releaseShm shmUnref addr vm.mm.pmm proc.shmMappings
    let (vm, space, ret) :=
      vmmUnmap cpu mem (vm.withMm (vm.mm.withPmm s)) proc.space addr alignedLen
    (vm, { proc with space := space, shmMappings := shmMappings }, BitVec.ofInt 64 ret)

end

/-- `handle_sys_mprotect` of a process that has a `vmm_space`. -/
def handleSysMprotect (vm : Vm) (proc : Proc) (addr length : ℕ) (prot : BitVec 32) :
    Vm × Proc × BitVec 64 :=
  if proc.isUser = false then (vm, proc, -1)
  else
    let mmuProt := mmuProtUser
    let mmuProt := if Has prot protRead then mmuProt ||| mmuProtRead else mmuProt
    let mmuProt := if Has prot protWrite then mmuProt ||| mmuProtWrite else mmuProt
    let mmuProt := if Has prot protExec then mmuProt ||| mmuProtExec else mmuProt
    let (vm, space, ret) := vmmProtect vm proc.space addr length mmuProt
    (vm, { proc with space := space }, BitVec.ofInt 64 ret)

/-! ## Ranges in the user half -/

/-- The pages that both calls walk. -/
def Walked (addr length virt : ℕ) : Prop :=
  addr % pageSize = 0 ∧ ∃ i < pageAlignUp length / pageSize, pageAt addr i = virt

/-- Every virtual address of the kernel half has the same entries. -/
def KernelUnchanged (vm vm' : Vm) (pml4 : ℕ) : Prop :=
  ∀ virt, 256 ≤ pml4Idx virt → walk vm'.mm.tables pml4 virt = walk vm.mm.tables pml4 virt

/-- `munmap` of the range keeps the kernel half of every process. -/
def MunmapSafe (addr length : BitVec 64) : Prop :=
  ∀ pos vm proc, Layout pos vm.mm.tables → IsRoot pos proc.space.pml4 → ∀ shmUnref cpu mem,
    KernelUnchanged vm (handleSysMunmap shmUnref cpu mem vm proc addr.toNat length.toNat).1
      proc.space.pml4

/-- `mprotect` of the range keeps the kernel half of every process. -/
def MprotectSafe (addr length : BitVec 64) (prot : BitVec 32) : Prop :=
  ∀ pos vm proc, Layout pos vm.mm.tables → IsRoot pos proc.space.pml4 →
    KernelUnchanged vm (handleSysMprotect vm proc addr.toNat length.toNat prot).1 proc.space.pml4

theorem pageAlignUp_twice (x : ℕ) : pageAlignUp (pageAlignUp x) = pageAlignUp x := by
  unfold pageAlignUp pageSize
  omega

variable {addr length : BitVec 64} {virt : ℕ}

theorem munmapSafe_of_user
    (huser : ∀ virt, Walked addr.toNat length.toNat virt → pml4Idx virt < 256) :
    MunmapSafe addr length := by
  intro pos vm proc hl hr shmUnref cpu mem virt hhigh
  unfold handleSysMunmap
  split
  · rfl
  split
  · rfl
  apply walk_kernelSame hl hr _ hhigh
  apply vmmUnmap_kernelSame cpu mem
    (vm.withMm (vm.mm.withPmm (releaseShm shmUnref addr.toNat vm.mm.pmm proc.shmMappings).1)) hl hr
  intro halign i hi
  rw [pageAlignUp_twice] at hi
  exact huser _ ⟨halign, i, hi, rfl⟩

theorem mprotectSafe_of_user (prot : BitVec 32)
    (huser : ∀ virt, Walked addr.toNat length.toNat virt → pml4Idx virt < 256) :
    MprotectSafe addr length prot := by
  intro pos vm proc hl hr virt hhigh
  unfold handleSysMprotect
  split
  · rfl
  dsimp only
  unfold vmmProtect
  by_cases hbad : length.toNat = 0 ∨ addr.toNat % pageSize ≠ 0
  · rw [if_pos hbad]
  · rw [if_neg hbad]
    rw [not_or, not_not] at hbad
    apply walk_kernelSame hl hr _ hhigh
    apply KernelSame.of_spots hr
    exact mmuProtectPages_changed hr addr.toNat _ _ vm.mm hl fun i hi =>
      huser _ ⟨hbad.2, i, mem_range.1 hi, rfl⟩

/-! ## Ranges that reach the kernel half -/

/-- Tables that map nothing but one page of 2 MiB of the kernel half. -/
def lonePage (virt : ℕ) (leaf : Pte) : Tables := fun f i =>
  if f = 1 ∧ i = pml4Idx virt then tableEntry 2
  else if f = 2 ∧ i = pdptIdx virt then tableEntry 3
  else if f = 3 ∧ i = pdIdx virt then leaf
  else 0

/-- The entry of the page, which user programs must not reach. -/
def kernelLeaf : Pte := BitVec.ofNat 64 (512 * pageSize) ||| ptPresent ||| ptHuge

/-- The positions of these tables. -/
def lonePos (virt : ℕ) (f : ℕ) : Option Pos :=
  if f = 1 then some ⟨.user 1, []⟩
  else if f = 2 then some ⟨.kernel, [pml4Idx virt]⟩
  else if f = 3 then some ⟨.kernel, [pml4Idx virt, pdptIdx virt]⟩
  else none

def loneProc : Proc := ⟨true, ⟨1, [], 1, 0, 0, 0, 0⟩, []⟩

def loneVm (virt : ℕ) : Vm := ⟨⟨lonePage virt kernelLeaf, reservedPmm 1024⟩, none, fun _ _ => 0⟩

section

variable {virt : ℕ} {leaf : Pte}

theorem lonePage_one (i : ℕ) :
    lonePage virt leaf 1 i = if i = pml4Idx virt then tableEntry 2 else 0 := by
  simp [lonePage]

theorem lonePage_two (i : ℕ) :
    lonePage virt leaf 2 i = if i = pdptIdx virt then tableEntry 3 else 0 := by
  simp [lonePage]

theorem lonePage_three (i : ℕ) : lonePage virt leaf 3 i = if i = pdIdx virt then leaf else 0 := by
  simp [lonePage]

theorem layout_lonePage (hhigh : 256 ≤ pml4Idx virt) :
    Layout (lonePos virt) (lonePage virt kernelLeaf) := by
  -- an entry that is present is on the way to the page
  have hpresent : ∀ {i j : ℕ} {e : Pte}, Has (if i = j then e else 0) ptPresent → i = j := by
    intro i j e h
    by_contra hne
    rw [if_neg hne] at h
    exact not_has_zero _ h
  refine ⟨?_⟩
  intro f p hp _ i _ h hsmall
  unfold lonePos at hp
  by_cases h1 : f = 1
  · subst h1
    cases hp
    rw [lonePage_one] at h ⊢
    rw [hpresent h, if_pos rfl, child_kernel hhigh]
    rfl
  by_cases h2 : f = 2
  · subst h2
    cases hp
    rw [lonePage_two] at h ⊢
    rw [hpresent h, if_pos rfl]
    rfl
  rw [if_neg h1, if_neg h2] at hp
  split at hp
  next h3 =>
    subst h3
    cases hp
    rw [lonePage_three] at h hsmall
    rw [hpresent h, if_pos rfl] at hsmall
    exact absurd (by decide) (hsmall (by simp))
  next => cases hp

theorem walk_lonePage (hleaf : ¬ Has leaf ptPresent ∨ Has leaf ptHuge) :
    walk (lonePage virt leaf) 1 virt = [tableEntry 2, tableEntry 3, leaf] := by
  unfold walk
  rw [lonePage_one, if_pos rfl, if_neg (by decide), show frameOf (tableEntry 2) = 2 by decide,
    lonePage_two, if_pos rfl, if_neg (by decide), show frameOf (tableEntry 3) = 3 by decide,
    lonePage_three, if_pos rfl, if_pos hleaf]

theorem setEntry_lonePage (s : PmmState) (e : Pte) :
    Mm.setEntry ⟨lonePage virt leaf, s⟩ 3 (pdIdx virt) e = ⟨lonePage virt e, s⟩ := by
  have htables : (Mm.setEntry ⟨lonePage virt leaf, s⟩ 3 (pdIdx virt) e).tables =
      lonePage virt e := by
    funext f i
    rw [setEntry_apply]
    by_cases hat : f = 3 ∧ i = pdIdx virt
    · simp [lonePage, hat]
    · simp [lonePage, hat]
  rw [← htables]
  rfl

theorem lone_links : (Has (tableEntry 2) ptPresent ∧ frameOf (tableEntry 2) = 2 ∧
      isValidTablePhys (reservedPmm 1024) (physOf (tableEntry 2)) = true) ∧
    Has (tableEntry 3) ptPresent ∧ ¬ Has (tableEntry 3) ptHuge ∧ frameOf (tableEntry 3) = 3 ∧
      isValidTablePhys (reservedPmm 1024) (physOf (tableEntry 3)) = true := by
  decide

/-- The indices of an address are those of the page. -/
def SamePage (v virt : ℕ) : Prop :=
  pml4Idx v = pml4Idx virt ∧ pdptIdx v = pdptIdx virt ∧ pdIdx v = pdIdx virt

/-- Another address leads to an entry that is zero. -/
theorem lonePage_miss {v : ℕ} (hmiss : ¬ (SamePage v virt ∧ leaf ≠ 0)) :
    lonePage virt leaf 1 (pml4Idx v) = 0 ∨ lonePage virt leaf 1 (pml4Idx v) = tableEntry 2 ∧
      (lonePage virt leaf 2 (pdptIdx v) = 0 ∨
        lonePage virt leaf 2 (pdptIdx v) = tableEntry 3 ∧ lonePage virt leaf 3 (pdIdx v) = 0) := by
  rw [lonePage_one, lonePage_two, lonePage_three]
  by_cases h4 : pml4Idx v = pml4Idx virt
  · by_cases h3 : pdptIdx v = pdptIdx virt
    · have h2 : pdIdx v = pdIdx virt → leaf = 0 := by simpa [SamePage, h4, h3] using hmiss
      rw [if_pos h4, if_pos h3]
      exact .inr ⟨rfl, .inr ⟨rfl, ite_eq_right_iff.2 h2⟩⟩
    · simp [h4, h3]
  · simp [h4]

/-- Unmapping a page leaves these tables alone or clears the entry of the page. -/
theorem unmap_lonePage (hhigh : 256 ≤ pml4Idx virt) (hleaf : leaf = kernelLeaf ∨ leaf = 0)
    (cpu v : ℕ) : ∃ leaf', (mmuUnmapPageUnlocked cpu ⟨lonePage virt leaf, reservedPmm 1024⟩ 1 v).1 =
        ⟨lonePage virt leaf', reservedPmm 1024⟩ ∧ (leaf' = kernelLeaf ∨ leaf' = 0) ∧
      (leaf = 0 ∨ v = virt → leaf' = 0) := by
  obtain ⟨⟨h2, hf2, hv2⟩, h3, h3', hf3, hv3⟩ := lone_links
  unfold mmuUnmapPageUnlocked
  dsimp only
  by_cases hhit : SamePage v virt ∧ leaf ≠ 0
  · obtain ⟨⟨e4, e3, e2⟩, hne⟩ := hhit
    obtain rfl := hleaf.resolve_right hne
    refine ⟨0, ?_, .inr rfl, fun _ => rfl⟩
    rw [e4, e3, e2, lonePage_one, if_pos rfl, if_neg (not_not.2 h2), hv2, if_neg (by decide), hf2,
      lonePage_two, if_pos rfl, if_neg (not_not.2 h3), if_neg h3', hv3, if_neg (by decide), hf3,
      lonePage_three, if_pos rfl, if_neg (by decide), if_neg (by decide), if_pos (by decide)]
    unfold unmapHuge
    dsimp only
    rw [setEntry_lonePage, lonePage_three, if_pos rfl, if_neg (not_lt.2 hhigh)]
    rfl
  · refine ⟨leaf, ?_, hleaf, ?_⟩
    · rcases lonePage_miss hhit with hz4 | ⟨he4, hz3 | ⟨he3, hz2⟩⟩
      · rw [hz4, if_pos (not_has_zero _)]
      · rw [he4, if_neg (not_not.2 h2), hv2, if_neg (by decide), hf2, hz3, if_pos (not_has_zero _)]
      · rw [he4, if_neg (not_not.2 h2), hv2, if_neg (by decide), hf2, he3, if_neg (not_not.2 h3),
          if_neg h3', hv3, if_neg (by decide), hf3, hz2, if_pos (not_has_zero _)]
    · rintro (hzero | rfl)
      · exact hzero
      · by_contra hne
        exact hhit ⟨⟨rfl, rfl, rfl⟩, hne⟩

/-- Protecting a page leaves these tables alone or gives the page to user programs. -/
theorem protect_lonePage (hleaf : Has leaf ptPresent ∧ Has leaf ptHuge) (s : PmmState)
    {v : ℕ} (hv : v % pageSize = 0) {flags : BitVec 32} (huser : Has flags mmuProtUser) :
    ∃ leaf', (mmuProtectPage ⟨lonePage virt leaf, s⟩ 1 v flags).1 = ⟨lonePage virt leaf', s⟩ ∧
      (Has leaf' ptPresent ∧ Has leaf' ptHuge) ∧
      (Has leaf ptUser ∨ v = virt → Has leaf' ptUser) := by
  obtain ⟨⟨h2, hf2, -⟩, h3, h3', hf3, -⟩ := lone_links
  have hlink : ¬ (¬ Has (tableEntry 3) ptPresent ∨ Has (tableEntry 3) ptHuge) :=
    not_or.2 ⟨not_not.2 h3, h3'⟩
  unfold mmuProtectPage
  dsimp only
  rw [if_neg (not_not.2 hv)]
  by_cases hhit : SamePage v virt ∧ leaf ≠ 0
  · obtain ⟨⟨e4, e3, e2⟩, -⟩ := hhit
    refine ⟨(leaf &&& pt2mAddrMask) ||| mmuFlagsToPte flags ||| ptHuge, ?_, ?_, fun _ => ?_⟩
    · rw [e4, e3, e2, lonePage_one, if_pos rfl, if_neg (not_not.2 h2), hf2, lonePage_two,
        if_pos rfl, if_neg hlink, hf3, lonePage_three, if_pos rfl, if_neg (not_not.2 hleaf.1),
        if_pos hleaf.2]
      exact setEntry_lonePage s _
    · simp only [has_or, has_present_mmuFlagsToPte, or_true, true_or, true_and]
      exact .inr (by decide)
    · simp only [has_or, has_user_mmuFlagsToPte, huser, or_true, true_or]
  · refine ⟨leaf, ?_, hleaf, ?_⟩
    · rcases lonePage_miss hhit with hz4 | ⟨he4, hz3 | ⟨he3, hz2⟩⟩
      · rw [hz4, if_pos (not_has_zero _)]
      · rw [he4, if_neg (not_not.2 h2), hf2, hz3, if_pos (.inl (not_has_zero _))]
      · rw [he4, if_neg (not_not.2 h2), hf2, he3, if_neg hlink, hf3, hz2, if_pos (not_has_zero _)]
    · rintro (h | rfl)
      · exact h
      · refine absurd ⟨⟨rfl, rfl, rfl⟩, ?_⟩ hhit
        rintro rfl
        exact not_has_zero _ hleaf.1

/-- A loop over pages: what one page keeps and brings about. -/
theorem loop_lonePage {f : Mm → ℕ → Mm} {s : PmmState} {P G : Pte → Prop} {addr : ℕ}
    (hone : ∀ leaf i, P leaf → ∃ leaf', f ⟨lonePage virt leaf, s⟩ i = ⟨lonePage virt leaf', s⟩ ∧
      P leaf' ∧ (G leaf ∨ pageAt addr i = virt → G leaf')) : ∀ (is : List ℕ) (leaf : Pte), P leaf →
    ∃ leaf', is.foldl f ⟨lonePage virt leaf, s⟩ = ⟨lonePage virt leaf', s⟩ ∧ P leaf' ∧
      (G leaf ∨ (∃ i ∈ is, pageAt addr i = virt) → G leaf') := by
  intro is
  induction is with
  | nil => exact fun leaf h => ⟨leaf, rfl, h, by simp⟩
  | cons i is ih =>
    intro leaf h
    obtain ⟨leaf₁, hfirst, h₁, hG₁⟩ := hone leaf i h
    obtain ⟨leaf', hrest, h', hG'⟩ := ih leaf₁ h₁
    refine ⟨leaf', by rw [foldl_cons, hfirst, hrest], h', ?_⟩
    rintro (hleaf | ⟨j, hj, hhit⟩)
    · exact hG' (.inl (hG₁ (.inl hleaf)))
    · rcases mem_cons.1 hj with rfl | hj
      · exact hG' (.inl (hG₁ (.inr hhit)))
      · exact hG' (.inr ⟨j, hj, hhit⟩)

end

theorem length_ne_zero_of_walked {addr length : ℕ} (hw : Walked addr length virt) : length ≠ 0 := by
  rintro rfl
  obtain ⟨-, i, hi, -⟩ := hw
  exact absurd hi (by simp [pageAlignUp, pageSize])

variable (hw : Walked addr.toNat length.toNat virt) (hhigh : 256 ≤ pml4Idx virt)

include hw hhigh in
theorem not_munmapSafe : ¬ MunmapSafe addr length := by
  intro hsafe
  have hkept := hsafe (lonePos virt) (loneVm virt) loneProc (layout_lonePage hhigh) rfl
    (fun _ s => s) 0 true virt hhigh
  have hlen := length_ne_zero_of_walked hw
  obtain ⟨halign, i, hi, hv⟩ := hw
  obtain ⟨leaf, hloop, -, hzero⟩ := loop_lonePage
    (f := fun m i => (mmuUnmapPageUnlocked 0 m 1 (pageAt addr.toNat i)).1)
    (P := fun leaf => leaf = kernelLeaf ∨ leaf = 0) (G := (· = 0))
    (fun _ i h => unmap_lonePage hhigh h 0 (pageAt addr.toNat i))
    (List.range (pageAlignUp length.toNat / pageSize)) kernelLeaf (.inl rfl)
  have hlen' : ¬ (pageAlignUp length.toNat = 0 ∨ addr.toNat % pageSize ≠ 0) := by
    rintro (h | h)
    · rw [h] at hi
      exact absurd hi (by simp)
    · exact h halign
  have hrun : (handleSysMunmap (fun _ s => s) 0 true (loneVm virt) loneProc addr.toNat
      length.toNat).1.mm.tables = lonePage virt leaf := by
    unfold handleSysMunmap
    rw [if_neg (by decide), if_neg hlen]
    dsimp only
    unfold vmmUnmap
    rw [if_neg hlen', pageAlignUp_twice]
    dsimp only
    unfold mmuUnmapPages
    rw [if_neg (not_not.2 halign)]
    exact congrArg Mm.tables hloop
  rw [hrun, hzero (.inr ⟨i, mem_range.2 hi, hv⟩)] at hkept
  -- the entry is gone
  have hwalks : walk (lonePage virt 0) 1 virt = walk (lonePage virt kernelLeaf) 1 virt := hkept
  rw [walk_lonePage (by decide), walk_lonePage (by decide)] at hwalks
  exact absurd hwalks (by decide)

include hw hhigh in
theorem not_mprotectSafe (prot : BitVec 32) : ¬ MprotectSafe addr length prot := by
  intro hsafe
  have hkept := hsafe (lonePos virt) (loneVm virt) loneProc (layout_lonePage hhigh) rfl virt hhigh
  have hlen := length_ne_zero_of_walked hw
  obtain ⟨halign, i, hi, hv⟩ := hw
  have hprotect : ∀ prot, ∃ leaf, (vmmProtect (loneVm virt) loneProc.space addr.toNat length.toNat
      prot).1.mm.tables = lonePage virt leaf ∧ Has leaf ptHuge ∧ Has leaf ptUser := by
    intro prot
    have huser : Has (prot ||| mmuProtUser) mmuProtUser := (has_or _ _ _).2 (.inr (by decide))
    have hpage : ∀ i, pageAt addr.toNat i % pageSize = 0 := by
      intro i
      unfold pageAt pageSize at *
      omega
    unfold vmmProtect
    rw [if_neg (not_or.2 ⟨hlen, not_not.2 halign⟩)]
    obtain ⟨leaf, hloop, ⟨-, hhuge⟩, hgiven⟩ := loop_lonePage
      (f := fun m i => (mmuProtectPage m 1 (pageAt addr.toNat i) (prot ||| mmuProtUser)).1)
      (P := fun leaf => Has leaf ptPresent ∧ Has leaf ptHuge) (G := (Has · ptUser))
      (fun _ i h => protect_lonePage h (reservedPmm 1024) (hpage i) huser)
      (List.range (pageAlignUp length.toNat / pageSize)) kernelLeaf (by decide)
    exact ⟨leaf, congrArg Mm.tables hloop, hhuge, hgiven (.inr ⟨i, mem_range.2 hi, hv⟩)⟩
  obtain ⟨leaf, htables, hhuge, hgiven⟩ : ∃ leaf, (handleSysMprotect (loneVm virt) loneProc
      addr.toNat length.toNat prot).1.mm.tables = lonePage virt leaf ∧ Has leaf ptHuge ∧
      Has leaf ptUser := hprotect _
  rw [htables] at hkept
  have hwalks : walk (lonePage virt leaf) 1 virt = walk (lonePage virt kernelLeaf) 1 virt := hkept
  rw [walk_lonePage (.inr hhuge), walk_lonePage (by decide)] at hwalks
  obtain rfl : leaf = kernelLeaf := by simpa using hwalks
  exact absurd hgiven (by decide)

/-- The calls keep the kernel half of every process exactly when no page of the range is in it. -/
theorem user_ranges_safe_iff (addr length : BitVec 64) (prot : BitVec 32) :
    (MunmapSafe addr length ↔ ∀ virt, Walked addr.toNat length.toNat virt → pml4Idx virt < 256) ∧
    (MprotectSafe addr length prot ↔
      ∀ virt, Walked addr.toNat length.toNat virt → pml4Idx virt < 256) := by
  refine ⟨⟨?_, munmapSafe_of_user⟩, ⟨?_, mprotectSafe_of_user prot⟩⟩
  · intro hsafe virt hw
    by_contra hhigh
    exact not_munmapSafe hw (not_lt.1 hhigh) hsafe
  · intro hsafe virt hw
    by_contra hhigh
    exact not_mprotectSafe hw (not_lt.1 hhigh) prot hsafe

/-- The first page of the kernel's heap area is unmapped by one call of a user program, and opened
to user programs by another. -/
theorem kernel_page_reached : ¬ MunmapSafe 0xFFFFC00000000000#64 4096#64 ∧
      ¬ MprotectSafe 0xFFFFC00000000000#64 4096#64 protRead := by
  have hw : Walked (0xFFFFC00000000000#64).toNat (4096#64).toNat 0xFFFFC00000000000 :=
    ⟨by decide, 0, by decide, by decide⟩
  exact ⟨not_munmapSafe hw (by decide), not_mprotectSafe hw (by decide) _⟩

end BoredOS.Sys.SyscallMem
