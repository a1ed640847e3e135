import BoredOS.Mem.Vmm.Clone
import BoredOS.Mem.Vmm.Fault
import BoredOS.Mem.Vmm.Protect
import BoredOS.Mem.Vmm.Unmap

/-!
# The Calls of a Machine

`vmmStep` runs one call of `mem/vmm.c` on the space that it names. `Tidy` is what the calls are to
keep besides `Sound`: the areas of a space end in the user half, and every page that is mapped lies
in an area whose type and flags stand in a given relation to the entry. The relation is an argument:
permissions are one instance, the kind of memory that is mapped is another.
-/

namespace BoredOS.Mem.Vmm

open Function List Machine Lib.Intervals Lib.Tally Lib.TableTree Pmm Mmu
open Option (bind_eq_bind bind_some map_some some.inj)

variable {s s' : Machine} {sp sp' : Space} {addr r length : ℕ} {areaMem : Area → Bool}
  {P : VmaType → BitVec 32 → Pte → Prop}

/-! ## One call -/

/-- The calls of `mem/vmm.c`. `r` names the space, `mem` and `areaMem` tell whether the records that
a call needs find memory. -/
inductive VmmCall where
  | create (cpu : ℕ) (mem : Bool)
  | map (r : ℕ) (mem : Bool) (hint length : ℕ) (prot flags : BitVec 32) (file : Option ℕ)
      (offset : ℕ)
  | protect (r addr length : ℕ) (prot : BitVec 32)
  | unmap (cpu : ℕ) (mem : Bool) (r addr length : ℕ)
  | clone (cpu : ℕ) (mem : Bool) (areaMem : Area → Bool) (r : ℕ)
  | fault (cpu r addr : ℕ) (code : BitVec 32) (rsp : Option ℕ)
  | brk (cpu : ℕ) (mem : Bool) (r newBrk : ℕ)
  | destroy (cpu r : ℕ)

def Machine.addSpace (s : Machine) : Option Space → Machine
  | none => s
  | some sp => s.setSpace sp.pml4 sp

/-- The machine after `vmm_protect`. -/
def protectedBy (s : Machine) (r : ℕ) (sp : Space) (addr length : ℕ) (prot : BitVec 32) : Machine :=
  setSpace { s with vm := (vmmProtect s.vm sp addr length prot).1 } r
    (vmmProtect s.vm sp addr length prot).2.1

/-- One call; `kernel` is the PML4 of the kernel. There is no result if the space does not exist. -/
def vmmStep (kernel : ℕ) (s : Machine) : VmmCall → Option Machine
  | .create cpu mem => do
    let (m, sp) ← vmmCreateSpace cpu mem s.vm.mm kernel
    some ((s.withMm m).addSpace sp)
  | .map r mem hint length prot flags file offset => do
    let sp ← s.spaces r
    some (s.setSpace r (vmmMap mem sp hint length prot flags file offset).1)
  | .protect r addr length prot => do
    let sp ← s.spaces r
    some (protectedBy s r sp addr length prot)
  | .unmap cpu mem r addr length => do
    let sp ← s.spaces r
    some (unmapped cpu mem s r sp addr length)
  | .clone cpu mem areaMem r => do
    let sp ← s.spaces r
    let (m, sp, child) ← vmmCloneSpace cpu mem areaMem s.vm.mm kernel sp
    some (((s.withMm m).setSpace r sp).addSpace child)
  | .fault cpu r addr code rsp => do
    let sp ← s.spaces r
    let (vm, sp, _) ← vmmHandlePageFault cpu s.vm sp addr code rsp
    some (setSpace { s with vm := vm } r sp)
  | .brk cpu mem r newBrk => do
    let sp ← s.spaces r
    let res := vmmBrk cpu mem s.vm sp newBrk
    some (setSpace { s with vm := res.vm } r res.space)
  | .destroy cpu r => do
    let sp ← s.spaces r
    let (m, sp) := vmmDestroySpace cpu s.vm.zeroPage s.vm.mm kernel sp
    some { s.withMm m with spaces := update s.spaces r sp }

def VmmCall.space : VmmCall → Option ℕ
  | .create .. => none
  | .map r .. | .protect r .. | .unmap _ _ r .. | .clone _ _ _ r | .fault _ r .. | .brk _ _ r ..
  | .destroy _ r => some r

def VmmCall.Live (s : Machine) (call : VmmCall) : Prop :=
  ∀ r, call.space = some r → ∃ sp, s.spaces r = some sp

variable {flags : BitVec 32} {kernel : ℕ} {prot : BitVec 32}

theorem VmmCall.live_of_step {s' : Machine} {call : VmmCall}
    (h : vmmStep kernel s call = some s') : call.Live s := by
  intro r hr
  cases call with
  | create => cases hr
  | _ =>
    cases hr
    obtain ⟨sp, hsp, -⟩ := Option.bind_eq_some_iff.1 h
    exact ⟨sp, hsp⟩

theorem setSpace_self (hr : s.spaces r = some sp) : s.setSpace r sp = s := by
  unfold setSpace
  rw [← hr, update_eq_self]

/-- Runs start when `vmm_init` has taken the zero page from an allocator in good order. The tables
of the kernel are not in frames of the allocator. -/
def vmmSystem (kernel : ℕ) : BoredOS.Lib.Transition.System Machine VmmCall where
  init s := s.spaces = (fun _ => none) ∧ ∃ U data L m cpu bytes, Inv U m.pmm data L ∧
    m.pmm.totalPageCount ≤ 2 ^ 40 ∧ 0 ∉ U ∧ kernel ∉ U ∧ vmmInit cpu m bytes = some s.vm
  step s call s' := vmmStep kernel s call = some s'

def vmmRun (kernel : ℕ) (s : Machine) (calls : List VmmCall) : Option Machine :=
  calls.foldlM (vmmStep kernel) s

/-- The runs of the machine with two regions of memory start here, with any tables outside of the
allocator's frames. -/
theorem init_twoRegions (tables : ℕ → ℕ → Pte) (hkernel : kernel ∉ usablePages twoRegions) : ∃ vm,
      ((pmmInit twoRegions).bind fun s => vmmInit 0 ⟨tables, s⟩ fun _ _ => 0) = some vm ∧
      (vmmSystem kernel).init ⟨vm, fun _ => none⟩ := by
  obtain ⟨s, L, hinit, hnarrow, hinv⟩ := pmmInit_twoRegions
  obtain ⟨vm, hrun, -⟩ := Sound.init unshared (m := ⟨tables, s⟩) hinv hnarrow
    null_not_mem_twoRegions 0 fun _ _ => 0
  refine ⟨vm, ?_, rfl, _, _, L, ⟨tables, s⟩, 0, _, hinv, hnarrow, null_not_mem_twoRegions,
    hkernel, hrun⟩
  rw [hinit]
  exact hrun

/-- There are no tables yet, and frame 0 stands for the PML4 of the kernel. -/
theorem init_boot : ∃ vm, bootVm = some vm ∧ (vmmSystem 0).init ⟨vm, fun _ => none⟩ :=
  init_twoRegions (fun _ _ => 0) null_not_mem_twoRegions

/-! ## Tidy machines -/

/-- The record of a space keeps to the user half. -/
structure Space.Framed (sp : Space) : Prop where
  bounded : ∀ a ∈ sp.vmas, a.end_ ≤ 2 ^ 47
  record : sp.mmapEnd ≤ 2 ^ 47

section

theorem Space.Framed.fresh (r : ℕ) : (freshSpace r).Framed :=
  ⟨(nomatch ·, ·), (by decide : userMmapEnd ≤ 2 ^ 47)⟩

section

variable (h : sp.Framed)

include h

theorem Space.Framed.map (hwf : WellFormed sp.vmas) (mem : Bool) (hint length : ℕ)
    (prot flags : BitVec 32) (file : Option ℕ) (offset : ℕ) :
    (vmmMap mem sp hint length prot flags file offset).1.Framed := by
  refine ⟨vmmMap_bounded (by decide) h.record h.bounded fun a ha => (hwf.good a ha).nonempty, ?_⟩
  rcases vmmMap_cases mem sp hint length prot flags file offset with
    heq | ⟨a, start, -, -, -, -, heq⟩
  · rw [heq]
    exact h.record
  · rw [heq]
    exact h.record

theorem Space.Framed.unmap (hwf : WellFormed sp.vmas) (mem : Bool) {end_ : ℕ}
    (haddr : addr % pageSize = 0) (hend : end_ % pageSize = 0) :
    { sp with vmas := sp.vmas.flatMap (remnants mem addr end_) : Space }.Framed := by
  refine ⟨?_, h.record⟩
  intro b hb
  obtain ⟨a, ha, hb⟩ := mem_flatMap.1 hb
  exact le_trans ((remnants_wellFormed mem (hwf.good a ha) haddr hend).2 b hb).2 (h.bounded a ha)

theorem Space.Framed.parent : (parentSpace sp).Framed := by
  refine ⟨?_, h.record⟩
  intro b hb
  obtain ⟨a, ha, rfl⟩ := mem_map.1 hb
  exact h.bounded a ha

theorem Space.Framed.child (hwf : WellFormed sp.vmas) (areaMem : Area → Bool)
    (c : ℕ) : (clonedSpace areaMem sp c).Framed := by
  refine ⟨?_, h.record⟩
  intro b hb
  rw [show (clonedSpace areaMem sp c).vmas = parentAreas (sp.vmas.filter areaMem) from
    childAreas_eq areaMem hwf] at hb
  obtain ⟨a, ha, rfl⟩ := mem_map.1 hb
  exact h.bounded a (mem_filter.1 ha).1

theorem Space.Framed.grown {page : ℕ} {vmas' : List Area}
    (hgrown : GrownStack page sp.vmas vmas') : { sp with vmas := vmas' : Space }.Framed := by
  refine ⟨?_, h.record⟩
  intro b hb
  rcases hgrown.mem hb with hb | ⟨stack, hstack, rfl⟩
  · exact h.bounded b hb
  · exact h.bounded stack hstack

end

end

/-- The areas and the entries of a space are in order: `P` relates the type and the flags of an area
to the entries in it. -/
structure Fits (P : VmaType → BitVec 32 → Pte → Prop) (s : Machine) (r : ℕ) (sp : Space) : Prop
    extends sp.Framed where
  pages : ∀ v, UserPage v → Has (s.entry r v) ptPresent →
    ∃ a ∈ sp.vmas, a.Covers v ∧ P a.type a.flags (s.entry r v)

def Tidy (P : VmaType → BitVec 32 → Pte → Prop) (s : Machine) : Prop :=
  ∀ r sp, s.spaces r = some sp → Fits P s r sp

section

variable {v : ℕ}

theorem Fits.covered (h : Fits P s r sp) : Covered s r sp.vmas := by
  intro v hv hpresent
  obtain ⟨a, ha, hav, -⟩ := h.pages v hv hpresent
  exact ⟨a, ha, hav⟩

/-- The relation holds for the area around a page that is mapped. -/
theorem Fits.page (h : Fits P s r sp) (hwf : WellFormed sp.vmas) {a : Area} (ha : a ∈ sp.vmas)
    (hav : a.Covers v) (hv : UserPage v) (hpresent : Has (s.entry r v) ptPresent) :
    P a.type a.flags (s.entry r v) := by
  obtain ⟨b, hb, hbv, hP⟩ := h.pages v hv hpresent
  obtain rfl := hwf.separated.unique hb ha hbv hav
  exact hP

/-- The entries of a space are as they were. -/
theorem Fits.congr (h : Fits P s r sp) (hentry : ∀ v, UserPage v → s'.entry r v = s.entry r v) :
    Fits P s' r sp := by
  refine ⟨h.toFramed, ?_⟩
  intro v hv
  rw [hentry v hv]
  exact h.pages v hv

/-- One space changes, the others keep their entries. -/
theorem Tidy.replace (h : Tidy P s) (hspaces : ∀ r', s'.spaces r' =
      if r' = r then some sp' else s.spaces r')
    (hothers : ∀ r' sp'' v, s.spaces r' = some sp'' → r' ≠ r → UserPage v →
      s'.entry r' v = s.entry r' v) (hself : Fits P s' r sp') : Tidy P s' := by
  intro r' sp'' hr'
  rw [hspaces] at hr'
  split at hr'
  next heq =>
    cases hr'
    rw [heq]
    exact hself
  next hne => exact (h r' sp'' hr').congr fun v => hothers r' sp'' v hr' hne

/-- The tables are as they were. -/
theorem Tidy.withMm (h : Tidy P s) {m : Mm} (htables : m.tables = s.vm.mm.tables) :
    Tidy P (s.withMm m) := by
  intro r sp hr
  apply (h r sp hr).congr
  intro v _
  show leaf m.tables r v = leaf s.vm.mm.tables r v
  rw [htables]

theorem Tidy.start (vm : Vm) : Tidy P ⟨vm, fun _ => none⟩ := fun _ _ hr => nomatch hr

end

/-! ## The calls one by one -/

variable {U T : Set ℕ} {data : ℕ → Option Grant} {pos : ℕ → Option Spot}
  (h : Sound unshared U data pos T s) (ht : Tidy P s) (hr : s.spaces r = some sp)

include h ht in
theorem Sound.step_create (kernel cpu : ℕ) (mem : Bool) :
    ∃ s', vmmStep kernel s (.create cpu mem) = some s' ∧
      (∃ pos' T', Sound unshared U data pos' T' s') ∧ Tidy P s' := by
  obtain ⟨m', res, hrun, -, hnone, hsome⟩ := h.create cpu mem kernel
  unfold vmmStep
  dsimp only
  rw [hrun, bind_eq_bind, bind_some]
  cases res with
  | none =>
    obtain ⟨hsound, htables⟩ := hnone rfl
    exact ⟨_, rfl, ⟨_, _, hsound⟩, ht.withMm htables⟩
  | some sp =>
    obtain ⟨f, rfl, -, hsound, hsame, hempty⟩ := hsome sp rfl
    refine ⟨_, rfl, ⟨_, _, hsound⟩, ?_⟩
    apply ht.replace (spaces_setSpace (s.withMm m') f (freshSpace f))
    · exact fun r sp v hr _ hv => hsame r sp v hr hv
    · refine ⟨.fresh f, ?_⟩
      intro v hv hpresent
      exact absurd hpresent (not_present_of_zero (hempty v hv))

include ht hr in
/-- The areas of a space change and the entries do not. -/
theorem Tidy.rearea (hframed : sp'.Framed) (hkept : AreasKept s r sp.vmas sp'.vmas) :
    Tidy P (s.setSpace r sp') := by
  apply ht.replace (spaces_setSpace s r _) fun _ _ _ _ _ _ => rfl
  refine ⟨hframed, ?_⟩
  intro v hv hpresent
  obtain ⟨a, ha, hav, hP⟩ := (ht r sp hr).pages v hv hpresent
  obtain ⟨b, hb, hbv, hflags, htype⟩ := hkept v hv hpresent a ha hav
  refine ⟨b, hb, hbv, ?_⟩
  rw [hflags, htype]
  exact hP

include h ht hr in
/-- `vmm_map` takes in no page that is mapped. -/
theorem Sound.step_map (mem : Bool) (hint length : ℕ) (prot flags : BitVec 32)
    (file : Option ℕ) (offset : ℕ)
    (hsp' : (vmmMap mem sp hint length prot flags file offset).1 = sp') :
    Sound unshared U data pos T (s.setSpace r sp') ∧ Tidy P (s.setSpace r sp') := by
  have hwf := h.wellFormed r sp hr
  have hfits := ht r sp hr
  have hwf' : WellFormed sp'.vmas := hsp' ▸ hwf.vmmMap
  have hframed : sp'.Framed := by
    rw [← hsp']
    exact hfits.toFramed.map hwf mem hint length prot flags file offset
  obtain ⟨vmas', rfl, hsub⟩ : ∃ vmas', sp' = { sp with vmas := vmas' } ∧
      ∀ a ∈ sp.vmas, a ∈ vmas' := by
    rcases vmmMap_cases mem sp hint length prot flags file offset with
      heq | ⟨a, start, -, -, -, -, heq⟩
    · refine ⟨sp.vmas, ?_, fun _ ha => ha⟩
      rw [← hsp', heq]
    · refine ⟨(vmaInsert sp.vmas a).1, ?_, fun _ => mem_vmaInsert_of_mem⟩
      rw [← hsp', heq]
  have hkept : AreasKept s r sp.vmas vmas' := fun _ _ _ a ha hav => ⟨a, hsub a ha, hav, rfl, rfl⟩
  exact ⟨h.rearea hr hfits.covered _ rfl hwf' hkept, ht.rearea hr hframed hkept⟩

/-! ### Protection -/

/-- An entry after `mmu_protect_page`. -/
def protectEntry (flags : BitVec 32) (e : Pte) : Pte :=
  if Has e ptPresent then (e &&& ptAddrMask) ||| mmuFlagsToPte flags else e

theorem has_protected (flags : BitVec 32) (e : Pte) {mask : Pte} (hmask : ptAddrMask &&& mask = 0) :
    Has ((e &&& ptAddrMask) ||| mmuFlagsToPte flags) mask ↔ Has (mmuFlagsToPte flags) mask := by
  rw [has_or]
  exact or_iff_right (not_has_and _ _ _ hmask)

theorem present_protectEntry (flags : BitVec 32) (e : Pte) :
    Has (protectEntry flags e) ptPresent ↔ Has e ptPresent := by
  unfold protectEntry
  split
  next hpresent =>
    rw [has_protected flags e (by decide)]
    exact ⟨fun _ => hpresent, fun _ => has_present_mmuFlagsToPte flags⟩
  next => exact .rfl

section

variable (hflags : ¬ (Has flags mmuFlagWc ∧ Has flags mmuFlagHuge2m))

include hflags

theorem frameOf_protectEntry (e : Pte) : frameOf (protectEntry flags e) = frameOf e := by
  unfold protectEntry
  split
  · exact frameOf_and_or e (mmuFlagsToPte_and_addrMask hflags)
  · rfl

/-- Only the address of the old entry matters. -/
theorem protectEntry_idem (e : Pte) :
    protectEntry flags (protectEntry flags e) = protectEntry flags e := by
  by_cases hpresent : Has e ptPresent
  · have hpresent' := (present_protectEntry flags e).2 hpresent
    have hmask := mmuFlagsToPte_and_addrMask hflags
    unfold protectEntry at hpresent' ⊢
    rw [if_pos hpresent] at hpresent' ⊢
    rw [if_pos hpresent', or_and_distrib, hmask, BitVec.and_assoc, BitVec.and_self]
    simp
  · unfold protectEntry
    rw [if_neg hpresent, if_neg hpresent]

theorem protectPages_spec (vs : List ℕ) {m : Mm}
    (hw : World 256 U data pos T m) (hr : pos r = some (r, [])) (hvs : ∀ v ∈ vs, UserPage v) :
    ∃ pos' T', Changed U data pos m r (protectEntry flags) (· ∈ vs)
      (vs.foldl (fun m v => (mmuProtectPage m r v flags).1) m) pos' T' := by
  apply changePages_spec (protectEntry_idem hflags) _ vs pos T m hw hr hvs
  intro pos T m v hw hr hv
  obtain ⟨hworld, hspared, hcases⟩ := mmuProtectPage_spec hw hr hv.page.governed hv.1 flags
  refine ⟨pos, T, hworld, .refl pos, hspared, ?_⟩
  intro r' v' hr' hv'
  unfold protectEntry
  rcases hcases with ⟨habsent, -, hsame⟩ | ⟨hpresent, -, hleaf⟩
  · rw [hsame]
    split
    next heq =>
      obtain ⟨rfl, rfl⟩ := heq
      rw [if_neg habsent]
    next => rfl
  · rw [hleaf r' v' hr' hv'.page.governed]
    simp only [indices_inj hv'.page hv.page]
    split
    next heq =>
      obtain ⟨rfl, rfl⟩ := heq
      rw [if_pos hpresent]
    next => rfl

end

theorem protectArea_kind (addr end_ : ℕ) (prot : BitVec 32) (a : Area) :
    (protectArea addr end_ prot a).type = a.type ∧
      (Has (protectArea addr end_ prot a).flags vmaFlagShared ↔ Has a.flags vmaFlagShared) := by
  unfold protectArea
  split
  next =>
    refine ⟨rfl, ?_⟩
    rw [has_or, has_and _ _ _ (by decide)]
    apply or_iff_left
    unfold vmaFlagsOf
    split <;> split <;> split <;> decide
  next => exact ⟨rfl, Iff.rfl⟩

/-- `mprotect` adds the user bit to the protection, and no caching or size bit. -/
theorem not_wc_huge_user (hflags : ¬ (Has prot mmuFlagWc ∧ Has prot mmuFlagHuge2m)) :
    ¬ (Has (prot ||| mmuProtUser) mmuFlagWc ∧ Has (prot ||| mmuProtUser) mmuFlagHuge2m) := by
  rw [has_or, has_or]
  rintro ⟨hwc | hwc, hhuge | hhuge⟩
  · exact hflags ⟨hwc, hhuge⟩
  · exact absurd hhuge (by decide)
  · exact absurd hwc (by decide)
  · exact absurd hwc (by decide)

/-- A change of the protection keeps what the references of a page depend on. -/
theorem areaKind_protect {l : List Area} (hwf : WellFormed l) (start end_ : ℕ) (prot : BitVec 32)
    (v : ℕ) : areaKind (l.map (protectArea start end_ prot)) v = areaKind l v := by
  unfold areaKind
  rw [find_protect hwf, Option.map_map]
  congr 2
  funext a
  obtain ⟨htype, hshared⟩ := protectArea_kind start end_ prot a
  simp only [comp_apply, htype, hshared]

include h in
theorem Sound.protectedBy_eq (hr : s.spaces r = some sp) (haddr : addr % pageSize = 0)
    (hlen : 0 < length) (hle : rangeEnd addr length ≤ 2 ^ 47) :
    protectedBy s r sp addr length prot = (s.withMm
      ((pagesIn addr (rangeEnd addr length)).foldl
        (fun m v => (mmuProtectPage m r v (prot ||| mmuProtUser)).1) s.vm.mm)).setSpace r
      { sp with vmas := sp.vmas.map (protectArea addr (rangeEnd addr length) prot) } := by
  obtain ⟨hword, hcount⟩ := pageAlignUp_range hle
  unfold protectedBy vmmProtect
  rw [if_neg (by omega), h.pml4 r sp hr]
  dsimp only
  rw [hword, hcount]
  unfold pagesIn
  rw [foldl_map]
  rfl

include h ht hr in
/-- `mprotect` keeps the references, since a page of the range keeps its frame. -/
theorem Sound.step_protect (haddr : addr % pageSize = 0) (hlen : 0 < length)
    (hle : rangeEnd addr length ≤ 2 ^ 47) (hflags : ¬ (Has prot mmuFlagWc ∧ Has prot mmuFlagHuge2m))
    (hP : ∀ a ∈ sp.vmas, ∀ v, a.Covers v → UserPage v → Has (s.entry r v) ptPresent →
      P a.type (protectArea addr (rangeEnd addr length) prot a).flags
        (if addr ≤ v ∧ v < rangeEnd addr length then
          protectEntry (prot ||| mmuProtUser) (s.entry r v) else s.entry r v)) :
    (∃ pos' T', Sound unshared U data pos' T' (protectedBy s r sp addr length prot)) ∧
      Tidy P (protectedBy s r sp addr length prot) := by
  have hwf := h.wellFormed r sp hr
  have hfits := ht r sp hr
  have hend := rangeEnd_aligned haddr length
  have hflags' := not_wc_huge_user hflags
  obtain ⟨pos', T', hchanged⟩ := protectPages_spec hflags' (pagesIn addr (rangeEnd addr length))
    h.world (h.root_pos hr) fun v hv => ((mem_pagesIn haddr hend hle).1 hv).1
  rw [h.protectedBy_eq hr haddr hlen hle]
  generalize (pagesIn addr (rangeEnd addr length)).foldl
    (fun m v => (mmuProtectPage m r v (prot ||| mmuProtUser)).1) s.vm.mm = m' at hchanged ⊢
  have hview : ∀ r' sp' v, s.spaces r' = some sp' → UserPage v → leaf m'.tables r' v =
      if r' = r then (if addr ≤ v ∧ v < rangeEnd addr length then
        protectEntry (prot ||| mmuProtUser) (s.entry r v) else s.entry r v) else s.entry r' v := by
    intro r' sp' v hr' hv
    rw [hchanged.entries r' v (h.root_pos hr') hv]
    simp only [mem_pagesIn haddr hend hle, hv, true_and]
    by_cases heq : r' = r
    · subst heq
      simp only [true_and, if_true]
      rfl
    · simp only [heq, false_and, if_false]
      rfl
  have hrefs : refsOf unshared (s.withMm m') = refsOf unshared s := by
    funext k
    rw [refsOf_withMm hr hview]
    split
    next hk =>
      obtain ⟨rfl, hv⟩ := hk
      rw [refsOf_space hr hv]
      split
      · exact refOf_congr (present_protectEntry _ _) (frameOf_protectEntry hflags' _) rfl
      · rfl
    next => rfl
  have hsound : Sound unshared U data pos' T' (s.withMm m') := by
    apply h.withMm hchanged.world hchanged.roots hchanged.spared.total
    rw [hrefs]
    exact h.accounts.spared hchanged.spared
  have hbounds := protectArea_bounds addr (rangeEnd addr length) prot
  refine ⟨⟨pos', T', ?_⟩, ?_⟩
  · refine hsound.respace (s := s.withMm m') hr ?_ (hwf.map hbounds) ?_
    · rfl
    intro v _
    apply refOf_congr Iff.rfl rfl
    exact congrArg unshared (areaKind_protect hwf ..)
  · apply ht.replace (spaces_setSpace (s.withMm m') r _)
    · intro r' sp' v hr' hne hv
      exact (hview r' sp' v hr' hv).trans (if_neg hne)
    · refine ⟨⟨?_, hfits.record⟩, ?_⟩
      · intro b hb
        obtain ⟨a, ha, rfl⟩ := mem_map.1 hb
        rw [(hbounds a).2]
        exact hfits.bounded a ha
      · intro v hv hpresent
        have hat : ((s.withMm m').setSpace r { sp with
            vmas := sp.vmas.map (protectArea addr (rangeEnd addr length) prot) }).entry r v = _ :=
          (hview r sp v hr hv).trans (if_pos rfl)
        rw [hat] at hpresent ⊢
        have hold : Has (s.entry r v) ptPresent := by
          split at hpresent
          · exact (present_protectEntry _ _).1 hpresent
          · exact hpresent
        obtain ⟨a, ha, hav, -⟩ := hfits.pages v hv hold
        refine ⟨_, mem_map_of_mem ha, ?_, ?_⟩
        · show (protectArea addr _ prot a).start ≤ v ∧ v < (protectArea addr _ prot a).end_
          rw [(hbounds a).1, (hbounds a).2]
          exact hav
        · rw [(protectArea_kind addr _ prot a).1]
          exact hP a ha v hav hv hold

/-! ### Unmapping, cloning and faults -/

include h ht hr in
/-- `vmm_unmap` leaves pieces of the areas and clears the entries between them. -/
theorem Sound.step_unmap (cpu : ℕ) (mem : Bool) (haddr : addr % pageSize = 0)
    (hlen : 0 < length) (hle : rangeEnd addr length ≤ 2 ^ 47)
    (hentry : ∀ r' sp' v, s.spaces r' = some sp' → UserPage v →
      (unmapped cpu mem s r sp addr length).entry r' v =
        if r' = r ∧ addr ≤ v ∧ v < rangeEnd addr length then 0 else s.entry r' v) :
    Tidy P (unmapped cpu mem s r sp addr length) := by
  have hwf := h.wellFormed r sp hr
  have hend := rangeEnd_aligned haddr length
  have hfits := ht r sp hr
  have hspace := vmmUnmap_space cpu mem s.vm hwf haddr hlen hle
  have hspaces : ∀ r', (unmapped cpu mem s r sp addr length).spaces r' = if r' = r then
      some (vmmUnmap cpu mem s.vm sp addr length).2.1 else s.spaces r' :=
    spaces_setSpace { s with vm := (vmmUnmap cpu mem s.vm sp addr length).1 } r _
  apply ht.replace hspaces
  · intro r' sp' v hr' hne hv
    exact (hentry r' sp' v hr' hv).trans (if_neg fun hc => hne hc.1)
  · rw [hspace]
    refine ⟨hfits.toFramed.unmap hwf mem haddr hend, ?_⟩
    intro v hv hpresent
    rw [hentry r sp v hr hv] at hpresent ⊢
    by_cases hin : addr ≤ v ∧ v < rangeEnd addr length
    · rw [if_pos ⟨rfl, hin⟩] at hpresent
      exact absurd hpresent (not_present_of_zero rfl)
    · rw [if_neg fun hc => hin hc.2] at hpresent ⊢
      obtain ⟨a, ha, hav, hP⟩ := hfits.pages v hv hpresent
      obtain ⟨b, hb, hbv, -⟩ := find_unmap_outside mem hwf haddr hend
        (lt_rangeEnd addr hlen) hin ha hav
      obtain ⟨hflags, htype⟩ := remnants_kind mem hb
      refine ⟨b, mem_flatMap.2 ⟨a, ha, hb⟩, hbv, ?_⟩
      rw [hflags, htype]
      exact hP

/-- No area of a page that is mapped is missing from the child of a clone. -/
def AreasCreated (s : Machine) (r : ℕ) (areaMem : Area → Bool) (vmas : List Area) : Prop :=
  ∀ a ∈ vmas, areaMem a = false → ∀ v, UserPage v → a.Covers v → ¬ Has (s.entry r v) ptPresent

/-- The child has an area around every page that is mapped in the parent. -/
theorem Fits.childArea (h : Fits P s r sp) (hwf : WellFormed sp.vmas)
    (hareas : AreasCreated s r areaMem sp.vmas) {v : ℕ} (hv : UserPage v)
    (hpresent : Has (s.entry r v) ptPresent) :
    ∃ a ∈ sp.vmas, a.Covers v ∧ vmaFind (childAreas areaMem sp.vmas) v =
      some { a with flags := cloneFlags a.flags } := by
  obtain ⟨a, ha, hav, -⟩ := h.pages v hv hpresent
  refine ⟨a, ha, hav, ?_⟩
  have hkept : areaMem a = true := by
    cases hmem : areaMem a with
    | true => rfl
    | false => exact absurd hpresent (hareas a ha hmem v hv hav)
  have hfind : vmaFind (sp.vmas.filter areaMem) v = some a :=
    (hwf.sublist filter_sublist).find_eq_some.2 ⟨mem_filter.2 ⟨ha, hkept⟩, hav⟩
  rw [childAreas_eq areaMem hwf, find_parentAreas, hfind, map_some]

section

variable {c : ℕ}

theorem Cloned.fits_parent (h : Cloned U s s' r c sp) (hfits : Fits P s r sp)
    (hP : ∀ a ∈ sp.vmas, ∀ v, a.Covers v → UserPage v → Has (s.entry r v) ptPresent →
      P a.type (cloneFlags a.flags)
        (clonedParent s.vm.mm.pmm.totalPageCount (inShared sp.vmas v) (s.entry r v))) :
    Fits P s' r (parentSpace sp) := by
  refine ⟨hfits.toFramed.parent, ?_⟩
  intro v hv hpresent
  rw [h.parent v hv] at hpresent ⊢
  rw [present_clonedParent] at hpresent
  obtain ⟨a, ha, hav, -⟩ := hfits.pages v hv hpresent
  exact ⟨_, mem_map_of_mem ha, hav, hP a ha v hav hv hpresent⟩

theorem Cloned.fits_child (h : Cloned U s s' r c sp) (hfits : Fits P s r sp)
    (hwf : WellFormed sp.vmas) (hareas : AreasCreated s r areaMem sp.vmas)
    (hP : ∀ a ∈ sp.vmas, ∀ v, a.Covers v → UserPage v → Has (s.entry r v) ptPresent →
      P a.type (cloneFlags a.flags) (pageEntry (physOf (s.entry r v))
        (cloneMapFlags s.vm.mm.pmm.totalPageCount (inShared sp.vmas v) (s.entry r v)))) :
    Fits P s' c (clonedSpace areaMem sp c) := by
  have hvmas : (clonedSpace areaMem sp c).vmas = parentAreas (sp.vmas.filter areaMem) :=
    childAreas_eq areaMem hwf
  refine ⟨hfits.toFramed.child hwf areaMem c, ?_⟩
  intro v hv hpresent
  have hzero : ¬ Has (0 : Pte) ptPresent := not_has_zero ptPresent
  rcases h.child v hv with hchild | hchild
  · rw [hchild] at hpresent ⊢
    unfold clonedChild at hpresent ⊢
    split at hpresent
    next hlive =>
      rw [if_pos hlive]
      obtain ⟨a, ha, hav, hfind⟩ := hfits.childArea hwf hareas hv hlive.1
      have hwf' : WellFormed (clonedSpace areaMem sp c).vmas := by
        rw [hvmas]
        exact (hwf.sublist filter_sublist).parentAreas
      obtain ⟨hmem, hcovers⟩ := hwf'.find_eq_some.1 hfind
      exact ⟨_, hmem, hcovers, hP a ha v hav hv hlive.1⟩
    next => exact absurd hpresent hzero
  · rw [hchild] at hpresent
    exact absurd hpresent hzero

end

include h ht hr in
theorem Sound.step_clone (hfit : CountsFit unshared s r) (kernel cpu : ℕ) (mem : Bool)
    (hareas : AreasCreated s r areaMem sp.vmas)
    (hP : ∀ a ∈ sp.vmas, ∀ v, a.Covers v → UserPage v → Has (s.entry r v) ptPresent →
      P a.type (cloneFlags a.flags)
        (clonedParent s.vm.mm.pmm.totalPageCount (inShared sp.vmas v) (s.entry r v)) ∧
      P a.type (cloneFlags a.flags) (pageEntry (physOf (s.entry r v))
        (cloneMapFlags s.vm.mm.pmm.totalPageCount (inShared sp.vmas v) (s.entry r v)))) :
    ∃ s', vmmStep kernel s (.clone cpu mem areaMem r) = some s' ∧
      (∃ data' pos' T', Sound unshared U data' pos' T' s') ∧ Tidy P s' := by
  have hwf := h.wellFormed r sp hr
  have hfits := ht r sp hr
  have hkinds : ∀ v, UserPage v → Has (s.entry r v) ptPresent →
      unshared (areaKind (childAreas areaMem sp.vmas) v) = unshared (areaKind sp.vmas v) := by
    intro v hv hpresent
    obtain ⟨a, ha, hav, hfind⟩ := hfits.childArea hwf hareas hv hpresent
    unfold areaKind
    rw [hfind, hwf.find_eq_some.2 ⟨ha, hav⟩]
    simp only [map_some, shared_cloneFlags]
  obtain ⟨m', sp', res, hrun, hnone, hsome⟩ :=
    h.clone hr hfit cpu mem areaMem kernel hkinds
  unfold vmmStep
  dsimp only
  rw [hr, bind_eq_bind, bind_some, hrun, bind_eq_bind, bind_some]
  cases res with
  | none =>
    obtain ⟨rfl, htables, hsound⟩ := hnone rfl
    have hsame : (s.withMm m').setSpace r sp' = s.withMm m' := setSpace_self hr
    refine ⟨_, rfl, ?_⟩
    show (∃ data' pos' T', Sound unshared U data' pos' T' ((s.withMm m').setSpace r sp')) ∧
      Tidy P ((s.withMm m').setSpace r sp')
    rw [hsame]
    exact ⟨⟨_, _, _, hsound⟩, ht.withMm htables⟩
  | some ch =>
    obtain ⟨rfl, c, rfl, -, hcloned⟩ := hsome ch rfl
    refine ⟨_, rfl, hcloned.sound, ?_⟩
    intro r' sp' hr'
    change (((s.withMm m').setSpace r (parentSpace sp)).setSpace c
      (clonedSpace areaMem sp c)).spaces r' = some sp' at hr'
    rw [spaces_setSpace] at hr'
    split at hr'
    next heq =>
      cases hr'
      rw [heq]
      exact hcloned.fits_child hfits hwf hareas fun a ha v hav hv hpresent =>
        (hP a ha v hav hv hpresent).2
    next =>
      rw [spaces_setSpace] at hr'
      split at hr'
      next heq =>
        cases hr'
        rw [heq]
        exact hcloned.fits_parent hfits fun a ha v hav hv hpresent =>
          (hP a ha v hav hv hpresent).1
      next hrr =>
        apply (ht r' sp' hr').congr
        exact fun v hv => hcloned.others r' sp' v hr' hrr hv

include ht hr in
/-- The entry of one page changes. -/
theorem Tidy.touched {s' : Machine} {v : ℕ} {e : Pte}
    (htouched : Touched s s' r v e) (hspaces : s'.spaces = s.spaces)
    (hself : Has e ptPresent → ∃ a ∈ sp.vmas, a.Covers v ∧ P a.type a.flags e) : Tidy P s' := by
  intro r' sp' hr'
  rw [hspaces] at hr'
  have hfits := ht r' sp' hr'
  refine ⟨hfits.toFramed, ?_⟩
  intro v' hv' hpresent
  rw [htouched r' sp' v' hr' hv'] at hpresent ⊢
  split at hpresent
  next heq =>
    cases heq
    obtain rfl := some.inj (hr.symm.trans hr')
    rw [if_pos rfl]
    exact hself hpresent
  next hne =>
    rw [if_neg hne]
    exact hfits.pages v' hv' hpresent

/-- A fault in an area: the one around the address, or a stack above it. -/
def FaultsIn (vmas : List Area) (addr : ℕ) (a : Area) : Prop :=
  a.Covers addr ∨ (∀ b ∈ vmas, ¬ b.Covers addr) ∧ addr < a.start ∧ Has a.flags vmaFlagStack

/-- The area of a fault comes from one that was there. -/
theorem GrownStack.origin {vmas vmas' : List Area}
    (h : GrownStack (pageAlignDown addr) vmas vmas') (hwf : WellFormed vmas) {a : Area}
    (ha : a ∈ vmas') (hav : a.Covers addr) :
    ∃ b ∈ vmas, FaultsIn vmas addr b ∧ b.flags = a.flags ∧ b.type = a.type := by
  cases h with
  | same => exact ⟨a, ha, .inl hav, rfl, rfl⟩
  | @grown p q stack hstack hbefore hbelow =>
    have hmem : stack ∈ p ++ stack :: q := mem_append_right p mem_cons_self
    have hlow : pageAlignDown addr ≤ addr := pageAlignDown_le addr
    -- the stack starts at a page, and so above the address
    have habove : addr < stack.start := by
      have hle := le_pageAlignDown (x := addr) (hwf.good stack hmem).start_aligned
      omega
    obtain ⟨-, hq, -⟩ := Separated.append_iff.1 hwf.separated
    obtain ⟨hnonempty, -, hbehind⟩ := Separated.cons_iff.1 hq
    have hnone : ∀ b ∈ p ++ stack :: q, ¬ b.Covers addr := by
      rintro b hb ⟨hstart, hend⟩
      rcases mem_append.1 hb with hb | hb
      · have := hbefore b hb
        omega
      · rcases mem_cons.1 hb with rfl | hb
        · omega
        · have := hbehind b hb
          omega
    rcases mem_append.1 ha with ha | ha
    · exact absurd hav (hnone a (mem_append_left _ ha))
    · rcases mem_cons.1 ha with rfl | ha
      · exact ⟨stack, hmem, .inr ⟨hnone, habove, hstack⟩, rfl, rfl⟩
      · exact absurd hav (hnone a (mem_append_right p (mem_cons_of_mem _ ha)))

include h ht hr in
theorem Sound.step_fault (kernel cpu : ℕ) {code : BitVec 32} (rsp : Option ℕ)
    (htruth : Truthful s r addr code)
    (hP : ∀ a ∈ sp.vmas, FaultsIn sp.vmas addr a → Admitted code a.flags → ∀ e,
      (Has (s.entry r (pageAlignDown addr)) ptPresent →
        P a.type a.flags (s.entry r (pageAlignDown addr))) →
      Outcome (decide (Has code faultPresent)) (decide (Has code faultWrite)) a.flags
        (s.entry r (pageAlignDown addr)) e → Has e ptPresent → P a.type a.flags e) :
    ∃ s', vmmStep kernel s (.fault cpu r addr code rsp) = some s' ∧
      (∃ data' pos' T', Sound unshared U data' pos' T' s') ∧ Tidy P s' := by
  have hwf := h.wellFormed r sp hr
  have hfits := ht r sp hr
  have hpage := pageAlignDown_mod addr
  obtain ⟨vm', vmas', ret, hrun, hgrown, hcases⟩ :=
    h.fault hr hfits.bounded hfits.covered cpu addr code rsp htruth
  unfold vmmStep
  dsimp only
  rw [hr, bind_eq_bind, bind_some, hrun, bind_eq_bind, bind_some]
  refine ⟨_, rfl, ?_⟩
  have hsound := h.grow hr hfits.covered hpage hgrown
  have hwf' := hgrown.wellFormed hwf hpage
  -- the areas first
  have htidy : Tidy P (s.setSpace r { sp with vmas := vmas' }) := by
    apply ht.rearea hr (hfits.toFramed.grown hgrown)
    exact fun _ _ _ _ => hgrown.covers
  rcases hcases with rfl | ⟨a, ha, hav, hadmitted, hv, hsettled⟩
  · exact ⟨⟨_, _, _, hsound⟩, htidy⟩
  · refine ⟨hsettled.sound, ?_⟩
    obtain ⟨e, houtcome, htouched⟩ := hsettled.effect
    have hr' : (s.setSpace r { sp with vmas := vmas' }).spaces r =
        some { sp with vmas := vmas' } := update_self ..
    have hcovers := (hwf'.good a ha).covers_page.2 hav
    obtain ⟨b, hb, hfaults, hflags, htype⟩ := hgrown.origin hwf ha hav
    apply htidy.touched hr' htouched rfl
    intro hpresent
    refine ⟨a, ha, hcovers, ?_⟩
    have hold : Has (s.entry r (pageAlignDown addr)) ptPresent →
        P b.type b.flags (s.entry r (pageAlignDown addr)) := by
      intro hold
      rw [hflags, htype]
      exact (htidy r _ hr').page hwf' ha hcovers hv hold
    rw [← hflags] at houtcome hadmitted ⊢
    rw [← htype]
    exact hP b hb hfaults hadmitted e hold houtcome hpresent

end BoredOS.Mem.Vmm
