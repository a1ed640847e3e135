import BoredOS.Mem.Vmm.Release
import BoredOS.Mem.Vmm.Tree

/-!
# The Range of an Unmapping

`vmm_unmap` is to remove its range and nothing else. For the page tables this is so whenever the
range lies in the user half. For the areas it is not: the right part of an area that is split needs
memory, and without it the area is kept while the call reports success; and the position in the
backing object is moved along for files only, not for shared memory. The range is exact if and only
if neither happens (`vmmUnmap_exact_iff`), in a container that mirrors the list and as long as no
removal from its tree is a stale splice.
-/

namespace BoredOS.Mem.Vmm

open List Nat Area Lib.Intervals Lib.Tally Lib.TableTree Pmm Mmu
open Option (map_some some.inj)

variable {v length addr end_ : ℕ} {vmas : List Area} {mem : Bool}

variable (h : WellFormed vmas) (haddr : addr % pageSize = 0) (hend : end_ % pageSize = 0)

/-! ## The pages of a range -/

def pagesIn (lo hi : ℕ) : List ℕ := (List.range ((hi - lo) / pageSize)).map (pageAt lo)

section

variable {lo hi : ℕ}

theorem pageAt_eq {i : ℕ} (hhi : hi ≤ 2 ^ 47) (hi' : i < (hi - lo) / pageSize) :
    pageAt lo i = lo + i * pageSize ∧ lo + i * pageSize < hi := by
  have hlt : lo + i * pageSize < hi := by
    have := (lt_div_iff_mul_lt (show 0 < pageSize by decide)).1 hi'
    omega
  exact ⟨mod_eq_of_lt (by omega), hlt⟩

theorem mem_pagesIn (hlo : lo % pageSize = 0) (hhi : hi % pageSize = 0) (hle : hi ≤ 2 ^ 47) :
    v ∈ pagesIn lo hi ↔ UserPage v ∧ lo ≤ v ∧ v < hi := by
  unfold pagesIn
  rw [mem_map]
  constructor
  · rintro ⟨i, hi', rfl⟩
    obtain ⟨heq, hlt⟩ := pageAt_eq hle (mem_range.1 hi')
    rw [heq]
    refine ⟨⟨?_, by omega⟩, le_add_right _ _, hlt⟩
    rw [add_mul_mod_self_right]
    exact hlo
  · rintro ⟨⟨halign, -⟩, hge, hlt⟩
    have hi' : (v - lo) / pageSize < (hi - lo) / pageSize := by
      unfold pageSize at *
      omega
    refine ⟨(v - lo) / pageSize, mem_range.2 hi', ?_⟩
    rw [(pageAt_eq hle hi').1]
    unfold pageSize at *
    omega

theorem nodup_pagesIn (hle : hi ≤ 2 ^ 47) : (pagesIn lo hi).Nodup := by
  apply List.Nodup.map_on _ nodup_range
  intro i hi' j hj heq
  rw [(pageAt_eq hle (mem_range.1 hi')).1, (pageAt_eq hle (mem_range.1 hj)).1] at heq
  unfold pageSize at heq
  omega

end

/-! ## The pages that are released -/

/-- The pages of an area that lose a reference. -/
def releasedPages (addr end_ : ℕ) (a : Area) : List ℕ :=
  if a.isPrivateAnon = true then pagesIn (max a.start addr) (min a.end_ end_) else []

variable {a : Area}

section

theorem isPrivateAnon_iff (a : Area) : a.isPrivateAnon = true ↔
    (a.type, decide (Has a.flags vmaFlagShared)) = (.anon, false) := by
  unfold isPrivateAnon
  rw [decide_eq_true_eq, Prod.mk.injEq, decide_eq_false_iff_not]

theorem mem_releasedPages (ha : a.Good) (haddr : addr % pageSize = 0)
    (hend : end_ % pageSize = 0) (hle : end_ ≤ 2 ^ 47) :
    v ∈ releasedPages addr end_ a ↔
      a.isPrivateAnon = true ∧ UserPage v ∧ a.Covers v ∧ addr ≤ v ∧ v < end_ := by
  have hlo : max a.start addr % pageSize = 0 := by
    rcases le_total a.start addr with h | h
    · rw [max_eq_right h]
      exact haddr
    · rw [max_eq_left h]
      exact ha.start_aligned
  have hhi : min a.end_ end_ % pageSize = 0 := by
    rcases le_total a.end_ end_ with h | h
    · rw [min_eq_left h]
      exact ha.end_aligned
    · rw [min_eq_right h]
      exact hend
  unfold releasedPages
  split
  next hprivate =>
    rw [mem_pagesIn hlo hhi (Nat.le_trans (Nat.min_le_right _ _) hle), Nat.max_le, Nat.lt_min]
    show _ ↔ _ ∧ _ ∧ (a.start ≤ v ∧ v < a.end_) ∧ _
    tauto
  next hprivate => simp [hprivate]

section

variable (h : WellFormed vmas) (haddr : addr % pageSize = 0) (hend : end_ % pageSize = 0)
  (hle : end_ ≤ 2 ^ 47)

include h haddr hend hle

/-- The pages of private memory in the range. -/
theorem mem_released : v ∈ vmas.flatMap (releasedPages addr end_) ↔
      UserPage v ∧ addr ≤ v ∧ v < end_ ∧ areaKind vmas v = some (.anon, false) := by
  rw [mem_flatMap]
  unfold areaKind
  rcases h.find_cases v with ⟨a, ha, hav, hfind⟩ | ⟨hnone, hfind⟩
  · rw [hfind, map_some, Option.some_inj, ← isPrivateAnon_iff]
    constructor
    · rintro ⟨b, hb, hmem⟩
      obtain ⟨hprivate, hv, hbv, hge, hlt⟩ :=
        (mem_releasedPages (h.good b hb) haddr hend hle).1 hmem
      obtain rfl := h.separated.unique hb ha hbv hav
      exact ⟨hv, hge, hlt, hprivate⟩
    · rintro ⟨hv, hge, hlt, hprivate⟩
      exact ⟨a, ha, (mem_releasedPages (h.good a ha) haddr hend hle).2
        ⟨hprivate, hv, hav, hge, hlt⟩⟩
  · rw [hfind]
    constructor
    · rintro ⟨b, hb, hmem⟩
      exact absurd ((mem_releasedPages (h.good b hb) haddr hend hle).1 hmem).2.2.1 (hnone b hb)
    · rintro ⟨-, -, -, hkind⟩
      cases hkind

theorem nodup_released : (vmas.flatMap (releasedPages addr end_)).Nodup := by
  refine nodup_flatMap.2 ⟨?_, ?_⟩
  · intro a _
    unfold releasedPages
    split
    · exact nodup_pagesIn (le_trans (min_le_right _ _) hle)
    · exact nodup_nil
  · -- a page in two areas would lie behind the one and before the other
    apply h.separated.ordered.imp_of_mem
    intro a b ha hb hab v hva hvb
    obtain ⟨-, -, hav, -⟩ := (mem_releasedPages (h.good a ha) haddr hend hle).1 hva
    obtain ⟨-, -, hbv, -⟩ := (mem_releasedPages (h.good b hb) haddr hend hle).1 hvb
    exact lt_irrefl v (lt_of_lt_of_le hav.2 (le_trans hab hbv.1))

end

/-- The loop of `vmm_unmap` visits the pages of private memory in the range. -/
theorem unmapAreas_fst (cpu : ℕ) (mem : Bool) (zero : Option ℕ) (pml4 : ℕ) (hle : addr ≤ end_)
    (hlt : end_ < 2 ^ 64) : ∀ (areas : List Area) (m : Mm) (l : List Area),
    (∀ a ∈ areas, a.start < a.end_) →
    (areas.foldl (unmapArea cpu mem zero pml4 addr end_) (m, l)).1 =
      (areas.flatMap (releasedPages addr end_)).foldl
        (fun m v => unrefMapped cpu zero m pml4 v) m := by
  intro areas
  induction areas with
  | nil => exact fun m l _ => rfl
  | cons a areas ih =>
    intro m l hareas
    have hnonempty := hareas a mem_cons_self
    have hstep : (unmapArea cpu mem zero pml4 addr end_ (m, l) a).1 =
        (releasedPages addr end_ a).foldl (fun m v => unrefMapped cpu zero m pml4 v) m := by
      unfold unmapArea releasedPages
      dsimp only
      split
      next hskip =>
        split
        next =>
          have hempty : (min a.end_ end_ - max a.start addr) / pageSize = 0 := by
            have : min a.end_ end_ - max a.start addr = 0 := by omega
            rw [this]
            rfl
          unfold pagesIn
          rw [hempty]
          rfl
        next => rfl
      next hmeet =>
        have hstart : (if a.start > addr then a.start else addr) = max a.start addr := by
          split <;> omega
        have hend : (if a.end_ < end_ then a.end_ else end_) = min a.end_ end_ := by
          split <;> omega
        have hcount : (min a.end_ end_ + 2 ^ 64 - max a.start addr) % 2 ^ 64 =
            min a.end_ end_ - max a.start addr := by
          omega
        rw [hstart, hend, hcount]
        split
        next =>
          unfold unrefRange pagesIn
          rw [foldl_map]
        next => rfl
    rw [foldl_cons, flatMap_cons, foldl_append, ← hstep]
    exact ih _ _ fun b hb => hareas b (mem_cons_of_mem a hb)

end

/-! ## The search in what is left -/

section

include h haddr hend in
theorem find_unmap (v : ℕ) : vmaFind (vmas.flatMap (remnants mem addr end_)) v =
      (vmaFind vmas v).bind fun a => vmaFind (remnants mem addr end_ a) v :=
  h.find_flatMap (fun a ha => (remnants_wellFormed mem (h.good a ha) haddr hend).1)
    (fun a ha => (remnants_wellFormed mem (h.good a ha) haddr hend).2) v

/-- The right part of an area as it is after the call. -/
def tailOf (mem : Bool) (addr end_ : ℕ) (a : Area) : Area :=
  if a.start < addr then if mem = false then a else a.splitFrom end_ else a.from end_

/-- What is left of an area around an address of it. -/
theorem find_remnants (hav : a.Covers v) (hlt : addr < end_) :
    vmaFind (remnants mem addr end_ a) v = if a.start ≥ end_ ∨ a.end_ ≤ addr then some a
      else if a.start < addr ∧ end_ < a.end_ ∧ mem = false then some a
      else if v < addr then some { a with end_ := addr }
      else if v < end_ then none
      else some (tailOf mem addr end_ a) := by
  obtain ⟨hge, hlt'⟩ : a.start ≤ v ∧ v < a.end_ := hav
  unfold remnants vmaFind tailOf
  split
  next => simp [hge, hlt']
  next hmeet =>
    split
    next hin =>
      rw [if_neg (by omega), if_neg (by omega), if_pos (by omega)]
      rfl
    next hnot =>
      split
      next hmiddle =>
        cases mem with
        | false => simp [hmiddle, hge, hlt']
        | true =>
          simp only [Bool.true_eq_false, if_false, and_false]
          rw [if_neg (by omega)]
          by_cases hv : v < addr
          · simp [hv, hge]
          · by_cases hv' : v < end_
            · simp [splitFrom, hv, hv']
            · simp [splitFrom, hv, hv', hmiddle.1, hlt', Nat.le_of_not_lt hv']
      next hnotmiddle =>
        rw [if_neg (show ¬ (a.start < addr ∧ end_ < a.end_ ∧ mem = false) by tauto)]
        split
        next hleft =>
          by_cases hv : v < addr
          · simp [hv, hge]
          · rw [if_neg hv, if_pos (by omega)]
            simp [hv]
        next hleft =>
          rw [if_neg (by omega)]
          by_cases hv' : v < end_
          · simp [Area.from, hv']
          · simp [Area.from, hv', hlt', Nat.le_of_not_lt hv']

/-- Outside of the range there is a piece of the area around an address. -/
theorem find_unmap_outside (mem : Bool) (h : WellFormed vmas) (haddr : addr % pageSize = 0)
    (hend : end_ % pageSize = 0) (hlt : addr < end_) (hv : ¬ (addr ≤ v ∧ v < end_))
    (ha : a ∈ vmas) (hav : a.Covers v) :
    ∃ b ∈ remnants mem addr end_ a, b.Covers v ∧
      vmaFind (vmas.flatMap (remnants mem addr end_)) v = some b := by
  rw [find_unmap h haddr hend, h.find_eq_some.2 ⟨ha, hav⟩, Option.bind_some]
  rcases (remnants_wellFormed mem (h.good a ha) haddr hend).1.find_cases v with
    ⟨b, hb, hbv, hfind⟩ | ⟨-, hfind⟩
  · exact ⟨b, hb, hbv, hfind⟩
  · rw [find_remnants hav hlt] at hfind
    split_ifs at hfind
    omega

include h haddr hend in
/-- Outside of the range nothing changes the kind of an area. -/
theorem areaKind_unmap (hlt : addr < end_) (hv : ¬ (addr ≤ v ∧ v < end_)) :
    areaKind (vmas.flatMap (remnants mem addr end_)) v = areaKind vmas v := by
  unfold areaKind
  rcases h.find_cases v with ⟨a, ha, hav, hfind⟩ | ⟨-, hfind⟩
  · obtain ⟨b, hb, -, hfind'⟩ := find_unmap_outside mem h haddr hend hlt hv ha hav
    obtain ⟨hflags, htype⟩ := remnants_kind mem hb
    rw [hfind, hfind', map_some, map_some, hflags, htype]
  · rw [find_unmap h haddr hend, hfind]
    rfl

end

/-! ## The machine -/

theorem rangeEnd_aligned {addr : ℕ} (haddr : addr % pageSize = 0) (length : ℕ) :
    rangeEnd addr length % pageSize = 0 := by
  unfold rangeEnd
  rw [add_mul_mod_self_right]
  exact haddr

theorem lt_rangeEnd (addr : ℕ) (hlen : 0 < length) : addr < rangeEnd addr length := by
  unfold rangeEnd pageSize
  omega

/-- The words of `vmm_unmap` for a range that does not wrap. -/
theorem pageAlignUp_range {addr : ℕ} (hle : rangeEnd addr length ≤ 2 ^ 47) :
    (addr + pageAlignUp length) % 2 ^ 64 = rangeEnd addr length ∧
      pageAlignUp length = rangeEnd addr length - addr := by
  unfold rangeEnd pageAlignUp pageSize at *
  omega

section

variable {counts : Option (VmaType × Bool) → Bool} {U : Set ℕ}
  {data : ℕ → Option Grant} {pos : ℕ → Option Spot} {T : Set ℕ} {s : Machine} {r : ℕ} {sp : Space}

theorem vmmUnmap_space (cpu : ℕ) (mem : Bool) (vm : Vm) (hwf : WellFormed sp.vmas)
    (haddr : addr % pageSize = 0) (hlen : 0 < length) (hle : rangeEnd addr length ≤ 2 ^ 47) :
    (vmmUnmap cpu mem vm sp addr length).2.1 =
      { sp with vmas := sp.vmas.flatMap (remnants mem addr (rangeEnd addr length)) } := by
  have hvmas := congrArg Prod.fst (vmmUnmap_vmas cpu mem vm hwf haddr hlen)
  rw [(pageAlignUp_range hle).1] at hvmas
  exact hvmas

/-- The machine after `vmm_unmap`. -/
def unmapped (cpu : ℕ) (mem : Bool) (s : Machine) (r : ℕ) (sp : Space) (addr length : ℕ) :
    Machine :=
  Machine.setSpace { s with vm := (vmmUnmap cpu mem s.vm sp addr length).1 } r
    (vmmUnmap cpu mem s.vm sp addr length).2.1

theorem Sound.unmap (h : Sound counts U data pos T s)
    (hanon : counts (some (.anon, false)) = true) (hr : s.spaces r = some sp) (cpu : ℕ) (mem : Bool)
    (haddr : addr % pageSize = 0) (hlen : 0 < length) (hle : rangeEnd addr length ≤ 2 ^ 47) :
    ∃ data' pos' T', Sound counts U data' pos' T' (unmapped cpu mem s r sp addr length) ∧
      ∀ r' sp' v, s.spaces r' = some sp' → UserPage v →
        (unmapped cpu mem s r sp addr length).entry r' v =
          if r' = r ∧ addr ≤ v ∧ v < rangeEnd addr length then 0 else s.entry r' v := by
  have hwf := h.wellFormed r sp hr
  have hpml4 := h.pml4 r sp hr
  have hroot := h.root_pos hr
  have hend := rangeEnd_aligned haddr length
  have hlt := lt_rangeEnd addr hlen
  obtain ⟨hword, hcount⟩ := pageAlignUp_range hle
  have hvmas := vmmUnmap_space cpu mem s.vm hwf haddr hlen hle
  have hvm : (vmmUnmap cpu mem s.vm sp addr length).1 = s.vm.withMm
      ((pagesIn addr (rangeEnd addr length)).foldl (fun m v => (mmuUnmapPageUnlocked cpu m r v).1)
        ((sp.vmas.flatMap (releasedPages addr (rangeEnd addr length))).foldl
          (fun m v => unrefMapped cpu s.vm.zeroPage m r v) s.vm.mm)) := by
    unfold vmmUnmap
    rw [if_neg (by omega)]
    dsimp only
    rw [hword, hcount, unmapAreas_fst cpu mem _ _ (le_of_lt hlt) (by omega) _ _ _
      fun a ha => (hwf.good a ha).nonempty, hpml4]
    unfold mmuUnmapPages pagesIn
    rw [if_neg (not_not.2 haddr), foldl_map]
  unfold unmapped
  rw [hvmas, hvm]
  generalize hEnd : rangeEnd addr length = end_ at *
  -- the references go first
  have hreleased := Released.pages
    (fun m data refs v hw ha hv href => unrefMapped_spec hw ha cpu hroot hv href)
    (sp.vmas.flatMap (releasedPages addr end_)) s.vm.mm data (refsOf counts s)
    (nodup_released hwf haddr hend hle) h.world h.accounts (by
      intro v hv
      obtain ⟨hpage, -, -, hkind⟩ := (mem_released hwf haddr hend hle).1 hv
      refine ⟨hpage, ?_⟩
      rw [refsOf_space hr hpage, refOf_counted]
      · rfl
      · rw [hkind]
        exact hanon)
  obtain ⟨data', hreleased⟩ := hreleased
  -- then the entries
  obtain ⟨pos', T', hsound, hentry⟩ := h.drop hr cpu
    (pagesIn addr end_) hreleased (fun v hv => ((mem_pagesIn haddr hend hle).1 hv).1)
    (fun v hv => by
      obtain ⟨hpage, hge, hlt', -⟩ := (mem_released hwf haddr hend hle).1 hv
      exact (mem_pagesIn haddr hend hle).2 ⟨hpage, hge, hlt'⟩)
  generalize (pagesIn addr end_).foldl (fun m v => (mmuUnmapPageUnlocked cpu m r v).1)
    ((sp.vmas.flatMap (releasedPages addr end_)).foldl
      (fun m v => unrefMapped cpu s.vm.zeroPage m r v) s.vm.mm) = m' at *
  have hview : ∀ r' sp' v, s.spaces r' = some sp' → UserPage v → (s.withMm m').entry r' v =
      if r' = r ∧ addr ≤ v ∧ v < end_ then 0 else s.entry r' v := by
    intro r' sp' v hr' hv
    rw [hentry r' sp' v hr' hv]
    simp only [mem_pagesIn haddr hend hle, hv, true_and]
  -- and the areas
  have hsame : ∀ v, UserPage v →
      refOf counts s.vm.zeroPage (sp.vmas.flatMap (remnants mem addr end_)) v
        ((s.withMm m').entry r v) =
      refOf counts s.vm.zeroPage sp.vmas v ((s.withMm m').entry r v) := by
    intro v hv
    rw [hview r sp v hr hv]
    by_cases hin : addr ≤ v ∧ v < end_
    · rw [if_pos ⟨rfl, hin⟩, refOf_absent (not_present_of_zero rfl),
        refOf_absent (not_present_of_zero rfl)]
    · unfold refOf
      rw [areaKind_unmap hwf haddr hend hlt hin]
  exact ⟨data', pos', T', hsound.respace (s := s.withMm m') hr rfl (hwf.unmap haddr hend) hsame,
    hview⟩

end

/-! ## The range is exact -/

/-- What an address has from the area around it: the type, the flags, the backing object and the
position in it. -/
def Area.placeAt (v : ℕ) (a : Area) : VmaType × BitVec 32 × Option ℕ × ℕ :=
  (a.type, a.flags, a.backingFile, (a.fileOffset + (v - a.start)) % 2 ^ 64)

/-- The addresses of the range are in no area, every other address keeps what it has. -/
def AreasExact (vmas vmas' : List Area) (addr end_ : ℕ) : Prop :=
  ∀ v, if addr ≤ v ∧ v < end_ then vmaFind vmas' v = none
    else (vmaFind vmas' v).map (placeAt v) = (vmaFind vmas v).map (placeAt v)

/-- The range is gone from the areas and the entries of a space, and nothing else has changed. -/
structure UnmapExact (s s' : Machine) (r : ℕ) (vmas vmas' : List Area) (addr end_ : ℕ) : Prop where
  areas : AreasExact vmas vmas' addr end_
  entries : ∀ v, UserPage v → if addr ≤ v ∧ v < end_ then ¬ Has (s'.entry r v) ptPresent
    else s'.entry r v = s.entry r v
  others : ∀ r' sp v, r' ≠ r → s.spaces r' = some sp → UserPage v → s'.entry r' v = s.entry r' v
  kernel : ∀ v, 256 ≤ pml4Idx v → walk s'.vm.mm.tables r v = walk s.vm.mm.tables r v

/-- An area that goes on behind the range is a file, or it is split with memory for the right part
and the position of that part is the start of the object. -/
def UnmapSafe (mem : Bool) (vmas : List Area) (addr end_ : ℕ) : Prop :=
  ∀ a ∈ vmas, a.start < end_ → end_ < a.end_ → if a.start < addr then
      mem = true ∧ (a.type = .file ∨ (a.fileOffset + (end_ - a.start)) % 2 ^ 64 = 0)
    else a.type = .file

section

theorem placeAt_splitFrom {v : ℕ} (hstart : a.start < end_) (hv : end_ ≤ v) :
    (a.splitFrom end_).placeAt v = a.placeAt v ↔
      a.type = .file ∨ (a.fileOffset + (end_ - a.start)) % 2 ^ 64 = 0 := by
  unfold placeAt splitFrom
  simp only [Prod.mk.injEq, true_and]
  split
  next hfile =>
    simp only [hfile, true_or, iff_true]
    omega
  next hfile =>
    simp only [hfile, false_or]
    omega

theorem placeAt_from {v : ℕ} (hstart : a.start < end_) (hend : end_ < 2 ^ 64)
    (hv : end_ ≤ v) : (a.from end_).placeAt v = a.placeAt v ↔ a.type = .file := by
  unfold placeAt Area.from
  simp only [Prod.mk.injEq, true_and]
  split
  next hfile =>
    simp only [hfile, iff_true]
    omega
  next hfile =>
    simp only [hfile, iff_false]
    omega

include h haddr hend in
/-- The loop over the areas removes the range and nothing else if and only if no area that goes on
behind the range is lost or moved. -/
theorem areasExact_iff (hlt : addr < end_) :
    AreasExact vmas (vmas.flatMap (remnants mem addr end_)) addr end_ ↔
      UnmapSafe mem vmas addr end_ := by
  have hfind : ∀ a ∈ vmas, ∀ v, a.Covers v →
      vmaFind vmas v = some a ∧ vmaFind (vmas.flatMap (remnants mem addr end_)) v =
        vmaFind (remnants mem addr end_ a) v := by
    intro a ha v hav
    have hsome := h.find_eq_some.2 ⟨ha, hav⟩
    rw [find_unmap h haddr hend, hsome]
    exact ⟨rfl, rfl⟩
  constructor
  · intro hexact a ha hstart hafter
    have hbounded := (h.good a ha).bounded
    -- the first address behind the range
    have hbehind := hexact end_
    obtain ⟨hsome, hleft⟩ := hfind a ha end_ ⟨le_of_lt hstart, hafter⟩
    rw [if_neg (by omega), hsome, hleft, find_remnants ⟨le_of_lt hstart, hafter⟩ hlt,
      if_neg (by omega), if_neg (show ¬ end_ < addr by omega), if_neg (lt_irrefl end_)] at hbehind
    unfold tailOf at hbehind
    split
    next hmiddle =>
      have hmem : mem = true := by
        have hin := hexact addr
        obtain ⟨-, hleft'⟩ := hfind a ha addr ⟨le_of_lt hmiddle, by omega⟩
        rw [if_pos ⟨le_refl addr, hlt⟩, hleft',
          find_remnants ⟨le_of_lt hmiddle, by omega⟩ hlt, if_neg (by omega)] at hin
        cases mem with
        | true => rfl
        | false => simp [hmiddle, hafter] at hin
      subst hmem
      refine ⟨rfl, ?_⟩
      rw [if_neg (by simp), if_pos hmiddle, if_neg (by simp)] at hbehind
      exact (placeAt_splitFrom hstart (le_refl end_)).1 (some.inj hbehind)
    next hright =>
      rw [if_neg (by tauto), if_neg hright] at hbehind
      exact (placeAt_from hstart (by omega) (le_refl end_)).1 (some.inj hbehind)
  · intro hsafe v
    rcases h.find_cases v with ⟨a, ha, hav, hsome⟩ | ⟨hnone, hfindnone⟩
    · have hbounded := (h.good a ha).bounded
      have hcovers : a.start ≤ v ∧ v < a.end_ := hav
      rw [(hfind a ha v hav).2, hsome, find_remnants hav hlt]
      by_cases hskip : a.start ≥ end_ ∨ a.end_ ≤ addr
      · rw [if_pos hskip, if_neg (by omega)]
      rw [if_neg hskip]
      have hkept : ¬ (a.start < addr ∧ end_ < a.end_ ∧ mem = false) := by
        rintro ⟨hmiddle, hafter, hmem⟩
        have hcond := hsafe a ha (by omega) hafter
        rw [if_pos hmiddle, hmem] at hcond
        cases hcond.1
      rw [if_neg hkept]
      by_cases hbefore : v < addr
      · rw [if_neg (by omega), if_pos hbefore]
        rfl
      rw [if_neg hbefore]
      by_cases hin : v < end_
      · rw [if_pos (by omega), if_pos hin]
      rw [if_neg (by omega), if_neg hin]
      have hcond := hsafe a ha (by omega) (by omega)
      unfold tailOf
      by_cases hmiddle : a.start < addr
      · rw [if_pos hmiddle] at hcond ⊢
        rw [hcond.1, if_neg (by simp), map_some, map_some,
          (placeAt_splitFrom (by omega) (Nat.le_of_not_lt hin)).2 hcond.2]
      · rw [if_neg hmiddle] at hcond ⊢
        rw [map_some, map_some, (placeAt_from (by omega) (by omega) (Nat.le_of_not_lt hin)).2 hcond]
    · rw [find_unmap h haddr hend, hfindnone]
      split <;> rfl

end

/-- Only the pages that `vmm_unmap` may release are counted. -/
def privateOnly (kind : Option (VmaType × Bool)) : Bool := decide (kind = some (.anon, false))

/-- `vmm_unmap` of a range in the user half, whose removals are no stale splices, removes the range
and nothing else from the areas, the tree and the entries if and only if no area that goes on behind
the range is kept for want of memory or loses its position. -/
theorem vmmUnmap_exact_iff {U : Set ℕ} {data : ℕ → Option Grant} {pos : ℕ → Option Spot} {T : Set ℕ}
    {s : Machine} {r : ℕ} {sp : Space} {layout : ℕ → Option Pos} {c : Vma.VmaState}
    (hsound : Sound privateOnly U data pos T s) (hr : s.spaces r = some sp)
    (hlayout : Layout layout s.vm.mm.tables) (hroot : IsRoot layout r) (cpu : ℕ) (mem : Bool)
    (addr length : ℕ) (haddr : addr % pageSize = 0) (hlen : 0 < length)
    (hrange : rangeEnd addr length ≤ 2 ^ 47) (hmirrors : Mirrors c sp.vmas)
    (hclean : Clean c (unmapOps mem sp.vmas addr length)) :
    ((vmmUnmap cpu mem s.vm sp addr length).2.2 = 0 →
      UnmapExact s (unmapped cpu mem s r sp addr length) r sp.vmas
        (vmmUnmap cpu mem s.vm sp addr length).2.1.vmas addr (rangeEnd addr length) ∧
      TreeKeeps c (unmapOps mem sp.vmas addr length)
        (vmmUnmap cpu mem s.vm sp addr length).2.1.vmas) ↔
    UnmapSafe mem sp.vmas addr (rangeEnd addr length) := by
  have hwf := hsound.wellFormed r sp hr
  have hpml4 := hsound.pml4 r sp hr
  obtain ⟨hword, hcount⟩ := pageAlignUp_range hrange
  have hareas := vmmUnmap_vmas cpu mem s.vm hwf haddr hlen
  rw [hword] at hareas
  obtain ⟨-, -, -, -, hentry⟩ := hsound.unmap (by decide) hr cpu mem haddr hlen hrange
  rw [← areasExact_iff hwf haddr (rangeEnd_aligned haddr length) (lt_rangeEnd addr hlen)]
  constructor
  · -- the call succeeds, whatever it does to the areas
    intro hexact
    have hret : (vmmUnmap cpu mem s.vm sp addr length).2.2 = 0 := by rw [hareas]
    have hvmas := (hexact hret).1.areas
    rw [hareas] at hvmas
    exact hvmas
  · intro hvmas _
    refine ⟨⟨?_, ?_, ?_, ?_⟩, hmirrors.turns hwf (vmmUnmap_turns hwf cpu mem s.vm addr length)
        hclean⟩
    · rw [hareas]
      exact hvmas
    · intro v hv
      rw [hentry r sp v hr hv]
      simp only [true_and]
      split
      next => exact not_present_of_zero rfl
      next => rfl
    · intro r' sp' v hne hr' hv
      rw [hentry r' sp' v hr' hv, if_neg fun hc => hne hc.1]
    · -- the pages of the range are in the user half
      intro v hhigh
      subst hpml4
      apply walk_kernelSame hlayout hroot _ hhigh
      apply vmmUnmap_kernelSame cpu mem s.vm hlayout hroot
      intro _ i hi
      rw [hcount] at hi
      have hmem : pageAt addr i ∈ pagesIn addr (rangeEnd addr length) :=
        mem_map_of_mem (mem_range.2 hi)
      exact ((mem_pagesIn haddr (rangeEnd_aligned haddr length) hrange).1 hmem).1.page.governed

/-! ## Concrete calls -/

def oneSpace (r : ℕ) (a : Area) : Space := { freshSpace r with vmas := [a] }

/-- A machine on which `r` is such a space. -/
def OneArea (s : Machine) (r : ℕ) (a : Area) : Prop :=
  s.spaces r = some (oneSpace r a) ∧ (∃ U data pos T, Sound privateOnly U data pos T s) ∧
    ∃ layout, Layout layout s.vm.mm.tables ∧ IsRoot layout r

/-- Three pages of an object, from the position 0x5000 on. -/
def objectPages (type : VmaType) : Area :=
  ⟨0x400000, 0x403000, type, vmaFlagRead ||| vmaFlagShared, some 1, 0x5000⟩

theorem objectPages_good (type : VmaType) : (objectPages type).Good :=
  ⟨show 0x400000 < 0x403000 by decide, show 0x400000 % pageSize = 0 by decide,
    show 0x403000 % pageSize = 0 by decide, show 0x403000 < 2 ^ 64 by decide⟩

theorem oneArea_objectPages (type : VmaType) : ∃ s r, OneArea s r (objectPages type) := by
  obtain ⟨s, r, U, pos, T, hr, htables, hsound⟩ := sound_first privateOnly
  have hone : WellFormed [objectPages type] := by
    refine ⟨.singleton (objectPages_good type).nonempty, ?_⟩
    intro a ha
    rw [mem_singleton.1 ha]
    exact objectPages_good type
  -- nothing is mapped yet
  have hentry : ∀ v, s.entry r v = 0 := by
    intro v
    unfold Machine.entry leaf
    rw [htables]
    exact value_zero rfl
  refine ⟨s.setSpace r (oneSpace r (objectPages type)), r, Function.update_self r _ _,
    ⟨U, _, pos, T, hsound.respace hr rfl hone ?_⟩,
    fun f => if f = r then some ⟨.user r, []⟩ else none, ⟨?_⟩, if_pos rfl⟩
  · intro v _
    rw [hentry v, refOf_absent (not_present_of_zero rfl), refOf_absent (not_present_of_zero rfl)]
  · intro f p _ _ i _ hpresent
    have hzero : (s.setSpace r (oneSpace r (objectPages type))).vm.mm.tables f i = 0 := by
      show s.vm.mm.tables f i = 0
      rw [htables]
    exact absurd hpresent (not_present_of_zero hzero)

/-- The middle page of a file is unmapped, with memory for the right part. -/
theorem vmmUnmap_exact_iff_split : ∃ s r c, OneArea s r (objectPages .file) ∧
    Mirrors c [objectPages .file] ∧
    UnmapExact s (unmapped 0 true s r (oneSpace r (objectPages .file)) 0x401000 4096) r
      [objectPages .file]
      (vmmUnmap 0 true s.vm (oneSpace r (objectPages .file)) 0x401000 4096).2.1.vmas
      0x401000 0x402000 ∧
    TreeKeeps c (unmapOps true [objectPages .file] 0x401000 4096)
      (vmmUnmap 0 true s.vm (oneSpace r (objectPages .file)) 0x401000 4096).2.1.vmas := by
  obtain ⟨s, r, hone⟩ := oneArea_objectPages .file
  obtain ⟨hr, ⟨U, data, pos, T, hsound⟩, layout, hlayout, hroot⟩ := id hone
  obtain ⟨c, hc⟩ := exists_mirrors (objectPages_good .file)
  have hclean : Clean c (unmapOps true [objectPages .file] 0x401000 4096) :=
    ⟨hc.notStale (show 1 < 4 by decide) _, fun _ _ => ⟨trivial, fun _ _ => ⟨trivial, fun _ _ =>
        trivial⟩⟩⟩
  refine ⟨s, r, c, hone, hc, ?_⟩
  refine (vmmUnmap_exact_iff hsound hr hlayout hroot 0 true 0x401000 4096 (by decide) (by decide)
    (by decide) hc hclean).2 ?_ ?_
  · intro a ha _ _
    rw [mem_singleton.1 ha]
    decide
  · rw [vmmUnmap_vmas 0 true s.vm (hsound.wellFormed r _ hr) (by decide) (by decide)]

/-- The middle page of shared memory is unmapped: the call reports success and is not exact. -/
def SplitFails (mem : Bool) : Prop :=
  ∃ s r, OneArea s r (objectPages .shm) ∧
    (vmmUnmap 0 mem s.vm (oneSpace r (objectPages .shm)) 0x401000 4096).2.2 = 0 ∧
    ¬ UnmapExact s (unmapped 0 mem s r (oneSpace r (objectPages .shm)) 0x401000 4096) r
      [objectPages .shm]
      (vmmUnmap 0 mem s.vm (oneSpace r (objectPages .shm)) 0x401000 4096).2.1.vmas
      0x401000 0x402000

theorem splitFails (mem : Bool) : SplitFails mem := by
  obtain ⟨s, r, hone⟩ := oneArea_objectPages .shm
  obtain ⟨hr, ⟨U, data, pos, T, hsound⟩, -⟩ := id hone
  have hwf : WellFormed [objectPages .shm] := hsound.wellFormed r _ hr
  have hareas : (vmmUnmap 0 mem s.vm (oneSpace r (objectPages .shm)) 0x401000 4096).2 = _ :=
    vmmUnmap_vmas 0 mem s.vm hwf (by decide) (by decide)
  refine ⟨s, r, hone, by rw [hareas], ?_⟩
  intro hexact
  have hvmas := hexact.areas
  rw [hareas] at hvmas
  have hsafe := (areasExact_iff hwf (by decide) (by decide) (by decide)).1 hvmas
    (objectPages .shm) mem_cons_self (by decide) (by decide)
  cases mem with
  | false | true => exact absurd hsafe (by decide)

/-- Without memory for the right part the area stays, and with memory the right part starts at the
beginning of the object. -/
theorem split_keeps_range : SplitFails false ∧ SplitFails true :=
  ⟨splitFails false, splitFails true⟩

end BoredOS.Mem.Vmm
