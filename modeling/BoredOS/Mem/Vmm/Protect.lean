import BoredOS.Mem.Vmm.Areas

/-!
# The Range of a Protection

`vmm_protect` is to change the permissions in its range and nowhere else. It does not split areas:
the flags of every area that meets the range are replaced as a whole, so the permissions change also
in those parts of the area that lie outside. The range is exact if and only if no area sticks out of
it with other permissions than the new ones (`vmmProtect_exact_iff`).
-/

namespace BoredOS.Mem.Vmm

open Lib.Intervals Pmm Mmu Area List
open Option (map_some some.inj)

/-- The bits for reading, writing and executing. -/
def permBits : BitVec 32 := vmaFlagRead ||| vmaFlagWrite ||| vmaFlagExec

def Area.perms (a : Area) : BitVec 32 := a.flags &&& permBits

/-- What an address has from the area around it: the permissions, the type, the file and the
position in the file. -/
def Area.viewAt (v : ℕ) (a : Area) : BitVec 32 × VmaType × Option ℕ × ℕ :=
  (a.perms, a.type, a.backingFile, a.fileOffset + (v - a.start))

/-- The mapped addresses of the range get the permissions, every other address keeps what it has. -/
def ProtectExact (vmas vmas' : List Area) (addr end_ : ℕ) (prot : BitVec 32) : Prop :=
  ∀ v, if addr ≤ v ∧ v < end_ then
      (vmaFind vmas' v).map perms = (vmaFind vmas v).map fun _ => vmaFlagsOf prot
    else (vmaFind vmas' v).map (viewAt v) = (vmaFind vmas v).map (viewAt v)

/-- Every area that meets the range has the permissions already, or it lies in the range and the end
of the range is a 64-bit word. -/
def ProtectSafe (vmas : List Area) (addr end_ : ℕ) (prot : BitVec 32) : Prop :=
  ∀ a ∈ vmas, a.start < end_ → addr < a.end_ →
    a.perms = vmaFlagsOf prot ∨ (end_ < 2 ^ 64 ∧ addr ≤ a.start ∧ a.end_ ≤ end_)

/-! ## The flags -/

theorem vmaFlagsOf_and_permBits (prot : BitVec 32) :
    vmaFlagsOf prot &&& permBits = vmaFlagsOf prot := by
  unfold vmaFlagsOf
  split <;> split <;> split <;> decide

/-- An area after the loop of `vmm_protect`. -/
def protectArea (addr end_ : ℕ) (prot : BitVec 32) (a : Area) : Area :=
  if a.start < end_ ∧ a.end_ > addr then
    { a with flags := (a.flags &&& ~~~permBits) ||| vmaFlagsOf prot }
  else a

theorem protectArea_bounds (addr end_ : ℕ) (prot : BitVec 32) (a : Area) :
    (protectArea addr end_ prot a).start = a.start ∧
        (protectArea addr end_ prot a).end_ = a.end_ := by
  unfold protectArea
  split <;> exact ⟨rfl, rfl⟩

/-- The areas that meet the range have the permissions, and nothing else of an area changes. -/
theorem protectArea_view (addr end_ : ℕ) (prot : BitVec 32) (a : Area) (v : ℕ) :
    (protectArea addr end_ prot a).viewAt v =
      (if a.start < end_ ∧ addr < a.end_ then vmaFlagsOf prot else a.perms, (a.viewAt v).2) := by
  have hperms : ((a.flags &&& ~~~permBits) ||| vmaFlagsOf prot) &&& permBits = vmaFlagsOf prot := by
    rw [BitVec.and_comm, BitVec.and_or_distrib_left, BitVec.and_comm permBits (vmaFlagsOf prot),
      vmaFlagsOf_and_permBits, BitVec.and_comm permBits, BitVec.and_assoc,
      BitVec.and_comm (~~~permBits), BitVec.and_not_self]
    simp
  unfold protectArea
  split
  next =>
    unfold viewAt perms
    rw [hperms]
  next => rfl

section

variable {vmas : List Area} {addr end_ : ℕ} {prot : BitVec 32}

theorem find_protect (h : WellFormed vmas) (v : ℕ) :
    vmaFind (vmas.map (protectArea addr end_ prot)) v =
      (vmaFind vmas v).map (protectArea addr end_ prot) := by
  have h' := h.map (protectArea_bounds addr end_ prot)
  rcases h.find_cases v with ⟨a, ha, hav, hfind⟩ | ⟨hnone, hfind⟩
  · rw [hfind, map_some, h'.find_eq_some]
    refine ⟨mem_map_of_mem ha, ?_⟩
    obtain ⟨hstart, hend⟩ := protectArea_bounds addr end_ prot a
    show (protectArea addr end_ prot a).start ≤ v ∧ v < (protectArea addr end_ prot a).end_
    rw [hstart, hend]
    exact hav
  · rw [hfind, Option.map_none]
    apply Separated.find?_eq_none.2
    intro b hb hbv
    obtain ⟨a, ha, rfl⟩ := mem_map.1 hb
    obtain ⟨hstart, hend⟩ := protectArea_bounds addr end_ prot a
    apply hnone a ha
    show a.start ≤ v ∧ v < a.end_
    rw [← hstart, ← hend]
    exact hbv

/-- The loop over the areas with an end that may have wrapped to zero: the range that it was asked
for is exact if and only if nothing sticks out of it. -/
theorem protectExact_iff (h : WellFormed vmas) {word : ℕ}
    (hword : end_ < 2 ^ 64 ∧ word = end_ ∨ 2 ^ 64 ≤ end_ ∧ word = 0) :
    ProtectExact vmas (vmas.map (protectArea addr word prot)) addr end_ prot ↔
      ProtectSafe vmas addr end_ prot := by
  have hview : ∀ a ∈ vmas, ∀ v, a.Covers v →
      (vmaFind (vmas.map (protectArea addr word prot)) v).map (viewAt v) =
        some (if a.start < word ∧ addr < a.end_ then vmaFlagsOf prot else a.perms, (a.viewAt v).2) ∧
      vmaFind vmas v = some a := by
    intro a ha v hav
    have hfind := h.find_eq_some.2 ⟨ha, hav⟩
    rw [find_protect h, hfind, map_some, map_some, protectArea_view]
    exact ⟨rfl, rfl⟩
  have hperms : ∀ v, (vmaFind (vmas.map (protectArea addr word prot)) v).map perms =
      ((vmaFind (vmas.map (protectArea addr word prot)) v).map (viewAt v)).map Prod.fst := by
    intro v
    rw [Option.map_map]
    rfl
  constructor
  · -- an address of the area, in the range for a wrapped end and outside of it otherwise
    intro hexact a ha hbefore hafter
    by_contra hnot
    obtain ⟨hne, hout⟩ := not_or.1 hnot
    have hgood := (h.good a ha).nonempty
    rcases hword with ⟨hlt, rfl⟩ | ⟨hle, rfl⟩
    · have hv : ∃ v, a.Covers v ∧ ¬ (addr ≤ v ∧ v < word) := by
        by_cases hlow : a.start < addr
        · exact ⟨a.start, ⟨le_refl _, hgood⟩, by omega⟩
        · exact ⟨a.end_ - 1, ⟨by omega, by omega⟩, by omega⟩
      obtain ⟨v, hav, hvout⟩ := hv
      have hv := hexact v
      obtain ⟨hnew, hold⟩ := hview a ha v hav
      rw [if_neg hvout, hnew, hold, if_pos ⟨hbefore, hafter⟩, map_some] at hv
      exact hne (Prod.mk.inj (some.inj hv)).1.symm
    · have hbounded := (h.good a ha).bounded
      have hv := hexact (max addr a.start)
      obtain ⟨hnew, hold⟩ := hview a ha (max addr a.start) ⟨by omega, by omega⟩
      rw [if_pos ⟨by omega, by omega⟩, hperms, hnew, hold, if_neg (by omega)] at hv
      exact hne (some.inj hv)
  · intro hsafe v
    rcases h.find_cases v with ⟨a, ha, hav, hfind⟩ | ⟨-, hfind⟩
    · obtain ⟨hnew, -⟩ := hview a ha v hav
      obtain ⟨hstart, hend⟩ := hav
      by_cases hmeet : a.start < end_ ∧ addr < a.end_
      · rw [hperms, hnew, hfind]
        rcases hsafe a ha hmeet.1 hmeet.2 with hsame | ⟨hlt, hinside⟩
        · -- the permissions are the same with and without the change
          rw [hsame, ite_self, ← hsame]
          split <;> rfl
        · obtain ⟨-, rfl⟩ := hword.resolve_right (fun hc => absurd hc.1 (by omega))
          rw [if_pos ⟨by omega, by omega⟩, if_pos hmeet]
          rfl
      · rw [if_neg (by omega), hnew, hfind, if_neg (by omega)]
        rfl
    · rw [find_protect h, hfind]
      split <;> rfl

end

/-! ## The call -/

/-- A protection returns, and it affects exactly its range if and only if no area that meets the
range sticks out of it with other permissions. -/
theorem vmmProtect_exact_iff (vm : Vm) (space : Space) {addr length : ℕ} (prot : BitVec 32)
    (hwf : WellFormed space.vmas) (haddr : addr % pageSize = 0) (hlen : 0 < length)
    (hwrap : addr + length < 2 ^ 64) :
    (vmmProtect vm space addr length prot).2.2 = 0 ∧
      (ProtectExact space.vmas (vmmProtect vm space addr length prot).2.1.vmas addr
        (rangeEnd addr length) prot ↔
      ProtectSafe space.vmas addr (rangeEnd addr length) prot) := by
  unfold vmmProtect
  rw [if_neg (by omega)]
  refine ⟨rfl, protectExact_iff hwf ?_⟩
  -- the end that the call computes is the end of the range, or zero
  unfold rangeEnd pageAlignUp
  unfold pageSize at *
  omega

/-! ## Concrete ranges -/

/-- A space with three pages for reading and writing. -/
def threePages : Space :=
  (vmmMap true (freshSpace 1) 0x400000 0x3000 (mmuProtRead ||| mmuProtWrite) 0 none 0).1

theorem wellFormed_threePages : WellFormed threePages.vmas := by
  have hvmas : threePages.vmas =
      [⟨0x400000, 0x403000, .anon, vmaFlagRead ||| vmaFlagWrite, none, 0⟩] := by
    decide
  rw [hvmas]
  refine ⟨.singleton (by decide), ?_⟩
  intro a ha
  rw [mem_singleton.1 ha]
  refine ⟨?_, ?_, ?_, ?_⟩ <;> decide

/-- All three pages become read-only. -/
theorem vmmProtect_exact_iff_threePages : ProtectExact threePages.vmas
      (vmmProtect bareVm threePages 0x400000 0x2FFF mmuProtRead).2.1.vmas 0x400000
      (rangeEnd 0x400000 0x2FFF) mmuProtRead := by
  have hsafe : ProtectSafe threePages.vmas 0x400000 (rangeEnd 0x400000 0x2FFF) mmuProtRead := by
    unfold ProtectSafe
    decide
  exact (vmmProtect_exact_iff bareVm threePages mmuProtRead wellFormed_threePages (by decide)
    (by decide) (by decide)).2.2 hsafe

/-- The first page is made read-only, and the last page cannot be written any more either. -/
theorem protect_changes_neighbour : WellFormed threePages.vmas ∧
      (vmmProtect bareVm threePages 0x400000 0x1000 mmuProtRead).2.2 = 0 ∧
      ((vmaFind threePages.vmas 0x402000).map perms,
        (vmaFind (vmmProtect bareVm threePages 0x400000 0x1000 mmuProtRead).2.1.vmas 0x402000).map
          perms) = (some (vmaFlagRead ||| vmaFlagWrite), some vmaFlagRead) ∧
      ¬ ProtectExact threePages.vmas
        (vmmProtect bareVm threePages 0x400000 0x1000 mmuProtRead).2.1.vmas 0x400000
        (rangeEnd 0x400000 0x1000) mmuProtRead := by
  refine ⟨wellFormed_threePages, by decide, by decide, ?_⟩
  intro hexact
  have hlast := hexact 0x402000
  revert hlast
  decide

end BoredOS.Mem.Vmm
