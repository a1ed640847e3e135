import BoredOS.Mem.Mmu.Model

/-!
# Translations Page by Page

`mmu_virt_to_phys` walks down to an entry and adds the place in the page. `lastEntry` is where the
walk ends, with the user bits on the way. Both depend on the page of an address only: addresses of
one page have one last entry and translate to one frame, large pages included.
-/

namespace BoredOS.Mem.Mmu

open Pmm BitVec

/-- The last entry of a translation, and whether all its entries are for user access. -/
def lastEntry (m : Mm) (pml4 virt : ℕ) : Option (Pte × Bool) :=
  let e4 := m.tables pml4 (pml4Idx virt)
  if ¬ Has e4 ptPresent ∨ isValidTablePhys m.pmm (physOf e4) = false then none
  else
    let e3 := m.tables (frameOf e4) (pdptIdx virt)
    let u3 := decide (Has e4 ptUser) && decide (Has e3 ptUser)
    if ¬ Has e3 ptPresent then none
    else if Has e3 ptHuge then some (e3, u3)
    else if isValidTablePhys m.pmm (physOf e3) = false then none
    else
      let e2 := m.tables (frameOf e3) (pdIdx virt)
      let u2 := u3 && decide (Has e2 ptUser)
      if ¬ Has e2 ptPresent then none
      else if Has e2 ptHuge then some (e2, u2)
      else if isValidTablePhys m.pmm (physOf e2) = false then none
      else
        let e1 := m.tables (frameOf e2) (ptIdx virt)
        if ¬ Has e1 ptPresent then none else some (e1, u2 && decide (Has e1 ptUser))

/-! ## Translations page by page -/

section

variable {m : Mm} {r v v' : ℕ} (hpage : v / pageSize = v' / pageSize)
include hpage

theorem indices_eq : pml4Idx v = pml4Idx v' ∧ pdptIdx v = pdptIdx v' ∧ pdIdx v = pdIdx v' ∧
    ptIdx v = ptIdx v' := by
  unfold pml4Idx pdptIdx pdIdx ptIdx
  unfold pageSize at hpage
  omega

theorem lastEntry_eq : lastEntry m r v = lastEntry m r v' := by
  obtain ⟨h4, h3, h2, h1⟩ := indices_eq hpage
  unfold lastEntry
  rw [h4, h3, h2, h1]

end

/-- The page of `v` is mapped from `base` on, in a mapping of `size` bytes. -/
structure MapsPage (m : Mm) (r v base size : ℕ) : Prop where
  base_mod : base % pageSize = 0
  size_eq : size = 2 ^ 30 ∨ size = 2 ^ 21 ∨ size = pageSize
  translates : ∀ v', v / pageSize = v' / pageSize → mmuVirtToPhys m r v' = base + v' % size

/-- How a walk ends, for all addresses that read the same entries: at a missing entry, or at the
last entry of a mapping. -/
def Ends (last : Option (Pte × Bool)) (phys : ℕ → ℕ) : Prop :=
  (last = none ∧ ∀ w, phys w = 0) ∨ ∃ x base size, last = some x ∧ base % pageSize = 0 ∧
    (size = 2 ^ 30 ∨ size = 2 ^ 21 ∨ size = pageSize) ∧ ∀ w, phys w = base + w % size

namespace Ends

theorem missing : Ends none fun _ => 0 := .inl ⟨rfl, fun _ => rfl⟩

theorem mapping {e : Pte} {user : Bool} {size : ℕ} (mask : BitVec 64)
    (hmask : mask.setWidth 12 = 0#12) (hsize : size = 2 ^ 30 ∨ size = 2 ^ 21 ∨ size = pageSize) :
    Ends (some (e, user)) fun w => (e &&& mask).toNat + w % size := by
  refine .inr ⟨_, _, size, rfl, ?_, hsize, fun _ => rfl⟩
  have h : ((e &&& mask).setWidth 12).toNat = 0 := by
    rw [setWidth_and, hmask, and_zero]
    rfl
  rwa [toNat_setWidth] at h

theorem ite {c : Prop} [Decidable c] {last last' : Option (Pte × Bool)} {phys phys' : ℕ → ℕ}
    (h : Ends last phys) (h' : Ends last' phys') :
    Ends (if c then last else last') fun w => if c then phys w else phys' w := by
  by_cases hc : c
  · simpa only [if_pos hc] using h
  · simpa only [if_neg hc] using h'

end Ends

/-- A walk ends at a missing entry, or at the last entry of a mapping. -/
theorem lastEntry_cases (m : Mm) (r v : ℕ) : (lastEntry m r v = none ∧ mmuVirtToPhys m r v = 0) ∨
    ∃ x base size, lastEntry m r v = some x ∧ MapsPage m r v base size := by
  -- the walk level by level, each with the ways in which it can end there
  have hwalk : ∃ phys, Ends (lastEntry m r v) phys ∧
      ∀ v', v / pageSize = v' / pageSize → mmuVirtToPhys m r v' = phys v' := by
    unfold lastEntry
    dsimp only
    refine ⟨_, .ite .missing (.ite .missing (.ite (.mapping pt1gAddrMask (by decide) (.inl rfl))
      (.ite .missing (.ite .missing (.ite (.mapping pt2mAddrMask (by decide) (.inr (.inl rfl)))
        (.ite .missing (.ite .missing
          (.mapping ptAddrMask (by decide) (.inr (.inr rfl)))))))))), ?_⟩
    intro v' hpage
    obtain ⟨h4, h3, h2, h1⟩ := indices_eq hpage.symm
    unfold mmuVirtToPhys
    rw [h4, h3, h2, h1]
    rfl
  obtain ⟨phys, ⟨hnone, hzero⟩ | ⟨x, base, size, hsome, hbase, hsize, hphys⟩, hsame⟩ := hwalk
  · exact .inl ⟨hnone, (hsame v rfl).trans (hzero v)⟩
  · exact .inr ⟨x, base, size, hsome, hbase, hsize, fun v' hpage =>
      (hsame v' hpage).trans (hphys v')⟩

variable {m : Mm} {r v : ℕ} {x : Pte × Bool}

theorem mapsPage_of_lastEntry (h : lastEntry m r v = some x) :
    ∃ base size, MapsPage m r v base size := by
  obtain ⟨hnone, -⟩ | ⟨-, base, size, -, hmaps⟩ := lastEntry_cases m r v
  · rw [hnone] at h
    cases h
  · exact ⟨base, size, hmaps⟩

theorem lastEntry_of_translated (h : mmuVirtToPhys m r v ≠ 0) : ∃ x, lastEntry m r v = some x := by
  obtain ⟨-, hzero⟩ | ⟨x, -, -, hx, -⟩ := lastEntry_cases m r v
  · exact absurd hzero h
  · exact ⟨x, hx⟩

/-- Addresses of one page that is mapped translate to addresses of one frame. -/
theorem mmuVirtToPhys_shift {v' : ℕ} (hpage : v / pageSize = v' / pageSize)
    (h : lastEntry m r v = some x) :
    mmuVirtToPhys m r v' + v % pageSize = mmuVirtToPhys m r v + v' % pageSize := by
  obtain ⟨base, size, -, hsize, htrans⟩ := mapsPage_of_lastEntry h
  rw [htrans v' hpage, htrans v rfl]
  unfold pageSize at *
  rcases hsize with rfl | rfl | rfl <;> omega

/-- A translation keeps the place in the page. -/
theorem mmuVirtToPhys_mod (h : lastEntry m r v = some x) :
    mmuVirtToPhys m r v % pageSize = v % pageSize := by
  obtain ⟨base, size, hbase, hsize, htrans⟩ := mapsPage_of_lastEntry h
  rw [htrans v rfl]
  unfold pageSize at *
  rcases hsize with rfl | rfl | rfl <;> omega

end BoredOS.Mem.Mmu
