import BoredOS.Mem.Mmu.Layout
import BoredOS.Mem.Vmm.Areas

/-!
# What an Unmapping Leaves of the Areas

The loop of `vmm_unmap` walks over a list that it changes: areas are removed, shortened and put
back, and one may be split. On a well-formed list every area is dealt with at its own place
(`cutArea_eq`), so the list afterwards is the old one with each area replaced by what is left of it
(`unmapVmas_eq`). An end that has wrapped lies at or below the start of the range; the right part of
an area that is cut around such a range overlaps the left one, and the insertion refuses it.
-/

namespace BoredOS.Mem.Vmm

open Lib.Intervals Pmm Mmu List

/-- The part of an area from an address on. Only files have their offset moved. -/
def Area.from (a : Area) (v : ℕ) : Area :=
  { a with
    start := v
    fileOffset := if a.type = .file then (a.fileOffset + (v - a.start)) % 2 ^ 64 else a.fileOffset }

/-- The right part of an area that is split is a new one: its offset is zero unless it is a file. -/
def Area.splitFrom (a : Area) (v : ℕ) : Area :=
  { a with
    start := v
    fileOffset := if a.type = .file then (a.fileOffset + (v - a.start)) % 2 ^ 64 else 0 }

/-- What is left of an area. -/
def remnants (mem : Bool) (addr end_ : ℕ) (a : Area) : List Area :=
  if a.start ≥ end_ ∨ a.end_ ≤ addr then [a]
  else if a.start ≥ addr ∧ a.end_ ≤ end_ then []
  else if a.start < addr ∧ a.end_ > end_ then
    if mem = false then [a]
    else if end_ < addr then [{ a with end_ := addr }]
    else [{ a with end_ := addr }, a.splitFrom end_]
  else if a.start < addr then [{ a with end_ := addr }]
  else [a.from end_]

/-! ## One area -/

section

variable (mem : Bool) {a : Area} {addr end_ : ℕ} {p q : List Area}

theorem pageAlignDown_of_aligned {x : ℕ} (h : x % pageSize = 0) : pageAlignDown x = x := by
  unfold pageAlignDown
  unfold pageSize at *
  omega

theorem pageAlignUp_of_aligned {x : ℕ} (h : x % pageSize = 0) (hlt : x < 2 ^ 64) :
    pageAlignUp x = x := by
  unfold pageAlignUp
  unfold pageSize at *
  omega

theorem Area.Good.left (ha : a.Good) (haddr : addr % pageSize = 0) (hstart : a.start < addr)
    (hend : addr < a.end_) : Area.Good { a with end_ := addr } :=
  ⟨hstart, ha.start_aligned, haddr, lt_trans hend ha.bounded⟩

theorem Area.Good.from (ha : a.Good) (hend : end_ % pageSize = 0) (hlt : end_ < a.end_) :
    (a.from end_).Good :=
  ⟨hlt, hend, ha.end_aligned, ha.bounded⟩

theorem Area.Good.splitFrom (ha : a.Good) (hend : end_ % pageSize = 0) (hlt : end_ < a.end_) :
    (a.splitFrom end_).Good :=
  ⟨hlt, hend, ha.end_aligned, ha.bounded⟩

theorem remnants_wellFormed (ha : a.Good) (haddr : addr % pageSize = 0)
    (hend : end_ % pageSize = 0) : WellFormed (remnants mem addr end_ a) ∧
      ∀ b ∈ remnants mem addr end_ a, a.start ≤ b.start ∧ b.end_ ≤ a.end_ := by
  have hone : ∀ b : Area, b.Good → WellFormed [b] := by
    intro b hb
    refine ⟨.singleton hb.nonempty, ?_⟩
    intro c hc
    rw [mem_singleton.1 hc]
    exact hb
  have hsingle : ∀ b : Area, b.Good → a.start ≤ b.start → b.end_ ≤ a.end_ →
      WellFormed [b] ∧ ∀ c ∈ [b], a.start ≤ c.start ∧ c.end_ ≤ a.end_ := by
    intro b hb hstart hend
    refine ⟨hone b hb, ?_⟩
    intro c hc
    rw [mem_singleton.1 hc]
    exact ⟨hstart, hend⟩
  have hwhole := hsingle a ha (le_refl _) (le_refl _)
  unfold remnants
  split
  next => exact hwhole
  next hmeet =>
    split
    next => exact ⟨.nil, fun _ hb => absurd hb not_mem_nil⟩
    next =>
      split
      next hmiddle =>
        have hleft := ha.left haddr hmiddle.1 (by omega)
        have hright := ha.splitFrom hend hmiddle.2
        split
        next => exact hwhole
        next =>
          split
          next => exact hsingle _ hleft (le_refl _) (by show addr ≤ a.end_; omega)
          next hle =>
            refine ⟨.insert (p := [_]) (q := []) (hone _ hleft) hright ?_ ?_, ?_⟩
            · intro b hb
              rw [mem_singleton.1 hb]
              exact Nat.le_of_not_lt hle
            · exact fun b hb => absurd hb not_mem_nil
            · intro b hb
              rcases mem_cons.1 hb with rfl | hb
              · exact ⟨le_refl _, by show addr ≤ a.end_; omega⟩
              · rw [mem_singleton.1 hb]
                exact ⟨by show a.start ≤ end_; omega, le_refl _⟩
      next =>
        split
        next hleft =>
          exact hsingle _ (ha.left haddr hleft (by omega)) (le_refl _)
            (by show addr ≤ a.end_; omega)
        next =>
          exact hsingle _ (ha.from hend (by omega)) (by show a.start ≤ end_; omega) (le_refl _)

/-- What is left of an area is of its kind. -/
theorem remnants_kind {b : Area} (hb : b ∈ remnants mem addr end_ a) :
    b.flags = a.flags ∧ b.type = a.type := by
  have hcases : b = a ∨ b = { a with end_ := addr } ∨ b = a.splitFrom end_ ∨ b = a.from end_ := by
    unfold remnants at hb
    split_ifs at hb <;> simp only [mem_cons, not_mem_nil, or_false] at hb <;> tauto
  rcases hcases with rfl | rfl | rfl | rfl <;> exact ⟨rfl, rfl⟩

/-- Nothing is left of an area if and only if it meets the range and lies in it. -/
theorem remnants_eq_nil_iff : remnants mem addr end_ a = [] ↔
    ¬ (a.start ≥ end_ ∨ a.end_ ≤ addr) ∧ a.start ≥ addr ∧ a.end_ ≤ end_ := by
  unfold remnants
  split
  next hskip => simp [hskip]
  next hmeet =>
    split
    next hin => simp [hmeet, hin]
    next hin =>
      refine iff_of_false ?_ fun hc => hin hc.2
      split_ifs <;> simp

section

variable (h : WellFormed (p ++ a :: q)) (haddr : addr % pageSize = 0) (hend : end_ % pageSize = 0)

include h haddr hend

/-- An area that meets the range is cut at its own place. -/
theorem cutArea_eq (hmeet : a.start < end_ ∧ addr < a.end_) :
    cutArea mem (p ++ a :: q) a addr end_ = p ++ (remnants mem addr end_ a ++ q) := by
  have ha : a.Good := h.good a (mem_append_right p mem_cons_self)
  have hskip : ¬ (a.start ≥ end_ ∨ a.end_ ≤ addr) := by omega
  have hreleft : a.start < addr → vmaInsert (vmaRemove (p ++ a :: q) a) { a with end_ := addr } =
      (p ++ { a with end_ := addr } :: q, true) :=
    fun hlt => h.reinsert_eq hlt (le_refl _) (le_of_lt hmeet.2)
  unfold cutArea remnants
  split
  next => exact h.remove_eq
  next hnot =>
    split
    next hmiddle =>
      unfold vmaCreate
      rw [pageAlignDown_of_aligned hend, pageAlignUp_of_aligned ha.end_aligned ha.bounded]
      cases mem with
      | false => simp
      | true =>
        simp only [Bool.true_eq_false, if_false, hreleft hmiddle.1, or_false,
          if_neg (not_le.2 hmiddle.2), ge_iff_le]
        change (vmaInsert (p ++ { a with end_ := addr } :: q) (a.splitFrom end_)).1 = _
        -- the right part finds the left one in its way if the end has wrapped
        by_cases hwrapped : end_ < addr
        · have hrefused : vmaInsert (p ++ { a with end_ := addr } :: q) (a.splitFrom end_) =
              (p ++ { a with end_ := addr } :: q, false) :=
            WellFormed.insert_refused (mem_append_right p mem_cons_self)
              ⟨hwrapped, lt_trans hmeet.1 hmiddle.2⟩
          rw [if_pos hwrapped, hrefused]
          rfl
        · rw [if_neg hwrapped]
          have hleft := ha.left haddr hmiddle.1 hmeet.2
          have hwf : WellFormed ((p ++ [{ a with end_ := addr }]) ++ q) := by
            rw [append_assoc]
            apply h.replace ⟨.singleton hleft.nonempty, ?_⟩
            · intro b hb
              rw [mem_singleton.1 hb]
              exact ⟨le_refl _, le_of_lt hmeet.2⟩
            · intro b hb
              rw [mem_singleton.1 hb]
              exact hleft
          obtain ⟨-, haq, hcross⟩ := Separated.append_iff.1 h.separated
          obtain ⟨-, -, haq⟩ := Separated.cons_iff.1 haq
          have hins := hwf.insert_eq (a := a.splitFrom end_) hmiddle.2 ?_ haq
          · rw [append_assoc, append_assoc] at hins
            exact congrArg Prod.fst hins
          · intro b hb
            rcases mem_append.1 hb with hb | hb
            · exact le_trans (hcross b hb a mem_cons_self) (le_of_lt hmeet.1)
            · rw [mem_singleton.1 hb]
              exact Nat.le_of_not_lt hwrapped
    next hnotmiddle =>
      split
      next hleft =>
        rw [if_pos hleft.1, hreleft hleft.1]
        rfl
      next hnotleft =>
        have hright : vmaInsert (vmaRemove (p ++ a :: q) a) (a.from end_) =
            (p ++ a.from end_ :: q, true) :=
          h.reinsert_eq (by show end_ < a.end_; omega) (le_of_lt hmeet.1) (le_refl _)
        have hstart : ¬ a.start < addr := by omega
        have hover : a.start ≥ addr ∧ a.end_ > end_ := by omega
        rw [if_pos hover, if_neg hstart]
        exact congrArg Prod.fst hright

/-! ## The loop -/

end

/-- The loop of `vmm_unmap` replaces every area by what is left of it. -/
theorem unmapVmas_eq (haddr : addr % pageSize = 0) (hend : end_ % pageSize = 0) (cpu : ℕ)
    (zero : Option ℕ) (pml4 : ℕ) : ∀ (q p : List Area) (m : Mm), WellFormed (p ++ q) →
    (q.foldl (unmapArea cpu mem zero pml4 addr end_) (m, p ++ q)).2 =
      p ++ q.flatMap (remnants mem addr end_) := by
  intro q
  induction q with
  | nil => exact fun p m _ => rfl
  | cons a q ih =>
    intro p m h
    have ha : a.Good := h.good a (mem_append_right p mem_cons_self)
    obtain ⟨hpieces, hinside⟩ := remnants_wellFormed mem ha haddr hend
    have hstep : (unmapArea cpu mem zero pml4 addr end_ (m, p ++ a :: q) a).2 =
        p ++ (remnants mem addr end_ a ++ q) := by
      unfold unmapArea
      dsimp only
      split
      next hskip =>
        unfold remnants
        rw [if_pos hskip]
        rfl
      next hmeet => exact cutArea_eq mem h haddr hend (by omega)
    rw [foldl_cons, flatMap_cons, ← append_assoc]
    generalize unmapArea cpu mem zero pml4 addr end_ (m, p ++ a :: q) a = r at hstep
    obtain ⟨m', vmas⟩ := r
    obtain rfl : vmas = p ++ (remnants mem addr end_ a ++ q) := hstep
    have hnext := h.replace hpieces hinside
    rw [← append_assoc] at hnext ⊢
    exact ih _ m' hnext

end

variable {addr length : ℕ} {space : Space}

/-- The end of the range is a whole page, also when it has wrapped. -/
theorem wrapped_end_aligned (length : ℕ) (haddr : addr % pageSize = 0) :
    (addr + pageAlignUp length) % 2 ^ 64 % pageSize = 0 := by
  unfold pageAlignUp
  unfold pageSize at *
  omega

variable (cpu : ℕ)

theorem vmmUnmap_vmas (mem : Bool) (vm : Vm)
    (h : WellFormed space.vmas) (haddr : addr % pageSize = 0) (hlen : 0 < length) :
    (vmmUnmap cpu mem vm space addr length).2 = ({ space with
        vmas := space.vmas.flatMap (remnants mem addr ((addr + pageAlignUp length) % 2 ^ 64)) },
        0) := by
  unfold vmmUnmap
  rw [if_neg (by omega)]
  have hloop := unmapVmas_eq mem haddr (wrapped_end_aligned length haddr) cpu
    vm.zeroPage space.pml4 space.vmas [] vm.mm h
  rw [nil_append, nil_append] at hloop
  dsimp only
  rw [hloop]

theorem WellFormed.unmap {vmas : List Area} {mem : Bool} {end_ : ℕ} (h : WellFormed vmas)
    (haddr : addr % pageSize = 0) (hend : end_ % pageSize = 0) :
    WellFormed (vmas.flatMap (remnants mem addr end_)) :=
  h.flatMap (fun a ha => (remnants_wellFormed mem (h.good a ha) haddr hend).1)
    fun a ha => (remnants_wellFormed mem (h.good a ha) haddr hend).2

/-! ## The tables -/

theorem tables_unrefRange (zero : Option ℕ) (m : Mm) (pml4 start pages : ℕ) :
    (unrefRange cpu zero m pml4 start pages).tables = m.tables := by
  unfold unrefRange
  generalize List.range pages = is
  induction is generalizing m with
  | nil => rfl
  | cons i is ih =>
    rw [foldl_cons, ih]
    unfold unrefMapped
    dsimp only
    split
    · rfl
    · split
      · rfl
      · split <;> rfl

/-- The loop over the areas touches no table. -/
theorem tables_unmapAreas (mem : Bool) (zero : Option ℕ) (pml4 addr end_ : ℕ)
    (areas : List Area) : ∀ acc : Mm × List Area,
    (areas.foldl (unmapArea cpu mem zero pml4 addr end_) acc).1.tables = acc.1.tables := by
  induction areas with
  | nil => exact fun _ => rfl
  | cons a areas ih =>
    intro acc
    rw [foldl_cons, ih]
    unfold unmapArea
    dsimp only
    split
    · rfl
    · split
      · exact tables_unrefRange _ _ _ _ _ _
      · rfl

/-- An unmapping in the user half leaves the kernel half alone. -/
theorem vmmUnmap_kernelSame (mem : Bool) (vm : Vm)
    {pos : ℕ → Option Pos} (hl : Layout pos vm.mm.tables) (hr : IsRoot pos space.pml4)
    (huser : addr % pageSize = 0 → ∀ i < pageAlignUp length / pageSize,
      pml4Idx (pageAt addr i) < 256) :
    KernelSame pos space.pml4 vm.mm.tables (vmmUnmap cpu mem vm space addr length).1.mm.tables := by
  unfold vmmUnmap
  split
  next => exact (UserErased.refl pos _ vm.mm.tables).kernelSame hr
  next hbad =>
    rw [not_or, not_not] at hbad
    -- the loop over the areas touches no table
    have hm := tables_unmapAreas cpu mem vm.zeroPage space.pml4 addr
      ((addr + pageAlignUp length) % 2 ^ 64) space.vmas (vm.mm, space.vmas)
    have herased := mmuUnmapPages_erased cpu hr addr (List.range (pageAlignUp length / pageSize)) _
      (by rw [hm]; exact hl) fun i hi => huser hbad.2 i (mem_range.1 hi)
    dsimp only
    unfold mmuUnmapPages
    rw [if_neg (not_not.2 hbad.2)]
    rw [hm] at herased
    exact herased.kernelSame hr

end BoredOS.Mem.Vmm
