import BoredOS.Mem.Vmm.Tree

/-!
# The Heap of a Space

After `vmm_brk` the break is to be the requested one and the heap area is to end with it, or nothing
is to have changed. Growing takes the heap area out of the space, moves its end and puts it back,
and what the insertion returns is dropped: with another area in the way the heap area is lost while
the break moves on. The same goes for a first heap area that cannot be created or inserted. The heap
area is looked up as the first one with `VMA_FLAG_HEAP`, which after an unmapping within the heap
need not start at `brk_start` or be the only one. The first request sets the break to the heap base
even if it is refused. In every run that avoids these cases, each call is consistent if and only if
it avoids them too (`heap_run_consistent`). The container of the space goes along with the calls: as
long as no removal is a stale splice it has the areas of the list.
-/

namespace BoredOS.Mem.Vmm

open Lib.Intervals Lib.Transition Pmm Mmu List Nat Area

variable {space : Space} {newBrk : ℕ} {heap : Area}

/-! ## Consistency -/

/-- The end of the heap for a break, as a number and not as a word. -/
def heapEnd (brk : ℕ) : ℕ := (brk + (pageSize - 1)) / pageSize * pageSize

/-- There is one heap area and it ends with the break. -/
def HeapExact (vmas : List Area) (start brk : ℕ) : Prop :=
  ∃ heap ∈ vmas, heap.isHeap = true ∧ heap.start = start ∧ heap.end_ = heapEnd brk ∧
    ∀ a ∈ vmas, a.isHeap = true → a = heap

/-- What a call of `vmm_brk` is to leave. -/
def BrkOutcome (before : Space) (newBrk : ℕ) (after : Space) : Prop :=
  (after.brkCurrent = before.brkCurrent ∧ after.vmas = before.vmas) ∨ (after.brkCurrent = newBrk ∧
      (after.brkStart < heapEnd after.brkCurrent →
        HeapExact after.vmas after.brkStart after.brkCurrent))

/-- A heap area that is in the space before a call has been destroyed or is there still, possibly
with other bounds. -/
def NoLoss (vmas vmas' destroyed : List Area) : Prop :=
  ∀ heap ∈ vmas, heap.isHeap = true → heap ∈ destroyed ∨
    ∃ a ∈ vmas', a.isHeap = true ∧ heap.start < a.end_ ∧ a.start < heap.end_

inductive HeapOp where
  | brk (cpu : ℕ) (mem : Bool) (newBrk : ℕ)
  | map (mem : Bool) (hint length : ℕ) (prot flags : BitVec 32) (file : Option ℕ) (offset : ℕ)
  | unmap (cpu : ℕ) (mem : Bool) (addr length : ℕ)

/-- The areas that `vmm_unmap` destroys. -/
def unmapDestroyed (vmas : List Area) (addr length : ℕ) : List Area :=
  if length = 0 ∨ addr % pageSize ≠ 0 then []
  else
    let end_ := (addr + pageAlignUp length) % 2 ^ 64
    vmas.filter fun a => !decide (a.start ≥ end_ ∨ a.end_ ≤ addr) &&
      decide (a.start ≥ addr ∧ a.end_ ≤ end_)

def applyHeapOp (vm : Vm) (space : Space) : HeapOp → SpaceResult
  | .brk cpu mem newBrk => vmmBrk cpu mem vm space newBrk
  | .map mem hint length prot flags file offset =>
    ⟨vm, (vmmMap mem space hint length prot flags file offset).1, []⟩
  | .unmap cpu mem addr length =>
    let (vm, space', _) := vmmUnmap cpu mem vm space addr length
    ⟨vm, space', unmapDestroyed space.vmas addr length⟩

/-- What a call is to do to the heap. -/
def HeapConsistent (vm : Vm) (space : Space) (op : HeapOp) : Prop :=
  NoLoss space.vmas (applyHeapOp vm space op).space.vmas (applyHeapOp vm space op).destroyed ∧
    ∀ cpu mem newBrk, op = .brk cpu mem newBrk →
      BrkOutcome space newBrk (applyHeapOp vm space op).space

/-! ## The condition -/

/-- Where the heap starts or will start. -/
def heapStart (space : Space) : ℕ := if space.brkStart = 0 then heapBase else space.brkStart

/-- The heap fits: its end is a word, an area of the heap starts where the heap does, and no other
area is in the way. -/
structure HeapRoom (vmas : List Area) (base newBrk : ℕ) : Prop where
  word : heapEnd newBrk < 2 ^ 64
  heap : ∀ a ∈ vmas, a.isHeap = true → a.start = base
  free : ∀ a ∈ vmas, a.isHeap = false → a.end_ ≤ base ∨ heapEnd newBrk ≤ a.start

/-- The request is one for the break, is below a heap that has been set up, is for an empty heap, or
finds the room and the memory that it needs. -/
def BrkSafe (mem : Bool) (space : Space) (newBrk : ℕ) : Prop :=
  newBrk = 0 ∨ newBrk = space.brkCurrent ∨ (space.brkStart ≠ 0 ∧ newBrk < space.brkStart) ∨
    newBrk = heapStart space ∨
    (heapStart space < newBrk ∧ HeapRoom space.vmas (heapStart space) newBrk ∧
      (mem = true ∨ ∃ a ∈ space.vmas, a.isHeap = true))

def HeapSafe (space : Space) : HeapOp → Prop
  | .brk _ mem newBrk => BrkSafe mem space newBrk
  | _ => True

/-! ## The invariant -/

/-- A space that has been made by calls with room for the heap. -/
structure HeapInv (space : Space) : Prop where
  wellFormed : WellFormed space.vmas
  start : (space.brkStart = 0 ∧ space.brkCurrent = 0 ∧ ∀ a ∈ space.vmas, a.isHeap = false) ∨
    (space.brkStart = heapBase ∧ heapBase ≤ space.brkCurrent)
  above : ∀ a ∈ space.vmas, a.isHeap = true → heapBase ≤ a.start

variable {vmas' destroyed : List Area}

theorem HeapInv.heapStart_eq (h : HeapInv space) : heapStart space = heapBase := by
  unfold heapStart
  rcases h.start with ⟨hzero, -, -⟩ | ⟨hbase, -⟩
  · exact if_pos hzero
  · rw [hbase]
    rfl

/-- The space that `vmm_brk` works on once the base is set. -/
theorem HeapInv.started (h : HeapInv space) : ∃ c, heapBase ≤ c ∧
    (if space.brkStart = 0 then { space with brkStart := heapBase, brkCurrent := heapBase }
      else space) = { space with brkStart := heapBase, brkCurrent := c } := by
  rcases h.start with ⟨hzero, -, -⟩ | ⟨hbase, hle⟩
  · exact ⟨heapBase, le_refl _, if_pos hzero⟩
  · refine ⟨space.brkCurrent, hle, ?_⟩
    rw [if_neg (by rw [hbase]; decide), ← hbase]

theorem pageAlignUp_eq_heapEnd (h : heapEnd newBrk < 2 ^ 64) :
    pageAlignUp newBrk = heapEnd newBrk := by
  unfold pageAlignUp
  unfold heapEnd at *
  unfold pageSize at *
  omega

theorem heapBase_lt_heapEnd (h : heapBase < newBrk) : heapBase < heapEnd newBrk := by
  unfold heapEnd heapBase pageSize at *
  omega

theorem pageAlignUp_lt (x : ℕ) : pageAlignUp x < 2 ^ 64 := by
  unfold pageAlignUp pageSize
  omega

section

variable {vmas : List Area}

/-- A heap area that is inserted among areas that do not belong to the heap. -/
theorem heapExact_insert (hnone : ∀ a ∈ vmas, a.isHeap = false)
    (hheap : heap.isHeap = true) (hstart : heap.start = heapBase)
    (hend : heap.end_ = heapEnd newBrk)
    (hfree : ∀ a ∈ vmas, heapEnd newBrk ≤ a.start ∨ a.end_ ≤ heapBase) :
    HeapExact (vmaInsert vmas heap).1 heapBase newBrk := by
  rw [← hstart, ← hend] at hfree
  have hins := mem_vmaInsert_of_free hfree
  refine ⟨heap, (hins heap).2 (.inl rfl), hheap, hstart, hend, ?_⟩
  intro a ha hheap'
  rcases (hins a).1 ha with rfl | ha
  · rfl
  · rw [hnone a ha] at hheap'
    cases hheap'

def newHeap (end_ : ℕ) : Area :=
  ⟨heapBase, end_, .anon, vmaFlagRead ||| vmaFlagWrite ||| vmaFlagHeap, none, 0⟩

/-- The areas after the first heap area has been asked for. -/
def createdVmas (mem : Bool) (vmas : List Area) (newBrk : ℕ) : List Area :=
  if heapBase < pageAlignUp newBrk ∧ mem = true then
    (vmaInsert vmas (newHeap (pageAlignUp newBrk))).1
  else vmas

theorem brkCreate_space (hbase : space.brkStart = heapBase) (mem : Bool) (vm : Vm) (newBrk : ℕ) :
    (brkCreate mem vm space newBrk).space =
      { space with vmas := createdVmas mem space.vmas newBrk, brkCurrent := newBrk } := by
  have hcreate : vmaCreate mem heapBase (pageAlignUp newBrk) .anon
      (vmaFlagRead ||| vmaFlagWrite ||| vmaFlagHeap) =
      if heapBase ≥ pageAlignUp newBrk ∨ mem = false then none
      else some (newHeap (pageAlignUp newBrk)) := by
    unfold vmaCreate newHeap
    rw [pageAlignUp_of_aligned (x := pageAlignUp newBrk) (mul_mod_left _ _)
      (pageAlignUp_lt newBrk)]
    rfl
  unfold brkCreate createdVmas
  dsimp only
  rw [hbase, hcreate]
  cases mem with
  | false => simp
  | true =>
    split
    next hgt => rw [if_neg (by simp; exact hgt), if_pos ⟨hgt, rfl⟩]
    next hgt => rw [if_neg fun hc => hgt hc.1]

/-- The new heap area is exact if and only if there is room and memory for it. -/
theorem created_exact_iff (hnone : ∀ a ∈ vmas, a.isHeap = false) (hlt : heapBase < newBrk)
    (mem : Bool) : HeapExact (createdVmas mem vmas newBrk) heapBase newBrk ↔
      HeapRoom vmas heapBase newBrk ∧ mem = true := by
  have hlt' := heapBase_lt_heapEnd hlt
  have hno : ∀ a ∈ vmas, a.isHeap ≠ true := fun a ha => by simp [hnone a ha]
  unfold createdVmas
  constructor
  · rintro ⟨heap, hmem, hheap, -, hend, -⟩
    split at hmem
    next hcond =>
      rcases vmaInsert_mem vmas (newHeap (pageAlignUp newBrk)) with hsame | ⟨hfree, hins⟩
      · rw [hsame] at hmem
        exact absurd hheap (hno heap hmem)
      · rcases (hins heap).1 hmem with rfl | hold
        · have hword : heapEnd newBrk < 2 ^ 64 := hend ▸ pageAlignUp_lt newBrk
          rw [pageAlignUp_eq_heapEnd hword] at hfree
          exact ⟨⟨hword, fun a ha hheap' => absurd hheap' (hno a ha),
            fun a ha _ => (hfree a ha).symm⟩, hcond.2⟩
        · exact absurd hheap (hno heap hold)
    next => exact absurd hheap (hno heap hmem)
  · rintro ⟨hroom, hmem⟩
    rw [pageAlignUp_eq_heapEnd hroom.word, if_pos ⟨hlt', hmem⟩]
    apply heapExact_insert hnone _ rfl rfl fun a ha => (hroom.free a ha (hnone a ha)).symm
    show decide (Has (vmaFlagRead ||| vmaFlagWrite ||| vmaFlagHeap) vmaFlagHeap) = true
    decide

structure FirstHeap (vmas : List Area) (heap : Area) (p q : List Area) : Prop where
  eq : vmas = p ++ heap :: q
  isHeap : heap.isHeap = true
  others : ∀ a ∈ p ++ q, a.isHeap = true → heap.start < a.start

theorem firstHeap_of_find (hwf : WellFormed vmas)
    (hfind : vmas.find? isHeap = some heap) : ∃ p q, FirstHeap vmas heap p q := by
  obtain ⟨hheap, p, q, rfl, hp⟩ := find?_eq_some_iff_append.1 hfind
  obtain ⟨-, haq, -⟩ := Separated.append_iff.1 hwf.separated
  obtain ⟨hnonempty, -, haq⟩ := Separated.cons_iff.1 haq
  refine ⟨p, q, rfl, hheap, ?_⟩
  intro a ha hheap'
  rcases mem_append.1 ha with ha | ha
  · have hnot := hp a ha
    rw [hheap'] at hnot
    cases hnot
  · exact lt_of_lt_of_le hnonempty (haq a ha)

namespace FirstHeap

variable {p q : List Area}

section

variable (h : FirstHeap vmas heap p q)

include h

theorem sublist : (p ++ q).Sublist vmas := by
  rw [h.eq]
  exact (sublist_cons_self heap q).append_left p

theorem mem : heap ∈ vmas := by
  rw [h.eq]
  exact mem_append_right p mem_cons_self

theorem remove_eq (hwf : WellFormed vmas) : vmaRemove vmas heap = p ++ q := by
  obtain ⟨rfl, -, -⟩ := h
  exact hwf.remove_eq

theorem cases {a : Area} (ha : a ∈ vmas) : a = heap ∨ a ∈ p ++ q := by
  rw [h.eq] at ha
  rcases mem_append.1 ha with ha | ha
  · exact .inr (mem_append_left q ha)
  · rcases mem_cons.1 ha with rfl | ha
    · exact .inl rfl
    · exact .inr (mem_append_right p ha)

/-- Without the first heap area no other one can start at the base. -/
theorem not_exact_remove (hbase : heapBase ≤ heap.start) :
    ¬ HeapExact (p ++ q) heapBase newBrk := by
  rintro ⟨a, ha, hheap, hstart, -, -⟩
  have := h.others a ha hheap
  omega

/-- The heap area with its new end is exact if and only if there is room for it. -/
theorem reinsert_exact_iff (hbase : heapBase ≤ heap.start) :
    HeapExact (vmaInsert (p ++ q) { heap with end_ := pageAlignUp newBrk }).1 heapBase newBrk ↔
      HeapRoom vmas heapBase newBrk := by
  constructor
  · intro hexact
    rcases vmaInsert_mem (p ++ q) { heap with end_ := pageAlignUp newBrk } with
      hsame | ⟨hfree, hins⟩
    · rw [hsame] at hexact
      exact absurd hexact (h.not_exact_remove hbase)
    · obtain ⟨found, hmem, hheap, hstart, hend, hunique⟩ := hexact
      have hne : found ∉ p ++ q := by
        intro hold
        have := h.others found hold hheap
        omega
      have hfound := ((hins found).1 hmem).resolve_right hne
      rw [hfound] at hstart hend
      have hword : heapEnd newBrk < 2 ^ 64 := hend ▸ pageAlignUp_lt newBrk
      rw [pageAlignUp_eq_heapEnd hword] at hfree
      refine ⟨hword, ?_, ?_⟩
      · intro a ha haheap
        rcases h.cases ha with rfl | hold
        · exact hstart
        · have hsame := hunique a ((hins a).2 (.inr hold)) haheap
          exact absurd (hsame ▸ hold) hne
      · intro a ha hnot
        rcases h.cases ha with rfl | hold
        · rw [h.isHeap] at hnot
          cases hnot
        · have hapart : heapEnd newBrk ≤ a.start ∨ a.end_ ≤ heap.start := hfree a hold
          have hat : heap.start = heapBase := hstart
          rw [hat] at hapart
          exact hapart.symm
  · intro hroom
    have hstart : heap.start = heapBase := hroom.heap heap h.mem h.isHeap
    have hall : ∀ a ∈ p ++ q, a.isHeap = false := by
      intro a ha
      by_contra hnot
      have hheap : a.isHeap = true := by simpa using hnot
      have h₁ := h.others a ha hheap
      have h₂ := hroom.heap a (h.sublist.subset ha) hheap
      omega
    have hheap : Area.isHeap { heap with end_ := pageAlignUp newBrk } = true := h.isHeap
    apply heapExact_insert hall hheap hstart (pageAlignUp_eq_heapEnd hroom.word)
    exact fun a ha => (hroom.free a (h.sublist.subset ha) (hall a ha)).symm

end

end FirstHeap

theorem NoLoss.refl (hwf : WellFormed vmas) (destroyed : List Area) :
    NoLoss vmas vmas destroyed := by
  intro a ha hheap
  have := (hwf.good a ha).nonempty
  exact .inr ⟨a, ha, hheap, this, this⟩

/-! ## `vmm_brk` -/

/-- A request below the base is safe once the base is set. -/
theorem HeapInv.brkSafe_below (h : HeapInv space) {mem : Bool} (hzero : newBrk ≠ 0)
    (hne : newBrk ≠ space.brkCurrent) (hbelow : newBrk < heapBase) :
    BrkSafe mem space newBrk ↔ space.brkStart = heapBase := by
  unfold BrkSafe
  rw [h.heapStart_eq]
  constructor
  · rintro (hc | hc | ⟨hset, -⟩ | hc | ⟨hc, -⟩)
    · exact absurd hc hzero
    · exact absurd hc hne
    · exact (h.start.resolve_left fun hc => hset hc.1).1
    · omega
    · omega
  · intro hstart
    rw [hstart]
    exact .inr (.inr (.inl ⟨by decide, hbelow⟩))

theorem HeapInv.brkSafe_above (h : HeapInv space) {mem : Bool} (hne : newBrk ≠ space.brkCurrent)
    (hlt : heapBase < newBrk) : BrkSafe mem space newBrk ↔ HeapRoom space.vmas heapBase newBrk ∧
      (mem = true ∨ ∃ a ∈ space.vmas, a.isHeap = true) := by
  unfold BrkSafe
  rw [h.heapStart_eq]
  constructor
  · rintro (hc | hc | ⟨hset, hc⟩ | hc | ⟨-, hc⟩)
    · omega
    · exact absurd hc hne
    · obtain ⟨hstart, -⟩ := h.start.resolve_left fun hc => hset hc.1
      omega
    · omega
    · exact hc
  · exact fun hc => .inr (.inr (.inr (.inr ⟨hlt, hc⟩)))

section

variable (h : HeapInv space) (cpu : ℕ) (mem : Bool) (vm : Vm)

include h cpu mem vm

/-- A request at or above the base that changes the break. -/
theorem vmmBrk_cases (hbase : heapBase ≤ newBrk) (hne : newBrk ≠ space.brkCurrent) :
    ∃ vmas destroyed, (vmmBrk cpu mem vm space newBrk).destroyed = destroyed ∧
      (vmmBrk cpu mem vm space newBrk).space =
        { space with vmas := vmas, brkStart := heapBase, brkCurrent := newBrk } ∧
      (((∀ a ∈ space.vmas, a.isHeap = false) ∧ vmas = createdVmas mem space.vmas newBrk) ∨
        ∃ heap p q, FirstHeap space.vmas heap p q ∧ ((heapBase < newBrk ∧
              vmas = (vmaInsert (p ++ q) { heap with end_ := pageAlignUp newBrk }).1) ∨
            (pageAlignUp newBrk ≤ heap.start ∧ vmas = p ++ q ∧ destroyed = [heap]))) := by
  obtain ⟨c, hc, hstarted⟩ := h.started
  have hzero : ¬ (newBrk = 0 ∨ newBrk = space.brkCurrent) := by
    rintro (rfl | heq)
    · exact absurd hbase (by decide)
    · exact hne heq
  unfold vmmBrk
  rw [if_neg hzero, hstarted]
  rw [if_neg (not_lt.2 hbase)]
  cases hfind : space.vmas.find? isHeap with
  | none =>
    refine ⟨_, _, rfl, brkCreate_space rfl mem vm newBrk, .inl ⟨?_, rfl⟩⟩
    intro a ha
    simpa using find?_eq_none.1 hfind a ha
  | some heap =>
    obtain ⟨p, q, hfirst⟩ := firstHeap_of_find h.wellFormed hfind
    have hremove := hfirst.remove_eq h.wellFormed
    have habove := h.above heap hfirst.mem hfirst.isHeap
    dsimp only
    split
    next hgrow =>
      unfold brkGrow
      rw [hremove]
      exact ⟨_, _, rfl, rfl, .inr ⟨heap, p, q, hfirst, .inl ⟨lt_of_le_of_lt hc hgrow, rfl⟩⟩⟩
    next =>
      unfold brkShrink
      rw [hremove]
      by_cases hleft : pageAlignUp newBrk > heap.start
      · have hlt : heapBase < newBrk := by
          apply lt_of_le_of_ne hbase
          rintro rfl
          have heq : pageAlignUp heapBase = heapBase := by decide
          omega
        rw [if_pos hleft]
        exact ⟨_, _, rfl, rfl, .inr ⟨heap, p, q, hfirst, .inl ⟨hlt, rfl⟩⟩⟩
      · rw [if_neg hleft]
        exact ⟨_, _, rfl, rfl, .inr ⟨heap, p, q, hfirst, .inr ⟨not_lt.1 hleft, rfl, rfl⟩⟩⟩

theorem vmmBrk_below (hzero : newBrk ≠ 0)
    (hne : newBrk ≠ space.brkCurrent) (hbelow : newBrk < heapBase) :
    (vmmBrk cpu mem vm space newBrk).destroyed = [] ∧ (vmmBrk cpu mem vm space newBrk).space =
        { space with
          brkStart := heapBase
          brkCurrent := if space.brkStart = 0 then heapBase else space.brkCurrent } := by
  obtain ⟨c, hc, hstarted⟩ := h.started
  have hcur : (if space.brkStart = 0 then heapBase else space.brkCurrent) = c := by
    have := congrArg Space.brkCurrent hstarted
    rw [apply_ite Space.brkCurrent] at this
    exact this
  unfold vmmBrk
  rw [if_neg (by omega), hstarted, hcur]
  rw [if_pos hbelow]
  exact ⟨rfl, rfl⟩

/-- A call of `vmm_brk` is consistent if and only if it is safe. -/
theorem brk_consistent_iff (newBrk : ℕ) :
    (NoLoss space.vmas (vmmBrk cpu mem vm space newBrk).space.vmas
        (vmmBrk cpu mem vm space newBrk).destroyed ∧
      BrkOutcome space newBrk (vmmBrk cpu mem vm space newBrk).space) ↔
    BrkSafe mem space newBrk := by
  by_cases hask : newBrk = 0 ∨ newBrk = space.brkCurrent
  · have hsame : vmmBrk cpu mem vm space newBrk = ⟨vm, space, []⟩ := if_pos hask
    rw [hsame]
    refine iff_of_true ⟨.refl h.wellFormed [], .inl ⟨rfl, rfl⟩⟩ ?_
    rcases hask with hask | hask
    · exact .inl hask
    · exact .inr (.inl hask)
  obtain ⟨hzero, hne⟩ := not_or.1 hask
  by_cases hbelow : newBrk < heapBase
  · obtain ⟨hdestroyed, hspace⟩ := vmmBrk_below h cpu mem vm hzero hne hbelow
    rw [hdestroyed, hspace, h.brkSafe_below hzero hne hbelow]
    rcases h.start with ⟨hstart, hcur, -⟩ | ⟨hstart, -⟩
    · -- the break moves to the base although the request is for less
      rw [if_pos hstart, hstart]
      refine iff_of_false ?_ (by decide)
      rintro ⟨-, ⟨heq, -⟩ | ⟨heq, -⟩⟩
      · rw [hcur] at heq
        exact absurd (show heapBase = 0 from heq) (by decide)
      · exact absurd hbelow (not_lt.2 (le_of_eq heq))
    · rw [if_neg (by rw [hstart]; decide)]
      exact iff_of_true ⟨.refl h.wellFormed [], .inl ⟨rfl, rfl⟩⟩ hstart
  · obtain ⟨vmas, destroyed, hdestroyed, hspace, hcases⟩ :=
      vmmBrk_cases h cpu mem vm (not_lt.1 hbelow) hne
    have houtcome : BrkOutcome space newBrk
        { space with vmas := vmas, brkStart := heapBase, brkCurrent := newBrk } ↔
        (heapBase < newBrk → HeapExact vmas heapBase newBrk) := by
      constructor
      · rintro (⟨heq, -⟩ | ⟨-, hexact⟩) hlt
        · exact absurd heq hne
        · exact hexact (heapBase_lt_heapEnd hlt)
      · intro hexact
        refine .inr ⟨rfl, fun hlt => hexact ?_⟩
        apply lt_of_le_of_ne (not_lt.1 hbelow)
        rintro rfl
        exact absurd (show heapBase < heapEnd heapBase from hlt) (by decide)
    rw [hdestroyed, hspace, houtcome]
    by_cases heq : newBrk = heapBase
    · refine iff_of_true ⟨?_, fun hlt => absurd hlt (by omega)⟩
        (.inr (.inr (.inr (.inl (heq.trans h.heapStart_eq.symm)))))
      rcases hcases with ⟨hnone, -⟩ | ⟨heap, p, q, hfirst, ⟨hlt, -⟩ | ⟨-, rfl, rfl⟩⟩
      · exact fun a ha hheap => absurd hheap (by simp [hnone a ha])
      · omega
      · -- the first area is destroyed and the others stay
        intro a ha hheap
        rcases hfirst.cases ha with rfl | hold
        · exact .inl (mem_singleton.2 rfl)
        · have := (h.wellFormed.good a ha).nonempty
          exact .inr ⟨a, hold, hheap, this, this⟩
    · have hlt : heapBase < newBrk := by omega
      rw [h.brkSafe_above hne hlt]
      have hexact_iff : HeapExact vmas heapBase newBrk ↔ HeapRoom space.vmas heapBase newBrk ∧
          (mem = true ∨ ∃ a ∈ space.vmas, a.isHeap = true) := by
        rcases hcases with ⟨hnone, rfl⟩ | ⟨heap, p, q, hfirst, hreplaced⟩
        · rw [created_exact_iff hnone hlt]
          refine and_congr_right fun _ => ⟨.inl, fun hc => hc.resolve_right ?_⟩
          rintro ⟨a, ha, hheap⟩
          rw [hnone a ha] at hheap
          cases hheap
        · have habove := h.above heap hfirst.mem hfirst.isHeap
          rw [and_iff_left (.inr ⟨heap, hfirst.mem, hfirst.isHeap⟩)]
          rcases hreplaced with ⟨-, rfl⟩ | ⟨hle, rfl, -⟩
          · exact hfirst.reinsert_exact_iff habove
          · refine iff_of_false (hfirst.not_exact_remove habove) ?_
            intro hroom
            have hstart := hroom.heap heap hfirst.mem hfirst.isHeap
            have hend := pageAlignUp_eq_heapEnd hroom.word
            have := heapBase_lt_heapEnd hlt
            omega
      constructor
      · rintro ⟨-, hexact⟩
        exact hexact_iff.1 (hexact hlt)
      · intro hroom
        have hexact := hexact_iff.2 hroom
        refine ⟨fun a ha haheap => ?_, fun _ => hexact⟩
        obtain ⟨heap, hmem, hheap, hstart, hend, -⟩ := hexact
        have hnonempty := (h.wellFormed.good a ha).nonempty
        have hat := hroom.1.heap a ha haheap
        have := heapBase_lt_heapEnd hlt
        exact .inr ⟨heap, hmem, hheap, by omega, by omega⟩

end

/-! ## One step -/

/-- The areas change, and the heap areas are old ones or start at or above the base. -/
theorem HeapInv.withVmas (h : HeapInv space) (hwf : WellFormed vmas)
    (hfrom : ∀ a ∈ vmas, a.isHeap = true → ∃ b ∈ space.vmas, b.isHeap = true ∧ b.start ≤ a.start) :
    HeapInv { space with vmas := vmas } := by
  refine ⟨hwf, ?_, ?_⟩
  · refine h.start.imp_left fun ⟨hstart, hcur, hnone⟩ => ⟨hstart, hcur, ?_⟩
    intro a ha
    by_contra hheap
    obtain ⟨b, hb, hbheap, -⟩ := hfrom a ha (by simpa using hheap)
    rw [hnone b hb] at hbheap
    cases hbheap
  · intro a ha hheap
    obtain ⟨b, hb, hbheap, hle⟩ := hfrom a ha hheap
    exact le_trans (h.above b hb hbheap) hle

/-- `vmm_map` adds no heap area and loses none. -/
theorem heap_map (h : HeapInv space) (mem : Bool) (hint length : ℕ) (prot flags : BitVec 32)
    (file : Option ℕ) (offset : ℕ) :
    HeapInv (vmmMap mem space hint length prot flags file offset).1 ∧
      NoLoss space.vmas (vmmMap mem space hint length prot flags file offset).1.vmas [] := by
  rcases vmmMap_cases mem space hint length prot flags file offset with
    heq | ⟨a, start, ha, hflags, -, -, heq⟩
  · rw [heq]
    exact ⟨h, .refl h.wellFormed []⟩
  · have hnot : a.isHeap = false := by
      unfold isHeap
      rw [hflags]
      unfold mapVmaFlags vmaFlagsOf
      split <;> split <;> split <;> split <;> split <;> decide
    rw [heq]
    refine ⟨h.withVmas (h.wellFormed.vmaInsert_fst ha) ?_, ?_⟩
    · intro b hb hheap
      rcases mem_of_mem_vmaInsert hb with rfl | hb
      · rw [hnot] at hheap
        cases hheap
      · exact ⟨b, hb, hheap, le_refl _⟩
    · intro b hb hheap
      have := (h.wellFormed.good b hb).nonempty
      exact .inr ⟨b, mem_vmaInsert_of_mem hb, hheap, this, this⟩

/-- `vmm_unmap` destroys the areas that it takes out and does not put back. -/
theorem heap_unmap (h : HeapInv space) (cpu : ℕ) (mem : Bool) (vm : Vm) (addr length : ℕ) :
    HeapInv (vmmUnmap cpu mem vm space addr length).2.1 ∧
      NoLoss space.vmas (vmmUnmap cpu mem vm space addr length).2.1.vmas
        (unmapDestroyed space.vmas addr length) := by
  by_cases hinvalid : length = 0 ∨ addr % pageSize ≠ 0
  · have hsame : vmmUnmap cpu mem vm space addr length = (vm, space, -einval) := if_pos hinvalid
    rw [hsame]
    exact ⟨h, .refl h.wellFormed _⟩
  · have haddr : addr % pageSize = 0 := by
      by_contra hne
      exact hinvalid (.inr hne)
    have hend := wrapped_end_aligned length haddr
    rw [vmmUnmap_vmas cpu mem vm h.wellFormed haddr (by omega)]
    have hpieces := fun a ha => remnants_wellFormed mem (h.wellFormed.good a ha) haddr hend
    refine ⟨h.withVmas (h.wellFormed.unmap haddr hend) ?_, ?_⟩
    · intro b hb hheap
      obtain ⟨a, ha, hb⟩ := mem_flatMap.1 hb
      refine ⟨a, ha, ?_, ((hpieces a ha).2 b hb).1⟩
      unfold isHeap at hheap ⊢
      rw [← (remnants_kind mem hb).1]
      exact hheap
    · intro a ha hheap
      cases hrest : remnants mem addr ((addr + pageAlignUp length) % 2 ^ 64) a with
      | nil =>
        left
        unfold unmapDestroyed
        rw [if_neg hinvalid]
        refine mem_filter.2 ⟨ha, ?_⟩
        obtain ⟨hmeet, hin⟩ := (remnants_eq_nil_iff mem).1 hrest
        rw [decide_eq_false hmeet, decide_eq_true hin]
        rfl
      | cons b rest =>
        have hb : b ∈ remnants mem addr ((addr + pageAlignUp length) % 2 ^ 64) a := by
          rw [hrest]
          exact mem_cons_self
        have hinside := (hpieces a ha).2 b hb
        have hnonempty := ((hpieces a ha).1.good b hb).nonempty
        refine .inr ⟨b, mem_flatMap.2 ⟨a, ha, hb⟩, ?_, by omega, by omega⟩
        unfold isHeap at hheap ⊢
        rw [(remnants_kind mem hb).1]
        exact hheap

/-- An area at or above the base is inserted. -/
theorem insert_above (hwf : WellFormed vmas)
    (habove : ∀ a ∈ vmas, a.isHeap = true → heapBase ≤ a.start) (hheap : heap.Good)
    (hbase : heapBase ≤ heap.start) : WellFormed (vmaInsert vmas heap).1 ∧
      ∀ a ∈ (vmaInsert vmas heap).1, a.isHeap = true → heapBase ≤ a.start := by
  refine ⟨hwf.vmaInsert_fst hheap, ?_⟩
  intro a ha haheap
  rcases mem_of_mem_vmaInsert ha with rfl | ha
  · exact hbase
  · exact habove a ha haheap

theorem heap_brk (h : HeapInv space) (cpu : ℕ) (mem : Bool) (vm : Vm)
    (hsafe : BrkSafe mem space newBrk) : HeapInv (vmmBrk cpu mem vm space newBrk).space := by
  by_cases hask : newBrk = 0 ∨ newBrk = space.brkCurrent
  · have hsame : vmmBrk cpu mem vm space newBrk = ⟨vm, space, []⟩ := if_pos hask
    rw [hsame]
    exact h
  obtain ⟨hzero, hne⟩ := not_or.1 hask
  by_cases hbelow : newBrk < heapBase
  · have hstart := (h.brkSafe_below hzero hne hbelow).1 hsafe
    have hset : space.brkStart ≠ 0 := by
      rw [hstart]
      decide
    rw [(vmmBrk_below h cpu mem vm hzero hne hbelow).2, if_neg hset, ← hstart]
    exact h
  · obtain ⟨vmas, destroyed, -, hspace, hcases⟩ :=
      vmmBrk_cases h cpu mem vm (not_lt.1 hbelow) hne
    have hroom : heapBase < newBrk → HeapRoom space.vmas heapBase newBrk := fun hlt =>
      ((h.brkSafe_above hne hlt).1 hsafe).1
    rw [hspace]
    have hparts : WellFormed vmas ∧ ∀ a ∈ vmas, a.isHeap = true → heapBase ≤ a.start := by
      rcases hcases with ⟨-, rfl⟩ | ⟨heap, p, q, hfirst, ⟨hlt, rfl⟩ | ⟨-, rfl, -⟩⟩
      · unfold createdVmas
        split
        next hcond =>
          have haligned : heapBase % pageSize = 0 := by decide
          exact insert_above h.wellFormed h.above
            ⟨hcond.1, haligned, mul_mod_left _ _, pageAlignUp_lt newBrk⟩ (le_refl heapBase)
        next => exact ⟨h.wellFormed, h.above⟩
      · have hheap := h.wellFormed.good heap hfirst.mem
        have hstart := (hroom hlt).heap heap hfirst.mem hfirst.isHeap
        have hend := pageAlignUp_eq_heapEnd (hroom hlt).word
        have hnonempty : heap.start < pageAlignUp newBrk := by
          have := heapBase_lt_heapEnd hlt
          omega
        have hgood : Area.Good { heap with end_ := pageAlignUp newBrk } :=
          ⟨hnonempty, hheap.start_aligned, mul_mod_left _ _, pageAlignUp_lt newBrk⟩
        exact insert_above (h.wellFormed.sublist hfirst.sublist)
          (fun a ha => h.above a (hfirst.sublist.subset ha)) hgood (le_of_eq hstart.symm)
      · exact ⟨h.wellFormed.sublist hfirst.sublist,
          fun a ha => h.above a (hfirst.sublist.subset ha)⟩
    exact ⟨hparts.1, .inr ⟨rfl, not_lt.1 hbelow⟩, hparts.2⟩

/-! ## Runs -/

/-- The calls of `vma.c` that a call makes. -/
def heapOps (space : Space) : HeapOp → List AreaOp
  | .brk _ mem newBrk => brkOps mem space newBrk
  | .map mem hint length prot flags file offset =>
    mapOps mem space hint length prot flags file offset
  | .unmap _ mem addr length => unmapOps mem space.vmas addr length

theorem vmmBrk_turns (h : HeapInv space) (cpu : ℕ) {mem : Bool} (vm : Vm)
    (hsafe : BrkSafe mem space newBrk) :
    Turns space.vmas (brkOps mem space newBrk) (vmmBrk cpu mem vm space newBrk).space.vmas := by
  unfold brkOps vmmBrk
  split
  next => exact .nil _
  next hask =>
    obtain ⟨cur, hcur, hset⟩ := h.started
    rw [hset]
    dsimp only
    split
    next => exact .nil _
    next hbase =>
      cases hheap : space.vmas.find? Area.isHeap with
      | none =>
        unfold brkCreate
        dsimp only
        split
        next =>
          cases hnew : vmaCreate mem heapBase (pageAlignUp newBrk) .anon
              (vmaFlagRead ||| vmaFlagWrite ||| vmaFlagHeap) with
          | none => exact .nil _
          | some => exact .insert (vmaCreate_good hnew).2
        next => exact .nil _
      | some heap =>
        have hmem := mem_of_find?_eq_some hheap
        have hgood := h.wellFormed.good heap hmem
        have hmoved : heap.start < pageAlignUp newBrk →
            Area.Good { heap with end_ := pageAlignUp newBrk } := fun hlt =>
          ⟨hlt, hgood.start_aligned, mul_mod_left _ _, pageAlignUp_lt newBrk⟩
        dsimp only
        split
        next habove =>
          -- a request above the break has room, so that its end is not a wrapped one
          have hlt : heapBase < newBrk := by omega
          have hroom := ((h.brkSafe_above (not_or.1 hask).2 hlt).1 hsafe).1
          refine .move hmem (hmoved ?_)
          rw [pageAlignUp_eq_heapEnd hroom.word, hroom.heap heap hmem (find?_some hheap)]
          exact heapBase_lt_heapEnd hlt
        next =>
          unfold brkShrink
          dsimp only
          split
          next hlt => exact .move hmem (hmoved hlt)
          next => exact .remove hmem

theorem heap_turns {op : HeapOp} (h : HeapInv space) (vm : Vm) (hsafe : HeapSafe space op) :
    Turns space.vmas (heapOps space op) (applyHeapOp vm space op).space.vmas := by
  cases op with
  | brk cpu mem newBrk => exact vmmBrk_turns h cpu vm hsafe
  | map => exact vmmMap_turns ..
  | unmap cpu mem addr length => exact vmmUnmap_turns h.wellFormed cpu mem vm addr length

/-- A space with its container. -/
def heapSystem (pml4 : ℕ) : System (Vm × Space × Vma.VmaState) HeapOp where
  init s := s.2.1 = freshSpace pml4 ∧ Vma.vmaSystem.init s.2.2
  step s op s' := s'.1 = (applyHeapOp s.1 s.2.1 op).vm ∧
    s'.2.1 = (applyHeapOp s.1 s.2.1 op).space ∧ Trail s.2.2 (heapOps s.2.1 op) s'.2.2

/-- A safe call whose removals are no stale splices. -/
def HeapGuard (s : Vm × Space × Vma.VmaState) (op : HeapOp) : Prop :=
  HeapSafe s.2.1 op ∧ Clean s.2.2 (heapOps s.2.1 op)

theorem heap_step {vm : Vm} {op : HeapOp} (h : HeapInv space) (hsafe : HeapSafe space op) :
    HeapInv (applyHeapOp vm space op).space := by
  cases op with
  | brk cpu mem newBrk => exact heap_brk h cpu mem vm hsafe
  | map mem hint length prot flags file offset =>
    exact (heap_map h mem hint length prot flags file offset).1
  | unmap cpu mem addr length => exact (heap_unmap h cpu mem vm addr length).1

theorem heapConsistent_iff (h : HeapInv space) (vm : Vm) (op : HeapOp) :
    HeapConsistent vm space op ↔ HeapSafe space op := by
  cases op with
  | brk cpu mem newBrk =>
    refine .trans ?_ (brk_consistent_iff h cpu mem vm newBrk)
    refine and_congr_right fun _ => ⟨fun hout => hout cpu mem newBrk rfl, ?_⟩
    rintro hout cpu' mem' newBrk' heq
    cases heq
    exact hout
  | map mem hint length prot flags file offset =>
    exact iff_of_true ⟨(heap_map h mem hint length prot flags file offset).2,
      fun _ _ _ heq => nomatch heq⟩ trivial
  | unmap cpu mem addr length =>
    exact iff_of_true ⟨(heap_unmap h cpu mem vm addr length).2, fun _ _ _ heq => nomatch heq⟩
      trivial

end

/-- In every run of such calls on a fresh space a call whose removals are no stale splices is
consistent, in the list and in the tree, if and only if it is safe. -/
theorem heap_run_consistent {pml4 : ℕ} {vm : Vm} {space : Space} {c : Vma.VmaState}
    (h : (heapSystem pml4).Reachable HeapGuard (vm, space, c)) (op : HeapOp)
    (hclean : Clean c (heapOps space op)) :
    (HeapConsistent vm space op ∧
      TreeKeeps c (heapOps space op) (applyHeapOp vm space op).space.vmas) ↔
    HeapSafe space op := by
  obtain ⟨hinv, hmirrors⟩ : HeapInv (vm, space, c).2.1 ∧ Mirrors (vm, space, c).2.2
      (vm, space, c).2.1.vmas := by
    apply h.invariant (I := fun s => HeapInv s.2.1 ∧ Mirrors s.2.2 s.2.1.vmas)
    · rintro ⟨vm, space, c⟩ ⟨rfl, hc⟩
      refine ⟨⟨.nil, .inl ⟨rfl, rfl, ?_⟩, ?_⟩, mirrors_nil hc⟩
      · exact fun a ha => absurd ha not_mem_nil
      · exact fun a ha => absurd ha not_mem_nil
    · rintro ⟨vm, space, c⟩ op ⟨vm', space', c'⟩ ⟨hinv, hmirrors⟩ ⟨hsafe, hclean⟩ ⟨rfl, rfl, htrail⟩
      have hkeeps := hmirrors.turns hinv.wellFormed (heap_turns hinv vm hsafe) hclean
      exact ⟨heap_step hinv hsafe, (hkeeps.2 c' htrail).1⟩
  rw [heapConsistent_iff hinv vm op, and_iff_left_iff_imp]
  exact fun hsafe => hmirrors.turns hinv.wellFormed (heap_turns hinv vm hsafe) hclean

/-! ## Concrete runs -/

/-- A fresh space whose heap has been set up with one page. -/
def onePageHeap : Space := (vmmBrk 0 true bareVm (freshSpace 1) 0x20001000).space

theorem newHeap_good : (newHeap 0x20001000).Good := ⟨by decide, by decide, by decide, by decide⟩

theorem reachable_onePageHeap : ∃ c, Mirrors c onePageHeap.vmas ∧
    (heapSystem 1).Reachable HeapGuard (bareVm, onePageHeap, c) := by
  have hnil : Mirrors Vma.emptyVma [] := mirrors_nil ⟨rfl, rfl⟩
  have hsafe : BrkSafe true (freshSpace 1) 0x20001000 := by
    refine .inr (.inr (.inr (.inr ⟨by decide, ⟨by decide, ?_, ?_⟩, .inl rfl⟩)))
    · exact fun a ha => absurd ha not_mem_nil
    · exact fun a ha => absurd ha not_mem_nil
  have hfits : Applicable [] [.insert (newHeap 0x20001000) none] := ⟨⟨newHeap_good, nofun⟩, trivial⟩
  have hclean : Clean Vma.emptyVma [.insert (newHeap 0x20001000) none] :=
    ⟨trivial, fun _ _ => trivial⟩
  have hops : heapOps (freshSpace 1) (.brk 0 true 0x20001000) =
      [.insert (newHeap 0x20001000) none] := by decide
  obtain ⟨⟨c, hc⟩, hkeeps⟩ := hnil.run .nil hfits hclean
  rw [← hops] at hclean hc
  have hstart : (heapSystem 1).Reachable HeapGuard (bareVm, freshSpace 1, Vma.emptyVma) :=
    .start ⟨rfl, rfl, rfl⟩
  have hspace : onePageHeap = (vmmBrk 0 true bareVm (freshSpace 1) 0x20001000).space := rfl
  exact ⟨c, (hkeeps c (hops ▸ hc)).1,
    hstart.next (e := .brk 0 true 0x20001000) ⟨hsafe, hclean⟩ ⟨rfl, hspace, hc⟩⟩

/-- The heap grows by two pages and is then as large as the break says. -/
theorem heap_run_consistent_grow : ∃ c, Mirrors c onePageHeap.vmas ∧
    HeapConsistent bareVm onePageHeap (.brk 0 true 0x20002001) ∧
    TreeKeeps c (heapOps onePageHeap (.brk 0 true 0x20002001))
      (vmmBrk 0 true bareVm onePageHeap 0x20002001).space.vmas := by
  obtain ⟨c, hmirrors, hreach⟩ := reachable_onePageHeap
  refine ⟨c, hmirrors, (heap_run_consistent hreach _ ?_).2
    (.inr (.inr (.inr (.inr ⟨by decide, ⟨by decide, ?_, ?_⟩, .inl rfl⟩))))⟩
  · exact ⟨hmirrors.notStale (by decide) _, fun _ _ => ⟨trivial, fun _ _ => trivial⟩⟩
  · decide
  · decide

/-- The space with another mapping right above the heap. -/
def blockedHeap : Space :=
  (vmmMap true onePageHeap 0x20001000 0x1000 mmuProtRead 0 none 0).1

/-- The heap cannot grow; the break moves and the heap area is gone. -/
theorem blocked_heap_lost :
    (∃ c, (heapSystem 1).Reachable HeapGuard (bareVm, blockedHeap, c)) ∧
      (vmmBrk 0 true bareVm blockedHeap 0x20002000).space.brkCurrent = 0x20002000 ∧
      (∀ a ∈ (vmmBrk 0 true bareVm blockedHeap 0x20002000).space.vmas, a.isHeap = false) ∧
      (vmmBrk 0 true bareVm blockedHeap 0x20002000).destroyed = [] ∧
      ¬ HeapConsistent bareVm blockedHeap (.brk 0 true 0x20002000) := by
  refine ⟨?_, by decide, by decide, by decide, ?_⟩
  · obtain ⟨c, hmirrors, hreach⟩ := reachable_onePageHeap
    have hwf : WellFormed [newHeap 0x20001000] := by
      refine ⟨.singleton newHeap_good.nonempty, fun a ha => ?_⟩
      rw [mem_singleton.1 ha]
      exact newHeap_good
    have hclean : Clean c (mapOps true onePageHeap 0x20001000 0x1000 mmuProtRead 0 none 0) :=
      ⟨trivial, fun _ _ => trivial⟩
    obtain ⟨⟨c', hc'⟩, -⟩ := hmirrors.turns hwf (vmmMap_turns ..) hclean
    exact ⟨c', hreach.next (e := .map true 0x20001000 0x1000 mmuProtRead 0 none 0)
      ⟨trivial, hclean⟩ ⟨rfl, rfl, hc'⟩⟩
  · rintro ⟨-, hout⟩
    rcases hout 0 true 0x20002000 rfl with ⟨heq, -⟩ | ⟨-, hexact⟩
    · revert heq
      decide
    · obtain ⟨heap, hmem, hheap, -⟩ := hexact (by decide)
      revert heap
      decide

end BoredOS.Mem.Vmm
