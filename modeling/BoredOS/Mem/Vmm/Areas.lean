import BoredOS.Lib.Intervals
import BoredOS.Mem.Vmm.Model

/-!
# Well-Formed Area Lists

The areas of a space are separated intervals of whole pages. `vma_find`, `vma_insert` and
`vma_remove` are described for such lists: the search is membership, an area is removed from its
place, and a new one is put at the only place where the list stays separated, or refused.
-/

namespace BoredOS.Mem.Vmm

open Lib.Intervals Pmm Mmu List Separated Area Option

section

abbrev Area.Covers (a : Area) (v : ℕ) : Prop :=
  BoredOS.Lib.Intervals.Covers start end_ a v

/-- The end of a range of whole pages, as a number and not as a word. -/
def rangeEnd (addr length : ℕ) : ℕ := addr + (length + (pageSize - 1)) / pageSize * pageSize

/-- An area is an interval of whole pages below the end of the address space. -/
structure Area.Good (a : Area) : Prop where
  nonempty : a.start < a.end_
  start_aligned : a.start % pageSize = 0
  end_aligned : a.end_ % pageSize = 0
  bounded : a.end_ < 2 ^ 64

/-- The areas of a space. -/
structure WellFormed (vmas : List Area) : Prop where
  separated : Separated start end_ vmas
  good : ∀ a ∈ vmas, a.Good

variable {b a : Area} {vmas : List Area} {mem : Bool} {start len hint : ℕ} {flags : BitVec 32}
  {space : Space}
  {g : Area → List Area} {maxAddr length offset : ℕ} {prot : BitVec 32} {file : Option ℕ}

namespace WellFormed

variable {vmas p q : List Area} {a : Area} {v : ℕ}

theorem nil : WellFormed [] := ⟨.nil, fun _ h => absurd h not_mem_nil⟩

theorem sublist {l : List Area} (h : WellFormed vmas) (hsub : l.Sublist vmas) : WellFormed l :=
  ⟨h.separated.sublist hsub, fun a ha => h.good a (hsub.subset ha)⟩

theorem find_eq_some (h : WellFormed vmas) : vmaFind vmas v = some a ↔ a ∈ vmas ∧ a.Covers v :=
  h.separated.find?_eq_some

/-- The area around an address, if there is one. -/
theorem find_cases (h : WellFormed vmas) (v : ℕ) :
    (∃ a ∈ vmas, a.Covers v ∧ vmaFind vmas v = some a) ∨
      ((∀ a ∈ vmas, ¬ a.Covers v) ∧ vmaFind vmas v = none) := by
  cases hfind : vmaFind vmas v with
  | none => exact .inr ⟨find?_eq_none.1 hfind, rfl⟩
  | some a =>
    obtain ⟨ha, hav⟩ := h.find_eq_some.1 hfind
    exact .inl ⟨a, ha, hav, rfl⟩

theorem insert (h : WellFormed (p ++ q)) (ha : a.Good) (hp : ∀ b ∈ p, b.end_ ≤ a.start)
    (hq : ∀ b ∈ q, a.end_ ≤ b.start) : WellFormed (p ++ a :: q) := by
  refine ⟨h.separated.insert ha.nonempty hp hq, ?_⟩
  intro b hb
  rcases mem_append.1 hb with hb | hb
  · exact h.good b (mem_append_left q hb)
  · rcases mem_cons.1 hb with rfl | hb
    · exact ha
    · exact h.good b (mem_append_right p hb)

section

variable (h : WellFormed vmas) (hpieces : ∀ a ∈ vmas, WellFormed (g a))
  (hinside : ∀ a ∈ vmas, ∀ b ∈ g a, a.start ≤ b.start ∧ b.end_ ≤ a.end_)

include h hpieces hinside

/-- Every area is replaced by pieces of it. -/
theorem flatMap : WellFormed (vmas.flatMap g) := by
  refine ⟨h.separated.flatMap (fun a ha => (hpieces a ha).separated) hinside, ?_⟩
  intro b hb
  obtain ⟨a, ha, hb⟩ := mem_flatMap.1 hb
  exact (hpieces a ha).good b hb

/-- The search among the pieces. -/
theorem find_flatMap (v : ℕ) :
    vmaFind (vmas.flatMap g) v = (vmaFind vmas v).bind fun a => vmaFind (g a) v := by
  -- a piece around the address lies in the area around it
  have houter : ∀ b ∈ vmas.flatMap g, b.Covers v → ∃ a ∈ vmas, b ∈ g a ∧ a.Covers v := by
    intro b hb hbv
    obtain ⟨a, ha, hb⟩ := mem_flatMap.1 hb
    obtain ⟨hstart, hend⟩ := hinside a ha b hb
    exact ⟨a, ha, hb, le_trans hstart hbv.1, lt_of_lt_of_le hbv.2 hend⟩
  rcases h.find_cases v with ⟨a, ha, hav, hfind⟩ | ⟨hnone, hfind⟩
  · rw [hfind, bind_some]
    rcases (hpieces a ha).find_cases v with ⟨b, hb, hbv, hfind'⟩ | ⟨hnone, hfind'⟩
    · rw [hfind', (h.flatMap hpieces hinside).find_eq_some]
      exact ⟨mem_flatMap.2 ⟨a, ha, hb⟩, hbv⟩
    · rw [hfind']
      apply Separated.find?_eq_none.2
      intro b hb hbv
      obtain ⟨a', ha', hb', hav'⟩ := houter b hb hbv
      obtain rfl := h.separated.unique ha' ha hav' hav
      exact hnone b hb' hbv
  · rw [hfind, bind_none]
    apply Separated.find?_eq_none.2
    intro b hb hbv
    obtain ⟨a, ha, -, hav⟩ := houter b hb hbv
    exact hnone a ha hav

end

theorem replace {l : List Area} (h : WellFormed (p ++ a :: q)) (hl : WellFormed l)
    (hinside : ∀ b ∈ l, a.start ≤ b.start ∧ b.end_ ≤ a.end_) : WellFormed (p ++ (l ++ q)) := by
  refine ⟨h.separated.replace hl.separated hinside, ?_⟩
  intro b hb
  rcases mem_append.1 hb with hb | hb
  · exact h.good b (mem_append_left _ hb)
  · rcases mem_append.1 hb with hb | hb
    · exact hl.good b hb
    · exact h.good b (mem_append_right p (mem_cons_of_mem a hb))

/-- The areas keep their bounds. -/
theorem map (h : WellFormed vmas) {g : Area → Area}
    (hbounds : ∀ a, (g a).start = a.start ∧ (g a).end_ = a.end_) : WellFormed (vmas.map g) := by
  rw [← flatMap_singleton' (vmas.map g), flatMap_map]
  apply h.flatMap
  · intro a ha
    obtain ⟨hnonempty, hstart, hend, hbounded⟩ := h.good a ha
    obtain ⟨h₁, h₂⟩ := hbounds a
    refine ⟨.singleton (by rw [h₁, h₂]; exact hnonempty), ?_⟩
    intro b hb
    rw [mem_singleton.1 hb]
    refine ⟨?_, ?_, ?_, ?_⟩ <;> rw [h₁] at * <;> rw [h₂] at * <;> assumption
  · intro a _ b hb
    rw [mem_singleton.1 hb, (hbounds a).1, (hbounds a).2]
    exact ⟨le_refl _, le_refl _⟩

theorem remove_eq (h : WellFormed (p ++ a :: q)) : vmaRemove (p ++ a :: q) a = p ++ q := by
  have hnot : a ∉ p := by
    intro ha
    obtain ⟨hp, hq, hcross⟩ := append_iff.1 h.separated
    have := hcross a ha a mem_cons_self
    have := hp.nonempty a ha
    omega
  unfold vmaRemove
  rw [erase_append_right _ hnot, erase_cons_head]

section

variable (h : WellFormed (p ++ q)) (ha : a.start < a.end_) (hp : ∀ b ∈ p, b.end_ ≤ a.start)
  (hq : ∀ b ∈ q, a.end_ ≤ b.start)

include h ha hp hq

theorem insertSorted_eq : insertSorted a (p ++ q) = p ++ a :: q := by
  induction p with
  | nil =>
    cases q with
    | nil => rfl
    | cons b q => exact if_pos (hq b mem_cons_self)
  | cons b p ih =>
    have hb := (h.good b mem_cons_self).nonempty
    have hba := hp b mem_cons_self
    have hnot : ¬ a.end_ ≤ b.start := by omega
    show (if a.end_ ≤ b.start then _ else b :: insertSorted a (p ++ q)) = _
    rw [if_neg hnot, ih (h.sublist (sublist_cons_self b (p ++ q)))
      (fun c hc => hp c (mem_cons_of_mem b hc))]
    rfl

/-- The insertion of an area between two parts of the list. -/
theorem insert_eq : vmaInsert (p ++ q) a = (p ++ a :: q, true) := by
  unfold vmaInsert
  rw [if_neg, h.insertSorted_eq ha hp hq]
  intro hany
  obtain ⟨b, hb, hover⟩ := any_eq_true.1 hany
  rcases mem_append.1 hb with hb | hb
  · have := hp b hb
    simp at hover
    omega
  · have := hq b hb
    simp at hover
    omega

end

/-- An area leaves the list and another one, which fits between its neighbours, takes its place. -/
theorem reinsert_eq (h : WellFormed (p ++ a :: q)) (hb : b.start < b.end_)
    (hstart : a.start ≤ b.start) (hend : b.end_ ≤ a.end_) :
    vmaInsert (vmaRemove (p ++ a :: q) a) b = (p ++ b :: q, true) := by
  obtain ⟨-, haq, hcross⟩ := append_iff.1 h.separated
  obtain ⟨-, -, haq⟩ := cons_iff.1 haq
  rw [h.remove_eq]
  apply insert_eq (h.sublist ((sublist_cons_self a q).append_left p)) hb
  · exact fun c hc => le_trans (hcross c hc a mem_cons_self) hstart
  · exact fun c hc => le_trans hend (haq c hc)

/-- An area in the way. -/
theorem insert_refused (hb : b ∈ vmas) (hmeet : a.start < b.end_ ∧ b.start < a.end_) :
    vmaInsert vmas a = (vmas, false) := by
  apply if_pos
  refine any_eq_true.2 ⟨b, hb, ?_⟩
  simp
  omega

theorem vmaInsert_fst (h : WellFormed vmas) (ha : a.Good) : WellFormed (vmaInsert vmas a).1 := by
  by_cases hfree : ∀ b ∈ vmas, a.end_ ≤ b.start ∨ b.end_ ≤ a.start
  · obtain ⟨p, q, rfl, hp, hq⟩ := h.separated.placed hfree
    rw [h.insert_eq ha.nonempty hp hq]
    exact h.insert ha hp hq
  · obtain ⟨b, hb, hover⟩ := not_forall₂.1 hfree
    rw [insert_refused hb (by omega)]
    exact h

end WellFormed

/-! ## Any list -/

theorem mem_insertSorted {x : Area} : x ∈ insertSorted a vmas ↔ x = a ∨ x ∈ vmas := by
  induction vmas with
  | nil => simp [insertSorted]
  | cons b vmas ih =>
    unfold insertSorted
    split
    next => simp
    next => simp [ih, or_left_comm]

/-- An insertion changes nothing, or it adds the area and nothing was in its way. -/
theorem vmaInsert_mem (vmas : List Area) (a : Area) : (vmaInsert vmas a).1 = vmas ∨
      ((∀ b ∈ vmas, a.end_ ≤ b.start ∨ b.end_ ≤ a.start) ∧
        ∀ x, x ∈ (vmaInsert vmas a).1 ↔ x = a ∨ x ∈ vmas) := by
  unfold vmaInsert
  split
  next => exact .inl rfl
  next hfree =>
    refine .inr ⟨?_, fun x => mem_insertSorted⟩
    intro b hb
    by_contra hmeet
    apply hfree
    refine any_eq_true.2 ⟨b, hb, ?_⟩
    simp
    omega

theorem mem_of_mem_vmaInsert (hb : b ∈ (vmaInsert vmas a).1) : b = a ∨ b ∈ vmas := by
  rcases vmaInsert_mem vmas a with hsame | ⟨-, hins⟩
  · rw [hsame] at hb
    exact .inr hb
  · exact (hins b).1 hb

theorem mem_vmaInsert_of_mem (hb : b ∈ vmas) : b ∈ (vmaInsert vmas a).1 := by
  rcases vmaInsert_mem vmas a with hsame | ⟨-, hins⟩
  · rw [hsame]
    exact hb
  · exact (hins b).2 (.inr hb)

theorem mem_vmaInsert_of_free (hfree : ∀ b ∈ vmas, a.end_ ≤ b.start ∨ b.end_ ≤ a.start) (x : Area) :
    x ∈ (vmaInsert vmas a).1 ↔ x = a ∨ x ∈ vmas := by
  unfold vmaInsert
  rw [if_neg]
  · exact mem_insertSorted
  · intro hany
    obtain ⟨b, hb, hmeet⟩ := any_eq_true.1 hany
    have := hfree b hb
    simp at hmeet
    omega

theorem vmaCreate_good {end_ : ℕ} {type : VmaType}
    (h : vmaCreate mem start end_ type flags = some a) :
    a = ⟨pageAlignDown start, pageAlignUp end_, type, flags, none, 0⟩ ∧ a.Good := by
  unfold vmaCreate at h
  split at h
  next => cases h
  next hcond =>
    cases h
    refine ⟨rfl, not_le.1 (not_or.1 hcond).1, ?_, ?_, ?_⟩
    · exact Nat.mul_mod_left _ _
    · exact Nat.mul_mod_left _ _
    · show pageAlignUp end_ < 2 ^ 64
      unfold pageAlignUp pageSize
      omega

/-- `vmm_map` changes nothing, or it adds one new area. -/
theorem vmmMap_cases (mem : Bool) (space : Space) (hint length : ℕ) (prot flags : BitVec 32)
    (file : Option ℕ) (offset : ℕ) :
    vmmMap mem space hint length prot flags file offset = (space, none) ∨
      ∃ a start, a.Good ∧ a.flags = mapVmaFlags prot flags ∧ a.type = mapVmaType flags file ∧
        (mapStart space hint (pageAlignUp length) = some start ∧
          a.end_ = pageAlignUp ((start + pageAlignUp length) % 2 ^ 64)) ∧
        vmmMap mem space hint length prot flags file offset =
          ({ space with vmas := (vmaInsert space.vmas a).1 }, some start) := by
  unfold vmmMap
  split
  next => exact .inl rfl
  next =>
    dsimp only
    split
    next => exact .inl rfl
    next start hstart =>
      split
      next => exact .inl rfl
      next vma hvma =>
        obtain ⟨rfl, hnonempty, haligned, hend, hbounded⟩ := vmaCreate_good hvma
        split
        next => exact .inr ⟨⟨_, _, _, _, file, offset⟩, start, ⟨hnonempty, haligned, hend,
            hbounded⟩,
          rfl, rfl, ⟨hstart, rfl⟩, rfl⟩
        next => exact .inl rfl

theorem gapSearch_le {alignedMin alignment : ℕ} : ∀ vmas : List Area,
    gapSearch alignedMin len maxAddr alignment vmas ≠ 0 →
    gapSearch alignedMin len maxAddr alignment vmas + len ≤ maxAddr := by
  intro vmas
  induction vmas with
  | nil => exact fun hne => absurd rfl hne
  | cons curr rest ih =>
    unfold gapSearch
    dsimp only
    generalize (if alignUpTo alignment curr.end_ < alignedMin then alignedMin
      else alignUpTo alignment curr.end_) = candidate
    have hgap : (if (rest.head?.map start).getD maxAddr > maxAddr then maxAddr
        else (rest.head?.map start).getD maxAddr) ≤ maxAddr := by
      split <;> omega
    generalize (if (rest.head?.map start).getD maxAddr > maxAddr then maxAddr
      else (rest.head?.map start).getD maxAddr) = gapEnd at *
    split
    · omega
    · exact ih

/-- What the search finds ends in the window, or before the first area. -/
theorem vmaFindUnmappedArea_le {minAddr : ℕ} (hlen : pageAlignUp len = len)
    (h : vmaFindUnmappedArea vmas minAddr maxAddr len pageSize = start) (hne : start ≠ 0) :
    (start + len) % 2 ^ 64 ≤ maxAddr ∨ ∃ a ∈ vmas, (start + len) % 2 ^ 64 ≤ a.start := by
  unfold vmaFindUnmappedArea at h
  split at h
  next => exact absurd h.symm hne
  next =>
    rw [if_neg (lt_irrefl pageSize), hlen] at h
    cases vmas with
    | nil =>
      dsimp only at h
      split at h
      next hfit =>
        rw [← h]
        exact .inl hfit
      next => exact absurd h.symm hne
    | cons curr rest =>
      dsimp only at h
      split at h
      next hfirst =>
        rw [← h]
        exact .inr ⟨curr, mem_cons_self, hfirst⟩
      next =>
        rw [← h] at hne ⊢
        exact .inl (le_trans (Nat.mod_le _ _) (gapSearch_le _ hne))

/-- A new mapping ends in the window of the space, or before an area that is there. -/
theorem mapStart_le (hlen : pageAlignUp len = len) (h : mapStart space hint len = some start) :
    (start + len) % 2 ^ 64 ≤ space.mmapEnd ∨
      ∃ a ∈ space.vmas, (start + len) % 2 ^ 64 ≤ a.start := by
  unfold mapStart at h
  dsimp only at h
  split at h
  next =>
    split at h
    next => cases h
    next hne =>
      cases h
      exact vmaFindUnmappedArea_le hlen rfl hne
  next =>
    split at h
    next => cases h
    next hcond =>
      cases h
      exact .inl (by omega)

/-- The areas stay below a bound that the window of the space respects. -/
theorem vmmMap_bounded {bound : ℕ} (hbound : bound % pageSize = 0 ∧ bound < 2 ^ 64)
    (hwindow : space.mmapEnd ≤ bound) (h : ∀ a ∈ space.vmas, a.end_ ≤ bound)
    (hgood : ∀ a ∈ space.vmas, a.start < a.end_) :
    ∀ a ∈ (vmmMap mem space hint length prot flags file offset).1.vmas, a.end_ ≤ bound := by
  rcases vmmMap_cases mem space hint length prot flags file offset with
    heq | ⟨a, start, -, -, -, ⟨hstart, hend⟩, heq⟩
  · rw [heq]
    exact h
  · rw [heq]
    intro b hb
    rcases mem_of_mem_vmaInsert hb with rfl | hb
    · have hlen : pageAlignUp (pageAlignUp length) = pageAlignUp length := by
        unfold pageAlignUp pageSize
        omega
      have hle : (start + pageAlignUp length) % 2 ^ 64 ≤ bound := by
        rcases mapStart_le hlen hstart with hle | ⟨c, hc, hle⟩
        · exact le_trans hle hwindow
        · have := h c hc
          have := hgood c hc
          omega
      rw [hend]
      generalize (start + pageAlignUp length) % 2 ^ 64 = x at hle ⊢
      unfold pageAlignUp
      unfold pageSize at *
      omega
    · exact h b hb

theorem WellFormed.vmmMap (h : WellFormed space.vmas) :
    WellFormed (vmmMap mem space hint length prot flags file offset).1.vmas := by
  rcases vmmMap_cases mem space hint length prot flags file offset with
    heq | ⟨a, _, ha, -, -, -, heq⟩
  · rw [heq]
    exact h
  · rw [heq]
    exact h.vmaInsert_fst ha

def bareVm : Vm := ⟨⟨fun _ _ => 0, reservedPmm 0⟩, none, fun _ _ => 0⟩

end

/-!
## The Search for a Free Range

`vma_find_unmapped_area` tries the lowest aligned address of the window and then the lowest aligned
address behind each area in turn. The first attempt compares the range with the start of the first
area and not with the end of the window: a range that ends between the two is returned although it
does not fit.
-/

open Nat

variable {curr : Area} {vmas rest : List Area} {minAddr maxAddr length alignment size c r : ℕ}
  {P Q : ℕ → Prop}

/-- A range of `size` bytes between `lo` and `hi` can start at `r`. -/
structure Vacant (vmas : List Area) (lo hi alignment size r : ℕ) : Prop where
  aligned : r % alignment = 0
  above : lo ≤ r
  below : r + size ≤ hi
  free : ∀ a ∈ vmas, r + size ≤ a.start ∨ a.end_ ≤ r

/-- The lowest address that has the property; `0` may also stand for none. -/
def LowestOrNone (P : ℕ → Prop) (r : ℕ) : Prop :=
  IsLeast {x | P x} r ∨ r = 0 ∧ ∀ x ≠ 0, ¬ P x

theorem LowestOrNone.congr (h : LowestOrNone P r) (hiff : ∀ x, P x ↔ Q x) : LowestOrNone Q r := by
  rwa [← show P = Q from funext fun x => propext (hiff x)]

/-- The lowest address that comes into question is tried first. -/
theorem LowestOrNone.attempt {fits : Prop} [Decidable fits] (hlow : ∀ x, P x → c ≤ x)
    (hfit : fits → P c) (hrest : ¬ fits → LowestOrNone P r) :
    LowestOrNone P (if fits then c else r) := by
  split
  next h => exact .inl ⟨hfit h, hlow⟩
  next h => exact hrest h

/-- The arguments of a search none of whose sums wraps. -/
structure Request (vmas : List Area) (minAddr maxAddr length alignment : ℕ) : Prop where
  nonempty : 0 < length
  window : minAddr < maxAddr
  power : ∃ k, alignment = 2 ^ k
  lengthFits : length + (pageSize - 1) < 2 ^ 64
  minFits : minAddr + (max alignment pageSize - 1) < 2 ^ 64
  endsFit : ∀ a ∈ vmas, a.end_ + (max alignment pageSize - 1) < 2 ^ 64
  firstFits : alignUpTo (max alignment pageSize) minAddr + pageAlignUp length < 2 ^ 64

/-- The range at the lowest aligned address of the window, which is not the null address, ends
behind the window but before the first area. -/
def Overrun (vmas : List Area) (minAddr maxAddr length alignment : ℕ) : Prop :=
  length ≤ maxAddr - minAddr ∧ ∃ a ∈ vmas.head?, ∃ r, IsLeast {x | x % max alignment pageSize = 0 ∧
    minAddr ≤ x} r ∧ r ≠ 0 ∧ maxAddr < r + pageAlignUp length ∧ r + pageAlignUp length ≤ a.start

theorem alignUpTo_isLeast {x : ℕ} (hpos : 0 < alignment) (hx : x + (alignment - 1) < 2 ^ 64) :
    IsLeast {y | y % alignment = 0 ∧ x ≤ y} (alignUpTo alignment x) := by
  unfold alignUpTo
  rw [mod_eq_of_lt hx]
  have hsplit := div_add_mod (x + (alignment - 1)) alignment
  have hrem := mod_lt (x + (alignment - 1)) hpos
  rw [Nat.mul_comm] at hsplit
  refine ⟨⟨mul_mod_left _ _, by omega⟩, ?_⟩
  rintro y ⟨hy, hle⟩
  obtain ⟨k, rfl⟩ := dvd_of_mod_eq_zero hy
  rw [Nat.mul_comm alignment k]
  apply Nat.mul_le_mul_right
  apply le_of_lt_succ
  apply Nat.div_lt_of_lt_mul
  rw [Nat.mul_succ]
  omega

section

variable (hpos : 0 < alignment) (hmin : minAddr % alignment = 0) (hsize : 0 < size)

include hpos hmin hsize

/-- One round of the loop tries the lowest aligned address behind `curr`. -/
theorem gapSearch_cons (hend : curr.end_ + (alignment - 1) < 2 ^ 64) (maxAddr : ℕ)
    (rest : List Area) :
    ∃ c, IsLeast {y | y % alignment = 0 ∧ max minAddr curr.end_ ≤ y} c ∧
      gapSearch minAddr size maxAddr alignment (curr :: rest) =
        if c + size ≤ maxAddr ∧ ∀ n ∈ rest.head?, c + size ≤ n.start then c
        else gapSearch minAddr size maxAddr alignment rest := by
  obtain ⟨⟨haligned, hle⟩, hleast⟩ := alignUpTo_isLeast hpos hend
  refine ⟨if alignUpTo alignment curr.end_ < minAddr then minAddr
    else alignUpTo alignment curr.end_, ?_, ?_⟩
  · split
    next hlt => exact ⟨⟨hmin, by omega⟩, fun y hy => le_trans (le_max_left _ _) hy.2⟩
    next hlt =>
      exact ⟨⟨haligned, by omega⟩, fun y hy => hleast ⟨hy.1, le_trans (le_max_right _ _) hy.2⟩⟩
  · rw [gapSearch]
    generalize (if alignUpTo alignment curr.end_ < minAddr then minAddr
      else alignUpTo alignment curr.end_) = c
    apply if_congr _ rfl rfl
    cases rest with
    | nil =>
      simp
      omega
    | cons =>
      simp
      split <;> omega

/-- The loop finds the lowest range behind `curr`. -/
theorem gapSearch_spec (hsep : Separated Area.start Area.end_ (curr :: rest))
    (hends : ∀ a ∈ curr :: rest, a.end_ + (alignment - 1) < 2 ^ 64) :
    LowestOrNone (Vacant rest (max minAddr curr.end_) maxAddr alignment size)
      (gapSearch minAddr size maxAddr alignment (curr :: rest)) := by
  induction rest generalizing curr with
  | nil =>
    obtain ⟨c, hleast, heq⟩ := gapSearch_cons hpos hmin hsize (hends curr mem_cons_self) maxAddr []
    rw [heq]
    refine .attempt (fun x hx => hleast.2 ⟨hx.aligned, hx.above⟩)
      (fun hfit => ⟨hleast.1.1, hleast.1.2, hfit.1, by simp⟩) fun hfit => .inr ⟨rfl, ?_⟩
    intro x _ hx
    have := hleast.2 ⟨hx.aligned, hx.above⟩
    have := hx.below
    exact hfit ⟨by omega, by simp⟩
  | cons next rest ih =>
    obtain ⟨c, hleast, heq⟩ := gapSearch_cons hpos hmin hsize (hends curr mem_cons_self) maxAddr
      (next :: rest)
    obtain ⟨-, hrest, hbehind⟩ := cons_iff.1 hsep
    obtain ⟨hnext, -, hafter⟩ := cons_iff.1 hrest
    have hcurr := hbehind next mem_cons_self
    simp only [head?_cons, mem_some_iff, forall_eq'] at heq
    rw [heq]
    refine .attempt (fun x hx => hleast.2 ⟨hx.aligned, hx.above⟩) (fun hfit => ?_) fun hfit => ?_
    · refine ⟨hleast.1.1, hleast.1.2, hfit.1, forall_mem_cons.2 ⟨.inl hfit.2, fun b hb => ?_⟩⟩
      have := hafter b hb
      exact .inl (by omega)
    · refine (ih hrest fun a ha => hends a (mem_cons_of_mem curr ha)).congr fun x => ?_
      constructor
      · rintro ⟨haligned, habove, hbelow, hfree⟩
        exact ⟨haligned, by omega, hbelow, forall_mem_cons.2 ⟨.inr (by omega), hfree⟩⟩
      · -- a range behind `curr` that is not behind `next` would have fitted here
        rintro ⟨haligned, habove, hbelow, hfree⟩
        have := hleast.2 ⟨haligned, habove⟩
        obtain ⟨hfirst, hothers⟩ := forall_mem_cons.1 hfree
        exact ⟨haligned, by omega, hbelow, hothers⟩

end

/-- The search finds the lowest range that fits, or finds that there is none, unless its first
attempt runs over the end of the window. -/
theorem unmapped_area_exact_iff (hwf : WellFormed vmas)
    (h : Request vmas minAddr maxAddr length alignment) :
    LowestOrNone (Vacant vmas minAddr maxAddr (max alignment pageSize) (pageAlignUp length))
        (vmaFindUnmappedArea vmas minAddr maxAddr length alignment) ↔
      ¬ Overrun vmas minAddr maxAddr length alignment := by
  obtain ⟨hfill, hwindow, -, hlength, hmin, hends, hfirst⟩ := h
  have hpos : 0 < max alignment pageSize := lt_of_lt_of_le (by decide) (le_max_right _ _)
  have hpick : (if alignment < pageSize then pageSize else alignment) = max alignment pageSize := by
    split <;> omega
  have hlen : length ≤ pageAlignUp length := by
    unfold pageAlignUp pageSize at *
    omega
  have hleast := alignUpTo_isLeast hpos hmin
  unfold vmaFindUnmappedArea Overrun
  rw [hpick]
  dsimp only
  rw [mod_eq_of_lt hfirst]
  generalize alignUpTo (max alignment pageSize) minAddr = m at *
  generalize pageAlignUp length = size at *
  have hlow : ∀ {r}, Vacant vmas minAddr maxAddr (max alignment pageSize) size r → m ≤ r :=
    fun hr => hleast.2 ⟨hr.aligned, hr.above⟩
  split
  next hearly =>
    refine iff_of_true (.inr ⟨rfl, fun r _ hr => ?_⟩) (by omega)
    have := hr.above
    have := hr.below
    omega
  next hearly =>
    cases vmas with
    | nil =>
      refine iff_of_true (.attempt (fun _ => hlow) (fun hfit => ⟨hleast.1.1, hleast.1.2, hfit,
        by simp⟩) fun hfit => .inr ⟨rfl, fun r _ hr => hfit ?_⟩) (by simp)
      have := hlow hr
      have := hr.below
      omega
    | cons curr rest =>
      obtain ⟨-, -, hbehind⟩ := cons_iff.1 hwf.separated
      have hcurr := (hwf.good curr mem_cons_self).nonempty
      dsimp only
      split
      next hstart =>
        constructor
        · rintro hlowest ⟨-, a, -, r, hr, hne, hover, -⟩
          obtain rfl := hr.unique hleast
          rcases hlowest with ⟨hr, -⟩ | ⟨hzero, -⟩
          · exact absurd hr.below (by omega)
          · exact hne hzero
        · intro hnot
          by_cases hfit : m + size ≤ maxAddr
          · refine .inl ⟨⟨hleast.1.1, hleast.1.2, hfit, forall_mem_cons.2 ⟨.inl hstart, ?_⟩⟩,
              fun _ => hlow⟩
            intro b hb
            have := hbehind b hb
            exact .inl (by omega)
          · refine .inr ⟨?_, fun r _ hr => ?_⟩
            · by_contra hne
              exact hnot ⟨by omega, curr, rfl, m, hleast, hne, not_le.1 hfit, hstart⟩
            · have := hlow hr
              have := hr.below
              omega
      next hstart =>
        refine iff_of_true ?_ ?_
        · refine (gapSearch_spec hpos hleast.1.1 (lt_of_lt_of_le hfill hlen) hwf.separated
            hends).congr fun r => ⟨?_, fun hr => ?_⟩
          · rintro ⟨haligned, habove, hbelow, hfree⟩
            have := hleast.1.2
            exact ⟨haligned, by omega, hbelow, forall_mem_cons.2 ⟨.inr (by omega), hfree⟩⟩
          · have := hlow hr
            obtain ⟨hfree, hothers⟩ := forall_mem_cons.1 hr.free
            exact ⟨hr.aligned, by omega, hr.below, hothers⟩
        · rintro ⟨-, a, ha, r, hr, -, -, hle⟩
          cases ha
          obtain rfl := hr.unique hleast
          exact hstart hle

/-- One page at 0x400000. -/
def pageArea : Area := ⟨0x400000, 0x401000, .anon, 0, none, 0⟩

theorem wellFormed_pageArea : WellFormed [pageArea] :=
  ⟨.singleton (by decide), forall_mem_singleton.2 ⟨by decide, by decide, by decide, by decide⟩⟩

/-- Three areas with one free page between the first two and two between the last. -/
def threeAreas : List Area :=
  [pageArea, ⟨0x402000, 0x403000, .file, 0, some 1, 0⟩, ⟨0x405000, 0x409000, .shm, 0, some 2, 0⟩]

theorem wellFormed_threeAreas : WellFormed threeAreas := by
  refine ⟨⟨by decide, by decide⟩, fun a ha => ?_⟩
  simp only [threeAreas, mem_cons, not_mem_nil, or_false] at ha
  rcases ha with rfl | rfl | rfl <;> exact ⟨by decide, by decide, by decide, by decide⟩

/-- Two pages do not fit into the first gap, so the second one is the lowest. -/
theorem unmapped_area_exact_iff_behind :
    vmaFindUnmappedArea threeAreas 0x400000 0x800000 0x2000 0x1000 = 0x403000 ∧
      LowestOrNone (Vacant threeAreas 0x400000 0x800000 (max 0x1000 pageSize)
        (pageAlignUp 0x2000)) (vmaFindUnmappedArea threeAreas 0x400000 0x800000 0x2000 0x1000) := by
  refine ⟨by decide, (unmapped_area_exact_iff wellFormed_threeAreas ⟨by decide, by decide,
    ⟨12, rfl⟩, by decide, by decide, by decide, by decide⟩).2 ?_⟩
  rintro ⟨-, a, ha, r, hr, -, -, hle⟩
  cases ha
  have hlow : 0x400000 ≤ r := hr.1.2
  have hstart : r + 0x2000 ≤ 0x400000 := hle
  omega

/-- An address behind the window is returned for an alignment of two pages. -/
theorem search_overruns : WellFormed [pageArea] ∧ Request [pageArea] 0x1000 0x2000 0x1000 0x2000 ∧
    vmaFindUnmappedArea [pageArea] 0x1000 0x2000 0x1000 0x2000 = 0x2000 ∧
    ¬ LowestOrNone (Vacant [pageArea] 0x1000 0x2000 (max 0x2000 pageSize) (pageAlignUp 0x1000))
      (vmaFindUnmappedArea [pageArea] 0x1000 0x2000 0x1000 0x2000) := by
  refine ⟨wellFormed_pageArea, ⟨by decide, by decide, ⟨13, rfl⟩, by decide, by decide, by decide,
    by decide⟩, by decide, ?_⟩
  rintro (⟨hr, -⟩ | ⟨hzero, -⟩)
  · exact absurd hr.below (by decide)
  · exact absurd hzero (by decide)

end BoredOS.Mem.Vmm
