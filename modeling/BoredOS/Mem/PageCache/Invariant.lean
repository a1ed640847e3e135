import BoredOS.Mem.Radix.Gang
import BoredOS.Mem.PageCache.Model

/-!
# The Invariant of the Page Cache

`Inv` ties together what `mem/pagecache.c` updates one after the other: the trees, the mapping and
index of each page, the dirty flag, the dirty tag and the global count. Each function on one page
keeps it, as long as a page becomes dirty only in a tree that has tags.
-/

namespace BoredOS.Mem.PageCache

open Radix Function Finset

namespace Cache

variable (s : Cache) (p q : PageId) (m m' : MapId) (v : Page) (w : AddressSpace)

@[simp] theorem space_setPage : (s.setPage p v).space = s.space := rfl

@[simp] theorem dirtyPagesCount_setPage : (s.setPage p v).dirtyPagesCount = s.dirtyPagesCount := rfl

@[simp] theorem page_setSpace : (s.setSpace m w).page = s.page := rfl

@[simp] theorem dirtyPagesCount_setSpace :
    (s.setSpace m w).dirtyPagesCount = s.dirtyPagesCount := rfl

@[simp] theorem page_setTree (tree : RadixRoot PageId) : (s.setTree m tree).page = s.page := rfl

theorem page_setPage : (s.setPage p v).page q = if q = p then v else s.page q :=
  update_apply s.page p v q

theorem space_setSpace : (s.setSpace m w).space m' = if m' = m then w else s.space m' :=
  update_apply s.space m w m'

theorem pageTree_setTree (tree : RadixRoot PageId) :
    ((s.setTree m tree).space m').pageTree = if m' = m then tree else (s.space m').pageTree := by
  unfold setTree
  rw [space_setSpace]
  split <;> rfl

end Cache

/-! ## The invariant -/

def dirtySet (s : Cache) : Finset PageId := univ.filter fun p => (s.page p).dirty = true

variable {s s' : Cache} {p : PageId} {m : MapId}

@[simp] theorem mem_dirtySet : p ∈ dirtySet s ↔ (s.page p).dirty = true := by
  simp [dirtySet]

theorem card_dirtySet_congr (h : ∀ q, (s'.page q).dirty = (s.page q).dirty) :
    (dirtySet s).card = (dirtySet s').card := by
  have heq : dirtySet s = dirtySet s' := by
    ext q
    rw [mem_dirtySet, mem_dirtySet, h]
  rw [heq]

/-- What the trees, the pages and the count have to do with each other between two calls. -/
structure Inv (s : Cache) : Prop where
  trees : ∀ m, (s.space m).pageTree.WF
  located : ∀ m i p, (s.space m).pageTree.itemAt i = some p ↔
    (s.page p).mapping = some m ∧ (s.page p).index = i
  tagged : ∀ m p, (s.page p).mapping = some m →
    (s.space m).pageTree.tagAt .dirty (s.page p).index = (s.page p).dirty
  clean : ∀ p, (s.page p).mapping = none → (s.page p).dirty = false
  count : s.dirtyPagesCount = (dirtySet s).card

theorem inv_init : Inv pagecacheInit := by
  refine ⟨fun _ => radixTreeInit_wf, ?_, ?_, fun _ _ => rfl, ?_⟩
  · intro m i p
    simp [pagecacheInit]
  · intro m p h
    simp [pagecacheInit] at h
  · simp [dirtySet, pagecacheInit]

theorem card_dirtySet_le (s : Cache) : (dirtySet s).card ≤ frameCount := by
  have h := card_le_univ (dirtySet s)
  rwa [Fintype.card_fin] at h

/-- Only these fields matter to the invariant. -/
theorem Inv.congr (h : Inv s) (hmapping : ∀ q, (s'.page q).mapping = (s.page q).mapping)
    (hindex : ∀ q, (s'.page q).index = (s.page q).index)
    (hdirty : ∀ q, (s'.page q).dirty = (s.page q).dirty)
    (htree : ∀ m, (s'.space m).pageTree = (s.space m).pageTree)
    (hcount : s'.dirtyPagesCount = s.dirtyPagesCount) : Inv s' := by
  refine ⟨?_, ?_, ?_, ?_, ?_⟩
  · intro m
    rw [htree]
    exact h.trees m
  · intro m i q
    rw [htree, hmapping, hindex]
    exact h.located m i q
  · intro m q hq
    rw [hmapping] at hq
    rw [htree, hindex, hdirty]
    exact h.tagged m q hq
  · intro q hq
    rw [hmapping] at hq
    rw [hdirty]
    exact h.clean q hq
  · rw [hcount, h.count]
    exact card_dirtySet_congr hdirty

theorem Inv.itemAt_index (h : Inv s) (hp : (s.page p).mapping = some m) :
    (s.space m).pageTree.itemAt (s.page p).index = some p :=
  (h.located m _ p).2 ⟨hp, rfl⟩

/-- Two cached pages with one mapping and one index are the same. -/
theorem Inv.eq_of_index (h : Inv s) {q : PageId}
    (hp : (s.page p).mapping = some m) (hq : (s.page q).mapping = some m)
    (hi : (s.page q).index = (s.page p).index) : q = p := by
  have h₁ := h.itemAt_index hp
  have h₂ := h.itemAt_index hq
  rw [hi, h₁] at h₂
  exact (Option.some.inj h₂).symm

/-- A page and the tree of the mapping `m` are replaced. The page was in no other mapping and is in
no other one. -/
theorem Inv.replace (h : Inv s) {v : Page}
    {tree : RadixRoot PageId} (hpage : ∀ q, s'.page q = if q = p then v else s.page q)
    (htree : ∀ m', (s'.space m').pageTree = if m' = m then tree else (s.space m').pageTree)
    (hfar : ∀ m' ≠ m, v.mapping ≠ some m' ∧ (s.page p).mapping ≠ some m') (hwf : tree.WF)
    (hlocated : ∀ i q, tree.itemAt i = some q ↔
      (s'.page q).mapping = some m ∧ (s'.page q).index = i)
    (htagged : ∀ q, (s'.page q).mapping = some m →
      tree.tagAt .dirty (s'.page q).index = (s'.page q).dirty)
    (hclean : v.mapping = none → v.dirty = false)
    (hcount : s'.dirtyPagesCount = (dirtySet s').card) : Inv s' := by
  refine ⟨?_, ?_, ?_, ?_, hcount⟩
  · intro m'
    rw [htree]
    split
    · exact hwf
    · exact h.trees m'
  · intro m' i q
    rw [htree]
    split
    next hm => rw [hm, hlocated]
    next hm =>
      rw [h.located, hpage]
      by_cases hq : q = p
      · simp [hq, hfar m' hm]
      · rw [if_neg hq]
  · intro m' q hq
    rw [htree]
    split
    next hm => exact htagged q (hm ▸ hq)
    next hm =>
      have hne : q ≠ p := by
        rintro rfl
        rw [hpage, if_pos rfl] at hq
        exact (hfar m' hm).1 hq
      rw [hpage, if_neg hne] at hq ⊢
      exact h.tagged m' q hq
  · intro q hq
    rw [hpage] at hq ⊢
    by_cases hqp : q = p
    · rw [if_pos hqp] at hq ⊢
      exact hclean hq
    · rw [if_neg hqp] at hq ⊢
      exact h.clean q hq

/-! ## The dirty flag -/

/-- The pages keep their place and the trees their height. -/
structure SamePlaces (s s' : Cache) : Prop where
  mapping : ∀ q, (s'.page q).mapping = (s.page q).mapping
  index : ∀ q, (s'.page q).index = (s.page q).index
  height : ∀ m, (s'.space m).pageTree.height = (s.space m).pageTree.height

theorem SamePlaces.refl (s : Cache) : SamePlaces s s :=
  ⟨fun _ => rfl, fun _ => rfl, fun _ => rfl⟩

theorem SamePlaces.trans {s₁ s₂ s₃ : Cache} (h : SamePlaces s₁ s₂) (h' : SamePlaces s₂ s₃) :
    SamePlaces s₁ s₃ :=
  ⟨fun q => (h'.mapping q).trans (h.mapping q), fun q => (h'.index q).trans (h.index q),
    fun m => (h'.height m).trans (h.height m)⟩

/-- The state in which a page of a mapping has the dirty flag `b`, with the tree and the count that
follow it. -/
def withDirty (s : Cache) (p : PageId) (m : MapId) (b : Bool) (tree : RadixRoot PageId)
    (n : ℕ) : Cache :=
  { s with dirtyPagesCount := n }.setPage p { s.page p with dirty := b } |>.setTree m tree

section

variable {s : Cache} {p : PageId} {m : MapId} {b : Bool} {tree : RadixRoot PageId} {n : ℕ}
  (q : PageId)

theorem page_withDirty : (withDirty s p m b tree n).page q =
    if q = p then { s.page p with dirty := b } else s.page q :=
  update_apply s.page p _ q

theorem mapping_withDirty : ((withDirty s p m b tree n).page q).mapping = (s.page q).mapping := by
  rw [page_withDirty]
  split
  next h => rw [h]
  next => rfl

theorem index_withDirty : ((withDirty s p m b tree n).page q).index = (s.page q).index := by
  rw [page_withDirty]
  split
  next h => rw [h]
  next => rfl

theorem dirty_withDirty :
    ((withDirty s p m b tree n).page q).dirty = if q = p then b else (s.page q).dirty := by
  rw [page_withDirty]
  split <;> rfl

theorem pageTree_withDirty (m' : MapId) : ((withDirty s p m b tree n).space m').pageTree =
    if m' = m then tree else (s.space m').pageTree :=
  Cache.pageTree_setTree _ m m' tree

theorem samePlaces_withDirty (hheight : tree.height = (s.space m).pageTree.height) :
    SamePlaces s (withDirty s p m b tree n) := by
  refine ⟨mapping_withDirty, index_withDirty, ?_⟩
  intro m'
  rw [pageTree_withDirty]
  split
  next h => rw [h, hheight]
  next => rfl

/-- The flag, the tag and the count change together. -/
theorem Inv.withDirty (h : Inv s) (hm : (s.page p).mapping = some m)
    (htree : TagDone (s.space m).pageTree (s.page p).index .dirty b tree)
    (hn : n = (dirtySet (withDirty s p m b tree n)).card) : Inv (withDirty s p m b tree n) := by
  refine h.replace page_withDirty pageTree_withDirty ?_ htree.wf ?_ ?_ ?_ hn
  · intro m' hne
    simp [hm, Ne.symm hne]
  · intro i q
    rw [mapping_withDirty, index_withDirty, ← h.located, htree.item]
  · intro q hq
    rw [mapping_withDirty] at hq
    rw [index_withDirty, dirty_withDirty, htree.same]
    -- another page of the mapping has another index
    by_cases hqp : q = p
    · simp [hqp]
    · rw [if_neg hqp, if_neg fun hi => hqp (h.eq_of_index hm hq hi), h.tagged m q hq]
  · simp [hm]

end

/-- `pagecache_mark_dirty` in a tree that has tags. -/
theorem pagecacheMarkDirty_spec (h : Inv s) (p : PageId)
    (hheight : ∀ m, (s.page p).mapping = some m → (s.page p).dirty = false →
      (s.space m).pageTree.height ≠ 0) :
    ∃ s', pagecacheMarkDirty s p = some s' ∧ Inv s' ∧ SamePlaces s s' := by
  unfold pagecacheMarkDirty
  cases hm : (s.page p).mapping with
  | none => exact ⟨s, rfl, h, .refl s⟩
  | some m =>
    by_cases hd : (s.page p).dirty = true
    · exact ⟨s, by simp [hd], h, .refl s⟩
    · have hd' : (s.page p).dirty = false := by simpa using hd
      obtain ⟨tree, hrun, htree⟩ := radixTreeTagSet_spec (h.trees m) .dirty
        (by rw [h.itemAt_index hm]; simp) (hheight m hm hd')
      refine ⟨withDirty s p m true tree ((s.dirtyPagesCount + 1) % 2 ^ 64),
        by simp [hd, hrun, withDirty], h.withDirty hm htree ?_,
        samePlaces_withDirty htree.height⟩
      have hset : dirtySet (withDirty s p m true tree ((s.dirtyPagesCount + 1) % 2 ^ 64)) =
          insert p (dirtySet s) := by
        ext q
        simp only [mem_dirtySet, dirty_withDirty, mem_insert]
        by_cases hq : q = p <;> simp [hq]
      have hle := card_dirtySet_le s
      rw [hset, card_insert_of_notMem (by simp [hd]), h.count]
      apply Nat.mod_eq_of_lt
      unfold frameCount at hle
      omega

theorem pagecacheClearDirty_spec (h : Inv s) (p : PageId) :
    ∃ s', pagecacheClearDirty s p = some s' ∧ Inv s' ∧ SamePlaces s s' ∧
      ∀ q, (s'.page q).dirty = if q = p then false else (s.page q).dirty := by
  unfold pagecacheClearDirty
  cases hm : (s.page p).mapping with
  | none =>
    refine ⟨s, rfl, h, .refl s, fun q => ?_⟩
    split
    next hq => rw [hq, h.clean p hm]
    next => rfl
  | some m =>
    by_cases hd : (s.page p).dirty = true
    · obtain ⟨tree, hrun, htree⟩ := radixTreeTagClear_spec (h.trees m) .dirty
        (by rw [h.itemAt_index hm]; simp)
      refine ⟨withDirty s p m false tree ((s.dirtyPagesCount + (2 ^ 64 - 1)) % 2 ^ 64),
        by simp [hd, hrun, withDirty], h.withDirty hm htree ?_,
        samePlaces_withDirty htree.height, dirty_withDirty⟩
      have hset : dirtySet (withDirty s p m false tree
          ((s.dirtyPagesCount + (2 ^ 64 - 1)) % 2 ^ 64)) = (dirtySet s).erase p := by
        ext q
        simp only [mem_dirtySet, dirty_withDirty, mem_erase]
        by_cases hq : q = p <;> simp [hq]
      have hle := card_dirtySet_le s
      have hpos : 0 < (dirtySet s).card := card_pos.2 ⟨p, mem_dirtySet.2 hd⟩
      rw [hset, card_erase_of_mem (mem_dirtySet.2 hd), h.count]
      unfold frameCount at hle
      omega
    · refine ⟨s, by simp [hd], h, .refl s, fun q => ?_⟩
      split
      next hq => rw [hq]; simpa using hd
      next => rfl

end BoredOS.Mem.PageCache
