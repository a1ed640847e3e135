import BoredOS.Mem.PageCache.Invariant

/-!
# The Functions on Pages and Mappings

`pagecache_add_page`, `pagecache_remove_page` and `pagecache_get_page` keep the invariant. A page is
added when it is in no mapping and removed from the mapping it is in.

The loops of `pagecache_sync_mapping` and `pagecache_truncate_range` take the pages of a mapping in
batches of 16 by increasing index. Each batch leaves nothing to do below the index after its last
page, so that the loops end, and what a loop has not visited when it ends is not there.
-/

namespace BoredOS.Mem.PageCache

open Radix List Prod
open Option (bind_eq_bind bind_some some.injEq)
open Cache (page_setPage page_setSpace space_setPage)

/-! ## Adding -/

variable {s : Cache} {m : MapId} {p newPage : PageId} {index : ℕ} {tree : RadixRoot PageId}

/-- The new state of `pagecache_add_page` when the insertion succeeded. -/
theorem inv_addPage (h : Inv s) (hp : (s.page p).mapping = none)
    (hins : InsertDone (s.space m).pageTree index p tree 0) (hfree : (s.space m).pageTree.itemAt
      index = none) (n : ℕ) :
    Inv (s.setPage p { s.page p with mapping := some m, index := index, cached := true }
      |>.setSpace m { s.space m with pageTree := tree, nrPages := n }) := by
  -- nothing is tagged at an index that was free
  have huntagged : (s.space m).pageTree.tagAt .dirty index = false := by
    by_contra htag
    obtain ⟨x, hx⟩ := (h.trees m).item_of_tagAt (by simpa using htag)
    rw [hfree] at hx
    cases hx
  refine h.replace (m := m) (fun q => page_setPage s p q _) (fun m' => ?_) ?_ hins.wf ?_ ?_ nofun ?_
  · rw [Cache.space_setSpace, space_setPage]
    split <;> rfl
  · intro m' hne
    simp [hp, Ne.symm hne]
  · intro i q
    rw [page_setSpace, page_setPage, hins.item]
    by_cases hq : q = p
    · subst hq
      have hold : (s.space m).pageTree.itemAt i ≠ some q := by simp [h.located, hp]
      by_cases hi : i = index
      · simp [hi]
      · simp [hi, hold, Ne.symm hi]
    · by_cases hi : i = index
      · simp [hi, hq, Ne.symm hq, ← h.located, hfree]
      · simp [hi, hq, h.located]
  · intro q hq
    rw [page_setSpace, page_setPage] at hq ⊢
    rw [hins.tag]
    by_cases hqp : q = p
    · simp [hqp, huntagged, h.clean p hp]
    · rw [if_neg hqp] at hq ⊢
      exact h.tagged m q hq
  · rw [Cache.dirtyPagesCount_setSpace, Cache.dirtyPagesCount_setPage, h.count]
    apply card_dirtySet_congr
    intro q
    rw [page_setSpace, page_setPage]
    split
    next hq => rw [hq]
    next => rfl

/-- A tree that holds the same items under the same tags may take the place of another. -/
theorem inv_setTree (h : Inv s)
    (hwf : tree.WF) (hitem : ∀ j, tree.itemAt j = (s.space m).pageTree.itemAt j)
    (htag : ∀ j, tree.tagAt .dirty j = (s.space m).pageTree.tagAt .dirty j) :
    Inv (s.setTree m tree) := by
  refine ⟨?_, ?_, ?_, h.clean, h.count⟩
  · intro m'
    rw [Cache.pageTree_setTree]
    split
    · exact hwf
    · exact h.trees m'
  · intro m' i q
    rw [Cache.pageTree_setTree, Cache.page_setTree, ← h.located]
    split
    next hm => rw [hm, hitem]
    next => rfl
  · intro m' q hq
    rw [Cache.pageTree_setTree, Cache.page_setTree, ← h.tagged m' q hq]
    split
    next hm => rw [hm, htag]
    next => rfl

theorem pagecacheAddPage_spec (h : Inv s) (hp : (s.page p).mapping = none) {s' : Cache} {ret : ℤ}
    (hrun : pagecacheAddPage s m p index = some (s', ret)) :
    Inv s' ∧ (ret = 0 → (s'.page p).mapping = some m) := by
  unfold pagecacheAddPage at hrun
  by_cases hgrow : GrowsEmpty (s.space m).pageTree index (some p)
  · rw [radixTreeInsert_growsEmpty (h.trees m) hgrow] at hrun
    cases hrun
  · obtain ⟨tree, ret', hins, hdone⟩ := radixTreeInsert_spec (h.trees m) index p hgrow
    rw [hins] at hrun
    by_cases hret : ret' = 0
    · subst hret
      obtain ⟨rfl, rfl⟩ := hrun
      have hfree : (s.space m).pageTree.itemAt index = none := by
        by_contra hne
        have := hdone.ret_eq
        rw [if_neg fun hc => hne hc.2] at this
        cases this
      refine ⟨inv_addPage h hp hdone hfree _, fun _ => ?_⟩
      rw [page_setSpace, page_setPage, if_pos rfl]
    · simp only [bind_eq_bind, bind_some, hret, if_false, some.injEq, mk.injEq] at hrun
      obtain ⟨rfl, rfl⟩ := hrun
      refine ⟨inv_setTree h hdone.wf ?_ (hdone.tag .dirty), fun h0 => absurd h0 hret⟩
      intro j
      rw [hdone.item, if_neg fun hc => hret hc.1]

/-! ## Removing -/

structure OthersStay (s s' : Cache) (p : PageId) : Prop where
  mapping : ∀ q ≠ p, (s'.page q).mapping = (s.page q).mapping
  index : ∀ q ≠ p, (s'.page q).index = (s.page q).index

theorem deletePage_spec (h : Inv s)
    (hp : (s.page p).mapping = some m) (hd : (s.page p).dirty = false) :
    ∃ s', deletePage s m p = some s' ∧ Inv s' ∧ OthersStay s s' p := by
  have hitem := h.itemAt_index hp
  obtain ⟨tree, hdel, hwf, hitems, htags⟩ := radixTreeDelete_spec (h.trees m) (s.page p).index
  have htags := htags (by rw [hitem]; simp)
  refine ⟨_, by unfold deletePage; rw [hdel]; rfl, ?_, ⟨?_, ?_⟩⟩
  · refine h.replace (m := m) (fun q => page_setPage s p q _) (fun m' => ?_) ?_ hwf ?_ ?_
      (fun _ => hd) ?_
    · rw [Cache.space_setSpace, space_setPage]
      split <;> rfl
    · intro m' hne
      simp [hp, Ne.symm hne]
    · intro i q
      rw [page_setSpace, page_setPage, hitems]
      by_cases hq : q = p
      · subst hq
        by_cases hi : i = (s.page q).index <;> simp [hi, h.located, Ne.symm]
      · by_cases hi : i = (s.page p).index
        · simp [hi, hq, ← h.located, hitem, Ne.symm hq]
        · simp [hi, hq, h.located]
    · intro q hq
      rw [page_setSpace, page_setPage] at hq ⊢
      by_cases hqp : q = p
      · simp [hqp] at hq
      · rw [if_neg hqp] at hq ⊢
        rw [htags, if_neg fun hi => hqp (h.eq_of_index hp hq hi)]
        exact h.tagged m q hq
    · rw [Cache.dirtyPagesCount_setSpace, Cache.dirtyPagesCount_setPage, h.count]
      apply card_dirtySet_congr
      intro q
      rw [page_setSpace, page_setPage]
      split
      next hq => rw [hq]
      next => rfl
  · intro q hq
    rw [page_setSpace, page_setPage, if_neg hq]
  · intro q hq
    rw [page_setSpace, page_setPage, if_neg hq]

theorem pagecacheRemovePage_spec (h : Inv s) (hp : (s.page p).mapping = some m) :
    ∃ s', pagecacheRemovePage s m p = some s' ∧ Inv s' ∧ OthersStay s s' p := by
  unfold pagecacheRemovePage
  by_cases hd : (s.page p).dirty = true
  · obtain ⟨s₁, hclear, hinv₁, hsame, hdirty⟩ := pagecacheClearDirty_spec h p
    obtain ⟨s₂, hdel, hinv₂, hstay⟩ := deletePage_spec hinv₁ ((hsame.mapping p).trans hp)
      (by rw [hdirty, if_pos rfl])
    refine ⟨s₂, by rw [if_pos hd, hclear]; exact hdel, hinv₂, ?_, ?_⟩
    · intro q hq
      rw [hstay.mapping q hq, hsame.mapping]
    · intro q hq
      rw [hstay.index q hq, hsame.index]
  · rw [if_neg hd]
    exact deletePage_spec h hp (by simpa using hd)

/-! ## Finding or creating -/

/-- The flags of a page that is in no mapping do not matter. -/
theorem inv_clearFlags (h : Inv s) (hp : (s.page p).mapping = none) :
    Inv (s.setPage p { s.page p with cached := false, dirty := false, error := false }) := by
  apply h.congr
  · intro q
    rw [page_setPage]
    split
    next hq => rw [hq]
    next => rfl
  · intro q
    rw [page_setPage]
    split
    next hq => rw [hq]
    next => rfl
  · intro q
    rw [page_setPage]
    split
    next hq => rw [hq, h.clean p hp]
    next => rfl
  · exact fun _ => rfl
  · rfl

theorem pagecacheGetPage_spec (h : Inv s)
    {readErr : Option ℤ} (hp : (s.page newPage).mapping = none) {s' : Cache} {r : Option PageId}
    (hrun : pagecacheGetPage s m index newPage readErr = some (s', r)) : Inv s' := by
  unfold pagecacheGetPage at hrun
  rw [radixTreeLookup_spec (h.trees m), bind_eq_bind, bind_some] at hrun
  cases hitem : (s.space m).pageTree.itemAt index with
  | some =>
    rw [hitem] at hrun
    cases hrun
    exact h
  | none =>
    rw [hitem] at hrun
    have hinv₀ := inv_clearFlags h hp
    obtain ⟨⟨s₁, ret⟩, hadd, hrest⟩ := Option.bind_eq_some_iff.1 hrun
    obtain ⟨hinv₁, hmap⟩ := pagecacheAddPage_spec hinv₀
      (by rw [page_setPage, if_pos rfl]; exact hp) hadd
    by_cases hret : ret = 0
    · simp only [hret, ne_eq, not_true_eq_false, if_false] at hrest
      unfold readNewPage at hrest
      cases readErr with
      | none =>
        cases hrest
        exact hinv₁
      | some err =>
        by_cases herr : err = 0
        · simp only [herr, ne_eq, not_true_eq_false, if_false, some.injEq, mk.injEq] at hrest
          obtain ⟨rfl, -⟩ := hrest
          exact hinv₁
        · obtain ⟨s₂, hrem, hinv₂, -⟩ := pagecacheRemovePage_spec hinv₁ (hmap hret)
          simp only [herr, ne_eq, not_false_eq_true, if_true, hrem, Option.map_some,
            some.injEq, mk.injEq] at hrest
          obtain ⟨rfl, -⟩ := hrest
          exact hinv₂
    · simp only [ne_eq, hret, not_false_eq_true, if_true] at hrest
      obtain ⟨again, -, hrest⟩ := Option.bind_eq_some_iff.1 hrest
      cases hrest
      exact hinv₁

/-- A page that is not there and can be read is added. -/
theorem pagecacheGetPage_new (h : Inv s)
    (hfree : (s.space m).pageTree.itemAt index = none) (hlt : index < 2 ^ 42)
    (hgrow : ¬ GrowsEmpty (s.space m).pageTree index (some newPage)) :
    ∃ s', pagecacheGetPage s m index newPage (some 0) = some (s', some newPage) ∧
      (∀ m' j, (s'.space m').pageTree.itemAt j =
        if m' = m ∧ j = index then some newPage else (s.space m').pageTree.itemAt j) ∧
      ∀ q ≠ newPage, (s'.page q).mapping = (s.page q).mapping := by
  obtain ⟨tree, ret, hins, hdone⟩ := radixTreeInsert_spec (h.trees m) index newPage hgrow
  have hret : ret = 0 := by rw [hdone.ret_eq, if_pos ⟨hlt, hfree⟩]
  subst hret
  unfold pagecacheGetPage pagecacheAddPage
  rw [radixTreeLookup_spec (h.trees m), hfree]
  simp only [bind_eq_bind, bind_some, space_setPage, hins, if_true,
    ne_eq, not_true_eq_false, if_false, readNewPage]
  refine ⟨_, rfl, ?_, ?_⟩
  · intro m' j
    by_cases hm : m' = m
    · subst hm
      simp [Cache.setSpace, hdone.item]
    · simp [Cache.setSpace, hm]
  · intro q hq
    simp [Cache.setSpace, Cache.setPage, Function.update_of_ne hq]

/-! ## One batch -/

/-- The pages that a gang lookup returns. -/
def batch (s : Cache) (m : MapId) (tag : Option Tag) (next : ℕ) : List PageId :=
  (((s.space m).pageTree.entriesFrom tag next).map snd).take 16

section

variable {s : Cache} {m : MapId} {tag : Option Tag} {next : ℕ} {p q : PageId}

theorem mem_entriesFrom_page (h : Inv s) {i : ℕ} :
    (i, p) ∈ (s.space m).pageTree.entriesFrom tag next ↔
      ((s.page p).mapping = some m ∧ (s.page p).index = i) ∧ next ≤ i ∧
        ∀ t ∈ tag, (s.space m).pageTree.tagAt t i = true := by
  rw [mem_entriesFrom, h.located, and_left_comm]

theorem batch_eq_map : batch s m tag next =
    (((s.space m).pageTree.entriesFrom tag next).take 16).map snd :=
  map_take.symm

section

variable (h : Inv s)

include h

theorem exists_entry_of_mem_batch (hp : p ∈ batch s m tag next) :
    ((s.page p).index, p) ∈ ((s.space m).pageTree.entriesFrom tag next).take 16 := by
  rw [batch_eq_map] at hp
  obtain ⟨⟨i, p'⟩, he, hp'⟩ := mem_map.1 hp
  obtain rfl : p' = p := hp'
  have hi := ((mem_entriesFrom_page h).1 (mem_of_mem_take he)).1.2
  rwa [hi]

theorem of_mem_batch (hp : p ∈ batch s m tag next) :
    (s.page p).mapping = some m ∧ next ≤ (s.page p).index := by
  have he := (mem_entriesFrom_page h).1 (mem_of_mem_take (exists_entry_of_mem_batch h hp))
  exact ⟨he.1.1, he.2.1⟩

/-- A page that was asked for is in the batch or comes after it. -/
theorem mem_batch_or_after {last : PageId}
    (hlast : (batch s m tag next).getLast? = some last) (hq : (s.page q).mapping = some m)
    (hnext : next ≤ (s.page q).index)
    (htag : ∀ t ∈ tag, (s.space m).pageTree.tagAt t (s.page q).index = true) :
    q ∈ batch s m tag next ∨ (s.page last).index < (s.page q).index := by
  have hentry := (mem_entriesFrom_page h).2 ⟨⟨hq, rfl⟩, hnext, htag⟩
  have hsorted := entriesFrom_sorted (s.space m).pageTree tag next
  rw [← take_append_drop 16 ((s.space m).pageTree.entriesFrom tag next)] at hentry hsorted
  rcases mem_append.1 hentry with hin | hout
  · left
    rw [batch_eq_map]
    exact mem_map.2 ⟨_, hin, rfl⟩
  · right
    have hlast' := exists_entry_of_mem_batch h (mem_of_getLast? hlast)
    exact (pairwise_append.1 hsorted).2.2 _ hlast' _ hout

/-- After an empty batch nothing is left that was asked for. -/
theorem not_of_batch_nil (hnil : (batch s m tag next).getLast? = none)
    (hq : (s.page q).mapping = some m) (hnext : next ≤ (s.page q).index) :
    ¬ ∀ t ∈ tag, (s.space m).pageTree.tagAt t (s.page q).index = true := by
  intro htag
  have hentry := (mem_entriesFrom_page h).2 ⟨⟨hq, rfl⟩, hnext, htag⟩
  rw [getLast?_eq_none_iff, batch, take_eq_nil_iff] at hnil
  rcases hnil with h16 | hnil
  · exact absurd h16 (by decide)
  · rw [map_eq_nil_iff] at hnil
    rw [hnil] at hentry
    cases hentry

theorem nodup_batch : (batch s m tag next).Nodup := by
  rw [batch_eq_map]
  have hsorted := (entriesFrom_sorted (s.space m).pageTree tag next).sublist (take_sublist 16 _)
  apply pairwise_map.2
  apply hsorted.imp_of_mem
  intro a b ha hb hlt heq
  have hi : (s.page a.2).index = a.1 := ((mem_entriesFrom_page h).1 (mem_of_mem_take ha)).1.2
  have hj : (s.page b.2).index = b.1 := ((mem_entriesFrom_page h).1 (mem_of_mem_take hb)).1.2
  rw [heq] at hi
  omega

/-- The next index grows and stays within the range of the trees. -/
theorem nextIndex_eq {last : PageId} (hlast : (batch s m tag next).getLast? = some last) :
    ((s.page last).index + 1) % 2 ^ 64 = (s.page last).index + 1 ∧
      2 ^ 42 - ((s.page last).index + 1) < 2 ^ 42 - next := by
  obtain ⟨hmap, hle⟩ := of_mem_batch h (mem_of_getLast? hlast)
  have hlt := (h.trees m).lt_of_lt (lt_of_itemAt_ne_none (by rw [h.itemAt_index hmap]; simp)).1
  refine ⟨Nat.mod_eq_of_lt ?_, ?_⟩ <;> omega

end

end

/-! ## Writing back -/

def WritesSucceed (writePage : ℕ → PageId → ℤ) : Prop := ∀ n p, writePage n p = 0

/-- A stretch of `pagecache_sync_mapping` that visits the pages in `visited`: when every write
succeeds they are clean afterwards, and what is no longer dirty was written. -/
structure Synced (writePage : ℕ → PageId → ℤ) (visited : PageId → Prop) (st st' : SyncState) :
    Prop where
  inv : Inv st'.cache
  same : SamePlaces st.cache st'.cache
  written : ∀ q ∈ st.written, q ∈ st'.written
  cleaned : WritesSucceed writePage → ∀ q, (st'.cache.page q).dirty = true →
    (st.cache.page q).dirty = true ∧ ¬ visited q
  reported : WritesSucceed writePage → ∀ q, (st.cache.page q).dirty = true →
    (st'.cache.page q).dirty = false → q ∈ st'.written

section

variable {writePage : ℕ → PageId → ℤ} {visited visited' : PageId → Prop} {m : MapId}

theorem Synced.trans {st₁ st₂ st₃ : SyncState} (h : Synced writePage visited st₁ st₂)
    (h' : Synced writePage visited' st₂ st₃) :
    Synced writePage (fun q => visited q ∨ visited' q) st₁ st₃ := by
  refine ⟨h'.inv, h.same.trans h'.same, fun q hq => h'.written q (h.written q hq), ?_, ?_⟩
  · intro hok q hq
    obtain ⟨hq₂, hv'⟩ := h'.cleaned hok q hq
    obtain ⟨hq₁, hv⟩ := h.cleaned hok q hq₂
    exact ⟨hq₁, fun hor => hor.elim hv hv'⟩
  · intro hok q hq₁ hq₃
    by_cases hq₂ : (st₂.cache.page q).dirty = true
    · exact h'.reported hok q hq₂ hq₃
    · exact h'.written q (h.reported hok q hq₁ (by simpa using hq₂))

/-- More pages count as visited when those that are dirty were not visited anyway. -/
theorem Synced.visit {st st' : SyncState} (h : Synced writePage visited st st')
    (hvisit : ∀ q, (st.cache.page q).dirty = true → visited' q → visited q) :
    Synced writePage visited' st st' := by
  refine { h with cleaned := ?_ }
  intro hok q hq
  obtain ⟨hd, hv⟩ := h.cleaned hok q hq
  exact ⟨hd, fun hv' => hv (hvisit q hd hv')⟩

theorem Synced.nothing {st : SyncState} (h : Inv st.cache) :
    Synced writePage (fun _ => False) st st := by
  refine ⟨h, .refl _, fun _ hq => hq, fun _ q hq => ⟨hq, id⟩, ?_⟩
  intro _ q hq hq'
  rw [hq] at hq'
  cases hq'

/-- The page of a failed write is dirty again. -/
theorem writeFailed_spec {s : Cache} (h : Inv s) {p : PageId}
    (hheight : ∀ m, (s.page p).mapping = some m → (s.space m).pageTree.height ≠ 0) :
    ∃ s', writeFailed s m p = some s' ∧ Inv s' ∧ SamePlaces s s' := by
  obtain ⟨s₁, hmark, hinv₁, hsame₁⟩ :=
    pagecacheMarkDirty_spec h p fun m hm _ => hheight m hm
  -- the error flag of the page and the error sequence of the mapping are not in the invariant
  have hpage : ∀ v q, v = s₁.page p → ((s₁.setPage p { v with error := true }).page q).mapping =
      (s₁.page q).mapping ∧ ((s₁.setPage p { v with error := true }).page q).index =
      (s₁.page q).index ∧ ((s₁.setPage p { v with error := true }).page q).dirty =
      (s₁.page q).dirty := by
    intro v q hv
    rw [Cache.page_setPage, hv]
    split
    next hq => rw [hq]; exact ⟨rfl, rfl, rfl⟩
    next => exact ⟨rfl, rfl, rfl⟩
  have htree : ∀ n m', ((s₁.setSpace m { s₁.space m with wbErr := n }).space m').pageTree =
      (s₁.space m').pageTree := by
    intro n m'
    rw [Cache.space_setSpace]
    split
    next hm => rw [hm]
    next => rfl
  refine ⟨_, by unfold writeFailed; rw [hmark]; rfl, ?_, ?_⟩
  · exact hinv₁.congr (fun q => (hpage _ q rfl).1) (fun q => (hpage _ q rfl).2.1)
      (fun q => (hpage _ q rfl).2.2) (htree _) rfl
  · refine hsame₁.trans ⟨fun q => (hpage _ q rfl).1, fun q => (hpage _ q rfl).2.1, fun m' => ?_⟩
    exact congrArg RadixRoot.height (htree _ m')

theorem syncPage_spec {st : SyncState} (h : Inv st.cache) (p : PageId) :
    ∃ st', syncPage m writePage st p = some st' ∧ Synced writePage (fun q => q = p) st st' := by
  unfold syncPage
  split
  next hd =>
    obtain ⟨s₁, hclear, hinv₁, hsame₁, hdirty₁⟩ := pagecacheClearDirty_spec h p
    rw [hclear, bind_eq_bind, bind_some]
    by_cases hfail : writePage st.written.length p ≠ 0
    · -- the page was dirty, so its tree has tags and it can be marked again
      rw [if_pos hfail]
      obtain ⟨s₂, hmark, hinv₂, hsame₂⟩ := writeFailed_spec hinv₁ (p := p) (m := m) (by
        intro m' hm'
        rw [hsame₁.mapping] at hm'
        rw [hsame₁.height]
        intro hzero
        have htag := h.tagged m' p hm'
        simp [RadixRoot.tagAt, hzero, hd] at htag)
      refine ⟨⟨s₂, st.written ++ [p], st.synced⟩, by rw [hmark]; rfl, hinv₂,
        hsame₁.trans hsame₂, fun q hq => mem_append_left _ hq, ?_, ?_⟩
      · exact fun hok => absurd (hok _ _) hfail
      · exact fun hok => absurd (hok _ _) hfail
    · rw [if_neg hfail]
      refine ⟨_, rfl, hinv₁, hsame₁, fun q hq => mem_append_left _ hq, ?_, ?_⟩
      · intro _ q hq
        rw [hdirty₁] at hq
        by_cases hqp : q = p
        · rw [if_pos hqp] at hq
          cases hq
        · rw [if_neg hqp] at hq
          exact ⟨hq, hqp⟩
      · intro _ q hq hq'
        rw [hdirty₁] at hq'
        by_cases hqp : q = p
        · rw [hqp]
          exact mem_append_right _ (mem_singleton_self p)
        · rw [if_neg hqp, hq] at hq'
          cases hq'
  next hd => exact ⟨st, rfl, (Synced.nothing h).visit fun q hq hqp => hd (hqp ▸ hq)⟩

theorem syncBatch_spec : ∀ (pages : List PageId) {st : SyncState}, Inv st.cache →
    ∃ st', syncBatch m writePage st pages = some st' ∧
      Synced writePage (fun q => q ∈ pages) st st' := by
  intro pages
  induction pages with
  | nil =>
    intro st h
    exact ⟨st, rfl, (Synced.nothing h).visit fun q _ hq => by cases hq⟩
  | cons p rest ih =>
    intro st h
    obtain ⟨st₁, hrun₁, hsync₁⟩ : ∃ st₁, syncPage m writePage st p = some st₁ ∧
        Synced writePage (fun q => q = p) st st₁ := syncPage_spec h p
    obtain ⟨st₂, hrun₂, hsync₂⟩ := ih hsync₁.inv
    refine ⟨st₂, by unfold syncBatch; rw [hrun₁]; exact hrun₂, ?_⟩
    exact (hsync₁.trans hsync₂).visit fun q _ hq => mem_cons.1 hq

/-- The outer loop visits every page from its index on. -/
theorem syncLoop_spec : ∀ (fuel next : ℕ) {st : SyncState}, Inv st.cache → 2 ^ 42 - next < fuel →
    ∃ st', syncLoop m writePage fuel next st = some st' ∧ Synced writePage
      (fun q => (st.cache.page q).mapping = some m ∧ next ≤ (st.cache.page q).index) st st' := by
  intro fuel
  induction fuel with
  | zero =>
    intro next st _ hfuel
    omega
  | succ fuel ih =>
    intro next st h hfuel
    unfold syncLoop
    rw [radixTreeGangLookupTag_spec (h.trees m).tree.shaped next (by decide)
      ((h.trees m).tree.covered .dirty), bind_eq_bind, bind_some]
    rw [← batch]
    -- a dirty page of the mapping has its tag set
    have htagged : ∀ q, (st.cache.page q).mapping = some m → (st.cache.page q).dirty = true →
        ∀ t ∈ some Tag.dirty,
          (st.cache.space m).pageTree.tagAt t (st.cache.page q).index = true := by
      intro q hq hd t ht
      cases ht
      rw [h.tagged m q hq, hd]
    cases hlast : (batch st.cache m (some .dirty) next).getLast? with
    | none =>
      refine ⟨st, rfl, (Synced.nothing h).visit fun q hd hq => ?_⟩
      exact not_of_batch_nil h hlast hq.1 hq.2 (htagged q hq.1 hd)
    | some last =>
      obtain ⟨hnext, hless⟩ := nextIndex_eq h hlast
      obtain ⟨st₁, hrun₁, hsync₁⟩ : ∃ st₁,
          syncBatch m writePage st (batch st.cache m (some .dirty) next) = some st₁ ∧
          Synced writePage (fun q => q ∈ batch st.cache m (some .dirty) next) st st₁ :=
        syncBatch_spec _ h
      obtain ⟨st₂, hrun₂, hsync₂⟩ := ih ((st.cache.page last).index + 1) hsync₁.inv (by omega)
      refine ⟨st₂, ?_, (hsync₁.trans hsync₂).visit fun q hd hq => ?_⟩
      · change (syncBatch m writePage st (batch st.cache m (some .dirty) next)).bind _ = _
        rw [hrun₁, bind_some, hnext]
        exact hrun₂
      · rcases mem_batch_or_after h hlast hq.1 hq.2 (htagged q hq.1 hd) with hin | hafter
        · exact .inl hin
        · right
          rw [hsync₁.same.mapping, hsync₁.same.index]
          exact ⟨hq.1, hafter⟩

theorem pagecacheSyncMapping_spec {s : Cache} (h : Inv s) (m : MapId) (writePage : ℕ → PageId → ℤ) :
    ∃ st', pagecacheSyncMapping s m (some writePage) = some st' ∧
      Synced writePage (fun q => (s.page q).mapping = some m) ⟨s, [], 0⟩ st' := by
  obtain ⟨st', hrun, hsync⟩ : ∃ st', syncLoop m writePage loopFuel 0 ⟨s, [], 0⟩ = some st' ∧ _ :=
    syncLoop_spec loopFuel 0 (show Inv (SyncState.mk s [] 0).cache from h)
      (by unfold loopFuel; omega)
  exact ⟨st', hrun, hsync.visit fun q _ hq => ⟨hq, Nat.zero_le _⟩⟩

end

/-! ## Truncation -/

theorem truncateBatch_spec {m : MapId} : ∀ (pages : List PageId) {s : Cache}, Inv s →
    pages.Nodup → (∀ p ∈ pages, (s.page p).mapping = some m) →
    ∃ s', truncateBatch m s pages = some s' ∧ Inv s' := by
  intro pages
  induction pages with
  | nil => exact fun h _ _ => ⟨_, rfl, h⟩
  | cons p rest ih =>
    intro s h hnodup hpages
    obtain ⟨hp, hrest⟩ := nodup_cons.1 hnodup
    obtain ⟨s₁, hrun₁, hinv₁, hstay⟩ :=
      pagecacheRemovePage_spec h (hpages p mem_cons_self)
    obtain ⟨s₂, hrun₂, hinv₂⟩ := ih hinv₁ hrest fun q hq => by
      rw [hstay.mapping q fun heq => hp (heq ▸ hq)]
      exact hpages q (mem_cons_of_mem p hq)
    exact ⟨s₂, by unfold truncateBatch; rw [hrun₁]; exact hrun₂, hinv₂⟩

theorem truncateLoop_spec {m : MapId} : ∀ (fuel next : ℕ) {s : Cache}, Inv s →
    2 ^ 42 - next < fuel → ∃ s', truncateLoop m fuel next s = some s' ∧ Inv s' := by
  intro fuel
  induction fuel with
  | zero =>
    intro next s _ hfuel
    omega
  | succ fuel ih =>
    intro next s h hfuel
    unfold truncateLoop
    rw [radixTreeGangLookup_spec (h.trees m).tree.shaped next (by decide), bind_eq_bind, bind_some]
    rw [← batch]
    cases hlast : (batch s m none next).getLast? with
    | none => exact ⟨s, rfl, h⟩
    | some last =>
      obtain ⟨hnext, hless⟩ := nextIndex_eq h hlast
      obtain ⟨s₁, hrun₁, hinv₁⟩ := truncateBatch_spec (batch s m none next) h (nodup_batch h)
        fun p hp => (of_mem_batch h hp).1
      obtain ⟨s₂, hrun₂, hinv₂⟩ := ih ((s.page last).index + 1) hinv₁ (by omega)
      refine ⟨s₂, ?_, hinv₂⟩
      change (truncateBatch m s (batch s m none next)).bind _ = _
      rw [hrun₁, bind_some, hnext]
      exact hrun₂

end BoredOS.Mem.PageCache
