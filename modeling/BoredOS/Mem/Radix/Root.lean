import BoredOS.Mem.Radix.Node

/-!
# The Operations on a Radix Tree

The specifications of the functions of `mem/radix_tree.c` on a well-formed root, in terms of the map
`RadixRoot.itemAt` and the tagged indices `RadixRoot.tagAt`. The one operation that can dereference
NULL is an insertion into a tree without a root node: `radix_tree_extend` then raises the height and
allocates nothing.
-/

namespace BoredOS.Mem.Radix

open RadixRoot

variable {α : Type}

/-- The map a tree stands for. -/
def RadixRoot.itemAt (root : RadixRoot α) (index : ℕ) : Option α :=
  if index < 64 ^ root.height then root.rnode.itemAt root.height index else none

/-- The tagged indices of a tree. -/
def RadixRoot.tagAt (tag : Tag) (root : RadixRoot α) (index : ℕ) : Bool :=
  if index < 64 ^ root.height then root.rnode.tagAt tag root.height index else false

/-- A tree as the operations leave it. -/
structure RadixRoot.WF (root : RadixRoot α) : Prop where
  height_le : root.height ≤ 7
  tree : root.rnode.WF root.height
  grown : root.rnode.isNull = true → root.height = 0

theorem radixTreeInit_wf : (radixTreeInit : RadixRoot α).WF :=
  ⟨Nat.zero_le 7, trivial, fun _ => rfl⟩

@[simp] theorem itemAt_radixTreeInit (index : ℕ) :
    (radixTreeInit : RadixRoot α).itemAt index = none := by
  unfold itemAt
  split <;> rfl

variable {root : RadixRoot α} {index : ℕ}

theorem RadixRoot.WF.lt_of_lt (h : root.WF) (hi : index < 64 ^ root.height) : index < 2 ^ 42 := by
  exact hi.trans_le (Nat.pow_le_pow_right (by decide) h.height_le)

theorem itemAt_of_null (h : root.rnode.isNull = true) (index : ℕ) : root.itemAt index = none := by
  unfold itemAt
  rw [eq_null_of_isNull h, itemAt_null, ite_self]

/-- The item pointer of a tree of height 0. -/
theorem RadixRoot.WF.item_of_height_zero (h : root.WF)
    (hheight : root.height = 0) (hnull : root.rnode.isNull = false) :
    ∃ x, root.rnode = .item x := by
  have htree := h.tree
  rw [hheight] at htree
  exact htree.item_of_not_null hnull

/-! ## Lookup and tag reading -/

theorem radixTreeLookup_spec (h : root.WF) (index : ℕ) :
    radixTreeLookup root index = some (root.itemAt index) := by
  unfold radixTreeLookup
  by_cases hnull : root.rnode.isNull = true
  · rw [if_pos hnull, itemAt_of_null hnull]
  · have hnull' : root.rnode.isNull = false := by simpa using hnull
    rw [if_neg hnull]
    by_cases hi : index < 64 ^ root.height
    · rw [if_neg ((gt_heightToMaxindex _ _).not.2 (not_not.2 hi)), itemAt, if_pos hi]
      rcases hheight : root.height with _ | level
      · obtain ⟨x, hx⟩ := h.item_of_height_zero hheight hnull'
        have : index = 0 := by simpa [hheight] using hi
        simp [hx, this, Ptr.itemAt]
      · exact lookupAt_spec index level _ (hheight ▸ h.tree) hnull'
    · rw [if_pos ((gt_heightToMaxindex _ _).2 hi), itemAt, if_neg hi]

theorem radixTreeTagGet_spec (h : root.WF) (index : ℕ) (tag : Tag) :
    radixTreeTagGet root index tag = some (root.tagAt tag index) := by
  unfold radixTreeTagGet
  split
  next hnull => rw [tagAt, eq_null_of_isNull hnull, tagAt_null, ite_self]
  next hnull =>
    by_cases hi : index < 64 ^ root.height
    · rw [if_neg ((gt_heightToMaxindex _ _).not.2 (not_not.2 hi)), tagAt, if_pos hi]
      rcases hheight : root.height with _ | level
      · rw [tagAt_zero]
      · exact tagGetAt_spec index tag level _ (hheight ▸ h.tree) (by simpa using hnull)
    · rw [if_pos ((gt_heightToMaxindex _ _).2 hi), tagAt, if_neg hi]

/-- Only an index with an item is tagged. -/
theorem RadixRoot.WF.item_of_tagAt (h : root.WF) {tag : Tag}
    (htag : root.tagAt tag index = true) : ∃ x, root.itemAt index = some x := by
  unfold tagAt at htag
  unfold itemAt
  by_cases hi : index < 64 ^ root.height
  · rw [if_pos hi] at htag ⊢
    rcases hlevel : root.height with _ | level
    · simp [hlevel] at htag
    · rw [hlevel] at htag
      exact exists_item_of_tagAt (hlevel ▸ h.tree) htag
  · simp [hi] at htag

/-! ## Growing -/

/-- The trees hold the same items under the same tags. -/
structure RadixRoot.Same (root root' : RadixRoot α) : Prop where
  item : ∀ j, root'.itemAt j = root.itemAt j
  tag : ∀ tag j, root'.tagAt tag j = root.tagAt tag j

theorem RadixRoot.Same.trans {r₁ r₂ r₃ : RadixRoot α} (h : r₁.Same r₂) (h' : r₂.Same r₃) :
    r₁.Same r₃ :=
  ⟨fun j => (h'.item j).trans (h.item j), fun tag j => (h'.tag tag j).trans (h.tag tag j)⟩

/-- The tags of the new root above a tree. -/
theorem extendRoot_eq (h : root.WF) (hnull : root.rnode.isNull = false) :
    ∃ tags : Tag → Fin 64 → Bool,
      extendRoot root = some ⟨root.height + 1, .node (mapShift * root.height) 1
        (Function.update (fun _ => .null) 0 root.rnode) tags⟩ ∧
      (∀ tag j, root.rnode.tagBits tag j = true → tags tag 0 = true) ∧
      (∀ tag i, i ≠ 0 → tags tag i = false) ∧
      (root.height = 0 → ∀ tag i, tags tag i = false) := by
  unfold extendRoot
  rw [mul_comm root.height mapShift]
  rcases hheight : root.height with _ | level
  · obtain ⟨x, hx⟩ := h.item_of_height_zero hheight hnull
    refine ⟨fun _ _ => false, by simp, ?_, fun _ _ _ => rfl, fun _ _ _ => rfl⟩
    intro tag j hbit
    exact absurd hbit (by simp [hx, Ptr.tagBits])
  · have htree := h.tree
    rw [hheight] at htree
    obtain ⟨shift, count, slots, oldTags, hnode, -, -⟩ := htree.node_of_not_null hnull
    refine ⟨fun tag slot => decide (slot = 0) && !tagsZero oldTags tag, by simp [hnode], ?_, ?_,
      fun h => absurd h (by omega)⟩
    · intro tag j hbit
      rw [hnode] at hbit
      have hz : tagsZero oldTags tag = false := by
        apply decide_eq_false
        intro hall
        rw [Ptr.tagBits, hall j] at hbit
        exact absurd hbit (by decide)
      simp [hz]
    · intro tag i hi
      simp [hi]

theorem extendRoot_spec (h : root.WF) (hnull : root.rnode.isNull = false)
    (hheight : root.height < 7) :
    ∃ root', extendRoot root = some root' ∧ root'.WF ∧ root'.rnode.isNull = false ∧
      root'.height = root.height + 1 ∧ root.Same root' := by
  obtain ⟨tags, hrun, hcovers, hother, hzero⟩ := extendRoot_eq h hnull
  have hfresh : (radixNodeAlloc (mapShift * root.height) : Ptr α).WF (root.height + 1) :=
    wf_radixNodeAlloc root.height
  have hgrow : 64 ^ root.height ≤ 64 ^ (root.height + 1) :=
    Nat.pow_le_pow_right (by decide) (Nat.le_succ _)
  refine ⟨_, hrun, ⟨hheight, ?_, fun h => absurd h (by simp)⟩, rfl, rfl, ?_, ?_⟩
  · refine hfresh.1.replace hfresh.2 h.tree ?_ hcovers hother ?_
    · rw [used_of_not_null hnull, used_of_null isNull_null]
    · exact fun _ _ _ => hnull
  · intro j
    unfold itemAt
    by_cases hj : j < 64 ^ (root.height + 1)
    · rw [if_pos hj, itemAt_update, itemAt_null]
      simp only [slotOf_eq_zero_iff hj]
    · rw [if_neg hj, if_neg fun hlt => hj (hlt.trans_le hgrow)]
  · intro tag j
    unfold tagAt
    by_cases hj : j < 64 ^ (root.height + 1)
    · rw [if_pos hj]
      rcases hlevel : root.height with _ | level
      · rw [tagAt_leaf, tagAt_zero, ite_self]
        exact hzero hlevel tag _
      · rw [hlevel] at hj
        rw [tagAt_update, tagAt_null]
        simp only [slotOf_eq_zero_iff hj]
    · rw [if_neg hj, if_neg fun hlt => hj (hlt.trans_le hgrow)]

theorem extendLoop_spec {height : ℕ} (hheight : height ≤ 7) : ∀ (fuel : ℕ) (root : RadixRoot α),
    root.WF → root.rnode.isNull = false → root.height < height → height - root.height ≤ fuel →
    ∃ root', extendLoop height fuel root = some root' ∧ root'.WF ∧ root'.height = height ∧
      root.Same root' := by
  intro fuel
  induction fuel with
  | zero =>
    intro root _ _ hlt hfuel
    omega
  | succ fuel ih =>
    intro root hwf hnull hlt hfuel
    obtain ⟨root₁, hrun, hwf₁, hnull₁, hh₁, hsame₁⟩ := extendRoot_spec hwf hnull (by omega)
    by_cases hmore : height > root₁.height
    · obtain ⟨root₂, hrun₂, hwf₂, hh₂, hsame₂⟩ := ih root₁ hwf₁ hnull₁ hmore (by omega)
      exact ⟨root₂, by simp [extendLoop, hrun, hmore, hrun₂], hwf₂, hh₂, hsame₁.trans hsame₂⟩
    · exact ⟨root₁, by simp [extendLoop, hrun, hmore], hwf₁, by omega, hsame₁⟩

theorem extendHeight_spec (index : ℕ) : ∀ (fuel h : ℕ), h ≤ 7 → 8 - h ≤ fuel →
    (index < 2 ^ 42 → ∃ h', extendHeight index fuel h = some h' ∧ h ≤ h' ∧ h' ≤ 7 ∧
      index < 64 ^ h') ∧
    (¬ index < 2 ^ 42 → extendHeight index fuel h = none) := by
  intro fuel
  induction fuel with
  | zero =>
    intro h hh hfuel
    omega
  | succ fuel ih =>
    intro h hh hfuel
    unfold extendHeight
    by_cases hi : index < 64 ^ h
    · rw [if_neg ((gt_heightToMaxindex _ _).not.2 (not_not.2 hi))]
      refine ⟨fun _ => ⟨h, rfl, le_rfl, hh, hi⟩, fun hbig => absurd ?_ hbig⟩
      exact hi.trans_le (Nat.pow_le_pow_right (by decide) hh)
    · rw [if_pos ((gt_heightToMaxindex _ _).2 hi)]
      split
      · have : h = 7 := by omega
        subst this
        exact ⟨fun hlt => absurd hlt hi, fun _ => rfl⟩
      · obtain ⟨hsmall, hbig⟩ := ih (h + 1) (by omega) (by omega)
        refine ⟨fun hlt => ?_, hbig⟩
        obtain ⟨h', hrun, hle, hle', hlt'⟩ := hsmall hlt
        exact ⟨h', hrun, by omega, hle', hlt'⟩

/-! ## Insertion -/

/-- The call after which `radix_tree_insert` dereferences NULL: the tree has no root node and the
index does not fit in a tree of height 0. -/
def GrowsEmpty (root : RadixRoot α) (index : ℕ) (item : Option α) : Prop :=
  root.rnode.isNull = true ∧ item.isSome = true ∧ 0 < index ∧ index < 2 ^ 42
  deriving Decidable

/-- A tree after `radix_tree_insert` of an item. -/
structure InsertDone (root : RadixRoot α) (index : ℕ) (x : α) (root' : RadixRoot α) (ret : ℤ) :
    Prop where
  wf : root'.WF
  ret_eq : ret = if index < 2 ^ 42 ∧ root.itemAt index = none then 0 else -1
  item : ∀ j, root'.itemAt j = if ret = 0 ∧ j = index then some x else root.itemAt j
  tag : ∀ tag j, root'.tagAt tag j = root.tagAt tag j

theorem InsertDone.of_same {root₀ root' : RadixRoot α} {x : α} {ret : ℤ}
    (h : InsertDone root index x root' ret) (hsame : root₀.Same root) :
    InsertDone root₀ index x root' ret := by
  refine ⟨h.wf, ?_, ?_, ?_⟩
  · rw [h.ret_eq, hsame.item]
  · intro j
    rw [h.item, hsame.item]
  · intro tag j
    rw [h.tag, hsame.tag]

theorem insertRoot_spec (h : root.WF) (x : α) (hi : index < 64 ^ root.height) :
    ∃ root' ret, insertRoot root index x = some (root', ret) ∧
      InsertDone root index x root' ret := by
  have hsmall := h.lt_of_lt hi
  unfold insertRoot
  rcases hheight : root.height with _ | level
  · have hzero : index = 0 := by simpa [hheight] using hi
    subst hzero
    by_cases hnull : root.rnode.isNull = true
    · refine ⟨⟨0, .item x⟩, 0, by simp [hnull], ⟨by simp, trivial, by simp⟩, ?_, ?_, ?_⟩
      · rw [if_pos ⟨hsmall, itemAt_of_null hnull 0⟩]
      · intro j
        simp [itemAt, hheight, eq_null_of_isNull hnull, Ptr.itemAt]
      · intro tag j
        simp [tagAt, hheight]
    · obtain ⟨y, hy⟩ := h.item_of_height_zero hheight (by simpa using hnull)
      refine ⟨root, -1, by simp [hnull], h, ?_, ?_, fun _ _ => rfl⟩
      · simp [itemAt, hheight, hy, Ptr.itemAt]
      · intro j
        simp
  · have hnull : root.rnode.isNull = false := by
      by_contra hnull
      have := h.grown (by simpa using hnull)
      omega
    have htree := h.tree
    rw [hheight] at htree hi
    obtain ⟨p, ok, hrun, hins⟩ := insertAt_spec index x level root.rnode htree hnull
    have hitem : root.itemAt index = root.rnode.itemAt (level + 1) index := by
      rw [itemAt, hheight, if_pos hi]
    refine ⟨⟨level + 1, p⟩, if ok then 0 else -1, by simp [hrun],
      ⟨hheight ▸ h.height_le, hins.wf, fun h => absurd h (by simp [hins.notNull])⟩, ?_, ?_, ?_⟩
    · rw [hins.ok_eq, hitem]
      cases root.rnode.itemAt (level + 1) index with
      | none => rw [Option.isNone_none, if_pos rfl, if_pos ⟨hsmall, rfl⟩]
      | some => simp
    · intro j
      unfold itemAt
      rw [hheight]
      by_cases hj : j < 64 ^ (level + 1)
      · rw [if_pos hj, if_pos hj, hins.item, hins.ok_eq]
        simp only [agree_iff_eq hj hi]
        by_cases hji : j = index
        · subst hji
          cases root.rnode.itemAt (level + 1) j <;> simp
        · simp [hji]
      · have hji : j ≠ index := fun h => hj (h ▸ hi)
        simp [hj, hji]
    · intro tag j
      unfold tagAt
      rw [hheight]
      simp only [hins.tag]

/-- `radix_tree_insert` of an item, but for the call that grows an empty tree. -/
theorem radixTreeInsert_spec (h : root.WF) (index : ℕ) (x : α)
    (hgrow : ¬ GrowsEmpty root index (some x)) :
    ∃ root' ret, radixTreeInsert root index (some x) = some (root', ret) ∧
      InsertDone root index x root' ret := by
  unfold radixTreeInsert
  dsimp only
  by_cases hi : index < 64 ^ root.height
  · rw [if_neg ((gt_heightToMaxindex _ _).not.2 (not_not.2 hi))]
    exact insertRoot_spec h x hi
  · rw [if_pos ((gt_heightToMaxindex _ _).2 hi), radixTreeExtend]
    obtain ⟨hsmall, hbig⟩ := extendHeight_spec index 9 root.height h.height_le (by omega)
    by_cases hlt : index < 2 ^ 42
    · -- the tree grows, so it has a root node
      obtain ⟨height, hrun, hle, hle7, hfits⟩ := hsmall hlt
      have hgt : root.height < height := by
        rcases lt_or_ge root.height height with hlt' | hge
        · exact hlt'
        · exact absurd (hfits.trans_le (Nat.pow_le_pow_right (by decide) hge)) hi
      have hpos : 0 < index := by
        have : 0 < 64 ^ root.height := Nat.pow_pos (by decide)
        omega
      have hnull : root.rnode.isNull = false := by
        by_contra hnull
        exact hgrow ⟨by simpa using hnull, rfl, hpos, hlt⟩
      obtain ⟨root₁, hloop, hwf₁, hh₁, hsame⟩ :=
        extendLoop_spec hle7 9 root h hnull hgt (by omega)
      obtain ⟨root', ret, hins, hdone⟩ := insertRoot_spec hwf₁ x (hh₁ ▸ hfits)
      refine ⟨root', ret, ?_, hdone.of_same hsame⟩
      cases hnode : root.rnode with
      | null => simp [hnode] at hnull
      | item | node => simp [hrun, hloop, hins]
    · refine ⟨root, -1, by simp [hbig hlt], h, ?_, ?_, fun _ _ => rfl⟩
      · rw [if_neg fun hc => hlt hc.1]
      · intro j
        simp

/-- Growing an empty tree dereferences NULL. -/
theorem radixTreeInsert_growsEmpty (h : root.WF)
    {item : Option α} (hgrow : GrowsEmpty root index item) :
    radixTreeInsert root index item = none := by
  obtain ⟨hnull, hitem, hpos, hlt⟩ := hgrow
  obtain ⟨x, rfl⟩ := Option.isSome_iff_exists.1 hitem
  have hheight := h.grown hnull
  have hi : ¬ index < 64 ^ root.height := by
    rw [hheight]
    omega
  unfold radixTreeInsert
  dsimp only
  obtain ⟨height, hrun, hle, -, hfits⟩ :=
    (extendHeight_spec index 9 root.height h.height_le (by omega)).1 hlt
  rw [if_pos ((gt_heightToMaxindex _ _).2 hi), radixTreeExtend, hrun, eq_null_of_isNull hnull]
  rcases height with _ | level
  · rw [pow_zero] at hfits
    omega
  · have hfault : insertAt index x level (.null : Ptr α) = none := by cases level <;> rfl
    simp [insertRoot, hfault]

/-! ## Deletion -/

/-- `radix_tree_delete` returns the item of the index and removes it. -/
theorem radixTreeDelete_spec (h : root.WF) (index : ℕ) :
    ∃ root', radixTreeDelete root index = some (root', root.itemAt index) ∧ root'.WF ∧
      (∀ j, root'.itemAt j = if j = index then none else root.itemAt j) ∧
      (root.itemAt index ≠ none →
        ∀ tag j, root'.tagAt tag j = if j = index then false else root.tagAt tag j) := by
  -- nothing happens to a tree that does not hold the index
  have hkeep : root.itemAt index = none →
      (∀ j, root.itemAt j = if j = index then none else root.itemAt j) := by
    intro hitem j
    by_cases hj : j = index
    · rw [if_pos hj, hj, hitem]
    · rw [if_neg hj]
  unfold radixTreeDelete
  by_cases hnull : root.rnode.isNull = true
  · have hitem := itemAt_of_null hnull index
    exact ⟨root, by simp [hnull, hitem], h, hkeep hitem, fun hc => absurd hitem hc⟩
  · have hnull' : root.rnode.isNull = false := by simpa using hnull
    rw [if_neg hnull]
    by_cases hi : index < 64 ^ root.height
    · rw [if_neg ((gt_heightToMaxindex _ _).not.2 (not_not.2 hi))]
      rcases hheight : root.height with _ | level
      · obtain ⟨x, hx⟩ := h.item_of_height_zero hheight hnull'
        have hzero : index = 0 := by simpa [hheight] using hi
        subst hzero
        refine ⟨⟨0, .null⟩, by simp [hx, itemAt, hheight, Ptr.itemAt],
          radixTreeInit_wf, ?_, ?_⟩
        · intro j
          simp only [itemAt, hheight]
          by_cases hj : j = 0
          · simp [hj]
          · simp [hj]
        · intro _ tag j
          simp [tagAt, hheight]
      · have htree := h.tree
        rw [hheight] at htree hi
        have hitem : root.itemAt index = root.rnode.itemAt (level + 1) index := by
          rw [itemAt, hheight, if_pos hi]
        obtain ⟨p, hrun, hdel⟩ := deleteAt_spec index level true root.rnode htree hnull'
        cases hx : root.rnode.itemAt (level + 1) index with
        | none =>
          rw [hx] at hrun hitem
          exact ⟨root, by simp [hrun, hitem], h, hkeep hitem, fun hc => absurd hitem hc⟩
        | some =>
          rw [hx] at hrun hitem
          have hdel := hdel (by simp [hx])
          obtain ⟨shift, count, slots, tags, rfl, hnode, -⟩ :=
            hdel.wf.node_of_not_null hdel.notNull
          -- the tree with the item taken out, before an empty root is freed
          have hitems : ∀ j, (⟨level + 1, .node shift count slots tags⟩ : RadixRoot α).itemAt j =
              if j = index then none else root.itemAt j := by
            intro j
            unfold itemAt
            rw [hheight]
            by_cases hj : j < 64 ^ (level + 1)
            · simp only [if_pos hj, hdel.item, agree_iff_eq hj hi]
            · simp [hj]
          have htags : ∀ tag j,
              (⟨level + 1, .node shift count slots tags⟩ : RadixRoot α).tagAt tag j =
              if j = index then false else root.tagAt tag j := by
            intro tag j
            unfold tagAt
            rw [hheight]
            by_cases hj : j < 64 ^ (level + 1)
            · simp only [if_pos hj, hdel.tag, agree_iff_eq hj hi]
            · simp [hj]
          by_cases hcount : count = 0
          · subst hcount
            have hempty := empty_of_count_zero hnode
            refine ⟨⟨0, .null⟩, by simp [hrun, hitem], radixTreeInit_wf, ?_, ?_⟩
            · intro j
              rw [← hitems, itemAt, itemAt, (hempty j).1, itemAt_null,
                ite_self, ite_self]
            · intro _ tag j
              rw [← htags, tagAt, tagAt, (hempty j).2 tag, tagAt_null,
                ite_self, ite_self]
          · exact ⟨⟨level + 1, .node shift count slots tags⟩, by simp [hrun, hitem, hcount],
              ⟨hheight ▸ h.height_le, hdel.wf, fun h => absurd h (by simp)⟩, hitems,
              fun _ => htags⟩
    · have hitem : root.itemAt index = none := by rw [itemAt, if_neg hi]
      refine ⟨root, ?_, h, hkeep hitem, fun hc => absurd hitem hc⟩
      rw [if_pos ((gt_heightToMaxindex _ _).2 hi), hitem]

/-! ## Setting and clearing tags -/

/-- A tree after the tag of one index was set to `b`. -/
structure TagDone (root : RadixRoot α) (index : ℕ) (tag : Tag) (b : Bool) (root' : RadixRoot α) :
    Prop where
  wf : root'.WF
  height : root'.height = root.height
  item : ∀ j, root'.itemAt j = root.itemAt j
  same : ∀ j, root'.tagAt tag j = if j = index then b else root.tagAt tag j
  other : ∀ t ≠ tag, ∀ j, root'.tagAt t j = root.tagAt t j

/-- A change of tags below the root node is one of the tree. -/
theorem Retagged.tagDone (h : root.WF) {level : ℕ} {tag : Tag}
    {b : Bool} {p : Ptr α} (hheight : root.height = level + 1) (hi : index < 64 ^ (level + 1))
    (hp : Retagged index tag b (level + 1) root.rnode p) :
    TagDone root index tag b ⟨level + 1, p⟩ := by
  refine ⟨⟨hheight ▸ h.height_le, hp.wf, fun hnull => absurd hnull (by simp [hp.notNull])⟩,
    hheight.symm, ?_, ?_, ?_⟩
  · intro j
    unfold itemAt
    rw [hheight]
    simp only [hp.item]
  · intro j
    unfold tagAt
    rw [hheight]
    by_cases hj : j < 64 ^ (level + 1)
    · simp only [if_pos hj, hp.same, agree_iff_eq hj hi]
    · have hji : j ≠ index := fun h => hj (h ▸ hi)
      simp [hj, hji]
  · intro t ht j
    unfold tagAt
    rw [hheight]
    simp only [hp.other t ht]

/-- An index that holds an item lies within the tree. -/
theorem lt_of_itemAt_ne_none (h : root.itemAt index ≠ none) :
    index < 64 ^ root.height ∧ root.rnode.itemAt root.height index ≠ none := by
  unfold itemAt at h
  by_cases hi : index < 64 ^ root.height
  · rw [if_pos hi] at h
    exact ⟨hi, h⟩
  · rw [if_neg hi] at h
    exact absurd rfl h

/-- Above height 0 the tag of an item is set. -/
theorem radixTreeTagSet_spec (h : root.WF) (tag : Tag)
    (hitem : root.itemAt index ≠ none) (hheight : root.height ≠ 0) :
    ∃ root', radixTreeTagSet root index tag = some root' ∧ TagDone root index tag true root' := by
  obtain ⟨hi, hitem⟩ := lt_of_itemAt_ne_none hitem
  unfold radixTreeTagSet
  rw [if_neg (by simp [slot_not_null hitem]),
    if_neg ((gt_heightToMaxindex _ _).not.2 (not_not.2 hi))]
  rcases hlevel : root.height with _ | level
  · exact absurd hlevel hheight
  · rw [hlevel] at hi hitem
    obtain ⟨p, hrun, hp⟩ := tagSetAt_spec index tag level root.rnode (hlevel ▸ h.tree) hitem
    exact ⟨⟨level + 1, p⟩, by simp [hrun], hp.tagDone h hlevel hi⟩

theorem radixTreeTagClear_spec (h : root.WF) (tag : Tag) (hitem : root.itemAt index ≠ none) :
    ∃ root', radixTreeTagClear root index tag = some root' ∧
      TagDone root index tag false root' := by
  obtain ⟨hi, hitem⟩ := lt_of_itemAt_ne_none hitem
  unfold radixTreeTagClear
  rw [if_neg (by simp [slot_not_null hitem]),
    if_neg ((gt_heightToMaxindex _ _).not.2 (not_not.2 hi))]
  rcases hlevel : root.height with _ | level
  · refine ⟨root, rfl, h, rfl, fun _ => rfl, ?_, fun _ _ _ => rfl⟩
    intro j
    simp [tagAt, hlevel]
  · rw [hlevel] at hi hitem
    obtain ⟨p, go, hrun, hp, -⟩ :=
      tagClearAt_spec index tag level root.rnode (hlevel ▸ h.tree) hitem
    exact ⟨⟨level + 1, p⟩, by simp [hrun], hp.tagDone h hlevel hi⟩

end BoredOS.Mem.Radix
