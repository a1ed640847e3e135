import BoredOS.Mem.Radix.Model

/-!
# What a Radix Tree Holds

`Ptr.itemAt` and `Ptr.tagAt` read a subtree as a finite map and as sets of tagged indices, digit by
digit of the index. `Ptr.WF` is the shape that the operations keep: the fields `shift` and `count`
are right, a tag bit stands above every tagged slot, and a leaf is tagged only where it holds an
item.
-/

namespace BoredOS.Mem.Radix

open Function Finset Nat Ptr Option Bool

section

variable {α : Type}

/-! ## Digits of an index -/

theorem two_pow_mapShift (level : ℕ) : 2 ^ (mapShift * level) = 64 ^ level := by
  rw [pow_mul]
  rfl

theorem slotOf_val (index level : ℕ) : (slotOf index level).val = index / 64 ^ level % 64 := by
  show index / 2 ^ (mapShift * level) % 64 = _
  rw [two_pow_mapShift]

theorem heightToMaxindex_succ (h : ℕ) : heightToMaxindex h + 1 = 64 ^ h := by
  induction h with
  | zero => rfl
  | succ h ih =>
    show heightToMaxindex h * 64 + 63 + 1 = 64 ^ (h + 1)
    omega

/-- The bound test of every operation. -/
theorem gt_heightToMaxindex (index h : ℕ) : index > heightToMaxindex h ↔ ¬ index < 64 ^ h := by
  rw [← heightToMaxindex_succ]
  omega

/-- The indices have the same lowest `level` digits, so that they lie in the same slots of a subtree
of that height. -/
def Agree (level i j : ℕ) : Prop := i % 64 ^ level = j % 64 ^ level
  deriving Decidable

@[simp] theorem agree_zero (i j : ℕ) : Agree 0 i j := by
  simp [Agree, mod_one]

/-- Agreement on one level more is agreement on its slot and on the levels below. -/
theorem agree_succ (level i j : ℕ) :
    Agree (level + 1) i j ↔ slotOf i level = slotOf j level ∧ Agree level i j := by
  have hpos : 0 < 64 ^ level := Nat.pow_pos (by decide)
  have hi := mod_lt i hpos
  have hj := mod_lt j hpos
  unfold Agree
  rw [Fin.ext_iff, slotOf_val, slotOf_val, mod_pow_succ, mod_pow_succ]
  constructor
  · intro h
    -- the quotient and the remainder by `64 ^ level` are determined by the sum
    have hdiv := congrArg (· / 64 ^ level) h
    have hmod := congrArg (· % 64 ^ level) h
    simp only [add_mul_div_left _ _ hpos, div_eq_of_lt hi, div_eq_of_lt hj,
      zero_add] at hdiv
    simp only [add_mul_mod_self_left, mod_mod] at hmod
    exact ⟨hdiv, hmod⟩
  · rintro ⟨hslot, hlow⟩
    rw [hslot, hlow]

variable {level index shift count count' : ℕ} {p : Ptr α} {slots : Fin 64 → Ptr α}
  {tags tags' : Tag → Fin 64 → Bool}

theorem agree_iff_eq {i j : ℕ} (hi : i < 64 ^ level) (hj : j < 64 ^ level) :
    Agree level i j ↔ i = j := by
  unfold Agree
  rw [mod_eq_of_lt hi, mod_eq_of_lt hj]

/-- Below a new root the old tree is found in slot 0. -/
theorem slotOf_eq_zero_iff (h : index < 64 ^ (level + 1)) :
    slotOf index level = 0 ↔ index < 64 ^ level := by
  have hpos : 0 < 64 ^ level := Nat.pow_pos (by decide)
  have hlt : index / 64 ^ level < 64 := by
    rw [div_lt_iff_lt_mul hpos]
    rwa [pow_succ, mul_comm] at h
  rw [Fin.ext_iff, slotOf_val, mod_eq_of_lt hlt]
  simp [Nat.div_eq_zero_iff]

/-! ## The map and the tags of a subtree -/

/-- The item at an index in a subtree of the given height. -/
def Ptr.itemAt : ℕ → Ptr α → ℕ → Option α
  | 0, .item x, _ => some x
  | level + 1, .node _ _ slots _, index => itemAt level (slots (slotOf index level)) index
  | _, _, _ => none

/-- Whether the leaf slot of an index is tagged in a subtree of the given height. -/
def Ptr.tagAt (tag : Tag) : ℕ → Ptr α → ℕ → Bool
  | 1, .node _ _ _ tags, index => tags tag (slotOf index 0)
  | level + 2, .node _ _ slots _, index =>
    tagAt tag (level + 1) (slots (slotOf index (level + 1))) index
  | _, _, _ => false

/-- The tag words of a node, all zero for a pointer that is not a node. -/
def Ptr.tagBits : Ptr α → Tag → Fin 64 → Bool
  | .node _ _ _ tags => tags
  | _ => fun _ _ => false

/-- What a slot adds to the number of used slots. -/
def Ptr.used (p : Ptr α) : ℕ := if p.isNull then 0 else 1

def occupied (slots : Fin 64 → Ptr α) : ℕ := ∑ i, (slots i).used

/-- The fields of a node whose slots hold subtrees of height `level`. -/
structure NodeWF (level shift count : ℕ) (slots : Fin 64 → Ptr α)
    (tags : Tag → Fin 64 → Bool) : Prop where
  shift_eq : shift = mapShift * level
  count_eq : count = occupied slots
  covers : ∀ tag i j, (slots i).tagBits tag j = true → tags tag i = true
  onItems : level = 0 → ∀ tag i, tags tag i = true → (slots i).isNull = false

/-- A well-formed subtree of the given height. -/
def Ptr.WF : ℕ → Ptr α → Prop
  | 0, .node .. => False
  | 0, _ => True
  | _ + 1, .null => True
  | _ + 1, .item _ => False
  | level + 1, .node shift count slots tags =>
    NodeWF level shift count slots tags ∧ ∀ i, Ptr.WF level (slots i)

@[simp] theorem itemAt_null (level index : ℕ) : itemAt level (.null : Ptr α) index = none := by
  cases level <;> rfl

variable (tag : Tag)

@[simp] theorem tagAt_null (level index : ℕ) :
    tagAt tag level (.null : Ptr α) index = false := by
  rcases level with _ | _ | level <;> rfl

@[simp] theorem tagAt_zero (p : Ptr α) (index : ℕ) : tagAt tag 0 p index = false := by
  cases p <;> rfl

@[simp] theorem itemAt_node (level shift count index : ℕ) (slots : Fin 64 → Ptr α)
    (tags : Tag → Fin 64 → Bool) :
    itemAt (level + 1) (.node shift count slots tags) index =
      itemAt level (slots (slotOf index level)) index := rfl

theorem tagAt_leaf (shift count index : ℕ) (slots : Fin 64 → Ptr α) (tags : Tag → Fin 64 → Bool) :
    tagAt tag 1 (.node shift count slots tags) index = tags tag (slotOf index 0) := rfl

theorem tagAt_node (level shift count index : ℕ) (slots : Fin 64 → Ptr α)
    (tags : Tag → Fin 64 → Bool) :
    tagAt tag (level + 2) (.node shift count slots tags) index =
      tagAt tag (level + 1) (slots (slotOf index (level + 1))) index := rfl

@[simp] theorem isNull_null : (.null : Ptr α).isNull = true := rfl

@[simp] theorem isNull_item (x : α) : (.item x : Ptr α).isNull = false := rfl

@[simp] theorem isNull_node (shift count : ℕ) (slots : Fin 64 → Ptr α)
    (tags : Tag → Fin 64 → Bool) : (node shift count slots tags).isNull = false := rfl

theorem eq_null_of_isNull (h : p.isNull = true) : p = .null := by
  cases p with
  | null => rfl
  | item | node => simp at h

theorem wf_null (level : ℕ) : (.null : Ptr α).WF level := by
  cases level <;> exact trivial

/-- A well-formed subtree above the leaves is NULL or a node. -/
theorem Ptr.WF.node_of_not_null (h : p.WF (level + 1)) (hp : p.isNull = false) :
    ∃ shift count slots tags, p = .node shift count slots tags ∧
      NodeWF level shift count slots tags ∧ ∀ i, (slots i).WF level := by
  cases p with
  | null => simp at hp
  | item => exact False.elim h
  | node shift count slots tags => exact ⟨shift, count, slots, tags, rfl, h.1, h.2⟩

theorem Ptr.WF.item_of_not_null (h : p.WF 0) (hp : p.isNull = false) : ∃ x, p = .item x := by
  cases p with
  | null => simp at hp
  | item x => exact ⟨x, rfl⟩
  | node => exact False.elim h

/-! ## The number of used slots -/

theorem used_le_one (p : Ptr α) : p.used ≤ 1 := by
  unfold used
  split <;> omega

theorem used_of_null (h : p.isNull = true) : p.used = 0 := by
  simp [used, h]

theorem used_of_not_null (h : p.isNull = false) : p.used = 1 := by
  simp [used, h]

theorem occupied_le (slots : Fin 64 → Ptr α) : occupied slots ≤ 64 := by
  have h := sum_le_card_nsmul Finset.univ (fun i => (slots i).used) 1
    fun i _ => used_le_one (slots i)
  simpa [occupied] using h

theorem occupied_update (slots : Fin 64 → Ptr α) (slot : Fin 64) (p : Ptr α) :
    occupied (update slots slot p) + (slots slot).used = occupied slots + p.used := by
  have h : ∀ f : Fin 64 → Ptr α,
      occupied f = (f slot).used + ∑ i ∈ univ.erase slot, (f i).used :=
    fun f => (add_sum_erase _ (fun i => (f i).used) (mem_univ slot)).symm
  have hrest : ∑ i ∈ univ.erase slot, (update slots slot p i).used =
      ∑ i ∈ univ.erase slot, (slots i).used := by
    apply sum_congr rfl
    intro i hi
    rw [update_of_ne (ne_of_mem_erase hi)]
  rw [h (update slots slot p), h slots, hrest, update_self]
  omega

theorem used_le_occupied (slots : Fin 64 → Ptr α) (slot : Fin 64) :
    (slots slot).used ≤ occupied slots :=
  single_le_sum (fun i _ => zero_le (slots i).used) (mem_univ slot)

theorem incCount_eq {c : ℕ} (h : c ≤ 64) : incCount c = c + 1 :=
  mod_eq_of_lt (by omega)

theorem decCount_eq {c : ℕ} (hpos : 0 < c) (h : c ≤ 64) : decCount c = c - 1 := by
  unfold decCount
  omega

/-- A node without used slots holds nothing. -/
theorem empty_of_count_zero (h : NodeWF level shift 0 slots tags) (index : ℕ) :
    itemAt (level + 1) (.node shift 0 slots tags) index = none ∧
      ∀ tag, tagAt tag (level + 1) (.node shift 0 slots tags) index = false := by
  have hnull : ∀ i, (slots i).isNull = true := by
    intro i
    have hle := used_le_occupied slots i
    rw [← h.count_eq] at hle
    by_contra hi
    rw [used_of_not_null (by simpa using hi)] at hle
    omega
  constructor
  · rw [itemAt_node, eq_null_of_isNull (hnull _), itemAt_null]
  · intro tag
    cases level with
    | zero =>
      rw [tagAt_leaf]
      by_contra htag
      have := h.onItems rfl tag _ (by simpa using htag)
      rw [hnull] at this
      exact absurd this (by decide)
    | succ => rw [tagAt_node, eq_null_of_isNull (hnull _), tagAt_null]

/-! ## One slot of a node is replaced -/

theorem itemAt_update (level shift count index : ℕ) (slots : Fin 64 → Ptr α) (slot : Fin 64)
    (p : Ptr α) (tags : Tag → Fin 64 → Bool) :
    itemAt (level + 1) (.node shift count (update slots slot p) tags) index =
      if slotOf index level = slot then p.itemAt level index
      else (slots (slotOf index level)).itemAt level index := by
  rw [itemAt_node]
  split
  next h => rw [h, update_self]
  next h => rw [update_of_ne h]

theorem tagAt_update (level shift count index : ℕ) (slots : Fin 64 → Ptr α)
    (slot : Fin 64) (p : Ptr α) (tags : Tag → Fin 64 → Bool) :
    tagAt tag (level + 2) (.node shift count (update slots slot p) tags) index =
      if slotOf index (level + 1) = slot then p.tagAt tag (level + 1) index
      else (slots (slotOf index (level + 1))).tagAt tag (level + 1) index := by
  rw [tagAt_node]
  split
  next h => rw [h, update_self]
  next h => rw [update_of_ne h]

/-- A change at one index of a subtree is a change at that index of the node above it. -/
theorem itemAt_slot {v : Option α} (h : ∀ j, p.itemAt level j =
      if Agree level j index then v else (slots (slotOf index level)).itemAt level j) (j : ℕ) :
    itemAt (level + 1) (.node shift count' (update slots (slotOf index level) p) tags') j =
      if Agree (level + 1) j index then v
      else itemAt (level + 1) (.node shift count slots tags) j := by
  rw [itemAt_update, itemAt_node]
  split
  next hslot =>
    rw [h]
    simp [agree_succ, hslot]
  next hslot => rw [if_neg fun hagree => hslot ((agree_succ _ _ _).1 hagree).1]

theorem tagAt_slot {tag : Tag} {b : Bool}
    (h : ∀ j, p.tagAt tag (level + 1) j = if Agree (level + 1) j index then b
      else (slots (slotOf index (level + 1))).tagAt tag (level + 1) j) (j : ℕ) :
    tagAt tag (level + 2)
        (.node shift count' (update slots (slotOf index (level + 1)) p) tags') j =
      if Agree (level + 2) j index then b
      else tagAt tag (level + 2) (.node shift count slots tags) j := by
  rw [tagAt_update, tagAt_node]
  split
  next hslot =>
    rw [h]
    simp [agree_succ (level + 1), hslot]
  next hslot => rw [if_neg fun hagree => hslot ((agree_succ _ _ _).1 hagree).1]

/-- A node stays well-formed when a slot gets a well-formed subtree, its count follows and its tags
still cover the subtrees. -/
theorem NodeWF.replace {slot : Fin 64}
    (h : NodeWF level shift count slots tags) (hsub : ∀ i, (slots i).WF level) (hp : p.WF level)
    (hcount : count' + (slots slot).used = count + p.used)
    (hcovers : ∀ tag j, p.tagBits tag j = true → tags' tag slot = true)
    (hkeep : ∀ tag i, i ≠ slot → tags' tag i = tags tag i)
    (hitems : level = 0 → ∀ tag, tags' tag slot = true → p.isNull = false) :
    Ptr.WF (level + 1) (.node shift count' (update slots slot p) tags') := by
  refine ⟨⟨h.shift_eq, ?_, ?_, ?_⟩, ?_⟩
  · have := occupied_update slots slot p
    rw [h.count_eq] at hcount
    omega
  · intro tag i j hbit
    by_cases hi : i = slot
    · subst hi
      rw [update_self] at hbit
      exact hcovers tag j hbit
    · rw [update_of_ne hi] at hbit
      rw [hkeep tag i hi]
      exact h.covers tag i j hbit
  · intro hlevel tag i hbit
    by_cases hi : i = slot
    · subst hi
      rw [update_self]
      exact hitems hlevel tag hbit
    · rw [update_of_ne hi]
      rw [hkeep tag i hi] at hbit
      exact h.onItems hlevel tag i hbit
  · intro i
    by_cases hi : i = slot
    · subst hi
      rw [update_self]
      exact hp
    · rw [update_of_ne hi]
      exact hsub i

/-! ## A fresh node -/

theorem wf_radixNodeAlloc (level : ℕ) :
    (radixNodeAlloc (mapShift * level) : Ptr α).WF (level + 1) := by
  refine ⟨⟨rfl, ?_, ?_, ?_⟩, fun _ => wf_null level⟩
  · simp [occupied, used]
  · intro tag i j h
    exact absurd h (by simp [tagBits])
  · intro _ tag i h
    exact absurd h (by simp)

@[simp] theorem itemAt_radixNodeAlloc (level shift index : ℕ) :
    itemAt (level + 1) (radixNodeAlloc shift : Ptr α) index = none :=
  itemAt_null level index

@[simp] theorem tagAt_radixNodeAlloc (level shift index : ℕ) :
    tagAt tag (level + 1) (radixNodeAlloc shift : Ptr α) index = false := by
  cases level with
  | zero => rfl
  | succ level => exact tagAt_null tag (level + 1) index

end

/-!
## Tags of the Radix Tree

Setting, clearing and reading a tag below a well-formed node. The bits above the leaves only speed
up the search: by `NodeWF.covers` the answer of `radix_tree_tag_get` is the bit of the leaf.
-/

variable {α : Type}

theorem setBit_apply (tags : Tag → Fin 64 → Bool) (tag t : Tag) (slot i : Fin 64) (b : Bool) :
    setBit tags tag slot b t i = if t = tag ∧ i = slot then b else tags t i := by
  unfold setBit
  by_cases ht : t = tag
  · subst ht
    rw [update_self]
    by_cases hi : i = slot
    · subst hi
      simp
    · simp [hi]
  · simp [ht]

variable {tag : Tag} {index : ℕ}

/-- A tagged leaf below a node shows in the tag word of the node. -/
theorem exists_tagBit : ∀ {level : ℕ} {p : Ptr α} {index : ℕ}, p.WF (level + 1) →
    p.tagAt tag (level + 1) index = true → p.tagBits tag (slotOf index level) = true := by
  intro level
  induction level with
  | zero =>
    intro p index hwf h
    cases p with
    | null => simp at h
    | item => exact False.elim hwf
    | node => exact h
  | succ level ih =>
    intro p index hwf h
    cases p with
    | null => simp at h
    | item => exact False.elim hwf
    | node =>
      exact hwf.1.covers tag _ _ (ih (hwf.2 _) h)

/-- A tagged leaf slot holds an item. -/
theorem exists_item_of_tagAt : ∀ {level : ℕ} {p : Ptr α}, p.WF (level + 1) →
    p.tagAt tag (level + 1) index = true → ∃ x, p.itemAt (level + 1) index = some x := by
  intro level
  induction level with
  | zero =>
    intro p hwf h
    cases p with
    | null => simp at h
    | item => exact False.elim hwf
    | node =>
      have hslot := hwf.1.onItems rfl tag (slotOf index 0) h
      obtain ⟨x, hx⟩ := (hwf.2 (slotOf index 0)).item_of_not_null hslot
      exact ⟨x, by rw [itemAt_node, hx]; rfl⟩
  | succ level ih =>
    intro p hwf h
    cases p with
    | null => simp at h
    | item => exact False.elim hwf
    | node => exact ih (hwf.2 _) h

/-- The descent reads the tag of the slot it ends at. -/
theorem tagGetAt_spec (index : ℕ) (tag : Tag) : ∀ (level : ℕ) (p : Ptr α), p.WF (level + 1) →
    p.isNull = false → tagGetAt index tag level p = some (p.tagAt tag (level + 1) index) := by
  intro level
  induction level with
  | zero =>
    intro p hwf hp
    obtain ⟨shift, count, slots, tags, rfl, hnode, hsub⟩ := hwf.node_of_not_null hp
    rfl
  | succ level ih =>
    intro p hwf hp
    obtain ⟨shift, count, slots, tags, rfl, hnode, hsub⟩ := hwf.node_of_not_null hp
    simp only [tagGetAt, tagAt_node]
    by_cases hbit : tags tag (slotOf index (level + 1)) = true
    · rw [hbit, Bool.not_true, if_neg (by decide)]
      split
      next hnull => rw [eq_null_of_isNull hnull, tagAt_null]
      next hnull => exact ih _ (hsub _) (by simpa using hnull)
    · -- a clear bit means that nothing is tagged below the slot
      have hclear : (slots (slotOf index (level + 1))).tagAt tag (level + 1) index = false := by
        by_contra h
        exact hbit (hnode.covers tag _ _ (exists_tagBit (hsub _) (by simpa using h)))
      simp [hbit, hclear]

/-! ## Setting and clearing -/

/-- A subtree after the tag of one index was set to `b`. -/
structure Retagged (index : ℕ) (tag : Tag) (b : Bool) (level : ℕ) (p p' : Ptr α) : Prop where
  wf : p'.WF level
  notNull : p'.isNull = false
  item : ∀ j, p'.itemAt level j = p.itemAt level j
  same : ∀ j, p'.tagAt tag level j = if Agree level j index then b else p.tagAt tag level j
  other : ∀ t ≠ tag, ∀ j, p'.tagAt t level j = p.tagAt t level j
  otherBits : ∀ t ≠ tag, ∀ i, p'.tagBits t i = p.tagBits t i

variable {shift count level : ℕ} {slots : Fin 64 → Ptr α} {tags : Tag → Fin 64 → Bool}

/-- Setting or clearing the bit of a leaf slot that holds an item. -/
theorem retagged_leaf (index : ℕ) (tag : Tag) (b : Bool)
    (hnode : NodeWF 0 shift count slots tags) (hsub : ∀ i, (slots i).WF 0)
    (hitem : (slots (slotOf index 0)).isNull = false) :
    Retagged index tag b 1 (.node shift count slots tags)
      (.node shift count slots (setBit tags tag (slotOf index 0) b)) := by
  refine ⟨⟨⟨hnode.shift_eq, hnode.count_eq, ?_, ?_⟩, hsub⟩, rfl, fun _ => rfl, ?_, ?_, ?_⟩
  · intro t i j hbit
    -- the slots of a leaf have no tag words
    have hwf := hsub i
    cases hslot : slots i with
    | null | item => exact absurd hbit (by simp [hslot, Ptr.tagBits])
    | node =>
      rw [hslot] at hwf
      exact False.elim hwf
  · intro _ t i hbit
    rw [setBit_apply] at hbit
    by_cases hi : i = slotOf index 0
    · rw [hi]
      exact hitem
    · exact hnode.onItems rfl t i (by simpa [hi] using hbit)
  · intro j
    rw [tagAt_leaf, setBit_apply]
    simp [agree_succ, tagAt_leaf]
  · intro t ht j
    rw [tagAt_leaf, setBit_apply, if_neg fun h => ht h.1, tagAt_leaf]
  · intro t ht i
    exact (setBit_apply tags tag t _ i b).trans (if_neg fun h => ht h.1)

/-- A change of tags below a slot with new tag words for the node itself. -/
theorem retagged_store {b : Bool} {tags' : Tag → Fin 64 → Bool} {child : Ptr α}
    (hnode : NodeWF (level + 1) shift count slots tags) (hsub : ∀ i, (slots i).WF (level + 1))
    (hnull : (slots (slotOf index (level + 1))).isNull = false)
    (hchild : Retagged index tag b (level + 1) (slots (slotOf index (level + 1))) child)
    (hcovers : ∀ j, child.tagBits tag j = true → tags' tag (slotOf index (level + 1)) = true)
    (hkeep : ∀ t i, ¬ (t = tag ∧ i = slotOf index (level + 1)) → tags' t i = tags t i) :
    Retagged index tag b (level + 2) (.node shift count slots tags)
      (.node shift count (update slots (slotOf index (level + 1)) child) tags') := by
  refine ⟨?_, rfl, ?_, tagAt_slot hchild.same, ?_, ?_⟩
  · refine hnode.replace hsub hchild.wf ?_ ?_ (fun t i hi => hkeep t i fun h => hi h.2)
      (fun h => absurd h (by omega))
    · rw [used_of_not_null hnull, used_of_not_null hchild.notNull]
    · intro t j hbit
      by_cases ht : t = tag
      · subst ht
        exact hcovers j hbit
      · rw [hkeep t _ fun h => ht h.1]
        rw [hchild.otherBits t ht] at hbit
        exact hnode.covers t _ j hbit
  · intro j
    rw [itemAt_update, itemAt_node]
    by_cases hslot : slotOf j (level + 1) = slotOf index (level + 1)
    · rw [if_pos hslot, hchild.item, hslot]
    · rw [if_neg hslot]
  · intro t ht j
    rw [tagAt_update, tagAt_node]
    by_cases hslot : slotOf j (level + 1) = slotOf index (level + 1)
    · rw [if_pos hslot, hchild.other t ht, hslot]
    · rw [if_neg hslot]
  · exact fun t ht i => hkeep t i fun h => ht h.1

theorem slot_not_null {p : Ptr α} (h : p.itemAt level index ≠ none) : p.isNull = false := by
  cases p with
  | null => exact absurd (itemAt_null level index) h
  | item | node => rfl

/-- A tag is set on the whole way to the item. -/
theorem tagSetAt_spec (index : ℕ) (tag : Tag) : ∀ (level : ℕ) (p : Ptr α), p.WF (level + 1) →
    p.itemAt (level + 1) index ≠ none → ∃ p', tagSetAt index tag level p = some p' ∧
      Retagged index tag true (level + 1) p p' := by
  intro level
  induction level with
  | zero =>
    intro p hwf hitem
    obtain ⟨shift, count, slots, tags, rfl, hnode, hsub⟩ :=
      hwf.node_of_not_null (slot_not_null hitem)
    rw [itemAt_node] at hitem
    exact ⟨_, rfl, retagged_leaf index tag true hnode hsub (slot_not_null hitem)⟩
  | succ level ih =>
    intro p hwf hitem
    obtain ⟨shift, count, slots, tags, rfl, hnode, hsub⟩ :=
      hwf.node_of_not_null (slot_not_null hitem)
    rw [itemAt_node] at hitem
    have hnull := slot_not_null hitem
    obtain ⟨child, hrun, hchild⟩ := ih _ (hsub _) hitem
    refine ⟨_, by simp only [tagSetAt, hnull, false_eq_true, if_false, hrun]; rfl,
      retagged_store hnode hsub hnull hchild ?_ ?_⟩
    · intro j _
      rw [setBit_apply, if_pos ⟨rfl, rfl⟩]
    · intro t i h
      rw [setBit_apply, if_neg h]

theorem of_setBit_false {t : Tag} {i j : Fin 64} (h : setBit tags tag j false t i = true) :
    tags t i = true := by
  rw [setBit_apply] at h
  split at h
  · exact absurd h (by decide)
  · exact h

/-- A tag is cleared upwards as long as no other slot of the node has it. -/
theorem tagClearAt_spec (index : ℕ) (tag : Tag) : ∀ (level : ℕ) (p : Ptr α), p.WF (level + 1) →
    p.itemAt (level + 1) index ≠ none → ∃ p' go,
      tagClearAt index tag level p = some (some (p', go)) ∧
      Retagged index tag false (level + 1) p p' ∧
      ∀ i, p'.tagBits tag i = true → p.tagBits tag i = true := by
  intro level
  induction level with
  | zero =>
    intro p hwf hitem
    obtain ⟨shift, count, slots, tags, rfl, hnode, hsub⟩ :=
      hwf.node_of_not_null (slot_not_null hitem)
    rw [itemAt_node] at hitem
    exact ⟨_, _, rfl, retagged_leaf index tag false hnode hsub (slot_not_null hitem),
      fun _ => of_setBit_false⟩
  | succ level ih =>
    intro p hwf hitem
    obtain ⟨shift, count, slots, tags, rfl, hnode, hsub⟩ :=
      hwf.node_of_not_null (slot_not_null hitem)
    rw [itemAt_node] at hitem
    have hnull := slot_not_null hitem
    obtain ⟨child, go, hrun, hchild, hbits⟩ := ih _ (hsub _) hitem
    obtain ⟨cshift, ccount, cslots, ctags, rfl, -, -⟩ :=
      hchild.wf.node_of_not_null hchild.notNull
    by_cases hgo : (go && tagsZero ctags tag) = true
    · -- the child has no tagged slot left, so the bit above it goes too
      have hzero : ∀ j, ctags tag j = false :=
        of_decide_eq_true (and_eq_true_iff.1 hgo).2
      refine ⟨.node shift count (update slots (slotOf index (level + 1))
        (.node cshift ccount cslots ctags)) (setBit tags tag (slotOf index (level + 1)) false),
        true, by simp only [tagClearAt, hnull, false_eq_true, if_false, hrun,
          bind_eq_bind, bind_some, hgo, if_true],
        retagged_store hnode hsub hnull hchild ?_ ?_, fun _ => of_setBit_false⟩
      · intro j hbit
        exact absurd hbit (by simp [Ptr.tagBits, hzero])
      · intro t i h
        rw [setBit_apply, if_neg h]
    · refine ⟨_, false, by simp only [tagClearAt, hnull, false_eq_true, if_false, hrun,
        bind_eq_bind, bind_some, hgo],
        retagged_store hnode hsub hnull hchild ?_ (fun _ _ _ => rfl), fun _ h => h⟩
      exact fun j hbit => hnode.covers tag _ j (hbits j hbit)

/-! # The Descents of the Radix Tree -/

/-! ## Lookup -/

/-- The descent ends at the item. -/
theorem lookupAt_spec (index : ℕ) : ∀ (level : ℕ) (p : Ptr α), p.WF (level + 1) →
    p.isNull = false → lookupAt index level p = some (p.itemAt (level + 1) index) := by
  intro level
  induction level with
  | zero =>
    intro p hwf hp
    obtain ⟨shift, count, slots, tags, rfl, hnode, hsub⟩ := hwf.node_of_not_null hp
    simp only [lookupAt, itemAt_node]
    cases hslot : slots (slotOf index 0) with
    | null | item => rfl
    | node =>
      have := hsub (slotOf index 0)
      rw [hslot] at this
      exact False.elim this
  | succ level ih =>
    intro p hwf hp
    obtain ⟨shift, count, slots, tags, rfl, -, hsub⟩ := hwf.node_of_not_null hp
    simp only [lookupAt, itemAt_node]
    split
    next hnull => rw [eq_null_of_isNull hnull, itemAt_null]
    next hnull => exact ih _ (hsub _) (by simpa using hnull)

/-! ## Insertion -/

/-- A subtree after an insertion: the item is stored exactly when the index was free. -/
structure Inserted (index : ℕ) (x : α) (level : ℕ) (p p' : Ptr α) (ok : Bool) : Prop where
  wf : p'.WF level
  notNull : p'.isNull = false
  ok_eq : ok = (p.itemAt level index).isNone
  item : ∀ j, p'.itemAt level j =
    if Agree level j index then (p.itemAt level index).or (some x) else p.itemAt level j
  tag : ∀ tag j, p'.tagAt tag level j = p.tagAt tag level j
  tagBits : p'.tagBits = p.tagBits

theorem insertAt_leaf (index : ℕ) (x : α) {p : Ptr α} (hwf : p.WF 1) (hp : p.isNull = false) :
    ∃ p' ok, insertAt index x 0 p = some (p', ok) ∧ Inserted index x 1 p p' ok := by
  obtain ⟨shift, count, slots, tags, rfl, hnode, hsub⟩ := hwf.node_of_not_null hp
  by_cases hnull : (slots (slotOf index 0)).isNull = true
  · refine ⟨.node shift (incCount count) (update slots (slotOf index 0) (.item x)) tags,
      true, by simp [insertAt, hnull], ?_, rfl, ?_, ?_, fun _ _ => rfl, rfl⟩
    · refine hnode.replace hsub trivial ?_ ?_ (fun _ _ _ => rfl) (fun _ _ _ => rfl)
      · rw [incCount_eq (hnode.count_eq ▸ occupied_le slots), used_of_null hnull,
          used_of_not_null (isNull_item x)]
      · intro tag j hbit
        exact absurd hbit (by simp [tagBits])
    · simp [eq_null_of_isNull hnull]
    · apply itemAt_slot
      intro j
      rw [if_pos (agree_zero j index), itemAt_node, eq_null_of_isNull hnull, itemAt_null]
      rfl
  · obtain ⟨y, hy⟩ := (hsub (slotOf index 0)).item_of_not_null (by simpa using hnull)
    refine ⟨.node shift count slots tags, false, by simp [insertAt, hy], hwf, rfl, ?_, ?_,
      fun _ _ => rfl, rfl⟩
    · rw [itemAt_node, hy]
      rfl
    · intro j
      by_cases hslot : slotOf j 0 = slotOf index 0
      · simp [agree_succ, hslot, hy, Ptr.itemAt]
      · simp [agree_succ, hslot]

variable {level shift count : ℕ} {slots : Fin 64 → Ptr α} {tags : Tag → Fin 64 → Bool}

/-- The child of a slot on the way down: a fresh node where the slot is empty, with the count of
the parent following. Reading it gives what the slot gave. -/
theorem insertChild
    (hnode : NodeWF (level + 1) shift count slots tags) (hsub : ∀ i, (slots i).WF (level + 1))
    (slot : Fin 64) :
    ∃ child count', (if (slots slot).isNull then
        ((radixNodeAlloc (mapShift * level) : Ptr α), incCount count)
      else (slots slot, count)) = (child, count') ∧ child.WF (level + 1) ∧
      child.isNull = false ∧ count' + (slots slot).used = count + 1 ∧
      (∀ j, child.itemAt (level + 1) j = (slots slot).itemAt (level + 1) j) ∧
      (∀ tag j, child.tagAt tag (level + 1) j = (slots slot).tagAt tag (level + 1) j) ∧
      child.tagBits = (slots slot).tagBits := by
  by_cases hnull : (slots slot).isNull = true
  · refine ⟨_, _, if_pos hnull, wf_radixNodeAlloc level, rfl, ?_, ?_, ?_, ?_⟩
    · rw [incCount_eq (hnode.count_eq ▸ occupied_le slots), used_of_null hnull]
    · intro j
      rw [itemAt_radixNodeAlloc, eq_null_of_isNull hnull, itemAt_null]
    · intro tag j
      rw [tagAt_radixNodeAlloc, eq_null_of_isNull hnull, tagAt_null]
    · rw [eq_null_of_isNull hnull]
      rfl
  · have hnull' : (slots slot).isNull = false := by simpa using hnull
    refine ⟨_, _, if_neg hnull, hsub slot, hnull', ?_, fun _ => rfl, fun _ _ => rfl, rfl⟩
    rw [used_of_not_null hnull']

/-- The way to the index is created where it is missing, and a full slot is refused. -/
theorem insertAt_spec (index : ℕ) (x : α) : ∀ (level : ℕ) (p : Ptr α), p.WF (level + 1) →
    p.isNull = false → ∃ p' ok, insertAt index x level p = some (p', ok) ∧
      Inserted index x (level + 1) p p' ok := by
  intro level
  induction level with
  | zero => exact fun p hwf hp => insertAt_leaf index x hwf hp
  | succ level ih =>
    intro p hwf hp
    obtain ⟨shift, count, slots, tags, rfl, hnode, hsub⟩ := hwf.node_of_not_null hp
    obtain ⟨child, count', hchild, hcwf, hcnull, hccount, hcitem, hctag, hcbits⟩ :=
      insertChild hnode hsub (slotOf index (level + 1))
    obtain ⟨child', ok, hrun, hins⟩ := ih child hcwf hcnull
    refine ⟨.node shift count' (update slots (slotOf index (level + 1)) child') tags, ok,
      by simp [insertAt, hchild, hrun], ?_, rfl, ?_, ?_, ?_, rfl⟩
    · refine hnode.replace hsub hins.wf ?_ ?_ (fun _ _ _ => rfl) (fun h => absurd h (by omega))
      · rw [hccount, used_of_not_null hins.notNull]
      · intro tag j hbit
        rw [hins.tagBits, hcbits] at hbit
        exact hnode.covers tag _ j hbit
    · rw [hins.ok_eq, hcitem, itemAt_node]
    · apply itemAt_slot
      intro j
      rw [hins.item, hcitem, hcitem, itemAt_node]
    · intro tag j
      rw [tagAt_update, tagAt_node]
      by_cases hslot : slotOf j (level + 1) = slotOf index (level + 1)
      · rw [if_pos hslot, hins.tag, hctag, hslot]
      · rw [if_neg hslot]

/-! ## Deletion -/

/-- A subtree after the deletion of an item that it holds. -/
structure Deleted (index : ℕ) (level : ℕ) (p p' : Ptr α) : Prop where
  wf : p'.WF level
  notNull : p'.isNull = false
  item : ∀ j, p'.itemAt level j = if Agree level j index then none else p.itemAt level j
  tag : ∀ tag j, p'.tagAt tag level j = if Agree level j index then false else p.tagAt tag level j
  tagBits : ∀ tag i, p'.tagBits tag i = true → p.tagBits tag i = true

/-- The count after the removal of what a slot held. -/
theorem NodeWF.decCount_add {slot : Fin 64} (h : NodeWF level shift count slots tags)
    (hnull : (slots slot).isNull = false) :
    decCount count + (slots slot).used = count + (.null : Ptr α).used := by
  have hused := used_of_not_null hnull
  have hle := used_le_occupied slots slot
  have hle' := occupied_le slots
  rw [← h.count_eq] at hle hle'
  rw [decCount_eq (by omega) hle', hused, used_of_null isNull_null]
  omega

theorem deleteAt_leaf (index : ℕ) (isRoot : Bool) {p : Ptr α} (hwf : p.WF 1)
    (hp : p.isNull = false) :
    ∃ p', deleteAt index 0 isRoot p = some (p', p.itemAt 1 index) ∧
      (p.itemAt 1 index ≠ none → Deleted index 1 p p') := by
  obtain ⟨shift, count, slots, tags, rfl, hnode, hsub⟩ := hwf.node_of_not_null hp
  by_cases hnull : (slots (slotOf index 0)).isNull = true
  · have hslot := eq_null_of_isNull hnull
    refine ⟨.node shift count slots tags, by simp [deleteAt, hslot], ?_⟩
    intro hitem
    simp [hslot] at hitem
  · obtain ⟨x, hx⟩ := (hsub (slotOf index 0)).item_of_not_null (by simpa using hnull)
    refine ⟨.node shift (decCount count) (update slots (slotOf index 0) .null)
      (fun tag i => if i = slotOf index 0 then false else tags tag i),
      by simp [deleteAt, hx, Ptr.itemAt], ?_⟩
    intro _
    refine ⟨?_, rfl, ?_, ?_, ?_⟩
    · refine hnode.replace hsub trivial (hnode.decCount_add (by rw [hx]; rfl)) ?_
        (fun _ i hi => by simp [hi]) (fun _ _ h => ?_)
      · intro tag j hbit
        exact absurd hbit (by simp [tagBits])
      · exact absurd h (by simp)
    · exact itemAt_slot fun j => by rw [if_pos (agree_zero j index), itemAt_null]
    · intro tag j
      simp [tagAt_leaf, agree_succ]
    · intro tag i h
      simp only [tagBits] at h ⊢
      split at h
      · exact absurd h (by decide)
      · exact h

section

variable {index : ℕ} {child : Ptr α} (hnode : NodeWF (level + 1) shift count slots tags)
  (hsub : ∀ i, (slots i).WF (level + 1)) (hnull : (slots (slotOf index (level + 1))).isNull = false)
  (hdel : Deleted index (level + 1) (slots (slotOf index (level + 1))) child)

include hnode hsub hnull hdel

/-- A deletion below a slot, with the changed child stored and no other change. -/
theorem deleted_store : Deleted index (level + 2) (.node shift count slots tags)
      (.node shift count (update slots (slotOf index (level + 1)) child) tags) := by
  refine ⟨?_, rfl, ?_, ?_, fun _ _ h => h⟩
  · refine hnode.replace hsub hdel.wf ?_ ?_ (fun _ _ _ => rfl) (fun h => absurd h (by omega))
    · rw [used_of_not_null hnull, used_of_not_null hdel.notNull]
    · exact fun tag j hbit => hnode.covers tag _ j (hdel.tagBits tag j hbit)
  · exact itemAt_slot hdel.item
  · exact fun tag => tagAt_slot (hdel.tag tag)

/-- The way back of a deletion at a node below the root. -/
theorem deleted_prune :
    ∃ p', pruneSlot shift count slots tags (slotOf index (level + 1)) child = some p' ∧
      Deleted index (level + 2) (.node shift count slots tags) p' := by
  set k := slotOf index (level + 1)
  have hstore := deleted_store hnode hsub hnull hdel
  obtain ⟨cshift, ccount, cslots, ctags, rfl, hcnode, hcsub⟩ :=
    hdel.wf.node_of_not_null hdel.notNull
  -- a bit that is cleared covers no bit of the child
  have hcovers : ∀ tag j, ctags tag j = true →
      clearStale tags k ctags tag k = true := by
    intro tag j hbit
    have hz : ¬ tagsZero ctags tag = true := by
      intro hz
      have := of_decide_eq_true hz j
      rw [hbit] at this
      exact absurd this (by decide)
    unfold clearStale
    rw [if_neg fun h => hz h.2]
    exact hnode.covers tag _ j (hdel.tagBits tag j hbit)
  have hbits : ∀ tag i, clearStale tags k ctags tag i = true →
      tags tag i = true := by
    intro tag i h
    unfold clearStale at h
    split at h
    · exact absurd h (by decide)
    · exact h
  have hkeep : ∀ tag i, i ≠ k →
      clearStale tags k ctags tag i = tags tag i :=
    fun tag i hi => if_neg fun h => hi h.1
  by_cases hzero : ccount = 0
  · subst hzero
    have hempty := empty_of_count_zero hcnode
    refine ⟨.node shift (decCount count) (update slots k .null)
      (clearStale tags k ctags), by simp [pruneSlot],
      ?_, rfl, ?_, ?_, hbits⟩
    · refine hnode.replace hsub (wf_null _) (hnode.decCount_add hnull) ?_ hkeep
        (fun h => absurd h (by omega))
      intro tag j hbit
      exact absurd hbit (by simp [tagBits])
    · intro j
      rw [← hstore.item, itemAt_update, itemAt_update, itemAt_null, (hempty j).1]
    · intro tag j
      rw [← hstore.tag, tagAt_update, tagAt_update, tagAt_null, (hempty j).2]
  · refine ⟨.node shift count (update slots k
        (.node cshift ccount cslots ctags)) (clearStale tags k ctags),
      by simp [pruneSlot, hzero], ?_, rfl, hstore.item, hstore.tag, hbits⟩
    · refine hnode.replace hsub hdel.wf ?_ hcovers hkeep (fun h => absurd h (by omega))
      rw [used_of_not_null hnull, used_of_not_null hdel.notNull]

end

/-- The item is taken out, and below the root the nodes that become empty go with it. -/
theorem deleteAt_spec (index : ℕ) : ∀ (level : ℕ) (isRoot : Bool) (p : Ptr α), p.WF (level + 1) →
    p.isNull = false → ∃ p', deleteAt index level isRoot p = some (p', p.itemAt (level + 1) index) ∧
      (p.itemAt (level + 1) index ≠ none → Deleted index (level + 1) p p') := by
  intro level
  induction level with
  | zero => exact fun isRoot p hwf hp => deleteAt_leaf index isRoot hwf hp
  | succ level ih =>
    intro isRoot p hwf hp
    obtain ⟨shift, count, slots, tags, rfl, hnode, hsub⟩ := hwf.node_of_not_null hp
    rw [itemAt_node]
    by_cases hnull : (slots (slotOf index (level + 1))).isNull = true
    · have hslot := eq_null_of_isNull hnull
      exact ⟨.node shift count slots tags, by simp [deleteAt, hslot], by simp [hslot]⟩
    · have hnull' : (slots (slotOf index (level + 1))).isNull = false := by simpa using hnull
      obtain ⟨child, hrun, hdel⟩ := ih false _ (hsub (slotOf index (level + 1))) hnull'
      cases hitem : (slots (slotOf index (level + 1))).itemAt (level + 1) index with
      | none =>
        rw [hitem] at hrun
        exact ⟨.node shift count slots tags, by simp [deleteAt, hnull', hrun],
          fun h => absurd rfl h⟩
      | some =>
        rw [hitem] at hrun
        have hdel := hdel (by simp [hitem])
        cases isRoot with
        | true =>
          exact ⟨_, by simp [deleteAt, hnull', hrun], fun _ => deleted_store hnode hsub hnull' hdel⟩
        | false =>
          obtain ⟨p', hprune, hdel'⟩ := deleted_prune hnode hsub hnull' hdel
          exact ⟨p', by simp [deleteAt, hnull', hrun, hprune], fun _ => hdel'⟩

end BoredOS.Mem.Radix
