import BoredOS.Mem.Radix.Root

/-!
# Gang Lookups

`gang_lookup_node` collects the items from a first index on, in the order of their indices and up to
a limit. `Ptr.entries` lists the items of a subtree with their indices; a gang lookup returns the
beginning of that list, restricted to the indices and the tag it was asked for.
-/

namespace BoredOS.Mem.Radix

open List RadixRoot Ptr Prod

variable {α : Type}

/-! ## The list of entries -/

/-- The items of a subtree that starts at index `base`, with their indices. -/
def Ptr.entries : ℕ → Ptr α → ℕ → List (ℕ × α)
  | 0, .item x, base => [(base, x)]
  | level + 1, .node _ _ slots _, base =>
    (List.finRange 64).flatMap fun i => entries level (slots i) (base + i.val * 64 ^ level)
  | _, _, _ => []

@[simp] theorem entries_null (level base : ℕ) : (.null : Ptr α).entries level base = [] := by
  cases level <;> rfl

theorem entries_node (level shift count base : ℕ) (slots : Fin 64 → Ptr α)
    (tags : Tag → Fin 64 → Bool) :
    entries (level + 1) (.node shift count slots tags) base =
      (List.finRange 64).flatMap fun i => (slots i).entries level (base + i.val * 64 ^ level) := rfl

variable {level base index first shift count : ℕ} {tag : Option Tag} {slots : Fin 64 → Ptr α}
  {tags : Tag → Fin 64 → Bool} {root : RadixRoot α}

section

variable (hbase : 64 ^ (level + 1) ∣ base)

include hbase

/-- The digit of an index within the slot it lies in. -/
theorem slotOf_in_range (i : Fin 64) (hlo : base + i.val * 64 ^ level ≤ index)
    (hhi : index < base + i.val * 64 ^ level + 64 ^ level) : slotOf index level = i := by
  obtain ⟨k, rfl⟩ := hbase
  have hpos : 0 < 64 ^ level := Nat.pow_pos (by decide)
  obtain ⟨r, rfl⟩ := Nat.exists_eq_add_of_le hlo
  have hr : r < 64 ^ level := by omega
  apply Fin.ext
  rw [slotOf_val]
  have hform : 64 ^ (level + 1) * k + i.val * 64 ^ level + r =
      r + 64 ^ level * (64 * k + i.val) := by
    ring
  rw [hform, Nat.add_mul_div_left _ _ hpos, Nat.div_eq_of_lt hr]
  omega

/-- The slot of an index lies within the node. -/
theorem slotOf_bounds (hlo : base ≤ index) (hhi : index < base + 64 ^ (level + 1)) :
    base + (slotOf index level).val * 64 ^ level ≤ index ∧
      index < base + (slotOf index level).val * 64 ^ level + 64 ^ level := by
  obtain ⟨k, rfl⟩ := hbase
  have hpos : 0 < 64 ^ level := Nat.pow_pos (by decide)
  obtain ⟨r, rfl⟩ := Nat.exists_eq_add_of_le hlo
  have hdiv : r / 64 ^ level < 64 := by
    rw [Nat.div_lt_iff_lt_mul hpos]
    omega
  have hslot : (slotOf (64 ^ (level + 1) * k + r) level).val = r / 64 ^ level := by
    have hform : 64 ^ (level + 1) * k + r = r + 64 ^ level * (64 * k) := by
      ring
    rw [slotOf_val, hform, Nat.add_mul_div_left _ _ hpos, Nat.add_mul_mod_self_left,
      Nat.mod_eq_of_lt hdiv]
  have hdm := Nat.div_add_mod r (64 ^ level)
  rw [hslot, mul_comm (r / 64 ^ level)]
  omega

theorem dvd_slot_base (i : ℕ) : 64 ^ level ∣ base + i * 64 ^ level :=
  dvd_add ((pow_dvd_pow 64 (Nat.le_succ level)).trans hbase) (dvd_mul_left _ _)

end

/-- The entries are the items of the map within the range of the subtree. -/
theorem mem_entries : ∀ {p : Ptr α} {base index : ℕ} {x : α}, 64 ^ level ∣ base →
    ((index, x) ∈ p.entries level base ↔
      base ≤ index ∧ index < base + 64 ^ level ∧ p.itemAt level index = some x) := by
  induction level with
  | zero =>
    intro p base index x _
    cases p with
    | null => simp
    | item =>
      simp only [entries, Ptr.itemAt, mem_singleton, Prod.mk.injEq, pow_zero, Option.some.injEq]
      constructor
      · rintro ⟨rfl, rfl⟩
        exact ⟨le_rfl, by omega, rfl⟩
      · rintro ⟨hlo, hhi, rfl⟩
        exact ⟨by omega, rfl⟩
    | node => simp [entries, Ptr.itemAt]
  | succ level ih =>
    intro p base index x hbase
    cases p with
    | null => simp
    | item => simp [entries, Ptr.itemAt]
    | node =>
      rw [entries_node, mem_flatMap, itemAt_node]
      constructor
      · rintro ⟨i, -, hmem⟩
        obtain ⟨hlo, hhi, hitem⟩ := (ih (dvd_slot_base hbase i)).1 hmem
        have hslot := slotOf_in_range hbase i hlo hhi
        have hle : (i.val + 1) * 64 ^ level ≤ 64 * 64 ^ level :=
          Nat.mul_le_mul_right _ i.isLt
        refine ⟨by omega, ?_, by rw [hslot]; exact hitem⟩
        rw [add_mul, one_mul] at hle
        omega
      · rintro ⟨hlo, hhi, hitem⟩
        obtain ⟨hlo', hhi'⟩ := slotOf_bounds hbase hlo hhi
        exact ⟨slotOf index level, mem_finRange _,
          (ih (dvd_slot_base hbase _)).2 ⟨hlo', hhi', hitem⟩⟩

theorem entries_sorted : ∀ {p : Ptr α} {base : ℕ}, 64 ^ level ∣ base →
    (p.entries level base).Pairwise fun a b => a.1 < b.1 := by
  induction level with
  | zero =>
    intro p base _
    cases p <;> simp [entries]
  | succ level ih =>
    intro p base hbase
    cases p with
    | null => simp
    | item => simp [entries]
    | node =>
      rw [entries_node, pairwise_flatMap]
      refine ⟨fun i _ => ih (dvd_slot_base hbase i), ?_⟩
      apply (pairwise_lt_finRange 64).imp
      intro i j hij a ha b hb
      -- the range of slot `i` ends where the one of a later slot has not begun
      obtain ⟨-, hhi, -⟩ := (mem_entries (dvd_slot_base hbase i)).1 ha
      obtain ⟨hlo, -, -⟩ := (mem_entries (dvd_slot_base hbase j)).1 hb
      have hle : (i.val + 1) * 64 ^ level ≤ j.val * 64 ^ level :=
        Nat.mul_le_mul_right _ hij
      rw [add_mul, one_mul] at hle
      omega

/-! ## The loop over the slots -/

theorem gangSlots_spec {f : Fin 64 → ℕ → Option (List α)} {L : Fin 64 → List α}
    (hf : ∀ i n, 0 < n → f i n = some ((L i).take n)) :
    ∀ (slots : List (Fin 64)) (n : ℕ), 0 < n →
      gangSlots f slots n = some ((slots.flatMap L).take n) := by
  intro slots
  induction slots with
  | nil =>
    intro n _
    simp [gangSlots]
  | cons i rest ih =>
    intro n hn
    unfold gangSlots
    rw [hf i n hn, flatMap_cons, take_append]
    by_cases hfull : n ≤ (L i).length
    · have hzero : n - (L i).length = 0 := by omega
      simp [hfull, hzero]
    · have htake : (L i).take n = L i := take_of_length_le (by omega)
      have hrest := ih (n - (L i).length) (by omega)
      simp [htake, hfull, hrest]

/-! ## The lookup below a node -/

/-- What a lookup reads of the shape: every node has the `shift` of its level, and items stand at
level 0. -/
def Ptr.Shaped : ℕ → Ptr α → Prop
  | 0, p => p.WF 0
  | _ + 1, .null => True
  | _ + 1, .item _ => False
  | level + 1, .node shift _ slots _ => shift = mapShift * level ∧ ∀ i, (slots i).Shaped level

/-- Every slot above a tagged leaf has the tag. -/
def Ptr.Covered (tag : Tag) : ℕ → Ptr α → Prop
  | level + 1, .node _ _ slots tags => ∀ i, (slots i).Covered tag level ∧
      ∀ index, (slots i).tagAt tag level index = true → tags tag i = true
  | _, _ => True

theorem Ptr.WF.shaped : ∀ {level : ℕ} {p : Ptr α}, p.WF level → p.Shaped level
  | 0, _, h => h
  | _ + 1, .null, _ => trivial
  | _ + 1, .node .., h => ⟨h.1.shift_eq, fun i => (h.2 i).shaped⟩

theorem Ptr.Shaped.node_of_not_null {p : Ptr α} (h : p.Shaped (level + 1)) (hp : p.isNull = false) :
    ∃ count slots tags, p = .node (mapShift * level) count slots tags ∧
      ∀ i, (slots i).Shaped level := by
  cases p with
  | null => simp at hp
  | item => exact False.elim h
  | node shift count slots tags =>
    obtain ⟨rfl, hsub⟩ := h
    exact ⟨count, slots, tags, rfl, hsub⟩

theorem Ptr.WF.covered (t : Tag) : ∀ {level : ℕ} {p : Ptr α}, p.WF level → p.Covered t level
  | 0, _, _ => trivial
  | _ + 1, .null, _ => trivial
  | 1, .node .., _ => fun _ => ⟨trivial, fun _ htag => by simp at htag⟩
  | _ + 2, .node .., h => fun i => ⟨(h.2 i).covered t,
      fun _ htag => h.1.covers t i _ (exists_tagBit (h.2 i) htag)⟩

/-- The entries a lookup asks for: from the first index on and, when it has a tag, tagged. -/
def wanted (first : ℕ) (tag : Option Tag) (level : ℕ) (p : Ptr α) (index : ℕ) : Bool :=
  decide (first ≤ index) && (match tag with | none => true | some t => p.tagAt t level index)

theorem filter_eq_nil_of_wanted {p : Ptr α}
    {xs : List (ℕ × α)} (h : ∀ e ∈ xs, wanted first tag level p e.1 = false) :
    xs.filter (fun e => wanted first tag level p e.1) = [] :=
  filter_eq_nil_iff.2 fun e he => by simp [h e he]

/-- What a lookup below a node wants in one slot is what it wants below the child. -/
theorem wanted_slot (hbase : 64 ^ (level + 2) ∣ base) (i : Fin 64) :
    ((slots i).entries (level + 1) (base + i.val * 64 ^ (level + 1))).filter
        (fun e => wanted first tag (level + 2) (.node shift count slots tags) e.1) =
      ((slots i).entries (level + 1) (base + i.val * 64 ^ (level + 1))).filter
        (fun e => wanted first tag (level + 1) (slots i) e.1) := by
  apply filter_congr
  intro e he
  obtain ⟨hlo, hhi, -⟩ := (mem_entries (dvd_slot_base hbase i)).1 he
  have hslot := slotOf_in_range hbase i hlo hhi
  unfold wanted
  cases tag with
  | none => rfl
  | some => simp only [tagAt_node, hslot]

/-- Nothing below a slot is wanted when its tag bit is clear. -/
theorem not_wanted_of_bit {t : Tag} (hcov : (Ptr.node shift count slots tags).Covered t (level + 1))
    (hbase : 64 ^ (level + 1) ∣ base) {i : Fin 64} (hbit : tags t i = false) :
    ((slots i).entries level (base + i.val * 64 ^ level)).filter (fun e =>
      wanted first (some t) (level + 1) (.node shift count slots tags) e.1) = [] := by
  apply filter_eq_nil_of_wanted
  intro e he
  obtain ⟨hlo, hhi, -⟩ := (mem_entries (dvd_slot_base hbase i)).1 he
  have hslot := slotOf_in_range hbase i hlo hhi
  have htag : Ptr.tagAt t (level + 1) (.node shift count slots tags) e.1 = false := by
    cases level with
    | zero => rw [tagAt_leaf, hslot, hbit]
    | succ =>
      rw [tagAt_node, hslot]
      by_contra h
      have := (hcov i).2 e.1 (by simpa using h)
      rw [hbit] at this
      exact absurd this (by decide)
  simp [wanted, htag]

/-- The base of a slot as the code computes it. -/
theorem slotBase_eq (hbase : 64 ^ (level + 1) ∣ base) (i : ℕ) :
    base / 2 ^ (mapShift * level + mapShift) * 2 ^ (mapShift * level + mapShift) +
      i * 2 ^ (mapShift * level) = base + i * 64 ^ level := by
  have hpow : 2 ^ (mapShift * level + mapShift) = 64 ^ (level + 1) := by
    rw [← two_pow_mapShift (level + 1)]
    rfl
  rw [hpow, two_pow_mapShift, Nat.div_mul_cancel hbase]

/-- The tests before a slot is looked at: a clear tag bit or an empty slot adds nothing, as the
entries of the slot say. -/
theorem gang_skip (hcov : ∀ t ∈ tag, (Ptr.node shift count slots tags).Covered t (level + 1))
    (hbase : 64 ^ (level + 1) ∣ base) (i : Fin 64) {m : ℕ} {rest : Option (List α)}
    (hrest : tagMissing tag tags i = false → (slots i).isNull = false →
        rest = some (((((slots i).entries level
      (base + i.val * 64 ^ level)).filter fun e =>
        wanted first tag (level + 1) (.node shift count slots tags) e.1).map snd).take m)) :
    (if tagMissing tag tags i = true then some []
      else if (slots i).isNull = true then some [] else rest) =
      some (((((slots i).entries level (base + i.val * 64 ^ level)).filter fun e =>
        wanted first tag (level + 1) (.node shift count slots tags) e.1).map snd).take m) := by
  split
  next hbit =>
    cases tag with
    | none => simp [tagMissing] at hbit
    | some t =>
      have hclear : tags t i = false := by simpa [tagMissing] using hbit
      rw [not_wanted_of_bit (hcov t rfl) hbase hclear, map_nil, take_nil]
  next hbit =>
    split
    next hnull => rw [eq_null_of_isNull hnull, entries_null, filter_nil, map_nil, take_nil]
    next hnull => exact hrest (by simpa using hbit) (by simpa using hnull)

theorem gangLookupNode_spec (first : ℕ) (tag : Option Tag) :
    ∀ (level : ℕ) (p : Ptr α) (base n : ℕ), p.Shaped (level + 1) →
      (∀ t ∈ tag, p.Covered t (level + 1)) → p.isNull = false → 64 ^ (level + 1) ∣ base → 0 < n →
      gangLookupNode first tag (level + 1) p base n = some ((((p.entries (level + 1) base).filter
          (fun e => wanted first tag (level + 1) p e.1)).map snd).take n) := by
  intro level
  induction level with
  | zero =>
    intro p base n hshape hcov hp hbase hn
    obtain ⟨count, slots, tags, rfl, hsub⟩ := hshape.node_of_not_null hp
    unfold gangLookupNode
    rw [if_neg (by omega), entries_node, filter_flatMap, map_flatMap]
    apply gangSlots_spec _ _ n hn
    intro i m hm
    apply gang_skip hcov hbase i
    intro hbit hnull
    obtain ⟨x, hx⟩ := Ptr.WF.item_of_not_null (hsub i) hnull
    have hslotBase := slotBase_eq hbase i.val
    have hslot := slotOf_in_range hbase i (le_refl _) (Nat.lt_add_of_pos_right (by decide))
    simp only [mul_zero, zero_add] at hslotBase
    -- the tag bit of the slot is the tag of the leaf
    have hwanted : wanted first tag 1 (.node 0 count slots tags)
        (base + i.val * 64 ^ 0) = decide (first ≤ base + i.val * 64 ^ 0) := by
      cases tag with
      | none => simp [wanted]
      | some t =>
        have hset : tags t i = true := by simpa [tagMissing] using hbit
        simp only [wanted, tagAt_leaf, hslot, hset, Bool.and_true]
    simp only [mul_zero, zero_add, if_true, hslotBase, hx, entries, filter_cons, filter_nil]
    rw [hwanted]
    split
    next hfirst => rw [decide_eq_true hfirst, if_pos rfl, map_singleton, take_of_length_le hm]
    next hfirst => rw [decide_eq_false hfirst, if_neg (by decide), map_nil, take_nil]
  | succ level ih =>
    intro p base n hshape hcov hp hbase hn
    obtain ⟨count, slots, tags, rfl, hsub⟩ := hshape.node_of_not_null hp
    unfold gangLookupNode
    rw [if_neg (by omega), entries_node, filter_flatMap, map_flatMap]
    apply gangSlots_spec _ _ n hn
    intro i m hm
    apply gang_skip hcov hbase i
    intro _ hnull
    rw [if_neg (by simp [mapShift]), slotBase_eq hbase, two_pow_mapShift, wanted_slot hbase]
    by_cases hreach : base + i.val * 64 ^ (level + 1) + (64 ^ (level + 1) - 1) ≥ first
    · rw [if_pos hreach]
      exact ih (slots i) _ m (hsub i) (fun t ht => (hcov t ht i).1) hnull (dvd_slot_base hbase i) hm
    · -- the whole range of the slot lies before the first index
      rw [if_neg hreach, filter_eq_nil_of_wanted, map_nil, take_nil]
      · intro e he
        obtain ⟨-, hhi, -⟩ := (mem_entries (dvd_slot_base hbase i)).1 he
        have : ¬ first ≤ e.1 := by omega
        simp [wanted, this]

/-! ## The lookups on a tree -/

/-- The entries of a tree from an index on, with a tag if one is given. -/
def RadixRoot.entriesFrom (root : RadixRoot α) (tag : Option Tag) (first : ℕ) : List (ℕ × α) :=
  (root.rnode.entries root.height 0).filter fun e => wanted first tag root.height root.rnode e.1

theorem mem_entriesFrom {x : α} :
    (index, x) ∈ root.entriesFrom tag first ↔ first ≤ index ∧ root.itemAt index = some x ∧
      ∀ t ∈ tag, root.tagAt t index = true := by
  unfold entriesFrom RadixRoot.itemAt RadixRoot.tagAt
  rw [mem_filter, mem_entries (dvd_zero _), zero_add]
  by_cases hi : index < 64 ^ root.height
  · cases tag with
    | none => simp [wanted, hi, and_comm]
    | some => simp [wanted, hi, and_left_comm]
  · simp [hi]

theorem entriesFrom_sorted (root : RadixRoot α) (tag : Option Tag) (first : ℕ) :
    (root.entriesFrom tag first).Pairwise fun a b => a.1 < b.1 :=
  (entries_sorted (dvd_zero _)).filter _

theorem entriesFrom_of_null (h : root.rnode.isNull = true)
    (tag : Option Tag) (first : ℕ) : root.entriesFrom tag first = [] := by
  unfold entriesFrom
  rw [eq_null_of_isNull h, entries_null, filter_nil]

section

variable (hshape : root.rnode.Shaped root.height) (first : ℕ) {n : ℕ} (hn : 0 < n)

include hshape hn

/-- Both lookups below a root that is a node. -/
theorem gangLookupNode_root (hcov : ∀ t ∈ tag, root.rnode.Covered t root.height)
    (hnull : root.rnode.isNull = false) (hheight : root.height = level + 1) :
    gangLookupNode first tag (level + 1) root.rnode 0 n =
      some (((root.entriesFrom tag first).map snd).take n) := by
  rw [hheight] at hshape hcov
  unfold entriesFrom
  rw [hheight]
  exact gangLookupNode_spec first tag level root.rnode 0 n hshape hcov hnull (dvd_zero _) hn

theorem radixTreeGangLookup_spec : radixTreeGangLookup root first n =
    some (((root.entriesFrom none first).map snd).take n) := by
  unfold radixTreeGangLookup
  by_cases hnull : root.rnode.isNull = true
  · simp [hnull, entriesFrom_of_null hnull]
  · have hnull' : root.rnode.isNull = false := by simpa using hnull
    rw [if_neg (by simp [hnull']; omega)]
    rcases hheight : root.height with _ | level
    · rw [hheight] at hshape
      obtain ⟨x, hx⟩ := Ptr.WF.item_of_not_null hshape hnull'
      by_cases hfirst : first = 0
      · have hlist : (root.entriesFrom none first).map snd = [x] := by
          simp [entriesFrom, hheight, hx, entries, wanted, hfirst]
        rw [hlist, take_of_length_le hn]
        simp [hx, hfirst]
      · simp [hx, hfirst, entriesFrom, hheight, entries, wanted]
    · exact gangLookupNode_root hshape first hn (by simp) hnull' hheight

theorem radixTreeGangLookupTag_spec {t : Tag} (hcov : root.rnode.Covered t root.height) :
    radixTreeGangLookupTag root first n t =
      some (((root.entriesFrom (some t) first).map snd).take n) := by
  unfold radixTreeGangLookupTag
  by_cases hnull : root.rnode.isNull = true
  · simp [hnull, entriesFrom_of_null hnull]
  · have hnull' : root.rnode.isNull = false := by simpa using hnull
    rw [if_neg (by simp [hnull']; omega)]
    rcases hheight : root.height with _ | level
    · simp [entriesFrom, hheight, wanted]
    · exact gangLookupNode_root hshape first hn (by simpa using hcov) hnull' hheight

end

/-- The items at the smallest indices from `first` on that satisfy `P`, by increasing index: all of
them or `n`. -/
def SmallestFrom (P : ℕ → α → Prop) (first n : ℕ) (results : List α) : Prop :=
  ∃ es : List (ℕ × α), es.Pairwise (fun a b => a.1 < b.1) ∧
    (∀ index x, (index, x) ∈ es ↔ first ≤ index ∧ P index x) ∧
    results = (es.take n).map snd ∧ results.length = min n es.length

theorem smallestFrom_entriesFrom (root : RadixRoot α) (tag : Option Tag) (first n : ℕ) :
    SmallestFrom (fun index x => root.itemAt index = some x ∧
      ∀ t ∈ tag, root.tagAt t index = true) first n
      (((root.entriesFrom tag first).map snd).take n) := by
  refine ⟨root.entriesFrom tag first, entriesFrom_sorted root tag first,
    fun _ _ => mem_entriesFrom, map_take.symm, ?_⟩
  rw [length_take, length_map]

/-- Gang lookups are exact range queries, the one with a tag where the slots above the tagged leaves
have it too. -/
theorem gang_lookups_exact (root : RadixRoot α) (hshape : root.rnode.Shaped root.height)
    (first : ℕ) {n : ℕ} (hn : 1 ≤ n) :
    (∃ results, radixTreeGangLookup root first n = some results ∧
      SmallestFrom (fun index x => root.itemAt index = some x) first n results) ∧
    ∀ tag, root.rnode.Covered tag root.height →
      ∃ results, radixTreeGangLookupTag root first n tag = some results ∧
        SmallestFrom (fun index x => root.itemAt index = some x ∧ root.tagAt tag index = true)
          first n results := by
  refine ⟨⟨_, radixTreeGangLookup_spec hshape first hn, ?_⟩,
    fun tag hcov => ⟨_, radixTreeGangLookupTag_spec hshape first hn hcov, ?_⟩⟩
  · simpa using smallestFrom_entriesFrom root none first n
  · simpa using smallestFrom_entriesFrom root (some tag) first n

/-- A leaf with items in its slots 3 and 5, of which the second is tagged. -/
def pairLeaf : RadixRoot ℕ :=
  ⟨1, .node 0 2 (fun i => if i.val = 3 then .item 7 else if i.val = 5 then .item 9 else .null)
    fun _ i => i.val = 5⟩

theorem gang_lookups_exact_pairLeaf : ∃ results,
    radixTreeGangLookupTag pairLeaf 0 1 .dirty = some results ∧
      SmallestFrom (fun index x => pairLeaf.itemAt index = some x ∧
        pairLeaf.tagAt .dirty index = true) 0 1 results := by
  refine (gang_lookups_exact pairLeaf ⟨rfl, fun i => ?_⟩ 0 le_rfl).2 .dirty
    fun i => ⟨trivial, fun _ htag => by simp at htag⟩
  show Ptr.WF 0 (if i.val = 3 then _ else if i.val = 5 then _ else _)
  split
  · trivial
  · split <;> trivial

end BoredOS.Mem.Radix
