import Mathlib

/-!
# The Radix Tree of `mem/radix_tree.c`

A `void *` of the tree is a `Ptr`: NULL, an item, or a node with 64 slots. Every node is
referenced from one slot only, so the tree is a value and a store into a node is a new value. What
a slot holds is decided by its level, as in the C code; a function returns `none` when it
dereferences NULL or treats an item as a node.

Node allocation succeeds. Indices are 64-bit words kept as natural numbers.
-/

namespace BoredOS.Mem.Radix

open Function

/-- `RADIX_TREE_MAP_SHIFT`. -/
def mapShift : ℕ := 6

/-- `RADIX_TREE_TAG_DIRTY` and `RADIX_TREE_TAG_LOCKED`. -/
inductive Tag where
  | dirty
  | locked
  deriving DecidableEq, Repr

/-- A `void *` of the tree; a tag word is the function that gives its 64 bits. -/
inductive Ptr (α : Type) where
  | null
  | item (x : α)
  | node (shift count : ℕ) (slots : Fin 64 → Ptr α) (tags : Tag → Fin 64 → Bool)

/-- `radix_tree_root_t`. -/
structure RadixRoot (α : Type) where
  height : ℕ
  rnode : Ptr α

variable {α : Type}

/-- `p == NULL`. -/
def Ptr.isNull : Ptr α → Bool
  | .null => true
  | _ => false

/-- `height_to_maxindex`, as `init_maxindex` computes it. -/
def heightToMaxindex : ℕ → ℕ
  | 0 => 0
  | h + 1 => heightToMaxindex h * 2 ^ mapShift + (2 ^ mapShift - 1)

/-- `(index >> shift) & RADIX_TREE_MAP_MASK` with the shift of a node `level` levels above the
leaves. -/
def slotOf (index level : ℕ) : Fin 64 :=
  ⟨index / 2 ^ (mapShift * level) % 2 ^ mapShift, Nat.mod_lt _ (by decide)⟩

def radixNodeAlloc (shift : ℕ) : Ptr α :=
  .node shift 0 (fun _ => .null) (fun _ _ => false)

/-- `count++` and `count--` on a `uint8_t`. -/
def incCount (c : ℕ) : ℕ := (c + 1) % 256

def decCount (c : ℕ) : ℕ := (c + 255) % 256

/-- `node->tags[tag] |= 1ULL << slot`. -/
def setBit (tags : Tag → Fin 64 → Bool) (tag : Tag) (slot : Fin 64) (b : Bool) :
    Tag → Fin 64 → Bool :=
  update tags tag (update (tags tag) slot b)

/-- `node->tags[tag] == 0`. -/
def tagsZero (tags : Tag → Fin 64 → Bool) (tag : Tag) : Bool :=
  decide (∀ slot, tags tag slot = false)

def radixTreeInit : RadixRoot α := ⟨0, .null⟩

/-! ## Insertion -/

/-- The first loop of `radix_tree_extend`; `none` is the result `-1`. -/
def extendHeight (index : ℕ) : ℕ → ℕ → Option ℕ
  | 0, _ => none
  | fuel + 1, height =>
    if index > heightToMaxindex height then
      if height + 1 ≥ 8 then none else extendHeight index fuel (height + 1)
    else some height

/-- The body of the second loop of `radix_tree_extend`: a new root above the old one. -/
def extendRoot (root : RadixRoot α) : Option (RadixRoot α) :=
  let slots : Fin 64 → Ptr α := update (fun _ => .null) 0 root.rnode
  let shift := root.height * mapShift
  if root.height = 0 then some ⟨1, .node shift 1 slots fun _ _ => false⟩
  else
    match root.rnode with
    | .node _ _ _ oldTags =>
      some ⟨root.height + 1, .node shift 1 slots fun tag slot =>
        decide (slot = 0) && !tagsZero oldTags tag⟩
    | _ => none

/-- The second loop of `radix_tree_extend`. -/
def extendLoop (height : ℕ) : ℕ → RadixRoot α → Option (RadixRoot α)
  | 0, _ => none
  | fuel + 1, root => do
    let root ← extendRoot root
    if height > root.height then extendLoop height fuel root else some root

/-- `radix_tree_extend`; the inner `none` is the result `-1`. -/
def radixTreeExtend (root : RadixRoot α) (index : ℕ) : Option (Option (RadixRoot α)) :=
  match extendHeight index 9 root.height with
  | none => some none
  | some height =>
    match root.rnode with
    | .null => some (some { root with height := height })
    | _ => (extendLoop height 9 root).map some

/-- The descent of `radix_tree_insert` from a node `level` levels above the leaves; the result says
whether the item was stored. -/
def insertAt (index : ℕ) (x : α) : ℕ → Ptr α → Option (Ptr α × Bool)
  | 0, .node shift count slots tags =>
    let slot := slotOf index 0
    if (slots slot).isNull then
      some (.node shift (incCount count) (update slots slot (.item x)) tags, true)
    else some (.node shift count slots tags, false)
  | level + 1, .node shift count slots tags => do
    let slot := slotOf index (level + 1)
    let (child, count) :=
      if (slots slot).isNull then (radixNodeAlloc (mapShift * level), incCount count)
      else (slots slot, count)
    let (child, ok) ← insertAt index x level child
    some (.node shift count (update slots slot child) tags, ok)
  | _, _ => none

/-- `radix_tree_insert` on the heights the tree has after `radix_tree_extend`. -/
def insertRoot (root : RadixRoot α) (index : ℕ) (x : α) : Option (RadixRoot α × ℤ) :=
  match root.height with
  | 0 =>
    if root.rnode.isNull then some (⟨0, .item x⟩, 0) else some (root, -1)
  | level + 1 => do
    let (p, ok) ← insertAt index x level root.rnode
    some (⟨level + 1, p⟩, if ok then 0 else -1)

def radixTreeInsert (root : RadixRoot α) (index : ℕ) (item : Option α) : Option (RadixRoot α × ℤ) :=
  match item with
  | none => some (root, -1)
  | some x =>
    if index > heightToMaxindex root.height then
      match radixTreeExtend root index with
      | none => none
      | some none => some (root, -1)
      | some (some root') => insertRoot root' index x
    else insertRoot root index x

/-! ## Lookup and deletion -/

/-- The loop of `radix_tree_lookup`. -/
def lookupAt (index : ℕ) : ℕ → Ptr α → Option (Option α)
  | 0, .node _ _ slots _ =>
    match slots (slotOf index 0) with
    | .null => some none
    | .item x => some (some x)
    | .node .. => none
  | level + 1, .node _ _ slots _ =>
    let child := slots (slotOf index (level + 1))
    if child.isNull then some none else lookupAt index level child
  | _, _ => none

def radixTreeLookup (root : RadixRoot α) (index : ℕ) : Option (Option α) :=
  if root.rnode.isNull then some none
  else if index > heightToMaxindex root.height then some none
  else
    match root.height with
    | 0 =>
      match root.rnode with
      | .item x => some (if index = 0 then some x else none)
      | _ => none
    | level + 1 => lookupAt index level root.rnode

/-- The tags of a node after the way back of `radix_tree_delete`: the bit of the slot is cleared for
every tag that the child no longer has. -/
def clearStale (tags : Tag → Fin 64 → Bool) (slot : Fin 64) (childTags : Tag → Fin 64 → Bool) :
    Tag → Fin 64 → Bool :=
  fun tag i => if i = slot ∧ tagsZero childTags tag = true then false else tags tag i

/-- What the way back of `radix_tree_delete` does at a node that is not the root: stale tag bits
are cleared and an empty child is freed. -/
def pruneSlot (shift count : ℕ) (slots : Fin 64 → Ptr α) (tags : Tag → Fin 64 → Bool)
    (slot : Fin 64) (child : Ptr α) : Option (Ptr α) :=
  match child with
  | .node _ childCount _ childTags =>
    let tags := clearStale tags slot childTags
    if childCount = 0 then
      some (.node shift (decCount count) (update slots slot .null) tags)
    else some (.node shift count (update slots slot child) tags)
  | _ => none

/-- The descent and the way back of `radix_tree_delete`; at the root the way back does nothing. -/
def deleteAt (index : ℕ) : ℕ → Bool → Ptr α → Option (Ptr α × Option α)
  | 0, _, .node shift count slots tags =>
    let slot := slotOf index 0
    match slots slot with
    | .null => some (.node shift count slots tags, none)
    | .item x =>
      some (.node shift (decCount count) (update slots slot .null)
        (fun tag i => if i = slot then false else tags tag i), some x)
    | .node .. => none
  | level + 1, isRoot, .node shift count slots tags => do
    let slot := slotOf index (level + 1)
    if (slots slot).isNull then some (.node shift count slots tags, none)
    else
      match ← deleteAt index level false (slots slot) with
      | (_, none) => some (.node shift count slots tags, none)
      | (child, some x) =>
        if isRoot then some (.node shift count (update slots slot child) tags, some x)
        else
          let p ← pruneSlot shift count slots tags slot child
          some (p, some x)
  | _, _, _ => none

def radixTreeDelete (root : RadixRoot α) (index : ℕ) : Option (RadixRoot α × Option α) :=
  if root.rnode.isNull then some (root, none)
  else if index > heightToMaxindex root.height then some (root, none)
  else
    match root.height with
    | 0 =>
      if index ≠ 0 then some (root, none)
      else
        match root.rnode with
        | .item x => some (⟨0, .null⟩, some x)
        | _ => none
    | level + 1 => do
      match ← deleteAt index level true root.rnode with
      | (_, none) => some (root, none)
      | (.node shift count slots tags, some x) =>
        if count = 0 then some (⟨0, .null⟩, some x)
        else some (⟨level + 1, .node shift count slots tags⟩, some x)
      | _ => none

/-! ## Tags -/

/-- The loop of `radix_tree_tag_set`. -/
def tagSetAt (index : ℕ) (tag : Tag) : ℕ → Ptr α → Option (Ptr α)
  | 0, .node shift count slots tags =>
    some (.node shift count slots (setBit tags tag (slotOf index 0) true))
  | level + 1, .node shift count slots tags => do
    let slot := slotOf index (level + 1)
    let tags := setBit tags tag slot true
    if (slots slot).isNull then some (.node shift count slots tags)
    else
      let child ← tagSetAt index tag level (slots slot)
      some (.node shift count (update slots slot child) tags)
  | _, _ => none

def radixTreeTagSet (root : RadixRoot α) (index : ℕ) (tag : Tag) : Option (RadixRoot α) :=
  if root.rnode.isNull then some root
  else if index > heightToMaxindex root.height then some root
  else
    match root.height with
    | 0 => some root
    | level + 1 => do
      let p ← tagSetAt index tag level root.rnode
      some ⟨level + 1, p⟩

/-- The descent and the way back of `radix_tree_tag_clear`. The result is `none` inside when the
path ends early, and otherwise says whether the way back goes on. -/
def tagClearAt (index : ℕ) (tag : Tag) : ℕ → Ptr α → Option (Option (Ptr α × Bool))
  | 0, .node shift count slots tags =>
    some (some (.node shift count slots (setBit tags tag (slotOf index 0) false), true))
  | level + 1, .node shift count slots tags => do
    let slot := slotOf index (level + 1)
    if (slots slot).isNull then some none
    else
      match ← tagClearAt index tag level (slots slot) with
      | none => some none
      | some (.node cshift ccount cslots ctags, go) =>
        let slots := update slots slot (.node cshift ccount cslots ctags)
        if go && tagsZero ctags tag then
          some (some (.node shift count slots (setBit tags tag slot false), true))
        else some (some (.node shift count slots tags, false))
      | some _ => none
  | _, _ => none

def radixTreeTagClear (root : RadixRoot α) (index : ℕ) (tag : Tag) : Option (RadixRoot α) :=
  if root.rnode.isNull then some root
  else if index > heightToMaxindex root.height then some root
  else
    match root.height with
    | 0 => some root
    | level + 1 => do
      match ← tagClearAt index tag level root.rnode with
      | none => some root
      | some (p, _) => some ⟨level + 1, p⟩

/-- The loop of `radix_tree_tag_get`. -/
def tagGetAt (index : ℕ) (tag : Tag) : ℕ → Ptr α → Option Bool
  | 0, .node _ _ _ tags => some (tags tag (slotOf index 0))
  | level + 1, .node _ _ slots tags =>
    let slot := slotOf index (level + 1)
    if !tags tag slot then some false
    else if (slots slot).isNull then some false
    else tagGetAt index tag level (slots slot)
  | _, _ => none

/-- `radix_tree_tag_get`, `true` for the result `1`. -/
def radixTreeTagGet (root : RadixRoot α) (index : ℕ) (tag : Tag) : Option Bool :=
  if root.rnode.isNull then some false
  else if index > heightToMaxindex root.height then some false
  else
    match root.height with
    | 0 => some false
    | level + 1 => tagGetAt index tag level root.rnode

/-! ## Gang lookup -/

/-- The loop over the slots: `f` gives what one slot adds within a budget. -/
def gangSlots (f : Fin 64 → ℕ → Option (List α)) : List (Fin 64) → ℕ → Option (List α)
  | [], _ => some []
  | slot :: rest, maxItems => do
    let xs ← f slot maxItems
    if xs.length ≥ maxItems then some xs
    else
      let ys ← gangSlots f rest (maxItems - xs.length)
      some (xs ++ ys)

/-- `tag >= 0 && !(node->tags[tag] & (1ULL << i))`, with `none` for the tag `-1`. -/
def tagMissing (tag : Option Tag) (tags : Tag → Fin 64 → Bool) (slot : Fin 64) : Bool :=
  match tag with
  | none => false
  | some t => !tags t slot

/-- `gang_lookup_node`; `tag` is `none` for the argument `-1`. The recursion of the C code ends by
the `shift` field, here bounded by `fuel`. -/
def gangLookupNode (firstIndex : ℕ) (tag : Option Tag) : ℕ → Ptr α → ℕ → ℕ → Option (List α)
  | 0, _, _, _ => none
  | _ + 1, .null, _, _ => some []
  | _ + 1, .item _, _, _ => none
  | fuel + 1, .node shift _ slots tags, curIndex, maxItems =>
    if maxItems = 0 then some []
    else gangSlots (fun slot maxItems =>
      if tagMissing tag tags slot then some []
      else if (slots slot).isNull then some []
      else
        let slotBase :=
          curIndex / 2 ^ (shift + mapShift) * 2 ^ (shift + mapShift) + slot.val * 2 ^ shift
        if shift = 0 then
          match slots slot with
          | .item x => some (if slotBase ≥ firstIndex then [x] else [])
          | _ => none
        else if slotBase + (2 ^ shift - 1) ≥ firstIndex then
          gangLookupNode firstIndex tag fuel (slots slot) slotBase maxItems
        else some [])
      (List.finRange 64) maxItems

def radixTreeGangLookup (root : RadixRoot α) (firstIndex maxItems : ℕ) : Option (List α) :=
  if root.rnode.isNull || maxItems == 0 then some []
  else
    match root.height with
    | 0 =>
      match root.rnode with
      | .item x => some (if firstIndex = 0 then [x] else [])
      | _ => none
    | level + 1 => gangLookupNode firstIndex none (level + 1) root.rnode 0 maxItems

def radixTreeGangLookupTag (root : RadixRoot α) (firstIndex maxItems : ℕ) (tag : Tag) :
    Option (List α) :=
  if root.rnode.isNull || maxItems == 0 then some []
  else
    match root.height with
    | 0 => some []
    | level + 1 => gangLookupNode firstIndex (some tag) (level + 1) root.rnode 0 maxItems

end BoredOS.Mem.Radix
