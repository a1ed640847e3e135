import BoredOS.Core.RbTree.Model

/-!
# The VMA Container of `mem/vma.c`

A `vm_area_t` is addressed by the address of its embedded `rb_node`, so `vma_from_rb` is the
identity. The tree part of the container is an `RbState`; the list head and the other fields of
the areas are its callback data, of which the augment callback changes `rb_subtree_max_gap` only.
The fields `space` and `i_mmap_next` are read by no function of this file and are left out.

Addresses, sizes and offsets are 64-bit words, kept as natural numbers; sums that can wrap are
taken modulo `2 ^ 64`.
-/

namespace BoredOS.Mem.Vma

open Core.RbTree Lib.RedBlack Function Prod

def pageSize : ℕ := 4096

/-- `x & ~PAGE_MASK`. -/
def pageFloor (x : ℕ) : ℕ := x - x % pageSize

/-- A 64-bit sum. -/
def wadd (x y : ℕ) : ℕ := (x + y) % 2 ^ 64

def vmaTypeFile : ℕ := 2

/-- `vm_area_t` without its tree node. -/
structure VmArea where
  start : ℕ
  end_ : ℕ
  type : ℕ
  flags : ℕ
  backingFile : Option ℕ
  fileOffset : ℕ
  prev : Option Addr
  next : Option Addr
  deriving DecidableEq, Repr

/-- The list head, the areas and their `rb_subtree_max_gap` fields. -/
structure VmaData where
  head : Option Addr
  area : Addr → VmArea
  rbSubtreeMaxGap : Addr → ℕ

/-- A container: `*head` and `*root` with everything they lead to. -/
abbrev VmaState := RbState VmaData

def VmaData.modify (a : VmaData) (x : Addr) (g : VmArea → VmArea) : VmaData :=
  { a with area := update a.area x (g (a.area x)) }

abbrev VmaData.setPrev (a : VmaData) (x : Addr) (p : Option Addr) : VmaData :=
  a.modify x fun v => { v with prev := p }

abbrev VmaData.setNext (a : VmaData) (x : Addr) (p : Option Addr) : VmaData :=
  a.modify x fun v => { v with next := p }

abbrev VmaData.setEnd (a : VmaData) (x : Addr) (e : ℕ) : VmaData :=
  a.modify x fun v => { v with end_ := e }

/-- `if (q) q->prev = p`. -/
def VmaData.setPrev? (a : VmaData) (q : Option Addr) (p : Option Addr) : VmaData :=
  match q with
  | none => a
  | some x => a.setPrev x p

/-! ## Gaps -/

def maxGap (a b : ℕ) : ℕ := if a > b then a else b

def nodeGapToNext (a : VmaData) (x : Addr) : ℕ :=
  match (a.area x).next with
  | none => 0
  | some n =>
    if (a.area n).start > (a.area x).end_ then (a.area n).start - (a.area x).end_ else 0

/-- `c ? c->rb_subtree_max_gap : 0`. -/
def childGap (a : VmaData) : Option Addr → ℕ
  | none => 0
  | some c => a.rbSubtreeMaxGap c

/-- `update_vma_subtree_gap`, the augment callback. -/
def updateVmaSubtreeGap (mem : Addr → RbNode) (a : VmaData) (x : Addr) : VmaData :=
  let leftGap := childGap a (mem x).rbLeft
  let rightGap := childGap a (mem x).rbRight
  let selfGap := nodeGapToNext a x
  { a with
    rbSubtreeMaxGap :=
      update a.rbSubtreeMaxGap x (maxGap selfGap (maxGap leftGap rightGap)) }

/-- The callback as it is passed to the tree. -/
def gapCb : AugmentCb VmaData := some updateVmaSubtreeGap

/-- `propagate_gap_upward`: the loop is the one the tree runs with the same callback. -/
def propagateGapUpward (fuel : ℕ) (s : VmaState) (node : Option Addr) : Option VmaState :=
  rbAugmentUp gapCb fuel s node

/-! ## Creation -/

def newArea (start end_ type flags : ℕ) : VmArea :=
  ⟨pageFloor start, pageFloor (wadd end_ (pageSize - 1)), type, flags, none, 0, none, none⟩

/-- `vma_create`, where `p` is the block `kmalloc` returned; `none` is the NULL result for an empty
range. -/
def vmaCreate (s : VmaState) (p : Addr) (start end_ type flags : ℕ) : Option VmaState :=
  let v := newArea start end_ type flags
  if v.start ≥ v.end_ then none
  else
    some
      { s with
        mem := update s.mem p ⟨none, none, none, .red⟩
        aux :=
          { s.aux with
            area := update s.aux.area p v
            rbSubtreeMaxGap := update s.aux.rbSubtreeMaxGap p 0 } }

/-! ## Search -/

/-- The loop of `vma_find`. The outer `Option` is the fuel. -/
def vmaFindFrom (s : VmaState) (addr : ℕ) : ℕ → Option Addr → Option (Option Addr)
  | _, none => some none
  | 0, some _ => none
  | fuel + 1, some curr =>
    let v := s.aux.area curr
    if addr ≥ v.start ∧ addr < v.end_ then some (some curr)
    else if addr < v.start then vmaFindFrom s addr fuel (s.mem curr).rbLeft
    else vmaFindFrom s addr fuel (s.mem curr).rbRight

def vmaFind (fuel : ℕ) (s : VmaState) (addr : ℕ) : Option (Option Addr) :=
  vmaFindFrom s addr fuel s.rbRoot

/-! ## Insertion -/

/-- The descent of `vma_insert`: the link to use and the list predecessor, or `none` at an
overlap. The outer `Option` is the fuel. -/
def vmaInsertWalk (s : VmaState) (vma : Addr) :
    ℕ → Option Addr → Option (Addr × Dir) → Option Addr →
      Option (Option (Option (Addr × Dir) × Option Addr))
  | _, none, link, prevNode => some (some (link, prevNode))
  | 0, some _, _, _ => none
  | fuel + 1, some curr, _, prevNode =>
    let v := s.aux.area vma
    let c := s.aux.area curr
    if !(v.end_ ≤ c.start || v.start ≥ c.end_) then some none
    else if v.end_ ≤ c.start then
      vmaInsertWalk s vma fuel (s.mem curr).rbLeft (some (curr, .left)) prevNode
    else vmaInsertWalk s vma fuel (s.mem curr).rbRight (some (curr, .right)) (some curr)

/-- The list part of `vma_insert`. -/
def linkList (a : VmaData) (vma : Addr) : Option Addr → VmaData
  | none =>
    let a := a.setPrev vma none
    let a := a.setNext vma a.head
    let a := a.setPrev? a.head (some vma)
    { a with head := some vma }
  | some p =>
    let a := a.setPrev vma (some p)
    let a := a.setNext vma (a.area p).next
    let a := a.setPrev? (a.area p).next (some vma)
    a.setNext p (some vma)

def vmaInsert (fuel : ℕ) (s : VmaState) (vma : Addr) : Option (VmaState × Bool) := do
  match ← vmaInsertWalk s vma fuel s.rbRoot none none with
  | none => some (s, false)
  | some (link, prevNode) =>
    let s := rbLinkNode s vma link
    let s := { s with aux := linkList s.aux vma prevNode }
    let s ← propagateGapUpward fuel s (s.aux.area vma).prev
    let s ← propagateGapUpward fuel s (some vma)
    let s ← rbInsertAugmented gapCb fuel s vma
    let s ← propagateGapUpward fuel s (some vma)
    some (s, true)

/-! ## Removal -/

/-- The list part of `vma_remove`. -/
def unlinkList (a : VmaData) (vma : Addr) : VmaData :=
  let prev := (a.area vma).prev
  let next := (a.area vma).next
  let a :=
    match prev with
    | some p => a.setNext p next
    | none => { a with head := next }
  a.setPrev? next prev

def vmaRemove (fuel : ℕ) (s : VmaState) (vma : Addr) : Option (VmaState × Bool) :=
  if s.rbRoot = none then some (s, false)
  else do
    let prev := (s.aux.area vma).prev
    let s := { s with aux := unlinkList s.aux vma }
    let s ← rbEraseAugmented gapCb fuel s vma
    let s ← propagateGapUpward fuel s prev
    some (s, true)

/-! ## Merging and splitting -/

def vmaCanMerge (first second : VmArea) : Bool :=
  first.end_ == second.start && first.type == second.type && first.flags == second.flags &&
    first.backingFile == second.backingFile &&
    (first.type != vmaTypeFile ||
      wadd first.fileOffset (first.end_ - first.start) == second.fileOffset)

/-- `vma_merge_adjacent`. The freed area `next` is not part of the container any more. -/
def vmaMergeAdjacent (fuel : ℕ) (s : VmaState) (prev next : Addr) :
    Option (VmaState × Option Addr) :=
  if vmaCanMerge (s.aux.area prev) (s.aux.area next) then do
    let s := { s with aux := s.aux.setEnd prev (s.aux.area next).end_ }
    let (s, _) ← vmaRemove fuel s next
    let s ← propagateGapUpward fuel s (some prev)
    some (s, some prev)
  else some (s, none)

/-- `vma_split`, where `right` is the block `kmalloc` returned. -/
def vmaSplit (fuel : ℕ) (s : VmaState) (vma : Addr) (splitAddr : ℕ) (right : Addr) :
    Option (VmaState × Bool) :=
  let v := s.aux.area vma
  let alignedSplit := pageFloor splitAddr
  if alignedSplit ≤ v.start || alignedSplit ≥ v.end_ then some (s, false)
  else
    match vmaCreate s right alignedSplit v.end_ v.type v.flags with
    | none => some (s, false)
    | some s => do
      let s :=
        { s with
          aux := s.aux.modify right fun r =>
            { r with
              backingFile := v.backingFile
              fileOffset :=
                if v.type = vmaTypeFile then wadd v.fileOffset (alignedSplit - v.start)
                else r.fileOffset } }
      let s := { s with aux := s.aux.setEnd vma alignedSplit }
      let s ← propagateGapUpward fuel s (some vma)
      some (s, true)

/-! ## Operations -/

/-- The calls on a container. An inserted area is a new one at the block `p`, with the file fields
its creator fills in; a split is followed by the insertion of the right half. -/
inductive VmaOp where
  | insert (p : Addr) (start end_ type flags : ℕ) (backingFile : Option ℕ) (fileOffset : ℕ)
  | remove (vma : Addr)
  | splitInsert (vma : Addr) (splitAddr : ℕ) (right : Addr)
  | merge (prev next : Addr)

/-- A new area is created, its file fields are filled in and it is inserted. -/
def vmaCreateInsert (fuel : ℕ) (s : VmaState) (p : Addr) (start end_ type flags : ℕ)
    (backingFile : Option ℕ) (fileOffset : ℕ) : Option VmaState :=
  match vmaCreate s p start end_ type flags with
  | none => some s
  | some s =>
    let s := { s with aux := s.aux.modify p fun v =>
      { v with backingFile := backingFile, fileOffset := fileOffset } }
    (vmaInsert fuel s p).map fst

/-- An area is split and the right half is inserted. -/
def vmaSplitInsert (fuel : ℕ) (s : VmaState) (vma : Addr) (splitAddr : ℕ) (right : Addr) :
    Option VmaState :=
  match vmaSplit fuel s vma splitAddr right with
  | none => none
  | some (s, true) => (vmaInsert fuel s right).map fst
  | some (s, false) => some s

def applyVmaOp (fuel : ℕ) (s : VmaState) : VmaOp → Option VmaState
  | .insert p start end_ type flags backingFile fileOffset =>
    vmaCreateInsert fuel s p start end_ type flags backingFile fileOffset
  | .remove vma => (vmaRemove fuel s vma).map fst
  | .splitInsert vma splitAddr right => vmaSplitInsert fuel s vma splitAddr right
  | .merge prev next => (vmaMergeAdjacent fuel s prev next).map fst

end BoredOS.Mem.Vma
