import BoredOS.Lib.RedBlack

/-!
# The Intrusive Red-Black Tree of `core/lib/rbtree.c`

Nodes live at addresses of a memory `Addr → RbNode`; `none` is the NULL pointer. An operation
returns `none` when it dereferences NULL or runs out of fuel, so a `some` result is a run of the
C code that came to its end.

The left and right halves of the C functions are mirror images line by line, so each is written
once, over the side `d`; `rbRotateLeft` and `rbRotateRight` are its two instances.

The augment callback may read every node and change only data outside the `rb_node` fields,
which is the state `aux`.
-/

namespace BoredOS.Core.RbTree

open Lib.RedBlack Function

variable {σ : Type}

/-- The address of an `rb_node_t`. -/
abbrev Addr := ℕ

/-- `rb_node_t`. -/
structure RbNode where
  rbParent : Option Addr
  rbLeft : Option Addr
  rbRight : Option Addr
  rbColor : Color
  deriving DecidableEq, Repr

/-- `rb_left` or `rb_right`. -/
def RbNode.child (n : RbNode) : Dir → Option Addr
  | .left => n.rbLeft
  | .right => n.rbRight

/-- The root pointer, the nodes and the data the augment callback maintains. -/
structure RbState (σ : Type) where
  rbRoot : Option Addr
  mem : Addr → RbNode
  aux : σ

/-- `rb_augment_cb`; `none` is the NULL callback. -/
abbrev AugmentCb (σ : Type) := Option ((Addr → RbNode) → σ → Addr → σ)

/-! ## Field updates -/

section

def RbNode.setParent (n : RbNode) (p : Option Addr) : RbNode := { n with rbParent := p }

def RbNode.setColor (n : RbNode) (c : Color) : RbNode := { n with rbColor := c }

def RbNode.setChild (n : RbNode) (d : Dir) (p : Option Addr) : RbNode :=
  match d with
  | .left => { n with rbLeft := p }
  | .right => { n with rbRight := p }

def RbState.modify (s : RbState σ) (a : Addr) (g : RbNode → RbNode) : RbState σ :=
  { s with mem := update s.mem a (g (s.mem a)) }

abbrev RbState.setParent (s : RbState σ) (a : Addr) (p : Option Addr) : RbState σ :=
  s.modify a (·.setParent p)

abbrev RbState.setColor (s : RbState σ) (a : Addr) (c : Color) : RbState σ :=
  s.modify a (·.setColor c)

abbrev RbState.setChild (s : RbState σ) (d : Dir) (a : Addr) (p : Option Addr) : RbState σ :=
  s.modify a (·.setChild d p)

/-- `if (q) q->rb_parent = p`. -/
def RbState.setParent? (s : RbState σ) (q : Option Addr) (p : Option Addr) : RbState σ :=
  match q with
  | none => s
  | some a => s.setParent a p

/-- `if (q) q->rb_color = c`. -/
def RbState.setColor? (s : RbState σ) (q : Option Addr) (c : Color) : RbState σ :=
  match q with
  | none => s
  | some a => s.setColor a c

/-- `q && q->rb_color == RB_RED`. -/
def RbState.isRed (s : RbState σ) : Option Addr → Bool
  | none => false
  | some a => (s.mem a).rbColor == .red

/-- Run the callback on a node, if there is one. -/
def RbState.augment (s : RbState σ) (cb : AugmentCb σ) (a : Addr) : RbState σ :=
  match cb with
  | none => s
  | some f => { s with aux := f s.mem s.aux a }

end

/-! ## Rotations and insertion -/

section

/-- `rb_link_node`: a red node without children, stored into the link it is given. -/
def rbLinkNode (s : RbState σ) (node : Addr) (link : Option (Addr × Dir)) : RbState σ :=
  let fresh : RbNode := ⟨link.map Prod.fst, none, none, .red⟩
  let s := { s with mem := update s.mem node fresh }
  match link with
  | none => { s with rbRoot := some node }
  | some (parent, d) => s.setChild d parent (some node)

/-- The link to `node`, in `parent` or in the root, is set to `q`; the side `d` is tested first. -/
def rbReplaceLink (d : Dir) (s : RbState σ) (parent : Option Addr) (node : Addr)
    (q : Option Addr) : RbState σ :=
  match parent with
  | none => { s with rbRoot := q }
  | some p =>
    if (s.mem p).child d = some node then s.setChild d p q else s.setChild d.opp p q

/-- The pointer stores of a rotation: `node` goes down to side `d` and `up` takes its place. -/
def rbRotateLinks (d : Dir) (s : RbState σ) (node up : Addr) : RbState σ :=
  let s := s.setChild d.opp node ((s.mem up).child d)
  let s := s.setParent? ((s.mem up).child d) (some node)
  let s := s.setParent up (s.mem node).rbParent
  let s := rbReplaceLink d s (s.mem node).rbParent node (some up)
  let s := s.setChild d up (some node)
  s.setParent node (some up)

/-- The common text of `rb_rotate_left` and `rb_rotate_right`. -/
def rbRotate (d : Dir) (cb : AugmentCb σ) (s : RbState σ) (node : Addr) : Option (RbState σ) := do
  let up ← (s.mem node).child d.opp
  let s := rbRotateLinks d s node up
  some ((s.augment cb node).augment cb up)

def rbRotateLeft (cb : AugmentCb σ) (s : RbState σ) (node : Addr) : Option (RbState σ) :=
  rbRotate .left cb s node

def rbRotateRight (cb : AugmentCb σ) (s : RbState σ) (node : Addr) : Option (RbState σ) :=
  rbRotate .right cb s node

/-- The black-uncle case of `rb_insert_augmented`, the parent being the child of the grandparent
on side `d`. Returns the state and the node the loop goes on with. -/
def rbInsertRotate (d : Dir) (cb : AugmentCb σ) (s : RbState σ) (node parent grandparent : Addr) :
    Option (RbState σ × Addr) := do
  if (s.mem parent).child d.opp = some node then
    -- the inner grandchild is rotated to the outside first
    let s ← rbRotate d cb s parent
    let parent' ← (s.mem parent).rbParent
    let grandparent' ← (s.mem parent').rbParent
    let s := (s.setColor parent' .black).setColor grandparent' .red
    let s ← rbRotate d.opp cb s grandparent'
    some (s, parent)
  else
    let s := (s.setColor parent .black).setColor grandparent .red
    let s ← rbRotate d.opp cb s grandparent
    some (s, node)

/-- One iteration of the loop of `rb_insert_augmented`, the parent on side `d`. -/
def rbInsertStep (d : Dir) (cb : AugmentCb σ) (s : RbState σ) (node parent grandparent : Addr) :
    Option (RbState σ × Addr) :=
  match (s.mem grandparent).child d.opp with
  | some uncle =>
    if (s.mem uncle).rbColor = .red then
      let s := (s.setColor parent .black).setColor uncle .black
      some (s.setColor grandparent .red, grandparent)
    else rbInsertRotate d cb s node parent grandparent
  | none => rbInsertRotate d cb s node parent grandparent

/-- The `while` loop of `rb_insert_augmented`. -/
def rbInsertLoop (cb : AugmentCb σ) : ℕ → RbState σ → Addr → Option (RbState σ)
  | 0, _, _ => none
  | fuel + 1, s, node =>
    match (s.mem node).rbParent with
    | none => some s
    | some parent =>
      if (s.mem parent).rbColor = .red then do
        let grandparent ← (s.mem parent).rbParent
        let d := if (s.mem grandparent).rbLeft = some parent then Dir.left else Dir.right
        let (s, node) ← rbInsertStep d cb s node parent grandparent
        rbInsertLoop cb fuel s node
      else some s

def rbInsertAugmented (cb : AugmentCb σ) (fuel : ℕ) (s : RbState σ) (node : Addr) :
    Option (RbState σ) := do
  let s ← rbInsertLoop cb fuel s node
  some (s.setColor? s.rbRoot .black)

def rbInsertColor (fuel : ℕ) (s : RbState σ) (node : Addr) : Option (RbState σ) :=
  rbInsertAugmented none fuel s node

end

/-! ## Removal -/

/-- The first case of `rb_erase_fixup`: a red sibling is rotated above the parent. -/
def rbFixupRedSibling (d : Dir) (cb : AugmentCb σ) (s : RbState σ) (parent : Addr) :
    Option (RbState σ) :=
  match (s.mem parent).child d.opp with
  | some sibling =>
    if (s.mem sibling).rbColor = .red then
      rbRotate d cb ((s.setColor sibling .black).setColor parent .red) parent
    else some s
  | none => some s

/-- The last case of `rb_erase_fixup`: the far nephew is made red if it is not, and the parent is
rotated down. -/
def rbFixupRotate (d : Dir) (cb : AugmentCb σ) (s : RbState σ) (parent sibling : Addr) :
    Option (RbState σ) := do
  let s ←
    if !s.isRed ((s.mem sibling).child d.opp) then
      let s := s.setColor? ((s.mem sibling).child d) .black
      rbRotate d.opp cb (s.setColor sibling .red) sibling
    else some s
  let sibling ← (s.mem parent).child d.opp
  let s := s.setColor sibling (s.mem parent).rbColor
  let s := s.setColor parent .black
  let s := s.setColor? ((s.mem sibling).child d.opp) .black
  rbRotate d cb s parent

/-- The cases of `rb_erase_fixup` for a black sibling. The second component is the loop state:
`some (node, parent)` to go on, `none` after the `break`. -/
def rbFixupBlackSibling (d : Dir) (cb : AugmentCb σ) (s : RbState σ) (parent : Addr) :
    Option (RbState σ × Option (Addr × Option Addr)) := do
  let sibling ← (s.mem parent).child d.opp
  if !s.isRed (s.mem sibling).rbLeft && !s.isRed (s.mem sibling).rbRight then
    let s := s.setColor sibling .red
    some (s, some (parent, (s.mem parent).rbParent))
  else
    let s ← rbFixupRotate d cb s parent sibling
    some (s, none)

/-- One iteration of `rb_erase_fixup` with the hole on side `d` of `parent`. -/
def rbEraseFixupStep (d : Dir) (cb : AugmentCb σ) (s : RbState σ) (parent : Addr) :
    Option (RbState σ × Option (Addr × Option Addr)) := do
  let s ← rbFixupRedSibling d cb s parent
  rbFixupBlackSibling d cb s parent

/-- The `while` loop of `rb_erase_fixup`; the result carries the node it ends at. -/
def rbEraseFixupLoop (cb : AugmentCb σ) :
    ℕ → RbState σ → Option Addr → Option Addr → Option (RbState σ × Option Addr)
  | 0, _, _, _ => none
  | fuel + 1, s, node, parent =>
    if s.isRed node || node == s.rbRoot then some (s, node)
    else do
      let parent ← parent
      let d := if (s.mem parent).rbLeft = node then Dir.left else Dir.right
      match ← rbEraseFixupStep d cb s parent with
      | (s, some (node, parent)) => rbEraseFixupLoop cb fuel s (some node) parent
      | (s, none) => some (s, s.rbRoot)

def rbEraseFixup (cb : AugmentCb σ) (fuel : ℕ) (s : RbState σ) (node parent : Option Addr) :
    Option (RbState σ) := do
  let (s, node) ← rbEraseFixupLoop cb fuel s node parent
  some (s.setColor? node .black)

/-- `while (n->rb_left) n = n->rb_left`. -/
def rbLeftmost (s : RbState σ) : ℕ → Addr → Option Addr
  | 0, _ => none
  | fuel + 1, n =>
    match (s.mem n).rbLeft with
    | none => some n
    | some l => rbLeftmost s fuel l

/-- `node` has at most one child, which takes its place. -/
def rbSpliceOut (s : RbState σ) (node : Addr) (child : Option Addr) : RbState σ :=
  let parent := (s.mem node).rbParent
  let s := rbReplaceLink .left s parent node child
  s.setParent? child parent

/-- What `rb_erase_augmented` keeps in `child`, `parent` and `color` for the fix-up. -/
structure Spliced (σ : Type) where
  s : RbState σ
  child : Option Addr
  parent : Option Addr
  color : Color

/-- The last stores of the two-children branch: `succ` is given the links, the children and the
colour of `node`. -/
def rbTakePlace (s : RbState σ) (node succ : Addr) (child : Option Addr) : RbState σ :=
  let s := rbReplaceLink .left s (s.mem node).rbParent node (some succ)
  let s := s.setParent succ (s.mem node).rbParent
  let s := s.setChild .left succ (s.mem node).rbLeft
  let s := s.setChild .right succ
    (if (s.mem node).rbRight = some succ then child else (s.mem node).rbRight)
  let s := s.setColor succ (s.mem node).rbColor
  let s := s.setParent? (s.mem node).rbLeft (some succ)
  if (s.mem node).rbRight = some succ then s else s.setParent? (s.mem node).rbRight (some succ)

/-- The branch of `rb_erase_augmented` for a node with two children: the successor
`node_to_remove` is cut out and moved to the place of `node`. -/
def rbSpliceSuccessor (fuel : ℕ) (s : RbState σ) (node right : Addr) : Option (Spliced σ) := do
  let succ ← rbLeftmost s fuel right
  let color := (s.mem succ).rbColor
  let child := (s.mem succ).rbRight
  let parent ← (s.mem succ).rbParent
  let s := s.setParent? child (some parent)
  if parent = node then
    some ⟨rbTakePlace s node succ child, child, some succ, color⟩
  else
    let s :=
      if (s.mem parent).rbLeft = some succ then s.setChild .left parent child
      else s.setChild .right parent child
    some ⟨rbTakePlace s node succ child, child, some parent, color⟩

/-- The three splice shapes of `rb_erase_augmented`. -/
def rbSplice (fuel : ℕ) (s : RbState σ) (node : Addr) : Option (Spliced σ) :=
  match (s.mem node).rbLeft, (s.mem node).rbRight with
  | none, child =>
    some ⟨rbSpliceOut s node child, child, (s.mem node).rbParent, (s.mem node).rbColor⟩
  | some left, none =>
    some ⟨rbSpliceOut s node (some left), some left, (s.mem node).rbParent, (s.mem node).rbColor⟩
  | some _, some right => rbSpliceSuccessor fuel s node right

/-- `while (p) { augment_cb(p); p = p->rb_parent; }`. -/
def rbAugmentUp (cb : AugmentCb σ) : ℕ → RbState σ → Option Addr → Option (RbState σ)
  | _, s, none => some s
  | 0, _, some _ => none
  | fuel + 1, s, some p => rbAugmentUp cb fuel (s.augment cb p) (s.mem p).rbParent

/-- `if (augment_cb) { … }`: the callback is run from `p` up to the root. -/
def rbAugmentFrom (cb : AugmentCb σ) (fuel : ℕ) (s : RbState σ) (p : Option Addr) :
    Option (RbState σ) :=
  match cb with
  | none => some s
  | some _ => rbAugmentUp cb fuel s p

def rbEraseAugmented (cb : AugmentCb σ) (fuel : ℕ) (s : RbState σ) (node : Addr) :
    Option (RbState σ) := do
  if s.rbRoot = none then some s
  else
    let sp ← rbSplice fuel s node
    let s ← rbAugmentFrom cb fuel sp.s sp.parent
    if sp.color = .black then rbEraseFixup cb fuel s sp.child sp.parent
    else some s

def rbErase (fuel : ℕ) (s : RbState σ) (node : Addr) : Option (RbState σ) :=
  rbEraseAugmented none fuel s node

end BoredOS.Core.RbTree
