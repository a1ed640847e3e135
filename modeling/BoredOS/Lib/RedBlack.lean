import Mathlib

/-!
# Red-Black Trees and their Contexts

A small library of coloured binary trees, written symmetrically: a node is built by
`CTree.mk d`, which names the child on side `d` first, so that every statement about a
rotation or a rebalancing step is proved once for both sides.

- `CTree.inorder`, `CTree.ptr` — the in-order sequence and the label at the root
- `CTree.RB t n` — no red node has a red child, every path has `n` black nodes
- `Frame`, `plug` — one-hole contexts, innermost frame first
- `CtxRB ctx n` — the context accepts every black-rooted tree of black height `n`
-/

namespace BoredOS.Lib.RedBlack

open List

variable {α : Type}

/-! ## Colours and sides -/

inductive Color where
  | red
  | black
  deriving DecidableEq, Repr

inductive Dir where
  | left
  | right
  deriving DecidableEq, Repr

/-- The other side. -/
def Dir.opp : Dir → Dir
  | .left => .right
  | .right => .left

@[simp] theorem Dir.opp_opp (d : Dir) : d.opp.opp = d := by cases d <;> rfl

variable {c : Color}

theorem Color.ne_red : c ≠ .red ↔ c = .black := by cases c <;> simp

theorem Color.ne_black : c ≠ .black ↔ c = .red := by cases c <;> simp

/-! ## Trees -/

inductive CTree (α : Type) where
  | leaf
  | node (c : Color) (l : CTree α) (x : α) (r : CTree α)
  deriving DecidableEq, Repr

variable {d : Dir} {n : ℕ}

namespace CTree

/-- The node whose child on side `d` is `near` and whose other child is `far`. -/
def mk : Dir → Color → CTree α → α → CTree α → CTree α
  | .left, c, near, x, far => .node c near x far
  | .right, c, near, x, far => .node c far x near

theorem mk_opp (d : Dir) (c : Color) (a b : CTree α) (x : α) : mk d.opp c a x b = mk d c b x a := by
  cases d <;> rfl

/-- Every tree is a leaf or a node read from side `d`. -/
theorem leaf_or_mk (d : Dir) (t : CTree α) : t = leaf ∨ ∃ c a x b, t = mk d c a x b := by
  cases t with
  | leaf => exact .inl rfl
  | node c l x r =>
    right
    cases d with
    | left => exact ⟨c, l, x, r, rfl⟩
    | right => exact ⟨c, r, x, l, rfl⟩

/-- The label at the root, `none` for a leaf. -/
def ptr : CTree α → Option α
  | leaf => none
  | node _ _ x _ => some x

@[simp] theorem ptr_leaf : (leaf : CTree α).ptr = none := rfl
@[simp] theorem ptr_node (c : Color) (l r : CTree α) (x : α) : (node c l x r).ptr = some x := rfl

@[simp] theorem ptr_mk (d : Dir) (c : Color) (a b : CTree α) (x : α) :
    (mk d c a x b).ptr = some x := by
  cases d <;> rfl

variable {t : CTree α}

theorem ptr_eq_none : t.ptr = none ↔ t = leaf := by
  cases t <;> simp

/-- The colour of the root; a leaf counts as black. -/
def color : CTree α → Color
  | leaf => .black
  | node c _ _ _ => c

@[simp] theorem color_leaf : (leaf : CTree α).color = .black := rfl
@[simp] theorem color_node (c : Color) (l r : CTree α) (x : α) : (node c l x r).color = c := rfl

@[simp] theorem color_mk (d : Dir) (c : Color) (a b : CTree α) (x : α) :
    (mk d c a x b).color = c := by
  cases d <;> rfl

/-- The labels from left to right. -/
def inorder : CTree α → List α
  | leaf => []
  | node _ l x r => l.inorder ++ x :: r.inorder

@[simp] theorem inorder_leaf : (leaf : CTree α).inorder = [] := rfl
@[simp] theorem inorder_node (c : Color) (l r : CTree α) (x : α) :
    (node c l x r).inorder = l.inorder ++ x :: r.inorder := rfl

variable {x : α}

theorem mem_inorder_of_ptr (h : t.ptr = some x) : x ∈ t.inorder := by
  cases t with
  | leaf => simp at h
  | node =>
    simp only [ptr_node, Option.some.injEq] at h
    simp [inorder, h]

variable {a b : CTree α}

theorem mem_inorder_mk {x y : α} :
    y ∈ (mk d c a x b).inorder ↔ y = x ∨ y ∈ a.inorder ∨ y ∈ b.inorder := by
  cases d <;> simp [mk] <;> tauto

theorem inorder_rotate (d : Dir) (c₁ c₂ c₃ c₄ : Color) (a b e : CTree α) (x y : α) :
    (mk d c₁ (mk d c₂ a x b) y e).inorder = (mk d c₃ a x (mk d c₄ b y e)).inorder := by
  cases d <;> simp [mk]

theorem nodup_inorder_mk : (mk d c a x b).inorder.Nodup ↔
      (x ∉ a.inorder ∧ x ∉ b.inorder) ∧ a.inorder.Nodup ∧ b.inorder.Nodup ∧
        ∀ y ∈ a.inorder, y ∉ b.inorder := by
  cases d <;>
    simp only [mk, inorder_node, nodup_append, nodup_cons, mem_cons] <;>
    grind

theorem inorder_mk_congr (d : Dir) (c c' : Color) {a a' b b' : CTree α} (x : α)
    (ha : a.inorder = a'.inorder) (hb : b.inorder = b'.inorder) :
    (mk d c a x b).inorder = (mk d c' a' x b').inorder := by
  cases d <;> simp [mk, ha, hb]

/-! ## The red-black invariant -/

/-- No red node has a red child and every path to a leaf meets `n` black nodes. -/
def RB : CTree α → ℕ → Prop
  | leaf, n => n = 0
  | node .red l _ r, n => l.color = .black ∧ r.color = .black ∧ RB l n ∧ RB r n
  | node .black l _ r, n => ∃ m, n = m + 1 ∧ RB l m ∧ RB r m

@[simp] theorem rb_leaf : (leaf : CTree α).RB n ↔ n = 0 := .rfl

variable {a b : CTree α}

theorem rb_mk_red :
    (mk d .red a x b).RB n ↔ a.color = .black ∧ b.color = .black ∧ a.RB n ∧ b.RB n := by
  cases d
  · simp [mk, RB]
  · simp only [mk, RB]
    tauto

theorem rb_mk_black : (mk d .black a x b).RB n ↔ ∃ m, n = m + 1 ∧ a.RB m ∧ b.RB m := by
  cases d
  · simp [mk, RB]
  · constructor
    · rintro ⟨m, hn, hb, ha⟩
      exact ⟨m, hn, ha, hb⟩
    · rintro ⟨m, hn, ha, hb⟩
      exact ⟨m, hn, hb, ha⟩

/-- Whatever its colour, the two subtrees of a red-black node are red-black. -/
theorem RB.children (h : (mk d c a x b).RB n) : ∃ m, a.RB m ∧ b.RB m := by
  cases c with
  | red => exact ⟨n, (rb_mk_red.mp h).2.2⟩
  | black =>
    obtain ⟨m, _, hab⟩ := rb_mk_black.mp h
    exact ⟨m, hab⟩

theorem RB.exists_mk (d : Dir) (h : t.RB (n + 1)) : ∃ c a x b, t = mk d c a x b := by
  rcases leaf_or_mk d t with rfl | hmk
  · exact absurd h (by simp)
  · exact hmk

/-- A whole tree: red-black, with a black root. -/
def IsRB (t : CTree α) : Prop := (∃ n, t.RB n) ∧ t.color = .black

/-- The tree with its root painted black. -/
def blacken : CTree α → CTree α
  | leaf => leaf
  | node _ l x r => node .black l x r

@[simp] theorem blacken_mk (d : Dir) (c : Color) (a b : CTree α) (x : α) :
    (mk d c a x b).blacken = mk d .black a x b := by
  cases d <;> rfl

theorem blacken_eq_self (h : t.color = .black) : t.blacken = t := by
  cases t with
  | leaf => rfl
  | node =>
    simp only [color_node] at h
    rw [h]
    rfl

@[simp] theorem inorder_blacken (t : CTree α) : t.blacken.inorder = t.inorder := by
  cases t <;> rfl

/-- Painting the root of a red-black tree black makes it a whole tree. -/
theorem RB.isRB_blacken (h : t.RB n) : t.blacken.IsRB := by
  rcases leaf_or_mk .left t with rfl | ⟨c, a, x, b, rfl⟩
  · exact ⟨⟨n, h⟩, rfl⟩
  · obtain ⟨m, ha, hb⟩ := h.children
    rw [blacken_mk]
    exact ⟨⟨m + 1, rb_mk_black.mpr ⟨m, rfl, ha, hb⟩⟩, color_mk ..⟩

/-- `Q` holds at every node, of its label and the labels of the subtree below it. -/
def Ann (Q : α → List α → Prop) : CTree α → Prop
  | leaf => True
  | node c l x r => Q x (node c l x r).inorder ∧ l.Ann Q ∧ r.Ann Q

variable {Q : α → List α → Prop}

@[simp] theorem ann_leaf : (leaf : CTree α).Ann Q := trivial

theorem ann_mk : (mk d c a x b).Ann Q ↔ Q x (mk d c a x b).inorder ∧ a.Ann Q ∧ b.Ann Q := by
  cases d with
  | left => exact .rfl
  | right =>
    show Q x _ ∧ b.Ann Q ∧ a.Ann Q ↔ Q x _ ∧ a.Ann Q ∧ b.Ann Q
    tauto

/-- Only the labels of the tree are looked at. -/
theorem Ann.imp {Q Q' : α → List α → Prop} (h : t.Ann Q)
    (hQ : ∀ x ∈ t.inorder, ∀ xs, (∀ z ∈ xs, z ∈ t.inorder) → Q x xs → Q' x xs) : t.Ann Q' := by
  induction t with
  | leaf => trivial
  | node c l x r ihl ihr =>
    obtain ⟨hx, hl, hr⟩ := h
    have hsubl : ∀ z ∈ l.inorder, z ∈ (node c l x r).inorder := fun z hz => by simp [hz]
    have hsubr : ∀ z ∈ r.inorder, z ∈ (node c l x r).inorder := fun z hz => by simp [hz]
    refine ⟨hQ x (by simp) _ (fun z hz => hz) hx, ihl hl ?_, ihr hr ?_⟩
    · exact fun y hy xs hxs => hQ y (hsubl y hy) xs fun z hz => hsubl z (hxs z hz)
    · exact fun y hy xs hxs => hQ y (hsubr y hy) xs fun z hz => hsubr z (hxs z hz)

end CTree

/-! ## Contexts -/

/-- One step of a context: the hole is the child of `x` on side `side`. -/
structure Frame (α : Type) where
  side : Dir
  c : Color
  x : α
  sib : CTree α
  deriving DecidableEq

namespace Frame

/-- Fill the hole of a single frame. -/
def fill (f : Frame α) (t : CTree α) : CTree α := CTree.mk f.side f.c t f.x f.sib

variable (f : Frame α)

@[simp] theorem ptr_fill (t : CTree α) : (f.fill t).ptr = some f.x := by
  simp [fill]

/-- The part of the in-order sequence that the frame puts before its hole. -/
def before (f : Frame α) : List α :=
  match f.side with
  | .left => []
  | .right => f.sib.inorder ++ [f.x]

/-- The part of the in-order sequence that the frame puts after its hole. -/
def after (f : Frame α) : List α :=
  match f.side with
  | .left => f.x :: f.sib.inorder
  | .right => []

theorem inorder_fill (t : CTree α) : (f.fill t).inorder = f.before ++ t.inorder ++ f.after := by
  obtain ⟨d, c, x, sib⟩ := f
  cases d <;> simp [fill, before, after, CTree.mk]

end Frame

/-- Fill the hole of a context, innermost frame first. -/
def plug : List (Frame α) → CTree α → CTree α
  | [], t => t
  | f :: fs, t => plug fs (f.fill t)

@[simp] theorem plug_nil (t : CTree α) : plug [] t = t := rfl
@[simp] theorem plug_cons (fs : List (Frame α)) (t : CTree α) :
    plug (f :: fs) t = plug fs (f.fill t) := rfl

theorem plug_append (fs gs : List (Frame α)) (t : CTree α) :
    plug (fs ++ gs) t = plug gs (plug fs t) := by
  induction fs generalizing t with
  | nil => rfl
  | cons f fs ih => simp [ih]

/-- The label of the innermost frame: the parent of the hole. -/
def parOf (ctx : List (Frame α)) : Option α := ctx.head?.map Frame.x

@[simp] theorem parOf_nil : parOf ([] : List (Frame α)) = none := rfl
@[simp] theorem parOf_cons (fs : List (Frame α)) : parOf (f :: fs) = some f.x := rfl

/-- The colour of the innermost frame. -/
def headColor (ctx : List (Frame α)) : Option Color := ctx.head?.map Frame.c

@[simp] theorem headColor_nil : headColor ([] : List (Frame α)) = none := rfl
@[simp] theorem headColor_cons (fs : List (Frame α)) :
    headColor (f :: fs) = some f.c := rfl

/-- The in-order sequence to the left of the hole. -/
def ctxBefore : List (Frame α) → List α
  | [] => []
  | f :: fs => ctxBefore fs ++ f.before

/-- The in-order sequence to the right of the hole. -/
def ctxAfter : List (Frame α) → List α
  | [] => []
  | f :: fs => f.after ++ ctxAfter fs

theorem inorder_plug (ctx : List (Frame α)) (t : CTree α) :
    (plug ctx t).inorder = ctxBefore ctx ++ t.inorder ++ ctxAfter ctx := by
  induction ctx generalizing t with
  | nil => simp [ctxBefore, ctxAfter]
  | cons f fs ih => simp [ih, Frame.inorder_fill, ctxBefore, ctxAfter]

/-- Two fillings with the same sequence give whole trees with the same sequence. -/
theorem inorder_plug_congr (ctx : List (Frame α)) {t t' : CTree α}
    (h : t.inorder = t'.inorder) : (plug ctx t).inorder = (plug ctx t').inorder := by
  rw [inorder_plug, inorder_plug, h]

/-- Every label of a tree has a subtree below it and a context around it. -/
theorem exists_plug_of_mem (hx : x ∈ t.inorder) : ∃ ctx c l r, t = plug ctx (.node c l x r) := by
  induction t with
  | leaf => simp at hx
  | node c l y r ihl ihr =>
    simp only [CTree.inorder_node, mem_append, mem_cons] at hx
    rcases hx with hl | rfl | hr
    · obtain ⟨ctx, c', l', r', rfl⟩ := ihl hl
      exact ⟨ctx ++ [⟨.left, c, y, r⟩], c', l', r', by simp [plug_append, Frame.fill, CTree.mk]⟩
    · exact ⟨[], c, l, r, rfl⟩
    · obtain ⟨ctx, c', l', r', rfl⟩ := ihr hr
      exact ⟨ctx ++ [⟨.right, c, y, l⟩], c', l', r', by simp [plug_append, Frame.fill, CTree.mk]⟩

/-- The context accepts black-rooted trees of black height `n`, and its outermost node is black. -/
def CtxRB : List (Frame α) → ℕ → Prop
  | [], _ => True
  | f :: fs, n =>
    f.sib.RB n ∧ match f.c with
      | .red => f.sib.color = .black ∧ headColor fs = some .black ∧ CtxRB fs n
      | .black => CtxRB fs (n + 1)

@[simp] theorem ctxRB_nil : CtxRB ([] : List (Frame α)) n := trivial

variable {fs : List (Frame α)}

theorem ctxRB_red {sib : CTree α} :
    CtxRB (⟨d, .red, x, sib⟩ :: fs) n ↔
      sib.RB n ∧ sib.color = .black ∧ headColor fs = some .black ∧ CtxRB fs n := .rfl

theorem ctxRB_black {sib : CTree α} :
    CtxRB (⟨d, .black, x, sib⟩ :: fs) n ↔ sib.RB n ∧ CtxRB fs (n + 1) := .rfl

variable {ctx : List (Frame α)}

/-- A whole tree splits at any hole into an accepting context and a red-black subtree that is
black-rooted unless its parent is black. -/
theorem isRB_plug : (plug ctx t).IsRB ↔
      ∃ n, CtxRB ctx n ∧ t.RB n ∧ (headColor ctx ≠ some .black → t.color = .black) := by
  induction ctx generalizing t with
  | nil => simp [CTree.IsRB]
  | cons f fs ih =>
    obtain ⟨d, c, x, sib⟩ := f
    rw [plug_cons, ih]
    cases c with
    | red =>
      simp only [Frame.fill, CTree.rb_mk_red, CTree.color_mk, ctxRB_red, headColor_cons]
      constructor
      · rintro ⟨n, hctx, ⟨ht, hs, htn, hsn⟩, hhead⟩
        -- a red frame has a black one above it
        have hb : headColor fs = some .black := by
          by_contra hne
          exact absurd (hhead hne) (by simp)
        exact ⟨n, ⟨hsn, hs, hb, hctx⟩, htn, fun _ => ht⟩
      · rintro ⟨n, ⟨hsn, hs, hb, hctx⟩, htn, ht⟩
        exact ⟨n, hctx, ⟨ht (by simp), hs, htn, hsn⟩, fun hne => absurd hb hne⟩
    | black =>
      simp only [Frame.fill, CTree.rb_mk_black, CTree.color_mk, ctxRB_black, headColor_cons]
      constructor
      · rintro ⟨n, hctx, ⟨m, rfl, htm, hsm⟩, -⟩
        exact ⟨m, ⟨hsm, hctx⟩, htm, fun hne => absurd rfl hne⟩
      · rintro ⟨m, ⟨hsm, hctx⟩, htm, -⟩
        exact ⟨m + 1, hctx, ⟨m, rfl, htm, hsm⟩, fun _ => trivial⟩

/-- The labels of a context are not looked at. -/
theorem ctxRB_relabel {fs gs : List (Frame α)} {sib : CTree α}
    (x y : α) : CtxRB (fs ++ ⟨d, c, x, sib⟩ :: gs) n → CtxRB (fs ++ ⟨d, c, y, sib⟩ :: gs) n := by
  induction fs generalizing n with
  | nil => exact id
  | cons f fs ih =>
    rintro ⟨hsib, hrest⟩
    refine ⟨hsib, ?_⟩
    -- a frame above sees colours only
    have hhead : headColor (fs ++ ⟨d, c, x, sib⟩ :: gs) =
        headColor (fs ++ ⟨d, c, y, sib⟩ :: gs) := by
      cases fs <;> rfl
    cases hc : f.c with
    | red =>
      simp only [hc] at hrest
      exact ⟨hrest.1, hhead ▸ hrest.2.1, ih hrest.2.2⟩
    | black =>
      simp only [hc] at hrest
      exact ih hrest

/-- `Q` holds along a context around a hole with the labels `xs`. -/
def CtxAnn (Q : α → List α → Prop) : List (Frame α) → List α → Prop
  | [], _ => True
  | f :: fs, xs =>
    Q f.x (f.before ++ xs ++ f.after) ∧ f.sib.Ann Q ∧ CtxAnn Q fs (f.before ++ xs ++ f.after)

variable {Q : α → List α → Prop}

theorem ann_plug : (plug ctx t).Ann Q ↔ t.Ann Q ∧ CtxAnn Q ctx t.inorder := by
  induction ctx generalizing t with
  | nil => simp [CtxAnn]
  | cons f fs ih =>
    have hfill := f.inorder_fill t
    rw [plug_cons, ih, hfill, CtxAnn, ← hfill, Frame.fill, CTree.ann_mk]
    tauto

/-- What holds along a context holds in the subtrees that hang off it. -/
theorem CtxAnn.sib {xs : List α} (h : CtxAnn Q ctx xs) : ∀ f ∈ ctx, f.sib.Ann Q := by
  induction ctx generalizing xs with
  | nil => simp
  | cons g gs ih =>
    obtain ⟨-, hsib, hgs⟩ := h
    intro f hf
    rcases mem_cons.mp hf with rfl | hf
    · exact hsib
    · exact ih hgs f hf

/-- A path is no longer than the sequence of labels. -/
theorem length_ctx_le (ctx : List (Frame α)) (t : CTree α) :
    ctx.length + t.inorder.length ≤ (plug ctx t).inorder.length := by
  induction ctx generalizing t with
  | nil => simp
  | cons f fs ih =>
    have hfill := ih (f.fill t)
    have hlen : t.inorder.length + 1 ≤ (f.fill t).inorder.length := by
      obtain ⟨d, c, x, sib⟩ := f
      cases d <;> simp [Frame.fill, CTree.mk]
    simp only [plug_cons, length_cons]
    omega

end BoredOS.Lib.RedBlack
