import BoredOS.Core.RbTree.Model

/-!
# Memory Representation of a Red-Black Tree

`Represents s t` says that the nodes reachable from the root pointer of `s` are laid out exactly
as the tree `t`: child pointers, colours and parent pointers. `Rep s ctx t` is the same statement
read at a hole: the context `ctx` and the subtree `t` in it. Each pointer operation of the model
gets one specification here, over `Rep`, and the algorithms above use these and no memory.
-/

namespace BoredOS.Core.RbTree

open Lib.RedBlack List Option Frame
open CTree (mem_inorder_mk mem_inorder_of_ptr mk_opp nodup_inorder_mk ptr_mk)

variable {σ : Type}

/-! ## Stores -/

section

variable (s : RbState σ) (p : Addr) (g : RbNode → RbNode)

include s p g

@[simp] theorem modify_root : (s.modify p g).rbRoot = s.rbRoot := rfl

@[simp] theorem modify_aux : (s.modify p g).aux = s.aux := rfl

@[simp] theorem modify_self : (s.modify p g).mem p = g (s.mem p) := by
  simp [RbState.modify]

end

variable {p y : Addr} {par : Option Addr}

theorem modify_of_ne (s : RbState σ) {q : Addr} (g : RbNode → RbNode) (h : q ≠ p) :
    (s.modify p g).mem q = s.mem q := by
  simp [RbState.modify, h]

/-! ## Node contents read from a side -/

/-- The node contents whose side-`d` child is `near` and whose other child is `far`. -/
def cellOf (d : Dir) (par near far : Option Addr) (c : Color) : RbNode :=
  match d with
  | .left => ⟨par, near, far, c⟩
  | .right => ⟨par, far, near, c⟩

section

variable (d : Dir) (par near far q : Option Addr) (c c' : Color)

@[simp] theorem cellOf_parent : (cellOf d par near far c).rbParent = par := by cases d <;> rfl
@[simp] theorem cellOf_color : (cellOf d par near far c).rbColor = c := by cases d <;> rfl
@[simp] theorem cellOf_child : (cellOf d par near far c).child d = near := by cases d <;> rfl
@[simp] theorem cellOf_child_opp : (cellOf d par near far c).child d.opp = far := by
  cases d <;> rfl

@[simp] theorem cellOf_setChild :
    (cellOf d par near far c).setChild d q = cellOf d par q far c := by cases d <;> rfl

@[simp] theorem cellOf_setChild_opp :
    (cellOf d par near far c).setChild d.opp q = cellOf d par near q c := by cases d <;> rfl

@[simp] theorem cellOf_setParent :
    (cellOf d par near far c).setParent q = cellOf d q near far c := by cases d <;> rfl

@[simp] theorem cellOf_setColor :
    (cellOf d par near far c).setColor c' = cellOf d par near far c' := by cases d <;> rfl

end

/-! ## Layout of trees and contexts -/

/-- The address and the contents of every node of a tree hanging below `par`. -/
def treeCells (par : Option Addr) : CTree Addr → List (Addr × RbNode)
  | .leaf => []
  | .node c l x r => (x, ⟨par, l.ptr, r.ptr, c⟩) :: (treeCells (some x) l ++ treeCells (some x) r)

@[simp] theorem treeCells_leaf (par : Option Addr) : treeCells par .leaf = [] := rfl

variable {x a : Addr} {e : Addr × RbNode} {t A B E : CTree Addr} {f : Frame Addr}
  {fs ctx : List (Frame Addr)} {q : Option Addr} {s : RbState σ} {cx cy : Color}

theorem mem_treeCells_mk {d : Dir} {c : Color} {a b : CTree Addr} :
    e ∈ treeCells par (CTree.mk d c a x b) ↔
      e = (x, cellOf d par a.ptr b.ptr c) ∨ e ∈ treeCells (some x) a ∨
        e ∈ treeCells (some x) b := by
  cases d with
  | left => simp [CTree.mk, treeCells, cellOf]
  | right =>
    simp only [CTree.mk, treeCells, cellOf, mem_cons, mem_append]
    tauto

/-- A cell of a subtree is the cell of one of its nodes. -/
theorem fst_mem_of_mem_treeCells (h : e ∈ treeCells par t) : e.1 ∈ t.inorder := by
  induction t generalizing par with
  | leaf => simp at h
  | node c l x r ihl ihr =>
    simp only [treeCells, mem_cons, mem_append] at h
    simp only [CTree.inorder_node, mem_append, mem_cons]
    rcases h with rfl | hl | hr
    · exact .inr (.inl rfl)
    · exact .inl (ihl hl)
    · exact .inr (.inr (ihr hr))

/-- The nodes of a context whose hole holds the pointer `q`. -/
def ctxCells : List (Frame Addr) → Option Addr → List (Addr × RbNode)
  | [], _ => []
  | f :: fs, q =>
    (f.x, cellOf f.side (parOf fs) q f.sib.ptr f.c) ::
      (treeCells (some f.x) f.sib ++ ctxCells fs (some f.x))

def ctxIds (ctx : List (Frame Addr)) : List Addr := ctxBefore ctx ++ ctxAfter ctx

theorem mem_ctxIds_cons : a ∈ ctxIds (f :: fs) ↔ a = f.x ∨ a ∈ f.sib.inorder ∨ a ∈ ctxIds fs := by
  obtain ⟨d, c, x, sib⟩ := f
  cases d <;> simp [ctxIds, ctxBefore, ctxAfter, Frame.before, Frame.after] <;> tauto

theorem mem_ctxIds_append {gs : List (Frame Addr)} :
    a ∈ ctxIds (fs ++ gs) ↔ a ∈ ctxIds fs ∨ a ∈ ctxIds gs := by
  induction fs with
  | nil => simp [ctxIds, ctxBefore, ctxAfter]
  | cons f fs ih =>
    rw [cons_append, mem_ctxIds_cons, mem_ctxIds_cons, ih]
    tauto

theorem mem_ctxIds_of_mem_sib (hf : f ∈ ctx) (ha : a ∈ f.sib.inorder) : a ∈ ctxIds ctx := by
  obtain ⟨u, v, rfl⟩ := append_of_mem hf
  exact mem_ctxIds_append.mpr (.inr (mem_ctxIds_cons.mpr (.inr (.inl ha))))

/-- The nodes of a tree are those in focus and those of the context. -/
theorem mem_inorder_plug : a ∈ (plug ctx t).inorder ↔ a ∈ t.inorder ∨ a ∈ ctxIds ctx := by
  simp only [inorder_plug, ctxIds, mem_append]
  tauto

/-- A cell of a context is the cell of one of its nodes. -/
theorem fst_mem_of_mem_ctxCells (h : e ∈ ctxCells ctx q) : e.1 ∈ ctxIds ctx := by
  induction ctx generalizing q with
  | nil => simp [ctxCells] at h
  | cons f fs ih =>
    simp only [ctxCells, mem_cons, mem_append] at h
    rw [mem_ctxIds_cons]
    rcases h with rfl | hsib | hfs
    · exact .inl rfl
    · exact .inr (.inl (fst_mem_of_mem_treeCells hsib))
    · exact .inr (.inr (ih hfs))

/-- The layout of a plugged tree is the layout of the context and that of the subtree. -/
theorem mem_treeCells_plug :
    e ∈ treeCells none (plug ctx t) ↔ e ∈ ctxCells ctx t.ptr ∨ e ∈ treeCells (parOf ctx) t := by
  induction ctx generalizing t with
  | nil => simp [ctxCells]
  | cons f fs ih =>
    rw [plug_cons, ih, fill, mem_treeCells_mk]
    simp only [ctxCells, mem_cons, mem_append, parOf_cons, ptr_mk]
    tauto

/-- The root pointer of a context whose hole holds `q`. -/
def rootOf : List (Frame Addr) → Option Addr → Option Addr
  | [], q => q
  | f :: fs, _ => rootOf fs (some f.x)

/-- `rb_root` points to the focus if the context is empty, and to its last frame otherwise. -/
theorem ptr_plug (ctx : List (Frame Addr)) (t : CTree Addr) : (plug ctx t).ptr = rootOf ctx t.ptr :=
    by
  induction ctx generalizing t with
  | nil => rfl
  | cons f fs ih => simp [ih, rootOf]

/-- Below a frame the root is a node of the context. -/
theorem rootOf_mem_ctxIds (f : Frame Addr) (fs : List (Frame Addr)) (q : Option Addr) :
    ∃ r, rootOf (f :: fs) q = some r ∧ r ∈ ctxIds (f :: fs) := by
  induction fs generalizing f q with
  | nil => exact ⟨f.x, rfl, mem_ctxIds_cons.mpr (.inl rfl)⟩
  | cons g fs ih =>
    obtain ⟨r, hr, hmem⟩ := ih g (some f.x)
    exact ⟨r, hr, mem_ctxIds_cons.mpr (.inr (.inr hmem))⟩

/-- The addresses of a context and of the tree in its hole. -/
theorem nodup_plug : (plug ctx t).inorder.Nodup ↔
      (ctxIds ctx).Nodup ∧ t.inorder.Nodup ∧ ∀ a ∈ t.inorder, a ∉ ctxIds ctx := by
  rw [inorder_plug, ctxIds]
  simp only [nodup_append, mem_append]
  constructor
  · rintro ⟨⟨hb, ht, hbt⟩, ha, hta⟩
    refine ⟨⟨hb, ha, fun a hab b hbb => hta a (.inl hab) b hbb⟩, ht, ?_⟩
    rintro a hat (hab | haa)
    · exact hbt a hab a hat rfl
    · exact hta a (.inr hat) a haa rfl
  · rintro ⟨⟨hb, ha, hba⟩, ht, hdisj⟩
    refine ⟨⟨hb, ht, ?_⟩, ha, ?_⟩
    · intro a hab b hbt hEq
      exact hdisj b hbt (.inl (hEq ▸ hab))
    · rintro a (hab | hat) b hbb hEq
      · exact hba a hab b hbb hEq
      · exact hdisj a hat (.inr (hEq ▸ hbb))

/-! ## The representation predicates -/

/-- The nodes below the root pointer are laid out as `t`, all at different addresses. -/
structure Represents (s : RbState σ) (t : CTree Addr) : Prop where
  root : s.rbRoot = t.ptr
  nodup : t.inorder.Nodup
  cells : ∀ e ∈ treeCells none t, s.mem e.1 = e.2

/-- The state is laid out as the subtree `t` in the context `ctx`. -/
structure Rep (s : RbState σ) (ctx : List (Frame Addr)) (t : CTree Addr) : Prop where
  root : s.rbRoot = rootOf ctx t.ptr
  nodup : (plug ctx t).inorder.Nodup
  ctxMem : ∀ e ∈ ctxCells ctx t.ptr, s.mem e.1 = e.2
  subMem : ∀ e ∈ treeCells (parOf ctx) t, s.mem e.1 = e.2

/-- A focus is only a way to look at the tree. -/
theorem rep_iff : Rep s ctx t ↔ Represents s (plug ctx t) := by
  constructor
  · intro h
    refine ⟨by rw [ptr_plug]; exact h.root, h.nodup, fun e he => ?_⟩
    rcases mem_treeCells_plug.mp he with hctx | hsub
    · exact h.ctxMem e hctx
    · exact h.subMem e hsub
  · intro h
    exact ⟨by rw [← ptr_plug]; exact h.root, h.nodup,
      fun e he => h.cells e (mem_treeCells_plug.mpr (.inl he)),
      fun e he => h.cells e (mem_treeCells_plug.mpr (.inr he))⟩

/-- Moving the focus one frame up or down changes nothing. -/
theorem rep_cons : Rep s (f :: fs) t ↔ Rep s fs (f.fill t) := by
  rw [rep_iff, rep_iff, plug_cons]

/-- A node of the layout, with the context it stands in. -/
theorem Represents.split {T : CTree Addr} (h : Represents s T)
    (hx : x ∈ T.inorder) (d : Dir) : ∃ ctx c a b, T = plug ctx (CTree.mk d c a x b) ∧
      Rep s ctx (CTree.mk d c a x b) := by
  obtain ⟨ctx, c, l, r, rfl⟩ := exists_plug_of_mem hx
  have hrep : Rep s ctx (.node c l x r) := rep_iff.mpr h
  cases d with
  | left => exact ⟨ctx, c, l, r, rfl, hrep⟩
  | right => exact ⟨ctx, c, r, l, rfl, hrep⟩

section

variable {s s' : RbState σ} {ctx fs : List (Frame Addr)} {f : Frame Addr} {t t' : CTree Addr}
  {d : Dir} {c : Color} {a b : CTree Addr} {x : Addr}

variable (h : Rep s ctx (CTree.mk d c a x b))

include h in
theorem Rep.mem_mk : s.mem x = cellOf d (parOf ctx) a.ptr b.ptr c :=
  h.subMem (x, _) (mem_treeCells_mk.mpr (.inl rfl))

theorem Rep.mem_parent (h : Rep s (f :: fs) t) :
    s.mem f.x = cellOf f.side (parOf fs) t.ptr f.sib.ptr f.c :=
  h.ctxMem (f.x, _) mem_cons_self

include h in
theorem Rep.focus_near : Rep s (⟨d, c, x, b⟩ :: ctx) a :=
  rep_cons.mpr h

include h in
theorem Rep.focus_far : Rep s (⟨d.opp, c, x, a⟩ :: ctx) b :=
  rep_cons.mpr (by rw [fill, mk_opp]; exact h)

theorem Rep.up_near (h : Rep s (⟨d, c, x, b⟩ :: ctx) a) : Rep s ctx (CTree.mk d c a x b) :=
  rep_cons.mp h

theorem Rep.focus_right (h : Rep s ctx (.node c a x b)) : Rep s (⟨.right, c, x, a⟩ :: ctx) b :=
  rep_cons.mpr h

theorem rep_append : Rep s (ctx ++ fs) t ↔ Rep s fs (plug ctx t) := by
  rw [rep_iff, rep_iff, plug_append]

/-- The colour test of the C code reads the colour of the subtree. -/
theorem Rep.isRed_eq (h : Rep s ctx t) : s.isRed t.ptr = (t.color == .red) := by
  rcases CTree.leaf_or_mk .left t with rfl | ⟨c, a, x, b, rfl⟩
  · rfl
  · simp [RbState.isRed, h.mem_mk]

theorem Rep.not_mem_ctx (h : Rep s ctx t) (hp : p ∈ t.inorder) : p ∉ ctxIds ctx :=
  (nodup_plug.mp h.nodup).2.2 p hp

theorem Rep.sub_nodup (h : Rep s ctx t) : t.inorder.Nodup := (nodup_plug.mp h.nodup).2.1

theorem Rep.parent_not_mem (h : Rep s (f :: fs) t) : f.x ∉ t.inorder := fun hmem =>
  h.not_mem_ctx hmem (mem_ctxIds_cons.mpr (.inl rfl))

/-- `s'` differs from `s` at the hole of the context only: the link there now holds `q`. -/
def LinkSet (ctx : List (Frame Addr)) (q : Option Addr) (s s' : RbState σ) : Prop :=
  match ctx with
  | [] => s'.rbRoot = q
  | f :: fs =>
    s'.rbRoot = s.rbRoot ∧ s'.mem f.x = (s.mem f.x).setChild f.side q ∧
      ∀ p ∈ ctxIds (f :: fs), p ≠ f.x → s'.mem p = s.mem p

/-- Replacing the subtree in focus: the link at the hole, the rest of the context and the nodes of
the new subtree are all there is to check. -/
theorem Rep.replace (h : Rep s ctx t) (hnodup : (plug ctx t').inorder.Nodup)
    (hlink : LinkSet ctx t'.ptr s s')
    (hsub : ∀ e ∈ treeCells (parOf ctx) t', s'.mem e.1 = e.2) : Rep s' ctx t' := by
  cases ctx with
  | nil => exact ⟨hlink, hnodup, fun e he => by simp [ctxCells] at he, hsub⟩
  | cons f fs =>
    obtain ⟨hroot, hpar, hrest⟩ := hlink
    refine ⟨hroot.trans h.root, hnodup, fun e he => ?_, hsub⟩
    simp only [ctxCells, mem_cons] at he
    rcases he with rfl | he
    · rw [hpar, h.mem_parent, cellOf_setChild]
    · -- the other nodes of the context are at other addresses
      have hmem : e.1 ∈ f.sib.inorder ∨ e.1 ∈ ctxIds fs := by
        rcases mem_append.mp he with hsib | hfs
        · exact .inl (fst_mem_of_mem_treeCells hsib)
        · exact .inr (fst_mem_of_mem_ctxCells hfs)
      have hne : e.1 ≠ f.x := by
        have hnd := (nodup_plug.mp h.nodup).1
        intro hEq
        obtain ⟨d, c, x, sib⟩ := f
        cases d <;>
          simp only [ctxIds, ctxBefore, ctxAfter, Frame.before, Frame.after, append_nil,
            nil_append, nodup_append, nodup_cons, mem_append, mem_cons,
            cons_append] at hnd hmem hEq <;>
          grind
      rw [hrest e.1 (mem_ctxIds_cons.mpr (.inr hmem)) hne]
      exact h.ctxMem e (by simp [ctxCells, mem_append.mp he])

/-- The link test of the C code finds the side of the hole. -/
theorem Rep.child_eq_iff (h : Rep s (f :: fs) t) (hx : t.ptr = some x) (d : Dir) :
    (s.mem f.x).child d = some x ↔ f.side = d := by
  rw [h.mem_parent]
  by_cases hd : f.side = d
  · subst hd
    simp [hx]
  · have hopp : d = f.side.opp := by
      cases d <;> cases hs : f.side <;> simp_all [Dir.opp]
    subst hopp
    simp only [cellOf_child_opp, hd, iff_false]
    intro hsib
    -- the sibling would share an address with the subtree
    exact h.not_mem_ctx (mem_inorder_of_ptr hx)
      (mem_ctxIds_cons.mpr (.inr (.inl (mem_inorder_of_ptr hsib))))

include h in
/-- A change of the colour of the node in focus. -/
theorem Rep.setColor (c' : Color) : Rep (s.setColor x c') ctx (CTree.mk d c' a x b) := by
  have hx : x ∈ (CTree.mk d c a x b).inorder := mem_inorder_mk.mpr (.inl rfl)
  have hnd : (plug ctx (CTree.mk d c' a x b)).inorder.Nodup := by
    rw [inorder_plug_congr ctx (CTree.inorder_mk_congr d c' c x rfl rfl)]
    exact h.nodup
  refine ⟨by simpa using h.root, hnd, fun e he => ?_, fun e he => ?_⟩
  · rw [ptr_mk] at he
    have hne : e.1 ≠ x := fun hEq => h.not_mem_ctx hx (hEq ▸ fst_mem_of_mem_ctxCells he)
    rw [modify_of_ne s _ hne]
    exact h.ctxMem e (by simpa using he)
  · rcases mem_treeCells_mk.mp he with rfl | hab
    · simp [h.mem_mk]
    · have hne : e.1 ≠ x := by
        intro hEq
        obtain ⟨⟨hxa, hxb⟩, -⟩ := nodup_inorder_mk.mp h.sub_nodup
        rcases hab with hea | heb
        · exact hxa (hEq ▸ fst_mem_of_mem_treeCells hea)
        · exact hxb (hEq ▸ fst_mem_of_mem_treeCells heb)
      rw [modify_of_ne s _ hne]
      exact h.subMem e (mem_treeCells_mk.mpr (.inr hab))

/-- The subtree's root cell, when its parent pointer is changed from `p` to `q`. -/
theorem treeCells_reparent {p : Option Addr} (he : e ∈ treeCells q t) :
    (t.ptr = some e.1 ∧ ∃ n, (e.1, n) ∈ treeCells p t ∧ e.2 = n.setParent q) ∨
      (e ∈ treeCells p t ∧ (t.inorder.Nodup → t.ptr ≠ some e.1)) := by
  cases t with
  | leaf => simp at he
  | node c l x r =>
    simp only [treeCells, mem_cons] at he ⊢
    rcases he with rfl | he
    · exact .inl ⟨rfl, _, .inl rfl, rfl⟩
    · refine .inr ⟨.inr he, fun hnd hEq => ?_⟩
      have hnd' := nodup_inorder_mk (d := .left) (c := c).mp hnd
      simp only [CTree.ptr_node, some.injEq] at hEq
      rcases mem_append.mp he with hl | hr
      · exact hnd'.1.1 (hEq ▸ fst_mem_of_mem_treeCells hl)
      · exact hnd'.1.2 (hEq ▸ fst_mem_of_mem_treeCells hr)

/-- What the callback does to the data when it runs on `a`. -/
def augAux (cb : AugmentCb σ) (mem : Addr → RbNode) (aux : σ) (a : Addr) : σ :=
  match cb with
  | none => aux
  | some g => g mem aux a

theorem augment_eq (s : RbState σ) (cb : AugmentCb σ) (a : Addr) :
    s.augment cb a = { s with aux := augAux cb s.mem s.aux a } := by
  cases cb <;> rfl

/-- Store `q` into the link at the hole of a context. -/
def linkAt (s : RbState σ) (ctx : List (Frame Addr)) (q : Option Addr) : RbState σ :=
  match ctx with
  | [] => { s with rbRoot := q }
  | f :: _ => s.setChild f.side f.x q

@[simp] theorem linkAt_aux (s : RbState σ) (ctx : List (Frame Addr)) (q : Option Addr) :
    (linkAt s ctx q).aux = s.aux := by
  cases ctx <;> rfl

/-- The link to the focus is in its parent only. -/
theorem linkAt_mem (s : RbState σ) (q : Option Addr)
    (hp : parOf ctx ≠ some p) : (linkAt s ctx q).mem p = s.mem p := by
  cases ctx with
  | nil => rfl
  | cons f fs =>
    have hne : p ≠ f.x := fun hEq => hp (by simp [hEq])
    exact modify_of_ne s (·.setChild f.side q) hne

/-- The link test of the C code picks the hole, whichever side it starts with. -/
theorem rbReplaceLink_eq {node : Addr} (d : Dir)
    (hside : ∀ f fs, ctx = f :: fs → ((s.mem f.x).child d = some node ↔ f.side = d)) :
    rbReplaceLink d s (parOf ctx) node q = linkAt s ctx q := by
  cases ctx with
  | nil => rfl
  | cons f fs =>
    have hf := hside f fs rfl
    by_cases hd : f.side = d
    · simp [rbReplaceLink, linkAt, hf.mpr hd, hd]
    · have hopp : d.opp = f.side := by
        cases d <;> cases hs : f.side <;> simp_all [Dir.opp]
      simp [rbReplaceLink, linkAt, hf, hd, hopp]

theorem Rep.parOf_ne {t : CTree Addr} (h : Rep s ctx t) (hp : p ∈ t.inorder) :
    parOf ctx ≠ some p := by
  cases ctx with
  | nil => simp
  | cons =>
    simp only [parOf_cons, ne_eq, some.injEq]
    exact fun hEq => h.parent_not_mem (hEq ▸ hp)

theorem setParent?_mem_of_ne {r : Option Addr} (h : q ≠ some p) :
    (s.setParent? q r).mem p = s.mem p := by
  cases q with
  | none => rfl
  | some z =>
    have hne : p ≠ z := fun hEq => h (by rw [hEq])
    exact modify_of_ne s (·.setParent r) hne

theorem setParent?_mem_self {r : Option Addr} {z : Addr} :
    (s.setParent? (some z) r).mem z = (s.mem z).setParent r := by
  simp [RbState.setParent?]

/-- The stores of a rotation, read back: the two nodes, the middle subtree and the link above. -/
theorem Rep.rotateLinks_mem (h : Rep s ctx (CTree.mk d cx A x (CTree.mk d cy B y E))) :
    let s' := rbRotateLinks d s x y
    s'.mem x = cellOf d (some y) A.ptr B.ptr cx ∧
    s'.mem y = cellOf d (parOf ctx) (some x) E.ptr cy ∧
    (∀ z, B.ptr = some z → s'.mem z = (s.mem z).setParent (some x)) ∧
    LinkSet ctx (some y) s s' ∧
    ∀ p ≠ x, p ≠ y → B.ptr ≠ some p → parOf ctx ≠ some p → s'.mem p = s.mem p := by
  have hmx := h.mem_mk
  have hmy := h.focus_far.mem_mk
  have hnd := nodup_inorder_mk.mp h.sub_nodup
  have hnd2 := nodup_inorder_mk.mp hnd.2.2.1
  -- `x`, `y`, the middle subtree and the context are at different addresses
  have hxy : x ≠ y := fun hEq => hnd.1.2 (mem_inorder_mk.mpr (.inl hEq))
  have hyx : y ≠ x := hxy.symm
  have hBx : B.ptr ≠ some x := fun hEq =>
    hnd.1.2 (mem_inorder_mk.mpr (.inr (.inl (mem_inorder_of_ptr hEq))))
  have hBy : B.ptr ≠ some y := fun hEq => hnd2.1.1 (mem_inorder_of_ptr hEq)
  have hinx : x ∈ (CTree.mk d cx A x (CTree.mk d cy B y E)).inorder := mem_inorder_mk.mpr (.inl rfl)
  have hiny : y ∈ (CTree.mk d cx A x (CTree.mk d cy B y E)).inorder :=
    mem_inorder_mk.mpr (.inr (.inr (mem_inorder_mk.mpr (.inl rfl))))
  have hinB : ∀ z, B.ptr = some z → z ∈ (CTree.mk d cx A x (CTree.mk d cy B y E)).inorder :=
    fun z hz => mem_inorder_mk.mpr (.inr (.inr
      (mem_inorder_mk.mpr (.inr (.inl (mem_inorder_of_ptr hz))))))
  have hctx : ∀ p ∈ ctxIds ctx, p ≠ x ∧ p ≠ y ∧ B.ptr ≠ some p := by
    intro p hp
    refine ⟨fun hEq => ?_, fun hEq => ?_, fun hEq => ?_⟩
    · exact h.not_mem_ctx hinx (hEq ▸ hp)
    · exact h.not_mem_ctx hiny (hEq ▸ hp)
    · exact h.not_mem_ctx (hinB p hEq) hp
  -- the state in which the link above is replaced
  set s₁ := ((s.setChild d.opp x B.ptr).setParent? B.ptr (some x)).setParent y (parOf ctx) with hs₁
  have hs₁mem : ∀ p ≠ x, p ≠ y → B.ptr ≠ some p → s₁.mem p = s.mem p := by
    intro p h1 h2 h3
    simp [hs₁, modify_of_ne, h1, h2, setParent?_mem_of_ne h3]
  have hs₁x : s₁.mem x = cellOf d (parOf ctx) A.ptr B.ptr cx := by
    simp [hs₁, modify_of_ne, hxy, setParent?_mem_of_ne hBx, hmx]
  have hs₁y : s₁.mem y = cellOf d (parOf ctx) B.ptr E.ptr cy := by
    simp [hs₁, modify_of_ne, hyx, setParent?_mem_of_ne hBy, hmy]
  -- the stores below the link commute with it, since they are at other addresses
  have heq : rbRotateLinks d s x y =
      ((linkAt s₁ ctx (some y)).setChild d y (some x)).setParent x (some y) := by
    have hchild : ((s.setChild d.opp x B.ptr).mem y).child d = B.ptr := by
      rw [modify_of_ne s _ hyx, hmy, cellOf_child]
    have hup : ((s.setChild d.opp x B.ptr).setParent? B.ptr (some x)).mem x =
        cellOf d (parOf ctx) A.ptr B.ptr cx := by
      simp [setParent?_mem_of_ne hBx, hmx]
    have hlink : rbReplaceLink d s₁ (parOf ctx) x (some y) = linkAt s₁ ctx (some y) := by
      apply rbReplaceLink_eq
      rintro f fs rfl
      obtain ⟨hfx, hfy, hfB⟩ := hctx f.x (mem_ctxIds_cons.mpr (.inl rfl))
      rw [hs₁mem f.x hfx hfy hfB]
      exact h.child_eq_iff (ptr_mk ..) d
    simp only [rbRotateLinks, hmy, cellOf_child, hchild, hup, cellOf_parent]
    rw [← hs₁, hs₁x, cellOf_parent, hlink]
  have hmem : ∀ p ≠ x, p ≠ y →
      (rbRotateLinks d s x y).mem p = (linkAt s₁ ctx (some y)).mem p := by
    intro p h1 h2
    rw [heq]
    simp [modify_of_ne, h1, h2]
  refine ⟨?_, ?_, ?_, ?_, ?_⟩
  · rw [heq]
    simp [modify_of_ne, hxy, linkAt_mem s₁ _ (h.parOf_ne hinx), hs₁x]
  · rw [heq]
    simp [modify_of_ne, hyx, linkAt_mem s₁ _ (h.parOf_ne hiny), hs₁y]
  · intro z hB
    have hzx : z ≠ x := fun hEq => hBx (hEq ▸ hB)
    have hzy : z ≠ y := fun hEq => hBy (hEq ▸ hB)
    rw [hmem z hzx hzy, linkAt_mem s₁ _ (h.parOf_ne (hinB z hB))]
    simp [hs₁, hB, setParent?_mem_self, modify_of_ne, hzx, hzy]
  · cases ctx with
    | nil =>
      rw [heq]
      rfl
    | cons f fs =>
      obtain ⟨hfx, hfy, hfB⟩ := hctx f.x (mem_ctxIds_cons.mpr (.inl rfl))
      refine ⟨?_, ?_, ?_⟩
      · rw [heq]
        rcases hB : B.ptr with _ | z <;> simp [linkAt, hs₁, hB, RbState.setParent?]
      · rw [hmem f.x hfx hfy, linkAt, modify_self, hs₁mem f.x hfx hfy hfB]
      · intro p hp hpf
        obtain ⟨h1, h2, h3⟩ := hctx p hp
        rw [hmem p h1 h2, linkAt_mem s₁ _ (by simpa using Ne.symm hpf), hs₁mem p h1 h2 h3]
  · intro p h1 h2 h3 h4
    rw [hmem p h1 h2, linkAt_mem s₁ _ h4, hs₁mem p h1 h2 h3]

/-- Links are not what the callback computes from. -/
theorem rbReplaceLink_aux (d : Dir) (s : RbState σ) (par : Option Addr) (p : Addr)
    (q : Option Addr) : (rbReplaceLink d s par p q).aux = s.aux := by
  cases par with
  | none => rfl
  | some =>
    simp only [rbReplaceLink]
    split <;> rfl

@[simp] theorem setParent?_aux (s : RbState σ) (q p : Option Addr) :
    (s.setParent? q p).aux = s.aux := by
  cases q <;> rfl

/-- A rotation of the focus: `x` goes down to side `d`, its child `y` takes its place. -/
theorem Rep.rotate (cb : AugmentCb σ) (h : Rep s ctx (CTree.mk d cx A x (CTree.mk d cy B y E))) :
    ∃ s', rbRotate d cb s x = some s' ∧ Rep s' ctx (CTree.mk d cy (CTree.mk d cx A x B) y E) ∧
      s'.aux = augAux cb s'.mem (augAux cb s'.mem s.aux x) y := by
  obtain ⟨hx, hy, hz, hlink, hrest⟩ := h.rotateLinks_mem
  have hnd := nodup_inorder_mk.mp h.sub_nodup
  have hnd2 := nodup_inorder_mk.mp hnd.2.2.1
  set s₁ := rbRotateLinks d s x y with hs₁
  have hrun : rbRotate d cb s x = some ((s₁.augment cb x).augment cb y) := by
    simp [rbRotate, h.mem_mk, hs₁]
  have hnodup : (plug ctx (CTree.mk d cy (CTree.mk d cx A x B) y E)).inorder.Nodup := by
    rw [inorder_plug_congr ctx (CTree.inorder_rotate d cy cx cx cy A B E x y)]
    exact h.nodup
  have hpar : ∀ p ∈ (CTree.mk d cx A x (CTree.mk d cy B y E)).inorder, parOf ctx ≠ some p := by
    intro p hp
    cases ctx with
    | nil => simp
    | cons =>
      simp only [parOf_cons, ne_eq, some.injEq]
      exact fun hEq => h.parent_not_mem (hEq ▸ hp)
  have hrep : Rep s₁ ctx (CTree.mk d cy (CTree.mk d cx A x B) y E) := by
    refine h.replace hnodup (by simpa using hlink) (fun e he => ?_)
    have hsame : ∀ p ∈ (CTree.mk d cx A x (CTree.mk d cy B y E)).inorder, p ≠ x → p ≠ y →
        B.ptr ≠ some p → s₁.mem p = s.mem p := fun p hp h1 h2 h3 => hrest p h1 h2 h3 (hpar p hp)
    simp only [mem_treeCells_mk, ptr_mk] at he
    simp only [mem_inorder_mk] at hsame hnd
    rcases he with rfl | (rfl | hA | hB) | hE
    · exact hy
    · exact hx
    · -- the outer subtree of `x` is not touched
      have hmem := fst_mem_of_mem_treeCells hA
      have hnot := hnd.2.2.2 e.1 hmem
      rw [hsame e.1 (.inr (.inl hmem)) (fun hEq => hnd.1.1 (hEq ▸ hmem))
        (fun hEq => hnot (.inl hEq))
        (fun hEq => hnot (.inr (.inl (mem_inorder_of_ptr hEq))))]
      exact h.focus_near.subMem e hA
    · -- the middle subtree gets a new parent
      have hmem := fst_mem_of_mem_treeCells hB
      rcases treeCells_reparent (p := some y) hB with ⟨hptr, n, hn, hen⟩ | ⟨hold, hne⟩
      · rw [hz e.1 hptr, hen, h.focus_far.focus_near.subMem _ hn]
      · rw [hsame e.1 (.inr (.inr (.inr (.inl hmem))))
          (fun hEq => hnd.1.2 (.inr (.inl (hEq ▸ hmem))))
          (fun hEq => hnd2.1.1 (hEq ▸ hmem)) (hne hnd2.2.1)]
        exact h.focus_far.focus_near.subMem e hold
    · -- the outer subtree of `y` moves up with it
      have hmem := fst_mem_of_mem_treeCells hE
      rw [hsame e.1 (.inr (.inr (.inr (.inr hmem)))) (fun hEq => hnd.1.2 (.inr (.inr (hEq ▸ hmem))))
        (fun hEq => hnd2.1.2 (hEq ▸ hmem))
        (fun hEq => hnd2.2.2.2 e.1 (mem_inorder_of_ptr hEq) hmem)]
      exact h.focus_far.focus_far.subMem e hE
  refine ⟨_, hrun, ?_, ?_⟩
  · simp only [augment_eq]
    exact { hrep with }
  · -- the callback runs after the stores, for `x` first
    have haux : s₁.aux = s.aux := by
      simp [hs₁, rbRotateLinks, rbReplaceLink_aux]
    simp [augment_eq, haux]

/-- Linking a red node without children into an empty hole. -/
theorem Rep.linkNode {n : Addr} (h : Rep s ctx .leaf) (hn : n ∉ ctxIds ctx) :
    Rep (rbLinkNode s n (ctx.head?.map fun f => (f.x, f.side))) ctx (.node .red .leaf n .leaf) := by
  have hnodup : (plug ctx (.node .red .leaf n .leaf)).inorder.Nodup := by
    refine nodup_plug.mpr ⟨(nodup_plug.mp h.nodup).1, by simp, ?_⟩
    simpa using hn
  cases ctx with
  | nil =>
    refine h.replace hnodup ?_ ?_
    · rfl
    · intro e he
      simp only [treeCells, mem_cons, append_nil, not_mem_nil, or_false] at he
      subst he
      simp [rbLinkNode]
  | cons f fs =>
    have hnf : n ≠ f.x := fun hEq => hn (mem_ctxIds_cons.mpr (.inl hEq))
    refine h.replace hnodup ?_ ?_
    · refine ⟨rfl, ?_, fun p hp hpf => ?_⟩
      · simp [rbLinkNode, hnf.symm]
      · have hpn : p ≠ n := fun hEq => hn (hEq ▸ hp)
        simp [rbLinkNode, modify_of_ne, hpf, hpn]
    · intro e he
      simp only [treeCells, mem_cons, append_nil, not_mem_nil, or_false] at he
      subst he
      simp [rbLinkNode, modify_of_ne, hnf]

end

/-! ## Data kept by the augment callback -/

/-- An invariant `I` of the callback's data over the tree it belongs to: it does not look at
colours, and running the callback on the two nodes of a rotation, lower node first, restores it. -/
structure AugInv (cb : AugmentCb σ) (I : CTree Addr → σ → Prop) : Prop where
  recolor : ∀ {ctx d c c' a x b aux},
    I (plug ctx (CTree.mk d c a x b)) aux → I (plug ctx (CTree.mk d c' a x b)) aux
  rotate : ∀ {s : RbState σ} {ctx d cx cy A B E x y aux},
    Rep s ctx (CTree.mk d cy (CTree.mk d cx A x B) y E) →
    I (plug ctx (CTree.mk d cx A x (CTree.mk d cy B y E))) aux →
    I (plug ctx (CTree.mk d cy (CTree.mk d cx A x B) y E))
      (augAux cb s.mem (augAux cb s.mem aux x) y)

/-- Without a claim on the data there is nothing to maintain. -/
theorem AugInv.trivial (cb : AugmentCb σ) : AugInv cb (fun _ _ => True) :=
  ⟨fun _ => .intro, fun _ _ => .intro⟩

/-- The state is laid out as `t` in `ctx` and the callback's data is right for the whole tree. -/
structure RepI (I : CTree Addr → σ → Prop) (s : RbState σ) (ctx : List (Frame Addr))
    (t : CTree Addr) : Prop where
  rep : Rep s ctx t
  inv : I (plug ctx t) s.aux

variable {I : CTree Addr → σ → Prop} {cb : AugmentCb σ} {s : RbState σ}
  {ctx fs : List (Frame Addr)} {f : Frame Addr} {t : CTree Addr}
  {d : Dir} {c : Color} {a b : CTree Addr} {x : Addr}

theorem repI_cons : RepI I s (f :: fs) t ↔ RepI I s fs (f.fill t) :=
  ⟨fun h => ⟨rep_cons.mp h.rep, h.inv⟩, fun h => ⟨rep_cons.mpr h.rep, h.inv⟩⟩

theorem RepI.focus_near (h : RepI I s ctx (CTree.mk d c a x b)) :
    RepI I s (⟨d, c, x, b⟩ :: ctx) a :=
  repI_cons.mpr h

theorem RepI.focus_far (h : RepI I s ctx (CTree.mk d c a x b)) :
    RepI I s (⟨d.opp, c, x, a⟩ :: ctx) b :=
  repI_cons.mpr (by rw [fill, mk_opp]; exact h)

theorem RepI.up_near (h : RepI I s (⟨d, c, x, b⟩ :: ctx) a) : RepI I s ctx (CTree.mk d c a x b) :=
  repI_cons.mp h

theorem RepI.up_far (h : RepI I s (⟨d.opp, c, x, a⟩ :: ctx) b) :
    RepI I s ctx (CTree.mk d c a x b) := by
  have h' := repI_cons.mp h
  rwa [fill, mk_opp] at h'

theorem RepI.whole (h : RepI I s ctx t) : RepI I s [] (plug ctx t) := by
  have hwhole := rep_iff.mp h.rep
  exact ⟨rep_iff.mpr hwhole, h.inv⟩

theorem RepI.setColor (hI : AugInv cb I) (h : RepI I s ctx (CTree.mk d c a x b)) (c' : Color) :
    RepI I (s.setColor x c') ctx (CTree.mk d c' a x b) :=
  ⟨h.rep.setColor c', hI.recolor h.inv⟩

/-- `if (q) q->rb_color = RB_BLACK` on the subtree in focus. -/
theorem RepI.blacken (hI : AugInv cb I) (h : RepI I s ctx t) :
    RepI I (s.setColor? t.ptr .black) ctx t.blacken := by
  rcases CTree.leaf_or_mk .left t with rfl | ⟨c, a, x, b, rfl⟩
  · exact h
  · rw [ptr_mk, CTree.blacken_mk]
    exact h.setColor hI .black

/-- A rotation at the focus, with the invariant of the callback. -/
theorem RepI.rotate (hI : AugInv cb I)
    (h : RepI I s ctx (CTree.mk d cx A x (CTree.mk d cy B y E))) :
    ∃ s', rbRotate d cb s x = some s' ∧
      RepI I s' ctx (CTree.mk d cy (CTree.mk d cx A x B) y E) := by
  obtain ⟨s', hrun, hrep, haux⟩ := h.rep.rotate cb
  exact ⟨s', hrun, hrep, haux ▸ hI.rotate hrep h.inv⟩

end BoredOS.Core.RbTree
