import BoredOS.Core.RbTree.Repr

/-!
# Taking a Node out of the Red-Black Tree

The first half of `rb_erase_augmented` takes the node out of the layout and leaves a hole where a
child moved up: either the only child of the node, or the right child of the node's successor,
which itself takes the place of the node.

The branch with the successor sets the parent pointer of the successor's right child before it
knows whether that parent is the removed node. When the successor is the direct right child the
pointer is left at the removed node, so the specification asks for a successor without a right
child there.
-/

namespace BoredOS.Core.RbTree

open Lib.RedBlack List RbState Option Frame
open CTree (blacken_mk color_mk inorder_mk_congr inorder_node leaf_or_mk mem_inorder_mk
  mem_inorder_of_ptr mk mk_opp nodup_inorder_mk ptr_eq_none ptr_mk rb_mk_black rb_mk_red)

variable {σ : Type} {s s' : RbState σ} {ctx : List (Frame Addr)} {d : Dir} {c : Color}
  {b : CTree Addr} {x : Addr}

/-! ## A node with at most one child -/

/-- A node without a child on one side is replaced by its other child. -/
theorem Rep.unlink (h : Rep s ctx (CTree.mk d c .leaf x b)) (hlink : LinkSet ctx b.ptr s s')
    (hroot : ∀ z, b.ptr = some z → s'.mem z = (s.mem z).setParent (parOf ctx))
    (hrest : ∀ p ∈ b.inorder, b.ptr ≠ some p → s'.mem p = s.mem p) : Rep s' ctx b := by
  have hnd := nodup_plug.mp h.nodup
  have hb := (nodup_inorder_mk.mp hnd.2.1).2.2.1
  have hnodup : (plug ctx b).inorder.Nodup :=
    nodup_plug.mpr ⟨hnd.1, hb, fun p hp =>
      hnd.2.2 p (mem_inorder_mk.mpr (.inr (.inr hp)))⟩
  refine h.replace hnodup hlink (fun e he => ?_)
  rcases treeCells_reparent (p := some x) he with ⟨hptr, n, hn, hen⟩ | ⟨hold, hne⟩
  · rw [hroot e.1 hptr, hen, h.focus_far.subMem _ hn]
  · rw [hrest e.1 (fst_mem_of_mem_treeCells hold) (hne hb)]
    exact h.focus_far.subMem e hold

/-- `linkAt` only changes the link at the hole. -/
theorem linkSet_linkAt (h : Rep s ctx b) (q : Option Addr) : LinkSet ctx q s (linkAt s ctx q) := by
  cases ctx with
  | nil => rfl
  | cons f fs =>
    exact ⟨rfl, modify_self s f.x (·.setChild f.side q),
      fun p _ hp => modify_of_ne s (·.setChild f.side q) hp⟩

theorem Rep.replaceLink_eq {t : CTree Addr} (h : Rep s ctx t) (hx : t.ptr = some x)
    (q : Option Addr) : rbReplaceLink .left s (parOf ctx) x q = linkAt s ctx q := by
  apply rbReplaceLink_eq
  rintro f fs rfl
  exact h.child_eq_iff hx .left

variable {q r : Option Addr} {l R₀ : CTree Addr} {y : Addr} {rctx : List (Frame Addr)}

theorem LinkSet.modify {z : Addr} (h : LinkSet ctx q s s') (hz : z ∉ ctxIds ctx)
    (g : RbNode → RbNode) : LinkSet ctx q s (s'.modify z g) := by
  cases ctx with
  | nil => exact h
  | cons f fs =>
    obtain ⟨hroot, hpar, hrest⟩ := h
    have hfz : f.x ≠ z := fun hEq => hz (hEq ▸ mem_ctxIds_cons.mpr (.inl rfl))
    refine ⟨hroot, ?_, fun p hp hpf => ?_⟩
    · rw [modify_of_ne s' _ hfz, hpar]
    · have hpz : p ≠ z := fun hEq => hz (hEq ▸ hp)
      rw [modify_of_ne s' _ hpz, hrest p hp hpf]

theorem LinkSet.setParent? {q' p : Option Addr} (h : LinkSet ctx q s s')
    (hq : ∀ z, q' = some z → z ∉ ctxIds ctx) : LinkSet ctx q s (s'.setParent? q' p) := by
  cases q' with
  | none => exact h
  | some z => exact h.modify (hq z rfl) fun n => { n with rbParent := p }

theorem Rep.spliceOut (h : Rep s ctx (CTree.mk d c .leaf x b)) :
    Rep (rbSpliceOut s x b.ptr) ctx b := by
  have hpar : (s.mem x).rbParent = parOf ctx := by simp [h.mem_mk]
  have heq : rbSpliceOut s x b.ptr = (linkAt s ctx b.ptr).setParent? b.ptr (parOf ctx) := by
    simp only [rbSpliceOut, hpar]
    rw [h.replaceLink_eq (ptr_mk ..)]
  have hmem : ∀ p ∈ b.inorder, p ∈ (CTree.mk d c .leaf x b).inorder := fun p hp =>
    mem_inorder_mk.mpr (.inr (.inr hp))
  rw [heq]
  refine h.unlink ?_ ?_ ?_
  · exact (linkSet_linkAt h b.ptr).setParent? fun z hz =>
      h.not_mem_ctx (hmem z (mem_inorder_of_ptr hz))
  · intro z hz
    rw [hz, setParent?_mem_self, linkAt_mem s _ (h.parOf_ne (hmem z (mem_inorder_of_ptr hz)))]
  · intro p hp hne
    rw [setParent?_mem_of_ne hne, linkAt_mem s _ (h.parOf_ne (hmem p hp))]

/-! ## A node with two children -/

/-- The walk to the left from the root of a subtree ends at its first node. -/
theorem rbLeftmost_spec (t : CTree Addr) :
    ∀ {ctx : List (Frame Addr)} {p : Addr}, Rep s ctx t → t.ptr = some p →
      ∃ rctx cs y e, t = plug rctx (.node cs .leaf y e) ∧ (∀ f ∈ rctx, f.side = .left) ∧
        ∀ fuel, rctx.length < fuel → rbLeftmost s fuel p = some y := by
  induction t with
  | leaf =>
    intro ctx p _ hp
    simp at hp
  | node c l x r ihl _ =>
    intro ctx p h hp
    have hmk : Rep s ctx (CTree.mk .left c l x r) := h
    have hx : x = p := by simpa using hp
    subst hx
    rcases hl : l.ptr with _ | q
    · rw [CTree.ptr_eq_none] at hl
      subst hl
      refine ⟨[], c, x, r, rfl, by simp, fun fuel hfuel => ?_⟩
      obtain ⟨k, rfl⟩ : ∃ k, fuel = k + 1 := ⟨fuel - 1, by simp at hfuel; omega⟩
      have hleft : (s.mem x).rbLeft = none := by simp [hmk.mem_mk, cellOf]
      simp [rbLeftmost, hleft]
    · obtain ⟨rctx, cs, y, e, rfl, hleft, hrun⟩ := ihl hmk.focus_near hl
      refine ⟨rctx ++ [⟨.left, c, x, r⟩], cs, y, e, ?_, ?_, fun fuel hfuel => ?_⟩
      · simp [plug_append, fill, CTree.mk]
      · intro f hf
        rcases mem_append.mp hf with hf | hf
        · exact hleft f hf
        · simp at hf
          rw [hf]
      · obtain ⟨k, rfl⟩ : ∃ k, fuel = k + 1 := ⟨fuel - 1, by simp at hfuel; omega⟩
        have hleft' : (s.mem x).rbLeft = some q := by simp [hmk.mem_mk, cellOf, hl]
        simp only [rbLeftmost, hleft']
        exact hrun k (by simp at hfuel; omega)

/-- A node `y` stored in the place of `x`: the link, its own contents, its children's parents. -/
def transplant (s : RbState σ) (ctx : List (Frame Addr)) (y : Addr) (n : RbNode)
    (l r : Option Addr) : RbState σ :=
  (((linkAt s ctx (some y)).modify y fun _ => n).setParent? l (some y)).setParent? r (some y)

theorem Rep.transplant {R : CTree Addr} (h : Rep s ctx (.node c l x R₀))
    (hnodup : (plug ctx (.node c l y R)).inorder.Nodup)
    (hR : ∀ e ∈ treeCells (some x) R, s.mem e.1 = e.2) :
    Rep (transplant s ctx y ⟨parOf ctx, l.ptr, R.ptr, c⟩ l.ptr R.ptr) ctx (.node c l y R) := by
  have hmk : Rep s ctx (CTree.mk .left c l x R₀) := h
  have hnd := nodup_plug.mp hnodup
  have hndT := (nodup_inorder_mk (d := .left) (c := c)).mp hnd.2.1
  obtain ⟨⟨hyl, hyR⟩, hndl, hndR, hlR⟩ := hndT
  have hyctx : y ∉ ctxIds ctx := hnd.2.2 y (by simp)
  have hlctx : ∀ p ∈ l.inorder, p ∉ ctxIds ctx := fun p hp => hnd.2.2 p (by simp [hp])
  have hRctx : ∀ p ∈ R.inorder, p ∉ ctxIds ctx := fun p hp => hnd.2.2 p (by simp [hp])
  have hpar : ∀ p, p ∉ ctxIds ctx → parOf ctx ≠ some p := by
    intro p hp
    cases ctx with
    | nil => simp
    | cons =>
      simp only [parOf_cons, ne_eq, Option.some.injEq]
      exact fun hEq => hp (mem_ctxIds_cons.mpr (.inl hEq.symm))
  set s₁ := (linkAt s ctx (some y)).modify y fun _ => ⟨parOf ctx, l.ptr, R.ptr, c⟩ with hs₁
  have hs₁mem : ∀ p ≠ y, p ∉ ctxIds ctx → s₁.mem p = s.mem p := by
    intro p hpy hp
    rw [hs₁, modify_of_ne _ _ hpy, linkAt_mem s _ (hpar p hp)]
  have hlink : LinkSet ctx (some y) s s₁ := (linkSet_linkAt h (some y)).modify hyctx _
  refine h.replace hnodup ?_ (fun e he => ?_)
  · refine .setParent? (.setParent? hlink ?_) ?_
    · exact fun z hz => hlctx z (mem_inorder_of_ptr hz)
    · exact fun z hz => hRctx z (mem_inorder_of_ptr hz)
  · simp only [treeCells, mem_cons, mem_append] at he
    simp only [BoredOS.Core.RbTree.transplant, ← hs₁]
    rcases he with rfl | hl | hr
    · rw [setParent?_mem_of_ne (fun hEq => hyR (mem_inorder_of_ptr hEq)),
        setParent?_mem_of_ne (fun hEq => hyl (mem_inorder_of_ptr hEq)), hs₁, modify_self]
    · have hmem := fst_mem_of_mem_treeCells hl
      have hney : e.1 ≠ y := fun hEq => hyl (hEq ▸ hmem)
      rw [setParent?_mem_of_ne (fun hEq => hlR e.1 hmem (mem_inorder_of_ptr hEq))]
      rcases treeCells_reparent (p := some x) hl with ⟨hptr, n, hn, hen⟩ | ⟨hold, hne⟩
      · rw [hptr, setParent?_mem_self, hs₁mem e.1 hney (hlctx e.1 hmem), hen,
          hmk.focus_near.subMem _ hn]
      · rw [setParent?_mem_of_ne (hne hndl), hs₁mem e.1 hney (hlctx e.1 hmem)]
        exact hmk.focus_near.subMem e hold
    · have hmem := fst_mem_of_mem_treeCells hr
      have hney : e.1 ≠ y := fun hEq => hyR (hEq ▸ hmem)
      have hnel : l.ptr ≠ some e.1 := fun hEq => hlR e.1 (mem_inorder_of_ptr hEq) hmem
      rcases treeCells_reparent (p := some x) hr with ⟨hptr, n, hn, hen⟩ | ⟨hold, hne⟩
      · rw [hptr, setParent?_mem_self, setParent?_mem_of_ne hnel,
          hs₁mem e.1 hney (hRctx e.1 hmem), hen, hR _ hn]
      · rw [setParent?_mem_of_ne (hne hndR), setParent?_mem_of_ne hnel,
          hs₁mem e.1 hney (hRctx e.1 hmem)]
        exact hR e hold

theorem modify_modify (s : RbState σ) (p : Addr) (g g' : RbNode → RbNode) :
    (s.modify p g).modify p g' = s.modify p (fun n => g' (g n)) := by
  simp [RbState.modify]

/-- The last stores of the two-children branch are a transplant. -/
theorem rbTakePlace_eq {r₀ : Addr} (child : Option Addr)
    (h : Rep s ctx (.node c l x R₀)) (hr : R₀.ptr = some r₀) (hxy : x ≠ y) :
    rbTakePlace s x y child =
      transplant s ctx y ⟨parOf ctx, l.ptr, if r₀ = y then child else some r₀, c⟩ l.ptr
        (if r₀ = y then none else some r₀) := by
  have hmk : Rep s ctx (CTree.mk .left c l x R₀) := h
  have hX : s.mem x = ⟨parOf ctx, l.ptr, some r₀, c⟩ := by
    rw [hmk.mem_mk, hr]
    rfl
  have hnd := nodup_inorder_mk.mp hmk.sub_nodup
  have hpx : parOf ctx ≠ some x := h.parOf_ne (by simp)
  have hlx : l.ptr ≠ some x := fun hEq => hnd.1.1 (mem_inorder_of_ptr hEq)
  -- none of the stores touches `x`, so its fields are read from the first state
  have h₁ : (linkAt s ctx (some y)).mem x = s.mem x := linkAt_mem s _ hpx
  simp only [rbTakePlace, hX, h.replaceLink_eq (CTree.ptr_node ..), h₁, modify_of_ne _ _ hxy,
    setParent?_mem_of_ne hlx, Option.some.injEq, modify_modify]
  by_cases hry : r₀ = y
  · simp [hry, transplant, RbNode.setChild, RbNode.setColor, RbNode.setParent, setParent?]
  · simp [hry, transplant, RbNode.setChild, RbNode.setColor, RbNode.setParent]

theorem ctxBefore_eq_nil (h : ∀ f ∈ rctx, f.side = .left) : ctxBefore rctx = [] := by
  induction rctx with
  | nil => rfl
  | cons f fs ih =>
    simp [ctxBefore, before, h f mem_cons_self, ih fun g hg => h g (mem_cons_of_mem f hg)]

/-- The successor is cut out and takes the place of the node, unless it is the right child and has
a right child of its own. -/
theorem rbSpliceSuccessor_spec {e : CTree Addr} {cs : Color} {r₀ : Addr} {fuel : ℕ}
    (h : Rep s ctx (.node c l x (plug rctx (.node cs .leaf y e))))
    (hleft : ∀ f ∈ rctx, f.side = .left) (hstale : rctx = [] → e = .leaf)
    (hr : (plug rctx (.node cs .leaf y e)).ptr = some r₀) (hrun : rbLeftmost s fuel r₀ = some y) :
    ∃ s', rbSpliceSuccessor fuel s x r₀ =
        some ⟨s', e.ptr, parOf (rctx ++ ⟨.right, c, y, l⟩ :: ctx), cs⟩ ∧
      Rep s' (rctx ++ ⟨.right, c, y, l⟩ :: ctx) e ∧ s'.aux = s.aux := by
  have hfocus : Rep s (rctx ++ ⟨.right, c, x, l⟩ :: ctx) (CTree.mk .left cs .leaf y e) :=
    rep_append.mpr h.focus_right
  have hnd : (plug ctx (.node c l y (plug rctx e))).inorder.Nodup := by
    refine h.nodup.sublist ?_
    simp only [inorder_plug, CTree.inorder_node, ctxBefore_eq_nil hleft]
    simp
  have hmy := hfocus.mem_mk
  have hxy : x ≠ y := by
    have hxc : x ∈ ctxIds (rctx ++ ⟨.right, c, x, l⟩ :: ctx) :=
      mem_ctxIds_append.mpr (.inr (mem_ctxIds_cons.mpr (.inl rfl)))
    exact fun hEq => hfocus.not_mem_ctx (mem_inorder_mk.mpr (.inl rfl)) (hEq ▸ hxc)
  cases rctx with
  | nil =>
    -- the successor is the right child and has no child itself
    obtain rfl := hstale rfl
    refine ⟨rbTakePlace s x y none, ?_, ?_, ?_⟩
    · simp [rbSpliceSuccessor, hrun, hmy, cellOf, setParent?]
    · rw [rbTakePlace_eq none h rfl hxy]
      have ht := h.transplant (R := .leaf) (y := y) (by simpa using hnd) (by simp)
      simpa using ht.focus_right
    · rw [rbTakePlace_eq none h rfl hxy]
      simp [transplant]
  | cons f fs =>
    have hside : f.side = .left := hleft f mem_cons_self
    have hfx : f.x ≠ x := by
      have hmk : Rep s ctx (CTree.mk .left c l x (plug (f :: fs) (.node cs .leaf y e))) := h
      have hnot := (nodup_inorder_mk.mp hmk.sub_nodup).1.2
      exact fun hEq => hnot (mem_inorder_plug.mpr (.inr (mem_ctxIds_cons.mpr (.inl hEq.symm))))
    have hctx : ∀ p ∈ ctxIds (f :: fs ++ ⟨.right, c, x, l⟩ :: ctx), e.ptr ≠ some p :=
        fun p hp hEq =>
      hfocus.not_mem_ctx (mem_inorder_mk.mpr (.inr (.inr (mem_inorder_of_ptr hEq)))) hp
    have hef := hctx f.x (mem_ctxIds_cons.mpr (.inl rfl))
    -- first the successor is cut out of its place
    set s₁ := (s.setParent? e.ptr (some f.x)).setChild .left f.x e.ptr with hs₁
    have hne : ∀ p ∈ e.inorder, p ≠ f.x := fun p hp hEq =>
      hfocus.parent_not_mem (mem_inorder_mk.mpr (.inr (.inr (hEq ▸ hp))))
    have h₁ : Rep s₁ (f :: fs ++ ⟨.right, c, x, l⟩ :: ctx) e := by
      refine hfocus.unlink ⟨?_, ?_, ?_⟩ ?_ ?_
      · rw [hs₁]
        cases e.ptr <;> rfl
      · rw [hs₁, modify_self, setParent?_mem_of_ne hef, hside]
      · intro p hp hpf
        rw [hs₁, modify_of_ne _ _ hpf, setParent?_mem_of_ne (hctx p hp)]
      · intro z hz
        rw [hs₁, modify_of_ne _ _ (hne z (mem_inorder_of_ptr hz)), hz, setParent?_mem_self]
        rfl
      · intro p hp hpe
        rw [hs₁, modify_of_ne _ _ (hne p hp), setParent?_mem_of_ne hpe]
    have h₁' : Rep s₁ ctx (.node c l x (plug (f :: fs) e)) := rep_cons.mp (rep_append.mp h₁)
    have hr₁ : (plug (f :: fs) e).ptr = some r₀ := by
      rw [ptr_plug] at hr ⊢
      exact hr
    have hry : r₀ ≠ y := by
      have hnot := (nodup_inorder_mk (d := .left) (c := c)).mp (nodup_plug.mp hnd).2.1
      exact fun hEq => hnot.1.2 (hEq ▸ mem_inorder_of_ptr hr₁)
    -- then it takes the place of `x`
    have htake := rbTakePlace_eq e.ptr h₁' hr₁ hxy
    simp only [if_neg hry] at htake
    refine ⟨rbTakePlace s₁ x y e.ptr, ?_, ?_, ?_⟩
    · have hpar : (s.setParent? e.ptr (some f.x)).mem f.x = s.mem f.x := setParent?_mem_of_ne hef
      have hl : (s.mem f.x).rbLeft = some y := (hfocus.child_eq_iff (ptr_mk ..) .left).mpr hside
      simp [rbSpliceSuccessor, hrun, hmy, cellOf, hfx, hpar, hl, hs₁]
    · have ht := h₁'.transplant (R := plug (f :: fs) e) hnd h₁'.focus_right.subMem
      rw [htake]
      rw [hr₁] at ht
      exact rep_append.mpr ht.focus_right
    · rw [htake]
      simp [transplant, hs₁]

/-!
## The Fix-Up after a Removal

When a black node has been taken out, the subtree in focus is one black node short. The loop of
`rb_erase_fixup` either repairs the tree around the hole and stops, or paints the sibling red and
moves the deficit to the parent. A red subtree in focus ends the loop, since painting it black
makes up for the missing node.
-/

variable {σ : Type} {I : CTree Addr → σ → Prop} {cb : AugmentCb σ}

/-- The context expects one more black node than the subtree in focus has; a red subtree has it
once it is painted black. -/
def FixInv (ctx : List (Frame Addr)) (t : CTree Addr) : Prop :=
  ∃ n, CtxRB ctx (n + 1) ∧ ((t.color = .red ∧ t.blacken.RB (n + 1)) ∨ (t.color = .black ∧ t.RB n))

variable {ctx : List (Frame Addr)} {t : CTree Addr}

theorem fixInv_of_rb {n : ℕ} (hctx : CtxRB ctx (n + 1)) (ht : t.RB n) : FixInv ctx t := by
  refine ⟨n, hctx, ?_⟩
  rcases leaf_or_mk .left t with rfl | ⟨c, a, x, b, rfl⟩
  · exact .inr ⟨rfl, ht⟩
  · cases c with
    | black => exact .inr ⟨color_mk .., ht⟩
    | red =>
      obtain ⟨-, -, ha, hb⟩ := rb_mk_red.mp ht
      refine .inl ⟨color_mk .., ?_⟩
      rw [blacken_mk]
      exact rb_mk_black.mpr ⟨n, rfl, ha, hb⟩

section

variable {s : RbState σ} {d : Dir} {c : Color} {p w : Addr} {t N F : CTree Addr}
  {fs : List (Frame Addr)} {n : ℕ}

/-! ## The cases of one iteration -/

/-- A red sibling: after the rotation the sibling is black and the focus is one frame deeper. -/
theorem rbFixupRedSibling_red (hI : AugInv cb I)
    (h : RepI I s (⟨d, .black, p, mk d .red N w F⟩ :: fs) t) :
    ∃ s', rbFixupRedSibling d cb s p = some s' ∧
      RepI I s' (⟨d, .red, p, N⟩ :: ⟨d, .black, w, F⟩ :: fs) t := by
  have hmp := h.rep.mem_parent
  have hmw : s.mem w = cellOf d (some p) N.ptr F.ptr .red := by
    simpa using h.up_near.focus_far.rep.mem_mk
  have h₁ := (h.up_near.focus_far.setColor hI .black).up_far.setColor hI .red
  obtain ⟨s', hrot, h₂⟩ := h₁.rotate hI
  refine ⟨s', ?_, h₂.focus_near.focus_near⟩
  simp [rbFixupRedSibling, hmp, hmw, hrot]

theorem rbFixupRedSibling_black {W : CTree Addr} (h : Rep s (⟨d, c, p, W⟩ :: fs) t)
    (hW : W.color = .black) : rbFixupRedSibling d cb s p = some s := by
  have hmp := h.mem_parent
  rcases leaf_or_mk d W with rfl | ⟨cw, N, w, F, rfl⟩
  · simp [rbFixupRedSibling, hmp]
  · have hmw : s.mem w = cellOf d (some p) N.ptr F.ptr cw := by
      simpa using h.up_near.focus_far.mem_mk
    rw [color_mk] at hW
    simp [rbFixupRedSibling, hmp, hmw, hW]

/-- The last rotation, with a red far nephew. -/
theorem rbFixupRotate_far (hI : AugInv cb I) (hF : F.color = .red)
    (h : RepI I s (⟨d, c, p, mk d .black N w F⟩ :: fs) t) :
    ∃ s', rbFixupRotate d cb s p w = some s' ∧
      RepI I s' fs (mk d c (mk d .black t p N) w F.blacken) := by
  have hmp := h.rep.mem_parent
  have hw := h.up_near.focus_far
  have hmw : s.mem w = cellOf d (some p) N.ptr F.ptr .black := by simpa using hw.rep.mem_mk
  have hred : s.isRed F.ptr = true := by simp [hw.focus_far.rep.isRed_eq, hF]
  have hpw : p ≠ w := fun hEq =>
    hw.rep.parent_not_mem (CTree.mem_inorder_mk.mpr (.inl hEq))
  -- the repaints, in the order of the code
  have h₁ := (hw.setColor hI c).up_far.setColor hI .black
  have h₂ := (h₁.focus_far.focus_far.blacken hI).up_far.up_far
  obtain ⟨s', hrot, h₃⟩ := h₂.rotate hI
  refine ⟨s', ?_, h₃⟩
  simp [rbFixupRotate, hmp, hmw, hred, modify_of_ne, hpw.symm, hrot]

/-- A red near nephew with a black far one: the sibling is rotated first. -/
theorem rbFixupRotate_near (hI : AugInv cb I) {N₁ N₂ : CTree Addr} {v : Addr}
    (hF : F.color = .black)
    (h : RepI I s (⟨d, c, p, mk d .black (mk d .red N₁ v N₂) w F⟩ :: fs) t) :
    ∃ s', rbFixupRotate d cb s p w = some s' ∧
      RepI I s' fs (mk d c (mk d .black t p N₁) v (mk d .black N₂ w F)) := by
  have hw := h.up_near.focus_far
  have hmw : s.mem w = cellOf d (some p) (some v) F.ptr .black := by simpa using hw.rep.mem_mk
  have hred : s.isRed F.ptr = false := by simp [hw.focus_far.rep.isRed_eq, hF]
  have h₁ := (hw.focus_near.setColor hI .black).up_near.setColor hI .red
  -- read from the far side, the near nephew is the child that moves up
  rw [← mk_opp d .red, ← mk_opp d .black] at h₁
  obtain ⟨s₁, hrot, h₂⟩ := h₁.rotate hI
  rw [mk_opp, mk_opp] at h₂
  obtain ⟨s', hrun, h₃⟩ := rbFixupRotate_far hI (color_mk ..) h₂.up_far.focus_near
  refine ⟨s', ?_, by simpa using h₃⟩
  have hmv : s₁.mem v = cellOf d (some p) N₁.ptr (some w) .black := by simpa using h₂.rep.mem_mk
  have hred₁ : s₁.isRed (some w) = true := by simpa using h₂.focus_far.rep.isRed_eq
  have hmp₁ := h₂.up_far.focus_near.rep.mem_parent
  -- the second half of the code is the case just proved, at the new sibling
  rw [← hrun]
  simp [rbFixupRotate, hmw, hred, RbState.setColor?, hrot, hmv, hred₁, hmp₁]

/-- The test of the code for two black nephews. -/
theorem nephews_black_iff (h : Rep s (⟨d, c, p, mk d .black N w F⟩ :: fs) t) :
    (!s.isRed (s.mem w).rbLeft && !s.isRed (s.mem w).rbRight) = true ↔
      N.color = .black ∧ F.color = .black := by
  have hw := h.up_near.focus_far
  have hN := hw.focus_near.isRed_eq
  have hF := hw.focus_far.isRed_eq
  have hmw : s.mem w = cellOf d (some p) N.ptr F.ptr .black := by simpa using hw.mem_mk
  cases d with
  | left => simp [hmw, cellOf, hN, hF, Color.ne_red]
  | right => simp [hmw, cellOf, hN, hF, Color.ne_red, and_comm]

/-- What one iteration leaves: a repaired tree, or the deficit at a red node or below fewer than
`k` frames. -/
inductive FixupOutcome (I : CTree Addr → σ → Prop) (k : ℕ) (ord : List Addr) (s' : RbState σ) :
    Option (Addr × Option Addr) → Prop where
  | done {T : CTree Addr} (rep : RepI I s' [] T) (rb : T.IsRB) (inorder : T.inorder = ord) :
      FixupOutcome I k ord s' none
  | again {ctx' : List (Frame Addr)} {t' : CTree Addr} {q : Addr} (rep : RepI I s' ctx' t')
      (inv : FixInv ctx' t') (inorder : (plug ctx' t').inorder = ord) (ptr : t'.ptr = some q)
      (progress : t'.color = .red ∨ ctx'.length < k) :
      FixupOutcome I k ord s' (some (q, parOf ctx'))

/-- Both nephews black: the sibling is painted red and the deficit moves to the parent. -/
theorem fixInv_sibling_red (hctx : CtxRB (⟨d, c, p, mk d .black N w F⟩ :: fs) (n + 1))
    (ht : t.RB n) (hN : N.color = .black) (hF : F.color = .black) :
    FixInv fs (mk d c t p (mk d .red N w F)) := by
  obtain ⟨m, hm, hNn, hFn⟩ := rb_mk_black.mp hctx.1
  obtain rfl : n = m := by omega
  have hsib : (mk d .red N w F).RB n := rb_mk_red.mpr ⟨hN, hF, hNn, hFn⟩
  have hnode : (mk d .black t p (mk d .red N w F)).RB (n + 1) :=
    rb_mk_black.mpr ⟨n, rfl, ht, hsib⟩
  cases c with
  | red =>
    obtain ⟨-, -, -, hfs⟩ := ctxRB_red.mp hctx
    exact ⟨n, hfs, .inl ⟨color_mk .., by rwa [blacken_mk]⟩⟩
  | black =>
    obtain ⟨-, hfs⟩ := ctxRB_black.mp hctx
    exact ⟨n + 1, hfs, .inr ⟨color_mk .., hnode⟩⟩

/-- After the last rotation the tree is red-black: both children of the new top have the black
height the context asks for. -/
theorem isRB_after_rotate {v : Addr} {W A B : CTree Addr}
    (hctx : CtxRB (⟨d, c, p, W⟩ :: fs) (n + 1))
    (hA : A.RB (n + 1)) (hB : B.RB (n + 1)) (hAb : A.color = .black) (hBb : B.color = .black) :
    (plug fs (mk d c A v B)).IsRB := by
  cases c with
  | red =>
    obtain ⟨-, -, hhead, hfs⟩ := ctxRB_red.mp hctx
    exact isRB_plug.mpr ⟨n + 1, hfs, rb_mk_red.mpr ⟨hAb, hBb, hA, hB⟩, fun hne => absurd hhead hne⟩
  | black =>
    obtain ⟨-, hfs⟩ := ctxRB_black.mp hctx
    exact isRB_plug.mpr ⟨n + 2, hfs, rb_mk_black.mpr ⟨n + 1, rfl, hA, hB⟩, fun _ => color_mk ..⟩

section

variable (hI : AugInv cb I) (h : RepI I s (⟨d, c, p, mk d .black N w F⟩ :: fs) t)
  (hctx : CtxRB (⟨d, c, p, mk d .black N w F⟩ :: fs) (n + 1)) (ht : t.RB n)

include hI h hctx ht

/-- The last case as a whole: one nephew is red, and the loop ends with a red-black tree. -/
theorem rbFixupRotate_spec (hred : ¬(N.color = .black ∧ F.color = .black)) :
    ∃ s' T, rbFixupRotate d cb s p w = some s' ∧ RepI I s' [] T ∧ T.IsRB ∧
      T.inorder = (plug (⟨d, c, p, mk d .black N w F⟩ :: fs) t).inorder := by
  obtain ⟨m, hm, hNn, hFn⟩ := rb_mk_black.mp hctx.1
  obtain rfl : n = m := by omega
  cases hF : F.color with
  | red =>
    obtain ⟨s', hrun, h'⟩ := rbFixupRotate_far hI hF h
    obtain ⟨cf, a, z, b, rfl⟩ : ∃ cf a z b, F = mk d cf a z b := by
      rcases leaf_or_mk d F with rfl | hmk
      · simp at hF
      · exact hmk
    rw [color_mk] at hF
    subst hF
    rw [blacken_mk] at h'
    obtain ⟨-, -, ha, hb⟩ := rb_mk_red.mp hFn
    refine ⟨s', _, hrun, h'.whole, ?_, ?_⟩
    · exact isRB_after_rotate hctx (rb_mk_black.mpr ⟨n, rfl, ht, hNn⟩)
        (rb_mk_black.mpr ⟨n, rfl, ha, hb⟩) (color_mk ..) (color_mk ..)
    · apply inorder_plug_congr
      rw [CTree.inorder_rotate d c .black c .black]
      exact inorder_mk_congr _ _ _ _ rfl
        (inorder_mk_congr _ _ _ _ rfl (inorder_mk_congr _ _ _ _ rfl rfl))
  | black =>
    have hN : N.color = .red := Color.ne_black.mp fun hN => hred ⟨hN, hF⟩
    obtain ⟨cn, N₁, v, N₂, rfl⟩ : ∃ cn N₁ v N₂, N = mk d cn N₁ v N₂ := by
      rcases leaf_or_mk d N with rfl | hmk
      · simp at hN
      · exact hmk
    rw [color_mk] at hN
    subst hN
    obtain ⟨s', hrun, h'⟩ := rbFixupRotate_near hI hF h
    obtain ⟨-, -, hN₁, hN₂⟩ := rb_mk_red.mp hNn
    refine ⟨s', _, hrun, h'.whole, ?_, ?_⟩
    · exact isRB_after_rotate hctx (rb_mk_black.mpr ⟨n, rfl, ht, hN₁⟩)
        (rb_mk_black.mpr ⟨n, rfl, hN₂, hFn⟩) (color_mk ..) (color_mk ..)
    · apply inorder_plug_congr
      cases d <;> simp [fill, CTree.mk]

theorem rbFixupBlackSibling_spec {k : ℕ} (hk : c = .red ∨ fs.length < k) :
    ∃ s' r, rbFixupBlackSibling d cb s p = some (s', r) ∧
      FixupOutcome I k (plug (⟨d, c, p, mk d .black N w F⟩ :: fs) t).inorder s' r := by
  have hsib : (s.mem p).child d.opp = some w := by simp [h.rep.mem_parent]
  by_cases hblack : N.color = .black ∧ F.color = .black
  · have htest := (nephews_black_iff h.rep).mpr hblack
    have h' := (h.up_near.focus_far.setColor hI .red).up_far
    have hmp' : ((s.setColor w .red).mem p).rbParent = parOf fs := by simp [h'.rep.mem_mk]
    refine ⟨_, _, ?_, .again h' (fixInv_sibling_red hctx ht hblack.1 hblack.2) ?_
      (ptr_mk ..) (by simpa using hk)⟩
    · simp only [rbFixupBlackSibling, hsib, bind_eq_bind, bind_some, if_pos htest,
        hmp']
    · exact inorder_plug_congr fs (inorder_mk_congr _ _ _ _ rfl (inorder_mk_congr _ _ _ _ rfl rfl))
  · have htest := (nephews_black_iff h.rep).not.mpr hblack
    obtain ⟨s', T, hrun, hT, hrb, hord⟩ := rbFixupRotate_spec hI h hctx ht hblack
    refine ⟨s', none, ?_, .done hT hrb hord⟩
    simp only [rbFixupBlackSibling, hsib, bind_eq_bind, bind_some, if_neg htest, hrun]

end

/-- One iteration of the loop, from a black subtree that is one black node short. -/
theorem rbEraseFixupStep_spec {f : Frame Addr} (hI : AugInv cb I) (h : RepI I s (f :: fs) t)
    (hctx : CtxRB (f :: fs) (n + 1)) (ht : t.RB n) :
    ∃ s' r, rbEraseFixupStep f.side cb s f.x = some (s', r) ∧
      FixupOutcome I (fs.length + 1) (plug (f :: fs) t).inorder s' r := by
  obtain ⟨d, c, p, W⟩ := f
  obtain ⟨cw, N, w, F, rfl⟩ := hctx.1.exists_mk d
  cases cw with
  | black =>
    have hskip : rbFixupRedSibling d cb s p = some s :=
      rbFixupRedSibling_black h.rep (color_mk ..)
    obtain ⟨s', r, hrun, hout⟩ :=
      rbFixupBlackSibling_spec hI h hctx ht (.inr (Nat.lt_succ_self fs.length))
    exact ⟨s', r, by simpa [rbEraseFixupStep, hskip] using hrun, hout⟩
  | red =>
    -- the parent of a red sibling is black, and its children are black nodes
    obtain ⟨hNb, -, hN, hF⟩ := rb_mk_red.mp hctx.1
    cases c with
    | red => exact absurd (ctxRB_red.mp hctx).2.1 (by simp)
    | black =>
      obtain ⟨s₁, hrot, h₁⟩ := rbFixupRedSibling_red hI h
      have hctx₁ : CtxRB (⟨d, .red, p, N⟩ :: ⟨d, .black, w, F⟩ :: fs) (n + 1) :=
        ctxRB_red.mpr ⟨hN, hNb, rfl, ctxRB_black.mpr ⟨hF, (ctxRB_black.mp hctx).2⟩⟩
      obtain ⟨cn, N₁, v, N₂, rfl⟩ := hN.exists_mk d
      rw [color_mk] at hNb
      subst hNb
      obtain ⟨s', r, hrun, hout⟩ :=
        rbFixupBlackSibling_spec (k := fs.length + 1) hI h₁ hctx₁ ht (.inl rfl)
      refine ⟨s', r, by simpa [rbEraseFixupStep, hrot] using hrun, ?_⟩
      convert hout using 1
      simp only [plug_cons, fill]
      apply inorder_plug_congr
      exact (CTree.inorder_rotate ..).symm

end

/-! ## The loop -/

/-- A black subtree below a frame keeps the loop going, on the side of its frame. -/
theorem fixup_goes_on {s : RbState σ} {f : Frame Addr} {fs : List (Frame Addr)}
    {n : ℕ} (h : Rep s (f :: fs) t) (htb : t.color = .black) (hsib : f.sib.RB (n + 1)) :
    (s.isRed t.ptr || t.ptr == s.rbRoot) = false ∧
      (if (s.mem f.x).rbLeft = t.ptr then Dir.left else Dir.right) = f.side := by
  refine ⟨?_, ?_⟩
  · have hroot : t.ptr ≠ s.rbRoot := by
      obtain ⟨r, hr, hmem⟩ := rootOf_mem_ctxIds f fs t.ptr
      rw [h.root, hr]
      exact fun hEq => h.not_mem_ctx (CTree.mem_inorder_of_ptr hEq) hmem
    simp [h.isRed_eq, htb, hroot]
  · obtain ⟨cw, N, w, F, hW⟩ := hsib.exists_mk f.side
    -- the sibling is a node, so it is not the subtree in focus
    have hne : f.sib.ptr ≠ t.ptr := by
      rw [hW, ptr_mk]
      intro hEq
      have hw : w ∈ f.sib.inorder := by
        rw [hW]
        exact CTree.mem_inorder_mk.mpr (.inl rfl)
      exact h.not_mem_ctx (CTree.mem_inorder_of_ptr hEq.symm) (mem_ctxIds_cons.mpr (.inr (.inl hw)))
    cases hs : f.side <;> simp [h.mem_parent, hs, cellOf, hne]

/-- The loop ends at a subtree that only has to be painted black. -/
theorem rbEraseFixupLoop_spec (hI : AugInv cb I) (fuel : ℕ) :
    ∀ {s : RbState σ} {ctx : List (Frame Addr)} {t : CTree Addr}, RepI I s ctx t → FixInv ctx t →
      (t.color = .red ∧ 0 < fuel) ∨ ctx.length + 1 < fuel →
      ∃ s' ctx' t', rbEraseFixupLoop cb fuel s t.ptr (parOf ctx) = some (s', t'.ptr) ∧
        RepI I s' ctx' t' ∧ (plug ctx' t'.blacken).IsRB ∧
        (plug ctx' t').inorder = (plug ctx t).inorder := by
  induction fuel with
  | zero =>
    intro s ctx t _ _ hfuel
    omega
  | succ fuel ih =>
    intro s ctx t h hinv hfuel
    obtain ⟨n, hctx, ⟨htr, ht⟩ | ⟨htb, ht⟩⟩ := hinv
    · -- a red subtree stops the loop
      have hred : s.isRed t.ptr = true := by simp [h.rep.isRed_eq, htr]
      have hb : t.blacken.color = .black := by
        cases t with
        | leaf | node => rfl
      exact ⟨s, ctx, t, by simp [rbEraseFixupLoop, hred], h,
        isRB_plug.mpr ⟨n + 1, hctx, ht, fun _ => hb⟩, rfl⟩
    · cases ctx with
      | nil =>
        have hroot : s.rbRoot = t.ptr := h.rep.root
        refine ⟨s, [], t, by simp [rbEraseFixupLoop, hroot], h, ?_, rfl⟩
        rw [CTree.blacken_eq_self htb]
        exact ⟨⟨n, ht⟩, htb⟩
      | cons f fs =>
        obtain ⟨s₁, r, hstep, hout⟩ := rbEraseFixupStep_spec hI h hctx ht
        obtain ⟨hgo, hside⟩ := fixup_goes_on h.rep htb hctx.1
        cases hout with
        | done hT hrb hord =>
          refine ⟨s₁, [], _, ?_, hT, ?_, hord⟩
          · simp [rbEraseFixupLoop, hgo, hside, hstep, hT.rep.root, rootOf]
          · rwa [plug_nil, CTree.blacken_eq_self hrb.2]
        | again h₁ hinv₁ hord hptr hprog =>
          have hlen : fs.length + 1 < fuel := by simpa [htb] using hfuel
          obtain ⟨s', ctx', t', hrun, h', hrb, hord'⟩ := ih h₁ hinv₁ (by
            rcases hprog with hc | hshort
            · exact .inl ⟨hc, by omega⟩
            · exact .inr (by omega))
          refine ⟨s', ctx', t', ?_, h', hrb, hord'.trans hord⟩
          rw [← hrun, hptr]
          simp [rbEraseFixupLoop, hgo, hside, hstep]

/-- `rb_erase_fixup` turns a tree that is one black node short at the focus into a red-black tree
with the same nodes in the same order. -/
theorem rbEraseFixup_spec (hI : AugInv cb I) {fuel : ℕ} {s : RbState σ} (h : RepI I s ctx t)
    (hinv : FixInv ctx t)
    (hfuel : ctx.length + 1 < fuel) :
    ∃ s' T, rbEraseFixup cb fuel s t.ptr (parOf ctx) = some s' ∧ RepI I s' [] T ∧ T.IsRB ∧
      T.inorder = (plug ctx t).inorder := by
  obtain ⟨s₁, ctx', t', hrun, h₁, hrb, hord⟩ := rbEraseFixupLoop_spec hI fuel h hinv (.inr hfuel)
  refine ⟨_, _, ?_, (h₁.blacken hI).whole, hrb, ?_⟩
  · simp [rbEraseFixup, hrun]
  · rw [← hord]
    exact inorder_plug_congr ctx' (CTree.inorder_blacken t')

/-! # Removal from the Red-Black Tree -/

/-- The removed node has two children, and its right child has a right child but no left one: the
successor is the right child, and the parent pointer of its child is left at the removed node. -/
def StaleSplice (s : RbState σ) (node : Addr) : Prop :=
  (s.mem node).rbLeft ≠ none ∧ match (s.mem node).rbRight with
    | none => False
    | some r => (s.mem r).rbLeft = none ∧ (s.mem r).rbRight ≠ none

instance (s : RbState σ) (node : Addr) : Decidable (StaleSplice s node) := by
  unfold StaleSplice
  cases (s.mem node).rbRight <;> infer_instance

/-! ## The splice -/

variable {ctx : List (Frame Addr)} {c : Color} {x : Addr} {s : RbState σ} {T : CTree Addr}
  {fuel : ℕ}

/-- Taking out a node with a missing child below which the tree was red-black: a black node leaves
a deficit, a red one nothing. -/
theorem splice_rb {d : Dir} {b : CTree Addr} (h : (plug ctx (mk d c .leaf x b)).IsRB) :
    (c = .black → FixInv ctx b) ∧ (c = .red → (plug ctx b).IsRB) := by
  obtain ⟨n, hctx, hrb, -⟩ := isRB_plug.mp h
  refine ⟨?_, ?_⟩
  · rintro rfl
    obtain ⟨m, rfl, -, hb⟩ := CTree.rb_mk_black.mp hrb
    exact fixInv_of_rb hctx hb
  · rintro rfl
    obtain ⟨-, hbb, -, hb⟩ := CTree.rb_mk_red.mp hrb
    exact isRB_plug.mpr ⟨n, hctx, hb, fun _ => hbb⟩

/-- The state after the splice: the layout has lost exactly the node `x`, and what hangs off the
path from the hole to the root are subtrees of the tree before. -/
structure SpliceResult (s s' : RbState σ) (T : CTree Addr) (x : Addr) (ctx : List (Frame Addr))
    (t : CTree Addr) (c : Color) : Prop where
  rep : Rep s' ctx t
  aux : s'.aux = s.aux
  inorder : (plug ctx t).inorder = T.inorder.erase x
  deficit : T.IsRB → c = .black → FixInv ctx t
  whole : T.IsRB → c = .red → (plug ctx t).IsRB
  offPath : ∀ Q : Addr → List Addr → Prop, T.Ann Q → t.Ann Q ∧ ∀ f ∈ ctx, f.sib.Ann Q

theorem erase_append_cons {u v : List Addr} (h : (u ++ x :: v).Nodup) :
    (u ++ x :: v).erase x = u ++ v := by
  have hu : x ∉ u := fun hx => (nodup_append.mp h).2.2 x hx x (by simp) rfl
  rw [erase_append_right _ hu, erase_cons_head]

theorem spliceOut_result {d : Dir} {b : CTree Addr} (h : Rep s ctx (mk d c .leaf x b)) :
    SpliceResult s (rbSpliceOut s x b.ptr) (plug ctx (mk d c .leaf x b)) x ctx b c where
  rep := h.spliceOut
  aux := by simp [rbSpliceOut, rbReplaceLink_aux]
  inorder := by
    have hnd := h.nodup
    rw [inorder_plug, inorder_plug] at *
    cases d with
    | left =>
      simp only [CTree.mk, inorder_node, CTree.inorder_leaf, nil_append,
        append_assoc, cons_append] at hnd ⊢
      rw [erase_append_cons hnd]
    | right =>
      simp only [CTree.mk, inorder_node, CTree.inorder_leaf, append_assoc,
        cons_append, nil_append] at hnd ⊢
      rw [← append_assoc] at hnd ⊢
      rw [← append_assoc, erase_append_cons hnd]
  deficit := fun hrb => (splice_rb hrb).1
  whole := fun hrb => (splice_rb hrb).2
  offPath := by
    intro Q hQ
    obtain ⟨hnode, hctx⟩ := ann_plug.mp hQ
    exact ⟨(CTree.ann_mk.mp hnode).2.2, hctx.sib⟩

/-- The shape with two children. -/
theorem spliceSuccessor_result {s' : RbState σ} {rctx : List (Frame Addr)} {cs : Color}
    {l e : CTree Addr} {y : Addr} (hleft : ∀ f ∈ rctx, f.side = .left)
    (h : Rep s ctx (.node c l x (plug rctx (.node cs .leaf y e))))
    (h' : Rep s' (rctx ++ ⟨.right, c, y, l⟩ :: ctx) e) (haux : s'.aux = s.aux) :
    SpliceResult s s' (plug ctx (.node c l x (plug rctx (.node cs .leaf y e)))) x
      (rctx ++ ⟨.right, c, y, l⟩ :: ctx) e cs where
  rep := h'
  aux := haux
  inorder := by
    have hnd := h.nodup
    simp only [inorder_plug, inorder_node, ctxBefore_eq_nil hleft, plug_append, plug_cons,
      fill, CTree.mk, nil_append, append_assoc, cons_append] at hnd ⊢
    rw [← append_assoc] at hnd
    rw [← append_assoc (ctxBefore ctx), ← append_assoc (ctxBefore ctx), erase_append_cons hnd]
    simp
  deficit := by
    intro hrb hc
    have hrb' : (plug (rctx ++ ⟨.right, c, x, l⟩ :: ctx) (mk .left cs .leaf y e)).IsRB := by
      simpa [plug_append, fill, CTree.mk] using hrb
    obtain ⟨n, hctx, ht⟩ := (splice_rb hrb').1 hc
    exact ⟨n, ctxRB_relabel x y hctx, ht⟩
  whole := by
    intro hrb hc
    have hrb' : (plug (rctx ++ ⟨.right, c, x, l⟩ :: ctx) (mk .left cs .leaf y e)).IsRB := by
      simpa [plug_append, fill, CTree.mk] using hrb
    obtain ⟨n, hctx, ht, hhead⟩ := isRB_plug.mp ((splice_rb hrb').2 hc)
    refine isRB_plug.mpr ⟨n, ctxRB_relabel x y hctx, ht, fun hne => hhead ?_⟩
    cases rctx <;> exact hne
  offPath := by
    intro Q hQ
    obtain ⟨hnode, hctx⟩ := ann_plug.mp hQ
    obtain ⟨-, hl, hr⟩ := hnode
    obtain ⟨hsucc, hrctx⟩ := ann_plug.mp hr
    refine ⟨hsucc.2.2, fun f hf => ?_⟩
    rcases mem_append.mp hf with hf | hf
    · exact hrctx.sib f hf
    · rcases mem_cons.mp hf with rfl | hf
      · exact hl
      · exact hctx.sib f hf

/-- Every splice that is not stale takes out exactly the node. -/
theorem rbSplice_spec (h : Represents s T)
    (hx : x ∈ T.inorder) (hstale : ¬StaleSplice s x) (hfuel : T.inorder.length < fuel) :
    ∃ s' ctx t c, rbSplice fuel s x = some ⟨s', t.ptr, parOf ctx, c⟩ ∧
      SpliceResult s s' T x ctx t c := by
  obtain ⟨ctx, c, l, r, rfl⟩ := exists_plug_of_mem hx
  have hrep : Rep s ctx (.node c l x r) := rep_iff.mpr h
  have hmk : Rep s ctx (mk .left c l x r) := hrep
  have hmx := hmk.mem_mk
  rcases hl : l.ptr with _ | a
  · obtain rfl := ptr_eq_none.mp hl
    refine ⟨_, ctx, r, c, ?_, spliceOut_result hmk⟩
    simp [rbSplice, hmx, cellOf]
  · rcases hr : r.ptr with _ | r₀
    · obtain rfl := ptr_eq_none.mp hr
      have hmk' : Rep s ctx (mk .right c .leaf x l) := hrep
      refine ⟨_, ctx, l, c, ?_, spliceOut_result hmk'⟩
      simp [rbSplice, hmx, cellOf, hl]
    · obtain ⟨rctx, cs, y, e, rfl, hleft, hrun⟩ := rbLeftmost_spec r hmk.focus_far hr
      -- the right child with nothing on its left may have nothing on its right either
      have hnone : rctx = [] → e = .leaf := by
        rintro rfl
        have hy : s.mem y = ⟨some x, none, e.ptr, cs⟩ := by
          have hmy : Rep s _ (mk .left cs .leaf y e) := hmk.focus_far
          simpa [cellOf] using hmy.mem_mk
        by_contra he
        apply hstale
        refine ⟨by simp [hmx, cellOf, hl], ?_⟩
        simpa [hmx, cellOf, hy] using fun hp => he (ptr_eq_none.mp hp)
      have hlen : rctx.length < fuel := by
        have h₁ := length_ctx_le ctx (.node c l x (plug rctx (.node cs .leaf y e)))
        have h₂ := length_ctx_le rctx (.node cs .leaf y e)
        simp only [inorder_node, length_append, length_cons] at h₁ h₂
        omega
      obtain ⟨s', hsp, h', haux⟩ := rbSpliceSuccessor_spec hrep hleft hnone hr (hrun fuel hlen)
      refine ⟨s', _, e, cs, ?_, spliceSuccessor_result hleft hrep h' haux⟩
      simp [rbSplice, hmx, cellOf, hl, hr, hsp]

/-! ## The callback on the way up -/

/-- The callback run on the nodes of a path, innermost first. -/
def augUp (cb : AugmentCb σ) (mem : Addr → RbNode) (aux : σ) : List (Frame Addr) → σ
  | [] => aux
  | f :: fs => augUp cb mem (augAux cb mem aux f.x) fs

theorem Rep.setAux {t : CTree Addr} (h : Rep s ctx t) (aux : σ) : Rep { s with aux := aux } ctx t :=
  { h with }

theorem rbAugmentUp_spec :
    ∀ {s : RbState σ} {t : CTree Addr} {fuel : ℕ}, Rep s ctx t → ctx.length ≤ fuel →
      rbAugmentUp cb fuel s (parOf ctx) = some { s with aux := augUp cb s.mem s.aux ctx } := by
  induction ctx with
  | nil =>
    intro s t fuel _ _
    cases fuel <;> rfl
  | cons f fs ih =>
    intro s t fuel h hlen
    obtain ⟨k, rfl⟩ : ∃ k, fuel = k + 1 := ⟨fuel - 1, by simp at hlen; omega⟩
    have hup : Rep (s.augment cb f.x) fs (f.fill t) := by
      rw [augment_eq]
      exact (rep_cons.mp h).setAux _
    rw [parOf_cons, rbAugmentUp, h.mem_parent, cellOf_parent, ih hup (by simpa using hlen)]
    simp [augment_eq, augUp]

theorem augUp_none (mem : Addr → RbNode) (aux : σ) (ctx : List (Frame Addr)) :
    augUp none mem aux ctx = aux := by
  induction ctx with
  | nil => rfl
  | cons f fs ih => exact ih

theorem rbAugmentFrom_spec {t : CTree Addr} (h : Rep s ctx t) (hlen : ctx.length ≤ fuel) :
    rbAugmentFrom cb fuel s (parOf ctx) = some { s with aux := augUp cb s.mem s.aux ctx } := by
  cases cb with
  | none => simp [rbAugmentFrom, augUp_none]
  | some => exact rbAugmentUp_spec h hlen

/-! ## The whole removal -/

theorem Represents.root_ne_none (h : Represents s T) (hx : x ∈ T.inorder) : s.rbRoot ≠ none := by
  rw [h.root]
  intro hnone
  rw [ptr_eq_none.mp hnone] at hx
  simp at hx

/-- A removal that is not stale ends, takes out exactly the node and leaves a red-black tree. The
callback's data is right afterwards if running the callback up from the hole makes it so. -/
theorem rbEraseAugmented_spec (hI : AugInv cb I) (h : Represents s T) (hrb : T.IsRB)
    (hx : x ∈ T.inorder)
    (hstale : ¬StaleSplice s x) (hfuel : T.inorder.length + 1 < fuel)
    (hup : ∀ s' ctx t c, SpliceResult s s' T x ctx t c →
      I (plug ctx t) (augUp cb s'.mem s.aux ctx)) :
    ∃ s' T', rbEraseAugmented cb fuel s x = some s' ∧ RepI I s' [] T' ∧ T'.IsRB ∧
      T'.inorder = T.inorder.erase x := by
  have hfuel' : T.inorder.length < fuel := by omega
  obtain ⟨s₁, ctx, t, c, hsp, hres⟩ := rbSplice_spec h hx hstale hfuel'
  have hroot := h.root_ne_none hx
  have hlen : ctx.length + 1 < fuel := by
    have h₁ := length_ctx_le ctx t
    have h₂ := length_erase_of_mem hx
    rw [hres.inorder] at h₁
    omega
  set s₂ : RbState σ := { s₁ with aux := augUp cb s₁.mem s₁.aux ctx } with hs₂
  have h₂ : RepI I s₂ ctx t := ⟨hres.rep.setAux _, by
    have hinv := hup s₁ ctx t c hres
    rwa [← hres.aux] at hinv⟩
  have hrun : rbEraseAugmented cb fuel s x =
      if c = .black then rbEraseFixup cb fuel s₂ t.ptr (parOf ctx) else some s₂ := by
    have haug : rbAugmentFrom cb fuel s₁ (parOf ctx) = some s₂ :=
      rbAugmentFrom_spec hres.rep (by omega)
    simp [rbEraseAugmented, hroot, hsp, haug]
  cases c with
  | black =>
    obtain ⟨s', T', hfix, hT', hrb', hord⟩ :=
      rbEraseFixup_spec hI h₂ (hres.deficit hrb rfl) hlen
    exact ⟨s', T', by simp [hrun, hfix], hT', hrb', hord.trans hres.inorder⟩
  | red => exact ⟨s₂, _, by simp [hrun], h₂.whole, hres.whole hrb rfl, hres.inorder⟩

end BoredOS.Core.RbTree
