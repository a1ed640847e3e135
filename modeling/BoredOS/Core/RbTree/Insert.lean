import BoredOS.Core.RbTree.Repr

/-!
# Insertion into the Red-Black Tree

The loop of `rb_insert_augmented` is followed through the representation: at the top of each
iteration the focus is a red node whose subtree is red-black, in a context that is red-black
except that the node's parent may be red as well. Each iteration either moves the focus two frames
up or ends the loop after one or two rotations.
-/

namespace BoredOS.Core.RbTree

open Lib.RedBlack
open CTree (mk color_mk mk_opp ptr_mk rb_mk_black rb_mk_red)

variable {σ : Type} {I : CTree Addr → σ → Prop} {cb : AugmentCb σ}

/-! ## One iteration -/

variable {s : RbState σ} {fs : List (Frame Addr)} {d d₁ : Dir} {p g x : Addr} {S t U : CTree Addr}

/-- The red-uncle case: two repaints and the focus at the grandparent. -/
theorem rbInsertStep_red_uncle (hI : AugInv cb I) {u : Addr} {ua ub : CTree Addr}
    (h : RepI I s (⟨d₁, .red, p, S⟩ :: ⟨d, .black, g, mk d .red ua u ub⟩ :: fs) t) :
    ∃ s', rbInsertStep d cb s x p g = some (s', g) ∧ RepI I s' fs
        (mk d .red (mk d₁ .black t p S) g (mk d .black ua u ub)) := by
  have hg : s.mem g = cellOf d (parOf fs) (some p) (some u) .black := by
    have := (rep_cons.mp h.rep).mem_parent
    simpa [Frame.fill] using this
  have h₁ : RepI I (s.setColor p .black) fs
      (mk d .black (mk d₁ .black t p S) g (mk d .red ua u ub)) :=
    (h.up_near.setColor hI .black).up_near
  have h₂ := (h₁.focus_far.setColor hI .black).up_far
  have h₃ := h₂.setColor hI .red
  refine ⟨_, ?_, h₃⟩
  have hu : s.mem u = cellOf d (some g) ua.ptr ub.ptr .red := by
    have := (h.up_near.up_near.focus_far).rep.mem_mk
    simpa using this
  simp [rbInsertStep, hg, hu]

/-- With a black uncle, or none, the step rotates. -/
theorem rbInsertStep_black_uncle (hU : U.color = .black)
    (h : Rep s (⟨d₁, .red, p, S⟩ :: ⟨d, .black, g, U⟩ :: fs) t) :
    rbInsertStep d cb s x p g = rbInsertRotate d cb s x p g := by
  have hg : s.mem g = cellOf d (parOf fs) (some p) U.ptr .black := by
    simpa [Frame.fill] using (rep_cons.mp h).mem_parent
  have hred := h.up_near.up_near.focus_far.isRed_eq
  rw [hU] at hred
  rcases hp : U.ptr with _ | u
  · simp [rbInsertStep, hg, hp]
  · have hu : (s.mem u).rbColor ≠ .red := by
      rw [hp] at hred
      simpa [RbState.isRed] using hred
    simp [rbInsertStep, hg, hp, hu]

/-- The black-uncle case with the node on the outer side: one rotation at the grandparent. -/
theorem rbInsertRotate_outer (hI : AugInv cb I) (hx : t.ptr = some x)
    (h : RepI I s (⟨d, .red, p, S⟩ :: ⟨d, .black, g, U⟩ :: fs) t) :
    ∃ s', rbInsertRotate d cb s x p g = some (s', x) ∧
      RepI I s' fs (mk d.opp .black (mk d.opp .red U g S) p t) := by
  have hside : (s.mem p).child d.opp ≠ some x := by
    have := h.rep.child_eq_iff hx d.opp
    rw [ne_eq, this]
    cases d <;> simp [Dir.opp]
  have h₁ : RepI I (s.setColor p .black) fs
      (mk d .black (mk d .black t p S) g U) := (h.up_near.setColor hI .black).up_near
  have h₂ := h₁.setColor hI .red
  -- read from the other side, the parent is the far child of the grandparent
  rw [← mk_opp d .red, ← mk_opp d .black] at h₂
  obtain ⟨s', hrot, h₃⟩ := h₂.rotate hI
  refine ⟨s', ?_, h₃⟩
  simp [rbInsertRotate, hside, hrot]

variable {a b : CTree Addr}

/-- The black-uncle case with the node on the inner side: two rotations. -/
theorem rbInsertRotate_inner (hI : AugInv cb I)
    (h : RepI I s (⟨d.opp, .red, p, S⟩ :: ⟨d, .black, g, U⟩ :: fs) (mk d .red a x b)) :
    ∃ s', rbInsertRotate d cb s x p g = some (s', p) ∧ RepI I s' fs
        (mk d.opp .black (mk d.opp .red U g b) x (mk d .red S p a)) := by
  have hside : (s.mem p).child d.opp = some x :=
    (h.rep.child_eq_iff (ptr_mk ..) d.opp).mpr rfl
  obtain ⟨s₁, hrot₁, h₁⟩ := h.up_far.rotate hI
  have hp : s₁.mem p = cellOf d (some x) S.ptr a.ptr .red := by
    simpa using h₁.focus_near.rep.mem_mk
  have hx : s₁.mem x = cellOf d (some g) (some p) b.ptr .red := by
    simpa using h₁.rep.mem_mk
  have h₂ := (h₁.setColor hI .black).up_near.setColor hI .red
  rw [← mk_opp d .red, ← mk_opp d .black] at h₂
  obtain ⟨s₂, hrot₂, h₃⟩ := h₂.rotate hI
  refine ⟨s₂, ?_, h₃⟩
  simp [rbInsertRotate, hside, hrot₁, hp, hx, hrot₂]

/-- The black-uncle case as a whole: the loop goes on at a node below a black parent, and the tree
is red-black again. -/
theorem rbInsertRotate_spec (hI : AugInv cb I) {d₂ : Dir} {n : ℕ}
    (h : RepI I s (⟨d₁, .red, p, S⟩ :: ⟨d₂, .black, g, U⟩ :: fs) (mk d .red a x b))
    (hctx : CtxRB (⟨d₁, .red, p, S⟩ :: ⟨d₂, .black, g, U⟩ :: fs) n)
    (hrb : (mk d .red a x b).RB n) (hU : U.color = .black) :
    ∃ s' x' q t', rbInsertRotate d₂ cb s x p g = some (s', x') ∧ RepI I s' fs t' ∧
      (s'.mem x').rbParent = some q ∧ (s'.mem q).rbColor = .black ∧
      (plug fs t').inorder =
        (plug (⟨d₁, .red, p, S⟩ :: ⟨d₂, .black, g, U⟩ :: fs) (mk d .red a x b)).inorder ∧
      (plug fs t').IsRB := by
  obtain ⟨hSn, hSb, -, hUc⟩ := ctxRB_red.mp hctx
  obtain ⟨hUn, hfs⟩ := ctxRB_black.mp hUc
  obtain ⟨hab, hbb, han, hbn⟩ := rb_mk_red.mp hrb
  by_cases hd : d₁ = d₂
  · subst hd
    obtain ⟨s', hrun, h'⟩ := rbInsertRotate_outer hI (ptr_mk ..) h
    refine ⟨s', x, p, _, hrun, h', ?_, ?_, ?_, ?_⟩
    · simp [h'.focus_far.rep.mem_mk]
    · simp [h'.rep.mem_mk]
    · simp only [plug_cons, Frame.fill]
      apply inorder_plug_congr
      rw [mk_opp, mk_opp]
      exact (CTree.inorder_rotate ..).symm
    · refine isRB_plug.mpr ⟨n + 1, hfs, ?_, fun _ => color_mk ..⟩
      exact rb_mk_black.mpr ⟨n, rfl, rb_mk_red.mpr ⟨hU, hSb, hUn, hSn⟩, hrb⟩
  · have hopp : d₁ = d₂.opp := by
      cases d₁ <;> cases d₂ <;> simp_all [Dir.opp]
    subst hopp
    -- read the node from the side of its parent's sibling
    obtain ⟨a', b', hmk, ha', hb', han', hbn'⟩ : ∃ a' b', mk d .red a x b = mk d₂ .red a' x b' ∧
        a'.color = .black ∧ b'.color = .black ∧ a'.RB n ∧ b'.RB n := by
      by_cases hdd : d = d₂
      · exact ⟨a, b, by rw [hdd], hab, hbb, han, hbn⟩
      · have : d = d₂.opp := by cases d <;> cases d₂ <;> simp_all [Dir.opp]
        exact ⟨b, a, by rw [this, mk_opp], hbb, hab, hbn, han⟩
    rw [hmk] at h ⊢
    obtain ⟨s', hrun, h'⟩ := rbInsertRotate_inner hI h
    refine ⟨s', p, x, _, hrun, h', ?_, ?_, ?_, ?_⟩
    · simp [h'.focus_far.rep.mem_mk]
    · simp [h'.rep.mem_mk]
    · simp only [plug_cons, Frame.fill]
      apply inorder_plug_congr
      rw [mk_opp, mk_opp, mk_opp]
      cases d₂ <;> simp [mk]
    · refine isRB_plug.mpr ⟨n + 1, hfs, ?_, fun _ => color_mk ..⟩
      refine rb_mk_black.mpr ⟨n, rfl, ?_, ?_⟩
      · exact rb_mk_red.mpr ⟨hU, hb', hUn, hbn'⟩
      · exact rb_mk_red.mpr ⟨hSb, ha', hSn, han'⟩

/-! ## The loop -/

theorem rbInsertLoop_stop {fuel : ℕ} {q : Addr}
    (hx : (s.mem x).rbParent = some q) (hq : (s.mem q).rbColor = .black) :
    rbInsertLoop cb (fuel + 1) s x = some s := by
  simp [rbInsertLoop, hx, hq]

/-- From a red node in focus the loop ends, keeps the in-order sequence and leaves a tree that is
red-black once its root is painted black. -/
theorem rbInsertLoop_spec (hI : AugInv cb I) (fuel : ℕ) :
    ∀ {s : RbState σ} {ctx : List (Frame Addr)} {d : Dir} {a b : CTree Addr} {x : Addr} {n : ℕ},
      RepI I s ctx (mk d .red a x b) → CtxRB ctx n → (mk d .red a x b).RB n →
      ctx.length < fuel →
      ∃ s' T, rbInsertLoop cb fuel s x = some s' ∧ RepI I s' [] T ∧
        T.inorder = (plug ctx (mk d .red a x b)).inorder ∧ T.blacken.IsRB := by
  induction fuel with
  | zero =>
    intro s ctx d a b x n _ _ _ hlen
    exact absurd hlen (Nat.not_lt_zero _)
  | succ fuel ih =>
    intro s ctx d a b x n h hctx hrb hlen
    have hmx := h.rep.mem_mk
    match ctx, h, hctx, hlen, hmx with
    | [], h, hctx, hlen, hmx =>
      refine ⟨s, _, ?_, h, rfl, ?_⟩
      · simp [rbInsertLoop, hmx]
      · exact hrb.isRB_blacken
    | ⟨d₁, .black, p, S⟩ :: fs, h, hctx, hlen, hmx =>
      have hmp := h.rep.mem_parent
      refine ⟨s, plug (⟨d₁, .black, p, S⟩ :: fs) (mk d .red a x b), ?_, ?_, rfl, ?_⟩
      · have hblack : (s.mem p).rbColor = .black := by
          simpa using congrArg RbNode.rbColor hmp
        exact rbInsertLoop_stop (q := p) (by simp [hmx]) hblack
      · exact h.whole
      · have hrbT := isRB_plug.mpr ⟨n, hctx, hrb, fun hne => absurd rfl hne⟩
        rwa [CTree.blacken_eq_self hrbT.2]
    | [⟨d₁, .red, p, S⟩], h, hctx, hlen, hmx =>
      exact absurd (ctxRB_red.mp hctx).2.2.1 (by simp)
    | ⟨d₁, .red, p, S⟩ :: ⟨d₂, .red, g, U⟩ :: fs, h, hctx, hlen, hmx =>
      exact absurd (ctxRB_red.mp hctx).2.2.1 (by simp)
    | ⟨d₁, .red, p, S⟩ :: ⟨d₂, .black, g, U⟩ :: fs, h, hctx, hlen, hmx =>
      obtain ⟨hSn, hSb, -, hU⟩ := ctxRB_red.mp hctx
      obtain ⟨hUn, hfs⟩ := ctxRB_black.mp hU
      have hmp := h.rep.mem_parent
      have hside : (if (s.mem g).rbLeft = some p then Dir.left else Dir.right) = d₂ := by
        have hl := (rep_cons.mp h.rep).child_eq_iff (Frame.ptr_fill ..) .left
        have hl' : (s.mem g).rbLeft = some p ↔ d₂ = .left := hl
        cases d₂ <;> simp [hl']
      -- the first unfolding of the loop, up to the step function
      have hloop : rbInsertLoop cb (fuel + 1) s x =
          (rbInsertStep d₂ cb s x p g).bind fun r => rbInsertLoop cb fuel r.1 r.2 := by
        simp [rbInsertLoop, hmx, hmp, hside]
      cases hUc : U.color with
      | red =>
        obtain ⟨cu, ua, u, ub, rfl⟩ : ∃ cu ua u ub, U = mk d₂ cu ua u ub := by
          rcases CTree.leaf_or_mk d₂ U with rfl | hmk
          · simp at hUc
          · exact hmk
        rw [color_mk] at hUc
        subst hUc
        obtain ⟨s', hstep, h'⟩ := rbInsertStep_red_uncle hI (x := x) h
        obtain ⟨hua, hub, huan, hubn⟩ := rb_mk_red.mp hUn
        have hrb' : (mk d₂ .red (mk d₁ .black (mk d .red a x b) p S) g
            (mk d₂ .black ua u ub)).RB (n + 1) := by
          refine rb_mk_red.mpr ⟨color_mk .., color_mk .., ?_, ?_⟩
          · exact rb_mk_black.mpr ⟨n, rfl, hrb, hSn⟩
          · exact rb_mk_black.mpr ⟨n, rfl, huan, hubn⟩
        obtain ⟨s'', T, hrun, hT, hord, hrbT⟩ := ih h' hfs hrb' (by simp at hlen; omega)
        refine ⟨s'', T, ?_, hT, ?_, hrbT⟩
        · simp [hloop, hstep, hrun]
        · rw [hord]
          refine inorder_plug_congr fs (CTree.inorder_mk_congr _ _ _ _ ?_ ?_)
          · exact CTree.inorder_mk_congr _ _ _ _ rfl rfl
          · exact CTree.inorder_mk_congr _ _ _ _ rfl rfl
      | black =>
        obtain ⟨s', x', q, t', hstep, h', hx', hq, hord, hrbT⟩ :=
          rbInsertRotate_spec hI h hctx hrb hUc
        refine ⟨s', _, ?_, h'.whole, hord, ?_⟩
        · rw [hloop, rbInsertStep_black_uncle hUc h.rep, hstep]
          obtain ⟨k, rfl⟩ : ∃ k, fuel = k + 1 := ⟨fuel - 1, by simp at hlen; omega⟩
          exact rbInsertLoop_stop hx' hq
        · rwa [CTree.blacken_eq_self hrbT.2]

/-- `rb_insert_augmented` on a node just linked into a hole of a red-black tree. -/
theorem rbInsertAugmented_spec (hI : AugInv cb I) {ctx : List (Frame Addr)} {fuel : ℕ}
    (h : RepI I s ctx (.node .red .leaf x .leaf))
    (hrb : (plug ctx .leaf).IsRB) (hfuel : ctx.length < fuel) :
    ∃ s' T, rbInsertAugmented cb fuel s x = some s' ∧ RepI I s' [] T ∧ T.IsRB ∧
      T.inorder = ctxBefore ctx ++ x :: ctxAfter ctx := by
  obtain ⟨n, hctx, hleaf, -⟩ := isRB_plug.mp hrb
  have hnode : (mk .left .red .leaf x .leaf).RB n :=
    rb_mk_red.mpr ⟨rfl, rfl, hleaf, hleaf⟩
  have hmk : RepI I s ctx (mk .left .red .leaf x .leaf) := h
  obtain ⟨s₁, T, hrun, hT, hord, hrbT⟩ := rbInsertLoop_spec hI fuel hmk hctx hnode hfuel
  refine ⟨_, _, ?_, hT.blacken hI, hrbT, ?_⟩
  · simp [rbInsertAugmented, hrun, hT.rep.root, rootOf]
  · rw [CTree.inorder_blacken, hord, inorder_plug]
    simp [mk]

end BoredOS.Core.RbTree
