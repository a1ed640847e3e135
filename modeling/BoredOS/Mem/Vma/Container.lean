import BoredOS.Lib.DList
import BoredOS.Core.RbTree.Erase
import BoredOS.Core.RbTree.Insert
import BoredOS.Mem.Vma.Model

/-!
# Coherence of the VMA Container

`GapAt a ex x xs` says that the field of `x` is the greatest gap over the labels `xs` of its
subtree, unless the subtree holds the area `ex` whose gap has just changed. The callback restores
this at one node from its two subtrees, which gives both the rotation rule the tree asks for and
the run of `propagate_gap_upward` along a path.

`Container s T` is the whole invariant of a container: the tree is laid out as `T` and red-black,
the list is its in-order sequence, the areas are disjoint and increasing, and all gap values are
right. Each function of `mem/vma.c` gets one specification over it.
-/

namespace BoredOS.Mem.Vma

open Core.RbTree Lib.RedBlack Lib.DList Function List
open CTree (mk ann_mk mem_inorder_mk)

variable {a : VmaData} {ex : Option Addr} {ctx : List (Frame Addr)}

/-! ## The greatest gap of a sequence of areas -/

theorem maxGap_eq_max (a b : ℕ) : maxGap a b = max a b := by
  unfold maxGap
  split <;> omega

/-- The greatest gap over some areas. -/
def gapMax (a : VmaData) (xs : List Addr) : ℕ := (xs.map (nodeGapToNext a)).foldr max 0

@[simp] theorem gapMax_nil (a : VmaData) : gapMax a [] = 0 := rfl

@[simp] theorem gapMax_cons (a : VmaData) (x : Addr) (xs : List Addr) :
    gapMax a (x :: xs) = max (nodeGapToNext a x) (gapMax a xs) := rfl

@[simp] theorem gapMax_append (a : VmaData) (xs ys : List Addr) :
    gapMax a (xs ++ ys) = max (gapMax a xs) (gapMax a ys) := by
  induction xs with
  | nil => simp
  | cons x xs ih => simp [ih, Nat.max_assoc]

variable {a' : VmaData}

theorem gapMax_congr {xs : List Addr}
    (h : ∀ x ∈ xs, nodeGapToNext a' x = nodeGapToNext a x) : gapMax a' xs = gapMax a xs := by
  induction xs with
  | nil => rfl
  | cons x xs ih =>
    rw [gapMax_cons, gapMax_cons, h x mem_cons_self, ih fun y hy => h y (mem_cons_of_mem x hy)]

/-- The gaps are read from the list fields, which the callback does not change. -/
theorem nodeGapToNext_congr (h : a'.area = a.area) : nodeGapToNext a' = nodeGapToNext a := by
  funext x
  simp [nodeGapToNext, h]

theorem gapMax_eq (h : a'.area = a.area) : gapMax a' = gapMax a := by
  funext xs
  exact gapMax_congr fun x _ => by rw [nodeGapToNext_congr h]

/-! ## Right values -/

/-- The value of `x` is right for a subtree with the labels `xs`, or the subtree holds `ex`. -/
def GapAt (a : VmaData) (ex : Option Addr) (x : Addr) (xs : List Addr) : Prop :=
  (∃ p ∈ ex, p ∈ xs) ∨ a.rbSubtreeMaxGap x = gapMax a xs

section

variable {s : VmaState} {d : Dir} {c : Color} {A B t : CTree Addr} {x : Addr}

/-- The value read from a subtree is right if nothing in it is excused. -/
theorem childGap_eq (h : t.Ann (GapAt a ex)) (hex : ∀ p ∈ ex, p ∉ t.inorder) :
    childGap a t.ptr = gapMax a t.inorder := by
  cases t with
  | leaf => rfl
  | node =>
    rcases h.1 with ⟨p, hp, hmem⟩ | hval
    · exact absurd hmem (hex p hp)
    · exact hval

theorem update_area (mem : Addr → RbNode) (a : VmaData) (x : Addr) :
    (updateVmaSubtreeGap mem a x).area = a.area := rfl

/-- The callback changes nothing in subtrees without `x`. -/
theorem Ann.update_of_not_mem (h : t.Ann (GapAt a ex)) (hx : x ∉ t.inorder)
    (mem : Addr → RbNode) : t.Ann (GapAt (updateVmaSubtreeGap mem a x) ex) := by
  refine h.imp fun y hy xs _ hval => ?_
  have hne : y ≠ x := fun hEq => hx (hEq ▸ hy)
  rcases hval with hex | hval
  · exact .inl hex
  · right
    rw [gapMax_eq (update_area mem a x), ← hval]
    exact update_of_ne hne ..

/-- The callback makes the value of a node right from right subtrees. -/
theorem ann_update (h : Rep s ctx (mk d c A x B)) (hA : A.Ann (GapAt a ex))
    (hB : B.Ann (GapAt a ex)) : (mk d c A x B).Ann (GapAt (updateVmaSubtreeGap s.mem a x) ex) := by
  obtain ⟨⟨hxA, hxB⟩, -⟩ := CTree.nodup_inorder_mk.mp h.sub_nodup
  refine ann_mk.mpr ⟨?_, Ann.update_of_not_mem hA hxA s.mem, Ann.update_of_not_mem hB hxB s.mem⟩
  by_cases hex : ∃ p ∈ ex, p ∈ (mk d c A x B).inorder
  · exact .inl hex
  · right
    have hnot : ∀ p ∈ ex, p ∉ A.inorder ∧ p ∉ B.inorder := by
      intro p hp
      refine ⟨fun hmem => hex ⟨p, hp, ?_⟩, fun hmem => hex ⟨p, hp, ?_⟩⟩
      · exact mem_inorder_mk.mpr (.inr (.inl hmem))
      · exact mem_inorder_mk.mpr (.inr (.inr hmem))
    have hvA := childGap_eq hA fun p hp => (hnot p hp).1
    have hvB := childGap_eq hB fun p hp => (hnot p hp).2
    rw [gapMax_eq (update_area s.mem a x)]
    simp only [updateVmaSubtreeGap, update_self, h.mem_mk, maxGap_eq_max]
    cases d with
    | left | right =>
      simp only [cellOf, hvA, hvB, mk, CTree.inorder_node, gapMax_append, gapMax_cons]
      omega

end

/-! ## The rule for the tree -/

/-- What the tree keeps for this callback: the list fields are those of `D`, and every value is
right outside the path of `ex`. -/
structure GapInv (D : VmaData) (ex : Option Addr) (T : CTree Addr) (a : VmaData) : Prop where
  head : a.head = D.head
  area : a.area = D.area
  gaps : T.Ann (GapAt a ex)

/-- Values along a path do not change when the callback runs on nodes below it. -/
theorem ctxAnn_update {x : Addr} (mem : Addr → RbNode) (hx : x ∉ ctxIds ctx) :
    ∀ {xs : List Addr}, CtxAnn (GapAt a ex) ctx xs →
      CtxAnn (GapAt (updateVmaSubtreeGap mem a x) ex) ctx xs := by
  induction ctx with
  | nil =>
    intro xs _
    trivial
  | cons f fs ih =>
    intro xs h
    obtain ⟨hf, hsib, hfs⟩ := h
    simp only [mem_ctxIds_cons, not_or] at hx
    refine ⟨?_, Ann.update_of_not_mem hsib hx.2.1 mem, ih hx.2.2 hfs⟩
    rcases hf with hex | hval
    · exact .inl hex
    · right
      rw [gapMax_eq (update_area mem a x), ← hval]
      exact update_of_ne (Ne.symm hx.1) ..

/-- Repainting keeps the values, and so does a rotation followed by the callback on its two
nodes. -/
theorem gap_augInv (D : VmaData) (ex : Option Addr) : AugInv gapCb (GapInv D ex) where
  recolor := by
    intro ctx d c c' A x B a h
    refine ⟨h.head, h.area, ?_⟩
    obtain ⟨hnode, hctx⟩ := ann_plug.mp h.gaps
    have hord : (mk d c' A x B).inorder = (mk d c A x B).inorder :=
      CTree.inorder_mk_congr d c' c x rfl rfl
    refine ann_plug.mpr ⟨?_, hord ▸ hctx⟩
    obtain ⟨hx, hAB⟩ := ann_mk.mp hnode
    exact ann_mk.mpr ⟨hord ▸ hx, hAB⟩
  rotate := by
    intro s ctx d cx cy A B E x y a hrep h
    obtain ⟨hnode, hctx⟩ := ann_plug.mp h.gaps
    obtain ⟨-, hA, hyBE⟩ := ann_mk.mp hnode
    obtain ⟨-, hB, hE⟩ := ann_mk.mp hyBE
    have hnd := CTree.nodup_inorder_mk.mp hrep.sub_nodup
    have hxE : x ∉ E.inorder := hnd.2.2.2 x (mem_inorder_mk.mpr (.inl rfl))
    have hxctx : x ∉ ctxIds ctx := hrep.not_mem_ctx (mem_inorder_mk.mpr
      (.inr (.inl (mem_inorder_mk.mpr (.inl rfl)))))
    have hyctx : y ∉ ctxIds ctx := hrep.not_mem_ctx (mem_inorder_mk.mpr (.inl rfl))
    -- the lower node first, then the upper one
    have hx' := ann_update hrep.focus_near hA hB
    have hE' := Ann.update_of_not_mem hE hxE s.mem
    have hy' := ann_update hrep hx' hE'
    have hord := CTree.inorder_rotate d cy cx cx cy A B E x y
    have hctx' := ctxAnn_update s.mem hyctx (ctxAnn_update s.mem hxctx hctx)
    exact ⟨h.head, h.area, ann_plug.mpr ⟨hy', hord ▸ hctx'⟩⟩

/-! ## Runs up a path -/

/-- After the callback has run up a path, the values on the path are right as well. -/
theorem ann_augUp {s : VmaState} :
    ∀ {t : CTree Addr} {a : VmaData}, Rep s ctx t → t.Ann (GapAt a ex) →
      (∀ f ∈ ctx, f.sib.Ann (GapAt a ex)) →
      GapInv a ex (plug ctx t) (augUp gapCb s.mem a ctx) := by
  induction ctx with
  | nil =>
    intro t a _ ht _
    exact ⟨rfl, rfl, ht⟩
  | cons f fs ih =>
    intro t a h ht hsibs
    have hfill : Rep s fs (f.fill t) := rep_cons.mp h
    have hnode : (f.fill t).Ann (GapAt (updateVmaSubtreeGap s.mem a f.x) ex) :=
      ann_update hfill ht (hsibs f mem_cons_self)
    have hx : f.x ∉ ctxIds fs := hfill.not_mem_ctx (mem_inorder_mk.mpr (.inl rfl))
    have hsibs' : ∀ g ∈ fs, g.sib.Ann (GapAt (updateVmaSubtreeGap s.mem a f.x) ex) := by
      intro g hg
      refine Ann.update_of_not_mem (hsibs g (mem_cons_of_mem f hg)) (fun hmem => hx ?_) s.mem
      exact mem_ctxIds_of_mem_sib hg hmem
    obtain ⟨hhead, harea, hgaps⟩ := ih hfill hnode hsibs'
    exact ⟨hhead, harea, hgaps⟩

/-- `propagate_gap_upward` from a node: if the values off its path are right, all are. -/
theorem propagateGapUpward_spec {s : VmaState}
    {d : Dir} {c : Color} {A B : CTree Addr} {x : Addr} {fuel : ℕ}
    (h : Rep s ctx (mk d c A x B)) (hA : A.Ann (GapAt s.aux ex))
    (hB : B.Ann (GapAt s.aux ex)) (hsibs : ∀ f ∈ ctx, f.sib.Ann (GapAt s.aux ex))
    (hfuel : ctx.length < fuel) :
    ∃ s', propagateGapUpward fuel s (some x) = some s' ∧
      RepI (GapInv s.aux ex) s' ctx (mk d c A x B) := by
  have hrun : rbAugmentUp gapCb fuel s (some x) = _ :=
    rbAugmentUp_spec h.focus_near (by simp only [length_cons]; omega)
  refine ⟨_, hrun, h.setAux _, ?_⟩
  refine ann_augUp h.focus_near hA ?_
  intro f hf
  rcases mem_cons.mp hf with rfl | hf
  · exact hB
  · exact hsibs f hf

/-! ## The invariant -/

def IsList (a : VmaData) (xs : List Addr) : Prop :=
  Dll (fun x => (a.area x).next) (fun x => (a.area x).prev) a.head xs

/-- The areas are not empty, and each ends before the next ones start. -/
structure Ordered (a : VmaData) (xs : List Addr) : Prop where
  nonempty : ∀ x ∈ xs, (a.area x).start < (a.area x).end_
  increasing : xs.Pairwise fun x y => (a.area x).end_ ≤ (a.area y).start

/-- The invariant of a container. -/
structure Container (s : VmaState) (T : CTree Addr) : Prop where
  rep : Represents s T
  rb : T.IsRB
  list : IsList s.aux T.inorder
  ordered : Ordered s.aux T.inorder
  gaps : T.Ann (GapAt s.aux none)

def SameBounds (a a' : VmaData) : Prop :=
  ∀ x, (a'.area x).start = (a.area x).start ∧ (a'.area x).end_ = (a.area x).end_

theorem SameBounds.of_area {a a' : VmaData} (h : a'.area = a.area) : SameBounds a a' := fun x => by
  rw [h]
  exact ⟨rfl, rfl⟩

theorem SameBounds.trans {a a' a'' : VmaData} (h : SameBounds a a') (h' : SameBounds a' a'') :
    SameBounds a a'' := fun x =>
  ⟨(h' x).1.trans (h x).1, (h' x).2.trans (h x).2⟩

theorem Ordered.congr {a a' : VmaData} {xs : List Addr} (h : Ordered a xs)
    (hb : ∀ x ∈ xs, (a'.area x).start = (a.area x).start ∧ (a'.area x).end_ = (a.area x).end_) :
    Ordered a' xs where
  nonempty x hx := by
    rw [(hb x hx).1, (hb x hx).2]
    exact h.nonempty x hx
  increasing := by
    refine h.increasing.imp_of_mem fun {x y} hx hy hxy => ?_
    rw [(hb x hx).2, (hb y hy).1]
    exact hxy

theorem Ordered.sublist {a : VmaData} {xs ys : List Addr} (h : Ordered a ys)
    (hsub : xs.Sublist ys) : Ordered a xs :=
  ⟨fun x hx => h.nonempty x (hsub.subset hx), h.increasing.sublist hsub⟩

/-! ## The list operations -/

variable {a : VmaData} {u v : List Addr} {x : Addr}

theorem modify_area_self (a : VmaData) (x : Addr) (g : VmArea → VmArea) :
    (a.modify x g).area x = g (a.area x) := by
  simp [VmaData.modify]

theorem modify_area_of_ne (a : VmaData) {x y : Addr} (g : VmArea → VmArea) (h : y ≠ x) :
    (a.modify x g).area y = a.area y := by
  simp [VmaData.modify, h]

variable (q p : Option Addr)

/-- Storing a `prev` pointer changes this field of this area only. -/
theorem setPrev?_area (a : VmaData) (y : Addr) : (a.setPrev? q p).area y =
      if q = some y then { a.area y with prev := p } else a.area y := by
  cases q with
  | none => rfl
  | some z =>
    by_cases hzy : z = y
    · subst hzy
      simp [VmaData.setPrev?, modify_area_self]
    · rw [if_neg (by simpa using hzy)]
      exact modify_area_of_ne a (fun v => { v with prev := p }) (Ne.symm hzy)

theorem setPrev?_head (a : VmaData) : (a.setPrev? q p).head = a.head := by
  cases q <;> rfl

theorem setPrev?_gap (a : VmaData) : (a.setPrev? q p).rbSubtreeMaxGap = a.rbSubtreeMaxGap := by
  cases q <;> rfl

theorem last_ne_head {y : Addr} (h : (u ++ v).Nodup) (hy : u.getLast? = some y) :
    v.head? ≠ some y :=
  fun hy' => (nodup_append.mp h).2.2 y (mem_of_getLast? hy) y (mem_of_head? hy') rfl

theorem linkList_area (h : IsList a (u ++ v)) (hx : x ∉ u ++ v) (y : Addr) :
    (linkList a x u.getLast?).area y =
      if y = x then { a.area x with prev := u.getLast?, next := v.head? }
      else if u.getLast? = some y then { a.area y with next := some x }
      else if v.head? = some y then { a.area y with prev := some x } else a.area y := by
  have hxv : v.head? ≠ some x := fun hEq => hx (mem_append_right u (mem_of_head? hEq))
  rcases hu : u.getLast? with _ | p
  · -- at the head of the list
    obtain rfl := getLast?_eq_none_iff.mp hu
    have hhead : a.head = v.head? := h.head_eq
    simp only [linkList, VmaData.modify, setPrev?_area, hhead]
    by_cases hyx : y = x
    · subst hyx
      simp [hxv]
    · simp [hyx]
  · -- after the area `p`
    have hpv := last_ne_head h.nodup hu
    obtain ⟨u', rfl⟩ := getLast?_eq_some_iff.mp hu
    have hpx : p ≠ x := fun hEq => hx (by simp [hEq])
    have hnext : (a.area p).next = v.head? := by
      have h' : IsList a (u' ++ p :: v) := by simpa using h
      exact h'.next_eq
    simp only [linkList, VmaData.modify, setPrev?_area]
    by_cases hyx : y = x
    · subst hyx
      simp [hpx, hpx.symm, hnext, hxv, setPrev?_area]
    · by_cases hyp : y = p
      · subst hyp
        simp [hpx, hnext, hpv]
      · simp [hyx, hyp, hpx, hnext, setPrev?_area, Ne.symm hyp]

/-- The list part of `vma_insert` links the area in after its predecessor. -/
theorem linkList_spec (h : IsList a (u ++ v)) (hx : x ∉ u ++ v) :
    IsList (linkList a x u.getLast?) (u ++ x :: v) ∧ SameBounds a (linkList a x u.getLast?) ∧
      (linkList a x u.getLast?).rbSubtreeMaxGap = a.rbSubtreeMaxGap ∧
      ((linkList a x u.getLast?).area x).prev = u.getLast? ∧
      ∀ y ≠ x, u.getLast? ≠ some y →
        ((linkList a x u.getLast?).area y).next = (a.area y).next := by
  have harea := linkList_area h hx
  refine ⟨.insert h hx ?_ ?_ ?_ ?_ ?_, ?_, ?_, ?_, ?_⟩
  · simp [harea]
  · simp [harea]
  · intro y hy
    have hyx : y ≠ x := fun hEq => hx (hEq ▸ hy)
    rw [harea, if_neg hyx]
    split
    · rfl
    · split <;> rfl
  · intro y hy
    have hyx : y ≠ x := fun hEq => hx (hEq ▸ hy)
    rw [harea, if_neg hyx]
    split
    next hu => rw [if_neg (last_ne_head h.nodup hu)]
    next => split <;> rfl
  · have hhead : a.head = (u ++ v).head? := h.head_eq
    rcases hu : u.getLast? with _ | p
    · obtain rfl := getLast?_eq_none_iff.mp hu
      rfl
    · obtain ⟨u', rfl⟩ := getLast?_eq_some_iff.mp hu
      simp only [linkList, VmaData.modify, setPrev?_head]
      rw [hhead]
      cases u' <;> simp
  · intro y
    rw [harea]
    split
    next hyx => simp [hyx]
    next =>
      split
      · simp
      · split <;> simp
  · cases u.getLast? <;> simp [linkList, setPrev?_gap, VmaData.modify]
  · simp [harea]
  · intro y hyx hyp
    rw [harea, if_neg hyx, if_neg hyp]
    split <;> rfl

/-- The list part of `vma_remove` links the neighbours to each other. -/
theorem unlinkList_spec (h : IsList a (u ++ x :: v)) :
    IsList (unlinkList a x) (u ++ v) ∧ SameBounds a (unlinkList a x) ∧
      (unlinkList a x).rbSubtreeMaxGap = a.rbSubtreeMaxGap ∧
      ∀ y, u.getLast? ≠ some y → ((unlinkList a x).area y).next = (a.area y).next := by
  have hprev : (a.area x).prev = u.getLast? := h.prev_eq
  have hnext : (a.area x).next = v.head? := h.next_eq
  have hdisj : ∀ y, u.getLast? = some y → v.head? ≠ some y :=
    fun y => last_ne_head (h.nodup.sublist (by simp))
  have harea : ∀ y, (unlinkList a x).area y =
      if u.getLast? = some y then { a.area y with next := v.head? }
      else if v.head? = some y then { a.area y with prev := u.getLast? } else a.area y := by
    intro y
    simp only [unlinkList, hprev, hnext, setPrev?_area]
    rcases hu : u.getLast? with _ | p
    · simp
    · by_cases hpy : p = y
      · subst hpy
        simp [VmaData.modify, hdisj p hu]
      · simp [VmaData.modify, hpy, Ne.symm hpy]
  refine ⟨?_, ?_, ?_, ?_⟩
  · refine .remove h ?_ ?_ ?_
    · intro y _
      rw [harea]
      split
      · rfl
      · split <;> rfl
    · intro y _
      rw [harea]
      by_cases hu : u.getLast? = some y
      · simp [hu, hdisj y hu]
      · rw [if_neg hu]
        split <;> rfl
    · have hhead : a.head = (u ++ x :: v).head? := h.head_eq
      simp only [unlinkList, hprev, hnext, setPrev?_head]
      rcases hu : u.getLast? with _ | p
      · obtain rfl := getLast?_eq_none_iff.mp hu
        rfl
      · obtain ⟨u', rfl⟩ := getLast?_eq_some_iff.mp hu
        simp only [VmaData.modify, hhead]
        cases u' <;> simp
  · intro y
    rw [harea]
    split
    · exact ⟨rfl, rfl⟩
    · split <;> exact ⟨rfl, rfl⟩
  · simp only [unlinkList, setPrev?_gap]
    split <;> rfl
  · intro y hy
    rw [harea, if_neg hy]
    split <;> rfl

end BoredOS.Mem.Vma
