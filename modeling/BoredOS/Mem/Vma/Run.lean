import BoredOS.Mem.Vma.Container
import BoredOS.Core.RbTree.Run

/-!
# The Functions of the VMA Container

`vma_insert`, `vma_remove`, `vma_split` and `vma_merge_adjacent` keep a container coherent. An
area whose gap changes is excused until `propagate_gap_upward` has run from it; everything else is
a tree operation with the gap callback.
-/

namespace BoredOS.Mem.Vma

open Core.RbTree Lib.RedBlack Lib.DList List CTree Frame Lib.Fuel Lib.Transition
open Option (bind_eq_bind bind_eq_some_iff bind_some map_some)

/-! ## Gap values after a change -/

section

variable {a a' : VmaData} {ex : Option Addr} {t T : CTree Addr} {x : Addr}

theorem gapAt_weaken (h : t.Ann (GapAt a none)) (ex : Option Addr) : t.Ann (GapAt a ex) := by
  refine h.imp fun y _ xs _ hval => ?_
  rcases hval with ⟨p, hp, -⟩ | hval
  · simp at hp
  · exact .inr hval

/-- Nothing is excused in a subtree without the excused area. -/
theorem gapAt_strengthen (h : t.Ann (GapAt a (some x))) (hx : x ∉ t.inorder) :
    t.Ann (GapAt a none) := by
  refine h.imp fun y _ xs hxs hval => ?_
  rcases hval with ⟨p, hp, hmem⟩ | hval
  · obtain rfl : x = p := by simpa using hp
    exact absurd (hxs x hmem) hx
  · exact .inr hval

/-- When the gaps of some areas change, subtrees without them keep right values. -/
theorem gapAt_congr (h : t.Ann (GapAt a ex))
    (hgap : ∀ y ∈ t.inorder, a'.rbSubtreeMaxGap y = a.rbSubtreeMaxGap y)
    (hnode : ∀ y ∈ t.inorder, ex ≠ some y → nodeGapToNext a' y = nodeGapToNext a y) :
    t.Ann (GapAt a' ex) := by
  refine h.imp fun y hy xs hxs hval => ?_
  by_cases hex : ∃ p ∈ ex, p ∈ xs
  · exact .inl hex
  · rcases hval with hval | hval
    · exact absurd hval hex
    · right
      rw [hgap y hy, hval]
      refine (gapMax_congr fun z hz => hnode z (hxs z hz) fun hEq => hex ⟨z, hEq, hz⟩).symm

/-- An area whose gap does not change keeps its links and the bounds. -/
theorem nodeGap_congr {y : Addr} (hb : SameBounds a a')
    (hn : (a'.area y).next = (a.area y).next) : nodeGapToNext a' y = nodeGapToNext a y := by
  simp only [nodeGapToNext, hn]
  cases (a.area y).next with
  | none => rfl
  | some n => simp only [(hb n).1, (hb y).2]

/-! An area gets another end. -/

variable (a) (x) (e : ℕ) {y : Addr}

theorem setEnd_self : (a.setEnd x e).area x = { a.area x with end_ := e } :=
  modify_area_self a x _

variable {x} in
theorem setEnd_of_ne (hy : y ≠ x) : (a.setEnd x e).area y = a.area y :=
  modify_area_of_ne a _ hy

theorem setEnd_fields (y : Addr) : ((a.setEnd x e).area y).start = (a.area y).start ∧
    ((a.setEnd x e).area y).next = (a.area y).next ∧
    ((a.setEnd x e).area y).prev = (a.area y).prev := by
  by_cases hy : y = x
  · rw [hy, setEnd_self]
    exact ⟨rfl, rfl, rfl⟩
  · rw [setEnd_of_ne a e hy]
    exact ⟨rfl, rfl, rfl⟩

variable {a} {xs : List Addr}

theorem IsList.setEnd (h : IsList a xs) : IsList (a.setEnd x e) xs :=
  Dll.congr h (fun y _ => (setEnd_fields a x e y).2) rfl

/-- Only the gap of the area has changed. -/
theorem gapAt_setEnd (h : t.Ann (GapAt a none)) : t.Ann (GapAt (a.setEnd x e) (some x)) := by
  refine gapAt_congr (gapAt_weaken h (some x)) (fun _ _ => rfl) fun y _ hy => ?_
  have hyx : y ≠ x := fun hEq => hy (by rw [hEq])
  simp only [nodeGapToNext, (setEnd_fields a x e _).1, setEnd_of_ne a e hyx]

end

variable {s : VmaState} {T : CTree Addr} {x p : Addr} {fuel : ℕ} {a : VmaData}
  {ctx : List (Frame Addr)}

/-- `propagate_gap_upward` from the excused area makes all values right and changes nothing
else. -/
theorem propagate_excused
    (h : Represents s T) (hx : x ∈ T.inorder) (hgaps : T.Ann (GapAt s.aux (some x)))
    (hfuel : T.inorder.length < fuel) :
    ∃ s', propagateGapUpward fuel s (some x) = some s' ∧ Represents s' T ∧
      GapInv s.aux none T s'.aux := by
  obtain ⟨ctx, c, A, B, rfl, hrep⟩ := h.split hx .left
  obtain ⟨hnode, hctx⟩ := ann_plug.mp hgaps
  obtain ⟨-, hA, hB⟩ := ann_mk.mp hnode
  have hnd := nodup_inorder_mk.mp hrep.sub_nodup
  have hxctx : x ∉ ctxIds ctx := hrep.not_mem_ctx (mem_inorder_mk.mpr (.inl rfl))
  have hlen : ctx.length < fuel := by
    have := length_ctx_le ctx (CTree.mk .left c A x B)
    omega
  obtain ⟨s', hrun, hrepI⟩ := propagateGapUpward_spec hrep
    (gapAt_strengthen hA hnd.1.1) (gapAt_strengthen hB hnd.1.2)
    (fun f hf => gapAt_strengthen (hctx.sib f hf) fun hmem => hxctx (mem_ctxIds_of_mem_sib hf hmem))
    hlen
  exact ⟨s', hrun, rep_iff.mp hrepI.rep, hrepI.inv⟩

theorem IsList.congr_area {a' : VmaData} (h : IsList a xs)
    (hhead : a'.head = a.head) (harea : a'.area = a.area) : IsList a' xs := by
  unfold IsList
  rw [hhead, harea]
  exact h

/-- A tree with right values over the list and the bounds of `D` is a container. -/
theorem container_of_gapInv {D : VmaData} (h : Represents s T)
    (hrb : T.IsRB) (hinv : GapInv D none T s.aux) (hlist : IsList D T.inorder)
    (hord : Ordered D T.inorder) : Container s T where
  rep := h
  rb := hrb
  list := hlist.congr_area hinv.head hinv.area
  ordered := hord.congr fun x _ => SameBounds.of_area hinv.area x
  gaps := hinv.gaps

/-! ## Insertion -/

/-- Two areas have an address in common. -/
def Meets (a : VmaData) (x y : Addr) : Prop :=
  (a.area y).start < (a.area x).end_ ∧ (a.area x).start < (a.area y).end_

/-- The descent of `vma_insert` finds an overlap, or the hole where everything to the left ends
before the new area and everything to the right starts after it. -/
theorem vmaInsertWalk_spec (vma : Addr) (t : CTree Addr) :
    ∀ {ctx : List (Frame Addr)} {fuel : ℕ}, Rep s ctx t → Ordered s.aux (plug ctx t).inorder →
      (∀ y ∈ ctxBefore ctx, (s.aux.area y).end_ ≤ (s.aux.area vma).start) →
      (∀ y ∈ ctxAfter ctx, (s.aux.area vma).end_ ≤ (s.aux.area y).start) →
      t.inorder.length ≤ fuel →
      (vmaInsertWalk s vma fuel t.ptr (ctx.head?.map fun f => (f.x, f.side))
          (ctxBefore ctx).getLast? = some none ∧ ∃ y ∈ t.inorder, Meets s.aux vma y) ∨
        ∃ ctx', vmaInsertWalk s vma fuel t.ptr (ctx.head?.map fun f => (f.x, f.side))
            (ctxBefore ctx).getLast? =
              some (some (ctx'.head?.map (fun f => (f.x, f.side)), (ctxBefore ctx').getLast?)) ∧
          plug ctx' .leaf = plug ctx t ∧
          (∀ y ∈ ctxBefore ctx', (s.aux.area y).end_ ≤ (s.aux.area vma).start) ∧
          ∀ y ∈ ctxAfter ctx', (s.aux.area vma).end_ ≤ (s.aux.area y).start := by
  induction t with
  | leaf =>
    intro ctx fuel _ _ hbefore hafter _
    exact .inr ⟨ctx, by cases fuel <;> rfl, rfl, hbefore, hafter⟩
  | node c l x r ihl ihr =>
    intro ctx fuel h hord hbefore hafter hlen
    have hmk : Rep s ctx (CTree.mk .left c l x r) := h
    have hmx := hmk.mem_mk
    obtain ⟨fuel, rfl⟩ : ∃ k, fuel = k + 1 := ⟨fuel - 1, by simp at hlen; omega⟩
    have hlen' : l.inorder.length ≤ fuel ∧ r.inorder.length ≤ fuel := by
      simp at hlen
      omega
    -- the subtree in focus is in order
    have hsub : Ordered s.aux (l.inorder ++ x :: r.inorder) := by
      refine hord.sublist ?_
      rw [inorder_plug]
      exact (sublist_append_right _ _).trans (sublist_append_left _ _)
    have hinc := pairwise_append.mp hsub.increasing
    have hx := hsub.nonempty x (by simp)
    have inner : ∀ y, y ∈ l.inorder ∨ y ∈ r.inorder → Meets s.aux vma y →
        ∃ y ∈ (CTree.node c l x r).inorder, Meets s.aux vma y :=
      fun y hy hmeet => ⟨y, by simp only [inorder_node, mem_append, mem_cons]; tauto, hmeet⟩
    rw [ptr_node, vmaInsertWalk]
    by_cases hover : (!decide ((s.aux.area vma).end_ ≤ (s.aux.area x).start) &&
        !decide ((s.aux.area vma).start ≥ (s.aux.area x).end_)) = true
    · refine .inl ⟨by simp only [Bool.not_or, hover, if_true], x, by simp, ?_⟩
      simp only [Bool.and_eq_true, Bool.not_eq_true', decide_eq_false_iff_not] at hover
      exact ⟨Nat.lt_of_not_le hover.1, Nat.lt_of_not_le hover.2⟩
    · simp only [Bool.not_or, hover]
      by_cases hleft : (s.aux.area vma).end_ ≤ (s.aux.area x).start
      · -- to the left: `x` and its right subtree come after
        simp only [hleft, if_true]
        have hafter' : ∀ y ∈ ctxAfter (⟨.left, c, x, r⟩ :: ctx),
            (s.aux.area vma).end_ ≤ (s.aux.area y).start := by
          intro y hy
          simp only [ctxAfter, Frame.after, mem_append, mem_cons] at hy
          rcases hy with (rfl | hy) | hy
          · exact hleft
          · have := (pairwise_cons.mp hinc.2.1).1 y hy
            omega
          · exact hafter y hy
        have hbefore' : ∀ y ∈ ctxBefore (⟨.left, c, x, r⟩ :: ctx),
            (s.aux.area y).end_ ≤ (s.aux.area vma).start := by
          simpa [ctxBefore, before] using hbefore
        have hih := ihl hmk.focus_near hord hbefore' hafter' hlen'.1
        have hih := hih.imp_left (And.imp_right fun h => h.elim fun y hy =>
            inner y (.inl hy.1) hy.2)
        simpa [hmx, cellOf, ctxBefore, before, fill, CTree.mk] using hih
      · -- to the right: `x` and its left subtree come before
        have hright : (s.aux.area vma).start ≥ (s.aux.area x).end_ := by
          by_contra hlt
          exact hover (by simp [hleft, hlt])
        simp only [hleft, if_false]
        have hbefore' : ∀ y ∈ ctxBefore (⟨.right, c, x, l⟩ :: ctx),
            (s.aux.area y).end_ ≤ (s.aux.area vma).start := by
          intro y hy
          simp only [ctxBefore, before, mem_append, mem_singleton] at hy
          rcases hy with hy | hy | rfl
          · exact hbefore y hy
          · have := hinc.2.2 y hy x (by simp)
            omega
          · exact hright
        have hafter' : ∀ y ∈ ctxAfter (⟨.right, c, x, l⟩ :: ctx),
            (s.aux.area vma).end_ ≤ (s.aux.area y).start := by
          simpa [ctxAfter, Frame.after] using hafter
        have hih := ihr h.focus_right hord hbefore' hafter' hlen'.2
        have hih := hih.imp_left (And.imp_right fun h => h.elim fun y hy =>
            inner y (.inr hy.1) hy.2)
        simpa [hmx, cellOf, ctxBefore, before, fill, CTree.mk] using hih

/-- The predecessor of a hole is on the path to it. -/
theorem exists_frame_of_getLast?
    (h : (ctxBefore ctx).getLast? = some p) : ∃ u f v, ctx = u ++ f :: v ∧ f.x = p := by
  induction ctx with
  | nil => simp [ctxBefore] at h
  | cons f fs ih =>
    obtain ⟨d, c, x, sib⟩ := f
    cases d with
    | left =>
      obtain ⟨u, g, v, rfl, hg⟩ := ih (by simpa [ctxBefore, before] using h)
      exact ⟨⟨.left, c, x, sib⟩ :: u, g, v, rfl, hg⟩
    | right =>
      have hx : x = p := by simpa [ctxBefore, before] using h
      exact ⟨[], ⟨.right, c, x, sib⟩, fs, rfl, hx⟩

/-- A node on the path is in none of the subtrees that hang off it. -/
theorem frame_not_mem_sib (hnd : (ctxIds ctx).Nodup) :
    ∀ f ∈ ctx, ∀ g ∈ ctx, g.x ∉ f.sib.inorder := by
  induction ctx with
  | nil => simp
  | cons h hs ih =>
    -- the filled frame around an empty hole has the same labels
    have hnd' : (plug (h :: hs) .leaf).inorder.Nodup :=
      nodup_plug.mpr ⟨hnd, by simp, by simp⟩
    rw [plug_cons] at hnd'
    obtain ⟨hhs, hfill, hdisj⟩ := nodup_plug.mp hnd'
    have hmk := nodup_inorder_mk.mp hfill
    intro f hf g hg hmem
    rcases mem_cons.mp hf with rfl | hf'
    · rcases mem_cons.mp hg with rfl | hg'
      · exact hmk.1.2 hmem
      · refine hdisj g.x (mem_inorder_mk.mpr (.inr (.inr hmem))) ?_
        obtain ⟨u, v, rfl⟩ := append_of_mem hg'
        exact mem_ctxIds_append.mpr (.inr (mem_ctxIds_cons.mpr (.inl rfl)))
    · rcases mem_cons.mp hg with rfl | hg'
      · exact hdisj g.x (mem_inorder_mk.mpr (.inl rfl)) (mem_ctxIds_of_mem_sib hf' hmem)
      · exact ih hhs f hf' g hg' hmem

/-- A run of the callback up a path leaves the list fields, and the values off the path. -/
theorem augUp_frame (mem : Addr → RbNode) (ctx : List (Frame Addr)) :
    ∀ a : VmaData, (augUp gapCb mem a ctx).area = a.area ∧ (augUp gapCb mem a ctx).head = a.head ∧
      ∀ y, (∀ f ∈ ctx, f.x ≠ y) →
        (augUp gapCb mem a ctx).rbSubtreeMaxGap y = a.rbSubtreeMaxGap y := by
  induction ctx with
  | nil => exact fun a => ⟨rfl, rfl, fun _ _ => rfl⟩
  | cons f fs ih =>
    intro a
    obtain ⟨harea, hhead, hgap⟩ := ih (updateVmaSubtreeGap mem a f.x)
    refine ⟨harea, hhead, fun y hy => ?_⟩
    have hne : y ≠ f.x := fun hEq => hy f mem_cons_self hEq.symm
    have hrest := hgap y fun g hg => hy g (mem_cons_of_mem f hg)
    exact hrest.trans (Function.update_of_ne hne ..)

theorem Ordered.insert {u v : List Addr} (h : Ordered a (u ++ v))
    (hx : (a.area x).start < (a.area x).end_) (hu : ∀ y ∈ u, (a.area y).end_ ≤ (a.area x).start)
    (hv : ∀ y ∈ v, (a.area x).end_ ≤ (a.area y).start) : Ordered a (u ++ x :: v) where
  nonempty y hy := by
    simp only [mem_append, mem_cons] at hy
    rcases hy with hy | rfl | hy
    · exact h.nonempty y (mem_append_left v hy)
    · exact hx
    · exact h.nonempty y (mem_append_right u hy)
  increasing := by
    obtain ⟨hpu, hpv, huv⟩ := pairwise_append.mp h.increasing
    refine pairwise_append.mpr ⟨hpu, pairwise_cons.mpr ⟨hv, hpv⟩, ?_⟩
    intro y hy z hz
    rcases mem_cons.mp hz with rfl | hz
    · exact hu y hy
    · exact huv y hy z hz

/-- `if (vma->prev) propagate_gap_upward(vma->prev)` at a new area: the predecessor is on the path
to it, so nothing off the path changes. -/
theorem propagate_prev {t : CTree Addr}
    (h : Rep s ctx t) (hsibs : ∀ f ∈ ctx, f.sib.Ann (GapAt s.aux none))
    (hfuel : ctx.length ≤ fuel) :
    ∃ s', propagateGapUpward fuel s (ctxBefore ctx).getLast? = some s' ∧ Rep s' ctx t ∧
      s'.aux.area = s.aux.area ∧ s'.aux.head = s.aux.head ∧
      ∀ f ∈ ctx, f.sib.Ann (GapAt s'.aux none) := by
  rcases hp : (ctxBefore ctx).getLast? with _ | p
  · exact ⟨s, by cases fuel <;> rfl, h, rfl, rfl, hsibs⟩
  · obtain ⟨u, f, v, hctx, rfl⟩ := exists_frame_of_getLast? hp
    have hfocus : Rep s (f :: v) (plug u t) := rep_append.mp (hctx ▸ h)
    have hrun : rbAugmentUp gapCb fuel s (some f.x) = _ :=
      rbAugmentUp_spec hfocus (by rw [hctx] at hfuel; simp at hfuel ⊢; omega)
    obtain ⟨harea, hhead, hgap⟩ := augUp_frame s.mem (f :: v) s.aux
    have hsep := frame_not_mem_sib (nodup_plug.mp h.nodup).1
    refine ⟨_, hrun, h.setAux _, harea, hhead, fun g hg => ?_⟩
    refine gapAt_congr (hsibs g hg) (fun y hy => hgap y fun k hk hEq => ?_) fun y _ _ => ?_
    · refine hsep g hg k ?_ (hEq ▸ hy)
      rw [hctx]
      exact mem_append_right u hk
    · rw [nodeGapToNext_congr harea]

theorem rbLinkNode_aux (s : VmaState) (x : Addr) (link : Option (Addr × Dir)) :
    (rbLinkNode s x link).aux = s.aux := by
  cases link <;> rfl

/-- `vma_insert` keeps the container coherent, whether or not it finds a place. -/
theorem vmaInsert_spec {vma : Addr} (h : Container s T) (hnew : vma ∉ T.inorder)
    (hne : (s.aux.area vma).start < (s.aux.area vma).end_) (hfuel : T.inorder.length + 1 < fuel) :
    ∃ s' b T', vmaInsert fuel s vma = some (s', b) ∧ Container s' T' ∧ SameBounds s.aux s'.aux ∧
      ((b = false ∧ s' = s ∧ ∃ y ∈ T.inorder, Meets s.aux vma y) ∨
        (b = true ∧ (∀ y ∈ T.inorder, ¬ Meets s.aux vma y) ∧
          ∃ u v, T.inorder = u ++ v ∧ T'.inorder = u ++ vma :: v)) := by
  have hwhole : Rep s [] T := rep_iff.mpr h.rep
  have hroot : s.rbRoot = T.ptr := h.rep.root
  have hdescent := vmaInsertWalk_spec vma T hwhole h.ordered (by simp [ctxBefore])
    (by simp [ctxAfter]) (show T.inorder.length ≤ fuel by omega)
  rcases hdescent with ⟨hover, hmeet⟩ | ⟨ctx, hwalk, hT, hbefore, hafter⟩
  · refine ⟨s, false, T, ?_, h, fun _ => ⟨rfl, rfl⟩, .inl ⟨rfl, rfl, hmeet⟩⟩
    have hwalk : vmaInsertWalk s vma fuel s.rbRoot none none = some none := by
      rw [hroot]
      exact hover
    simp [vmaInsert, hwalk]
  · simp only [plug_nil] at hT
    subst hT
    have hord : (plug ctx .leaf).inorder = ctxBefore ctx ++ ctxAfter ctx := by
      rw [inorder_plug]
      simp
    have hlen : ctx.length ≤ (plug ctx .leaf).inorder.length := by
      have := length_ctx_le ctx .leaf
      omega
    have hnew' : vma ∉ ctxBefore ctx ++ ctxAfter ctx := hord ▸ hnew
    -- the list
    obtain ⟨hlist, hbounds, hgap, hprev, hnext⟩ := linkList_spec (hord ▸ h.list) hnew'
    set D := linkList s.aux vma (ctxBefore ctx).getLast? with hD
    -- the new node in the tree
    have hrep : Rep s ctx .leaf := rep_iff.mpr h.rep
    have hlink := (hrep.linkNode hnew').setAux D
    set s₂ : VmaState := { rbLinkNode s vma (ctx.head?.map fun f => (f.x, f.side)) with aux := D }
      with hs₂
    have hsibs : ∀ f ∈ ctx, f.sib.Ann (GapAt s₂.aux none) := by
      intro f hf
      have hsep := frame_not_mem_sib (nodup_plug.mp hrep.nodup).1
      refine gapAt_congr ((ann_plug.mp h.gaps).2.sib f hf) (fun y _ => congrFun hgap y) ?_
      intro y hy _
      refine nodeGap_congr hbounds (hnext y (fun hEq => hnew' ?_) fun hEq => ?_)
      · exact hEq ▸ mem_ctxIds_of_mem_sib hf hy
      · obtain ⟨u, g, v, hctx, hg⟩ := exists_frame_of_getLast? hEq
        exact hsep f hf g (by rw [hctx]; simp) (hg ▸ hy)
    -- the two propagations before the rebalancing
    obtain ⟨s₃, hrun₃, hrep₃, harea₃, hhead₃, hsibs₃⟩ :=
      propagate_prev hlink hsibs (show ctx.length ≤ fuel by omega)
    have hmk₃ : Rep s₃ ctx (CTree.mk .left .red .leaf vma .leaf) := hrep₃
    obtain ⟨s₄, hrun₄, hrepI₄⟩ := propagateGapUpward_spec hmk₃ ann_leaf ann_leaf
      hsibs₃ (show ctx.length < fuel by omega)
    have hinv₄ : GapInv D none (plug ctx (.node .red .leaf vma .leaf)) s₄.aux :=
      ⟨hrepI₄.inv.head.trans hhead₃, hrepI₄.inv.area.trans harea₃, hrepI₄.inv.gaps⟩
    obtain ⟨s₅, T', hrun₅, hrepI₅, hrb', hord'⟩ := rbInsertAugmented_spec (gap_augInv D none)
      (show RepI (GapInv D none) s₄ ctx (.node .red .leaf vma .leaf) from ⟨hrepI₄.rep, hinv₄⟩)
      h.rb (show ctx.length < fuel by omega)
    -- and the one after it
    have hmem : vma ∈ T'.inorder := by
      rw [hord']
      simp
    have hlen' : T'.inorder.length < fuel := by
      rw [hord'] at *
      rw [hord] at hfuel
      simp at hfuel ⊢
      omega
    obtain ⟨s₆, hrun₆, hrep₆, hinv₆⟩ := propagate_excused (rep_iff.mp hrepI₅.rep) hmem
      (gapAt_weaken hrepI₅.inv.gaps (some vma)) hlen'
    have hinv : GapInv D none T' s₆.aux :=
      ⟨hinv₆.head.trans hrepI₅.inv.head, hinv₆.area.trans hrepI₅.inv.area, hinv₆.gaps⟩
    refine ⟨s₆, true, T', ?_, container_of_gapInv hrep₆ hrb' hinv (hord' ▸ hlist) ?_,
      hbounds.trans (.of_area hinv.area), .inr ⟨rfl, ?_, _, _, hord, hord'⟩⟩
    · have hwalk' : vmaInsertWalk s vma fuel s.rbRoot none none =
          some (some (ctx.head?.map (fun f => (f.x, f.side)), (ctxBefore ctx).getLast?)) := by
        rw [hroot]
        exact hwalk
      simp only [vmaInsert, hwalk', bind_eq_bind, bind_some, rbLinkNode_aux, ← hD,
        ← hs₂, hprev, hrun₃, hrun₄, hrun₅, hrun₆]
    · rw [hord']
      refine .congr (.insert (hord ▸ h.ordered) hne hbefore hafter) fun x _ =>
        hbounds x
    · rw [hord]
      intro y hy hmeet
      rcases mem_append.mp hy with hy | hy
      · exact absurd hmeet.2 (Nat.not_lt.2 (hbefore y hy))
      · exact absurd hmeet.1 (Nat.not_lt.2 (hafter y hy))

/-! ## Removal -/

theorem Represents.setAux (h : Represents s T) (a : VmaData) : Represents { s with aux := a } T :=
  ⟨h.root, h.nodup, h.cells⟩

/-- `vma_remove` of an area, from a state in which the area before it may already have a wrong
gap. -/
theorem vmaRemove_spec {u v : List Addr}
    (hrep : Represents s T) (hrb : T.IsRB) (hsplit : T.inorder = u ++ x :: v)
    (hlist : IsList s.aux T.inorder) (hgaps : T.Ann (GapAt s.aux u.getLast?))
    (hstale : ¬StaleSplice s x) (hfuel : T.inorder.length + 1 < fuel) :
    ∃ s' T', vmaRemove fuel s x = some (s', true) ∧ Represents s' T' ∧ T'.IsRB ∧
      T'.inorder = u ++ v ∧ IsList s'.aux T'.inorder ∧ T'.Ann (GapAt s'.aux none) ∧
      SameBounds s.aux s'.aux := by
  have hx : x ∈ T.inorder := by
    rw [hsplit]
    simp
  obtain ⟨hlist', hbounds, hgap, hnext⟩ := unlinkList_spec (hsplit ▸ hlist)
  set D := unlinkList s.aux x with hD
  have hrep₁ : Represents { s with aux := D } T := Represents.setAux hrep D
  have hgaps₁ : T.Ann (GapAt D u.getLast?) :=
    gapAt_congr hgaps (fun y _ => congrFun hgap y) fun y _ hy =>
      nodeGap_congr hbounds (hnext y (fun hEq => hy hEq))
  -- the tree part, with the area before `x` excused
  obtain ⟨s₂, T', hrun, hrepI, hrb', hord⟩ := rbEraseAugmented_spec (gap_augInv D u.getLast?)
    hrep₁ hrb hx hstale hfuel (fun s' ctx t c hres => by
      obtain ⟨ht, hsibs⟩ := hres.offPath _ hgaps₁
      exact ann_augUp hres.rep ht hsibs)
  have hord' : T'.inorder = u ++ v := by
    rw [hord, hsplit]
    exact erase_append_cons (hsplit ▸ hrep.nodup)
  have hroot := hrep.root_ne_none hx
  have hprev : (s.aux.area x).prev = u.getLast? := (hsplit ▸ hlist : IsList _ (u ++ x :: v)).prev_eq
  have hbegin : vmaRemove fuel s x =
      (propagateGapUpward fuel s₂ u.getLast?).bind fun s' => some (s', true) := by
    simp only [vmaRemove, if_neg hroot, ← hD, hrun, hprev, bind_eq_bind, bind_some]
  have hT' := rep_iff.mp hrepI.rep
  rcases hp : u.getLast? with _ | p
  · -- the first area: nothing is excused
    rw [hp] at hbegin hrepI
    have hinv := hrepI.inv
    have hskip : propagateGapUpward fuel s₂ none = some s₂ := by
      cases fuel <;> rfl
    refine ⟨s₂, T', ?_, hT', hrb', hord', ?_, hinv.gaps, ?_⟩
    · rw [hbegin, hskip]
      rfl
    · rw [hord']
      exact hlist'.congr_area hinv.head hinv.area
    · exact hbounds.trans (.of_area hinv.area)
  · rw [hp] at hbegin hrepI
    have hmem : p ∈ T'.inorder := by
      rw [hord']
      exact mem_append_left v (mem_of_getLast? hp)
    have hlen : T'.inorder.length < fuel := by
      rw [hord']
      rw [hsplit] at hfuel
      simp at hfuel ⊢
      omega
    obtain ⟨s₃, hrun₃, hrep₃, hinv₃⟩ := propagate_excused hT' hmem hrepI.inv.gaps hlen
    have harea := hinv₃.area.trans hrepI.inv.area
    refine ⟨s₃, T', ?_, hrep₃, hrb', hord', ?_, hinv₃.gaps, ?_⟩
    · rw [hbegin, hrun₃]
      rfl
    · rw [hord']
      exact hlist'.congr_area (hinv₃.head.trans hrepI.inv.head) harea
    · exact hbounds.trans (.of_area harea)

theorem vmaRemove_container (h : Container s T) (hx : x ∈ T.inorder) (hstale : ¬StaleSplice s x)
    (hfuel : T.inorder.length + 1 < fuel) :
    ∃ s' T', vmaRemove fuel s x = some (s', true) ∧ Container s' T' := by
  obtain ⟨u, v, hsplit⟩ := append_of_mem hx
  obtain ⟨s', T', hrun, hrep, hrb, hord, hlist, hgaps, hbounds⟩ :=
    vmaRemove_spec h.rep h.rb hsplit h.list (gapAt_weaken h.gaps _) hstale hfuel
  refine ⟨s', T', hrun, hrep, hrb, hlist, ?_, hgaps⟩
  have hsub : Ordered s.aux T'.inorder := by
    refine h.ordered.sublist ?_
    rw [hord, hsplit]
    simp
  exact hsub.congr fun y _ => hbounds y

/-! ## Merging -/

/-- Areas that touch are neighbours. -/
theorem adjacent_split {n : Addr} (h : Ordered a xs)
    (hp : p ∈ xs) (hn : n ∈ xs) (htouch : (a.area p).end_ = (a.area n).start) :
    ∃ u v, xs = u ++ p :: n :: v := by
  obtain ⟨u, w, rfl⟩ := append_of_mem hp
  have hpne := h.nonempty p hp
  have hnne := h.nonempty n hn
  obtain ⟨hinc, hinc', hcross⟩ := pairwise_append.mp h.increasing
  obtain ⟨hafter, hincw⟩ := pairwise_cons.mp hinc'
  -- `n` stands after `p`
  have hnw : n ∈ w := by
    simp only [mem_append, mem_cons] at hn
    rcases hn with hu | rfl | hw
    · have := hcross n hu p (by simp)
      omega
    · omega
    · exact hw
  obtain ⟨w₁, w₂, rfl⟩ := append_of_mem hnw
  cases w₁ with
  | nil => exact ⟨u, w₂, rfl⟩
  | cons q w₁ =>
    -- nothing fits in between
    have hpq := hafter q (by simp)
    have hqne := h.nonempty q (by simp)
    have hqn := (pairwise_cons.mp hincw).1 n (by simp)
    omega

/-- `vma_merge_adjacent` keeps the container coherent. -/
theorem vmaMergeAdjacent_spec {n : Addr}
    (h : Container s T) (hp : p ∈ T.inorder) (hn : n ∈ T.inorder)
    (hstale : vmaCanMerge (s.aux.area p) (s.aux.area n) = true → ¬StaleSplice s n)
    (hfuel : T.inorder.length + 1 < fuel) :
    ∃ s' r T', vmaMergeAdjacent fuel s p n = some (s', r) ∧ Container s' T' := by
  by_cases hmerge : vmaCanMerge (s.aux.area p) (s.aux.area n) = true
  · have htouch : (s.aux.area p).end_ = (s.aux.area n).start := by
      simp only [vmaCanMerge, Bool.and_eq_true, beq_iff_eq] at hmerge
      exact hmerge.1.1.1.1
    obtain ⟨u, v, hsplit⟩ := adjacent_split h.ordered hp hn htouch
    set D := s.aux.setEnd p (s.aux.area n).end_ with hD
    have hother : ∀ {y}, y ≠ p → D.area y = s.aux.area y := setEnd_of_ne s.aux _
    have hself : D.area p = { s.aux.area p with end_ := (s.aux.area n).end_ } :=
      setEnd_self s.aux p _
    have hstart : ∀ y, (D.area y).start = (s.aux.area y).start := fun y =>
      (setEnd_fields s.aux p _ y).1
    have hsplit' : T.inorder = (u ++ [p]) ++ n :: v := by simp [hsplit]
    obtain ⟨s₂, T', hrun, hrep₂, hrb', hord, hlist₂, hgaps₂, hbounds⟩ :=
      vmaRemove_spec (s := { s with aux := D }) (Represents.setAux h.rep D) h.rb hsplit'
        (h.list.setEnd p _) (by simpa using gapAt_setEnd p _ h.gaps) (hstale hmerge) hfuel
    have hp' : p ∈ T'.inorder := by
      rw [hord]
      simp
    have hlen : T'.inorder.length < fuel := by
      rw [hord]
      rw [hsplit] at hfuel
      simp at hfuel ⊢
      omega
    obtain ⟨s₃, hrun₃, hrep₃, hinv₃⟩ :=
      propagate_excused hrep₂ hp' (gapAt_weaken hgaps₂ (some p)) hlen
    refine ⟨s₃, some p, T', ?_, container_of_gapInv hrep₃ hrb' hinv₃ hlist₂ ?_⟩
    · simp only [vmaMergeAdjacent, hmerge, if_true, ← hD, hrun, hrun₃, bind_eq_bind, bind_some]
    · -- the merged area reaches up to the end of `n`
      have hordD : Ordered D T'.inorder := by
        rw [hord]
        have hold := hsplit ▸ h.ordered
        obtain ⟨hinc, hinc', hcross⟩ := pairwise_append.mp hold.increasing
        obtain ⟨-, hincn⟩ := pairwise_cons.mp hinc'
        obtain ⟨hnv, hincv⟩ := pairwise_cons.mp hincn
        have hpv : p ∉ v ∧ p ∉ u := by
          have hnd := hsplit ▸ h.rep.nodup
          simp only [nodup_append, nodup_cons, mem_cons, not_or] at hnd
          exact ⟨hnd.2.1.1.2, fun hu => hnd.2.2 p hu p (.inl rfl) rfl⟩
        have hpn := hold.nonempty p (by simp)
        have hnn := hold.nonempty n (by simp)
        have hbase : Ordered D (u ++ v) := by
          refine .congr (hold.sublist (by simp)) fun y hy => ?_
          have hyp : y ≠ p := by
            intro hEq
            rcases mem_append.mp (hEq ▸ hy) with hmem | hmem
            · exact hpv.2 hmem
            · exact hpv.1 hmem
          rw [hother hyp]
          exact ⟨rfl, rfl⟩
        rw [append_assoc]
        refine .insert hbase ?_ ?_ ?_
        · rw [hself]
          show (s.aux.area p).start < (s.aux.area n).end_
          omega
        · intro y hy
          have hyp : y ≠ p := fun hEq => hpv.2 (hEq ▸ hy)
          rw [hother hyp, hstart]
          exact hcross y hy p (by simp)
        · intro y hy
          rw [hstart, hself]
          exact hnv y hy
      exact hordD.congr fun y _ => hbounds y
  · refine ⟨s, none, T, ?_, h⟩
    simp [vmaMergeAdjacent, hmerge]

/-! ## Creation and splitting -/

/-- A container only looks at its own nodes and areas. -/
theorem Container.congr {s' : VmaState} (h : Container s T)
    (hroot : s'.rbRoot = s.rbRoot) (hhead : s'.aux.head = s.aux.head)
    (hmem : ∀ y ∈ T.inorder, s'.mem y = s.mem y)
    (harea : ∀ y ∈ T.inorder, s'.aux.area y = s.aux.area y)
    (hgap : ∀ y ∈ T.inorder, s'.aux.rbSubtreeMaxGap y = s.aux.rbSubtreeMaxGap y) :
    Container s' T where
  rep :=
    ⟨hroot.trans h.rep.root, h.rep.nodup, fun e he => by
      rw [hmem e.1 (fst_mem_of_mem_treeCells he)]
      exact h.rep.cells e he⟩
  rb := h.rb
  list := .congr h.list (fun y hy => by rw [harea y hy]; exact ⟨rfl, rfl⟩) hhead
  ordered := h.ordered.congr fun y hy => by
    rw [harea y hy]
    exact ⟨rfl, rfl⟩
  gaps := by
    refine gapAt_congr h.gaps hgap fun y hy _ => ?_
    obtain ⟨u, v, hsplit⟩ := append_of_mem hy
    have hnext : (s.aux.area y).next = v.head? := (hsplit ▸ h.list : IsList _ (u ++ y :: v)).next_eq
    simp only [nodeGapToNext, harea y hy, hnext]
    rcases hv : v.head? with _ | n
    · rfl
    · have hn : n ∈ T.inorder := by
        rw [hsplit]
        simp [mem_of_head? hv]
      simp only [harea n hn]

/-- `vma_create` at a block that holds no linked area. -/
theorem vmaCreate_spec {s' : VmaState} {start end_ type flags : ℕ}
    (h : Container s T) (hp : p ∉ T.inorder)
    (hrun : vmaCreate s p start end_ type flags = some s') (g : VmArea → VmArea)
    (hg : ∀ v, (g v).start = v.start ∧ (g v).end_ = v.end_) :
    Container { s' with aux := s'.aux.modify p g } T ∧
      ((s'.aux.modify p g).area p).start < ((s'.aux.modify p g).area p).end_ ∧
      ∀ y ≠ p, (s'.aux.modify p g).area y = s.aux.area y := by
  simp only [vmaCreate] at hrun
  split at hrun
  next => simp at hrun
  next hsome =>
    obtain rfl := (Option.some.inj hrun).symm
    have hne : ∀ y ∈ T.inorder, y ≠ p := fun y hy hEq => hp (hEq ▸ hy)
    refine ⟨h.congr rfl rfl ?_ ?_ ?_, ?_, ?_⟩
    · intro y hy
      simp [hne y hy]
    · intro y hy
      simp [VmaData.modify, hne y hy]
    · intro y hy
      simp [VmaData.modify, hne y hy]
    · rw [modify_area_self, (hg _).1, (hg _).2]
      simpa using hsome
    · intro y hy
      simp [VmaData.modify, hy]

/-- `vma_split` keeps the container coherent and leaves a right half that can be inserted. -/
theorem vmaSplit_spec {right : Addr} (splitAddr : ℕ)
    (h : Container s T) (hx : x ∈ T.inorder) (hright : right ∉ T.inorder)
    (hfuel : T.inorder.length < fuel) :
    ∃ s' b, vmaSplit fuel s x splitAddr right = some (s', b) ∧ Container s' T ∧
      (b = true → (s'.aux.area right).start < (s'.aux.area right).end_) := by
  by_cases hrange' : (decide (pageFloor splitAddr ≤ (s.aux.area x).start) ||
      decide (pageFloor splitAddr ≥ (s.aux.area x).end_)) = true
  · refine ⟨s, false, ?_, h, by simp⟩
    simp only [vmaSplit, if_pos hrange']
  · have hrange := hrange'
    rw [Bool.or_eq_true, decide_eq_true_iff, decide_eq_true_iff] at hrange
    rcases hcreate : vmaCreate s right (pageFloor splitAddr) (s.aux.area x).end_
        (s.aux.area x).type (s.aux.area x).flags with _ | s₁
    · refine ⟨s, false, ?_, h, by simp⟩
      simp only [vmaSplit, if_neg hrange', hcreate]
    · obtain ⟨hC, hne, hother⟩ := vmaCreate_spec h hright hcreate
        (fun r => { r with
          backingFile := (s.aux.area x).backingFile
          fileOffset :=
            if (s.aux.area x).type = vmaTypeFile then
              wadd (s.aux.area x).fileOffset (pageFloor splitAddr - (s.aux.area x).start)
            else r.fileOffset }) (fun _ => ⟨rfl, rfl⟩)
      set D₁ := s₁.aux.modify right _ with hD₁
      set D := D₁.setEnd x (pageFloor splitAddr) with hD
      have hxr : x ≠ right := fun hEq => hright (hEq ▸ hx)
      have hself : D.area x = { s.aux.area x with end_ := pageFloor splitAddr } := by
        rw [hD, setEnd_self, hother x hxr]
      have hD₁other : ∀ {y}, y ≠ x → D.area y = D₁.area y := setEnd_of_ne D₁ _
      have hend : ∀ y, (D.area y).end_ ≤ (D₁.area y).end_ := by
        intro y
        by_cases hy : y = x
        · rw [hy, hself, hother x hxr]
          show pageFloor splitAddr ≤ (s.aux.area x).end_
          omega
        · exact Nat.le_of_eq (by rw [hD₁other hy])
      have hord : Ordered D T.inorder := by
        refine ⟨fun y hy => ?_, hC.ordered.increasing.imp fun {y z} hyz => ?_⟩
        · by_cases hyx : y = x
          · rw [hyx, hself]
            show (s.aux.area x).start < pageFloor splitAddr
            omega
          · rw [hD₁other hyx]
            exact hC.ordered.nonempty y hy
        · rw [hD, (setEnd_fields D₁ x _ z).1]
          exact Nat.le_trans (hend y) hyz
      obtain ⟨s₂, hrun, hrep₂, hinv₂⟩ := propagate_excused
        (s := { s₁ with aux := D }) (Represents.setAux hC.rep D) hx (gapAt_setEnd x _ hC.gaps) hfuel
      refine ⟨s₂, true, ?_, container_of_gapInv hrep₂ h.rb hinv₂ (hC.list.setEnd x _)
        hord, fun _ => ?_⟩
      · simp only [vmaSplit, if_neg hrange', hcreate, ← hD₁, ← hD, hrun, bind_eq_bind, bind_some]
      · rw [hinv₂.area, hD₁other (Ne.symm hxr)]
        exact hne

/-!
## Runs of the VMA Container

The container as a transition system, from an empty head and root through insertions, removals,
splits and merges. `Coherent` states what the list, the tree and the gap fields of one state have
to do with each other, in terms of the bounds alone; it holds in every run in which no area is
taken out of the tree by a stale splice. In a coherent container search and insertion are exact.
-/

/-! ## The property of a state -/

/-- The free space between an area and the next one, nothing after the last area. -/
def gapAfter (a : VmaData) (x : Addr) : ℕ :=
  match (a.area x).next with
  | none => 0
  | some n => (a.area n).start - (a.area x).end_

/-- The list is the in-order traversal of the tree, `prev` is the inverse of `next`, the areas are
increasing, disjoint and not empty, and every gap field is the maximum over its subtree. -/
structure Coherent (s : VmaState) (T : CTree Addr) : Prop where
  tree : Represents s T
  redBlack : T.IsRB
  list : Dll (fun x => (s.aux.area x).next) (fun x => (s.aux.area x).prev) s.aux.head T.inorder
  nonempty : ∀ x ∈ T.inorder, (s.aux.area x).start < (s.aux.area x).end_
  increasing : T.inorder.Pairwise fun x y => (s.aux.area x).end_ ≤ (s.aux.area y).start
  maxGap : T.Ann fun x xs => s.aux.rbSubtreeMaxGap x = (xs.map (gapAfter s.aux)).foldr max 0

/-- The comparison in `node_gap_to_next` only keeps the difference from going below zero. -/
theorem nodeGapToNext_eq (a : VmaData) : nodeGapToNext a = gapAfter a := by
  funext x
  simp only [nodeGapToNext, gapAfter]
  cases (a.area x).next with
  | none => rfl
  | some =>
    simp only
    split <;> omega

variable {s : VmaState} {T : CTree Addr} {r : VmaState × Bool} {op : VmaOp}

theorem coherent_iff : Coherent s T ↔ Container s T := by
  have hgap : ∀ x xs, s.aux.rbSubtreeMaxGap x = (xs.map (gapAfter s.aux)).foldr max 0 ↔
      GapAt s.aux none x xs := by
    intro x xs
    simp [GapAt, gapMax, nodeGapToNext_eq]
  constructor
  · intro h
    exact ⟨h.tree, h.redBlack, h.list, ⟨h.nonempty, h.increasing⟩,
      h.maxGap.imp fun x _ xs _ => (hgap x xs).mp⟩
  · intro h
    exact ⟨h.rep, h.rb, h.list, h.ordered.nonempty, h.ordered.increasing,
      h.gaps.imp fun x _ xs _ => (hgap x xs).mpr⟩

/-! ## The system -/

/-- A new area is put at a block that holds no linked one; the other arguments are linked areas. -/
def VmaLegal (s : VmaState) : VmaOp → Prop
  | .insert p .. => ¬Linked s p
  | .remove vma => Linked s vma
  | .splitInsert vma _ right => Linked s vma ∧ ¬Linked s right
  | .merge prev next => Linked s prev ∧ Linked s next

/-- The call takes an area out of the tree by a stale splice. -/
def VmaStale (s : VmaState) : VmaOp → Prop
  | .insert .. => False
  | .remove vma => StaleSplice s vma
  | .splitInsert .. => False
  | .merge prev next =>
    vmaCanMerge (s.aux.area prev) (s.aux.area next) = true ∧ StaleSplice s next

/-- From an empty head and root, by calls that come to their end. -/
def vmaSystem : System VmaState VmaOp where
  init s := s.rbRoot = none ∧ s.aux.head = none
  step s op s' := ∃ fuel, applyVmaOp fuel s op = some s'

/-! ## Fuel -/

section

variable {fuel : ℕ} {x : Addr}

theorem propagateGapUpward_gives (s : VmaState) (p : Option Addr) :
    Gives (propagateGapUpward fuel s p) (propagateGapUpward (fuel + 1) s p) :=
  rbAugmentUp_gives s p

theorem vmaInsertWalk_gives (q : Option Addr) (link : Option (Addr × Dir)) (p : Option Addr) :
    Gives (vmaInsertWalk s x fuel q link p) (vmaInsertWalk s x (fuel + 1) q link p) := by
  induction fuel generalizing q link p with
  | zero =>
    cases q with
    | none => exact .refl _
    | some => exact .of_none _
  | succ fuel ih =>
    cases q with
    | none => exact .refl _
    | some => exact .ite (.refl _) (.ite (ih ..) (ih ..))

variable (s : VmaState) (x : Addr)

theorem vmaInsert_gives : Gives (vmaInsert fuel s x) (vmaInsert (fuel + 1) s x) := by
  refine .bind (vmaInsertWalk_gives ..) fun w => ?_
  match w with
  | none => exact .refl _
  | some (link, p) =>
    exact .bind (propagateGapUpward_gives ..) fun _ => .bind (propagateGapUpward_gives ..) fun _ =>
      .bind (rbInsertAugmented_gives ..) fun _ => .bind (propagateGapUpward_gives ..) fun _ =>
      .refl _

theorem vmaRemove_gives : Gives (vmaRemove fuel s x) (vmaRemove (fuel + 1) s x) :=
  .ite (.refl _) (.bind (rbEraseAugmented_gives ..) fun _ =>
    .bind (propagateGapUpward_gives ..) fun _ => .refl _)

theorem vmaSplit_gives (addr : ℕ) (y : Addr) :
    Gives (vmaSplit fuel s x addr y) (vmaSplit (fuel + 1) s x addr y) := by
  refine .ite (.refl _) ?_
  split
  next => exact .refl _
  next => exact .bind (propagateGapUpward_gives ..) fun _ => .refl _

theorem vmaSplitInsert_gives (addr : ℕ) (y : Addr) :
    Gives (vmaSplitInsert fuel s x addr y) (vmaSplitInsert (fuel + 1) s x addr y) := by
  refine ⟨fun s' h => ?_⟩
  unfold vmaSplitInsert at h
  split at h
  next => cases h
  next s₁ hsplit =>
    simp only [vmaSplitInsert, (vmaSplit_gives ..).out _ hsplit]
    exact (Gives.map _ (vmaInsert_gives ..)).out _ h
  next s₁ hsplit =>
    simp only [vmaSplitInsert, (vmaSplit_gives ..).out _ hsplit]
    exact h

theorem applyVmaOp_insert (fuel : ℕ) (p : Addr)
    (start end_ type flags : ℕ) (backingFile : Option ℕ) (fileOffset : ℕ) :
    applyVmaOp fuel s (.insert p start end_ type flags backingFile fileOffset) =
      vmaCreateInsert fuel s p start end_ type flags backingFile fileOffset := rfl

theorem applyVmaOp_gives (op : VmaOp) (fuel : ℕ) :
    Gives (applyVmaOp fuel s op) (applyVmaOp (fuel + 1) s op) := by
  cases op with
  | insert =>
    rw [applyVmaOp_insert, applyVmaOp_insert]
    unfold vmaCreateInsert
    split
    next => exact .refl _
    next => exact .map _ (vmaInsert_gives ..)
  | remove => exact .map _ (vmaRemove_gives ..)
  | splitInsert => exact vmaSplitInsert_gives ..
  | merge =>
    exact .map _ (.ite (.bind (vmaRemove_gives ..) fun _ =>
      .bind (propagateGapUpward_gives ..) fun _ => .refl _) (.refl _))

end

theorem vma_step_unique {s₁ s₂ : VmaState} (h₁ : vmaSystem.step s op s₁)
    (h₂ : vmaSystem.step s op s₂) : s₁ = s₂ := by
  obtain ⟨n₁, h₁⟩ := h₁
  obtain ⟨n₂, h₂⟩ := h₂
  exact unique (applyVmaOp_gives s op) h₁ h₂

/-! ## Steps and runs -/

/-- A legal call that is not stale ends in a coherent state. -/
theorem container_step (h : Container s T) (hlegal : VmaLegal s op) (hstale : ¬VmaStale s op) :
    ∃ s' T', vmaSystem.step s op s' ∧ Container s' T' := by
  have hlinked := h.rep.linked_iff
  have hfuel : T.inorder.length + 1 < T.inorder.length + 2 := Nat.lt_succ_self _
  cases op with
  | insert p start end_ type flags backingFile fileOffset =>
    have hp : p ∉ T.inorder := fun hmem => hlegal ((hlinked p).mpr hmem)
    obtain ⟨s', T', hrun, hC'⟩ : ∃ s' T', vmaCreateInsert (T.inorder.length + 2) s p start end_
        type flags backingFile fileOffset = some s' ∧ Container s' T' := by
      unfold vmaCreateInsert
      cases hcreate : vmaCreate s p start end_ type flags with
      | none => exact ⟨s, T, rfl, h⟩
      | some =>
        obtain ⟨hC, hne, -⟩ := vmaCreate_spec h hp hcreate
          (fun v => { v with backingFile := backingFile, fileOffset := fileOffset })
          (fun _ => ⟨rfl, rfl⟩)
        obtain ⟨s', b, T', hrun, hC', -⟩ := vmaInsert_spec hC hp hne hfuel
        exact ⟨s', T', by simp only [hrun, map_some], hC'⟩
    exact ⟨s', T', ⟨T.inorder.length + 2, (applyVmaOp_insert ..).trans hrun⟩, hC'⟩
  | remove vma =>
    obtain ⟨s', T', hrun, hC'⟩ :=
      vmaRemove_container h ((hlinked vma).mp hlegal) hstale hfuel
    exact ⟨s', T', ⟨T.inorder.length + 2, by simp [applyVmaOp, hrun]⟩, hC'⟩
  | splitInsert vma addr right =>
    obtain ⟨hvma, hright⟩ := hlegal
    have hright' : right ∉ T.inorder := fun hmem => hright ((hlinked right).mpr hmem)
    obtain ⟨s₁, b, hsplit, hC, hne⟩ := vmaSplit_spec addr h ((hlinked vma).mp hvma) hright'
      (show T.inorder.length < T.inorder.length + 2 by omega)
    cases b with
    | false => exact ⟨s₁, T, ⟨T.inorder.length + 2, by simp [applyVmaOp, vmaSplitInsert,
        hsplit]⟩, hC⟩
    | true =>
      obtain ⟨s', b, T', hrun, hC', -⟩ := vmaInsert_spec hC hright' (hne rfl) hfuel
      refine ⟨s', T', ⟨T.inorder.length + 2, ?_⟩, hC'⟩
      simp [applyVmaOp, vmaSplitInsert, hsplit, hrun]
  | merge prev next =>
    obtain ⟨hprev, hnext⟩ := hlegal
    obtain ⟨s', r, T', hrun, hC'⟩ := vmaMergeAdjacent_spec h ((hlinked prev).mp hprev)
      ((hlinked next).mp hnext) (fun hmerge hst => hstale ⟨hmerge, hst⟩) hfuel
    exact ⟨s', T', ⟨T.inorder.length + 2, by simp [applyVmaOp, hrun]⟩, hC'⟩

theorem vma_init (h : vmaSystem.init s) : Container s .leaf where
  rep := ⟨h.1, nodup_nil, by simp⟩
  rb := ⟨⟨0, rfl⟩, rfl⟩
  list := by
    unfold IsList
    rw [h.2]
    exact .nil
  ordered := ⟨by simp, List.Pairwise.nil⟩
  gaps := trivial

theorem container_of_reachable {s : VmaState}
    (h : vmaSystem.Reachable (fun s op => VmaLegal s op ∧ ¬VmaStale s op) s) :
    ∃ T, Container s T := by
  refine h.invariant (I := fun s => ∃ T, Container s T) (fun s hs => ⟨_, vma_init hs⟩) ?_
  intro s op s' hs hok hstep
  obtain ⟨T, hT⟩ := hs
  obtain ⟨s₁, T', hstep₁, hC⟩ := container_step hT hok.1 hok.2
  exact ⟨T', vma_step_unique hstep hstep₁ ▸ hC⟩

/-- Every state of a run of legal calls without a stale splice is coherent, and in such a state
every legal call that is not stale ends in exactly one state, which is coherent again. -/
theorem vma_run_coherent {s : VmaState}
    (h : vmaSystem.Reachable (fun s op => VmaLegal s op ∧ ¬VmaStale s op) s) :
    ∃ T, Coherent s T ∧ ∀ op, VmaLegal s op → ¬VmaStale s op →
      ∃ s' T', (∀ s'', vmaSystem.step s op s'' ↔ s'' = s') ∧ Coherent s' T' := by
  obtain ⟨T, hT⟩ := container_of_reachable h
  refine ⟨T, coherent_iff.mpr hT, fun op hlegal hstale => ?_⟩
  obtain ⟨s', T', hstep, hC⟩ := container_step hT hlegal hstale
  refine ⟨s', T', fun s'' => ⟨fun h'' => vma_step_unique h'' hstep, fun hEq => ?_⟩,
    coherent_iff.mpr hC⟩
  rw [hEq]
  exact hstep

/-! ## A run with four areas -/

def emptyVma : VmaState :=
  ⟨none, fun _ => ⟨none, none, none, .red⟩,
    ⟨none, fun _ => ⟨0, 0, 0, 0, none, 0, none, none⟩, fun _ => 0⟩⟩

def vmaAfter (s : VmaState) (op : VmaOp) : VmaState := (applyVmaOp 8 s op).getD s

theorem step_vmaAfter (op : VmaOp) (h : (applyVmaOp 8 s op).isSome = true) :
    vmaSystem.step s op (vmaAfter s op) := by
  obtain ⟨s', hs'⟩ := Option.isSome_iff_exists.mp h
  exact ⟨8, by simp [vmaAfter, hs']⟩

/-- Insertion of an anonymous area of some pages. -/
def insertPages (p : Addr) (first last : ℕ) : VmaOp :=
  .insert p (4096 * first) (4096 * last) 1 3 none 0

/-- The areas `1`, `2` and `3`, with `2` at the root. -/
def threeAreas : VmaState :=
  vmaAfter (vmaAfter (vmaAfter emptyVma (insertPages 2 3 4)) (insertPages 1 1 2))
    (insertPages 3 5 6)

/-- The same with `4`, the right child of `3`. -/
def fourAreas : VmaState := vmaAfter threeAreas (insertPages 4 7 9)

/-- A call that inserts pages is legal when the block is outside a set closed under the tree's
pointers. -/
theorem insertPages_legal {p first last : ℕ} (S : List Addr) (hroot : ∀ x ∈ s.rbRoot, x ∈ S)
    (hchild : ∀ q ∈ S, (∀ x ∈ (s.mem q).rbLeft, x ∈ S) ∧ ∀ x ∈ (s.mem q).rbRight, x ∈ S)
    (hp : p ∉ S) : VmaLegal s (insertPages p first last) ∧ ¬VmaStale s (insertPages p first last) :=
  ⟨fun h => hp (h.mem_of_closed hroot hchild), id⟩

theorem fourAreas_reachable :
    vmaSystem.Reachable (fun s op => VmaLegal s op ∧ ¬VmaStale s op) fourAreas := by
  have h₀ : vmaSystem.Reachable (fun s op => VmaLegal s op ∧ ¬VmaStale s op) emptyVma :=
    .start (show emptyVma.rbRoot = none ∧ emptyVma.aux.head = none from ⟨rfl, rfl⟩)
  have h₁ := h₀.next
    (insertPages_legal (p := 2) [] (by decide +kernel) (by decide +kernel) (by decide))
    (step_vmaAfter (insertPages 2 3 4) (by decide +kernel))
  have h₂ := h₁.next
    (insertPages_legal (p := 1) [2] (by decide +kernel) (by decide +kernel) (by decide))
    (step_vmaAfter (insertPages 1 1 2) (by decide +kernel))
  have h₃ := h₂.next
    (insertPages_legal (p := 3) [1, 2] (by decide +kernel) (by decide +kernel) (by decide))
    (step_vmaAfter (insertPages 3 5 6) (by decide +kernel))
  exact h₃.next
    (insertPages_legal (p := 4) [1, 2, 3] (by decide +kernel) (by decide +kernel) (by decide))
    (step_vmaAfter _ (by decide +kernel))

theorem vma_run_coherent_fourAreas : ∃ T, Coherent fourAreas T ∧
    ∀ op, VmaLegal fourAreas op → ¬VmaStale fourAreas op →
      ∃ s' T', (∀ s'', vmaSystem.step fourAreas op s'' ↔ s'' = s') ∧ Coherent s' T' :=
  vma_run_coherent fourAreas_reachable

/-! ## Search and insertion -/

/-- The loop of `vma_find` finds the area around the address. -/
theorem vmaFindFrom_spec (addr : ℕ) (t : CTree Addr) :
    ∀ {ctx : List (Frame Addr)} {fuel : ℕ}, Rep s ctx t → Ordered s.aux t.inorder →
      t.inorder.length ≤ fuel → ∃ r, vmaFindFrom s addr fuel t.ptr = some r ∧
        ∀ x, r = some x ↔ x ∈ t.inorder ∧ (s.aux.area x).start ≤ addr ∧
          addr < (s.aux.area x).end_ := by
  induction t with
  | leaf =>
    intro ctx fuel _ _ _
    exact ⟨none, by cases fuel <;> rfl, by simp⟩
  | node c l x r ihl ihr =>
    intro ctx fuel h hord hlen
    have hmk : Rep s ctx (CTree.mk .left c l x r) := h
    obtain ⟨fuel, rfl⟩ : ∃ k, fuel = k + 1 := ⟨fuel - 1, by simp at hlen; omega⟩
    have hlen' : l.inorder.length ≤ fuel ∧ r.inorder.length ≤ fuel := by
      simp at hlen
      omega
    rw [inorder_node] at hord
    obtain ⟨-, hr, hl⟩ := pairwise_append.mp hord.increasing
    -- the areas of the left subtree end before `x`, those of the right one start after it
    have hleft : ∀ y ∈ l.inorder, (s.aux.area y).end_ ≤ (s.aux.area x).start := fun y hy =>
      hl y hy x mem_cons_self
    have hright : ∀ y ∈ r.inorder, (s.aux.area x).end_ ≤ (s.aux.area y).start :=
      (pairwise_cons.mp hr).1
    have hx := hord.nonempty x (by simp)
    rw [ptr_node, vmaFindFrom]
    simp only [hmk.mem_mk, cellOf, inorder_node, mem_append, mem_cons]
    split
    next hin =>
      refine ⟨some x, rfl, fun y => ⟨?_, ?_⟩⟩
      · rintro ⟨rfl⟩
        exact ⟨.inr (.inl rfl), hin⟩
      · rintro ⟨hy | rfl | hy, hstart, hend⟩
        · have := hleft y hy
          omega
        · rfl
        · have := hright y hy
          omega
    next hout =>
      split
      next hlt =>
        obtain ⟨res, hrun, hres⟩ := ihl hmk.focus_near
          (hord.sublist (sublist_append_left _ _)) hlen'.1
        refine ⟨res, hrun, fun y => (hres y).trans ⟨And.imp_left .inl, ?_⟩⟩
        rintro ⟨hy | rfl | hy, hstart, hend⟩
        · exact ⟨hy, hstart, hend⟩
        · omega
        · have := hright y hy
          omega
      next hge =>
        obtain ⟨res, hrun, hres⟩ := ihr h.focus_right
          (hord.sublist ((sublist_cons_self _ _).trans (sublist_append_right _ _))) hlen'.2
        refine ⟨res, hrun, fun y => (hres y).trans ⟨And.imp_left fun hy => .inr (.inr hy), ?_⟩⟩
        rintro ⟨hy | rfl | hy, hstart, hend⟩
        · have := hleft y hy
          omega
        · omega
        · exact ⟨hy, hstart, hend⟩

/-- The search returns the area around the address, if there is one. An insertion succeeds exactly
if no area is in the way: then the new one is put between its neighbours, and otherwise nothing
changes. -/
theorem vma_lookup_insert_exact {s : VmaState} {T : CTree Addr} (h : Coherent s T) :
    (∀ addr fuel, T.inorder.length ≤ fuel → ∃ r, vmaFind fuel s addr = some r ∧
      ∀ x, r = some x ↔ x ∈ T.inorder ∧ (s.aux.area x).start ≤ addr ∧ addr < (s.aux.area x).end_) ∧
    ∀ vma fuel, vma ∉ T.inorder → (s.aux.area vma).start < (s.aux.area vma).end_ →
      T.inorder.length + 1 < fuel →
      ∃ s' b T', vmaInsert fuel s vma = some (s', b) ∧ Coherent s' T' ∧ SameBounds s.aux s'.aux ∧
        (b = true ↔ ∀ y ∈ T.inorder, ¬ Meets s.aux vma y) ∧ (b = false → s' = s) ∧
        (b = true → ∃ u v, T.inorder = u ++ v ∧ T'.inorder = u ++ vma :: v) := by
  have hC := coherent_iff.mp h
  constructor
  · intro addr fuel hfuel
    rw [vmaFind, hC.rep.root]
    have hwhole : Rep s [] T := rep_iff.mpr hC.rep
    exact vmaFindFrom_spec addr T hwhole hC.ordered hfuel
  · intro vma fuel hnew hne hfuel
    obtain ⟨s', b, T', hrun, hC', hbounds, ⟨rfl, hsame, y, hy, hmeet⟩ | ⟨rfl, hfree, hplace⟩⟩ :=
      vmaInsert_spec hC hnew hne hfuel
    · refine ⟨s', false, T', hrun, coherent_iff.mpr hC', hbounds, ?_, fun _ => hsame, nofun⟩
      exact iff_of_false nofun fun hfree => hfree y hy hmeet
    · exact ⟨s', true, T', hrun, coherent_iff.mpr hC', hbounds, iff_of_true rfl hfree, nofun,
        fun _ => hplace⟩

theorem vma_lookup_insert_exact_fourAreas : ∃ T r, Coherent fourAreas T ∧
    vmaFind T.inorder.length fourAreas 0x3800 = some r := by
  obtain ⟨T, hT⟩ := container_of_reachable fourAreas_reachable
  obtain ⟨r, hr, -⟩ := (vma_lookup_insert_exact (coherent_iff.mpr hT)).1 0x3800 _ (Nat.le_refl _)
  exact ⟨T, r, coherent_iff.mpr hT, hr⟩

/-! ## A stale removal -/

/-- The root `2` is removed, and its grandchild `4` keeps it as parent. -/
def staleAreas : VmaState := vmaAfter fourAreas (.remove 2)

/-- Then an area far above `4` is inserted. -/
def wrongGap : VmaState := vmaAfter staleAreas (insertPages 5 32 33)

theorem le_foldr_max {xs : List ℕ} {n : ℕ} (h : n ∈ xs) : n ≤ xs.foldr max 0 := by
  induction xs with
  | nil => simp at h
  | cons m xs ih =>
    simp only [foldr_cons]
    rcases mem_cons.mp h with rfl | h
    · omega
    · have := ih h
      omega

/-- The gap of 23 pages behind `4` is not seen at the root: `propagate_gap_upward` follows the
parent pointer of `4` into the removed area `2`. -/
theorem stale_removal_wrong_gap : vmaSystem.Reachable VmaLegal wrongGap ∧
    wrongGap.rbRoot = some 3 ∧ (wrongGap.mem 3).rbRight = some 4 ∧
    gapAfter wrongGap.aux 4 = 23 * 4096 ∧ wrongGap.aux.rbSubtreeMaxGap 3 = 3 * 4096 ∧
    ¬∃ T, Coherent wrongGap T := by
  have hstale : vmaSystem.Reachable VmaLegal staleAreas :=
    (fourAreas_reachable.mono fun _ _ hok => hok.1).next (e := .remove 2)
      (show Linked fourAreas 2 from .root (by decide +kernel))
      (step_vmaAfter _ (by decide +kernel))
  have hreach : vmaSystem.Reachable VmaLegal wrongGap := hstale.next
    (insertPages_legal (p := 5) [1, 3, 4] (by decide +kernel) (by decide +kernel) (by decide)).1
    (step_vmaAfter _ (by decide +kernel))
  have hroot : wrongGap.rbRoot = some 3 := by decide +kernel
  have hright : (wrongGap.mem 3).rbRight = some 4 := by decide +kernel
  have hgap : gapAfter wrongGap.aux 4 = 23 * 4096 := by decide +kernel
  have hmax : wrongGap.aux.rbSubtreeMaxGap 3 = 3 * 4096 := by decide +kernel
  refine ⟨hreach, hroot, hright, hgap, hmax, ?_⟩
  intro hcoherent
  obtain ⟨T, hT⟩ := hcoherent
  have hmem : 4 ∈ T.inorder :=
    (hT.tree.linked_iff 4).mp (.child .right (.root hroot) hright)
  have hptr : T.ptr = some 3 := hT.tree.root.symm.trans hroot
  rcases leaf_or_mk .left T with rfl | ⟨c, a, x, b, rfl⟩
  · simp at hptr
  · obtain rfl : x = 3 := by simpa using hptr
    have hval := (ann_mk.mp hT.maxGap).1
    have hle := le_foldr_max (mem_map_of_mem (f := gapAfter wrongGap.aux) hmem)
    omega

end BoredOS.Mem.Vma
