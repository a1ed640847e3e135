import BoredOS.Lib.Fuel
import BoredOS.Lib.Transition
import BoredOS.Core.RbTree.Insert
import BoredOS.Core.RbTree.Erase

/-!
# Runs of the Red-Black Tree

The tree as a transition system: it starts at `RB_ROOT`, and a step links and inserts a node at an
empty child position or erases a linked node, with or without an augment callback. In every run
without a stale splice each state is sound and each operation does to the in-order sequence what
its name says.
-/

namespace BoredOS.Core.RbTree

open Lib.RedBlack Lib.Fuel Lib.Transition List Frame
open Option (bind_eq_bind bind_eq_some_iff bind_some)
open CTree (leaf_or_mk mem_inorder_mk mem_inorder_of_ptr ptr_eq_none ptr_mk)

variable {σ : Type}

/-! ## Fuel -/

variable {fuel : ℕ} {s s' : RbState σ} {x : Addr} {par p : Option Addr}
  {node : Option Addr} {y : Addr} {link : Option (Addr × Dir)}

section

variable {cb : AugmentCb σ} (s : RbState σ)

theorem rbInsertLoop_gives (x : Addr) :
    Gives (rbInsertLoop cb fuel s x) (rbInsertLoop cb (fuel + 1) s x) := by
  induction fuel generalizing s x with
  | zero => exact .of_none _
  | succ fuel ih =>
    unfold rbInsertLoop
    split
    next => exact .refl _
    next => exact .ite (.bind (.refl _) fun _ => .bind (.refl _) fun _ => ih ..) (.refl _)

theorem rbEraseFixupLoop_gives (node par : Option Addr) :
    Gives (rbEraseFixupLoop cb fuel s node par) (rbEraseFixupLoop cb (fuel + 1) s node par) := by
  induction fuel generalizing s node par with
  | zero => exact .of_none _
  | succ fuel ih =>
    unfold rbEraseFixupLoop
    refine .ite (.refl _) (.bind (.refl _) fun _ => .bind (.refl _) fun q => ?_)
    obtain ⟨_, _ | _⟩ := q
    · exact .refl _
    · exact ih ..

theorem rbLeftmost_gives (n : Addr) : Gives (rbLeftmost s fuel n) (rbLeftmost s (fuel + 1) n) := by
  induction fuel generalizing n with
  | zero => exact .of_none _
  | succ fuel ih =>
    unfold rbLeftmost
    split
    next => exact .refl _
    next => exact ih _

theorem rbAugmentUp_gives (p : Option Addr) :
    Gives (rbAugmentUp cb fuel s p) (rbAugmentUp cb (fuel + 1) s p) := by
  induction fuel generalizing s p with
  | zero =>
    cases p with
    | none => exact .refl _
    | some => exact .of_none _
  | succ fuel ih =>
    cases p with
    | none => exact .refl _
    | some => exact ih ..

theorem rbSplice_gives (x : Addr) : Gives (rbSplice fuel s x) (rbSplice (fuel + 1) s x) := by
  unfold rbSplice
  split
  · exact .refl _
  · exact .refl _
  · exact .bind (rbLeftmost_gives ..) fun _ => .refl _

theorem rbInsertAugmented_gives (x : Addr) :
    Gives (rbInsertAugmented cb fuel s x) (rbInsertAugmented cb (fuel + 1) s x) :=
  .bind (rbInsertLoop_gives ..) fun _ => .refl _

theorem rbAugmentFrom_gives (p : Option Addr) :
    Gives (rbAugmentFrom cb fuel s p) (rbAugmentFrom cb (fuel + 1) s p) := by
  cases cb with
  | none => exact .refl _
  | some => exact rbAugmentUp_gives ..

theorem rbEraseAugmented_gives (x : Addr) :
    Gives (rbEraseAugmented cb fuel s x) (rbEraseAugmented cb (fuel + 1) s x) :=
  .ite (.refl _) (.bind (rbSplice_gives ..) fun _ => .bind (rbAugmentFrom_gives ..) fun _ =>
    .ite (.bind (rbEraseFixupLoop_gives ..) fun _ => .refl _) (.refl _))

end

/-! ## The operations -/

/-- An operation of the tree; `none` callbacks give `rb_insert_color` and `rb_erase`. -/
inductive RbOp (σ : Type) where
  | insert (cb : AugmentCb σ) (node : Addr) (link : Option (Addr × Dir))
  | erase (cb : AugmentCb σ) (node : Addr)

def applyOp (fuel : ℕ) (s : RbState σ) : RbOp σ → Option (RbState σ)
  | .insert cb node link => rbInsertAugmented cb fuel (rbLinkNode s node link) node
  | .erase cb node => rbEraseAugmented cb fuel s node

variable {op : RbOp σ}

/-- The node is reachable from the root pointer. -/
inductive Linked (s : RbState σ) : Addr → Prop where
  | root {x : Addr} : s.rbRoot = some x → Linked s x
  | child {p x : Addr} (d : Dir) : Linked s p → (s.mem p).child d = some x → Linked s x

/-- A node is inserted at an empty position below a linked node, or into the empty tree; a node
that is erased is linked. -/
def Legal (s : RbState σ) : RbOp σ → Prop
  | .insert _ node none => s.rbRoot = none ∧ ¬Linked s node
  | .insert _ node (some (p, d)) => Linked s p ∧ (s.mem p).child d = none ∧ ¬Linked s node
  | .erase _ node => Linked s node

/-- The operation is an erase that leaves a stale parent pointer. -/
def Stale (s : RbState σ) : RbOp σ → Prop
  | .insert .. => False
  | .erase _ node => StaleSplice s node

/-- From `RB_ROOT`, by operations that come to their end. -/
def rbSystem (σ : Type) : System (RbState σ) (RbOp σ) where
  init s := s.rbRoot = none
  step s op s' := ∃ fuel, applyOp fuel s op = some s'

/-- What an operation does to the in-order sequence. -/
def InorderStep (op : RbOp σ) (ord ord' : List Addr) : Prop :=
  match op with
  | .insert _ node none => ord = [] ∧ ord' = [node]
  | .insert _ node (some (p, .left)) => ∃ u v, ord = u ++ p :: v ∧ ord' = u ++ node :: p :: v
  | .insert _ node (some (p, .right)) => ∃ u v, ord = u ++ p :: v ∧ ord' = u ++ p :: node :: v
  | .erase _ node => ord' = ord.erase node

/-! ## Soundness of a state -/

/-- The state is a red-black tree with the in-order sequence `ord` and exact pointers. -/
structure Sound (s : RbState σ) (ord : List Addr) : Prop where
  tree : ∃ T, Represents s T ∧ T.IsRB ∧ T.inorder = ord
  linked : ∀ x, Linked s x ↔ x ∈ ord
  rootParent : ∀ r, s.rbRoot = some r → (s.mem r).rbParent = none
  parent : ∀ p d x, Linked s p → (s.mem p).child d = some x → (s.mem x).rbParent = some p
  pointers : ∀ x q, Linked s x →
    (s.mem x).rbParent = some q ∨ (s.mem x).rbLeft = some q ∨ (s.mem x).rbRight = some q →
    Linked s q

theorem Rep.linked {ctx : List (Frame Addr)} {t : CTree Addr}
    (h : Rep s ctx t) (hx : t.ptr = some x) : Linked s x := by
  induction ctx generalizing t x with
  | nil => exact .root (h.root.trans hx)
  | cons f fs ih =>
    refine .child f.side (ih (rep_cons.mp h) (ptr_fill f t)) ?_
    simp [h.mem_parent, hx]

variable {T : CTree Addr}

theorem Represents.linked_iff (h : Represents s T) (x : Addr) : Linked s x ↔ x ∈ T.inorder := by
  constructor
  · intro hlink
    induction hlink with
    | root hroot => exact mem_inorder_of_ptr (h.root.symm.trans hroot)
    | child d _ hchild ih =>
      obtain ⟨ctx, c, a, b, rfl, hrep⟩ := h.split ih d
      rw [hrep.mem_mk, cellOf_child] at hchild
      exact mem_inorder_plug.mpr
        (.inl (mem_inorder_mk.mpr (.inr (.inl (mem_inorder_of_ptr hchild)))))
  · intro hx
    obtain ⟨ctx, c, a, b, rfl, hrep⟩ := h.split hx .left
    exact hrep.linked (ptr_mk ..)

/-- A layout has exact pointers, so a red-black layout is all there is to soundness. -/
theorem Represents.sound (h : Represents s T) (hrb : T.IsRB) : Sound s T.inorder := by
  have hparent : ∀ p d x, Linked s p → (s.mem p).child d = some x →
      (s.mem x).rbParent = some p := by
    intro p d x hp hx
    obtain ⟨ctx, c, a, b, rfl, hrep⟩ := h.split ((h.linked_iff p).mp hp) d
    rw [hrep.mem_mk, cellOf_child] at hx
    rcases leaf_or_mk .left a with rfl | ⟨ca, a₁, y, a₂, rfl⟩
    · simp at hx
    · obtain rfl : y = x := by simpa using hx
      simp [hrep.focus_near.mem_mk]
  refine ⟨⟨T, h, hrb, rfl⟩, h.linked_iff, ?_, hparent, ?_⟩
  · intro r hr
    have hrep : Rep s [] T := rep_iff.mpr h
    rcases leaf_or_mk .left T with rfl | ⟨c, a, y, b, rfl⟩
    · simp [h.root] at hr
    · obtain rfl : y = r := by simpa [h.root] using hr
      simp [hrep.mem_mk]
  · intro x q hx hq
    rcases hq with hq | hq | hq
    · obtain ⟨ctx, c, a, b, rfl, hrep⟩ := h.split ((h.linked_iff x).mp hx) .left
      cases ctx with
      | nil => simp [hrep.mem_mk] at hq
      | cons f fs =>
        obtain rfl : f.x = q := by simpa [hrep.mem_mk] using hq
        exact (rep_cons.mp hrep).linked (ptr_fill ..)
    · exact .child .left hx hq
    · exact .child .right hx hq

/-! ## Steps -/

variable {cb : AugmentCb σ} {node : Addr}

theorem exists_hole (h : Represents s T) (hlegal : Legal s (.insert cb node link)) :
    ∃ ctx, T = plug ctx .leaf ∧ link = ctx.head?.map (fun f => (f.x, f.side)) := by
  match link, hlegal with
  | none, ⟨hroot, _⟩ =>
    refine ⟨[], ?_, rfl⟩
    exact ptr_eq_none.mp (h.root.symm.trans hroot)
  | some (p, d), ⟨hp, hchild, _⟩ =>
    obtain ⟨ctx, c, a, b, rfl, hrep⟩ := h.split ((h.linked_iff p).mp hp) d
    rw [hrep.mem_mk, cellOf_child] at hchild
    obtain rfl := ptr_eq_none.mp hchild
    exact ⟨⟨d, c, p, b⟩ :: ctx, rfl, rfl⟩

/-- The in-order sequence around the hole of an insertion. -/
theorem inorderStep_insert (cb : AugmentCb σ) (node : Addr) (ctx : List (Frame Addr)) :
    InorderStep (.insert cb node (ctx.head?.map fun f => (f.x, f.side)))
      (ctxBefore ctx ++ ctxAfter ctx) (ctxBefore ctx ++ node :: ctxAfter ctx) := by
  cases ctx with
  | nil => exact ⟨rfl, rfl⟩
  | cons f fs =>
    obtain ⟨d, c, p, sib⟩ := f
    cases d with
    | left =>
      refine ⟨ctxBefore fs, sib.inorder ++ ctxAfter fs, ?_, ?_⟩
      · simp [ctxBefore, ctxAfter, Frame.before, Frame.after]
      · simp [ctxBefore, ctxAfter, Frame.before, Frame.after]
    | right =>
      refine ⟨ctxBefore fs ++ sib.inorder, ctxAfter fs, ?_, ?_⟩
      · simp [ctxBefore, ctxAfter, Frame.before, Frame.after]
      · simp [ctxBefore, ctxAfter, Frame.before, Frame.after]

/-- A legal insertion ends in a sound state, with the node at its link position. -/
theorem insert_step (h : Represents s T) (hrb : T.IsRB)
    (hlegal : Legal s (.insert cb node link)) (hfuel : T.inorder.length < fuel) :
    ∃ s' T', applyOp fuel s (.insert cb node link) = some s' ∧ Represents s' T' ∧ T'.IsRB ∧
      InorderStep (.insert cb node link) T.inorder T'.inorder := by
  have hnew : node ∉ T.inorder := by
    rw [← h.linked_iff node]
    match link, hlegal with
    | none, ⟨_, hn⟩ => exact hn
    | some (p, d), ⟨_, _, hn⟩ => exact hn
  obtain ⟨ctx, rfl, rfl⟩ := exists_hole h hlegal
  have hrep : Rep s ctx .leaf := rep_iff.mpr h
  have hnode : node ∉ ctxIds ctx := fun hmem => hnew (mem_inorder_plug.mpr (.inr hmem))
  have hlen : ctx.length < fuel := by
    have := length_ctx_le ctx .leaf
    omega
  obtain ⟨s', T', hrun, hT', hrb', hord⟩ :=
    rbInsertAugmented_spec (.trivial cb) ⟨hrep.linkNode hnode, True.intro⟩ hrb hlen
  refine ⟨s', T', hrun, rep_iff.mp hT'.rep, hrb', ?_⟩
  rw [hord, inorder_plug, CTree.inorder_leaf, append_nil]
  exact inorderStep_insert cb node ctx

/-! ## The stale splice -/

theorem rbAugmentUp_mem (h : rbAugmentUp cb fuel s p = some s') : s'.mem = s.mem := by
  induction fuel generalizing s p with
  | zero =>
    cases p with
    | none => simp [rbAugmentUp] at h; rw [h]
    | some => simp [rbAugmentUp] at h
  | succ fuel ih =>
    cases p with
    | none => simp [rbAugmentUp] at h; rw [h]
    | some =>
      rw [ih h, augment_eq]

theorem rbAugmentFrom_mem (h : rbAugmentFrom cb fuel s p = some s') : s'.mem = s.mem := by
  cases cb with
  | none => simp [rbAugmentFrom] at h; rw [h]
  | some => exact rbAugmentUp_mem h

theorem rbReplaceLink_mem_of_ne {d : Dir} {q : Option Addr} {p : Addr}
    (h : par ≠ some p) : (rbReplaceLink d s par node q).mem p = s.mem p := by
  cases par with
  | none => rfl
  | some a =>
    have hne : p ≠ a := fun hEq => h (by rw [hEq])
    simp only [rbReplaceLink]
    split
    · exact modify_of_ne s (·.setChild d q) hne
    · exact modify_of_ne s (·.setChild d.opp q) hne

/-- When the successor is the right child, only it, its new parent and the left child change. -/
theorem rbTakePlace_mem_of_ne {p : Addr} {child : Option Addr} (hxy : x ≠ y)
    (hpx : (s.mem x).rbParent ≠ some x) (hlx : (s.mem x).rbLeft ≠ some x)
    (hr : (s.mem x).rbRight = some y) (hpy : p ≠ y) (hpp : (s.mem x).rbParent ≠ some p)
    (hlp : (s.mem x).rbLeft ≠ some p) : (rbTakePlace s x y child).mem p = s.mem p := by
  simp only [rbTakePlace, rbReplaceLink_mem_of_ne hpx, modify_of_ne _ _ hxy,
    setParent?_mem_of_ne hlx, hr, if_true]
  rw [setParent?_mem_of_ne hlp]
  simp only [modify_of_ne _ _ hpy, rbReplaceLink_mem_of_ne hpp]

/-- The only child of a node without a left child is red, and the node is black. -/
theorem only_child_red {cs : Color} {e : CTree Addr} {n : ℕ} (he : e ≠ .leaf)
    (h : (CTree.mk .left cs .leaf y e).RB n) : cs = .black ∧ e.color = .red := by
  have hpos : ∀ m, e.RB m → e.color = .black → m ≠ 0 := by
    rintro m hm hc rfl
    rcases leaf_or_mk .left e with rfl | ⟨c, a, z, b, rfl⟩
    · exact he rfl
    · rw [CTree.color_mk] at hc
      subst hc
      obtain ⟨k, hk, -⟩ := CTree.rb_mk_black.mp hm
      omega
  cases cs with
  | red =>
    obtain ⟨-, hc, hl, hm⟩ := CTree.rb_mk_red.mp h
    exact absurd hl (hpos n hm hc)
  | black =>
    obtain ⟨m, -, hl, hm⟩ := CTree.rb_mk_black.mp h
    exact ⟨rfl, Color.ne_black.mp fun hc => hpos m hm hc hl⟩

/-- A stale splice leaves a linked node whose parent pointer is the erased node. -/
theorem stale_parent
    (h : Represents s T) (hrb : T.IsRB) (hx : x ∈ T.inorder) (hstale : StaleSplice s x)
    (hrun : rbEraseAugmented cb fuel s x = some s') :
    ∃ z ∈ T.inorder, z ≠ x ∧ (s'.mem z).rbParent = some x := by
  obtain ⟨ctx, c, l, r, rfl, hrep⟩ := h.split hx .left
  have hmx := hrep.mem_mk
  have hnd := CTree.nodup_inorder_mk.mp hrep.sub_nodup
  simp only [StaleSplice, hmx, cellOf] at hstale
  obtain ⟨hl, hr⟩ := hstale
  obtain ⟨a, ha⟩ := Option.ne_none_iff_exists'.mp hl
  -- the right child has no left child and a right one
  rcases leaf_or_mk .left r with rfl | ⟨cs, r₁, y, e, rfl⟩
  · exact absurd hr (by simp)
  have hmy := hrep.focus_far.mem_mk
  simp only [ptr_mk, hmy, cellOf] at hr
  obtain ⟨hr₁, he⟩ := hr
  obtain rfl := ptr_eq_none.mp hr₁
  obtain ⟨z, hz⟩ := Option.ne_none_iff_exists'.mp he
  have hze := mem_inorder_of_ptr hz
  obtain ⟨⟨hxl, hxr⟩, -, hndr, hlr⟩ := hnd
  simp only [mem_inorder_mk, CTree.inorder_leaf, not_mem_nil, false_or, not_or] at hxr hlr
  have hzx : z ≠ x := fun hEq => hxr.2 (hEq ▸ hze)
  have hzy : z ≠ y := fun hEq => (CTree.nodup_inorder_mk.mp hndr).1.2 (hEq ▸ hze)
  have hzl : l.ptr ≠ some z := fun hEq => (hlr z (mem_inorder_of_ptr hEq)).2 hze
  have hzT : z ∈ (CTree.mk .left c l x (CTree.mk .left cs .leaf y e)).inorder := by
    simp [mem_inorder_mk, hze]
  -- its colour decides that the fix-up does nothing but repaint
  obtain ⟨n, -, hsub, -⟩ := isRB_plug.mp hrb
  obtain ⟨m, -, hrm⟩ := hsub.children
  obtain ⟨rfl, hred⟩ := only_child_red (fun hEq => he (by rw [hEq]; rfl)) hrm
  have hzred : (s.mem z).rbColor = .red := by
    have := hrep.focus_far.focus_far.isRed_eq
    simpa [hz, hred, RbState.isRed] using this
  refine ⟨z, mem_inorder_plug.mpr (.inl hzT), hzx, ?_⟩
  set s₀ := s.setParent z (some x) with hs₀
  have hX : s₀.mem x = s.mem x := modify_of_ne s (·.setParent (some x)) hzx.symm
  have htake : (rbTakePlace s₀ x y (some z)).mem z = (s.mem z).setParent (some x) := by
    rw [rbTakePlace_mem_of_ne hxr.1, hs₀, modify_self]
    · rw [hX, hmx, cellOf_parent]
      exact hrep.parOf_ne (mem_inorder_mk.mpr (.inl rfl))
    · rw [hX, hmx]
      exact fun hEq => hxl (mem_inorder_of_ptr hEq)
    · rw [hX, hmx]
      simp [cellOf]
    · exact hzy
    · rw [hX, hmx, cellOf_parent]
      exact hrep.parOf_ne hzT
    · rw [hX, hmx]
      exact hzl
  have hroot := h.root_ne_none hx
  cases fuel with
  | zero =>
    simp [rbEraseAugmented, hroot, rbSplice, hmx, cellOf, ha, rbSpliceSuccessor, rbLeftmost] at hrun
  | succ fuel =>
    have hsp : rbSplice (fuel + 1) s x =
        some ⟨rbTakePlace s₀ x y (some z), some z, some y, .black⟩ := by
      simp [rbSplice, hmx, cellOf, ha, rbSpliceSuccessor, rbLeftmost, hmy, hz, hs₀,
        RbState.setParent?]
    simp only [rbEraseAugmented, if_neg hroot, hsp, bind_eq_bind, bind_some,
      bind_eq_some_iff, if_true] at hrun
    obtain ⟨s₁, haug, hfix⟩ := hrun
    have hmem := rbAugmentFrom_mem haug
    have hred₁ : s₁.isRed (some z) = true := by
      simp [RbState.isRed, hmem, htake, RbNode.setParent, hzred]
    simp only [rbEraseFixup, rbEraseFixupLoop, hred₁, Bool.true_or, if_true, bind_eq_bind,
      bind_some, Option.some.injEq] at hfix
    rw [← hfix, RbState.setColor?, modify_self, hmem, htake]
    rfl

/-! ## Every run -/

/-- In a sound state, a legal operation ends in a sound state with the right in-order sequence
exactly when it is not a stale erase. -/
theorem step_sound_iff {ord : List Addr} (h : Sound s ord) (hlegal : Legal s op) :
    (∃ s' ord', (rbSystem σ).step s op s' ∧ Sound s' ord' ∧ InorderStep op ord ord') ↔
      ¬Stale s op := by
  obtain ⟨T, hT, hrb, rfl⟩ := h.tree
  constructor
  · rintro ⟨s', ord', ⟨fuel, hrun⟩, hsound, hord⟩ hstale
    cases op with
    | insert => exact hstale
    | erase cb node =>
      have hx := (hT.linked_iff node).mp hlegal
      obtain ⟨z, hz, hzx, hpar⟩ := stale_parent hT hrb hx hstale hrun
      have hord' : ord' = T.inorder.erase node := hord
      have hz' : Linked s' z := (hsound.linked z).mpr (by
        rw [hord']
        exact (mem_erase_of_ne hzx).mpr hz)
      have hx' := (hsound.linked node).mp (hsound.pointers z node hz' (.inl hpar))
      rw [hord'] at hx'
      exact hT.nodup.not_mem_erase hx'
  · intro hstale
    cases op with
    | insert =>
      obtain ⟨s', T', hrun, hT', hrb', hord⟩ := insert_step hT hrb hlegal (Nat.lt_succ_self _)
      exact ⟨s', _, ⟨_, hrun⟩, hT'.sound hrb', hord⟩
    | erase cb node =>
      obtain ⟨s', T', hrun, hT', hrb', hord⟩ := rbEraseAugmented_spec (.trivial cb) hT hrb
        ((hT.linked_iff node).mp hlegal) hstale (Nat.lt_succ_self _) fun _ _ _ _ _ => .intro
      exact ⟨s', _, ⟨_, hrun⟩, (rep_iff.mp hT'.rep).sound hrb', hord⟩

/-- Fuel does not change a result. -/
theorem step_unique {s₁ s₂ : RbState σ} (h₁ : (rbSystem σ).step s op s₁)
    (h₂ : (rbSystem σ).step s op s₂) : s₁ = s₂ := by
  obtain ⟨n₁, h₁⟩ := h₁
  obtain ⟨n₂, h₂⟩ := h₂
  refine unique (f := (applyOp · s op)) (fun fuel => ?_) h₁ h₂
  cases op with
  | insert => exact rbInsertAugmented_gives ..
  | erase => exact rbEraseAugmented_gives ..

theorem init_sound (h : (rbSystem σ).init s) : Sound s [] := by
  have hrep : Represents s .leaf := ⟨h, nodup_nil, by simp⟩
  exact hrep.sound ⟨⟨0, rfl⟩, rfl⟩

/-- Every state of a run of legal operations without a stale erase is sound. In such a state every
legal operation that is no stale erase ends, its result does not depend on the fuel, and it is
sound with the in-order sequence the operation asks for; a stale erase never has such a result. -/
theorem rbtree_run_sound {s : RbState σ}
    (h : (rbSystem σ).Reachable (fun s op => Legal s op ∧ ¬Stale s op) s) :
    ∃ ord, Sound s ord ∧ ∀ op, Legal s op →
      ((∃ s' ord', (∀ s'', (rbSystem σ).step s op s'' ↔ s'' = s') ∧ Sound s' ord' ∧
        InorderStep op ord ord') ↔ ¬Stale s op) := by
  have hinv : ∃ ord, Sound s ord := by
    refine h.invariant (I := fun s => ∃ ord, Sound s ord) (fun s hs => ⟨[], init_sound hs⟩) ?_
    rintro s op s' ⟨ord, hs⟩ ⟨hlegal, hstale⟩ hstep
    obtain ⟨s₁, ord', hstep₁, hsound, -⟩ := (step_sound_iff hs hlegal).mpr hstale
    exact ⟨ord', step_unique hstep hstep₁ ▸ hsound⟩
  obtain ⟨ord, hs⟩ := hinv
  refine ⟨ord, hs, fun op hlegal => ?_⟩
  rw [← step_sound_iff hs hlegal]
  constructor
  · rintro ⟨s', ord', hstep, hsound, hord⟩
    exact ⟨s', ord', (hstep s').mpr rfl, hsound, hord⟩
  · rintro ⟨s', ord', hstep, hsound, hord⟩
    exact ⟨s', ord', fun s'' => ⟨fun h'' => step_unique h'' hstep, fun hEq => hEq ▸ hstep⟩,
      hsound, hord⟩

/-! ## A run with four nodes -/

/-- A set of addresses that holds the root and is closed under child pointers holds every linked
node. -/
theorem Linked.mem_of_closed {S : List Addr} (hroot : ∀ x ∈ s.rbRoot, x ∈ S)
    (hchild : ∀ p ∈ S, (∀ x ∈ (s.mem p).rbLeft, x ∈ S) ∧
        ∀ x ∈ (s.mem p).rbRight, x ∈ S) (h : Linked s x) : x ∈ S := by
  induction h with
  | root hr => exact hroot _ hr
  | child d _ hx ih =>
    cases d with
    | left => exact (hchild _ ih).1 _ hx
    | right => exact (hchild _ ih).2 _ hx

/-- `RB_ROOT` with all nodes cleared. -/
def emptyTree : RbState Unit := ⟨none, fun _ => ⟨none, none, none, .red⟩, ()⟩

def after (s : RbState Unit) (op : RbOp Unit) : RbState Unit := (applyOp 8 s op).getD s

/-- A root `2` with children `1` and `3`. -/
def threeNodes : RbState Unit :=
  after (after (after emptyTree (.insert none 2 none)) (.insert none 1 (some (2, .left))))
    (.insert none 3 (some (2, .right)))

/-- The same with `4` to the right of `3`. -/
def fourNodes : RbState Unit := after threeNodes (.insert none 4 (some (3, .right)))

theorem threeNodes_reachable :
    (rbSystem Unit).Reachable (fun s op => Legal s op ∧ ¬Stale s op) threeNodes := by
  have ok₁ : Legal emptyTree (.insert none 2 none) := ⟨rfl, fun h =>
    absurd (h.mem_of_closed (S := []) (by decide) (by decide)) (by decide)⟩
  have ok₂ : Legal (after emptyTree (.insert none 2 none)) (.insert none 1 (some (2, .left))) :=
    ⟨.root rfl, rfl, fun h =>
      absurd (h.mem_of_closed (S := [2]) (by decide) (by decide)) (by decide)⟩
  have ok₃ : Legal (after (after emptyTree (.insert none 2 none))
      (.insert none 1 (some (2, .left))))
      (.insert none 3 (some (2, .right))) := ⟨.root rfl, rfl, fun h =>
    absurd (h.mem_of_closed (S := [1, 2]) (by decide) (by decide)) (by decide)⟩
  have h₀ : (rbSystem Unit).Reachable (fun s op => Legal s op ∧ ¬Stale s op) emptyTree :=
    .start (show emptyTree.rbRoot = none from rfl)
  have h₁ := h₀.next ⟨ok₁, id⟩ ⟨8, rfl⟩
  have h₂ := h₁.next ⟨ok₂, id⟩ ⟨8, rfl⟩
  exact h₂.next ⟨ok₃, id⟩ ⟨8, rfl⟩

theorem fourNodes_legal : Legal threeNodes (.insert none 4 (some (3, .right))) :=
  ⟨.child .right (.root rfl) rfl, rfl, fun h =>
    absurd (h.mem_of_closed (S := [1, 2, 3]) (by decide) (by decide)) (by decide)⟩

theorem rbtree_run_sound_fourNodes : ∃ ord, Sound fourNodes ord ∧ ∀ op, Legal fourNodes op →
      ((∃ s' ord', (∀ s'', (rbSystem Unit).step fourNodes op s'' ↔ s'' = s') ∧ Sound s' ord' ∧
        InorderStep op ord ord') ↔ ¬Stale fourNodes op) :=
  rbtree_run_sound (threeNodes_reachable.next ⟨fourNodes_legal, id⟩ ⟨8, rfl⟩)

/-- Erasing `2` from it leaves `4`, now the right child of the root `3`, with the parent pointer
`2`. -/
theorem stale_erase_unsound : ∃ s, applyOp 8 fourNodes (.erase none 2) = some s ∧
    (rbSystem Unit).Reachable Legal s ∧ s.rbRoot = some 3 ∧ (s.mem 3).rbRight = some 4 ∧
    (s.mem 4).rbParent = some 2 ∧ ¬∃ ord, Sound s ord := by
  have hfour : (rbSystem Unit).Reachable Legal fourNodes :=
    (threeNodes_reachable.mono fun _ _ hok => hok.1).next fourNodes_legal ⟨8, rfl⟩
  have hlegal : Legal fourNodes (.erase none 2) := .root rfl
  refine ⟨after fourNodes (.erase none 2), rfl, hfour.next hlegal ⟨8, rfl⟩, rfl, rfl, rfl, ?_⟩
  rintro ⟨ord, hsound⟩
  have hpar := hsound.parent 3 .right 4 (.root rfl) rfl
  exact absurd hpar (by decide)

end BoredOS.Core.RbTree
