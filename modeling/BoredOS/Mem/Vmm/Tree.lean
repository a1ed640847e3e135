import BoredOS.Lib.Transition
import BoredOS.Mem.Vma.Run
import BoredOS.Mem.Vmm.Cut

/-!
# The Areas of a Space in the Search Tree

`vmm.c` reaches the areas of a space by the list and by the tree of its container, and changes both
with `vma_insert` and `vma_remove` of `vma.c`. Here the list of `BoredOS.Mem.Vmm.Model` is tied to
the container of `BoredOS.Mem.Vma`. A call of `vmm.c` is followed by the insertions and removals
that it makes (`mapOps`, `unmapOps`, `brkOps`, `faultOps`, `childOps`), in the order of the source.

A container that mirrors a list keeps doing so, with the same answers, as long as no removal is a
stale splice (`Mirrors.run`). After a stale splice the tree no longer leads to the areas of the
list, so the results about runs of `vmm.c` have that condition (`Clean`).
-/

namespace BoredOS.Mem.Vmm

open Core.RbTree Lib.RedBlack Lib.Intervals Lib.Transition Pmm Mmu List
open Vma (VmaState Container SameBounds Meets vmaSystem)

/-! ## Containers and lists -/

/-- The block `x` holds an area with the bounds of `a`. -/
def At (c : VmaState) (x : Addr) (a : Area) : Prop :=
  (c.aux.area x).start = a.start ∧ (c.aux.area x).end_ = a.end_

/-- The container is coherent and holds the areas of the list, in their order. -/
def Mirrors (c : VmaState) (vmas : List Area) : Prop :=
  ∃ T, Container c T ∧ Forall₂ (At c) T.inorder vmas

/-- `vma_find` in the tree finds the area that is found in the list. -/
def FindsAs (c : VmaState) (vmas : List Area) : Prop :=
  ∀ addr, ∃ fuel r, Vma.vmaFind fuel c addr = some r ∧ Option.Rel (At c) r (vmaFind vmas addr)

variable {c c₁ c' : VmaState} {vmas vmas' : List Area} {a b : Area} {x p : Addr} {T : CTree Addr}

section

variable {α β : Type} {R : α → β → Prop} {u v : List α} {ys : List β}

theorem forall₂_append_left (h : Forall₂ R (u ++ v) ys) :
    ∃ p q, ys = p ++ q ∧ Forall₂ R u p ∧ Forall₂ R v q := by
  induction u generalizing ys with
  | nil => exact ⟨[], ys, rfl, .nil, h⟩
  | cons x u ih =>
    obtain ⟨y, ys, hxy, hrest, rfl⟩ := forall₂_cons_left_iff.1 h
    obtain ⟨p, q, rfl, hp, hq⟩ := ih hrest
    exact ⟨y :: p, q, rfl, .cons hxy hp, hq⟩

theorem forall₂_append {p q : List β} (hu : Forall₂ R u p) (hv : Forall₂ R v q) :
    Forall₂ R (u ++ v) (p ++ q) := by
  induction hu with
  | nil => exact hv
  | cons hxy _ ih => exact .cons hxy ih

theorem exists_right_of_mem {x : α} (h : Forall₂ R u ys) (hx : x ∈ u) : ∃ y ∈ ys, R x y := by
  obtain ⟨l, r, rfl⟩ := append_of_mem hx
  obtain ⟨p, q, rfl, -, hq⟩ := forall₂_append_left h
  obtain ⟨y, q, hxy, -, rfl⟩ := forall₂_cons_left_iff.1 hq
  exact ⟨y, mem_append_right p mem_cons_self, hxy⟩

theorem exists_left_of_mem {y : β} (h : Forall₂ R u ys) (hy : y ∈ ys) : ∃ x ∈ u, R x y := by
  obtain ⟨x, hx, hxy⟩ := exists_right_of_mem h.flip hy
  exact ⟨x, hx, hxy⟩

end

theorem At.congr (h : At c x a) (hb : (c'.aux.area x).start = (c.aux.area x).start ∧
    (c'.aux.area x).end_ = (c.aux.area x).end_) : At c' x a :=
  ⟨hb.1.trans h.1, hb.2.trans h.2⟩

theorem forall₂_at_congr {xs : List Addr} (h : Forall₂ (At c) xs vmas)
    (hb : ∀ x ∈ xs, (c'.aux.area x).start = (c.aux.area x).start ∧
      (c'.aux.area x).end_ = (c.aux.area x).end_) : Forall₂ (At c') xs vmas := by
  induction h with
  | nil => exact .nil
  | cons hxa _ ih =>
    exact .cons (hxa.congr (hb _ mem_cons_self)) (ih fun x hx => hb x (mem_cons_of_mem _ hx))

/-- Areas that lie at the same place are the same area of the list. -/
theorem WellFormed.eq_of_at (h : WellFormed vmas) (ha : a ∈ vmas) (hb : b ∈ vmas)
    (hxa : At c x a) (hxb : At c x b) : a = b := by
  have hgood := (h.good a ha).nonempty
  have hfa := h.find_eq_some.2 ⟨ha, show a.Covers a.start from ⟨le_refl _, hgood⟩⟩
  have hcovers : b.Covers a.start := by
    refine ⟨?_, ?_⟩
    · rw [← hxb.1, hxa.1]
    · rw [← hxb.2, hxa.2]
      exact hgood
  exact Option.some.inj (hfa.symm.trans (h.find_eq_some.2 ⟨hb, hcovers⟩))

/-- The tree answers a search as the list does. -/
theorem Mirrors.find (h : Mirrors c vmas) (hwf : WellFormed vmas) : FindsAs c vmas := by
  obtain ⟨T, hC, hat⟩ := h
  intro addr
  have hwhole : Rep c [] T := rep_iff.mpr hC.rep
  obtain ⟨r, hrun, hr⟩ := Vma.vmaFindFrom_spec addr T hwhole hC.ordered (le_refl _)
  rw [← hC.rep.root] at hrun
  refine ⟨T.inorder.length, r, hrun, ?_⟩
  cases r with
  | some x =>
    obtain ⟨hx, hcovers⟩ := (hr x).1 rfl
    obtain ⟨a, ha, hxa⟩ := exists_right_of_mem hat hx
    rw [hxa.1, hxa.2] at hcovers
    rw [hwf.find_eq_some.2 ⟨ha, hcovers⟩]
    exact .some hxa
  | none =>
    rcases hwf.find_cases addr with ⟨a, ha, hcovers, -⟩ | ⟨-, hnone⟩
    · obtain ⟨x, hx, hxa⟩ := exists_left_of_mem hat ha
      have hcovers' : a.start ≤ addr ∧ addr < a.end_ := hcovers
      rw [← hxa.1, ← hxa.2] at hcovers'
      cases (hr x).2 ⟨hx, hcovers'⟩
    · rw [hnone]
      exact .none

/-! ## Insertions and removals -/

/-- The calls of `vma.c` that change a container. With an insertion goes the answer that the caller
acts on, if it looks at the answer. -/
inductive AreaOp where
  | insert (a : Area) (answer : Option Bool)
  | remove (a : Area)
  deriving DecidableEq

/-- What the call does to the list. -/
def AreaOp.onList (vmas : List Area) : AreaOp → List Area
  | .insert a _ => (vmaInsert vmas a).1
  | .remove a => vmaRemove vmas a

def replay (vmas : List Area) (ops : List AreaOp) : List Area := ops.foldl AreaOp.onList vmas

/-- The block `p` is filled in and nothing else is written. -/
structure Rewritten (c c₁ : VmaState) (p : Addr) : Prop where
  root : c₁.rbRoot = c.rbRoot
  head : c₁.aux.head = c.aux.head
  mem : ∀ y ≠ p, c₁.mem y = c.mem y
  area : ∀ y ≠ p, c₁.aux.area y = c.aux.area y
  gap : ∀ y ≠ p, c₁.aux.rbSubtreeMaxGap y = c.aux.rbSubtreeMaxGap y

/-- The call on the container. An area that is inserted stands in a block that is not linked: a new
one, or the one that was taken out just before and has got other bounds. -/
def Follows (c : VmaState) : AreaOp → VmaState → Prop
  | .insert a answer, c' => ∃ p c₁ fuel r, ¬ Linked c p ∧ Rewritten c c₁ p ∧ At c₁ p a ∧
      Vma.vmaInsert fuel c₁ p = some (c', r) ∧ ∀ o ∈ answer, r = o
  | .remove a, c' => ∃ x fuel r, Linked c x ∧ At c x a ∧ Vma.vmaRemove fuel c x = some (c', r)

/-- A container under these calls, from an empty one on. -/
def areaSystem : System VmaState AreaOp where
  init := vmaSystem.init
  step := Follows

/-- The container goes through the calls in their order. -/
def Trail (c : VmaState) (ops : List AreaOp) (c' : VmaState) : Prop :=
  areaSystem.Trace (fun _ _ => True) c ops c'

/-- The call does not take an area out of the tree by a stale splice. -/
def NotStale (c : VmaState) : AreaOp → Prop
  | .insert .. => True
  | .remove a => ∀ x, Linked c x → At c x a → ¬ StaleSplice c x

/-- None of the calls does. -/
def Clean : VmaState → List AreaOp → Prop
  | _, [] => True
  | c, op :: ops => NotStale c op ∧ ∀ c', Follows c op c' → Clean c' ops

/-- The call fits the list: what is removed is there, and what is inserted is an area. -/
def AreaOp.Applies (vmas : List Area) : AreaOp → Prop
  | .insert a answer => a.Good ∧ ∀ o ∈ answer, (vmaInsert vmas a).2 = o
  | .remove a => a ∈ vmas

def Applicable : List Area → List AreaOp → Prop
  | _, [] => True
  | vmas, op :: ops => op.Applies vmas ∧ Applicable (op.onList vmas) ops

variable {op : AreaOp} {ops ops' : List AreaOp}

theorem WellFormed.onList (h : WellFormed vmas) (hfits : op.Applies vmas) :
    WellFormed (op.onList vmas) := by
  cases op with
  | insert a answer => exact h.vmaInsert_fst hfits.1
  | remove a => exact h.sublist erase_sublist

theorem applicable_append : Applicable vmas (ops ++ ops') ↔
    Applicable vmas ops ∧ Applicable (replay vmas ops) ops' := by
  induction ops generalizing vmas with
  | nil => exact (true_and _).to_iff.symm
  | cons op ops ih => exact (and_congr_right fun _ => ih).trans and_assoc.symm

theorem replay_append : replay vmas (ops ++ ops') = replay (replay vmas ops) ops' :=
  foldl_append

theorem Rewritten.mirrors (h : Rewritten c c₁ p) (hC : Container c T) (hp : p ∉ T.inorder)
    (hat : Forall₂ (At c) T.inorder vmas) :
    Container c₁ T ∧ Forall₂ (At c₁) T.inorder vmas := by
  have hne : ∀ y ∈ T.inorder, y ≠ p := fun y hy heq => hp (heq ▸ hy)
  refine ⟨hC.congr h.root h.head (fun y hy => h.mem y (hne y hy)) (fun y hy => h.area y (hne y hy))
    fun y hy => h.gap y (hne y hy), ?_⟩
  refine forall₂_at_congr hat fun y hy => ?_
  rw [h.area y (hne y hy)]
  exact ⟨rfl, rfl⟩

/-- An insertion has the answer that it has on the list, and puts the area at the same place. -/
theorem Mirrors.insert (h : Mirrors c vmas) (hwf : WellFormed vmas) (ha : a.Good)
    (hp : ¬ Linked c p) (hset : Rewritten c c₁ p) (hpa : At c₁ p a) :
    ∃ fuel c', Vma.vmaInsert fuel c₁ p = some (c', (vmaInsert vmas a).2) ∧
      Mirrors c' (vmaInsert vmas a).1 := by
  obtain ⟨T, hC, hat⟩ := h
  have hnew : p ∉ T.inorder := fun hmem => hp ((hC.rep.linked_iff p).2 hmem)
  obtain ⟨hC₁, hat₁⟩ := hset.mirrors hC hnew hat
  have hne : (c₁.aux.area p).start < (c₁.aux.area p).end_ := by
    rw [hpa.1, hpa.2]
    exact ha.nonempty
  obtain ⟨c', r, T', hrun, hC', hbounds, hcases⟩ :=
    Vma.vmaInsert_spec hC₁ hnew hne (Nat.lt_succ_self (T.inorder.length + 1))
  refine ⟨T.inorder.length + 2, c', ?_⟩
  rcases hcases with ⟨rfl, rfl, y, hy, hmeet⟩ | ⟨rfl, -, u, v, hsplit, hplace⟩
  · obtain ⟨b, hb, hyb⟩ := exists_right_of_mem hat₁ hy
    have hover : a.start < b.end_ ∧ b.start < a.end_ := by
      rw [← hpa.1, ← hpa.2, ← hyb.1, ← hyb.2]
      exact ⟨hmeet.2, hmeet.1⟩
    rw [WellFormed.insert_refused hb hover]
    exact ⟨hrun, T, hC₁, hat₁⟩
  · rw [hsplit] at hat₁
    obtain ⟨l, q, rfl, hl, hq⟩ := forall₂_append_left hat₁
    -- the new area stands between the same neighbours in the tree and in the list
    have hord := hC'.ordered.increasing
    rw [hplace] at hord
    obtain ⟨-, hpv, hup⟩ := pairwise_append.1 hord
    have hat' : ∀ {y b}, At c₁ y b → At c' y b := fun hyb => hyb.congr (hbounds _)
    have hleft : ∀ b ∈ l, b.end_ ≤ a.start := by
      intro b hb
      obtain ⟨y, hy, hyb⟩ := exists_left_of_mem hl hb
      rw [← (hat' hyb).2, ← (hat' hpa).1]
      exact hup y hy p mem_cons_self
    have hright : ∀ b ∈ q, a.end_ ≤ b.start := by
      intro b hb
      obtain ⟨y, hy, hyb⟩ := exists_left_of_mem hq hb
      rw [← (hat' hyb).1, ← (hat' hpa).2]
      exact (pairwise_cons.1 hpv).1 y hy
    rw [hwf.insert_eq ha.nonempty hleft hright]
    refine ⟨hrun, T', hC', ?_⟩
    rw [hplace]
    exact forall₂_append (hl.imp fun _ _ => hat') (.cons (hat' hpa) (hq.imp fun _ _ => hat'))

/-- A removal that is not a stale splice takes the same area out of the tree and of the list. -/
theorem Mirrors.remove (h : Mirrors c vmas) (hwf : WellFormed vmas) (ha : a ∈ vmas)
    (hx : Linked c x) (hxa : At c x a) (hstale : ¬ StaleSplice c x) :
    ∃ fuel c', Vma.vmaRemove fuel c x = some (c', true) ∧ Mirrors c' (vmaRemove vmas a) := by
  obtain ⟨T, hC, hat⟩ := h
  obtain ⟨u, v, hsplit⟩ := append_of_mem ((hC.rep.linked_iff x).1 hx)
  have hfuel : T.inorder.length + 1 < T.inorder.length + 2 := Nat.lt_succ_self _
  obtain ⟨c', T', hrun, hrep, hrb, hord, hlist, hgaps, hbounds⟩ :=
    Vma.vmaRemove_spec hC.rep hC.rb hsplit hC.list (Vma.gapAt_weaken hC.gaps _) hstale hfuel
  have hordered := hC.ordered
  rw [hsplit] at hat hordered
  obtain ⟨l, q, rfl, hl, hq⟩ := forall₂_append_left hat
  obtain ⟨b, q', hxb, hq', rfl⟩ := forall₂_cons_left_iff.1 hq
  obtain rfl := hwf.eq_of_at ha (mem_append_right l mem_cons_self) hxa hxb
  rw [hwf.remove_eq]
  refine ⟨_, c', hrun, T', ⟨hrep, hrb, hlist, ?_, hgaps⟩, ?_⟩
  · rw [hord]
    exact (hordered.sublist ((sublist_cons_self x v).append_left u)).congr fun y _ => hbounds y
  · rw [hord]
    exact forall₂_at_congr (forall₂_append hl hq') fun y _ => hbounds y

/-- There is room for a block outside of every container. -/
theorem exists_rewritten (hC : Container c T) (a : Area) :
    ∃ p c₁, ¬ Linked c p ∧ Rewritten c c₁ p ∧ At c₁ p a := by
  obtain ⟨p, hp⟩ := Infinite.exists_notMem_finset T.inorder.toFinset
  let g : Vma.VmArea → Vma.VmArea := fun w => { w with start := a.start, end_ := a.end_ }
  have hself : (c.aux.modify p g).area p = g (c.aux.area p) := Vma.modify_area_self c.aux p g
  refine ⟨p, { c with aux := c.aux.modify p g },
    fun hlinked => hp (mem_toFinset.2 ((hC.rep.linked_iff p).1 hlinked)), ?_, ?_⟩
  · exact ⟨rfl, rfl, fun _ _ => rfl, fun y hy => Vma.modify_area_of_ne c.aux g hy, fun _ _ => rfl⟩
  · exact ⟨congrArg Vma.VmArea.start hself, congrArg Vma.VmArea.end_ hself⟩

/-- One call: the container can take it, and whatever blocks it uses, it mirrors the list again. -/
theorem Mirrors.step (h : Mirrors c vmas) (hwf : WellFormed vmas) (hfits : op.Applies vmas)
    (hclean : NotStale c op) :
    (∃ c', Follows c op c') ∧ ∀ c', Follows c op c' → Mirrors c' (op.onList vmas) := by
  obtain ⟨T, hC, hat⟩ := id h
  cases op with
  | insert a answer =>
    constructor
    · obtain ⟨p, c₁, hp, hset, hpa⟩ := exists_rewritten hC a
      obtain ⟨fuel, c', hrun, -⟩ := h.insert hwf hfits.1 hp hset hpa
      exact ⟨c', p, c₁, fuel, _, hp, hset, hpa, hrun, hfits.2⟩
    · rintro c' ⟨p, c₁, fuel, r, hp, hset, hpa, hrun, -⟩
      obtain ⟨fuel', c'', hrun', hmirrors⟩ := h.insert hwf hfits.1 hp hset hpa
      cases Lib.Fuel.unique (f := fun n => Vma.vmaInsert n c₁ p)
        (fun _ => Vma.vmaInsert_gives c₁ p) hrun hrun'
      exact hmirrors
  | remove a =>
    constructor
    · obtain ⟨x, hx, hxa⟩ := exists_left_of_mem hat hfits
      have hlinked := (hC.rep.linked_iff x).2 hx
      obtain ⟨fuel, c', hrun, -⟩ := h.remove hwf hfits hlinked hxa (hclean x hlinked hxa)
      exact ⟨c', x, fuel, true, hlinked, hxa, hrun⟩
    · rintro c' ⟨x, fuel, r, hlinked, hxa, hrun⟩
      obtain ⟨fuel', c'', hrun', hmirrors⟩ := h.remove hwf hfits hlinked hxa (hclean x hlinked hxa)
      cases Lib.Fuel.unique (f := fun n => Vma.vmaRemove n c x)
        (fun _ => Vma.vmaRemove_gives c x) hrun hrun'
      exact hmirrors

/-- The container can go through the calls, and whatever blocks they use, it ends up with the areas
of the list and finds them. -/
def TreeKeeps (c : VmaState) (ops : List AreaOp) (vmas : List Area) : Prop :=
  (∃ c', Trail c ops c') ∧ ∀ c', Trail c ops c' → Mirrors c' vmas ∧ FindsAs c' vmas

/-- Any number of calls. -/
theorem Mirrors.run (h : Mirrors c vmas) (hwf : WellFormed vmas) (hfits : Applicable vmas ops)
    (hclean : Clean c ops) : TreeKeeps c ops (replay vmas ops) := by
  induction ops generalizing c vmas with
  | nil =>
    refine ⟨⟨c, rfl⟩, ?_⟩
    rintro c' rfl
    exact ⟨h, h.find hwf⟩
  | cons op ops ih =>
    obtain ⟨⟨c₁, hfirst⟩, hkeeps⟩ := h.step hwf hfits.1 hclean.1
    have hrest : ∀ c₁, Follows c op c₁ → TreeKeeps c₁ ops (replay (op.onList vmas) ops) :=
      fun c₁ hstep => ih (hkeeps c₁ hstep) (hwf.onList hfits.1) hfits.2 (hclean.2 c₁ hstep)
    constructor
    · obtain ⟨⟨c', hc'⟩, -⟩ := hrest c₁ hfirst
      exact ⟨c', c₁, trivial, hfirst, hc'⟩
    · rintro c' ⟨c₁, -, hstep, hc'⟩
      exact (hrest c₁ hstep).2 c' hc'

/-- A new container holds no areas. -/
theorem mirrors_nil (h : vmaSystem.init c) : Mirrors c [] :=
  ⟨.leaf, Vma.vma_init h, .nil⟩

/-- A stale splice takes four areas: the one that is removed, one on its left, its right child and
the right child of that. -/
theorem Mirrors.notStale (h : Mirrors c vmas) (hfew : vmas.length < 4) (op : AreaOp) :
    NotStale c op := by
  obtain ⟨T, hC, hat⟩ := h
  cases op with
  | insert => trivial
  | remove a =>
    rintro x hlinked - ⟨hleft, hright⟩
    obtain ⟨ctx, col, l, r, rfl, hrep⟩ := hC.rep.split ((hC.rep.linked_iff x).1 hlinked) .left
    have hx := hrep.mem_mk
    rw [hx] at hleft hright
    cases l with
    | leaf => exact hleft rfl
    | node _ ll y lr =>
      cases r with
      | leaf => exact hright
      | node col' rl z rr =>
        have hsub : Rep c _ (CTree.mk .left col' rl z rr) := hrep.focus_right
        have hz : (c.mem z).rbRight = rr.ptr := congrArg RbNode.rbRight hsub.mem_mk
        cases rr with
        | leaf => exact hright.2 hz
        | node _ rrl w rrr =>
          have hlen := hat.length_eq
          rw [inorder_plug] at hlen
          simp [CTree.mk] at hlen
          omega

/-- Insertions are never stale. -/
theorem clean_of_inserts (h : ∀ op ∈ ops, ∃ a answer, op = .insert a answer) : Clean c ops := by
  induction ops generalizing c with
  | nil => trivial
  | cons op ops ih =>
    obtain ⟨a, answer, rfl⟩ := h op mem_cons_self
    exact ⟨trivial, fun c' _ => ih fun op hop => h op (mem_cons_of_mem _ hop)⟩

/-- A container with one area. -/
theorem exists_mirrors (ha : a.Good) : ∃ c, Mirrors c [a] := by
  have hnil : Mirrors Vma.emptyVma [] := mirrors_nil ⟨rfl, rfl⟩
  have hfits : Applicable [] [.insert a none] := ⟨⟨ha, nofun⟩, trivial⟩
  obtain ⟨⟨c, hc⟩, hkeeps⟩ := hnil.run .nil hfits ⟨trivial, fun _ _ => trivial⟩
  exact ⟨c, (hkeeps c hc).1⟩

/-- Two lists with the same bounds, area for area. -/
def SameRanges (vmas vmas' : List Area) : Prop :=
  Forall₂ (fun a b : Area => a.start = b.start ∧ a.end_ = b.end_) vmas vmas'

theorem SameRanges.refl (vmas : List Area) : SameRanges vmas vmas :=
  forall₂_same.2 fun _ _ => ⟨rfl, rfl⟩

theorem SameRanges.map {g : Area → Area} (hg : ∀ a, (g a).start = a.start ∧ (g a).end_ = a.end_)
    (vmas : List Area) : SameRanges vmas (vmas.map g) :=
  forall₂_map_right_iff.2 (forall₂_same.2 fun a _ => ⟨(hg a).1.symm, (hg a).2.symm⟩)

/-- The container knows nothing of the flags. -/
theorem Mirrors.congr (h : Mirrors c vmas) (hsame : SameRanges vmas vmas') : Mirrors c vmas' := by
  obtain ⟨T, hC, hat⟩ := h
  refine ⟨T, hC, ?_⟩
  revert hat
  generalize T.inorder = xs
  intro hat
  induction hat generalizing vmas' with
  | nil =>
    cases hsame
    exact .nil
  | cons hxa _ ih =>
    cases hsame with
    | cons hab hrest => exact .cons ⟨hxa.1.trans hab.1, hxa.2.trans hab.2⟩ (ih hrest)

/-! ## The calls of `vmm.c` -/

/-- `vmm_map` inserts one area and looks at the answer. -/
def mapOps (mem : Bool) (space : Space) (hint length : ℕ) (prot flags : BitVec 32)
    (file : Option ℕ) (offset : ℕ) : List AreaOp :=
  if length = 0 then []
  else
    let alignedLen := pageAlignUp length
    match mapStart space hint alignedLen with
    | none => []
    | some start =>
      match vmaCreate mem start ((start + alignedLen) % 2 ^ 64) (mapVmaType flags file)
          (mapVmaFlags prot flags) with
      | none => []
      | some vma =>
        let vma := { vma with backingFile := file, fileOffset := offset }
        [.insert vma (some (vmaInsert space.vmas vma).2)]

/-- The branches of `vmm_unmap` for an area that meets the range. -/
def cutOps (mem : Bool) (curr : Area) (addr end_ : ℕ) : List AreaOp :=
  let moved := (curr.fileOffset + (end_ - curr.start)) % 2 ^ 64
  if curr.start ≥ addr ∧ curr.end_ ≤ end_ then [.remove curr]
  else if curr.start < addr ∧ curr.end_ > end_ then
    match vmaCreate mem end_ curr.end_ curr.type curr.flags with
    | none => []
    | some right =>
      [.remove curr, .insert { curr with end_ := addr } none,
        .insert
          { right with
            backingFile := curr.backingFile
            fileOffset := if curr.type = .file then moved else right.fileOffset } none]
  else if curr.start < addr ∧ curr.end_ ≤ end_ then
    [.remove curr, .insert { curr with end_ := addr } none]
  else if curr.start ≥ addr ∧ curr.end_ > end_ then
    [.remove curr, .insert
      { curr with
        start := end_
        fileOffset := if curr.type = .file then moved else curr.fileOffset } none]
  else []

/-- One turn of the loop of `vmm_unmap`. -/
def areaOps (mem : Bool) (addr end_ : ℕ) (curr : Area) : List AreaOp :=
  if curr.start ≥ end_ ∨ curr.end_ ≤ addr then [] else cutOps mem curr addr end_

def unmapOps (mem : Bool) (vmas : List Area) (addr length : ℕ) : List AreaOp :=
  if length = 0 ∨ addr % pageSize ≠ 0 then []
  else vmas.flatMap (areaOps mem addr ((addr + pageAlignUp length) % 2 ^ 64))

/-- `vmm_brk` puts in a heap area, or takes it out and puts it back with another end. -/
def brkOps (mem : Bool) (space : Space) (newBrk : ℕ) : List AreaOp :=
  if newBrk = 0 ∨ newBrk = space.brkCurrent then []
  else
    let space :=
      if space.brkStart = 0 then { space with brkStart := heapBase, brkCurrent := heapBase }
      else space
    if newBrk < space.brkStart then []
    else
      let newAligned := pageAlignUp newBrk
      match space.vmas.find? Area.isHeap with
      | none =>
        if newAligned > space.brkStart then
          match vmaCreate mem space.brkStart newAligned .anon
              (vmaFlagRead ||| vmaFlagWrite ||| vmaFlagHeap) with
          | none => []
          | some heap => [.insert heap none]
        else []
      | some heap =>
        if newBrk > space.brkCurrent then
          [.remove heap, .insert { heap with end_ := newAligned } none]
        else if newAligned > heap.start then
          [.remove heap, .insert { heap with end_ := newAligned } none]
        else [.remove heap]

/-- The stack grows where `vmm_handle_page_fault` finds no area around the address. -/
def growOps (space : Space) (faultAddr : ℕ) (rsp : Option ℕ) : List AreaOp :=
  match vmaFind space.vmas faultAddr with
  | some _ => []
  | none =>
    match space.vmas.find? fun c => decide (c.start > faultAddr) with
    | none => []
    | some next =>
      if ¬ Has next.flags vmaFlagStack then []
      else if farBelowStack rsp faultAddr = true then []
      else if next.end_ - pageAlignDown faultAddr > maxStackSize then []
      else
        match space.vmas.find? fun c =>
            decide (Has c.flags vmaFlagStack ∧ c.start > faultAddr) with
        | none => []
        | some target =>
          [.remove target, .insert { target with start := pageAlignDown faultAddr } none]

def faultOps (space : Space) (faultAddr : ℕ) (rsp : Option ℕ) : List AreaOp :=
  if faultAddr ≥ 0x8000000000000000 then [] else growOps space faultAddr rsp

/-- `vmm_clone_space` fills the container of the child. -/
def childOps (mem : Area → Bool) (vmas : List Area) : List AreaOp :=
  vmas.flatMap fun a =>
    match vmaCreate (mem a) a.start a.end_ a.type (cloneFlags a.flags) with
    | none => []
    | some clone =>
      [.insert { clone with backingFile := a.backingFile, fileOffset := a.fileOffset } none]

/-- The calls fit the areas and leave others in their place. -/
def Turns (vmas : List Area) (ops : List AreaOp) (vmas' : List Area) : Prop :=
  Applicable vmas ops ∧ replay vmas ops = vmas'

theorem Turns.nil (vmas : List Area) : Turns vmas [] vmas := ⟨trivial, rfl⟩

theorem Turns.append {vmas'' : List Area} (h : Turns vmas ops vmas')
    (h' : Turns vmas' ops' vmas'') : Turns vmas (ops ++ ops') vmas'' := by
  obtain ⟨hfits, rfl⟩ := h
  obtain ⟨hfits', rfl⟩ := h'
  exact ⟨applicable_append.2 ⟨hfits, hfits'⟩, replay_append⟩

/-- An area is inserted and the answer dropped. -/
theorem Turns.insert (ha : a.Good) : Turns vmas [.insert a none] (vmaInsert vmas a).1 :=
  ⟨⟨⟨ha, nofun⟩, trivial⟩, rfl⟩

theorem Turns.remove (ha : a ∈ vmas) : Turns vmas [.remove a] (vmaRemove vmas a) :=
  ⟨⟨ha, trivial⟩, rfl⟩

/-- An area gets other bounds. -/
theorem Turns.move (ha : a ∈ vmas) (hb : b.Good) :
    Turns vmas [.remove a, .insert b none] (vmaInsert (vmaRemove vmas a) b).1 :=
  (Turns.remove ha).append (.insert hb)

theorem Mirrors.turns (h : Mirrors c vmas) (hwf : WellFormed vmas) (hturns : Turns vmas ops vmas')
    (hclean : Clean c ops) : TreeKeeps c ops vmas' :=
  hturns.2 ▸ h.run hwf hturns.1 hclean

/-- `vmm_map` takes its area into the list if and only if the insertion is answered with 0. -/
theorem vmmMap_turns (mem : Bool) (space : Space) (hint length : ℕ) (prot flags : BitVec 32)
    (file : Option ℕ) (offset : ℕ) :
    Turns space.vmas (mapOps mem space hint length prot flags file offset)
      (vmmMap mem space hint length prot flags file offset).1.vmas := by
  unfold mapOps vmmMap
  split
  next => exact .nil _
  next =>
    dsimp only
    cases mapStart space hint (pageAlignUp length) with
    | none => exact .nil _
    | some start =>
      dsimp only
      cases hvma : vmaCreate mem start ((start + pageAlignUp length) % 2 ^ 64)
          (mapVmaType flags file) (mapVmaFlags prot flags) with
      | none => exact .nil _
      | some vma =>
        obtain ⟨-, hnonempty, haligned, hend, hbounded⟩ := vmaCreate_good hvma
        refine ⟨⟨⟨⟨hnonempty, haligned, hend, hbounded⟩, ?_⟩, trivial⟩, ?_⟩
        · exact fun o ho => Option.some.inj ho
        · -- a refused insertion has changed nothing
          show (vmaInsert space.vmas { vma with backingFile := file, fileOffset := offset }).1 = _
          unfold vmaInsert
          dsimp only
          split <;> rfl

theorem mapOps_inserts {mem : Bool} {space : Space} {hint length : ℕ} {prot flags : BitVec 32}
    {file : Option ℕ} {offset : ℕ} (h : op ∈ mapOps mem space hint length prot flags file offset) :
    ∃ a answer, op = .insert a answer := by
  unfold mapOps at h
  split at h
  next => cases h
  next =>
    dsimp only at h
    split at h
    next => cases h
    next =>
      split at h
      next => cases h
      next => exact ⟨_, _, mem_singleton.1 h⟩

section

variable {addr end_ : ℕ} {p q : List Area} (mem : Bool)

/-- An area that meets the range is removed, and what is left of it is inserted again. -/
theorem cutArea_turns (ha : a ∈ vmas) (hgood : a.Good) (haddr : addr % pageSize = 0)
    (hend : end_ % pageSize = 0) (hmeet : a.start < end_ ∧ addr < a.end_) :
    Turns vmas (cutOps mem a addr end_) (cutArea mem vmas a addr end_) := by
  unfold cutOps cutArea
  dsimp only
  split
  next => exact .remove ha
  next =>
    split
    next hmiddle =>
      cases hright : vmaCreate mem end_ a.end_ a.type a.flags with
      | none => exact .nil _
      | some right =>
        obtain ⟨-, hnonempty, haligned, hend', hbounded⟩ := vmaCreate_good hright
        have hsplit := Turns.move ha (hgood.left haddr hmiddle.1 hmeet.2)
        refine hsplit.append (Turns.insert ?_)
        exact ⟨hnonempty, haligned, hend', hbounded⟩
    next =>
      split
      next hleft => exact .move ha (hgood.left haddr hleft.1 hmeet.2)
      next =>
        split
        next hright => exact .move ha (hgood.from hend hright.2)
        next => exact .nil _

/-- An area of the walk is replaced by what is left of it. -/
theorem areaOps_turns (h : WellFormed (p ++ a :: q)) (haddr : addr % pageSize = 0)
    (hend : end_ % pageSize = 0) :
    Turns (p ++ a :: q) (areaOps mem addr end_ a) (p ++ (remnants mem addr end_ a ++ q)) := by
  have ha : a ∈ p ++ a :: q := mem_append_right p mem_cons_self
  unfold areaOps
  split
  next hskip =>
    rw [remnants, if_pos hskip]
    exact .nil _
  next hmeet =>
    have hmeet' : a.start < end_ ∧ addr < a.end_ := by omega
    rw [← cutArea_eq mem h haddr hend hmeet']
    exact cutArea_turns mem ha (h.good a ha) haddr hend hmeet'

/-- The loop of `vmm_unmap`, by induction on the areas that it has not passed yet. -/
theorem unmapLoop_turns (haddr : addr % pageSize = 0) (hend : end_ % pageSize = 0) :
    ∀ q p : List Area, WellFormed (p ++ q) →
      Turns (p ++ q) (q.flatMap (areaOps mem addr end_)) (p ++ q.flatMap (remnants mem addr end_))
          := by
  intro q
  induction q with
  | nil => exact fun p _ => .nil _
  | cons a q ih =>
    intro p h
    have ha : a.Good := h.good a (mem_append_right p mem_cons_self)
    obtain ⟨hpieces, hinside⟩ := remnants_wellFormed mem ha haddr hend
    have hnext := h.replace hpieces hinside
    have hfirst := areaOps_turns mem h haddr hend
    rw [← append_assoc] at hnext hfirst
    rw [flatMap_cons, flatMap_cons, ← append_assoc]
    exact hfirst.append (ih _ hnext)

end

/-- `vmm_unmap` follows the list that it changes. -/
theorem vmmUnmap_turns {space : Space} (h : WellFormed space.vmas) (cpu : ℕ) (mem : Bool) (vm : Vm)
    (addr length : ℕ) : Turns space.vmas (unmapOps mem space.vmas addr length)
      (vmmUnmap cpu mem vm space addr length).2.1.vmas := by
  unfold unmapOps
  split
  next hrefused =>
    unfold vmmUnmap
    rw [if_pos hrefused]
    exact .nil _
  next hcall =>
    have haddr : addr % pageSize = 0 := by omega
    rw [vmmUnmap_vmas cpu mem vm h haddr (by omega)]
    exact unmapLoop_turns mem haddr (wrapped_end_aligned length haddr) space.vmas [] h

/-- A stack area grows by a removal and an insertion. -/
theorem faultArea_turns {space : Space} (h : WellFormed space.vmas) (addr : ℕ) (rsp : Option ℕ) :
    Turns space.vmas (growOps space addr rsp) (faultArea space addr rsp).1.vmas := by
  unfold growOps faultArea
  cases vmaFind space.vmas addr with
  | some => exact .nil _
  | none =>
    dsimp only
    cases space.vmas.find? fun c => decide (c.start > addr) with
    | none => exact .nil _
    | some next =>
      dsimp only
      split
      · exact .nil _
      split
      · exact .nil _
      split
      · exact .nil _
      cases htarget : space.vmas.find? fun c =>
          decide (Has c.flags vmaFlagStack ∧ c.start > addr) with
      | none => exact .nil _
      | some target =>
        have hmem := mem_of_find?_eq_some htarget
        have hgood := h.good target hmem
        have habove := find?_some htarget
        rw [decide_eq_true_eq] at habove
        have hdown : pageAlignDown addr ≤ addr := Nat.div_mul_le_self addr pageSize
        have hnonempty := hgood.nonempty
        exact .move hmem ⟨show pageAlignDown addr < target.end_ by omega, Nat.mul_mod_left _ _,
          hgood.end_aligned, hgood.bounded⟩

/-- What the handler does to the areas. -/
theorem vmmHandlePageFault_space {cpu addr : ℕ} {vm vm' : Vm} {space space' : Space}
    {code : BitVec 32} {rsp : Option ℕ} {ret : Int}
    (hrun : vmmHandlePageFault cpu vm space addr code rsp = some (vm', space', ret)) :
    space' = if addr ≥ 0x8000000000000000 then space else (faultArea space addr rsp).1 := by
  unfold vmmHandlePageFault at hrun
  split at hrun
  next hkernel =>
    cases hrun
    exact (if_pos hkernel).symm
  next huser =>
    rw [if_neg huser]
    generalize faultArea space addr rsp = found at hrun
    obtain ⟨space₁, area⟩ := found
    cases area with
    | error => cases hrun; rfl
    | ok =>
      dsimp only at hrun
      split at hrun
      · cases hrun; rfl
      split at hrun
      · cases hrun; rfl
      split at hrun
      · obtain ⟨r, -, heq⟩ := Option.map_eq_some_iff.1 hrun
        cases heq
        rfl
      split at hrun
      · obtain ⟨r, -, heq⟩ := Option.map_eq_some_iff.1 hrun
        cases heq
        rfl
      · cases hrun; rfl

theorem vmmHandlePageFault_turns {cpu addr : ℕ} {vm vm' : Vm} {space space' : Space}
    {code : BitVec 32} {rsp : Option ℕ} {ret : Int} (h : WellFormed space.vmas)
    (hrun : vmmHandlePageFault cpu vm space addr code rsp = some (vm', space', ret)) :
    Turns space.vmas (faultOps space addr rsp) space'.vmas := by
  rw [vmmHandlePageFault_space hrun, faultOps]
  split
  next => exact .nil _
  next => exact faultArea_turns h addr rsp

/-- The areas of a child are inserted into an empty container one by one. -/
theorem childAreas_turns (mem : Area → Bool) (vmas : List Area) :
    Turns [] (childOps mem vmas) (childAreas mem vmas) := by
  unfold childAreas
  generalize ([] : List Area) = acc
  induction vmas generalizing acc with
  | nil => exact .nil _
  | cons a vmas ih =>
    refine Turns.append ?_ (ih _)
    dsimp only
    cases hclone : vmaCreate (mem a) a.start a.end_ a.type (cloneFlags a.flags) with
    | none => exact .nil _
    | some clone =>
      obtain ⟨-, hnonempty, haligned, hend, hbounded⟩ := vmaCreate_good hclone
      exact .insert ⟨hnonempty, haligned, hend, hbounded⟩

end BoredOS.Mem.Vmm
