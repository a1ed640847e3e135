import BoredOS.Fs.Tmpfs.Namespace

/-!
# The Inodes of tmpfs Are a Tree

Three changes make up all calls: an inode is made below another one (`grow`), an inode without
children is taken away (`removeNode`), and an inode gets a new parent (`moveNode`). For each of them
the lists of children afterwards are given by one equation, and `Lib.Forest` says what is still
reached from the root. `tree_of_safe_run` puts them together for every call.
-/

open BoredOS.Fs.Tmpfs.Tree

namespace BoredOS.Fs.Tmpfs

open Lib.Forest Lib.Transition Function List Nat
open Option (some.inj)

variable {a : ℕ} {mem : ℕ → Bool} {isDir : Bool} {t : Tree} {n cur parent : ℕ} {name : List Char}
  {c : ℕ}

namespace TreeOk

section

variable (h : TreeOk t)

include h

theorem nodup_kids (n : ℕ) : (t.kids n).Nodup := List.Nodup.of_map _ (h.distinct n)

theorem ne_root (hp : (t.inode n).parent = some parent) : n ≠ root := by
  rintro rfl
  rw [h.rootTop] at hp
  cases hp

theorem parent_unique {a' : ℕ} (ha : c ∈ t.kids a) (ha' : c ∈ t.kids a') : a = a' :=
  some.inj ((h.link a c ha).2.2.symm.trans (h.link a' c ha').2.2)

/-- An inode with a parent is one of its children. -/
theorem mem_kids (hn : t.live n = true) (hp : (t.inode n).parent = some parent) :
    n ∈ t.kids parent := by
  obtain heq | ⟨b, -, hmem⟩ := (h.reached n hn).cases_last
  · exact absurd heq.symm (h.ne_root hp)
  · have hb := (h.link b n hmem).2.2
    obtain rfl := some.inj (hb.symm.trans hp)
    exact hmem

theorem not_reaches_root (hp : (t.inode n).parent ≠ none) : ¬ Reaches t.kids n root := by
  intro hr
  obtain rfl | ⟨b, -, hmem⟩ := hr.cases_last
  · exact hp h.rootTop
  · exact h.ne_root (h.link b root hmem).2.2 rfl

/-- A directory is not below its own child. -/
theorem not_below (hmem : n ∈ t.kids parent) : ¬ Reaches t.kids n parent := by
  obtain ⟨-, hlive, hparent⟩ := h.link _ _ hmem
  have htop : ¬ Reaches t.kids n root := h.not_reaches_root (by simp [hparent])
  intro hbelow
  refine not_reaches_of_move_below (fun a a' c => h.parent_unique) (fun a b hb => ?_) hbelow htop
    (h.reached n hlive) (.refl n)
  by_cases hbn : b = n
  · exact .inr ⟨h.parent_unique hb (hbn ▸ hmem), hbn⟩
  · exact .inl ⟨hbn, hb⟩

end

end TreeOk

/-- The root alone, as `tmpfs_init` leaves it. -/
theorem treeOk_init : TreeOk tmpfsInit where
  rootLive := rfl
  rootDir := rfl
  rootTop := rfl
  bound n hn := by simp_all [tmpfsInit, root]
  link n c hc := by simp [Tree.kids, tmpfsInit] at hc
  dirs n hn := by simp [Tree.kids, tmpfsInit] at hn
  distinct n := by simp [Tree.kids, tmpfsInit]
  nonempty n c hc := by simp [Tree.kids, tmpfsInit] at hc
  reached n hn := by
    obtain rfl : n = root := by simpa [tmpfsInit] using hn
    exact .refl root

/-! ## The fields after a change -/

section

variable {f : Inode → Inode} {child : ℕ}

theorem Tree.set_inode : (t.set n f).inode a = if a = n then f (t.inode a) else t.inode a := by
  by_cases ha : a = n
  · simp [Tree.set, ha]
  · simp [Tree.set, ha]

@[simp] theorem tmpfsAddChild_name :
    ((tmpfsAddChild t parent child).inode a).name = (t.inode a).name := by
  simp only [tmpfsAddChild, set_inode]
  split <;> split <;> rfl

@[simp] theorem tmpfsAddChild_isDir :
    ((tmpfsAddChild t parent child).inode a).isDir = (t.inode a).isDir := by
  simp only [tmpfsAddChild, set_inode]
  split <;> split <;> rfl

@[simp] theorem tmpfsAddChild_parent : ((tmpfsAddChild t parent child).inode a).parent =
    if a = child then some parent else (t.inode a).parent := by
  simp only [tmpfsAddChild, set_inode]
  split <;> split <;> rfl

@[simp] theorem tmpfsAddChild_kids : (tmpfsAddChild t parent child).kids a =
    if a = parent then child :: t.kids a else t.kids a := by
  simp only [Tree.kids, tmpfsAddChild, set_inode]
  split <;> split <;> rfl

@[simp] theorem unlinkChild_name :
    ((unlinkChild t parent child).inode a).name = (t.inode a).name := by
  simp only [unlinkChild, set_inode]
  split <;> rfl

@[simp] theorem unlinkChild_isDir :
    ((unlinkChild t parent child).inode a).isDir = (t.inode a).isDir := by
  simp only [unlinkChild, set_inode]
  split <;> rfl

@[simp] theorem unlinkChild_parent :
    ((unlinkChild t parent child).inode a).parent = (t.inode a).parent := by
  simp only [unlinkChild, set_inode]
  split <;> rfl

@[simp] theorem unlinkChild_kids : (unlinkChild t parent child).kids a =
    if a = parent then (t.kids a).erase child else t.kids a := by
  simp only [Tree.kids, unlinkChild, set_inode]
  split <;> rfl

@[simp] theorem setName_name : ((setName t n name).inode a).name =
    if a = n then name.take nameMax else (t.inode a).name := by
  simp only [setName, set_inode]
  split <;> rfl

@[simp] theorem setName_isDir : ((setName t n name).inode a).isDir = (t.inode a).isDir := by
  simp only [setName, set_inode]
  split <;> rfl

@[simp] theorem setName_parent : ((setName t n name).inode a).parent = (t.inode a).parent := by
  simp only [setName, set_inode]
  split <;> rfl

@[simp] theorem setName_kids : (setName t n name).kids a = t.kids a := by
  simp only [setName, Tree.kids, set_inode]
  split <;> rfl

end

/-! ## An inode below another one -/

/-- The inode `x` is taken from where it was, if it was anywhere, and put below `p`. -/
structure Attached (t t' : Tree) (x p : ℕ) (name : List Char) : Prop where
  kids : ∀ a, t'.kids a = (if a = p then [x] else []) ++ (t.kids a).erase x
  name : (t'.inode x).name = name
  names : ∀ c ≠ x, (t'.inode c).name = (t.inode c).name
  isDir : ∀ c, t.kids c ≠ [] ∨ c ≠ x → (t'.inode c).isDir = (t.inode c).isDir
  parent : (t'.inode x).parent = some p
  parents : ∀ c ≠ x, (t'.inode c).parent = (t.inode c).parent
  live : t'.live = update t.live x true
  bound : t.count ≤ t'.count ∧ x < t'.count

section

variable {t' : Tree} {x p : ℕ}

section

variable (ha : Attached t t' x p name)

include ha

theorem Attached.mem_kids (h : TreeOk t) :
    c ∈ t'.kids a ↔ a = p ∧ c = x ∨ c ≠ x ∧ c ∈ t.kids a := by
  rw [ha.kids, mem_append, (h.nodup_kids a).mem_erase_iff]
  by_cases hap : a = p
  · simp [hap]
  · simp [hap]

theorem Attached.map_name (h : TreeOk t) (a : ℕ) :
    (t'.kids a).map (fun c => (t'.inode c).name) = (if a = p then [name] else []) ++
      ((t.kids a).erase x).map fun c => (t.inode c).name := by
  have hsame : ((t.kids a).erase x).map (fun c => (t'.inode c).name) =
      ((t.kids a).erase x).map fun c => (t.inode c).name := by
    refine map_congr_left fun c hc => ha.names c ?_
    exact ((h.nodup_kids a).mem_erase_iff.1 hc).1
  rw [ha.kids, map_append, hsame]
  by_cases hap : a = p
  · simp [hap, ha.name]
  · simp [hap]

/-- The tree is one again if the new parent is a directory, the name is not empty and not in use,
and everything is reached. -/
theorem TreeOk.attach (h : TreeOk t) (hx : x ≠ root) (hpx : p ≠ x)
    (hp : t.live p = true) (hdir : (t.inode p).isDir = true) (hname : name ≠ [])
    (hfresh : ∀ c ∈ t.kids p, c ≠ x → (t.inode c).name ≠ name)
    (hreached : ∀ n, t'.live n = true → Reaches t'.kids root n) : TreeOk t' := by
  have hlive : ∀ {n}, t.live n = true → t'.live n = true := by
    intro n hn
    rw [ha.live]
    by_cases hnx : n = x
    · simp [hnx]
    · simpa [hnx] using hn
  constructor
  · exact hlive h.rootLive
  · rw [ha.isDir root (.inr hx.symm), h.rootDir]
  · rw [ha.parents root hx.symm, h.rootTop]
  · intro n hn
    by_cases hnx : n = x
    · exact hnx ▸ ha.bound.2
    · refine Nat.lt_of_lt_of_le (h.bound n ?_) ha.bound.1
      simpa [ha.live, hnx] using hn
  · intro n c hc
    obtain ⟨rfl, rfl⟩ | ⟨hcx, hc⟩ := (ha.mem_kids h).1 hc
    · exact ⟨hlive hp, by simp [ha.live], ha.parent⟩
    · obtain ⟨hn, hclive, hparent⟩ := h.link n c hc
      exact ⟨hlive hn, hlive hclive, (ha.parents c hcx).trans hparent⟩
  · intro n hn
    by_cases hnp : n = p
    · rw [hnp, ha.isDir p (.inr hpx), hdir]
    · have hold : t.kids n ≠ [] := by
        rintro hnil
        rw [ha.kids, if_neg hnp, hnil] at hn
        exact hn rfl
      rw [ha.isDir n (.inl hold), h.dirs n hold]
  · intro n
    have hsub : (((t.kids n).erase x).map fun c => (t.inode c).name).Nodup :=
      List.Nodup.sublist (erase_sublist.map _) (h.distinct n)
    rw [ha.map_name h]
    split
    next hnp =>
      rw [singleton_append, nodup_cons]
      refine ⟨fun hmem => ?_, hsub⟩
      obtain ⟨c, hc, heq⟩ := mem_map.1 hmem
      obtain ⟨hcx, hc⟩ := (h.nodup_kids n).mem_erase_iff.1 hc
      exact hfresh c (hnp ▸ hc) hcx heq
    next => exact hsub
  · intro n c hc
    obtain ⟨rfl, rfl⟩ | ⟨hcx, hc⟩ := (ha.mem_kids h).1 hc
    · rw [ha.name]
      exact hname
    · rw [ha.names c hcx]
      exact h.nonempty n c hc
  · exact hreached

end

end

/-! ## A new inode -/

/-- An inode is made and added below `cur`. -/
def grow (t : Tree) (cur : ℕ) (name : List Char) (isDir : Bool) : Tree :=
  tmpfsAddChild
    { inode := update t.inode t.count ⟨name.take nameMax, isDir, none, []⟩
      live := update t.live t.count true
      count := t.count + 1 } cur t.count

section

theorem grow_kids (hcur : cur < t.count) (n : ℕ) : (grow t cur name isDir).kids n =
    if n = t.count then [] else if n = cur then t.count :: t.kids cur else t.kids n := by
  rw [grow, tmpfsAddChild_kids, Tree.kids]
  by_cases hn : n = t.count
  · simp [hn, Nat.ne_of_gt hcur]
  · by_cases hnc : n = cur
    · simp [hnc, Nat.ne_of_lt hcur, Tree.kids]
    · simp [hn, hnc, Tree.kids]

/-- The other inodes only change in their children. -/
theorem grow_inode_of_ne (hn : n ≠ t.count) :
    ((grow t cur name isDir).inode n).name = (t.inode n).name ∧
      ((grow t cur name isDir).inode n).isDir = (t.inode n).isDir ∧
      ((grow t cur name isDir).inode n).parent = (t.inode n).parent := by
  simp [grow, hn]

/-- An address that was not used is no child and has none. -/
theorem TreeOk.unused (h : TreeOk t) (n : ℕ) : t.kids t.count = [] ∧ t.count ∉ t.kids n := by
  constructor
  · refine eq_nil_iff_forall_not_mem.2 fun c hc => ?_
    exact Nat.lt_irrefl _ (h.bound _ (h.link _ _ hc).1)
  · intro hc
    exact Nat.lt_irrefl _ (h.bound _ (h.link _ _ hc).2.1)

/-- `tmpfs_add_child` hangs the new inode below its directory and moves nothing else. -/
theorem attached_grow (h : TreeOk t) (hcur : cur < t.count) :
    Attached t (grow t cur name isDir) t.count cur (name.take nameMax) where
  kids a := by
    rw [grow_kids hcur, erase_of_not_mem (h.unused a).2]
    split
    next ha =>
      rw [ha, if_neg (Nat.ne_of_gt hcur), (h.unused 0).1]
      rfl
    next =>
      by_cases hac : a = cur
      · simp [hac]
      · simp [hac]
  name := by simp [grow]
  names c hc := (grow_inode_of_ne hc).1
  isDir c hc := by
    have hne : c ≠ t.count := by
      rintro rfl
      exact hc.elim (fun hkids => hkids (h.unused 0).1) fun hne => hne rfl
    exact (grow_inode_of_ne hne).2.1
  parent := by simp [grow]
  parents c hc := (grow_inode_of_ne hc).2.2
  live := rfl
  bound := ⟨le_succ _, lt_succ_self _⟩

/-- Below a directory and with a name of its own, the new inode makes a tree again. -/
theorem TreeOk.grow (h : TreeOk t) (hlive : t.live cur = true)
    (hdir : (t.inode cur).isDir = true) (hname : name.take nameMax ≠ [])
    (hfresh : ∀ c ∈ t.kids cur, (t.inode c).name ≠ name.take nameMax) :
    TreeOk (grow t cur name isDir) := by
  have hcur := h.bound cur hlive
  have ha : Attached t (Tmpfs.grow t cur name isDir) t.count cur (name.take nameMax) :=
    attached_grow h hcur
  have hold : ∀ m, Reaches t.kids root m → Reaches (Tmpfs.grow t cur name isDir).kids root m :=
    fun m hm => hm.mono fun a b hb => (ha.mem_kids h).2 (.inr ⟨fun heq =>
      (h.unused a).2 (heq ▸ hb), hb⟩)
  refine h.attach ha ?_ (Nat.ne_of_lt hcur) hlive hdir hname (fun c hc _ => hfresh c hc) ?_
  · exact Nat.ne_of_gt (h.bound root h.rootLive)
  · intro n hn
    by_cases hnew : n = t.count
    · subst hnew
      exact (hold cur (h.reached cur hlive)).tail ((ha.mem_kids h).2 (.inl ⟨rfl, rfl⟩))
    · refine hold n (h.reached n ?_)
      simpa [ha.live, hnew] using hn

end

/-! ## An inode without children is taken away -/

theorem removeNode_inode_of_ne {a : ℕ} (ha : a ≠ n) :
    ((removeNode t parent n).inode a).name = (t.inode a).name ∧
      ((removeNode t parent n).inode a).isDir = (t.inode a).isDir ∧
      ((removeNode t parent n).inode a).parent = (t.inode a).parent := by
  simp [removeNode, freeInode, ha]

section

variable (h : TreeOk t) (hn : t.live n = true) (hp : (t.inode n).parent = some parent)

include h hn hp

/-- The inode is in no other list. -/
theorem unlinkChild_kids_eq (a : ℕ) : (unlinkChild t parent n).kids a = (t.kids a).erase n := by
  rw [unlinkChild_kids]
  split
  next => rfl
  next hap =>
    rw [erase_of_not_mem]
    exact fun hmem => hap (h.parent_unique hmem (h.mem_kids hn hp))

variable (hleaf : t.kids n = [])

include hleaf

theorem removeNode_kids (a : ℕ) : (removeNode t parent n).kids a = (t.kids a).erase n := by
  by_cases han : a = n
  · simp [removeNode, freeInode, Tree.kids, han, show (t.inode n).children = [] from hleaf]
  · rw [← unlinkChild_kids_eq h hn hp]
    simp [removeNode, freeInode, Tree.kids, han]

theorem mem_removeNode_kids {a c : ℕ} :
    c ∈ (removeNode t parent n).kids a ↔ c ≠ n ∧ c ∈ t.kids a := by
  rw [removeNode_kids h hn hp hleaf, (h.nodup_kids a).mem_erase_iff]

/-- A leaf is taken out of its directory and its inode is freed. -/
theorem TreeOk.removeNode : TreeOk (removeNode t parent n) := by
  have hmem := fun a c => @mem_removeNode_kids t n parent h hn hp hleaf a c
  -- the node is nobody's parent, so that every edge but the one to it stays
  have hinner : ∀ {a c}, c ∈ t.kids a → a ≠ n := by
    rintro a c hc rfl
    rw [hleaf] at hc
    cases hc
  have hroot : root ≠ n := (h.ne_root hp).symm
  have hlive : ∀ m ≠ n, (Tmpfs.removeNode t parent n).live m = t.live m := fun m hm =>
    update_of_ne hm _ _
  have hne : ∀ m, (Tmpfs.removeNode t parent n).live m = true → m ≠ n := by
    rintro m hm rfl
    simp [Tmpfs.removeNode, freeInode] at hm
  constructor
  · rw [hlive root hroot, h.rootLive]
  · rw [(removeNode_inode_of_ne hroot).2.1, h.rootDir]
  · rw [(removeNode_inode_of_ne hroot).2.2, h.rootTop]
  · intro m hm
    exact h.bound m (hlive m (hne m hm) ▸ hm)
  · intro a c hc
    obtain ⟨hcn, hc⟩ := (hmem a c).1 hc
    obtain ⟨ha, hclive, hparent⟩ := h.link a c hc
    rw [hlive a (hinner hc), hlive c hcn, (removeNode_inode_of_ne hcn).2.2]
    exact ⟨ha, hclive, hparent⟩
  · intro a ha
    obtain ⟨c, hc⟩ := exists_mem_of_ne_nil _ ha
    have hc := ((hmem a c).1 hc).2
    rw [(removeNode_inode_of_ne (hinner hc)).2.1]
    exact h.dirs a (ne_nil_of_mem hc)
  · intro a
    rw [removeNode_kids h hn hp hleaf]
    have hsame : ((t.kids a).erase n).map (fun c => ((Tmpfs.removeNode t parent n).inode c).name) =
        ((t.kids a).erase n).map fun c => (t.inode c).name := by
      refine map_congr_left fun c hc => (removeNode_inode_of_ne ?_).1
      exact ((h.nodup_kids a).mem_erase_iff.1 hc).1
    rw [hsame]
    exact List.Nodup.sublist (erase_sublist.map _) (h.distinct a)
  · intro a c hc
    obtain ⟨hcn, hc⟩ := (hmem a c).1 hc
    rw [(removeNode_inode_of_ne hcn).1]
    exact h.nonempty a c hc
  · -- no way from the root leads through a leaf
    intro m hm
    refine (h.reached m (hlive m (hne m hm) ▸ hm)).of_leaf hleaf (fun a b hb hab => ?_) (hne m hm)
    exact (hmem a b).2 ⟨hb, hab⟩

end

/-! ## An inode gets a new parent -/

section

variable {newParent : ℕ} (h : TreeOk t) (hn : t.live n = true)
  (hp : (t.inode n).parent = some parent)

include h hn hp

/-- `tmpfs_vfs_rename` takes the node out of one directory and hangs it below another. -/
theorem attached_moveNode :
    Attached t (moveNode t parent newParent n name) n newParent (name.take nameMax) where
  kids a := by
    rw [moveNode, tmpfsAddChild_kids, setName_kids, unlinkChild_kids_eq h hn hp]
    split <;> rfl
  name := by simp [moveNode]
  names c hc := by simp [moveNode, hc]
  isDir c _ := by simp [moveNode]
  parent := by simp [moveNode]
  parents c hc := by simp [moveNode, hc]
  live := (update_eq_self_iff.2 hn.symm).symm
  bound := ⟨Nat.le_refl _, h.bound n hn⟩

/-- The move leaves a tree exactly if the new parent is not below the inode and the name as it is
stored is not empty and not in use. -/
theorem treeOk_moveNode_iff (hlive : t.live newParent = true)
    (hdir : (t.inode newParent).isDir = true)
    (hnone : ∀ c ∈ t.kids newParent, (t.inode c).name ≠ name) :
    TreeOk (moveNode t parent newParent n name) ↔ MoveSafe t n newParent name := by
  have ha : Attached t (moveNode t parent newParent n name) n newParent (name.take nameMax) :=
    attached_moveNode h hn hp
  have htop : ¬ Reaches t.kids n root := h.not_reaches_root (by rw [hp]; simp)
  constructor
  · intro h'
    have hmem : n ∈ (moveNode t parent newParent n name).kids newParent :=
      (ha.mem_kids h).2 (.inl ⟨rfl, rfl⟩)
    constructor
    · intro hbelow
      -- the inode is live but nothing outside its subtree reaches it
      have hreached := h'.reached n (by simp [ha.live])
      refine not_reaches_of_move_below (fun a a' c => h.parent_unique) ?_ hbelow htop hreached
        (.refl n)
      intro a b hb
      exact ((ha.mem_kids h).1 hb).symm
    · rintro rfl
      exact h'.nonempty newParent n hmem (by rw [ha.name]; rfl)
    · intro c hc hcn _ heq
      have hnodup := h'.distinct newParent
      rw [ha.map_name h, if_pos rfl, singleton_append, nodup_cons] at hnodup
      refine hnodup.1 (mem_map.2 ⟨c, ?_, heq⟩)
      exact (h.nodup_kids newParent).mem_erase_iff.2 ⟨hcn, hc⟩
  · rintro ⟨habove, hname, hfresh⟩
    have hne : newParent ≠ n := by
      rintro rfl
      exact habove (.refl _)
    refine h.attach ha (h.ne_root hp) hne hlive hdir ?_ ?_ ?_
    · simpa [nameMax] using hname
    · exact fun c hc hcn => hfresh c hc hcn (hnone c hc)
    · intro m hm
      have hmlive : t.live m = true := by
        rwa [ha.live, update_eq_self_iff.2 hn.symm] at hm
      exact .move (fun a b hb hab => (ha.mem_kids h).2 (.inr ⟨hb, hab⟩))
        ((ha.mem_kids h).2 (.inl ⟨rfl, rfl⟩)) (h.reached newParent hlive) habove
        (h.reached m hmlive)

end

/-! ## Looking up a path -/

theorem tmpfsFindChild_some {dir : ℕ} (hc : tmpfsFindChild t dir name = some c) :
    c ∈ t.kids dir ∧ (t.inode c).name = name := by
  obtain ⟨-, hfind⟩ := Option.ite_none_right_eq_some.1 hc
  exact ⟨mem_of_find?_eq_some hfind, by simpa using find?_some hfind⟩

theorem tmpfsFindChild_none {dir : ℕ} (hnone : tmpfsFindChild t dir name = none)
    (hdir : (t.inode dir).isDir = true) : ∀ c ∈ t.kids dir, (t.inode c).name ≠ name := by
  rw [tmpfsFindChild, if_pos hdir] at hnone
  simpa using hnone

/-- With nothing to make, the loop only walks; it ends at a live inode. -/
theorem lookupLoop_find (h : TreeOk t) (mem : ℕ → Bool) (leafIsDir : Bool)
    (hcur : t.live cur = true) (segs : List (List Char)) :
    (lookupLoop mem ⟨false, false, leafIsDir⟩ t cur segs).1 = t ∧
      ∀ n, (lookupLoop mem ⟨false, false, leafIsDir⟩ t cur segs).2 = some n → t.live n = true := by
  induction segs generalizing cur with
  | nil =>
    refine ⟨rfl, fun n hn => ?_⟩
    cases hn
    exact hcur
  | cons segment rest ih =>
    rw [lookupLoop]
    cases hfind : tmpfsFindChild t cur segment with
    | some => exact ih (h.link _ _ (tmpfsFindChild_some hfind).1).2.1
    | none => simp

/-- A lookup that may not create leaves the tree alone. -/
theorem tmpfsLookup_find (h : TreeOk t) (mem : ℕ → Bool) (leafIsDir : Bool) (path : List Char) :
    (tmpfsLookup mem ⟨false, false, leafIsDir⟩ t path).1 = t := by
  unfold tmpfsLookup
  split
  · rfl
  · exact (lookupLoop_find h mem leafIsDir h.rootLive _).1

theorem tmpfsFind_live (h : TreeOk t) {path : List Char} (hn : tmpfsFind t path = some n) :
    t.live n = true := by
  unfold tmpfsFind tmpfsLookup at hn
  split at hn
  · cases hn
    exact h.rootLive
  · exact (lookupLoop_find h _ _ h.rootLive _).2 n hn

/-- Something that is never put right again: a child below a file, or without a name. -/
structure Broken (t : Tree) : Prop where
  bound : ∀ a c, c ∈ t.kids a → a < t.count ∧ c < t.count
  bad : ∃ a c, c ∈ t.kids a ∧ ((t.inode a).isDir = false ∨ (t.inode c).name = [])

/-- A tree has no child below a file and none without a name. -/
theorem Broken.not_treeOk (h : Broken t) : ¬ TreeOk t := by
  intro hok
  obtain ⟨a, c, hc, hfile | hname⟩ := h.bad
  · rw [hok.dirs a (ne_nil_of_mem hc)] at hfile
    cases hfile
  · exact hok.nonempty a c hc hname

section

variable (hcur : cur < t.count) (hbound : ∀ a c, c ∈ t.kids a → a < t.count ∧ c < t.count)

include hcur hbound

theorem mem_grow_kids :
    c ∈ (grow t cur name isDir).kids a ↔ a = cur ∧ c = t.count ∨ c ∈ t.kids a := by
  rw [grow_kids hcur]
  by_cases ha : a = t.count
  · subst ha
    have hnone : c ∉ t.kids t.count := fun hc => Nat.lt_irrefl _ (hbound _ _ hc).1
    simp [Nat.ne_of_gt hcur, hnone]
  · by_cases hac : a = cur
    · subst hac
      simp [ha]
    · simp [ha, hac]

theorem grow_bound (hc : c ∈ (grow t cur name isDir).kids a) :
    a < (grow t cur name isDir).count ∧ c < (grow t cur name isDir).count := by
  have hcount : (grow t cur name isDir).count = t.count + 1 := rfl
  obtain ⟨rfl, rfl⟩ | hc := (mem_grow_kids hcur hbound).1 hc
  · omega
  · obtain ⟨ha, hc⟩ := hbound a c hc
    omega

end

theorem Broken.grow (h : Broken t) (hcur : cur < t.count) (name : List Char) (isDir : Bool) :
    Broken (grow t cur name isDir) := by
  refine ⟨fun a c => grow_bound hcur h.bound, ?_⟩
  obtain ⟨a, c, hc, hbad⟩ := h.bad
  obtain ⟨ha, hclt⟩ := h.bound a c hc
  refine ⟨a, c, (mem_grow_kids hcur h.bound).2 (.inr hc), ?_⟩
  rw [(grow_inode_of_ne (Nat.ne_of_lt ha)).2.1, (grow_inode_of_ne (Nat.ne_of_lt hclt)).1]
  exact hbad

/-- A child is made below a file, or without a name. -/
theorem TreeOk.broken_grow (h : TreeOk t) (hlive : t.live cur = true) {isDir : Bool}
    (hbad : (t.inode cur).isDir = false ∨ name = []) : Broken (Tmpfs.grow t cur name isDir) := by
  have hcur := h.bound cur hlive
  have hbound : ∀ a c, c ∈ t.kids a → a < t.count ∧ c < t.count := fun a c hc =>
    ⟨h.bound a (h.link a c hc).1, h.bound c (h.link a c hc).2.1⟩
  refine ⟨fun a c => grow_bound hcur hbound, cur, t.count,
    (mem_grow_kids hcur hbound).2 (.inl ⟨rfl, rfl⟩), ?_⟩
  obtain hfile | rfl := hbad
  · rw [(grow_inode_of_ne (Nat.ne_of_lt hcur)).2.1]
    exact .inl hfile
  · simp [Tmpfs.grow]

/-! ### Making what is missing -/

section

variable {leafIsDir : Bool} {segment : List Char} {rest : List (List Char)}

theorem lookupLoop_found {next : ℕ} (hfind : tmpfsFindChild t cur segment = some next) :
    lookupLoop mem ⟨true, true, leafIsDir⟩ t cur (segment :: rest) =
      lookupLoop mem ⟨true, true, leafIsDir⟩ t next rest := by
  simp [lookupLoop, hfind]

theorem creates (rest : List (List Char)) :
    (rest.isEmpty && true || !rest.isEmpty && true) = true := by
  cases rest.isEmpty <;> rfl

theorem lookupLoop_grow (hfind : tmpfsFindChild t cur segment = none) (hmem : mem t.count = true) :
    lookupLoop mem ⟨true, true, leafIsDir⟩ t cur (segment :: rest) =
      lookupLoop mem ⟨true, true, leafIsDir⟩ (grow t cur segment (!rest.isEmpty || leafIsDir))
        t.count rest := by
  rw [lookupLoop, hfind]
  rw [if_pos (creates rest), tmpfsAllocInode, if_pos hmem]
  rfl

theorem lookupLoop_noMem (hfind : tmpfsFindChild t cur segment = none)
    (hmem : mem t.count = false) :
    lookupLoop mem ⟨true, true, leafIsDir⟩ t cur (segment :: rest) = (t, none) := by
  rw [lookupLoop, hfind]
  rw [if_pos (creates rest), tmpfsAllocInode, if_neg (by simp [hmem])]

/-- What is broken stays broken while the rest of the path is created. -/
theorem lookupLoop_broken (h : Broken t) (hcur : cur < t.count) (segs : List (List Char)) :
    Broken (lookupLoop mem ⟨true, true, leafIsDir⟩ t cur segs).1 := by
  induction segs generalizing t cur with
  | nil => exact h
  | cons segment rest ih =>
    cases hfind : tmpfsFindChild t cur segment with
    | some =>
      rw [lookupLoop_found hfind]
      exact ih h (h.bound _ _ (tmpfsFindChild_some hfind).1).2
    | none =>
      cases hmem : mem t.count with
      | true =>
        rw [lookupLoop_grow hfind hmem]
        exact ih (h.grow hcur _ _) (lt_succ_self _)
      | false =>
        rw [lookupLoop_noMem hfind hmem]
        exact h

/-- The segments of a path are short enough for the field, and only the first can be empty. -/
structure SegmentsOk (segs : List (List Char)) : Prop where
  short : ∀ s ∈ segs, s.length ≤ nameMax
  nonempty : ∀ s ∈ segs.tail, s ≠ []

theorem SegmentsOk.tail (h : SegmentsOk (segment :: rest)) : SegmentsOk rest where
  short s hs := h.short s (by simp [hs])
  nonempty s hs := h.nonempty s (mem_of_mem_tail hs)

/-- The walk leaves a tree exactly if the condition holds. -/
theorem treeOk_lookupLoop_iff (h : TreeOk t) (hcur : t.live cur = true)
    {segs : List (List Char)} (hsegs : SegmentsOk segs) :
    TreeOk (lookupLoop mem ⟨true, true, leafIsDir⟩ t cur segs).1 ↔ WalkSafe mem t cur segs := by
  induction segs generalizing t cur with
  | nil => exact iff_of_true h trivial
  | cons segment rest ih =>
    unfold WalkSafe
    cases hfind : tmpfsFindChild t cur segment with
    | some =>
      rw [lookupLoop_found hfind]
      exact ih h (h.link _ _ (tmpfsFindChild_some hfind).1).2.1 hsegs.tail
    | none =>
      cases hmem : mem t.count with
      | false =>
        rw [lookupLoop_noMem hfind hmem]
        exact iff_of_true h (by simp)
      | true =>
        rw [lookupLoop_grow hfind hmem]
        by_cases hgood : (t.inode cur).isDir = true ∧ segment ≠ []
        · -- what is made is a directory without children, unless it is the last
          obtain ⟨hdir, hne⟩ := hgood
          have htake : segment.take nameMax = segment :=
            take_of_length_le (hsegs.short _ (by simp))
          have hgrow : TreeOk (grow t cur segment (!rest.isEmpty || leafIsDir)) := by
            refine h.grow hcur hdir (by rwa [htake]) ?_
            rw [htake]
            exact tmpfsFindChild_none hfind hdir
          rw [ih hgrow (update_self _ _ _) hsegs.tail]
          refine iff_of_true ?_ fun _ => ⟨hdir, hne⟩
          cases hrest : rest with
          | nil => trivial
          | cons next rest' =>
            have hlt := h.bound cur hcur
            unfold WalkSafe
            split
            next hfound => simp [tmpfsFindChild, grow_kids hlt] at hfound
            exact fun _ => ⟨by simp [grow], hsegs.nonempty next (by simp [hrest])⟩
        · refine iff_of_false ?_ fun hsafe => hgood (hsafe rfl)
          have hbad : (t.inode cur).isDir = false ∨ segment = [] := by
            by_cases hdir : (t.inode cur).isDir = true
            · exact .inr (by_contra fun hne => hgood ⟨hdir, hne⟩)
            · exact .inl (by simpa using hdir)
          exact (lookupLoop_broken (h.broken_grow hcur hbad)
            (lt_succ_self _) rest).not_treeOk

end

/-- The segments are cut to the size of the buffer, and only the first may be empty. -/
theorem segmentsLoop_ok (fuel : ℕ) (p : List Char) :
    (∀ s ∈ segmentsLoop fuel p, s.length ≤ nameMax) ∧ (∀ s ∈ (segmentsLoop fuel p).tail, s ≠ []) ∧
      (p.head? ≠ some '/' → ∀ s ∈ segmentsLoop fuel p, s ≠ []) := by
  induction fuel generalizing p with
  | zero => simp [segmentsLoop]
  | succ fuel ih =>
    cases p with
    | nil => simp [segmentsLoop]
    | cons c p =>
      rw [segmentsLoop]
      generalize hseg : ((c :: p).takeWhile (· != '/')).take 255 = segment
      generalize hrest : ((c :: p).drop segment.length).dropWhile (· == '/') = rest
      obtain ⟨hshort, -, hall⟩ := ih rest
      -- what is left starts behind the slashes
      have hhead : rest.head? ≠ some '/' := by
        have hnot := head?_dropWhile_not (· == '/') ((c :: p).drop segment.length)
        rw [hrest] at hnot
        cases rest with
        | nil => simp
        | cons => simpa using hnot
      refine ⟨?_, hall hhead, fun hc => ?_⟩
      · intro s hs
        obtain rfl | hs := mem_cons.1 hs
        · rw [← hseg]
          exact length_take_le _ _
        · exact hshort s hs
      · intro s hs
        obtain rfl | hs := mem_cons.1 hs
        · have hslash : (c != '/') = true := by simpa using hc
          rw [← hseg, takeWhile_cons, if_pos hslash]
          simp
        · exact hall hhead s hs

theorem segmentsOk (path : List Char) : SegmentsOk (segments path) :=
  ⟨(segmentsLoop_ok _ _).1, (segmentsLoop_ok _ _).2.1⟩

/-- A call that makes what is missing leaves a tree exactly if the path is safe. -/
theorem treeOk_tmpfsLookup_iff (h : TreeOk t) {leafIsDir : Bool} (path : List Char) :
    TreeOk (tmpfsLookup mem ⟨true, true, leafIsDir⟩ t path).1 ↔ CreateSafe mem t path := by
  unfold tmpfsLookup CreateSafe
  split
  next hpath =>
    refine iff_of_true h ?_
    obtain hnil | hroot := hpath
    · exact .inl hnil
    · exact .inr (.inl hroot)
  next hpath =>
    rw [treeOk_lookupLoop_iff h h.rootLive (segmentsOk path)]
    rw [not_or] at hpath
    simp [hpath.1, hpath.2]

/-! ## Every call -/

variable {handleMem : Bool}

theorem tmpfsVfsOpen_fst (path : List Char) (mode : Char) :
    (tmpfsVfsOpen mem handleMem t path mode).1 =
      (tmpfsLookup mem ⟨mode == 'w' || mode == 'a', mode == 'w' || mode == 'a', false⟩
        t path).1 := by
  unfold tmpfsVfsOpen
  dsimp only
  split
  · rfl
  · split
    · rfl
    · split <;> rfl

section

variable (h : TreeOk t)

include h

/-- Only the modes that create can break the tree, and then by the path. -/
theorem treeOk_open_iff (path : List Char)
    (mode : Char) : TreeOk (tmpfsVfsOpen mem handleMem t path mode).1 ↔
      (mode = 'w' ∨ mode = 'a' → CreateSafe mem t path) := by
  rw [tmpfsVfsOpen_fst]
  by_cases hmode : mode = 'w' ∨ mode = 'a'
  · have hwrite : (mode == 'w' || mode == 'a') = true := by simpa using hmode
    rw [hwrite, treeOk_tmpfsLookup_iff h]
    simp [hmode]
  · have hread : (mode == 'w' || mode == 'a') = false := by simpa using hmode
    rw [hread, tmpfsLookup_find h]
    exact iff_of_true h fun hm => absurd hm hmode

/-- Only empty directories are removed. -/
theorem treeOk_rmdir (path : List Char) : TreeOk (tmpfsVfsRmdir t path).1 := by
  unfold tmpfsVfsRmdir
  split
  · exact h
  next n hfind =>
    split
    · exact h
    next parent hparent =>
      split
      next hempty => exact .removeNode h (tmpfsFind_live h hfind) hparent hempty.2
      next => exact h

theorem TreeOk.leaf_of_file (hfile : ¬ (t.inode n).isDir = true) : t.kids n = [] := by
  by_contra hne
  exact hfile (h.dirs n hne)

/-- Only files are removed, and a file has no children. -/
theorem treeOk_unlink (path : List Char) : TreeOk (tmpfsVfsUnlink t path).1 := by
  unfold tmpfsVfsUnlink
  split
  · exact h
  next n hfind =>
    split
    · exact h
    next parent hparent =>
      split
      next => exact h
      next hfile =>
        exact .removeNode h (tmpfsFind_live h hfind) hparent (h.leaf_of_file hfile)

/-- The file that the new name had is taken away first; the condition is the same before and
after. -/
theorem treeOk_replace_iff {newParent existing : ℕ} (hn : t.live n = true)
    (hp : (t.inode n).parent = some parent) (hlive : t.live newParent = true)
    (hdir : (t.inode newParent).isDir = true)
    (hfind : tmpfsFindChild t newParent name = some existing) (hne : existing ≠ n)
    (hfile : ¬ (t.inode existing).isDir = true) :
    TreeOk (moveNode (removeNode t newParent existing) parent newParent n name) ↔
      MoveSafe t n newParent name := by
  obtain ⟨hmem, hname⟩ := tmpfsFindChild_some hfind
  obtain ⟨-, helive, hparent⟩ := h.link _ _ hmem
  have hleaf := h.leaf_of_file hfile
  have hpe : newParent ≠ existing := by
    rintro rfl
    exact hfile hdir
  have hkids := fun a c => @mem_removeNode_kids t existing newParent h helive hparent hleaf a c
  have hframe := fun a (ha : a ≠ existing) =>
    @removeNode_inode_of_ne t existing newParent a ha
  have hlive' : ∀ a ≠ existing, (removeNode t newParent existing).live a = t.live a :=
    fun a ha => update_of_ne ha _ _
  -- names are distinct, so nobody else has the name
  have hother : ∀ c ∈ t.kids newParent, c ≠ existing → (t.inode c).name ≠ name := by
    intro c hc hce hcn
    exact hce (inj_on_of_nodup_map (h.distinct newParent) hc hmem (hcn.trans hname.symm))
  rw [treeOk_moveNode_iff (TreeOk.removeNode h helive hparent hleaf)]
  · constructor
    · rintro ⟨habove, hnonempty, hfresh⟩
      refine ⟨fun hr => habove ?_, hnonempty, fun c hc hcn hcname => ?_⟩
      · exact hr.of_leaf hleaf (fun a b hb hab => (hkids a b).2 ⟨hb, hab⟩) hpe
      · have hce : c ≠ existing := by
          rintro rfl
          exact hcname hname
        have := hfresh c ((hkids _ _).2 ⟨hce, hc⟩) hcn
        rw [(hframe c hce).1] at this
        exact this hcname
    · rintro ⟨habove, hnonempty, hfresh⟩
      refine ⟨fun hr => habove ?_, hnonempty, fun c hc hcn hcname => ?_⟩
      · exact hr.mono fun a b hb => ((hkids a b).1 hb).2
      · obtain ⟨hce, hc⟩ := (hkids _ _).1 hc
        rw [(hframe c hce).1] at hcname ⊢
        exact hfresh c hc hcn hcname
  · rw [hlive' n hne.symm, hn]
  · rw [(hframe n hne.symm).2.2, hp]
  · rw [hlive' newParent hpe, hlive]
  · rw [(hframe newParent hpe).2.1, hdir]
  · intro c hc
    obtain ⟨hce, hc⟩ := (hkids _ _).1 hc
    rw [(hframe c hce).1]
    exact hother c hc hce

end

variable {oldPath newPath : List Char}

theorem renameSafe_iff {newParent : ℕ}
    (hfind : tmpfsFind t oldPath = some n) (hparent : (t.inode n).parent ≠ none)
    (hnew : tmpfsFind t (newParentPath newPath) = some newParent)
    (hdir : (t.inode newParent).isDir = true) :
    RenameSafe t oldPath newPath ↔
      ((∀ existing, tmpfsFindChild t newParent (newName newPath) = some existing →
        existing ≠ n ∧ (t.inode existing).isDir = false) →
        MoveSafe t n newParent (newName newPath)) := by
  constructor
  · exact fun hsafe => hsafe n newParent hfind hparent hnew hdir
  · intro hsafe n' newParent' hfind' _ hnew' _
    obtain rfl := some.inj (hfind.symm.trans hfind')
    obtain rfl := some.inj (hnew.symm.trans hnew')
    exact hsafe

/-- A rename keeps the tree if and only if it is safe; each check that fails leaves the tree alone.
-/
theorem treeOk_rename_iff (h : TreeOk t) (oldPath newPath : List Char) :
    TreeOk (tmpfsVfsRename t oldPath newPath).1 ↔ RenameSafe t oldPath newPath := by
  unfold tmpfsVfsRename
  cases hfind : tmpfsFind t oldPath with
  | none =>
    refine iff_of_true h fun n p hn => ?_
    rw [hfind] at hn
    cases hn
  | some n =>
    have hn := tmpfsFind_live h hfind
    dsimp only
    cases hparent : (t.inode n).parent with
    | none =>
      -- the root is refused
      refine iff_of_true h fun n' p hn' hp => ?_
      obtain rfl := some.inj (hfind.symm.trans hn')
      exact absurd hparent hp
    | some =>
      cases hnew : tmpfsFind t (newParentPath newPath) with
      | none =>
        refine iff_of_true h fun n' p _ _ hp => ?_
        rw [hnew] at hp
        cases hp
      | some newParent =>
        have hlive := tmpfsFind_live h hnew
        dsimp only
        split
        next hdir =>
          rw [renameSafe_iff hfind (by simp [hparent]) hnew hdir]
          cases hchild : tmpfsFindChild t newParent (newName newPath) with
          | none =>
            rw [treeOk_moveNode_iff h hn hparent hlive hdir
              (tmpfsFindChild_none hchild hdir)]
            simp
          | some existing =>
            dsimp only
            split
            next hsame => exact iff_of_true h fun hex => absurd hsame (hex existing rfl).1
            next hsame =>
              split
              next hedir =>
                -- a directory of the new name is not replaced, a file is
                refine iff_of_true h fun hex => ?_
                rw [(hex existing rfl).2] at hedir
                cases hedir
              next hedir =>
                rw [treeOk_replace_iff h hn hparent hlive hdir hchild hsame hedir]
                refine ⟨fun hmove _ => hmove, fun hmove => hmove fun e he => ?_⟩
                cases he
                exact ⟨hsame, by simpa using hedir⟩
        next hdir =>
          refine iff_of_true h fun n' p _ _ hp hpdir => ?_
          obtain rfl := some.inj (hnew.symm.trans hp)
          exact absurd hpdir hdir

/-- One call keeps the tree if and only if it is safe. -/
theorem treeOk_step_iff (h : TreeOk t) (op : TmpfsOp) :
    TreeOk (tmpfsStep t op) ↔ TmpfsSafe t op := by
  cases op with
  | openFile mem handleMem path mode => exact treeOk_open_iff h path mode
  | mkdir mem path => exact treeOk_tmpfsLookup_iff h path
  | rmdir path => exact iff_of_true (treeOk_rmdir h path) trivial
  | unlink path => exact iff_of_true (treeOk_unlink h path) trivial
  | rename oldPath newPath => exact treeOk_rename_iff h oldPath newPath

/-- A rename of a directory into its own subtree is refused if it is safe. -/
theorem rename_refused (h : TreeOk t)
    (hinto : IntoItself t oldPath newPath) (hsafe : RenameSafe t oldPath newPath) :
    tmpfsVfsRename t oldPath newPath = (t, false) := by
  obtain ⟨n, newParent, hfind, -, hnew, hbelow⟩ := hinto
  unfold tmpfsVfsRename
  simp only [hfind, hnew]
  cases hparent : (t.inode n).parent with
  | none => rfl
  | some =>
    dsimp only
    by_cases hdir : (t.inode newParent).isDir = true
    · rw [if_pos hdir]
      rw [renameSafe_iff hfind (by simp [hparent]) hnew hdir] at hsafe
      cases hchild : tmpfsFindChild t newParent (newName newPath) with
      | none => exact absurd hbelow (hsafe (by simp [hchild])).above
      | some existing =>
        dsimp only
        obtain ⟨hmem, -⟩ := tmpfsFindChild_some hchild
        by_cases hsame : existing = n
        · subst hsame
          exact absurd hbelow (h.not_below hmem)
        · rw [if_neg hsame]
          by_cases hedir : (t.inode existing).isDir = true
          · rw [if_pos hedir]
          · refine absurd hbelow (hsafe fun e he => ?_).above
            obtain rfl := some.inj (hchild.symm.trans he)
            exact ⟨hsame, by simpa using hedir⟩
    · rw [if_neg hdir]

/-- In every run of safe calls the inodes are a tree. The next call leaves a tree exactly if it is
safe, and a rename of a directory into its own subtree is refused without change exactly if it is
safe. -/
theorem tree_of_safe_run (h : tmpfsSystem.Reachable TmpfsSafe t) :
    TreeOk t ∧ (∀ op, TreeOk (tmpfsStep t op) ↔ TmpfsSafe t op) ∧
      ∀ oldPath newPath, IntoItself t oldPath newPath →
        (tmpfsVfsRename t oldPath newPath = (t, false) ↔ RenameSafe t oldPath newPath) := by
  have hok : TreeOk t := by
    refine h.invariant (fun s hs => ?_) fun s op s' hs hsafe hstep => ?_
    · obtain rfl : s = tmpfsInit := hs
      exact treeOk_init
    · obtain rfl : tmpfsStep s op = s' := hstep
      exact (treeOk_step_iff hs op).2 hsafe
  refine ⟨hok, treeOk_step_iff hok, fun oldPath newPath hinto => ⟨fun hrefused => ?_, ?_⟩⟩
  · rw [← treeOk_rename_iff hok, hrefused]
    exact hok
  · exact rename_refused hok hinto

/-! ## Concrete runs -/

/-- There is memory for everything. -/
def plenty : ℕ → Bool := fun _ => true

def nested : Tree :=
  [.mkdir plenty ['/', 'a'], .mkdir plenty ['/', 'a', '/', 'b']].foldl tmpfsStep tmpfsInit

theorem reachable_nested : tmpfsSystem.Reachable TmpfsSafe nested := by
  have hfirst : TmpfsSafe tmpfsInit (.mkdir plenty ['/', 'a']) :=
    .inr (.inr fun _ => ⟨rfl, by decide⟩)
  have hsecond : TmpfsSafe (tmpfsStep tmpfsInit (.mkdir plenty ['/', 'a']))
      (.mkdir plenty ['/', 'a', '/', 'b']) := .inr (.inr fun _ => ⟨rfl, by decide⟩)
  have hstart : tmpfsSystem.Reachable TmpfsSafe tmpfsInit := .start rfl
  exact (hstart.next hfirst rfl).next hsecond rfl

/-- The inner directory is moved to the root. -/
theorem tree_of_safe_run_moved :
    tmpfsFind (tmpfsStep nested (.rename ['/', 'a', '/', 'b'] ['/', 'c'])) ['/', 'c'] = some 2 ∧
      TreeOk (tmpfsStep nested (.rename ['/', 'a', '/', 'b'] ['/', 'c'])) := by
  have hnone : Reaches nested.kids 2 root → False := by
    intro hr
    obtain heq | ⟨c, hc, -⟩ := Relation.ReflTransGen.cases_head hr
    · cases heq
    · exact absurd hc (by simp [show nested.kids 2 = [] from rfl])
  have hsafe : TmpfsSafe nested (.rename ['/', 'a', '/', 'b'] ['/', 'c']) := by
    refine (@renameSafe_iff nested 2 _ _ root ?_ ?_ ?_ ?_).2 fun _ => ⟨hnone, ?_, ?_⟩
    all_goals decide
  exact ⟨by decide, (tree_of_safe_run (reachable_nested.next hsafe rfl)).1⟩

/-- A directory is moved below itself and lost; a file gets a child; an inode gets an empty name. -/
theorem tree_broken : ((tmpfsVfsRename nested ['/', 'a'] ['/', 'a', '/', 'b', '/', 'c']).2 = true ∧
      ¬ TreeOk (tmpfsStep nested (.rename ['/', 'a'] ['/', 'a', '/', 'b', '/', 'c']))) ∧
    ¬ TreeOk ([.openFile plenty true ['/', 'f'] 'w',
      .openFile plenty true ['/', 'f', '/', 'g'] 'w'].foldl tmpfsStep tmpfsInit) ∧
    ¬ TreeOk (tmpfsStep nested (.rename ['/', 'a'] ['/'])) := by
  refine ⟨⟨by decide, fun h => ?_⟩, fun h => ?_, fun h => ?_⟩
  · -- the root has no children left
    obtain heq | ⟨c, hc, -⟩ := Relation.ReflTransGen.cases_head (h.reached 1 (by decide))
    · cases heq
    · cases hc
  · exact absurd (h.dirs 1 (by decide)) (by decide)
  · exact h.nonempty root 1 (by decide) (by decide)

end BoredOS.Fs.Tmpfs
