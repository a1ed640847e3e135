import BoredOS.Lib.DList
import BoredOS.Mem.Pmm.Model

/-!
# The Free Lists

`Linked s L` says that the lists of the zones hold the heads in `L`, as doubly linked lists through
the descriptors. `list_add_head` and `list_remove` change `L` in one place and nothing but links in
the descriptors.
-/

namespace BoredOS.Mem.Pmm

open Lib.DList Function List PmmState

namespace PmmState

variable (s : PmmState) (p q : ℕ) (v : Page) (z z' : ZoneId) (w : Zone) (o : ℕ) (h : Option ℕ)

theorem pages_setPage : (s.setPage p v).pages q = if q = p then v else s.pages q :=
  update_apply s.pages p v q

theorem zones_setZone : (s.setZone z w).zones z' = if z' = z then w else s.zones z' :=
  update_apply s.zones z w z'

@[simp] theorem zones_setPage : (s.setPage p v).zones = s.zones := rfl

@[simp] theorem pages_setHead : (s.setHead z o h).pages = s.pages := rfl

theorem freeLists_setHead (o' : ℕ) : ((s.setHead z o h).zones z').freeLists o' =
    if z' = z ∧ o' = o then h else (s.zones z').freeLists o' := by
  unfold setHead
  rw [zones_setZone]
  by_cases hz : z' = z
  · subst hz
    simp [update_apply]
  · simp [hz]

theorem freePages_setHead : ((s.setHead z o h).zones z').freePages = (s.zones z').freePages := by
  unfold setHead
  rw [zones_setZone]
  split
  next hz => rw [hz]
  next => rfl

theorem freeLists_setFreePages (n : ℕ) :
    ((s.setFreePages z n).zones z').freeLists = (s.zones z').freeLists := by
  unfold setFreePages
  rw [zones_setZone]
  split
  next hz => rw [hz]
  next => rfl

theorem freePages_setFreePages (n : ℕ) :
    ((s.setFreePages z n).zones z').freePages = if z' = z then n else (s.zones z').freePages := by
  unfold setFreePages
  rw [zones_setZone]
  split <;> rfl

end PmmState

/-! ## The lists as a whole -/

/-- The heads on the list of each zone and order. -/
abbrev FreeLists := ZoneId → ℕ → List ℕ

def FreeLists.set (L : FreeLists) (z : ZoneId) (o : ℕ) (xs : List ℕ) : FreeLists :=
  fun z' o' => if z' = z ∧ o' = o then xs else L z' o'

open FreeLists

theorem FreeLists.set_same (L : FreeLists) (z : ZoneId) (o : ℕ) (xs : List ℕ) :
    L.set z o xs z o = xs :=
  if_pos ⟨rfl, rfl⟩

theorem FreeLists.set_other (L : FreeLists) {z z' : ZoneId} {o o' : ℕ} (xs : List ℕ)
    (h : ¬ (z' = z ∧ o' = o)) : L.set z o xs z' o' = L z' o' :=
  if_neg h

/-- The descriptors and the list heads hold the lists `L`. -/
structure Linked (s : PmmState) (L : FreeLists) : Prop where
  dll : ∀ z o, Dll (fun p => (s.pages p).freeNext) (fun p => (s.pages p).freePrev)
    ((s.zones z).freeLists o) (L z o)
  apart : ∀ z o z' o' p, p ∈ L z o → p ∈ L z' o' → z' = z ∧ o' = o

/-- The lists of the zones, apart from what else is on them. -/
abbrev Threads (s : PmmState) (L : FreeLists) : Prop :=
  ∀ z o, Dll (fun p => (s.pages p).freeNext) (fun p => (s.pages p).freePrev)
    ((s.zones z).freeLists o) (L z o)

/-- The states differ in links and list heads only. -/
structure LinksOnly (s s' : PmmState) : Prop where
  flags : ∀ p, (s'.pages p).flags = (s.pages p).flags
  refcount : ∀ p, (s'.pages p).refcount = (s.pages p).refcount
  order : ∀ p, (s'.pages p).order = (s.pages p).order
  zone : ∀ p, (s'.pages p).zone = (s.pages p).zone
  freePages : ∀ z, (s'.zones z).freePages = (s.zones z).freePages
  total : s'.totalPageCount = s.totalPageCount
  pools : s'.pcpPools = s.pcpPools
  ready : s'.smpReady = s.smpReady

theorem LinksOnly.refl (s : PmmState) : LinksOnly s s :=
  ⟨fun _ => rfl, fun _ => rfl, fun _ => rfl, fun _ => rfl, fun _ => rfl, rfl, rfl, rfl⟩

theorem LinksOnly.trans {s₁ s₂ s₃ : PmmState} (h : LinksOnly s₁ s₂) (h' : LinksOnly s₂ s₃) :
    LinksOnly s₁ s₃ :=
  ⟨fun p => (h'.flags p).trans (h.flags p), fun p => (h'.refcount p).trans (h.refcount p),
    fun p => (h'.order p).trans (h.order p), fun p => (h'.zone p).trans (h.zone p),
    fun z => (h'.freePages z).trans (h.freePages z), h'.total.trans h.total,
    h'.pools.trans h.pools, h'.ready.trans h.ready⟩

variable (s : PmmState)

/-- A store into the links of one descriptor. -/
theorem linksOnly_setPage (p : ℕ) (prev next : Option ℕ) :
    LinksOnly s (s.setPage p { s.pages p with freePrev := prev, freeNext := next }) := by
  refine ⟨?_, ?_, ?_, ?_, fun _ => rfl, rfl, rfl, rfl⟩
  all_goals
    intro q
    rw [pages_setPage]
    split
    next hq => rw [hq]
    next => rfl

theorem linksOnly_setHead (z : ZoneId) (o : ℕ) (head : Option ℕ) :
    LinksOnly s (s.setHead z o head) :=
  ⟨fun _ => rfl, fun _ => rfl, fun _ => rfl, fun _ => rfl,
    fun z' => s.freePages_setHead z z' o head, rfl, rfl, rfl⟩

/-! ## Adding at the head -/

theorem linksOnly_listAddHead (z : ZoneId) (o p : ℕ) : LinksOnly s (listAddHead s z o p) := by
  unfold listAddHead
  cases (s.zones z).freeLists o with
  | none => exact (linksOnly_setPage s p none none).trans (linksOnly_setHead _ z o _)
  | some q =>
    exact ((linksOnly_setPage s p none (some q)).trans (linksOnly_setPage _ q (some p) _)).trans
      (linksOnly_setHead _ z o _)

/-- `list_add_head` puts a page in front of one list and keeps the others. -/
theorem listAddHead_spec {s : PmmState} {L : FreeLists} (h : Linked s L) (z : ZoneId) (o : ℕ)
    {p : ℕ} (hp : ∀ z o, p ∉ L z o) : Threads (listAddHead s z o p) (L.set z o (p :: L z o)) := by
  have hhead := (h.dll z o).head_eq
  -- the links after the two stores
  have hnext : ∀ y, ((listAddHead s z o p).pages y).freeNext =
      if y = p then (L z o).head? else (s.pages y).freeNext := by
    intro y
    unfold listAddHead
    rw [hhead]
    cases (L z o).head? with
    | none =>
      rw [pages_setHead, pages_setPage]
      split <;> rfl
    | some q =>
      simp only [pages_setHead, pages_setPage]
      by_cases hyq : y = q
      · subst hyq
        by_cases hyp : y = p <;> simp [hyp]
      · rw [if_neg hyq]
        by_cases hyp : y = p <;> simp [hyp]
  have hprev : ∀ y ≠ p, ((listAddHead s z o p).pages y).freePrev =
      if (L z o).head? = some y then some p else (s.pages y).freePrev := by
    intro y hy
    unfold listAddHead
    rw [hhead]
    cases (L z o).head? with
    | none =>
      rw [pages_setHead, pages_setPage, if_neg hy]
      rfl
    | some q =>
      simp only [pages_setHead, pages_setPage, Option.some.injEq]
      by_cases hyq : y = q
      · rw [if_pos hyq, if_pos hyq.symm]
      · rw [if_neg hyq, if_neg hy, if_neg (Ne.symm hyq)]
  have hpprev : ((listAddHead s z o p).pages p).freePrev = none := by
    unfold listAddHead
    rw [hhead]
    cases hq : (L z o).head? with
    | none =>
      rw [pages_setHead, pages_setPage, if_pos rfl]
    | some q =>
      have hne : p ≠ q := fun heq => hp z o (mem_of_head? (heq ▸ hq))
      simp [pages_setPage, hne]
  have hheads : ∀ z' o', ((listAddHead s z o p).zones z').freeLists o' =
      if z' = z ∧ o' = o then some p else (s.zones z').freeLists o' := by
    intro z' o'
    unfold listAddHead
    rw [freeLists_setHead]
    cases (s.zones z).freeLists o <;> rfl
  intro z' o'
  by_cases hzo : z' = z ∧ o' = o
  · obtain ⟨rfl, rfl⟩ := hzo
    rw [set_same]
    refine .insert (u := []) (v := L z' o') (h.dll z' o') (hp z' o') ?_ hpprev ?_ ?_ ?_
    · exact (hnext p).trans (if_pos rfl)
    · intro y hy
      have hyp : y ≠ p := fun heq => hp z' o' (heq ▸ hy)
      exact (hnext y).trans (by rw [if_neg hyp]; rfl)
    · intro y hy
      exact hprev y fun heq => hp z' o' (heq ▸ hy)
    · rw [hheads, if_pos ⟨rfl, rfl⟩]
      rfl
  · rw [set_other L _ hzo]
    apply (h.dll z' o').congr
    · intro y hy
      have hyp : y ≠ p := fun heq => hp z' o' (heq ▸ hy)
      -- the old head of the list is on no other list
      have hyhead : (L z o).head? ≠ some y := fun heq =>
        hzo (h.apart z o z' o' y (mem_of_head? heq) hy)
      rw [hnext, hprev y hyp, if_neg hyp, if_neg hyhead]
      exact ⟨rfl, rfl⟩
    · rw [hheads, if_neg hzo]

/-! ## Removing -/

/-- `list_remove` writes links only. -/
theorem linksOnly_listRemove (s : PmmState) (z : ZoneId) (o p : ℕ) :
    LinksOnly s (listRemove s z o p) := by
  have h₁ : LinksOnly s (unlinkNext s z o p) := by
    unfold unlinkNext
    cases (s.pages p).freePrev with
    | none =>
      dsimp only
      split
      · exact linksOnly_setHead s z o _
      · exact .refl s
    | some q => exact linksOnly_setPage s q _ _
  have h₂ : LinksOnly (unlinkNext s z o p) (unlinkPrev (unlinkNext s z o p) p) := by
    unfold unlinkPrev
    cases ((unlinkNext s z o p).pages p).freeNext with
    | none => exact .refl _
    | some q => exact linksOnly_setPage _ q _ _
  exact (h₁.trans h₂).trans (linksOnly_setPage _ p none none)

section

variable {s : PmmState} {z : ZoneId} {o p y : ℕ}

section

variable (hprev : (s.pages p).freePrev ≠ some p)

include hprev

/-- What the first half of a removal does to the links. -/
theorem pages_unlinkNext :
    ((unlinkNext s z o p).pages p) = s.pages p ∧
    ((unlinkNext s z o p).pages y).freePrev = (s.pages y).freePrev ∧
    ((unlinkNext s z o p).pages y).freeNext =
      if (s.pages p).freePrev = some y then (s.pages p).freeNext else (s.pages y).freeNext := by
  unfold unlinkNext
  cases hq : (s.pages p).freePrev with
  | none =>
    dsimp only
    split <;> simp
  | some q =>
    have hpq : p ≠ q := fun heq => hprev (heq ▸ hq)
    rw [pages_setPage, pages_setPage, if_neg hpq]
    refine ⟨rfl, ?_⟩
    by_cases hyq : y = q
    · simp [hyq]
    · simp [hyq, Ne.symm hyq]

theorem freeNext_listRemove (hy : y ≠ p) :
    ((listRemove s z o p).pages y).freeNext =
      if (s.pages p).freePrev = some y then (s.pages p).freeNext else (s.pages y).freeNext := by
  obtain ⟨-, -, hnext⟩ := pages_unlinkNext (z := z) (o := o) (y := y) hprev
  unfold listRemove
  rw [pages_setPage, if_neg hy, ← hnext]
  unfold unlinkPrev
  cases ((unlinkNext s z o p).pages p).freeNext with
  | none => rfl
  | some =>
    rw [pages_setPage]
    split
    next hyq => rw [hyq]
    next => rfl

theorem freePrev_listRemove (hy : y ≠ p) :
    ((listRemove s z o p).pages y).freePrev =
      if (s.pages p).freeNext = some y then (s.pages p).freePrev else (s.pages y).freePrev := by
  obtain ⟨hp, hyprev, -⟩ := pages_unlinkNext (z := z) (o := o) (y := y) hprev
  unfold listRemove
  rw [pages_setPage, if_neg hy]
  unfold unlinkPrev
  rw [hp]
  cases (s.pages p).freeNext with
  | none =>
    rw [hyprev]
    rfl
  | some q =>
    rw [pages_setPage]
    by_cases hyq : y = q
    · simp [hyq]
    · rw [if_neg hyq, hyprev]
      simp [Ne.symm hyq]

end

theorem freeLists_listRemove (z' : ZoneId) (o' : ℕ) : ((listRemove s z o p).zones z').freeLists o' =
      if (z' = z ∧ o' = o) ∧ (s.pages p).freePrev = none ∧
        (s.zones z).freeLists o = some p then (s.pages p).freeNext
      else (s.zones z').freeLists o' := by
  have hunlink : ∀ s' : PmmState, (unlinkPrev s' p).zones = s'.zones := by
    intro s'
    unfold unlinkPrev
    cases (s'.pages p).freeNext <;> rfl
  unfold listRemove
  rw [zones_setPage, hunlink]
  unfold unlinkNext
  cases hq : (s.pages p).freePrev with
  | none =>
    by_cases hhead : (s.zones z).freeLists o = some p
    · rw [if_pos hhead, freeLists_setHead]
      simp [hhead]
    · simp [hhead]
  | some => simp

end

/-- `list_remove` takes a page out of the list it is in and keeps the others. -/
theorem listRemove_spec {s : PmmState} {L : FreeLists} (h : Linked s L) {z : ZoneId} {o p : ℕ}
    (hp : p ∈ L z o) : Threads (listRemove s z o p) (L.set z o ((L z o).erase p)) := by
  obtain ⟨u, v, hsplit⟩ := append_of_mem hp
  have hdll := h.dll z o
  rw [hsplit] at hdll
  have hnodup := hdll.nodup
  obtain ⟨hnext, hprev⟩ := hdll.links u p v rfl
  have hpu : p ∉ u := fun hmem => (nodup_append.1 hnodup).2.2 p hmem p mem_cons_self rfl
  have hpv : p ∉ v := (nodup_cons.1 (nodup_append.1 hnodup).2.1).1
  have herase : (L z o).erase p = u ++ v := by
    rw [hsplit, erase_append_right _ hpu, erase_cons_head]
  have hself : (s.pages p).freePrev ≠ some p := by
    rw [show (s.pages p).freePrev = u.getLast? from hprev]
    exact fun heq => hpu (mem_of_getLast? heq)
  have hne : ∀ y ∈ u ++ v, y ≠ p := by
    intro y hy heq
    rw [heq] at hy
    exact (mem_append.1 hy).elim hpu hpv
  rw [herase]
  intro z' o'
  by_cases hzo : z' = z ∧ o' = o
  · obtain ⟨rfl, rfl⟩ := hzo
    rw [set_same]
    apply hdll.remove
    · intro y hy
      rw [freeNext_listRemove hself (hne y hy)]
      exact congrArg₂ (fun a b => if a = some y then b else (s.pages y).freeNext) hprev hnext
    · intro y hy
      rw [freePrev_listRemove hself (hne y hy)]
      exact congrArg₂ (fun a b => if a = some y then b else (s.pages y).freePrev) hnext hprev
    · rw [freeLists_listRemove, hdll.head_eq, show (s.pages p).freePrev = u.getLast? from hprev,
        show (s.pages p).freeNext = v.head? from hnext]
      cases u with
      | nil | cons => simp
  · rw [set_other L _ hzo]
    apply (h.dll z' o').congr
    · intro y hy
      -- the neighbours of `p` are on its own list
      have hyL : y ∉ L z o := fun hmem => hzo (h.apart z o z' o' y hmem hy)
      have hyp : y ≠ p := fun heq => hyL (heq ▸ hp)
      have hyu : u.getLast? ≠ some y := fun heq =>
        hyL (by rw [hsplit]; exact mem_append_left _ (mem_of_getLast? heq))
      have hyv : v.head? ≠ some y := fun heq =>
        hyL (by
          rw [hsplit]
          exact mem_append_right _ (mem_cons_of_mem p (mem_of_head? heq)))
      rw [freeNext_listRemove hself hyp, freePrev_listRemove hself hyp,
        show (s.pages p).freePrev = u.getLast? from hprev,
        show (s.pages p).freeNext = v.head? from hnext, if_neg hyu, if_neg hyv]
      exact ⟨rfl, rfl⟩
    · rw [freeLists_listRemove, if_neg fun hc => hzo hc.1]

end BoredOS.Mem.Pmm
