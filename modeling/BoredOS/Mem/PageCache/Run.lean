import BoredOS.Lib.Transition
import BoredOS.Mem.PageCache.Ops

/-!
# Runs of the Page Cache

The cache as a transition system from `pagecache_init`. `Tracked` states what the dirty flags, the
tags of the trees, the global count and a write-back have to do with each other. It holds in every
run in which a page becomes dirty only in a tree with tags: `radix_tree_tag_set` does nothing in a
tree of height 0, which holds its one page in the root pointer.
-/

namespace BoredOS.Mem.PageCache

open Radix Lib.Transition Option

/-! ## The property of a state -/

def CachedIn (s : Cache) (m : MapId) (p : PageId) : Prop :=
  ∃ index, radixTreeLookup (s.space m).pageTree index = some (some p)

/-- A cached page is dirty exactly when its tag is set, the count is the number of dirty cached
pages, and a write-back without errors writes all dirty pages of the mapping and leaves none. -/
structure Tracked (s : Cache) : Prop where
  flag_iff_tag : ∀ m p, CachedIn s m p → ((s.page p).dirty = true ↔
    radixTreeTagGet (s.space m).pageTree (s.page p).index .dirty = some true)
  count : s.dirtyPagesCount = {p | (∃ m, CachedIn s m p) ∧ (s.page p).dirty = true}.ncard
  sync : ∀ m writePage, WritesSucceed writePage →
    ∃ st, pagecacheSyncMapping s m (some writePage) = some st ∧
      (∀ p, CachedIn s m p → (s.page p).dirty = true → p ∈ st.written) ∧
      ∀ p, CachedIn st.cache m p → (st.cache.page p).dirty = false

/-! ## The system -/

/-- The calls as their callers make them: a page is added when it is in no mapping, the allocator
returns no page that is in a mapping, and a page is removed from its own mapping. -/
def Legal (s : Cache) : CacheOp → Prop
  | .getPage _ _ newPage _ => (s.page newPage).mapping = none
  | .addPage _ p _ => (s.page p).mapping = none
  | .removePage m p => (s.page p).mapping = some m
  | _ => True

/-- A clean page of a mapping whose tree has height 0. -/
def Untaggable (s : Cache) (p : PageId) : Prop :=
  (s.page p).dirty = false ∧ ∃ m, (s.page p).mapping = some m ∧ (s.space m).pageTree.height = 0

/-- The call makes such a page dirty, itself or as the page that a truncation cuts. -/
def MarksUntaggable (s : Cache) : CacheOp → Prop
  | .markDirty p => Untaggable s p
  | .truncateRange m startByte => startByte % 4096 ≠ 0 ∧
      ∃ p, radixTreeLookup (s.space m).pageTree (startByte / 4096) = some (some p) ∧ Untaggable s p
  | _ => False

/-- The page cache from its initial state on. -/
def cacheSystem : System Cache CacheOp where
  init s := s = pagecacheInit
  step s op s' := applyOp s op = some s'

/-! ## The invariant along a run -/

variable {s : Cache}

theorem truncatePartial_spec (h : Inv s) {m : MapId} {startByte : ℕ}
    (hok : ¬ MarksUntaggable s (.truncateRange m startByte)) :
    ∃ s', truncatePartial s m startByte = some s' ∧ Inv s' := by
  unfold truncatePartial
  split
  next hslack =>
    rw [radixTreeLookup_spec (h.trees m), bind_eq_bind, bind_some]
    cases hitem : (s.space m).pageTree.itemAt (startByte / 4096) with
    | none => exact ⟨s, rfl, h⟩
    | some p =>
      obtain ⟨s', hrun, hinv, -⟩ := pagecacheMarkDirty_spec h p (by
        intro m' hm' hd hzero
        refine hok ⟨hslack, p, ?_, hd, m', hm', hzero⟩
        rw [radixTreeLookup_spec (h.trees m), hitem])
      exact ⟨s', hrun, hinv⟩
  next => exact ⟨s, rfl, h⟩

theorem inv_step {s s' : Cache} {op : CacheOp} (h : Inv s) (hlegal : Legal s op)
    (hok : ¬ MarksUntaggable s op) (hstep : applyOp s op = some s') : Inv s' := by
  cases op with
  | getPage =>
    obtain ⟨⟨s₁, r⟩, hrun, rfl⟩ := map_eq_some_iff.1 hstep
    exact pagecacheGetPage_spec h hlegal hrun
  | addPage =>
    obtain ⟨⟨s₁, ret⟩, hrun, rfl⟩ := map_eq_some_iff.1 hstep
    exact (pagecacheAddPage_spec h hlegal hrun).1
  | markDirty p =>
    obtain ⟨s₁, hrun, hinv, -⟩ := pagecacheMarkDirty_spec h p
      fun m hm hd hzero => hok ⟨hd, m, hm, hzero⟩
    cases hrun.symm.trans hstep
    exact hinv
  | clearDirty p =>
    obtain ⟨s₁, hrun, hinv, -⟩ := pagecacheClearDirty_spec h p
    cases hrun.symm.trans hstep
    exact hinv
  | removePage =>
    obtain ⟨s₁, hrun, hinv, -⟩ := pagecacheRemovePage_spec h hlegal
    cases hrun.symm.trans hstep
    exact hinv
  | truncateRange m startByte =>
    obtain ⟨s₁, hpart, hinv₁⟩ := truncatePartial_spec h hok
    obtain ⟨s₂, hloop, hinv₂⟩ := truncateLoop_spec (m := m) loopFuel
      ((startByte + 4095) % 2 ^ 64 / 4096) hinv₁ (by unfold loopFuel; omega)
    have hrun : applyOp s (.truncateRange m startByte) = some s₂ := by
      show (truncatePartial s m startByte).bind _ = some s₂
      rw [hpart]
      exact hloop
    cases hrun.symm.trans hstep
    exact hinv₂
  | syncMapping m writePage =>
    cases writePage with
    | none =>
      cases hstep
      exact h
    | some writePage =>
      obtain ⟨st, hrun, hsync⟩ := pagecacheSyncMapping_spec h m writePage
      have : applyOp s (.syncMapping m (some writePage)) = some st.cache := by
        show (pagecacheSyncMapping s m (some writePage)).map _ = _
        rw [hrun]
        rfl
      cases this.symm.trans hstep
      exact hsync.inv

theorem cachedIn_iff (h : Inv s) {m : MapId} {p : PageId} :
    CachedIn s m p ↔ (s.page p).mapping = some m := by
  unfold CachedIn
  simp only [radixTreeLookup_spec (h.trees m), some.injEq, h.located]
  constructor
  · rintro ⟨index, hm, -⟩
    exact hm
  · intro hm
    exact ⟨(s.page p).index, hm, rfl⟩

theorem tracked_of_inv (h : Inv s) : Tracked s := by
  refine ⟨?_, ?_, ?_⟩
  · intro m p hp
    rw [radixTreeTagGet_spec (h.trees m), h.tagged m p ((cachedIn_iff h).1 hp), some.injEq]
  · have hset : {p | (∃ m, CachedIn s m p) ∧ (s.page p).dirty = true} = ↑(dirtySet s) := by
      ext p
      rw [Set.mem_ofPred_eq, Finset.mem_coe, mem_dirtySet, and_iff_right_iff_imp]
      intro hd
      -- a dirty page is in a mapping
      cases hm : (s.page p).mapping with
      | none =>
        rw [h.clean p hm] at hd
        cases hd
      | some m => exact ⟨m, (cachedIn_iff h).2 hm⟩
    rw [hset, Set.ncard_coe_finset, h.count]
  · intro m writePage hok
    obtain ⟨st, hrun, hsync⟩ := pagecacheSyncMapping_spec h m writePage
    have hclean : ∀ p, (s.page p).mapping = some m → (st.cache.page p).dirty = false := by
      intro p hm
      by_contra hd
      exact (hsync.cleaned hok p (by simpa using hd)).2 hm
    refine ⟨st, hrun, ?_, ?_⟩
    · intro p hp hd
      exact hsync.reported hok p hd (hclean p ((cachedIn_iff h).1 hp))
    · intro p hp
      rw [cachedIn_iff hsync.inv, hsync.same.mapping] at hp
      exact hclean p hp

/-- In every run in which no clean page of a tree of height 0 is made dirty, the dirty pages are
tracked. -/
theorem cache_run_tracked {s : Cache}
    (h : cacheSystem.Reachable (fun s op => Legal s op ∧ ¬ MarksUntaggable s op) s) :
    Tracked s := by
  apply tracked_of_inv
  apply h.invariant
  · intro s₀ hs₀
    rw [show s₀ = pagecacheInit from hs₀]
    exact inv_init
  · intro s₁ op s₂ hinv hop hstep
    exact inv_step hinv hop.1 hop.2 hstep

/-! ## A mapping with two pages, and one with a single page -/

def cacheAfter (s : Cache) (op : CacheOp) : Cache := (applyOp s op).getD s

theorem step_cacheAfter (op : CacheOp) (h : (applyOp s op).isSome = true) :
    cacheSystem.step s op (cacheAfter s op) := by
  obtain ⟨s', hs'⟩ := isSome_iff_exists.1 h
  show applyOp s op = some ((applyOp s op).getD s)
  rw [hs', getD_some]

def pageZero : PageId := ⟨0, by decide⟩

def pageOne : PageId := ⟨1, by decide⟩

/-- A mapping with one page, at index 0. -/
def onePage : Cache := cacheAfter pagecacheInit (.getPage 0 0 pageZero none)

/-- The same with a second page at index 1, which is dirty. -/
def twoPages : Cache :=
  cacheAfter (cacheAfter onePage (.getPage 0 1 pageOne (some 0))) (.markDirty pageOne)

theorem onePage_reachable :
    cacheSystem.Reachable (fun s op => Legal s op ∧ ¬ MarksUntaggable s op) onePage := by
  have h₀ : cacheSystem.Reachable (fun s op => Legal s op ∧ ¬ MarksUntaggable s op)
      pagecacheInit := .start rfl
  exact h₀.next (e := CacheOp.getPage 0 0 pageZero none) ⟨rfl, id⟩
    (step_cacheAfter _ (by decide +kernel))

theorem twoPages_reachable :
    cacheSystem.Reachable (fun s op => Legal s op ∧ ¬ MarksUntaggable s op) twoPages := by
  have h₁ := onePage_reachable.next (e := CacheOp.getPage 0 1 pageOne (some 0))
    ⟨show (onePage.page pageOne).mapping = none by decide +kernel, id⟩
    (step_cacheAfter _ (by decide +kernel))
  refine h₁.next (e := CacheOp.markDirty pageOne) ⟨trivial, ?_⟩
    (step_cacheAfter _ (by decide +kernel))
  -- the tree has grown to height 1
  rintro ⟨-, m, hm, hzero⟩
  have hmap : ((cacheAfter onePage (.getPage 0 1 pageOne (some 0))).page pageOne).mapping =
      some 0 := by decide +kernel
  have hheight : ((cacheAfter onePage (.getPage 0 1 pageOne (some 0))).space 0).pageTree.height =
      1 := by decide +kernel
  cases hmap.symm.trans hm
  rw [hheight] at hzero
  cases hzero

theorem cache_run_tracked_twoPages : twoPages.dirtyPagesCount = 1 ∧ Tracked twoPages :=
  ⟨by decide +kernel, cache_run_tracked twoPages_reachable⟩

/-- The only page of a mapping is made dirty: its tag stays clear, and a write-back writes nothing
and leaves it dirty. -/
theorem single_page_never_written : cacheSystem.Reachable Legal (cacheAfter onePage
      (.markDirty pageZero)) ∧
    ((cacheAfter onePage (.markDirty pageZero)).page pageZero).dirty = true ∧
    radixTreeTagGet ((cacheAfter onePage (.markDirty pageZero)).space 0).pageTree 0 .dirty =
      some false ∧
    (pagecacheSyncMapping (cacheAfter onePage (.markDirty pageZero)) 0
      (some fun _ _ => 0)).map (fun st => (st.written, (st.cache.page pageZero).dirty)) =
      some ([], true) ∧
    ¬ Tracked (cacheAfter onePage (.markDirty pageZero)) := by
  have hreach : cacheSystem.Reachable Legal (cacheAfter onePage (.markDirty pageZero)) :=
    (onePage_reachable.mono fun _ _ hop => hop.1).next (e := .markDirty pageZero) trivial
      (step_cacheAfter _ (by decide +kernel))
  have hdirty : ((cacheAfter onePage (.markDirty pageZero)).page pageZero).dirty = true := by
    decide +kernel
  have htag : radixTreeTagGet ((cacheAfter onePage (.markDirty pageZero)).space 0).pageTree 0
      .dirty = some false := by decide +kernel
  refine ⟨hreach, hdirty, htag, by decide +kernel, fun htracked => ?_⟩
  have hcached : CachedIn (cacheAfter onePage (.markDirty pageZero)) 0 pageZero :=
    ⟨0, by decide +kernel⟩
  have hindex : ((cacheAfter onePage (.markDirty pageZero)).page pageZero).index = 0 := by
    decide +kernel
  have htrue := (htracked.flag_iff_tag 0 pageZero hcached).1 hdirty
  rw [hindex, htag] at htrue
  cases htrue

end BoredOS.Mem.PageCache
