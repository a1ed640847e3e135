import BoredOS.Sys.Exec.Model

/-!
# What a Failed Call Leaves Behind

While the new image is built, everything that belongs to the old one keeps its place (`Build`),
except for the pages of the kernel's half, which a new address space has in common with the old one
(`addressSpace_mapPage`). `loadElfSegments_spec` says for a whole file which of these pages change
and whether a block was too small. With it, a call that fails leaves the image as it was exactly if
`ExecSafe` holds (`exec_atomic_iff`).
-/

namespace BoredOS.Sys.Exec

open Function List Nat Machine Item

open Mem.Mmu (pml4Idx)
open Option (some.inj)

variable {m₀ m m' m'' : Machine} {pml4 v : ℕ} {space : Option ℕ} {e : Entry}

@[simp] theorem setAt_same {β : Type} (f : ℕ → ℕ → β) (i j : ℕ) (b : β) :
    setAt f i j b i j = b := by
  simp [setAt]

theorem setAt_of_ne {β : Type} (f : ℕ → ℕ → β) {i j i' j' : ℕ} (b : β) (h : i' ≠ i ∨ j' ≠ j) :
    setAt f i j b i' j' = f i' j' := by
  unfold setAt
  by_cases hi : i' = i
  · subst hi
    simp [h.resolve_left (fun hne => hne rfl)]
  · simp [hi]

/-! ## Building beside the old image -/

/-- The machine while a new image is built in the context `pml4`. What `m₀` uses is untouched. -/
structure Build (m₀ m : Machine) (pml4 : ℕ) (space : Option ℕ) : Prop where
  proc : m.proc = { m₀.proc with segments := m.proc.segments, vmmSpace := space }
  frame : m.frame = m₀.frame
  oldRoots : m.roots m₀.proc.pml4 = m₀.roots m₀.proc.pml4
  fresh : m₀.nextId ≤ pml4
  newRoots : ∀ slot t, m.roots pml4 slot = some t →
    m₀.nextId ≤ t ∨ (256 ≤ slot ∧ m₀.kernelRoots slot = some t)
  kernel : ∀ slot t, 256 ≤ slot → m₀.kernelRoots slot = some t → m.roots pml4 slot = some t
  spaces : ∀ id < m₀.nextId, m.spaces id = m₀.spaces id
  spaceId : ∀ id, space = some id → m₀.nextId ≤ id
  heap : ∀ id < m₀.nextId, m.heap id = m₀.heap id
  nextId : m₀.nextId ≤ m.nextId
  segments : ∀ seg ∈ m.proc.segments, m₀.nextId ≤ seg.ptr
  spacePml4 : ∀ id sp, space = some id → m.spaces id = some sp → m₀.nextId ≤ sp.pml4

/-- The old address space changes at most at the pages with `S`, and there it gets new entries. -/
def Touched (m₀ m m' : Machine) (S : ℕ → Prop) : Prop :=
  ∀ v, (¬ S v → m'.addressSpace m₀.proc.pml4 v = m.addressSpace m₀.proc.pml4 v) ∧
    (S v → ∃ e, m'.addressSpace m₀.proc.pml4 v = some e ∧ m₀.nextId ≤ e.block)

namespace Touched

variable {S S' : ℕ → Prop}

theorem none (hsame : ∀ v, m'.addressSpace m₀.proc.pml4 v = m.addressSpace m₀.proc.pml4 v)
    (hS : ∀ v, ¬ S v) : Touched m₀ m m' S :=
  fun v => ⟨fun _ => hsame v, fun h => absurd h (hS v)⟩

theorem trans (h : Touched m₀ m m' S) (h' : Touched m₀ m' m'' S') :
    Touched m₀ m m'' fun v => S v ∨ S' v := by
  intro v
  constructor
  · intro hnot
    rw [not_or] at hnot
    rw [(h' v).1 hnot.2, (h v).1 hnot.1]
  · intro hS
    by_cases h2 : S' v
    · exact (h' v).2 h2
    · rw [(h' v).1 h2]
      exact (h v).2 (hS.resolve_right h2)

theorem congr (h : Touched m₀ m m' S) (hS : ∀ v, S' v ↔ S v) : Touched m₀ m m' S' := by
  intro v
  rw [hS v]
  exact h v

/-- What follows changes nothing more. -/
theorem keep (h : Touched m₀ m m' S)
    (hsame : ∀ v, m''.addressSpace m₀.proc.pml4 v = m'.addressSpace m₀.proc.pml4 v) :
    Touched m₀ m m'' S := by
  intro v
  rw [hsame v]
  exact h v

end Touched

section

variable (hwf : Wf m₀) (hb : Build m₀ m pml4 space)

include hb in
theorem Build.pml4_ne (hwf : Wf m₀) : pml4 ≠ m₀.proc.pml4 := by
  have h₁ := hb.fresh
  have h₂ := hwf.pml4
  omega

include hwf hb in
/-- A page mapped in the new context is seen in the old one only if it is one of the kernel. -/
theorem addressSpace_mapPage (u : ℕ) : (mapPage m pml4 v e).addressSpace m₀.proc.pml4 u =
      if u = v ∧ SharedAt m₀ v then some e else m.addressSpace m₀.proc.pml4 u := by
  have hne := hb.pml4_ne hwf
  unfold mapPage addressSpace
  cases hroot : m.roots pml4 (pml4Idx v) with
  | some t =>
    rw [hb.oldRoots]
    cases hold : m₀.roots m₀.proc.pml4 (pml4Idx u) with
    | none =>
      rw [if_neg]
      · rfl
      · rintro ⟨rfl, -, hk, hEq⟩
        exact hk (hEq.symm.trans hold)
    | some t' =>
      by_cases hhit : u = v ∧ t' = t
      · obtain ⟨rfl, rfl⟩ := hhit
        -- a tree that both have is one of the kernel
        have hlt := hwf.roots _ _ hold
        have hk := (hb.newRoots _ _ hroot).resolve_left (by omega)
        rw [if_pos]
        · exact setAt_same _ _ _ _
        · exact ⟨rfl, hk.1, by simp [hk.2], hold.trans hk.2.symm⟩
      · rw [if_neg]
        · apply setAt_of_ne
          rw [not_and_or] at hhit
          exact hhit.symm
        · rintro ⟨rfl, hslot, hk, hEq⟩
          obtain ⟨t'', ht''⟩ := Option.ne_none_iff_exists'.1 hk
          have hnew := hb.kernel _ _ hslot ht''
          rw [hroot] at hnew
          rw [hold, ht''] at hEq
          exact hhit ⟨rfl, (some.inj hEq).trans (some.inj hnew).symm⟩
  | none =>
    dsimp only
    have hroots : setAt m.roots pml4 (pml4Idx v) (some m.nextId) m₀.proc.pml4 =
        m₀.roots m₀.proc.pml4 := by
      simp only [setAt, update_of_ne (Ne.symm hne), hb.oldRoots]
    rw [hroots, hb.oldRoots, if_neg]
    · cases hold : m₀.roots m₀.proc.pml4 (pml4Idx u) with
      | none => rfl
      | some =>
        have hlt := hwf.roots _ _ hold
        have hnext := hb.nextId
        simp only [Option.bind_some]
        rw [update_of_ne (by omega)]
    · rintro ⟨rfl, hslot, hk, -⟩
      obtain ⟨t, ht⟩ := Option.ne_none_iff_exists'.1 hk
      have hnew := hb.kernel _ _ hslot ht
      rw [hroot] at hnew
      cases hnew

include hwf hb in
/-- A page is mapped into the image that is being built. -/
theorem Build.mapPage : Build m₀ (mapPage m pml4 v e) pml4 space := by
  have hne := hb.pml4_ne hwf
  unfold Exec.mapPage
  cases hroot : m.roots pml4 (pml4Idx v) with
  | some => exact { hb with }
  | none =>
    refine { hb with oldRoots := ?_, newRoots := ?_, kernel := ?_, nextId := ?_ }
    · simp only [setAt, update_of_ne (Ne.symm hne), hb.oldRoots]
    · intro slot t ht
      change setAt m.roots pml4 (pml4Idx v) (some m.nextId) pml4 slot = some t at ht
      by_cases hslot : slot = pml4Idx v
      · subst hslot
        rw [setAt_same] at ht
        have hnext := hb.nextId
        exact .inl (by rw [← some.inj ht]; exact hnext)
      · rw [setAt_of_ne _ _ (.inr hslot)] at ht
        exact hb.newRoots slot t ht
    · intro slot t hslot ht
      have hnew := hb.kernel slot t hslot ht
      change setAt m.roots pml4 (pml4Idx v) (some m.nextId) pml4 slot = some t
      rw [setAt_of_ne _ _ (.inr _)]
      · exact hnew
      · rintro rfl
        rw [hroot] at hnew
        cases hnew
    · exact le_succ_of_le hb.nextId

include hb in
/-- Blocks of the new image come and go. -/
theorem Build.update_heap {ptr : ℕ} (hptr : m₀.nextId ≤ ptr) (block : Option (List UInt8)) (id : ℕ)
    (hid : id < m₀.nextId) : update m.heap ptr block id = m₀.heap id := by
  rw [update_of_ne (by omega), hb.heap id hid]

include hb in
theorem Build.kfree {ptr : ℕ} (hptr : m₀.nextId ≤ ptr) : Build m₀ (kfree m ptr) pml4 space :=
  { hb with heap := hb.update_heap hptr none }

include hb in
theorem Build.allocStack : Build m₀ (allocStack m) pml4 space :=
  { hb with heap := hb.update_heap hb.nextId _, nextId := le_succ_of_le hb.nextId }

include hb in
theorem Build.fillBlock (vaddr memsz : ℕ) (bytes : List UInt8) :
    Build m₀ (fillBlock m vaddr memsz bytes) pml4 space :=
  { hb with heap := hb.update_heap hb.nextId _, nextId := le_succ_of_le hb.nextId }

include hb in
theorem Build.addArea {id : ℕ} (hid : m₀.nextId ≤ id) (start stop flags : ℕ) :
    Build m₀ (addArea m id start stop flags) pml4 space := by
  refine { hb with spaces := ?_, spacePml4 := ?_ }
  · intro id' hid'
    change update m.spaces id _ id' = m₀.spaces id'
    rw [update_of_ne (by omega), hb.spaces id' hid']
  · intro id' sp hid' hsp
    change update m.spaces id _ id' = some sp at hsp
    by_cases hEq : id' = id
    · subst hEq
      rw [update_self] at hsp
      obtain ⟨sp', hsp', rfl⟩ := Option.map_eq_some_iff.1 hsp
      exact hb.spacePml4 id' sp' hid' hsp'
    · rw [update_of_ne hEq] at hsp
      exact hb.spacePml4 id' sp hid' hsp

end

/-! ## Loading -/

theorem processAddElfSegment_same (seg : Segment) (area : Bool) :
    (processAddElfSegment m seg area).addressSpace = m.addressSpace ∧
      (processAddElfSegment m seg area).overrun = m.overrun := by
  have hlist : (listSegment m seg).addressSpace = m.addressSpace ∧
      (listSegment m seg).overrun = m.overrun := by
    unfold listSegment
    split <;> exact ⟨rfl, rfl⟩
  unfold processAddElfSegment coverSegment
  split
  · split <;> exact hlist
  · exact hlist

theorem Build.processAddElfSegment (hb : Build m₀ m pml4 space) {seg : Segment}
    (hseg : m₀.nextId ≤ seg.ptr) (area : Bool) :
    Build m₀ (processAddElfSegment m seg area) pml4 space := by
  have hlist : Build m₀ (listSegment m seg) pml4 space := by
    unfold listSegment
    split
    · refine { hb with proc := by rw [hb.proc], segments := fun seg' hseg' => ?_ }
      rcases mem_append.1 hseg' with hold | hnew
      · exact hb.segments seg' hold
      · rw [mem_singleton.1 hnew]
        exact hseg
    · exact hb
  unfold Exec.processAddElfSegment coverSegment
  split
  next id hid =>
    split
    · apply hlist.addArea
      apply hlist.spaceId
      rw [← hid, hlist.proc]
    · exact hlist
  next => exact hlist

section

variable (hwf : Wf m₀) (hb : Build m₀ m pml4 space)

include hwf hb

/-- The pages of a segment, up to the first that cannot be mapped. -/
theorem mapSegment_spec {block : ℕ}
    (hblock : m₀.nextId ≤ block) (flags : ℕ) (maps : ℕ → Bool) (pages : List ℕ) (p : ℕ) :
    Build m₀ (mapSegment pml4 block flags maps p pages m).1 pml4 space ∧
    Touched m₀ m (mapSegment pml4 block flags maps p pages m).1
      (fun v => v ∈ mappedPages maps p pages ∧ SharedAt m₀ v) ∧
    (mapSegment pml4 block flags maps p pages m).1.overrun = m.overrun ∧
    (mapSegment pml4 block flags maps p pages m).2 =
      (List.range pages.length).all fun i => maps (p + i) := by
  induction pages generalizing p m with
  | nil => exact ⟨hb, Touched.none (fun _ => rfl) (by simp [mappedPages]), rfl, rfl⟩
  | cons v rest ih =>
    by_cases hmap : maps p = true
    · obtain ⟨hbuild, htouched, hover, hall⟩ := ih (hb.mapPage hwf (v := v)
        (e := ⟨block, p, flags⟩)) (p + 1)
      simp only [mapSegment, mappedPages, hmap, if_true]
      refine ⟨hbuild, ?_, ?_, ?_⟩
      · -- the first page, then the others
        have hfirst : Touched m₀ m (mapPage m pml4 v ⟨block, p, flags⟩)
            fun u => u = v ∧ SharedAt m₀ v := by
          intro u
          rw [addressSpace_mapPage hwf hb]
          constructor
          · intro hnot
            rw [if_neg hnot]
          · intro hhit
            rw [if_pos hhit]
            exact ⟨_, rfl, hblock⟩
        apply (hfirst.trans htouched).congr
        intro u
        simp only [mem_cons]
        constructor
        · rintro ⟨rfl | hu, hs⟩
          · exact .inl ⟨rfl, hs⟩
          · exact .inr ⟨hu, hs⟩
        · rintro (⟨rfl, hs⟩ | ⟨hu, hs⟩)
          · exact ⟨.inl rfl, hs⟩
          · exact ⟨.inr hu, hs⟩
      · rw [hover]
        unfold mapPage
        split <;> rfl
      · rw [hall, length_cons, range_succ_eq_map, all_cons, all_map]
        simp only [Nat.add_zero, hmap, Bool.true_and]
        congr 1
        funext i
        simp [Nat.add_assoc, Nat.add_comm 1 i]
    · simp only [mapSegment, mappedPages, hmap]
      refine ⟨hb, Touched.none (fun _ => rfl) (by simp), rfl, ?_⟩
      rw [length_cons, range_succ_eq_map, all_cons]
      simp [eq_false_of_ne_true hmap]

/-- One program header. -/
theorem loadItem_spec (item : Item) : Build m₀ (loadItem pml4 m item).1 pml4 space ∧
    Touched m₀ m (loadItem pml4 m item).1 (fun v => v ∈ item.pages ∧ SharedAt m₀ v) ∧
    (loadItem pml4 m item).1.overrun = (m.overrun || item.spills) ∧
    (loadItem pml4 m item).2 = item.loads := by
  cases item with
  | bad | skip =>
    exact ⟨hb, Touched.none (fun _ => rfl) (by simp [pages]),
      (Bool.or_false _).symm, rfl⟩
  | segment vaddr memsz flags bytes allocates maps area =>
    by_cases halloc : allocates = true ∧ allocatable (totalNeeded vaddr memsz) = true
    · obtain ⟨hbuild, htouched, hover, hall⟩ := mapSegment_spec hwf
        (hb.fillBlock vaddr memsz bytes) hb.nextId flags maps (segmentPages vaddr memsz) 0
      simp only [loadItem, pages, spills, loads, halloc, and_self, if_true,
        Bool.and_self, Bool.true_and]
      simp only [Nat.zero_add] at hall
      have hover' := hover.trans (show (fillBlock m vaddr memsz bytes).overrun = _ from rfl)
      -- mapping succeeded and the segment is listed, or the block is given back
      split
      next hmapped =>
        refine ⟨hbuild.processAddElfSegment hb.nextId area, ?_, ?_, ?_⟩
        · apply htouched.keep
          intro u
          rw [(processAddElfSegment_same _ _).1]
        · rw [(processAddElfSegment_same _ _).2]
          exact hover'
        · rw [← hall]
          exact hmapped.symm
      next hmapped =>
        refine ⟨hbuild.kfree hb.nextId, htouched.keep fun _ => rfl, hover', ?_⟩
        rw [← hall]
        exact (eq_false_of_ne_true hmapped).symm
    · simp only [loadItem, pages, spills, loads, halloc, if_false]
      have hfalse : (allocates && allocatable (totalNeeded vaddr memsz)) = false := by
        simpa [Bool.and_eq_false_iff, imp_iff_not_or] using halloc
      refine ⟨hb, Touched.none (fun _ => rfl) (by simp), ?_, ?_⟩
      · rw [hfalse]
        simp
      · rw [hfalse]
        simp

/-- All program headers, up to the first that fails. -/
theorem loadElfSegments_spec (items : List Item) :
    Build m₀ (loadElfSegments pml4 items m).1 pml4 space ∧
    Touched m₀ m (loadElfSegments pml4 items m).1
      (fun v => (∃ item ∈ processed items, v ∈ item.pages) ∧ SharedAt m₀ v) ∧
    (loadElfSegments pml4 items m).1.overrun = (m.overrun || (processed items).any spills) ∧
    (loadElfSegments pml4 items m).2 = items.all loads := by
  induction items generalizing m with
  | nil => exact ⟨hb, Touched.none (fun _ => rfl) (by simp [processed]),
      (Bool.or_false _).symm, rfl⟩
  | cons item rest ih =>
    obtain ⟨hbuild, htouched, hover, hloads⟩ := loadItem_spec hwf hb item
    unfold loadElfSegments
    cases hitem : loadItem pml4 m item with
    | mk =>
      rw [hitem] at hbuild htouched hover hloads
      subst hloads
      cases hok : item.loads with
      | true =>
        obtain ⟨hbuild', htouched', hover', hall⟩ := ih hbuild
        refine ⟨hbuild', ?_, ?_, ?_⟩
        · apply (htouched.trans htouched').congr
          intro v
          simp only [processed, hok, if_true, mem_cons, exists_eq_or_imp]
          tauto
        · rw [hover', hover]
          simp [processed, hok, Bool.or_assoc]
        · rw [hall]
          simp [hok]
      | false =>
        refine ⟨hbuild, ?_, ?_, ?_⟩
        · apply htouched.congr
          intro v
          simp [processed, hok]
        · rw [hover]
          simp [processed, hok]
        · simp [hok]

end

/-! ## The new space -/

theorem newContext_spec (hwf : Wf m₀) :
    Build m₀ (startImage (createContext m₀).1 none) m₀.nextId none ∧
      ∀ v, (startImage (createContext m₀).1 none).addressSpace m₀.proc.pml4 v =
        m₀.addressSpace m₀.proc.pml4 v := by
  have hroots : (startImage (createContext m₀).1 none).roots m₀.proc.pml4 = m₀.roots m₀.proc.pml4 :=
    update_of_ne (Nat.ne_of_lt hwf.pml4) _ _
  refine ⟨⟨rfl, rfl, hroots, Nat.le_refl _, ?_, ?_, fun _ _ => rfl, nofun, fun _ _ => rfl,
    le_succ _, ?_, nofun⟩, ?_⟩
  · intro slot t ht
    simp only [startImage, createContext, update_self] at ht
    split at ht
    next hslot => exact .inr ⟨hslot, ht⟩
    next => cases ht
  · intro slot t hslot ht
    simp [startImage, createContext, hslot, ht]
  · intro seg hseg
    exact absurd hseg not_mem_nil
  · intro v
    rw [addressSpace, hroots]
    rfl

/-- The new image starts empty, in a space of its own or in a bare context. -/
theorem newSpace_spec {w : World} (hwf : Wf m₀) (h : newSpace w m₀ = (m, space, some pml4)) :
    Build m₀ (startImage m space) pml4 space ∧
      (∀ v, (startImage m space).addressSpace m₀.proc.pml4 v = m₀.addressSpace m₀.proc.pml4 v) ∧
      (startImage m space).overrun = m₀.overrun := by
  obtain ⟨hb, hsame⟩ := newContext_spec hwf
  unfold newSpace at h
  split at h
  · -- a space with its context
    cases h
    refine ⟨{ hb with proc := rfl, spaces := ?_, spaceId := ?_, nextId := ?_, spacePml4 := ?_ },
      hsame, rfl⟩
    · intro id hid
      exact update_of_ne (Nat.ne_of_lt (lt_succ_of_lt hid)) _ _
    · intro id hid
      rw [← some.inj hid]
      exact le_succ _
    · exact le_succ_of_le (le_succ _)
    · intro id sp hid hsp
      rw [← some.inj hid] at hsp
      simp only [startImage, update_self, Option.some.injEq] at hsp
      subst hsp
      exact Nat.le_refl _
  · split at h
    · -- only a context
      cases h
      exact ⟨hb, hsame, rfl⟩
    · cases h

/-- The fields that giving back the new image leaves alone. -/
structure Unchanged (m₀ m m' : Machine) : Prop where
  proc : m'.proc = m.proc
  frame : m'.frame = m.frame
  addressSpace : ∀ v, m'.addressSpace m₀.proc.pml4 v = m.addressSpace m₀.proc.pml4 v
  spaces : ∀ id < m₀.nextId, m'.spaces id = m.spaces id
  heap : ∀ id < m₀.nextId, m'.heap id = m.heap id
  overrun : m'.overrun = m.overrun

theorem Unchanged.trans (h : Unchanged m₀ m m') (h' : Unchanged m₀ m' m'') :
    Unchanged m₀ m m'' where
  proc := h'.proc.trans h.proc
  frame := h'.frame.trans h.frame
  addressSpace v := (h'.addressSpace v).trans (h.addressSpace v)
  spaces id hid := (h'.spaces id hid).trans (h.spaces id hid)
  heap id hid := (h'.heap id hid).trans (h.heap id hid)
  overrun := h'.overrun.trans h.overrun

theorem unchanged_destroyContext (hwf : Wf m₀) (hpml4 : m₀.nextId ≤ pml4) :
    Unchanged m₀ m (destroyContext m pml4) := by
  have hne : m₀.proc.pml4 ≠ pml4 := by
    have hlt := hwf.pml4
    omega
  refine ⟨rfl, rfl, ?_, fun _ _ => rfl, fun _ _ => rfl, rfl⟩
  intro v
  simp only [addressSpace, destroyContext, update_of_ne hne]

/-- What is dropped after a failure is new. -/
theorem unchanged_dropNew (hwf : Wf m₀) (hpml4 : m₀.nextId ≤ pml4)
    (hid : ∀ id, space = some id → m₀.nextId ≤ id)
    (hsp : ∀ id sp, space = some id → m.spaces id = some sp → m₀.nextId ≤ sp.pml4) :
    Unchanged m₀ m (dropNew m space pml4) := by
  have hspaces : ∀ id (o : Option Space), m₀.nextId ≤ id →
      Unchanged m₀ m { m with spaces := update m.spaces id o } := by
    intro id o hle
    refine ⟨rfl, rfl, fun _ => rfl, ?_, fun _ _ => rfl, rfl⟩
    intro id' hlt
    exact update_of_ne (by omega) _ _
  unfold dropNew
  cases space with
  | none => exact unchanged_destroyContext hwf hpml4
  | some id =>
    have hle := hid id rfl
    simp only [destroySpace]
    cases hcase : m.spaces id with
    | none => exact ⟨rfl, rfl, fun _ => rfl, fun _ _ => rfl, fun _ _ => rfl, rfl⟩
    | some sp =>
      dsimp only
      split
      · exact hspaces id _ hle
      · exact (hspaces id _ hle).trans (unchanged_destroyContext hwf (hsp id sp rfl hcase))

theorem unchanged_freeSegments {segs : List Segment} (hsegs : ∀ seg ∈ segs, m₀.nextId ≤ seg.ptr) :
    Unchanged m₀ m (freeSegments m segs) := by
  induction segs generalizing m with
  | nil => exact ⟨rfl, rfl, fun _ => rfl, fun _ _ => rfl, fun _ _ => rfl, rfl⟩
  | cons seg rest ih =>
    have hfirst : Unchanged m₀ m (kfree m seg.ptr) := by
      refine ⟨rfl, rfl, fun _ => rfl, fun _ _ => rfl, ?_, rfl⟩
      intro id hid
      have hle := hsegs seg (by simp)
      exact update_of_ne (by omega) _ _
    exact hfirst.trans (ih fun seg' h => hsegs seg' (mem_cons_of_mem seg h))

variable (segs : List Segment)

theorem spaces_freeSegments : (freeSegments m segs).spaces = m.spaces := by
  induction segs generalizing m with
  | nil => rfl
  | cons seg rest ih => exact ih

/-! ## Failures -/

/-- No page of the kernel is touched. -/
def NoShared (m : Machine) (items : List Item) : Prop :=
  ∀ v, ¬ ((∃ item ∈ processed items, v ∈ item.pages) ∧ SharedAt m v)

theorem clean_iff (items : List Item) :
    Clean m items ↔ (processed items).any spills = false ∧ NoShared m items := by
  simp only [any_eq_false]
  constructor
  · intro h
    refine ⟨fun item hitem => by simp [(h item hitem).1], ?_⟩
    rintro v ⟨⟨item, hitem, hv⟩, hs⟩
    exact (h item hitem).2 v hv hs
  · rintro ⟨hspill, hshared⟩ item hitem
    refine ⟨eq_false_of_ne_true (hspill item hitem), ?_⟩
    intro v hv hs
    exact hshared v ⟨⟨item, hitem, hv⟩, hs⟩

/-- A machine with the old process has the old image if its address space was not touched. -/
theorem sameImage_iff {S : ℕ → Prop} (hwf : Wf m₀) (hproc : m.proc = m₀.proc)
    (hframe : m.frame = m₀.frame) (hspaces : ∀ id < m₀.nextId, m.spaces id = m₀.spaces id)
    (hheap : ∀ id < m₀.nextId, m.heap id = m₀.heap id) (htouched : Touched m₀ m₀ m S) :
    SameImage m₀ m ↔ ∀ v, ¬ S v := by
  constructor
  · intro hsame v hS
    obtain ⟨e, he, hnew⟩ := (htouched v).2 hS
    rw [hsame.addressSpace v] at he
    -- an old entry is not a new one
    obtain ⟨t, -, ht⟩ := Option.bind_eq_some_iff.1 he
    have hold := hwf.entries t v e ht
    omega
  · intro hnot
    refine ⟨hproc, hframe, fun v => (htouched v).1 (hnot v), ?_, ?_⟩
    · cases hid : m₀.proc.vmmSpace with
      | none => rfl
      | some id => exact hspaces id (hwf.space id hid)
    · intro seg hseg
      exact hheap seg.ptr (hwf.ptr seg hseg)

section

variable {w : World} {path : Path} {args : Option Path} {stat : Stat} {S : ℕ → Prop}
  (hwf : Wf m₀) (hb : Build m₀ m pml4 space) (htouched : Touched m₀ m₀ m S)

/-- The new image given back, with another process in its place. -/
theorem unchanged_giveBack (hwf : Wf m₀) (hb : Build m₀ m pml4 space) (proc : Process) :
    Unchanged m₀ { freeSegments m m.proc.segments with proc := proc }
      (dropNew { freeSegments m m.proc.segments with proc := proc } space pml4) := by
  apply unchanged_dropNew hwf hb.fresh hb.spaceId
  intro id sp hid hsp
  apply hb.spacePml4 id sp hid
  rw [← hsp, ← spaces_freeSegments]

include hwf hb htouched in
theorem sameImage_giveBack :
    SameImage m₀ (dropNew { freeSegments m m.proc.segments with proc := m₀.proc } space pml4) ↔
      ∀ v, ¬ S v := by
  have hfree := unchanged_freeSegments (m := m) hb.segments
  have hdrop := unchanged_giveBack hwf hb m₀.proc
  apply sameImage_iff hwf hdrop.proc
  · exact (hdrop.frame.trans hfree.frame).trans hb.frame
  · intro id hid
    exact ((hdrop.spaces id hid).trans (hfree.spaces id hid)).trans (hb.spaces id hid)
  · intro id hid
    exact ((hdrop.heap id hid).trans (hfree.heap id hid)).trans (hb.heap id hid)
  · apply htouched.keep
    intro v
    exact (hdrop.addressSpace v).trans (hfree.addressSpace v)

theorem overrun_giveBack (hwf : Wf m₀) (hb : Build m₀ m pml4 space) (proc : Process) :
    (dropNew { freeSegments m m.proc.segments with proc := proc } space pml4).overrun = m.overrun :=
  (unchanged_giveBack hwf hb proc).overrun.trans
    (unchanged_freeSegments (m := m) hb.segments).overrun

include hwf hb htouched in
/-- The file could not be loaded. -/
theorem rollback_spec : (rollback w m space pml4 m₀.proc path).2 < 0 ∧
    (SameImage m₀ (rollback w m space pml4 m₀.proc path).1 ↔ ∀ v, ¬ S v) ∧
    (rollback w m space pml4 m₀.proc path).1.overrun = m.overrun := by
  have hproc : { (freeSegments m m.proc.segments).proc with
      segments := m₀.proc.segments.take 4, vmmSpace := m₀.proc.vmmSpace } = m₀.proc := by
    rw [(unchanged_freeSegments (m := m) hb.segments).proc, hb.proc, take_of_length_le hwf.segments]
  unfold rollback
  dsimp only
  rw [hproc]
  refine ⟨?_, sameImage_giveBack hwf hb htouched, overrun_giveBack hwf hb _⟩
  split
  · decide
  · split <;> decide

theorem proc_unmapPages (r : ℕ) (pages : List ℕ) : (unmapPages m r pages).proc = m.proc := by
  unfold unmapPages
  induction pages generalizing m with
  | nil => rfl
  | cons v rest ih =>
    rw [foldl_cons, ih]
    unfold unmapPage
    split <;> rfl

theorem proc_releaseSegments : (releaseSegments m segs).proc = m.proc := by
  unfold releaseSegments
  induction segs generalizing m with
  | nil => rfl
  | cons seg rest ih =>
    rw [foldl_cons, ih]
    split
    · exact proc_unmapPages _ _
    · rfl

theorem proc_freeSegments : (freeSegments m segs).proc = m.proc := by
  induction segs generalizing m with
  | nil => rfl
  | cons seg rest ih => exact ih

theorem proc_dropNew : (dropNew m space pml4).proc = m.proc := by
  unfold dropNew destroySpace
  split
  · split
    · rfl
    · split <;> rfl
  · rfl

include hwf hb htouched in
theorem sameImage_abandon (hnil : m₀.proc.segments = []) :
    (SameImage m₀ (abandon m space pml4 m₀.proc.vmmSpace) ↔ ∀ v, ¬ S v) ∧
      (abandon m space pml4 m₀.proc.vmmSpace).overrun = m.overrun := by
  have hproc : { (freeSegments m m.proc.segments).proc with
      segments := [], vmmSpace := m₀.proc.vmmSpace } = m₀.proc := by
    rw [proc_freeSegments, hb.proc, ← hnil]
  unfold abandon
  dsimp only
  rw [hproc]
  exact ⟨sameImage_giveBack hwf hb htouched, overrun_giveBack hwf hb _⟩

include hwf hb htouched in
/-- The stack could not be set up. -/
theorem finish_spec (hfail : w.stackOk = false ∨ w.stackMapOk = false) :
    (finish w m space pml4 m₀.proc path args stat).2 < 0 ∧
    (Same m₀ (finish w m space pml4 m₀.proc path args stat).1 ↔ m.overrun = false ∧
      (∀ v, ¬ S v) ∧ m₀.proc.segments = [] ∧
      execIds (w.files.nosuid path) stat m₀.proc.ids = m₀.proc.ids) := by
  -- both failures end in `abandon`, of machines that differ in one block
  obtain ⟨m₁, hm₁, hlater, hfinish⟩ : ∃ m₁,
      m₁.proc = (takeIds w (releaseSegments m (m₀.proc.segments.take 4)) path stat).proc ∧
      (takeIds w (releaseSegments m (m₀.proc.segments.take 4)) path stat = m →
        Build m₀ m₁ pml4 space ∧ Touched m₀ m₀ m₁ S ∧ m₁.overrun = m.overrun) ∧
      finish w m space pml4 m₀.proc path args stat =
        (abandon m₁ space pml4 m₀.proc.vmmSpace, -enomem) := by
    by_cases hstack : w.stackOk = false
    · refine ⟨_, rfl, ?_, if_pos hstack⟩
      intro hEq
      rw [hEq]
      exact ⟨hb, htouched, rfl⟩
    · refine ⟨_, ?_, ?_, (if_neg hstack).trans (if_pos (hfail.resolve_left hstack))⟩
      · rfl
      · intro hEq
        rw [hEq]
        exact ⟨hb.allocStack.kfree hb.nextId, htouched.keep fun _ => rfl, rfl⟩
  rw [hfinish]
  refine ⟨show -enomem < 0 by decide, ?_⟩
  have hproc : (abandon m₁ space pml4 m₀.proc.vmmSpace).proc = { m₀.proc with
      segments := [], ids := execIds (w.files.nosuid path) stat m₀.proc.ids } := by
    unfold abandon
    rw [proc_dropNew, proc_freeSegments, hm₁]
    unfold takeIds
    rw [proc_releaseSegments, hb.proc]
  -- if the process and its credentials are the same, nothing was released
  have hkept : m₀.proc.segments = [] →
      execIds (w.files.nosuid path) stat m₀.proc.ids = m₀.proc.ids →
      (SameImage m₀ (abandon m₁ space pml4 m₀.proc.vmmSpace) ↔ ∀ v, ¬ S v) ∧
        (abandon m₁ space pml4 m₀.proc.vmmSpace).overrun = m.overrun := by
    intro hnil hfix
    have hids : m.proc.ids = m₀.proc.ids := by rw [hb.proc]
    have hrelease : releaseSegments m (m₀.proc.segments.take 4) = m := by
      rw [hnil]
      rfl
    rw [hrelease, takeIds, hids, hfix, ← hids] at hlater
    obtain ⟨hb₁, ht₁, ho₁⟩ := hlater rfl
    obtain ⟨hiff, ho⟩ := sameImage_abandon hwf hb₁ ht₁ hnil
    exact ⟨hiff, ho.trans ho₁⟩
  constructor
  · rintro ⟨hsame, hover⟩
    have hEq := hsame.proc.symm.trans hproc
    have hnil : m₀.proc.segments = [] := congrArg Process.segments hEq
    have hfix : execIds (w.files.nosuid path) stat m₀.proc.ids = m₀.proc.ids :=
      (congrArg Process.ids hEq).symm
    obtain ⟨hiff, ho⟩ := hkept hnil hfix
    exact ⟨ho.symm.trans hover, hiff.1 hsame, hnil, hfix⟩
  · rintro ⟨hover, hnot, hnil, hfix⟩
    obtain ⟨hiff, ho⟩ := hkept hnil hfix
    exact ⟨hiff.2 hnot, ho.trans hover⟩

end

/-! ## The whole call -/

section

variable {w : World} {path : Path} {args : Option Path} {stat : Stat}

theorem newSpace_some (h : ¬ (w.spaceOk = false ∧ w.contextOk = false)) :
    ∃ m' space pml4, newSpace w m = (m', space, some pml4) := by
  unfold newSpace
  cases hspace : w.spaceOk with
  | true => exact ⟨_, _, _, rfl⟩
  | false =>
    cases hctx : w.contextOk with
    | true => exact ⟨_, _, _, rfl⟩
    | false => exact absurd ⟨hspace, hctx⟩ h

/-- The condition once the new space is there. -/
theorem buildImage_iff {items : List Item} (hitems : elfItems w.files w.exec w.interp path = items)
    (hwf : Wf m₀) (hb : Build m₀ m pml4 space)
    (hsame : ∀ v, m.addressSpace m₀.proc.pml4 v = m₀.addressSpace m₀.proc.pml4 v)
    (hover : m.overrun = m₀.overrun) :
    ((buildImage w m space pml4 m₀.proc path args stat).2 < 0 →
      Same m₀ (buildImage w m space pml4 m₀.proc path args stat).1) ↔
      if items.all loads = false then m₀.overrun = false ∧ Clean m₀ items
      else if w.stackOk = false ∨ w.stackMapOk = false then
        m₀.overrun = false ∧ Clean m₀ items ∧
          m₀.proc.segments = [] ∧ execIds (w.files.nosuid path) stat m₀.proc.ids = m₀.proc.ids
      else True := by
  obtain ⟨hbuild, htouched, hspill, hall⟩ := loadElfSegments_spec hwf hb items
  unfold buildImage
  rw [hitems]
  cases hload : loadElfSegments pml4 items m with
  | mk m₁ ok =>
    rw [hload] at hbuild htouched hspill hall
    have htouched₀ : Touched m₀ m₀ m₁ _ := fun v =>
      ⟨fun hnot => ((htouched v).1 hnot).trans (hsame v), (htouched v).2⟩
    -- nothing was written outside exactly if nothing was before and no block was too small
    have hover₁ : m₁.overrun = false ↔ m₀.overrun = false ∧
        (processed items).any spills = false := by
      rw [hspill, Bool.or_eq_false_iff, hover]
    rw [clean_iff, ← hall]
    cases ok with
    | false =>
      obtain ⟨hneg, himage, hrest⟩ := @rollback_spec _ _ _ _ w path _ hwf hbuild htouched₀
      constructor
      · intro h
        obtain ⟨hs, ho⟩ := h hneg
        obtain ⟨ho₀, hspills⟩ := hover₁.1 (hrest.symm.trans ho)
        exact ⟨ho₀, hspills, himage.1 hs⟩
      · rintro ⟨ho₀, hspills, hno⟩ _
        exact ⟨himage.2 hno, hrest.trans (hover₁.2 ⟨ho₀, hspills⟩)⟩
    | true =>
      by_cases hstack : w.stackOk = false ∨ w.stackMapOk = false
      · obtain ⟨hneg, hiff⟩ :=
          @finish_spec _ _ _ _ w path args stat _ hwf hbuild htouched₀ hstack
        rw [if_pos hstack]
        constructor
        · intro h
          obtain ⟨ho, hno, hnil, hfix⟩ := hiff.1 (h hneg)
          obtain ⟨ho₀, hspills⟩ := hover₁.1 ho
          exact ⟨ho₀, ⟨hspills, hno⟩, hnil, hfix⟩
        · rintro ⟨ho₀, ⟨hspills, hno⟩, hnil, hfix⟩ _
          exact hiff.2 ⟨hover₁.2 ⟨ho₀, hspills⟩, hno, hnil, hfix⟩
      · have hok : w.stackOk = true ∧ w.stackMapOk = true := by
          simpa [not_or] using hstack
        rw [if_neg hstack]
        simp [finish, hok.1, hok.2]

/-- A call that has come to build the image fails without loss exactly if the condition holds. -/
theorem replaceImage_iff (hwf : Wf m₀) :
    ((replaceImage w m₀ path args stat).2 < 0 → Same m₀ (replaceImage w m₀ path args stat).1) ↔
      ImageSafe w m₀ path stat := by
  unfold ImageSafe replaceImage
  by_cases hnone : w.spaceOk = false ∧ w.contextOk = false
  · simp only [newSpace, hnone, and_self, if_true]
    constructor
    · intro h
      exact (h (show (-1 : Int) < 0 by decide)).2
    · intro hover _
      exact ⟨⟨rfl, rfl, fun _ => rfl, rfl, fun _ _ => rfl⟩, hover⟩
  · obtain ⟨m, space, pml4, hnew⟩ := newSpace_some (m := m₀) hnone
    obtain ⟨hb, hsame, hover⟩ := newSpace_spec hwf hnew
    rw [hnew, if_neg hnone]
    exact buildImage_iff rfl hwf hb hsame hover

/-- With fuel for all nested scripts the first part of the call fails with an error number. -/
theorem execPrelude_neg {files : Files} {ids : Ids} {fuel : ℕ} {depth code : Int}
    (hfuel : (4 - depth).toNat < fuel)
    (h : (execPrelude files ids fuel depth path args).outcome = .fails code) : code < 0 := by
  induction fuel generalizing depth path args with
  | zero => omega
  | succ fuel ih =>
    unfold execPrelude at h
    split at h
    · cases h
      decide
    split at h
    · cases h
      decide
    split at h
    · cases h
      decide
    split at h
    · cases h
      decide
    split at h
    · cases h
    split at h
    · cases h
      decide
    · apply ih _ h
      omega

/-- The first part of the call leaves the image alone. -/
theorem same_prelude_iff (depth : Int) (outside : Bool) :
    Same { m with shebangDepth := depth, overrun := outside } m' ↔ Same m m' := by
  constructor
  · rintro ⟨h, hover⟩
    exact ⟨{ h with }, hover⟩
  · rintro ⟨h, hover⟩
    exact ⟨{ h with }, hover⟩

/-- A call that fails leaves the process, its address space, its memory and its frame as they were,
exactly if the condition holds. -/
theorem exec_atomic_iff (hwf : Wf m) (hin : m.overrun = false) :
    ((processExecReplaceCurrent w m path args).2 < 0 →
      Same m (processExecReplaceCurrent w m path args).1) ↔ ExecSafe w m path args := by
  unfold processExecReplaceCurrent ExecSafe
  cases huser : m.proc.isUser with
  | false =>
    simp only [if_true, Bool.false_eq_true, false_implies, iff_true]
    intro _
    exact ⟨⟨rfl, rfl, fun _ => rfl, rfl, fun _ _ => rfl⟩, hin⟩
  | true =>
    simp only [Bool.true_eq_false, if_false, true_implies]
    generalize hr : execPrelude w.files m.proc.ids (execFuel m.shebangDepth) m.shebangDepth path
      args = r
    simp only [hin, Bool.false_or]
    cases hout : r.outcome with
    | fails code =>
      have hneg : code < 0 := by
        rw [← hr] at hout
        exact execPrelude_neg (lt_succ_self _) hout
      constructor
      · intro h
        exact (h hneg).2
      · intro hover _
        exact ⟨⟨rfl, rfl, fun _ => rfl, rfl, fun _ _ => rfl⟩, hover⟩
    | load path args stat =>
      -- the machine differs from `m` only in what the first part leaves
      have hwf' : Wf { m with shebangDepth := r.depth, overrun := r.overrun } :=
        { hwf with }
      have hiff := @replaceImage_iff _ w path args stat hwf'
      rw [same_prelude_iff] at hiff
      exact hiff

end

/-! ## Runs -/

/-- An executable with one segment of one byte at `0x400000`. -/
def tinyElf : List UInt8 :=
  [0x7f, 69, 76, 70, 2, 1, 1, 0, 0, 0, 0, 0, 0, 0, 0, 0,
   2, 0, 62, 0, 1, 0, 0, 0, 0, 0, 64, 0, 0, 0, 0, 0,
   64, 0, 0, 0, 0, 0, 0, 0, 0, 0, 0, 0, 0, 0, 0, 0,
   0, 0, 0, 0, 64, 0, 56, 0, 1, 0, 0, 0, 0, 0, 0, 0,
   1, 0, 0, 0, 5, 0, 0, 0, 0, 0, 0, 0, 0, 0, 0, 0,
   0, 0, 64, 0, 0, 0, 0, 0, 0, 0, 0, 0, 0, 0, 0, 0,
   0, 0, 0, 0, 0, 0, 0, 0, 1, 0, 0, 0, 0, 0, 0, 0,
   0, 0, 0, 0, 0, 0, 0, 0]

/-- Every path leads to that file, which belongs to root. -/
def tinyFiles (mode : BitVec 32) : Files where
  exists_ _ := true
  isDirectory _ := false
  getInfo _ := some ⟨mode, 0, 0⟩
  opens _ _ := true
  read _ off len := (tinyElf.drop off).take len
  nosuid _ := false

def fullSegments : SegmentWorld := ⟨fun _ => true, fun _ _ => true, fun _ => true⟩

/-- There is memory for everything but the stack. -/
def noStack (mode : BitVec 32) : World :=
  { files := tinyFiles mode, spaceOk := true, contextOk := true, exec := fullSegments,
    interp := fullSegments, stackOk := false, stackMapOk := true, refcountOk := true,
    stackAreaOk := true, heapAreaOk := true }

/-- A process of user 1000 with some segments in the block 3, which is mapped at `0x500000`. -/
def userMachine (segments : List Segment) : Machine where
  proc :=
    { isUser := true, vmmSpace := some 4, pml4 := 1, pml4Refs := some 1, userStack := none,
      segments, heapStart := 0x20000000, heapEnd := 0x20000000,
      ids := ⟨1000, 1000, 1000, 1000, 1000, 1000, [], false⟩,
      slots := fun _ => ⟨none, 0, 0⟩, signals := initSignals }
  frame := ⟨0x500000, 0, 0, 0, []⟩
  roots r slot := if r = 1 ∧ slot = 0 then some 2 else none
  kernelRoots _ := none
  trees t v := if t = 2 ∧ v = 0x500000 then some ⟨3, 0, 5⟩ else none
  spaces id := if id = 4 then some ⟨1, [], 0x20000000, 1⟩ else none
  heap id := if id = 3 then some [] else none
  nextId := 5
  shebangDepth := 0
  overrun := false

theorem wf_userMachine {segments : List Segment} (hlength : segments.length ≤ 4)
    (hptr : ∀ seg ∈ segments, seg.ptr < 5) : Wf (userMachine segments) where
  segments := hlength
  ptr := hptr
  pml4 := show 1 < 5 by decide
  space id hid := by
    rw [← some.inj hid]
    exact show 4 < 5 by decide
  roots slot t ht := by
    simp only [userMachine] at ht ⊢
    split at ht
    · rw [← some.inj ht]
      decide
    · cases ht
  kernelRoots slot t ht := by cases ht
  entries t v e he := by
    simp only [userMachine] at he ⊢
    split at he
    · rw [← some.inj he]
      decide
    · cases he

/-- A child after `fork` has no segments, so it loses nothing. -/
theorem exec_atomic_iff_child :
    (processExecReplaceCurrent (noStack 0o755) (userMachine []) [47, 98] none).2 = -12 ∧
    Same (userMachine [])
      (processExecReplaceCurrent (noStack 0o755) (userMachine []) [47, 98] none).1 := by
  have hcode : (processExecReplaceCurrent (noStack 0o755) (userMachine []) [47, 98] none).2 =
      -12 := by decide +kernel
  have himage : ImageSafe (noStack 0o755) (userMachine []) [47, 98] ⟨0o755, 0, 0⟩ := by
    decide +kernel
  refine ⟨hcode, (exec_atomic_iff (wf_userMachine (by decide) (by decide)) rfl).2 ?_ (by
    decide)⟩
  intro _
  exact himage

/-- The stack cannot be set up for a set-user-id file of root: the call fails, the segments are
gone, and the process goes on with the rights of root. -/
theorem exec_not_atomic : ∃ w m path args, Wf m ∧ m.overrun = false ∧ m.proc.ids.euid ≠ 0 ∧
      (processExecReplaceCurrent w m path args).2 < 0 ∧
      (processExecReplaceCurrent w m path args).1.proc.ids.euid = 0 ∧
      (processExecReplaceCurrent w m path args).1.heap 3 = none ∧
      ¬ Same m (processExecReplaceCurrent w m path args).1 := by
  refine ⟨noStack 0o4755, userMachine [⟨3, 0x500000, 4096⟩], [47, 98], none,
    wf_userMachine (by decide) (by decide), rfl, by decide, by decide +kernel, by decide +kernel,
    by decide +kernel, ?_⟩
  rintro ⟨hsame, -⟩
  have hsegs := congrArg Process.segments hsame.proc
  cases hsegs

end BoredOS.Sys.Exec
