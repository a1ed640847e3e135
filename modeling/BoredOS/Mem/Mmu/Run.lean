import BoredOS.Mem.Mmu.World
import BoredOS.Mem.Pmm.Run

/-!
# Page Tables Refine a Partial Map

What the functions of `mem/mmu.c` do to the entries of a context, seen as a function from pages to
entries (`leaf`). Mapping and unmapping change one entry, whatever happens to the tables around it:
tables that a failed call has allocated are gone again, and emptied tables take no entry with them.
-/

namespace BoredOS.Mem.Mmu

open Pmm Lib.Tiling Lib.TableTree Lib.Update Function Set Lib.Transition Option Prod List

variable {lim : ℕ} {U : Set ℕ} {data : ℕ → Option Grant} {pos : ℕ → Option Spot} {T : Set ℕ}
  {m : Mm}

section

/-! ## Walks -/

/-- An entry leads to the next table of a walk. -/
structure Leads (pos : ℕ → Option Spot) (m : Mm) (f i g : ℕ) (p : Spot) : Prop where
  nonzero : m.tables f i ≠ 0
  present : Has (m.tables f i) ptPresent
  small : ¬ Has (m.tables f i) ptHuge
  frame : frameOf (m.tables f i) = g
  spot : pos g = some p
  valid : isValidTablePhys m.pmm (physOf (m.tables f i)) = true

variable {f r i v g : ℕ} {path : List ℕ} {pos' : ℕ → Option Spot} {T' : Set ℕ} {m' m'' : Mm}
  {flags : BitVec 32} {e : Pte} {isNew : Bool}

theorem not_present_of_zero (h : e = 0) : ¬ Has e ptPresent := by
  rw [h]
  exact not_has_zero _

section

variable (h : World lim U data pos T m) (hf : pos f = some (r, path)) (hlen : path.length < 3)
  (hi : slots lim path i)

include h hf hlen hi

theorem World.leads (hne : m.tables f i ≠ 0) :
    Leads pos m f i (frameOf (m.tables f i)) (r, path ++ [i]) := by
  obtain ⟨hpresent, hsmall⟩ := h.inner f r path hf hlen i hi hne
  have hspot := h.tree.child hf hlen hi hne
  refine ⟨hne, hpresent, hsmall, rfl, hspot, ?_⟩
  rw [physOf_eq]
  exact h.valid hspot

theorem World.not_huge : ¬ Has (m.tables f i) ptHuge := by
  by_cases hzero : m.tables f i = 0
  · rw [hzero]
    exact not_has_zero _
  · exact (h.leads hf hlen hi hzero).small

end

section

variable (h : World lim U data pos T m) (hr : pos r = some (r, [])) (hv : pml4Idx v < lim)

include h hr hv

/-- How a walk ends: at a zero, and then the page has no entry, or at the lowest table. -/
theorem World.walk_cases : (m.tables r (pml4Idx v) = 0 ∧ leaf m.tables r v = 0) ∨
    ∃ pdpt, Leads pos m r (pml4Idx v) pdpt (r, [pml4Idx v]) ∧
      ((m.tables pdpt (pdptIdx v) = 0 ∧ leaf m.tables r v = 0) ∨
      ∃ pd, Leads pos m pdpt (pdptIdx v) pd (r, [pml4Idx v, pdptIdx v]) ∧
        ((m.tables pd (pdIdx v) = 0 ∧ leaf m.tables r v = 0) ∨
        ∃ pt, Leads pos m pd (pdIdx v) pt (r, [pml4Idx v, pdptIdx v, pdIdx v]) ∧
          leaf m.tables r v = m.tables pt (ptIdx v))) := by
  unfold leaf indices
  by_cases h4 : m.tables r (pml4Idx v) = 0
  · exact .inl ⟨h4, value_zero h4⟩
  rw [value_step h4]
  have hlead4 := h.leads hr (by simp) ⟨pml4Idx_lt v, fun _ => hv⟩ h4
  refine .inr ⟨_, hlead4, ?_⟩
  generalize frameOf (m.tables r (pml4Idx v)) = pdpt at *
  by_cases h3 : m.tables pdpt (pdptIdx v) = 0
  · exact .inl ⟨h3, value_zero h3⟩
  rw [value_step h3]
  have hlead3 := h.leads hlead4.spot (by simp) ⟨pdptIdx_lt v, by simp⟩ h3
  refine .inr ⟨_, hlead3, ?_⟩
  generalize frameOf (m.tables pdpt (pdptIdx v)) = pd at *
  by_cases h2 : m.tables pd (pdIdx v) = 0
  · exact .inl ⟨h2, value_zero h2⟩
  rw [value_step h2]
  exact .inr ⟨_, h.leads hlead3.spot (by simp) ⟨pdIdx_lt v, by simp⟩ h2, rfl⟩

/-- `mmu_virt_to_phys` reads the entry of the page. -/
theorem mmuVirtToPhys_spec : mmuVirtToPhys m r v =
      if Has (leaf m.tables r v) ptPresent then physOf (leaf m.tables r v) + v % pageSize
      else 0 := by
  unfold mmuVirtToPhys
  rcases h.walk_cases hr hv with ⟨h4, hzero⟩ | ⟨pdpt, hl4, h3 | ⟨pd, hl3, h2 | ⟨pt, hl2, hleaf⟩⟩⟩
  · rw [if_pos (.inl (not_present_of_zero h4)), if_neg (not_present_of_zero hzero)]
  · rw [if_neg (by simp [hl4.present, hl4.valid]), hl4.frame, if_pos (not_present_of_zero h3.1),
      if_neg (not_present_of_zero h3.2)]
  · rw [if_neg (by simp [hl4.present, hl4.valid]), hl4.frame, if_neg (not_not.2 hl3.present),
      if_neg hl3.small, if_neg (by simp [hl3.valid]), hl3.frame, if_pos (not_present_of_zero h2.1),
      if_neg (not_present_of_zero h2.2)]
  · rw [if_neg (by simp [hl4.present, hl4.valid]), hl4.frame, if_neg (not_not.2 hl3.present),
      if_neg hl3.small, if_neg (by simp [hl3.valid]), hl3.frame, if_neg (not_not.2 hl2.present),
      if_neg hl2.small, if_neg (by simp [hl2.valid]), hl2.frame, hleaf, ite_not]

/-- `mmu_get_pte_ptr` finds the entry of the page. -/
theorem mmuGetPtePtr_spec (halign : v % pageSize = 0) :
    (mmuGetPtePtr m r v = none ∧ leaf m.tables r v = 0) ∨
      ∃ pt, mmuGetPtePtr m r v = some (pt, ptIdx v) ∧ leaf m.tables r v = m.tables pt (ptIdx v) ∧
        pos pt = some (r, [pml4Idx v, pdptIdx v, pdIdx v]) := by
  unfold mmuGetPtePtr
  rw [if_neg (not_not.2 halign)]
  rcases h.walk_cases hr hv with ⟨h4, hzero⟩ | ⟨pdpt, hl4, h3 | ⟨pd, hl3, h2 | ⟨pt, hl2, hleaf⟩⟩⟩
  · exact .inl ⟨if_pos (.inl (not_present_of_zero h4)), hzero⟩
  · rw [if_neg (by simp [hl4.present, hl4.valid]), hl4.frame]
    exact .inl ⟨if_pos (.inl (not_present_of_zero h3.1)), h3.2⟩
  · rw [if_neg (by simp [hl4.present, hl4.valid]), hl4.frame,
      if_neg (by simp [hl3.present, hl3.small]), if_neg (by simp [hl3.valid]), hl3.frame]
    exact .inl ⟨if_pos (.inl (not_present_of_zero h2.1)), h2.2⟩
  · rw [if_neg (by simp [hl4.present, hl4.valid]), hl4.frame,
      if_neg (by simp [hl3.present, hl3.small]), if_neg (by simp [hl3.valid]), hl3.frame,
      if_neg (by simp [hl2.present, hl2.small]), if_neg (by simp [hl2.valid]), hl2.frame]
    exact .inr ⟨pt, rfl, hleaf, hl2.spot⟩

end

/-! ## Mapping -/

/-- The frames that hold tables have the same contents. -/
def Agree (pos : ℕ → Option Spot) (t t' : Tables) : Prop := ∀ f, pos f ≠ none → t' f = t f

variable (lim U data pos T m f i) in
/-- The state after a level of `mmu_map_page_unlocked`: the table behind an entry is there, and it
is new if `isNew` is set. -/
structure Branch (p : Spot) (pos' : ℕ → Option Spot) (T' : Set ℕ) (m' : Mm) (g : ℕ)
    (isNew : Bool) : Prop where
  world : World lim U data pos' T' m'
  spot : pos' g = some p
  roots : SameRoots pos pos'
  view : SameView lim pos m.tables m'.tables
  spared : Spared data m.pmm m'.pmm
  old : isNew = false → pos' = pos ∧ T' = T ∧ m' = m
  fresh : isNew = true → pos g = none ∧ g ∉ T ∧ m.tables f i = 0 ∧
    pos' = update pos g (some p) ∧ T' = insert g T ∧
    m'.tables = store (update m.tables g fun _ => 0) f i (tableEntry g)

theorem SameRoots.refl (pos : ℕ → Option Spot) : SameRoots pos pos := fun _ => .rfl

theorem SameRoots.trans {pos₁ pos₂ pos₃ : ℕ → Option Spot} (h : SameRoots pos₁ pos₂)
    (h' : SameRoots pos₂ pos₃) : SameRoots pos₁ pos₃ := fun r => (h' r).trans (h r)

theorem SameView.refl (lim : ℕ) (pos : ℕ → Option Spot) (t : Tables) : SameView lim pos t t :=
  fun _ _ _ _ => rfl

theorem SameView.trans {t₁ t₂ t₃ : Tables} (h : SameView lim pos t₁ t₂)
    (h' : SameView lim pos' t₂ t₃) (hroots : SameRoots pos pos') : SameView lim pos t₁ t₃ :=
  fun r v hr hv => (h' r v ((hroots r).2 hr) hv).trans (h r v hr hv)

variable (h : World lim U data pos T m)

include h in
/-- An emptied table is unlinked and freed. -/
theorem World.dropTable (cpu : ℕ) (hf : pos f = some (r, path))
    (hg : pos g = some (r, path ++ [i])) (hgT : g ∈ T) (hempty : ∀ j < 512, m.tables g j = 0) :
    physOf (m.tables f i) = g * pageSize ∧ World lim U data (update pos g none) (T \ {g})
        ((m.setEntry f i 0).withPmm (freeTableFrame cpu m.pmm (g * pageSize))) ∧
      SameRoots pos (update pos g none) ∧ SameView lim pos m.tables (m.setEntry f i 0).tables ∧
      Spared data m.pmm (freeTableFrame cpu m.pmm (g * pageSize)) := by
  have hlen := h.tree.short g r _ hg
  rw [length_append, length_singleton] at hlen
  -- the entry is the one that leads to the table
  obtain ⟨f', hf', hi, hne, rfl⟩ := h.tree.linked g r path i hg
  obtain rfl := h.tree.unique path hf' hf
  obtain ⟨hworld, hview, hroots⟩ := h.unlink hf hlen hi hne hempty
  obtain ⟨hworld', hspared⟩ := freeTableFrame_spec hworld cpu hgT (update_self ..)
  exact ⟨physOf_eq _, hworld', hroots, hview, hspared⟩

/-- An error path takes a level back. -/
theorem Branch.undo (b : Branch lim U data pos T m f i (r, path ++ [i]) pos' T' m' g isNew)
    (hf : pos f = some (r, path)) (h : World lim U data pos' T' m'')
    (hagree : Agree pos' m'.tables m''.tables) (cpu : ℕ) :
    World lim U data pos T (undoLevel cpu m'' f i g isNew) ∧
      Agree pos m.tables (undoLevel cpu m'' f i g isNew).tables ∧
      Spared data m''.pmm (undoLevel cpu m'' f i g isNew).pmm := by
  cases isNew with
  | false =>
    obtain ⟨rfl, rfl, rfl⟩ := b.old rfl
    exact ⟨h, hagree, .refl data _⟩
  | true =>
    obtain ⟨hgpos, hgT, hzero, rfl, rfl, htables⟩ := b.fresh rfl
    have hne : f ≠ g := ne_of_none hgpos hf
    have hf' : update pos g (some (r, path ++ [i])) f = some (r, path) := by
      rw [update_of_ne hne, hf]
    have hg' : update pos g (some (r, path ++ [i])) g = some (r, path ++ [i]) :=
      update_self ..
    -- the new table is empty
    have hempty : ∀ j, m''.tables g j = 0 := by
      intro j
      rw [hagree g (by rw [hg']; simp), htables, store_apply, if_neg (fun hc => hne hc.1.symm),
        update_self]
    have hback : update (update pos g (some (r, path ++ [i]))) g none = pos := by
      rw [update_idem, ← hgpos, update_eq_self]
    have hset : insert g T \ {g} = T := by
      rw [insert_sdiff_of_mem _ (mem_singleton g)]
      exact sdiff_singleton_eq_self hgT
    obtain ⟨-, hfreed, -, -, hspared⟩ := h.dropTable cpu hf' hg' (mem_insert g T)
      fun j _ => hempty j
    rw [hback, hset] at hfreed
    refine ⟨hfreed, ?_, hspared⟩
    intro q hq
    have hqg : q ≠ g := by
      rintro rfl
      exact hq hgpos
    funext j
    show (m''.setEntry f i 0).tables q j = m.tables q j
    rw [setEntry_apply]
    split
    next hat => rw [hat.1, hat.2, hzero]
    next hat =>
      rw [hagree q (by rw [update_of_ne hqg]; exact hq), htables, store_apply,
        if_neg hat, update_of_ne hqg]

variable (pos m r pos' m') in
/-- No table is gone, and those of other contexts are as they were. -/
structure Grown : Prop where
  persist : ∀ f p, pos f = some p → pos' f = some p
  frame : ∀ f p, pos f = some p → p.1 ≠ r → m'.tables f = m.tables f

theorem Grown.trans {pos'' : ℕ → Option Spot}
    (h : Grown pos m r pos' m') (h' : Grown pos' m' r pos'' m'') : Grown pos m r pos'' m'' := by
  refine ⟨fun f p hf => h'.persist f p (h.persist f p hf), ?_⟩
  intro f p hf hne
  rw [h'.frame f p (h.persist f p hf) hne, h.frame f p hf hne]

include h in
/-- Below an empty entry there is no table. -/
theorem World.untabled
    (hf : pos f = some (r, path)) (hzero : m.tables f i = 0) :
    ¬ ∃ g, pos g = some (r, path ++ [i]) := by
  rintro ⟨g, hg⟩
  obtain ⟨q, hq, -, hne, -⟩ := h.tree.linked g r path i hg
  rw [h.tree.unique path hq hf] at hne
  exact hne hzero

section

variable (b : Branch lim U data pos T m f i (r, path ++ [i]) pos' T' m' g true)
  (hf : pos f = some (r, path))

include b hf

theorem Branch.grown : Grown pos m r pos' m' := by
  obtain ⟨hgpos, -, -, rfl, -, htables⟩ := b.fresh rfl
  refine ⟨?_, ?_⟩
  · intro q p hq
    rw [update_of_ne (ne_of_none hgpos hq), hq]
  · intro q p hq hne
    funext j
    rw [htables, store_apply, if_neg, update_of_ne (ne_of_none hgpos hq)]
    rintro ⟨rfl, -⟩
    rw [hf] at hq
    cases hq
    exact hne rfl

end

include h in
/-- A level finds the table or adds one. -/
theorem mapLevel_spec (cpu : ℕ)
    (hf : pos f = some (r, path)) (hlen : path.length < 3) (hi : slots lim path i) :
    ∃ m' res, mapLevel cpu m f i = some (m', res) ∧
      ((res = none ∧ World lim U data pos T m' ∧ m'.tables = m.tables ∧ Spared data m.pmm m'.pmm) ∨
      ∃ g isNew pos' T', res = some (g, isNew) ∧
        Branch lim U data pos T m f i (r, path ++ [i]) pos' T' m' g isNew ∧
        Grown pos m r pos' m') := by
  unfold mapLevel
  by_cases hzero : m.tables f i = 0
  · rw [if_pos (not_present_of_zero hzero)]
    obtain ⟨m', r', hrun, hspared, hnone, hsome⟩ := allocTableFrame_spec h cpu
    rw [hrun, Option.bind_eq_bind, bind_some]
    cases r' with
    | none =>
      obtain ⟨hworld, htables⟩ := hnone rfl
      exact ⟨m', none, rfl, .inl ⟨rfl, hworld, htables, hspared⟩⟩
    | some g =>
      obtain ⟨hworld, hgT, hgpos, htables⟩ := hsome g rfl
      have hne : f ≠ g := ne_of_none hgpos hf
      have hstill : m'.tables f i = 0 := by rw [htables, update_of_ne hne, hzero]
      obtain ⟨hworld', hview, hroots⟩ := hworld.link hf hlen hi hstill (mem_insert g T) hgpos
        (by rw [htables, update_self])
      have hagree : SameView lim pos m.tables m'.tables := by
        apply h.view_congr
        intro q hq
        rw [htables, update_of_ne]
        rintro rfl
        exact hq hgpos
      have hbranch : Branch lim U data pos T m f i (r, path ++ [i])
          (update pos g (some (r, path ++ [i]))) (insert g T) (m'.setEntry f i (tableEntry g)) g
          true := by
        refine ⟨hworld', update_self .., hroots, hagree.trans hview (.refl pos), hspared,
          (nomatch ·), fun _ => ⟨hgpos, hgT, hzero, rfl, rfl, ?_⟩⟩
        rw [← htables]
        rfl
      exact ⟨_, some (g, true), rfl, .inr ⟨g, true, _, _, rfl, hbranch, hbranch.grown hf⟩⟩
  · have hlead := h.leads hf hlen hi hzero
    rw [if_neg (not_not.2 hlead.present)]
    have hbranch : Branch lim U data pos T m f i (r, path ++ [i]) pos T m
        (frameOf (m.tables f i)) false :=
      ⟨h, hlead.spot, .refl pos, .refl lim pos m.tables, .refl data m.pmm,
        fun _ => ⟨rfl, rfl, rfl⟩, (nomatch ·)⟩
    exact ⟨m, _, rfl, .inr ⟨_, false, pos, T, rfl, hbranch, fun _ _ hp => hp, fun _ _ _ _ => rfl⟩⟩

variable (lim U data pos T m r v) in
/-- The outcome of a call that maps a page: one entry has changed, or the call has failed and left
nothing behind. -/
def Mapped (e : Pte) (m' : Mm) (ret : Int) : Prop :=
  (ret = 0 ∧ ∃ pos' T', World lim U data pos' T' m' ∧ SameRoots pos pos' ∧
    ∀ r' v', pos r' = some (r', []) → pml4Idx v' < lim →
      leaf m'.tables r' v' = if r' = r ∧ indices v' = indices v then e else leaf m.tables r' v') ∨
  (ret = -enomem ∧ World lim U data pos T m' ∧ SameView lim pos m.tables m'.tables)

variable (lim U data pos T m r v) in
/-- The tables after a call that maps a page: the new ones belong to its context. -/
def MappedIn (e : Pte) (m' : Mm) (ret : Int) : Prop :=
  (ret = 0 ∧ ∃ pos' T', World lim U data pos' T' m' ∧ SameRoots pos pos' ∧
    (∀ r' v', pos r' = some (r', []) → pml4Idx v' < lim →
      leaf m'.tables r' v' = if r' = r ∧ indices v' = indices v then e else leaf m.tables r' v') ∧
    Grown pos m r pos' m') ∨
  (ret = -enomem ∧ World lim U data pos T m' ∧ Agree pos m.tables m'.tables)

include h in
theorem MappedIn.mapped {ret : Int}
    (hmapped : MappedIn lim U data pos T m r v e m' ret) :
    Mapped lim U data pos T m r v e m' ret := by
  rcases hmapped with ⟨hret, pos', T', hworld, hroots, hleaf, -⟩ | ⟨hret, hworld, hagree⟩
  · exact .inl ⟨hret, pos', T', hworld, hroots, hleaf⟩
  · exact .inr ⟨hret, hworld, h.view_congr hagree⟩

include h in
/-- The three tables on the way are found or created, or the allocator has nothing left. -/
theorem mmuMapPageUnlocked_tables (cpu : ℕ)
    (hr : pos r = some (r, [])) (hv : pml4Idx v < lim) (phys : ℕ)
    (hflags : ¬ Has flags mmuFlagHuge2m) :
    ∃ m' ret, mmuMapPageUnlocked cpu m r v phys flags = some (m', ret) ∧
      Spared data m.pmm m'.pmm ∧ MappedIn lim U data pos T m r v (pageEntry phys flags) m' ret := by
  have hi4 : slots lim [] (pml4Idx v) := ⟨pml4Idx_lt v, fun _ => hv⟩
  have hi3 : slots lim [pml4Idx v] (pdptIdx v) := ⟨pdptIdx_lt v, by simp⟩
  have hi2 : slots lim [pml4Idx v, pdptIdx v] (pdIdx v) := ⟨pdIdx_lt v, by simp⟩
  unfold mmuMapPageUnlocked
  dsimp only
  -- the PDPT
  obtain ⟨m₁, res₁, hrun₁, hlevel₁⟩ := mapLevel_spec h cpu hr (by simp) hi4
  rw [hrun₁, Option.bind_eq_bind, bind_some]
  rcases hlevel₁ with ⟨rfl, hworld, htables, hspared⟩ | ⟨pdpt, new₁, pos₁, T₁, rfl, b₁, hgrown₁⟩
  · exact ⟨m₁, -enomem, rfl, hspared, .inr ⟨rfl, hworld, fun f _ => by rw [htables]⟩⟩
  have hpdpt : pos₁ pdpt = some (r, [pml4Idx v]) := b₁.spot
  dsimp only
  rw [if_neg (b₁.world.not_huge hpdpt (by simp) hi3)]
  -- the page directory
  obtain ⟨m₂, res₂, hrun₂, hlevel₂⟩ := mapLevel_spec b₁.world cpu hpdpt (by simp) hi3
  rw [hrun₂, bind_some]
  rcases hlevel₂ with ⟨rfl, hworld, htables, hspared⟩ | ⟨pd, new₂, pos₂, T₂, rfl, b₂, hgrown₂⟩
  · obtain ⟨hback, hagree, hspared'⟩ := b₁.undo hr hworld (fun f _ => by rw [htables]) cpu
    exact ⟨_, -enomem, rfl, (b₁.spared.trans hspared).trans hspared', .inr ⟨rfl, hback, hagree⟩⟩
  have hpd : pos₂ pd = some (r, [pml4Idx v, pdptIdx v]) := b₂.spot
  dsimp only
  rw [if_neg hflags, if_neg (b₂.world.not_huge hpd (by simp) hi2)]
  -- the page table
  obtain ⟨m₃, res₃, hrun₃, hlevel₃⟩ := mapLevel_spec b₂.world cpu hpd (by simp) hi2
  rw [hrun₃, bind_some]
  rcases hlevel₃ with ⟨rfl, hworld, htables, hspared⟩ | ⟨pt, new₃, pos₃, T₃, rfl, b₃, hgrown₃⟩
  · obtain ⟨hback₂, hagree₂, hspared₂⟩ := b₂.undo hpdpt hworld (fun f _ => by rw [htables]) cpu
    obtain ⟨hback₁, hagree₁, hspared₁⟩ := b₁.undo hr hback₂ hagree₂ cpu
    exact ⟨_, -enomem, rfl,
      (((b₁.spared.trans b₂.spared).trans hspared).trans hspared₂).trans hspared₁,
      .inr ⟨rfl, hback₁, hagree₁⟩⟩
  have hpt : pos₃ pt = some (r, [pml4Idx v, pdptIdx v, pdIdx v]) := b₃.spot
  have hgrown := (hgrown₁.trans hgrown₂).trans hgrown₃
  obtain ⟨hworld, hleaf⟩ := b₃.world.store hpt rfl (ptIdx v) (pageEntry phys flags)
  have hroots : SameRoots pos pos₃ := (b₁.roots.trans b₂.roots).trans b₃.roots
  have hview : SameView lim pos m.tables m₃.tables :=
    (b₁.view.trans b₂.view b₁.roots).trans b₃.view (b₁.roots.trans b₂.roots)
  refine ⟨_, 0, rfl, (b₁.spared.trans b₂.spared).trans b₃.spared, .inl ⟨rfl, pos₃, T₃, hworld,
    hroots, ?_, hgrown.persist, ?_⟩⟩
  · intro r' v' hr' hv'
    rw [hleaf r' v' ((hroots r').2 hr') hv', hview r' v' hr' hv']
    rfl
  · -- the entry itself is in a table of this context
    intro f p hf hne
    rw [← hgrown.frame f p hf hne]
    funext j
    rw [setEntry_apply, if_neg]
    rintro ⟨rfl, -⟩
    rw [hgrown.persist f p hf] at hpt
    cases hpt
    exact hne rfl

include h in
theorem mmuMapPage_spec (cpu : ℕ) {phys : ℕ}
    (hr : pos r = some (r, [])) (hv : pml4Idx v < lim) (halign : v % pageSize = 0)
    (hphys : phys % pageSize = 0) (hflags : ¬ Has flags mmuFlagHuge2m) :
    ∃ m' ret, mmuMapPage cpu m r v phys flags = some (m', ret) ∧
      Spared data m.pmm m'.pmm ∧ Mapped lim U data pos T m r v (pageEntry phys flags) m' ret := by
  unfold mmuMapPage
  rw [if_neg (by simp [halign, hphys])]
  obtain ⟨m', ret, hrun, hspared, hmapped⟩ := mmuMapPageUnlocked_tables h cpu hr hv phys hflags
  exact ⟨m', ret, hrun, hspared, hmapped.mapped h⟩

/-! ## Unmapping -/

variable (lim U data pos m m') in
/-- What unmapping may do to the tables: none is added, and no entry but those named changes. -/
structure Pruned : Prop where
  world : ∃ pos' T', World lim U data pos' T' m' ∧ SameRoots pos pos'
  view : SameView lim pos m.tables m'.tables
  spared : Spared data m.pmm m'.pmm

include h in
theorem Pruned.refl : Pruned lim U data pos m m :=
  ⟨⟨pos, T, h, .refl pos⟩, .refl lim pos m.tables, .refl data m.pmm⟩

theorem Pruned.next (hroots : SameRoots pos pos') (hview : SameView lim pos m.tables m'.tables)
    (hspared : Spared data m.pmm m'.pmm) (h : Pruned lim U data pos' m' m'') :
    Pruned lim U data pos m m'' := by
  obtain ⟨pos'', T'', hworld, hroots'⟩ := h.world
  exact ⟨⟨pos'', T'', hworld, hroots.trans hroots'⟩, hview.trans h.view hroots,
      hspared.trans h.spared⟩

include h in
theorem pruneTable_spec (cpu : ℕ) (hf : pos f = some (r, path))
    (hg : pos g = some (r, path ++ [i])) (hmine : ∀ j ∈ (path ++ [i]).head?, j < 256)
    (hempty : isTableEmpty m g = true) :
    World lim U data (update pos g none) (T \ {g}) (pruneTable cpu m f i) ∧
      SameRoots pos (update pos g none) ∧
      SameView lim pos m.tables (pruneTable cpu m f i).tables ∧
      Spared data m.pmm (pruneTable cpu m f i).pmm := by
  obtain ⟨hphys, hdrop⟩ := h.dropTable cpu hf hg (h.own g r _ hg hmine)
    (by simpa [isTableEmpty] using hempty)
  unfold pruneTable
  rw [hphys]
  exact hdrop

include h in
/-- The page directory of a walk is emptied, and perhaps the table above it. -/
theorem pruneUpper_spec (cpu : ℕ) {l4 l3 pdpt pd : ℕ}
    (hr : pos r = some (r, [])) (hlow : l4 < 256) (hpdpt : pos pdpt = some (r, [l4]))
    (hpd : pos pd = some (r, [l4, l3])) :
    Pruned lim U data pos m (pruneUpper cpu m r l4 pdpt l3 pd) := by
  unfold pruneUpper
  by_cases hempty : isTableEmpty m pd = true
  swap
  · rw [if_neg hempty]
    exact .refl h
  rw [if_pos hempty]
  obtain ⟨hworld, hroots, hview, hspared⟩ :=
    pruneTable_spec h cpu hpdpt hpd (by simpa using hlow) hempty
  apply Pruned.next hroots hview hspared
  by_cases hempty' : isTableEmpty (pruneTable cpu m pdpt l3) pdpt = true
  swap
  · rw [if_neg hempty']
    exact .refl hworld
  rw [if_pos hempty']
  have hpdpt' : update pos pd none pdpt = some (r, [] ++ [l4]) := by
    rw [update_of_ne, hpdpt]
    · rfl
    · rintro rfl
      rw [hpdpt] at hpd
      simp at hpd
  obtain ⟨hworld', hroots', hview', hspared'⟩ := pruneTable_spec hworld cpu ((hroots r).2 hr)
    hpdpt' (by simpa using hlow) hempty'
  exact ⟨⟨_, _, hworld', hroots'⟩, hview', hspared'⟩

variable (lim U data pos m r v m') in
/-- The outcome of a call that unmaps a page. -/
structure Unmapped : Prop where
  world : ∃ pos' T', World lim U data pos' T' m' ∧ SameRoots pos pos'
  spared : Spared data m.pmm m'.pmm
  leaf : ∀ r' v', pos r' = some (r', []) → pml4Idx v' < lim →
    leaf m'.tables r' v' = if r' = r ∧ indices v' = indices v then 0 else leaf m.tables r' v'

include h in
/-- A page that has no entry needs no unmapping. -/
theorem Unmapped.none (hzero : Mmu.leaf m.tables r v = 0) : Unmapped lim U data pos m r v m := by
  refine ⟨⟨pos, T, h, .refl pos⟩, .refl data m.pmm, ?_⟩
  intro r' v' _ _
  split
  next hat =>
    rw [← hzero, hat.1]
    unfold Mmu.leaf
    rw [hat.2]
  next => rfl

theorem keepDirty_total (s : PmmState) (old : Pte) (phys : ℕ) :
    (keepDirty s old phys).totalPageCount = s.totalPageCount := by
  unfold keepDirty
  split
  · rfl
  · split
    · rfl
    · rfl

section

variable (h : World lim U data pos T m) (cpu : ℕ) (hr : pos r = some (r, []))

include h cpu hr

/-- The entry is erased, and the tables that become empty are given back from below. -/
theorem unmapLeaf_spec {pdpt pd pt : ℕ} (hpdpt : pos pdpt = some (r, [pml4Idx v]))
    (hpd : pos pd = some (r, [pml4Idx v, pdptIdx v]))
    (hpt : pos pt = some (r, [pml4Idx v, pdptIdx v, pdIdx v])) :
    Unmapped lim U data pos m r v
      (unmapLeaf cpu m r (pml4Idx v) pdpt (pdptIdx v) pd (pdIdx v) pt (ptIdx v)) := by
  unfold unmapLeaf
  dsimp only
  -- the entry is cleared and the page keeps its dirty bit
  obtain ⟨hworld₁, hleaf₁⟩ := h.store hpt rfl (ptIdx v) 0
  obtain ⟨m₂, hm₂, htables₂, hworld₂, hspared₂⟩ : ∃ m₂ : Mm,
      (if Has (m.tables pt (ptIdx v)) ptPresent then
        (m.setEntry pt (ptIdx v) 0).withPmm (keepDirty (m.setEntry pt (ptIdx v) 0).pmm
          (m.tables pt (ptIdx v)) (physOf (m.tables pt (ptIdx v))))
      else m.setEntry pt (ptIdx v) 0) = m₂ ∧ m₂.tables = (m.setEntry pt (ptIdx v) 0).tables ∧
      World lim U data pos T m₂ ∧ Spared data m.pmm m₂.pmm := by
    split
    · obtain ⟨hdirty, hmild⟩ := keepDirty_spec hworld₁ (m.tables pt (ptIdx v))
        (physOf (m.tables pt (ptIdx v)))
      exact ⟨_, rfl, rfl, hdirty, fun q g _ u _ => hmild u, keepDirty_total _ _ _⟩
    · exact ⟨_, rfl, rfl, hworld₁, .refl data m.pmm⟩
  rw [hm₂]
  have hleaf₂ : ∀ r' v', pos r' = some (r', []) → pml4Idx v' < lim → leaf m₂.tables r' v' =
      if r' = r ∧ indices v' = indices v then 0 else leaf m.tables r' v' := by
    intro r' v' hr' hv'
    rw [htables₂]
    exact hleaf₁ r' v' hr' hv'
  suffices hprune : Pruned lim U data pos m₂ (if pml4Idx v < 256 ∧ isTableEmpty m₂ pt = true then
        pruneUpper cpu (pruneTable cpu m₂ pd (pdIdx v)) r (pml4Idx v) pdpt (pdptIdx v) pd
      else m₂) by
    refine ⟨hprune.world, hspared₂.trans hprune.spared, ?_⟩
    intro r' v' hr' hv'
    rw [hprune.view r' v' hr' hv']
    exact hleaf₂ r' v' hr' hv'
  by_cases hcond : pml4Idx v < 256 ∧ isTableEmpty m₂ pt = true
  swap
  · rw [if_neg hcond]
    exact .refl hworld₂
  rw [if_pos hcond]
  obtain ⟨hworld₃, hroots₃, hview₃, hspared₃⟩ :=
    pruneTable_spec hworld₂ cpu hpd hpt (by simpa using hcond.1) hcond.2
  apply Pruned.next hroots₃ hview₃ hspared₃
  -- the tables above the page table are still there
  have hstays : ∀ {f path}, pos f = some (r, path) → path.length < 3 →
      update pos pt none f = some (r, path) := by
    intro f path hf hlen
    rw [update_of_ne, hf]
    rintro rfl
    rw [hf] at hpt
    cases hpt
    simp at hlen
  exact pruneUpper_spec hworld₃ cpu ((hroots₃ r).2 hr) hcond.1 (hstays hpdpt (by simp))
    (hstays hpd (by simp))

theorem mmuUnmapPageUnlocked_spec (hv : pml4Idx v < lim) :
    Unmapped lim U data pos m r v (mmuUnmapPageUnlocked cpu m r v).1 ∧
      (mmuUnmapPageUnlocked cpu m r v).2 = 0 := by
  unfold mmuUnmapPageUnlocked
  rcases h.walk_cases hr hv with ⟨h4, hzero⟩ | ⟨pdpt, hl4, h3 | ⟨pd, hl3, h2 | ⟨pt, hl2, hleaf⟩⟩⟩
  · rw [if_pos (not_present_of_zero h4)]
    exact ⟨.none h hzero, rfl⟩
  · rw [if_neg (not_not.2 hl4.present), if_neg (by simp [hl4.valid]), hl4.frame,
      if_pos (not_present_of_zero h3.1)]
    exact ⟨.none h h3.2, rfl⟩
  · rw [if_neg (not_not.2 hl4.present), if_neg (by simp [hl4.valid]), hl4.frame,
      if_neg (not_not.2 hl3.present), if_neg hl3.small, if_neg (by simp [hl3.valid]), hl3.frame,
      if_pos (not_present_of_zero h2.1)]
    exact ⟨.none h h2.2, rfl⟩
  · rw [if_neg (not_not.2 hl4.present), if_neg (by simp [hl4.valid]), hl4.frame,
      if_neg (not_not.2 hl3.present), if_neg hl3.small, if_neg (by simp [hl3.valid]), hl3.frame,
      if_neg (not_not.2 hl2.present), if_neg (by simp [hl2.valid]), if_neg hl2.small, hl2.frame]
    exact ⟨unmapLeaf_spec h cpu hr hl4.spot hl3.spot hl2.spot, rfl⟩

end

/-! ## Protection -/

variable (lim U data pos T m r v) in
/-- The outcome of `mmu_protect_page`: the flags of one entry have changed, or there is none. -/
def Protected (flags : BitVec 32) (m' : Mm) (ret : Int) : Prop :=
  World lim U data pos T m' ∧ Spared data m.pmm m'.pmm ∧
    ((¬ Has (leaf m.tables r v) ptPresent ∧ ret = -einval ∧ m' = m) ∨
    (Has (leaf m.tables r v) ptPresent ∧ ret = 0 ∧
      ∀ r' v', pos r' = some (r', []) → pml4Idx v' < lim → leaf m'.tables r' v' =
          if r' = r ∧ indices v' = indices v then
            (leaf m.tables r v &&& ptAddrMask) ||| mmuFlagsToPte flags
          else leaf m.tables r' v'))

include h in
theorem mmuProtectPage_spec (hr : pos r = some (r, []))
    (hv : pml4Idx v < lim) (halign : v % pageSize = 0) (flags : BitVec 32) :
    Protected lim U data pos T m r v flags (mmuProtectPage m r v flags).1
      (mmuProtectPage m r v flags).2 := by
  have hnothing : leaf m.tables r v = 0 → Protected lim U data pos T m r v flags m (-einval) :=
    fun hzero => ⟨h, .refl data m.pmm, .inl ⟨not_present_of_zero hzero, rfl, rfl⟩⟩
  unfold mmuProtectPage
  rw [if_neg (not_not.2 halign)]
  rcases h.walk_cases hr hv with ⟨h4, hzero⟩ | ⟨pdpt, hl4, h3 | ⟨pd, hl3, h2 | ⟨pt, hl2, hleaf⟩⟩⟩
  · rw [if_pos (not_present_of_zero h4)]
    exact hnothing hzero
  · rw [if_neg (not_not.2 hl4.present), hl4.frame, if_pos (.inl (not_present_of_zero h3.1))]
    exact hnothing h3.2
  · rw [if_neg (not_not.2 hl4.present), hl4.frame, if_neg (by simp [hl3.present, hl3.small]),
      hl3.frame, if_pos (not_present_of_zero h2.1)]
    exact hnothing h2.2
  · rw [if_neg (not_not.2 hl4.present), hl4.frame, if_neg (by simp [hl3.present, hl3.small]),
      hl3.frame, if_neg (not_not.2 hl2.present), if_neg hl2.small, hl2.frame]
    by_cases hpresent : Has (m.tables pt (ptIdx v)) ptPresent
    · rw [if_neg (not_not.2 hpresent)]
      obtain ⟨hworld, hview⟩ := h.store hl2.spot rfl (ptIdx v)
        ((m.tables pt (ptIdx v) &&& ptAddrMask) ||| mmuFlagsToPte flags)
      obtain ⟨hdirty, hmild⟩ := keepDirty_spec hworld (m.tables pt (ptIdx v))
        (physOf (m.tables pt (ptIdx v)))
      refine ⟨hdirty, ⟨fun q g _ u _ => hmild u, keepDirty_total _ _ _⟩, .inr ⟨?_, rfl, ?_⟩⟩
      · rw [hleaf]
        exact hpresent
      · intro r' v' hr' hv'
        rw [hleaf]
        exact hview r' v' hr' hv'
    · rw [if_pos hpresent]
      exact ⟨h, .refl data m.pmm, .inl ⟨by rw [hleaf]; exact hpresent, rfl, rfl⟩⟩

/-! ## User pages beside the page tables

The frames behind user pages come from the same allocator as the tables. Page tables stay what they
are while such a frame is allocated, gets another reference, or loses one and is returned with the
last. -/

variable {f : ℕ} {g : Grant}

include h in
theorem World.granted (hf : data f = some g) : Granted m.pmm f g := by
  obtain ⟨L, hinv⟩ := h.inv
  exact hinv.kept.granted f g (h.heldOf_data hf)

/-- A block has another number of references. -/
def regrant (data : ℕ → Option Grant) (f refs : ℕ) : ℕ → Option Grant :=
  update data f ((data f).map fun g => ⟨g.order, refs⟩)

include h

/-- The count of a page changes; only the head of a block has one that matters. -/
theorem World.setRefs (hT : f ∉ T) {refs : ℕ} (hpos : 0 < refs) (hlt : refs < 2 ^ 32) :
    World lim U (regrant data f refs) pos T
      (m.withPmm (m.pmm.setPage f { m.pmm.pages f with refcount := refs })) := by
  obtain ⟨L, hinv⟩ := h.inv
  have hflags : ∀ q ∈ T, ((m.pmm.setPage f { m.pmm.pages f with refcount := refs }).pages q).flags =
      (m.pmm.pages q).flags := by
    intro q hq
    have hne : q ≠ f := fun heq => hT (heq ▸ hq)
    exact (sameDesc_setPage m.pmm hne _).flags
  unfold regrant
  cases hf : data f with
  | none =>
    have hheld : heldOf data T f = none := by
      rw [heldOf_of_not_mem hT]
      exact hf
    rw [Option.map_none, ← hf, update_eq_self]
    exact h.reheld ⟨L, hinv.setRefs_other hheld refs⟩ rfl h.apart hflags
  | some =>
    refine h.reheld ⟨L, ?_⟩ rfl (apart_update h hT _) hflags
    rw [heldOf_update hT]
    exact hinv.setRefs (h.heldOf_data hf) hpos hlt

/-- The count of a page that the allocator does not hand out changes. -/
theorem World.setRefs_foreign (hU : f ∉ U) (refs : ℕ) :
    World lim U data pos T (m.withPmm (m.pmm.setPage f { m.pmm.pages f with refcount := refs })) ∧
      Spared data m.pmm (m.pmm.setPage f { m.pmm.pages f with refcount := refs }) := by
  have hT : f ∉ T := fun hmem => hU (h.table_usable hmem).1
  obtain ⟨L, hinv⟩ := h.inv
  have hheld : heldOf data T f = none := by
    cases hf : heldOf data T f with
    | none => rfl
    | some g => exact absurd (hinv.held_usable hf (head_mem_block g.order f)) hU
  refine ⟨h.reheld ⟨L, hinv.setRefs_other hheld refs⟩ rfl h.apart ?_, ?_, rfl⟩
  · intro q hq
    have hne : q ≠ f := fun heq => hT (heq ▸ hq)
    exact (sameDesc_setPage m.pmm hne _).flags
  · intro q g hq u hu
    apply Mild.of_same
    apply sameDesc_setPage
    rintro rfl
    exact hU (hinv.held_usable (h.heldOf_data hq) hu)

/-- A page loses a reference, and it is returned with the last one. -/
theorem World.unref (hf : data f = some g)
    (hmark : ¬ Has (m.pmm.pages f).flags pageFlagFree) (cpu : ℕ) :
    World lim U (dropRef data f) pos T (m.withPmm (pmmPageUnref m.pmm cpu f)) ∧
      Spared (update data f none) m.pmm (pmmPageUnref m.pmm cpu f) := by
  unfold pmmPageUnref
  rw [(h.granted hf).orderField]
  exact h.freeOrder hf hmark cpu

end

/-!
## Runs of Page Table Operations

The abstract side is a partial function from pages to frames and flags (`translation`), and
`PageMapStep` says what each operation means for it. The concrete side are the page tables of a
context that maps pages of 4 KiB only. Between two operations other users of the page allocator may
take and return blocks, so a table allocation may fail at any point.

One call does not respect the abstraction: `mmu_protect_page` with both `MMU_FLAG_WC` and
`MMU_FLAG_HUGE_2M` puts the caching bit of a page of 2 MiB, which is bit 12, into an entry for 4
KiB, where bit 12 belongs to the address. In runs without that call every operation is the abstract
one.
-/

/-! ## The abstract side -/

/-- The frame and the flags that a context has for a page. -/
def translation (m : Mm) (r v : ℕ) : Option (ℕ × Pte) :=
  if Has (leaf m.tables r v) ptPresent then
    some (frameOf (leaf m.tables r v), leaf m.tables r v &&& ~~~ptAddrMask)
  else none

/-- An address with equal bits from 47 up. -/
def Canonical (v : ℕ) : Prop := v < 2 ^ 47 ∨ (2 ^ 64 - 2 ^ 47 ≤ v ∧ v < 2 ^ 64)

/-- A virtual page among the governed slots of the PML4. -/
structure Page (lim v : ℕ) : Prop where
  canonical : Canonical v
  aligned : v % pageSize = 0
  governed : pml4Idx v < lim

/-- The operations on a context; in `others` the other users of the page allocator have run. -/
inductive MmuOp where
  | map (cpu virt phys : ℕ) (flags : BitVec 32)
  | unmap (cpu virt : ℕ)
  | protect (virt : ℕ) (flags : BitVec 32)
  | virtToPhys (virt : ℕ)
  | others (pmm : PmmState)

def applyMmuOp (r : ℕ) (m : Mm) : MmuOp → Option (Mm × Int)
  | .map cpu virt phys flags => mmuMapPage cpu m r virt phys flags
  | .unmap cpu virt => some (mmuUnmapPage cpu m r virt)
  | .protect virt flags => some (mmuProtectPage m r virt flags)
  | .virtToPhys virt => some (m, (mmuVirtToPhys m r virt : ℕ))
  | .others pmm => some (m.withPmm pmm, 0)

/-- What an operation means for a partial map of pages. -/
def PageMapStep (lim : ℕ) (M : ℕ → Option (ℕ × Pte)) : MmuOp → Int → (ℕ → Option (ℕ × Pte)) → Prop
  | .map _ virt phys flags, ret, M' =>
    (ret = 0 ∧ ∀ w, Page lim w → M' w =
      if w = virt then some (phys % 2 ^ 52 / pageSize, mmuFlagsToPte flags) else M w) ∨
    (ret ≠ 0 ∧ ∀ w, Page lim w → M' w = M w)
  | .unmap _ virt, ret, M' =>
    ret = 0 ∧ ∀ w, Page lim w → M' w = if w = virt then none else M w
  | .protect virt flags, ret, M' =>
    (ret = 0 ∧ ∃ f old, M virt = some (f, old) ∧ ∀ w, Page lim w → M' w =
      if w = virt then some (f, mmuFlagsToPte flags) else M w) ∨
    (ret ≠ 0 ∧ M virt = none ∧ ∀ w, Page lim w → M' w = M w)
  | .virtToPhys virt, ret, M' =>
    M' = M ∧ ret = ((match M virt with
      | none => 0
      | some (f, _) => f * pageSize + virt % pageSize : ℕ) : Int)
  | .others _, _, M' => M' = M

/-! ## Contexts -/

/-- A context with the PML4 `r` that maps pages of 4 KiB only. The frames in `T` are those that the
page allocator has given out for tables, `data` are the blocks of its other users. -/
def Context (lim : ℕ) (U : Set ℕ) (data : ℕ → Option Grant) (T : Set ℕ) (r : ℕ) (m : Mm) : Prop :=
  ∃ pos, World lim U data pos T m ∧ pos r = some (r, [])

/-- What callers promise: the addresses are pages, pages of 2 MiB are not asked for, and the other
users of the page allocator take and return blocks of their own. -/
def MmuLegal (lim : ℕ) (U : Set ℕ) (r : ℕ) (m : Mm) : MmuOp → Prop
  | .map _ virt _ flags => Page lim virt ∧ ¬ Has flags mmuFlagHuge2m
  | .unmap _ virt => Page lim virt
  | .protect virt _ => Page lim virt
  | .virtToPhys virt => Page lim virt
  | .others pmm => ∃ data data' pos T, World lim U data pos T m ∧ pos r = some (r, []) ∧
      World lim U data' pos T (m.withPmm pmm)

/-- The protection of a mapped page with the caching bit of a page of 2 MiB. -/
def HugeCaching (r : ℕ) (m : Mm) : MmuOp → Prop
  | .protect virt flags => (Has flags mmuFlagWc ∧ Has flags mmuFlagHuge2m) ∧
      (translation m r virt).isSome = true
  | _ => False

def mmuSystem (r : ℕ) (m₀ : Mm) : System Mm MmuOp where
  init m := m = m₀
  step m op m' := ∃ ret, applyMmuOp r m op = some (m', ret)

/-- An operation returns, does what it means for the partial map, and an error leaves no table
behind. -/
structure OpRefines (lim : ℕ) (U : Set ℕ) (r : ℕ) (m : Mm) (op : MmuOp) : Prop where
  returns : ∃ m' ret, applyMmuOp r m op = some (m', ret)
  effect : ∀ m' ret, applyMmuOp r m op = some (m', ret) →
    PageMapStep lim (translation m r) op ret (translation m' r)
  noLeak : ∀ m' ret, applyMmuOp r m op = some (m', ret) → (∀ v, op ≠ .virtToPhys v) → ret ≠ 0 →
    ∀ data T, Context lim U data T r m → Context lim U data T r m'

/-! ## Pages -/

variable {v virt r : ℕ} {m' : Mm}

theorem indices_inj {w : ℕ} (hv : Page lim v) (hw : Page lim w) :
    indices v = indices w ↔ v = w := by
  refine ⟨fun h => ?_, fun h => by rw [h]⟩
  have hv' := hv.aligned
  have hw' := hw.aligned
  have hvc := hv.canonical
  have hwc := hw.canonical
  simp only [indices, cons.injEq, and_true] at h
  unfold pml4Idx pdptIdx pdIdx ptIdx at h
  unfold pageSize at hv' hw'
  unfold Canonical at hvc hwc
  omega

theorem translation_congr {w : ℕ} (h : leaf m'.tables r v = leaf m.tables r w) :
    translation m' r v = translation m r w := by
  unfold translation
  rw [h]

theorem translation_entry {a flags : Pte}
    (h : leaf m.tables r v = (a &&& ptAddrMask) ||| flags) (hpresent : Has flags ptPresent)
    (hflags : flags &&& ptAddrMask = 0) : translation m r v = some (frameOf a, flags) := by
  unfold translation
  rw [h, if_pos ((has_or _ _ _).2 (.inr hpresent)), frameOf_and_or a hflags, flags_and_or a hflags]

theorem translation_none (h : ¬ Has (leaf m.tables r v) ptPresent) : translation m r v = none :=
  if_neg h

section

variable (h : World lim U data pos T m)

include h

section

variable (hr : pos r = some (r, []))

include hr

variable {flags : BitVec 32}

/-- `mmu_map_page` against the map of the pages. -/
theorem map_refines (cpu phys : ℕ) (hpage : Page lim virt) (hflags : ¬ Has flags mmuFlagHuge2m) :
    ∃ m' ret, mmuMapPage cpu m r virt phys flags = some (m', ret) ∧
      PageMapStep lim (translation m r) (.map cpu virt phys flags) ret (translation m' r) ∧
      (∃ T', Context lim U data T' r m') ∧ (ret ≠ 0 → Context lim U data T r m') := by
  by_cases hphys : phys % pageSize = 0
  · obtain ⟨m', ret, hrun, -, hmapped⟩ :=
      mmuMapPage_spec h cpu hr hpage.governed hpage.aligned hphys hflags
    refine ⟨m', ret, hrun, ?_⟩
    rcases hmapped with ⟨rfl, pos', T', hworld, hroots, hleaf⟩ | ⟨rfl, hworld, hview⟩
    · refine ⟨.inl ⟨rfl, ?_⟩, ⟨T', pos', hworld, (hroots r).2 hr⟩, fun hne => absurd rfl hne⟩
      intro w hw
      have hw' := hleaf r w hr hw.governed
      simp only [indices_inj hw hpage, true_and] at hw'
      by_cases heq : w = virt
      · rw [if_pos heq] at hw'
        rw [if_pos heq, translation_entry hw' (has_present_mmuFlagsToPte flags)
          (mmuFlagsToPte_and_addrMask fun hc => hflags hc.2), frameOf_ofNat hphys]
      · rw [if_neg heq] at hw'
        rw [if_neg heq, translation_congr hw']
    · refine ⟨.inr ⟨by decide, ?_⟩, ⟨T, pos, hworld, hr⟩, fun _ => ⟨pos, hworld, hr⟩⟩
      intro w hw
      exact translation_congr (hview r w hr hw.governed)
  · refine ⟨m, -einval, ?_, .inr ⟨by decide, fun _ _ => rfl⟩, ⟨T, pos, h, hr⟩,
      fun _ => ⟨pos, h, hr⟩⟩
    unfold mmuMapPage
    rw [if_pos (.inr hphys)]

/-- `mmu_unmap_page` against the map of the pages. -/
theorem unmap_refines (cpu : ℕ) (hpage : Page lim virt) :
    PageMapStep lim (translation m r) (.unmap cpu virt) (mmuUnmapPage cpu m r virt).2
      (translation (mmuUnmapPage cpu m r virt).1 r) ∧
      ∃ T', Context lim U data T' r (mmuUnmapPage cpu m r virt).1 := by
  unfold mmuUnmapPage
  rw [if_neg (not_not.2 hpage.aligned)]
  obtain ⟨hunmapped, hret⟩ := mmuUnmapPageUnlocked_spec h cpu hr hpage.governed
  obtain ⟨pos', T', hworld, hroots⟩ := hunmapped.world
  refine ⟨⟨hret, ?_⟩, T', pos', hworld, (hroots r).2 hr⟩
  intro w hw
  have hw' := hunmapped.leaf r w hr hw.governed
  simp only [indices_inj hw hpage, true_and] at hw'
  by_cases heq : w = virt
  · rw [if_pos heq] at hw'
    rw [if_pos heq]
    exact translation_none (not_present_of_zero hw')
  · rw [if_neg heq] at hw'
    rw [if_neg heq, translation_congr hw']

/-- `mmu_protect_page` against the map of the pages. -/
theorem protect_refines (hpage : Page lim virt) (hok : ¬ HugeCaching r m (.protect virt flags)) :
    PageMapStep lim (translation m r) (.protect virt flags) (mmuProtectPage m r virt flags).2
      (translation (mmuProtectPage m r virt flags).1 r) ∧
      Context lim U data T r (mmuProtectPage m r virt flags).1 := by
  obtain ⟨hworld, -, hcases⟩ := mmuProtectPage_spec h hr hpage.governed hpage.aligned flags
  refine ⟨?_, pos, hworld, hr⟩
  rcases hcases with ⟨habsent, hret, hsame⟩ | ⟨hpresent, hret, hleaf⟩
  · refine .inr ⟨by rw [hret]; decide, translation_none habsent, ?_⟩
    intro w _
    rw [hsame]
  · have hmapped : translation m r virt = some (frameOf (leaf m.tables r virt),
        leaf m.tables r virt &&& ~~~ptAddrMask) := if_pos hpresent
    have hflags : ¬ (Has flags mmuFlagWc ∧ Has flags mmuFlagHuge2m) :=
      fun hc => hok ⟨hc, by rw [hmapped]; rfl⟩
    refine .inl ⟨hret, _, _, hmapped, ?_⟩
    intro w hw
    have hw' := hleaf r w hr hw.governed
    simp only [indices_inj hw hpage, true_and] at hw'
    by_cases heq : w = virt
    · rw [if_pos heq] at hw'
      rw [if_pos heq, translation_entry hw' (has_present_mmuFlagsToPte flags)
        (mmuFlagsToPte_and_addrMask hflags)]
    · rw [if_neg heq] at hw'
      rw [if_neg heq, translation_congr hw']

/-- One call refines the map of the pages and keeps the context. -/
theorem mmu_step {op : MmuOp} (hlegal : MmuLegal lim U r m op) (hok : ¬ HugeCaching r m op) :
    ∃ m' ret, applyMmuOp r m op = some (m', ret) ∧
      PageMapStep lim (translation m r) op ret (translation m' r) ∧
      (∃ data' T', Context lim U data' T' r m') ∧
      ((∀ v, op ≠ .virtToPhys v) → ret ≠ 0 → Context lim U data T r m') := by
  cases op with
  | map cpu virt phys flags =>
    obtain ⟨m', ret, hrun, hstep, ⟨T', hctx⟩, herror⟩ :=
      map_refines h hr cpu phys hlegal.1 hlegal.2
    exact ⟨m', ret, hrun, hstep, ⟨data, T', hctx⟩, fun _ => herror⟩
  | unmap cpu virt =>
    obtain ⟨hstep, T', hctx⟩ := unmap_refines h hr cpu hlegal
    exact ⟨_, _, rfl, hstep, ⟨data, T', hctx⟩, fun _ hne => absurd hstep.1 hne⟩
  | protect =>
    obtain ⟨hstep, hctx⟩ := protect_refines h hr hlegal hok
    exact ⟨_, _, rfl, hstep, ⟨data, T, hctx⟩, fun _ _ => hctx⟩
  | virtToPhys virt =>
    refine ⟨m, _, rfl, ⟨rfl, ?_⟩, ⟨data, T, pos, h, hr⟩, fun hno => absurd rfl (hno virt)⟩
    rw [mmuVirtToPhys_spec h hr (Page.governed hlegal)]
    unfold translation
    split
    next => rw [physOf_eq]
    next => rfl
  | others =>
    obtain ⟨-, data', pos', T', -, hr', hworld⟩ := hlegal
    exact ⟨_, 0, rfl, rfl, ⟨data', T', pos', hworld, hr'⟩, fun _ hne => absurd rfl hne⟩

end

end

/-! ## Runs -/

/-- In every run without a protection that asks for the caching of a page of 2 MiB the operations on
a context refine those on a partial map. -/
theorem mmu_run_refines {lim : ℕ} {U : Set ℕ} {data : ℕ → Option Grant} {T : Set ℕ} {r : ℕ}
    {m₀ m : Mm} (hstart : Context lim U data T r m₀)
    (h : (mmuSystem r m₀).Reachable (fun m op => MmuLegal lim U r m op ∧ ¬ HugeCaching r m op) m)
    (op : MmuOp) (hlegal : MmuLegal lim U r m op) (hok : ¬ HugeCaching r m op) :
    OpRefines lim U r m op := by
  have hinv : ∃ data T, Context lim U data T r m := by
    apply h.invariant (I := fun m => ∃ data T, Context lim U data T r m)
    · rintro m rfl
      exact ⟨data, T, hstart⟩
    · rintro m op m' ⟨data, T, pos, hworld, hr⟩ ⟨hlegal, hok⟩ ⟨ret, hstep⟩
      obtain ⟨m₁, ret₁, hrun, -, hctx, -⟩ := mmu_step hworld hr hlegal hok
      rw [hstep] at hrun
      cases hrun
      exact hctx
  obtain ⟨data, T, pos, hworld, hr⟩ := hinv
  obtain ⟨m₁, ret₁, hrun, heffect, -, -⟩ := mmu_step hworld hr hlegal hok
  refine ⟨⟨m₁, ret₁, hrun⟩, ?_, ?_⟩
  · intro m' ret hrun'
    rw [hrun] at hrun'
    cases hrun'
    exact heffect
  · -- the tables are those of any account of the frames that fits the state before
    rintro m' ret hrun' hno hne data' T' ⟨pos', hworld', hr'⟩
    obtain ⟨m₂, ret₂, hrun₂, -, -, herror⟩ := mmu_step hworld' hr' hlegal hok
    rw [hrun'] at hrun₂
    cases hrun₂
    exact herror hno hne

/-! ## Concrete runs -/

def firstContext : Option (Mm × Option ℕ) :=
  (pmmInit twoRegions).bind fun s => mmuCreateContext 0 true ⟨fun _ _ => 0, s⟩ 0

theorem low_not_mem_twoRegions {f : ℕ} (hf : f < 4096) : f ∉ usablePages twoRegions := by
  rintro ⟨⟨region, hregion, -, hmem⟩, -⟩
  simp only [twoRegions, mem_cons, not_mem_nil, or_false] at hregion
  rcases hregion with rfl | rfl <;>
    (simp [Region.pages, pageSize] at hmem; omega)

theorem null_not_mem_twoRegions : 0 ∉ usablePages twoRegions :=
  low_not_mem_twoRegions (by decide)

theorem context_firstContext {m : Mm} {r : ℕ} (hrun : firstContext = some (m, some r)) :
    ∃ T, Context 256 (usablePages twoRegions) (fun _ => none) T r m := by
  obtain ⟨s, hinit, hcreate⟩ := bind_eq_some_iff.1 hrun
  obtain ⟨L, hinv⟩ := pmm_init bootMap_twoRegions (m := ⟨s, fun _ => none⟩) ⟨hinit, rfl⟩
  have hsize : (pmmInit twoRegions).all (fun s => decide (s.totalPageCount ≤ 2 ^ 40)) = true := by
    decide +kernel
  rw [hinit] at hsize
  have hworld := World.start 256 hinv (of_decide_eq_true hsize) null_not_mem_twoRegions
    (fun _ _ => 0)
  obtain ⟨m', r', hrun', -, -, hsome⟩ := mmuCreateContext_spec hworld (le_refl 256) 0 true 0
  rw [hcreate] at hrun'
  cases hrun'
  exact ⟨_, _, (hsome r rfl).1, Function.update_self r _ _⟩

/-- The page that the concrete runs map, in the user half. -/
theorem page_userBase : Page 256 0x400000 := by
  refine ⟨.inl ?_, ?_, ?_⟩ <;> decide

/-- The first context with the page mapped to the frame at 16 MiB. -/
def firstMapped : Option (Mm × ℕ) :=
  firstContext.bind fun (m, r) => r.bind fun r =>
    (mmuMapPage 0 m r 0x400000 0x1000000 mmuProtUser).map fun (m, _) => (m, r)

/-- The page beside it. -/
theorem page_neighbour : Page 256 0x401000 := by
  refine ⟨.inl ?_, ?_, ?_⟩ <;> decide

/-- With one page mapped, the page beside it is mapped to another frame. -/
theorem mmu_run_refines_first : ∃ m₀ m r T,
    Context 256 (usablePages twoRegions) (fun _ => none) T r m₀ ∧
    (translation m r 0x400000).map fst = some 0x1000 ∧
    OpRefines 256 (usablePages twoRegions) r m (.map 0 0x401000 0x1001000 mmuProtUser) := by
  have hfacts : firstMapped.map (fun (m, r) => (translation m r 0x400000).map fst) =
      some (some 0x1000) := by
    decide +kernel
  obtain ⟨⟨m, r⟩, hmapped, hfacts⟩ := map_eq_some_iff.1 hfacts
  obtain ⟨⟨m₀, r₀⟩, hfirst, hmapped⟩ := bind_eq_some_iff.1 hmapped
  obtain ⟨r', rfl, hmapped⟩ := bind_eq_some_iff.1 hmapped
  obtain ⟨⟨m', ret⟩, hmap, heq⟩ := map_eq_some_iff.1 hmapped
  cases heq
  obtain ⟨T, hctx⟩ := context_firstContext hfirst
  have hreach : (mmuSystem r m₀).Reachable (fun m op =>
      MmuLegal 256 (usablePages twoRegions) r m op ∧ ¬ HugeCaching r m op) m :=
    .next (.start rfl) (e := .map 0 0x400000 0x1000000 mmuProtUser)
      ⟨⟨page_userBase, by decide⟩, fun h => h⟩ ⟨ret, hmap⟩
  exact ⟨m₀, m, r, T, hctx, hfacts,
    mmu_run_refines hctx hreach _ ⟨page_neighbour, by decide⟩ (fun h => h)⟩

/-- The flags of a page of 2 MiB with write combining. -/
def wideCaching : BitVec 32 := mmuProtUser ||| mmuFlagWc ||| mmuFlagHuge2m

/-- The protection moves the page to the next frame. -/
theorem protect_moves_frame : ∃ m₀ m r T,
    Context 256 (usablePages twoRegions) (fun _ => none) T r m₀ ∧
    (mmuSystem r m₀).Reachable (MmuLegal 256 (usablePages twoRegions) r) m ∧
    MmuLegal 256 (usablePages twoRegions) r m (.protect 0x400000 wideCaching) ∧
    (translation m r 0x400000).map fst = some 0x1000 ∧
    ¬ OpRefines 256 (usablePages twoRegions) r m (.protect 0x400000 wideCaching) := by
  have hfacts : firstMapped.map (fun (m, r) =>
      ((translation m r 0x400000).map fst, (mmuProtectPage m r 0x400000 wideCaching).2,
        (translation (mmuProtectPage m r 0x400000 wideCaching).1 r 0x400000).map fst)) =
      some (some 0x1000, 0, some 0x1001) := by
    decide +kernel
  obtain ⟨⟨m, r⟩, hmapped, hfacts⟩ := map_eq_some_iff.1 hfacts
  obtain ⟨⟨m₀, r₀⟩, hfirst, hmapped⟩ := bind_eq_some_iff.1 hmapped
  obtain ⟨r', rfl, hmapped⟩ := bind_eq_some_iff.1 hmapped
  obtain ⟨⟨m', ret⟩, hmap, heq⟩ := map_eq_some_iff.1 hmapped
  cases heq
  simp only [mk.injEq] at hfacts
  obtain ⟨hbefore, hret, hafter⟩ := hfacts
  obtain ⟨T, hctx⟩ := context_firstContext hfirst
  refine ⟨m₀, m, r, T, hctx, ?_, page_userBase, hbefore, ?_⟩
  · exact .next (.start rfl) (e := .map 0 0x400000 0x1000000 mmuProtUser)
      ⟨page_userBase, by decide⟩ ⟨ret, hmap⟩
  · intro hrefines
    have hstep := hrefines.effect (mmuProtectPage m r 0x400000 wideCaching).1
      (mmuProtectPage m r 0x400000 wideCaching).2 rfl
    rcases hstep with ⟨-, f, old, hold, heffect⟩ | ⟨hne, -⟩
    · rw [hold] at hbefore
      rw [heffect _ page_userBase, if_pos rfl] at hafter
      simp only [map_some, some.injEq] at hbefore hafter
      omega
    · exact hne hret

end BoredOS.Mem.Mmu
