import BoredOS.Mem.Pmm.Zone

/-!
# Initialisation of the Page Allocator

`pmm_init` cuts every usable region, without the pages of `pages_array`, into aligned blocks that
each lie in one zone. For a boot map of disjoint and page-aligned regions the blocks then tile the
usable pages.
-/

namespace BoredOS.Mem.Pmm

open Lib.Tiling Lib.DList List Nat

/-! ## Boot maps -/

def Region.pages (r : Region) : Set ℕ :=
  {u | r.base ≤ u * pageSize ∧ u * pageSize + pageSize ≤ r.base + r.length}

/-- The regions are aligned to pages, end within the 64-bit address space and share no address. -/
structure BootMap (regions : List Region) : Prop where
  base_aligned : ∀ r ∈ regions, pageSize ∣ r.base
  length_aligned : ∀ r ∈ regions, pageSize ∣ r.length
  bounded : ∀ r ∈ regions, r.base + r.length < 2 ^ 64
  disjoint : regions.Pairwise fun r r' => ∀ addr,
    ¬ ((r.base ≤ addr ∧ addr < r.base + r.length) ∧ r'.base ≤ addr ∧ addr < r'.base + r'.length)

/-- The first page of `pages_array` and the first page behind it. -/
def arrayPfns (regions : List Region) : ℕ × ℕ :=
  ((arrayPlace regions).2 / pageSize,
    ((arrayPlace regions).2 + arraySize (maxPaddr regions / pageSize)) % 2 ^ 64 / pageSize)

/-- The pages of the usable regions that do not hold `pages_array`. -/
def usablePages (regions : List Region) : Set ℕ :=
  {u | (∃ r ∈ regions, r.type = .usable ∧ u ∈ r.pages) ∧
    ¬ ((arrayPfns regions).1 ≤ u ∧ u < (arrayPfns regions).2)}

/-! ## One block -/

variable {u endPfn arrayFirst arrayLast : ℕ} {r : Region}

theorem zoneOf_dma : zoneOf u = .dma ↔ u < 4096 := by
  unfold zoneOf paddrToZoneId pageSize
  split
  · simp only [true_iff]
    omega
  · split <;> simp <;> omega

theorem zoneOf_dma32 : zoneOf u = .dma32 ↔ 4096 ≤ u ∧ u < 1048576 := by
  unfold zoneOf paddrToZoneId pageSize
  split
  · simp
    omega
  · split <;> simp <;> omega

theorem zoneOf_normal : zoneOf u = .normal ↔ 1048576 ≤ u := by
  unfold zoneOf paddrToZoneId pageSize
  split
  · simp
    omega
  · split <;> simp <;> omega

/-- The zones follow each other by address. -/
theorem zoneOf_between {a b : ℕ} (hau : a ≤ u) (hub : u ≤ b) (h : zoneOf a = zoneOf b) :
    zoneOf u = zoneOf a := by
  cases hz : zoneOf a with
  | dma =>
    rw [hz] at h
    have hb := zoneOf_dma.1 h.symm
    exact zoneOf_dma.2 (by omega)
  | dma32 =>
    rw [hz] at h
    have ha := zoneOf_dma32.1 hz
    have hb := zoneOf_dma32.1 h.symm
    exact zoneOf_dma32.2 (by omega)
  | normal =>
    have ha := zoneOf_normal.1 hz
    exact zoneOf_normal.2 (by omega)

/-- An aligned block inside `G` and one zone. -/
structure Fitting (G : Set ℕ) (o p : ℕ) : Prop where
  order_lt : o < maxOrder
  aligned : 2 ^ o ∣ p
  inside : block o p ⊆ G
  zone : InZone (zoneOf p) o p

/-- A block of that kind that no larger one holds. -/
structure Widest (G : Set ℕ) (o p : ℕ) : Prop extends Fitting G o p where
  widest : ∀ k q, Fitting G k q → block o p ⊆ block k q → k ≤ o

theorem Fitting.mono {G : Set ℕ} {o k p : ℕ} (h : Fitting G k p) (hle : o ≤ k) : Fitting G o p := by
  have hsub : block o p ⊆ block k p := fun u hu =>
    ⟨hu.1, hu.2.trans_le (Nat.add_le_add_left (Nat.pow_le_pow_right two_pos hle) p)⟩
  exact ⟨hle.trans_lt h.order_lt, (pow_dvd_pow 2 hle).trans h.aligned, hsub.trans h.inside,
    fun u hu => h.zone u (hsub hu)⟩

theorem last_mem_block (o p : ℕ) : p + 2 ^ o - 1 ∈ block o p := by
  have := Nat.two_pow_pos o
  rw [mem_block]
  omega

theorem Fitting.end_le {first o p : ℕ} (h : Fitting (Set.Ico first endPfn) o p) :
    p + 2 ^ o ≤ endPfn := by
  have := (h.inside (last_mem_block o p)).2
  omega

/-- The block that `ingest_usable_range` takes next is the largest that fits there. -/
theorem growOrder_spec {first curr : ℕ} (hfirst : first ≤ curr) : ∀ fuel o,
    maxOrder ≤ o + fuel + 1 → Fitting (Set.Ico first endPfn) o curr →
    Fitting (Set.Ico first endPfn) (growOrder curr endPfn fuel o) curr ∧
      ∀ k, Fitting (Set.Ico first endPfn) k curr → k ≤ growOrder curr endPfn fuel o := by
  intro fuel
  induction fuel with
  | zero =>
    intro o hfuel h
    refine ⟨h, fun k hk => ?_⟩
    have := hk.order_lt
    exact Nat.lt_succ_iff.1 (this.trans_le hfuel)
  | succ fuel ih =>
    intro o hfuel h
    -- the loop stops if the block of the next order does not fit
    have hstop : ¬ Fitting (Set.Ico first endPfn) (o + 1) curr →
        ∀ k, Fitting (Set.Ico first endPfn) k curr → k ≤ o :=
      fun hnot k hk => not_lt.1 fun hlt => hnot (hk.mono hlt)
    unfold growOrder
    split
    next hmore =>
      dsimp only
      split
      next hbad =>
        refine ⟨h, hstop fun hnext => ?_⟩
        obtain hodd | hend := hbad
        · exact hodd (mod_eq_zero_of_dvd hnext.aligned)
        · exact absurd hnext.end_le (not_le.2 hend)
      next hfit =>
        split
        next hother =>
          exact ⟨h, hstop fun hnext => hother (hnext.zone _ (last_mem_block (o + 1) curr)).symm⟩
        next hsame =>
          rw [not_or, not_not] at hfit
          rw [not_not] at hsame
          refine ih (o + 1) (by omega) ⟨by omega, dvd_of_mod_eq_zero hfit.1, ?_, ?_⟩
          · intro u hu
            rw [mem_block] at hu
            exact ⟨hfirst.trans hu.1, by omega⟩
          · intro u hu
            rw [mem_block] at hu
            exact zoneOf_between hu.1 (by omega) hsame
    next hlast =>
      refine ⟨h, hstop fun hnext => hlast ?_⟩
      have := hnext.order_lt
      omega

/-- A block that is widest in a run of pages is widest in every set in which the run is cut out. -/
theorem Widest.of_run {G : Set ℕ} {a b o p : ℕ} (h : Widest (Set.Ico a b) o p)
    (hsub : ∀ u, a ≤ u → u < b → u ∈ G) (hbefore : ∀ u, u + 1 = a → u ∉ G) (hbehind : b ∉ G) :
    Widest G o p := by
  refine ⟨⟨h.order_lt, h.aligned, fun u hu => hsub u (h.inside hu).1 (h.inside hu).2, h.zone⟩, ?_⟩
  intro k q hk hmem
  obtain ⟨hq, hpq⟩ := hmem (head_mem_block o p)
  obtain ⟨hap, hpb⟩ := h.inside (head_mem_block o p)
  refine h.widest k q { hk with inside := fun u hu => ⟨?_, ?_⟩ } hmem
  · -- the page before the run would be in the block too
    by_contra hlt
    exact hbefore (a - 1) (by omega) (hk.inside (by rw [mem_block] at hu ⊢; omega))
  · by_contra hle
    exact hbehind (hk.inside (by rw [mem_block] at hu ⊢; omega))

section

variable {U : Set ℕ} {s : PmmState} {L : FreeLists}

/-- New pages come into the hand. -/
theorem Core.addHand {X : Set Place} (h : Core U X s L) {o p : ℕ}
    (hnew : ∀ u ∈ block o p, u ∉ U) (hbelow : ∀ u ∈ block o p, u < s.totalPageCount) :
    Core (U ∪ block o p) (withHand X o p) s L := by
  refine { h with
    tiles := (h.tiles.add (a := Place.mk .hand o p) hnew).congr fun a => or_assoc.symm
    offList := ?_
    reserved := fun u hu => h.reserved u fun hU => hu (.inl hU)
    below := fun u hu => hu.elim (h.below u) (hbelow u) }
  rintro a (ha | rfl) z
  · exact h.offList a ha z
  · exact fun heq => by cases heq

/-- What does not change while regions are ingested. -/
structure Booting (s s' : PmmState) : Prop where
  total : s'.totalPageCount = s.totalPageCount
  pools : s'.pcpPools = s.pcpPools
  ready : s'.smpReady = s.smpReady

theorem Booting.trans {s₁ s₂ s₃ : PmmState} (h : Booting s₁ s₂) (h' : Booting s₂ s₃) :
    Booting s₁ s₃ :=
  ⟨h'.total.trans h.total, h'.pools.trans h.pools, h'.ready.trans h.ready⟩

/-- The counters are right, and the blocks on the lists have a property. -/
structure Filled (Q : ℕ → ℕ → Prop) (s : PmmState) (L : FreeLists) : Prop where
  counted : Counted s L
  blocks : ∀ z o, ∀ p ∈ L z o, Q o p

/-- The pages `U` have been ingested since `s₀`. -/
abbrev Ingested (Q : ℕ → ℕ → Prop) (s₀ : PmmState) (U : Set ℕ) (s : PmmState) : Prop :=
  ∃ L, Core U ∅ s L ∧ Filled Q s L ∧ Booting s₀ s

variable {Q : ℕ → ℕ → Prop} {s₀ : PmmState}

theorem Ingested.congr {V : Set ℕ} (h : Ingested Q s₀ U s) (hset : ∀ u, u ∈ V ↔ u ∈ U) :
    Ingested Q s₀ V s := by
  rwa [Set.ext hset]

theorem addFreeBlock_spec (hin : Ingested Q s₀ U s) {o p : ℕ} (hnew : ∀ u ∈ block o p, u ∉ U)
    (hbelow : p + 2 ^ o ≤ s₀.totalPageCount) (hlt : o < maxOrder) (hdvd : 2 ^ o ∣ p)
    (hzone : InZone (zoneOf p) o p) (hQ : Q o p) :
    Ingested Q s₀ (U ∪ block o p) (addFreeBlock s p o) := by
  obtain ⟨L, h, hcount, hboot⟩ := hin
  rw [← hboot.total] at hbelow
  have hput := (h.addHand hnew fun u hu => hu.2.trans_le hbelow).putOn (z := zoneOf p) (o := o)
    (p := p) (a := .mk .hand o p) (.inr rfl) rfl rfl (v := (s.pages p).asFree o) rfl rfl hlt
    hdvd hzone
  set s' := putOn s (zoneOf p) o p ((s.pages p).asFree o)
  have honly := linksOnly_listAddHead (s.setPage p ((s.pages p).asFree o)) (zoneOf p) o p
  have hrun : addFreeBlock s p o =
      { s'.setFreePages (zoneOf p) ((s'.zones (zoneOf p)).freePages + 2 ^ o)
        with usablePageCount := s'.usablePageCount + 2 ^ o } := by
    unfold addFreeBlock pfnToPage
    rw [if_neg (by omega)]
    dsimp only
    rw [h.zones]
    rfl
  rw [hrun]
  refine ⟨L.set (zoneOf p) o (p :: L (zoneOf p) o), ?_, ⟨?_, ?_⟩, ?_⟩
  · have hempty : Core (U ∪ block o p) ∅ s' (L.set (zoneOf p) o (p :: L (zoneOf p) o)) := by
      apply hput.congrSet
      intro a
      constructor
      · exact fun ha => ha.elim
      · rintro ⟨ha | ha, hne⟩
        · exact ha
        · exact absurd ha hne
    exact hempty.congr rfl (fun z => PmmState.freeLists_setFreePages _ _ z _) rfl
  · have hpages : ∀ z, (s'.zones z).freePages = listed L z :=
      fun z => (honly.freePages z).trans (hcount.counted z)
    intro z
    rw [PmmState.freePages_setFreePages]
    by_cases hz : z = zoneOf p
    · subst hz
      rw [if_pos rfl, listed_cons L _ hlt, hpages]
    · rw [if_neg hz, hpages, listed_set_other L _ _ hz]
  · intro z k q hq
    by_cases hzk : z = zoneOf p ∧ k = o
    · obtain ⟨rfl, rfl⟩ := hzk
      rw [FreeLists.set_same] at hq
      obtain rfl | hq := mem_cons.1 hq
      · exact hQ
      · exact hcount.blocks _ _ q hq
    · rw [FreeLists.set_other L _ hzk] at hq
      exact hcount.blocks z k q hq
  · exact hboot.trans ⟨honly.total, honly.pools, honly.ready⟩

theorem Ingested.addNone (h : Ingested Q s₀ U s) {first last : ℕ} (hdone : last ≤ first) :
    Ingested Q s₀ (U ∪ Set.Ico first last) s :=
  h.congr fun _ => or_iff_left fun hu => absurd (hu.1.trans_lt hu.2) (not_lt.2 hdone)

/-- The pages of the range join the usable ones, in blocks that are widest in the range: a block
that fits in the range and holds the cursor starts there. -/
theorem ingestLoop_spec {first : ℕ} (hQ : ∀ o p, Widest (Set.Ico first endPfn) o p → Q o p)
    (htotal : endPfn ≤ s₀.totalPageCount) :
    ∀ (fuel curr : ℕ) {U : Set ℕ} {s : PmmState}, endPfn ≤ curr + fuel → first ≤ curr →
    (∀ k q, Fitting (Set.Ico first endPfn) k q → curr ∈ block k q → q = curr) →
    (∀ u ∈ Set.Ico curr endPfn, u ∉ U) → Ingested Q s₀ U s →
    Ingested Q s₀ (U ∪ Set.Ico curr endPfn) (ingestLoop endPfn fuel curr s) := by
  intro fuel
  induction fuel with
  | zero =>
    intro curr U s hfuel _ _ _ h
    exact h.addNone hfuel
  | succ fuel ih =>
    intro curr U s hfuel hfirst hcurr hnew h
    unfold ingestLoop
    split
    next hmore =>
      have hone : ∀ u ∈ block 0 curr, u = curr := fun u hu => by rw [mem_block] at hu; omega
      obtain ⟨hfit, hbest⟩ := growOrder_spec hfirst maxOrder 0 (by omega) ⟨by decide, one_dvd curr,
        fun u hu => by rw [hone u hu]; exact ⟨hfirst, hmore⟩, fun u hu => by rw [hone u hu]⟩
      generalize growOrder curr endPfn maxOrder 0 = o at hfit hbest
      have hend := hfit.end_le
      have hpos := Nat.two_pow_pos o
      have hadded := addFreeBlock_spec h
        (fun u hu => hnew u ⟨hu.1, by have := hu.2; omega⟩) (by omega) hfit.order_lt hfit.aligned
        hfit.zone (hQ o curr { hfit with
          widest := fun k q hk hsub => hbest k (hcurr k q hk (hsub (head_mem_block o curr)) ▸ hk) })
      -- a block that holds the next position inside would hold this one, or lie in the new block
      have hnext : ∀ k q, Fitting (Set.Ico first endPfn) k q → curr + 2 ^ o ∈ block k q →
          q = curr + 2 ^ o := by
        intro k q hk hmem
        by_contra hne
        have hq : q < curr + 2 ^ o := lt_of_le_of_ne hmem.1 hne
        have hlast := hmem.2
        rcases lt_or_ge curr q with hgt | hle
        · rcases le_total k o with hko | hok
          · have hdvd := pow_dvd_pow 2 hko
            exact hne (eq_head_of_dvd hk.aligned
              (Nat.dvd_add (hdvd.trans hfit.aligned) hdvd) hmem).symm
          · have := eq_head_of_dvd hfit.aligned ((pow_dvd_pow 2 hok).trans hk.aligned) ⟨hgt.le, hq⟩
            omega
        · obtain rfl := hcurr k q hk ⟨hle, by omega⟩
          have := Nat.pow_le_pow_right two_pos (hbest k hk)
          omega
      have hrest := ih (curr + 2 ^ o) (by omega) (by omega) hnext (by
        rintro u ⟨hle, hend'⟩ (hu | hu)
        · exact hnew u ⟨by omega, hend'⟩ hu
        · exact absurd hu.2 (by omega)) hadded
      refine hrest.congr fun u => ?_
      rw [Set.union_assoc]
      refine or_congr_right ?_
      simp only [Set.mem_union, Set.mem_Ico, mem_block]
      omega
    next hdone => exact h.addNone (not_lt.1 hdone)

section

variable {first last : ℕ} (h : Ingested Q s₀ U s)
  (hQ : ∀ o p, Widest (Set.Ico first last) o p → Q o p) (htotal : last ≤ s₀.totalPageCount)
  (hnew : ∀ u ∈ Set.Ico first last, u ∉ U)

include h hQ htotal hnew

theorem ingestUsableRange_spec : Ingested Q s₀ (U ∪ Set.Ico first last)
    (ingestUsableRange s (first * pageSize) (last * pageSize)) := by
  unfold ingestUsableRange
  rw [Nat.mul_div_cancel _ (by decide), Nat.mul_div_cancel _ (by decide)]
  exact ingestLoop_spec hQ htotal (last - first) first (by omega) (le_refl first)
    (fun k q hk hmem => le_antisymm hmem.1 (hk.inside (head_mem_block k q)).1) hnew h

theorem ingest_if_spec : Ingested Q s₀ (U ∪ Set.Ico first last)
    (if first < last then ingestUsableRange s (first * pageSize) (last * pageSize) else s) := by
  split
  next => exact ingestUsableRange_spec h hQ htotal hnew
  next hdone => exact h.addNone (not_lt.1 hdone)

end

end

/-! ## All regions -/

/-- What `pmm_init` reads of an aligned region. -/
theorem Region.aligned_ends (hbase : pageSize ∣ r.base) (hlength : pageSize ∣ r.length)
    (hbound : r.base + r.length < 2 ^ 64) :
    ∃ first last, first ≤ last ∧ alignUp r.base = first * pageSize ∧
      r.top / pageSize * pageSize = last * pageSize ∧ r.top = last * pageSize ∧
      ∀ u, u ∈ r.pages ↔ first ≤ u ∧ u < last := by
  obtain ⟨first, hfirst⟩ := hbase
  obtain ⟨count, hcount⟩ := hlength
  have hlast : r.top = (first + count) * pageSize := by
    unfold Region.top
    rw [mod_eq_of_lt hbound, hfirst, hcount, add_mul, mul_comm pageSize, mul_comm pageSize]
  refine ⟨first, first + count, le_add_right _ _, ?_, ?_, hlast, ?_⟩
  · unfold alignUp
    unfold pageSize at hfirst ⊢
    omega
  · rw [hlast, Nat.mul_div_cancel _ (by decide)]
  · intro u
    unfold Region.pages
    rw [hfirst, hcount]
    simp only [Set.mem_ofPred_eq]
    unfold pageSize
    omega

/-- The pages that a region gives to the allocator. -/
def Region.given (arrayFirst arrayLast : ℕ) (r : Region) : Set ℕ :=
  {u | r.type = .usable ∧ u ∈ r.pages ∧ ¬ (arrayFirst ≤ u ∧ u < arrayLast)}

section

variable {U : Set ℕ} {s s₀ : PmmState} {Q : ℕ → ℕ → Prop}

theorem ingestRegion_spec (hQ : ∀ o p, Widest (r.given arrayFirst arrayLast) o p → Q o p)
    (harray : arrayFirst < arrayLast) (hbase : pageSize ∣ r.base)
    (hlength : pageSize ∣ r.length) (hbound : r.base + r.length < 2 ^ 64)
    (htotal : r.type = .usable → r.top / pageSize ≤ s₀.totalPageCount)
    (h : Ingested Q s₀ U s) (hnew : ∀ u ∈ r.given arrayFirst arrayLast, u ∉ U) :
    Ingested Q s₀ (U ∪ r.given arrayFirst arrayLast) (ingestRegion arrayFirst arrayLast s r) := by
  obtain ⟨first, last, hle, hstart, hend, htop, hpages⟩ :=
    Region.aligned_ends hbase hlength hbound
  -- the pages of the region as a range
  have hgiven : ∀ u, u ∈ r.given arrayFirst arrayLast ↔
      r.type = .usable ∧ (first ≤ u ∧ u < last) ∧ ¬ (arrayFirst ≤ u ∧ u < arrayLast) :=
    fun u => and_congr_right fun _ => and_congr_left fun _ => hpages u
  unfold ingestRegion
  by_cases husable : r.type = .usable
  · have hnew' : ∀ u, first ≤ u → u < last → ¬ (arrayFirst ≤ u ∧ u < arrayLast) → u ∉ U :=
      fun u hl hr hout => hnew u ((hgiven u).2 ⟨husable, ⟨hl, hr⟩, hout⟩)
    have htotal' : last ≤ s₀.totalPageCount := by
      have := htotal husable
      rwa [htop, Nat.mul_div_cancel _ (by decide)] at this
    have hpos : 0 < pageSize := by decide
    -- each range is cut out of what the region gives
    have hrange : ∀ a b, first ≤ a → b ≤ last → (b ≤ arrayFirst ∨ arrayLast ≤ a) →
        (a = first ∨ a = arrayLast) → (b = last ∨ b = arrayFirst) → ∀ o p,
        Widest (Set.Ico a b) o p → Q o p := by
      intro a b ha hb hout hlow hhigh o p hw
      refine hQ o p (hw.of_run ?_ ?_ ?_)
      · exact fun u hau hub => (hgiven u).2 ⟨husable, by omega, by omega⟩
      · intro u hu hmem
        have := (hgiven u).1 hmem
        omega
      · intro hmem
        have := (hgiven b).1 hmem
        omega
    rw [if_neg (not_not.2 husable)]
    dsimp only
    rw [hstart, hend, Nat.mul_div_cancel _ hpos, Nat.mul_div_cancel _ hpos]
    by_cases hempty : last * pageSize ≤ first * pageSize
    · -- a region without pages
      have heq : last ≤ first := le_of_mul_le_mul_right hempty hpos
      rw [if_pos hempty]
      refine h.congr fun u => or_iff_left ?_
      rw [hgiven u]
      omega
    · rw [if_neg hempty]
      by_cases hapart : last ≤ arrayFirst ∨ first ≥ arrayLast
      · rw [if_pos hapart]
        have hall := ingestUsableRange_spec h
          (hrange first last (by omega) (by omega) (by omega) (.inl rfl) (.inl rfl)) htotal'
          fun u ⟨hl, hr⟩ => hnew' u hl hr (by omega)
        refine hall.congr fun u => or_congr_right ?_
        rw [hgiven u, Set.mem_Ico]
        constructor <;> grind
      · -- `pages_array` cuts the region in two
        rw [if_neg hapart]
        have hlow : Ingested Q s₀ (U ∪ Set.Ico first arrayFirst) _ := ingest_if_spec h
          (hrange _ _ (by omega) (by omega) (by omega) (.inl rfl) (.inr rfl)) (by omega)
          fun u ⟨hl, hr⟩ => hnew' u hl (by omega) (by omega)
        have hhigh : Ingested Q s₀ (_ ∪ Set.Ico arrayLast last) _ := ingest_if_spec hlow
          (hrange _ _ (by omega) (by omega) (by omega) (.inr rfl) (.inl rfl)) htotal' (by
            rintro u ⟨hl, hr⟩ (hu | hu)
            · exact hnew' u (by omega) hr (by omega) hu
            · have := hu.2
              omega)
        refine hhigh.congr fun u => ?_
        rw [Set.union_assoc]
        refine or_congr_right ?_
        simp only [hgiven u, Set.mem_union, Set.mem_Ico]
        constructor <;> grind
  · rw [if_pos husable]
    exact h.congr fun u => or_iff_left fun hu => husable hu.1

theorem ingestRegions_spec (harray : arrayFirst < arrayLast) (regions : List Region) :
    ∀ {U : Set ℕ} {s : PmmState}, BootMap regions →
    (∀ r ∈ regions, ∀ o p, Widest (r.given arrayFirst arrayLast) o p → Q o p) →
    (∀ r ∈ regions, r.type = .usable → r.top / pageSize ≤ s₀.totalPageCount) →
    (∀ r ∈ regions, ∀ u ∈ r.given arrayFirst arrayLast, u ∉ U) → Ingested Q s₀ U s →
    Ingested Q s₀ (U ∪ {u | ∃ r ∈ regions, u ∈ r.given arrayFirst arrayLast})
      (regions.foldl (ingestRegion arrayFirst arrayLast) s) := by
  induction regions with
  | nil =>
    intro U s _ _ _ _ h
    exact h.congr fun u => or_iff_left fun ⟨r, hr, _⟩ => absurd hr not_mem_nil
  | cons r regions ih =>
    intro U s hmap hQ htotal hnew h
    have hr : r ∈ r :: regions := mem_cons_self
    have hrest : ∀ r' ∈ regions, r' ∈ r :: regions := fun _ => mem_cons_of_mem r
    have hfirst := ingestRegion_spec (hQ r hr) harray (hmap.base_aligned r hr)
      (hmap.length_aligned r hr) (hmap.bounded r hr) (htotal r hr) h (hnew r hr)
    have hpair := pairwise_cons.1 hmap.disjoint
    have hall := ih ⟨fun r' hr' => hmap.base_aligned r' (hrest r' hr'),
        fun r' hr' => hmap.length_aligned r' (hrest r' hr'),
        fun r' hr' => hmap.bounded r' (hrest r' hr'), hpair.2⟩
      (fun r' hr' => hQ r' (hrest r' hr')) (fun r' hr' => htotal r' (hrest r' hr'))
      (by
        rintro r' hr' u hu (hU | hU)
        · exact hnew r' (hrest r' hr') u hu hU
        · -- a page of two regions would be an address of both
          obtain ⟨-, ⟨hlo, hhi⟩, -⟩ := hU
          obtain ⟨-, ⟨hlo', hhi'⟩, -⟩ := hu
          have hpos : 0 < pageSize := by decide
          exact hpair.1 r' hr' (u * pageSize) ⟨⟨hlo, by omega⟩, hlo', by omega⟩)
      hfirst
    refine hall.congr fun u => ?_
    simp only [Set.mem_union, Set.mem_ofPred_eq, or_assoc, exists_mem_cons_iff]

end

/-! ## `pmm_init` -/

/-- No usable region ends behind `max_paddr`. -/
theorem top_le_maxPaddr (regions : List Region) (hr : r ∈ regions)
    (husable : r.type = .usable) : r.top ≤ maxPaddr regions := by
  -- the maximum so far only grows
  have hgrow : ∀ (rs : List Region) (m : ℕ), m ≤ rs.foldl
      (fun m r => if r.type = .usable ∧ r.top > m then r.top else m) m := by
    intro rs
    induction rs with
    | nil => exact fun m => le_refl m
    | cons r' rs ih =>
      intro m
      rw [foldl_cons]
      refine le_trans ?_ (ih _)
      split <;> omega
  obtain ⟨before, after, rfl⟩ := append_of_mem hr
  unfold maxPaddr
  rw [foldl_append, foldl_cons]
  refine le_trans ?_ (hgrow _ _)
  split
  next => exact le_refl _
  next hle => exact not_lt.1 fun hgt => hle ⟨husable, hgt⟩

/-- `pages_array` is placed at the start of a usable region. -/
theorem arrayPlace_spec (regions : List Region) : arrayPlace regions = (0, 0) ∨
    ∃ r ∈ regions, r.type = .usable ∧ 0 < r.length ∧
      arrayPlace regions = (r.length, alignUp r.base) := by
  induction regions using List.reverseRecOn with
  | nil => exact .inl rfl
  | append_singleton regions r ih =>
    unfold arrayPlace at ih ⊢
    rw [foldl_concat]
    split
    next hlonger =>
      exact .inr ⟨r, mem_append_right _ mem_cons_self, hlonger.1, zero_lt_of_lt hlonger.2, rfl⟩
    next =>
      rcases ih with ih | ⟨r', hr', ih⟩
      · exact .inl ih
      · exact .inr ⟨r', mem_append_left _ hr', ih⟩

/-- `pages_array` lies in one usable region. -/
def ArrayInside (regions : List Region) : Prop :=
  ∃ r ∈ regions, r.type = .usable ∧ r.base ≤ (arrayPlace regions).2 ∧
    (arrayPlace regions).2 + arraySize (maxPaddr regions / pageSize) ≤ r.base + r.length

/-- A block that is widest in what one of the regions gives. -/
def WidestGiven (regions : List Region) (o p : ℕ) : Prop :=
  ∃ r ∈ regions, Widest (r.given (arrayPfns regions).1 (arrayPfns regions).2) o p

variable {regions : List Region}

/-- If `pmm_init` does not return early, `pages_array` has at least a page and its region holds
it. -/
theorem arrayPlace_inside (hmap : BootMap regions) (hpaddr : (arrayPlace regions).2 ≠ 0)
    (hfits : ¬ (arrayPlace regions).1 < arraySize (maxPaddr regions / pageSize)) :
    (arrayPfns regions).1 < (arrayPfns regions).2 ∧ ArrayInside regions := by
  obtain heq | ⟨r, hr, husable, hlength, heq⟩ := arrayPlace_spec regions
  · rw [heq] at hpaddr
    exact absurd rfl hpaddr
  have hbase := hmap.base_aligned r hr
  have hbound := hmap.bounded r hr
  have hstart : alignUp r.base = r.base := by
    unfold alignUp pageSize at *
    omega
  have hsize : pageSize ≤ arraySize (maxPaddr regions / pageSize) := by
    have haligned := le_of_dvd hlength (hmap.length_aligned r hr)
    have htop := top_le_maxPaddr regions hr husable
    rw [Region.top, mod_eq_of_lt hbound] at htop
    unfold arraySize sizeofPage pageSize at *
    omega
  unfold arrayPfns ArrayInside
  rw [heq] at hfits ⊢
  dsimp only at hfits ⊢
  rw [hstart]
  refine ⟨?_, r, hr, husable, le_refl _, by omega⟩
  rw [mod_eq_of_lt (by omega)]
  unfold pageSize at *
  omega

theorem core_reservedPmm (total : ℕ) :
    Core ∅ ∅ (reservedPmm total) (fun _ _ => []) ∧ Counted (reservedPmm total) (fun _ _ => []) := by
  refine ⟨⟨fun _ _ => .nil, ?_, fun _ ha => ha.elim, ?_, fun _ _ => ?_, fun _ => rfl,
    fun _ hu => hu.elim⟩, fun _ => ?_⟩
  · have hempty : Tiles Place.extent ∅ ∅ := .empty
    apply hempty.congr
    rintro a
    constructor
    · rintro (⟨z, -, hmem⟩ | ha)
      · exact absurd hmem not_mem_nil
      · exact ha
    · exact fun ha => ha.elim
  · exact fun _ _ _ hmem => absurd hmem not_mem_nil
  · show pageFlagReserved &&& pageFlagFree = 0
    decide
  · show 0 = listed _ _
    unfold listed
    simp

/-- After `pmm_init` the blocks on the lists tile the usable pages. -/
theorem pmmInit_spec (hmap : BootMap regions) {s : PmmState} (hrun : pmmInit regions = some s) :
    ∃ L, Core (usablePages regions) ∅ s L ∧ Filled (WidestGiven regions) s L ∧
      (∀ cpu, s.pcpPools cpu = []) ∧ ArrayInside regions := by
  unfold pmmInit at hrun
  dsimp only at hrun
  split at hrun
  next => cases hrun
  next hplace =>
    rw [not_or, not_or] at hplace
    obtain ⟨harray, hinside⟩ := arrayPlace_inside hmap hplace.2.1 hplace.2.2
    obtain ⟨hcore₀, hcount₀⟩ := core_reservedPmm (maxPaddr regions / pageSize)
    have hall := ingestRegions_spec harray regions hmap (Q := WidestGiven regions)
      (fun r hr _ _ hw => ⟨r, hr, hw⟩)
      (fun r hr husable => Nat.div_le_div_right (top_le_maxPaddr regions hr husable))
      (fun _ _ _ _ hu => hu.elim)
      ⟨_, hcore₀, ⟨hcount₀, fun _ _ _ hp => absurd hp not_mem_nil⟩, rfl, rfl, rfl⟩
    cases hrun
    obtain ⟨L, hcore, hcount, hboot⟩ := hall.congr (V := usablePages regions) fun u => by
      constructor
      · rintro ⟨⟨r, hr, husable, hu⟩, hout⟩
        exact .inr ⟨r, hr, husable, hu, hout⟩
      · rintro (hu | ⟨r, hr, husable, hu, hout⟩)
        · exact hu.elim
        · exact ⟨⟨r, hr, husable, hu⟩, hout⟩
    exact ⟨L, hcore, hcount, fun cpu => congrFun hboot.pools cpu, hinside⟩

/-- `pages_array` lies in a usable region, and the blocks on the free lists tile the other usable
pages, each in one zone and widest in what its region gives. -/
theorem boot_ingestion_exact {regions : List Region} (hmap : BootMap regions) {s : PmmState}
    (hrun : pmmInit regions = some s) :
    ArrayInside regions ∧ ∃ L : FreeLists,
      (∀ z o, Dll (fun p => (s.pages p).freeNext) (fun p => (s.pages p).freePrev)
        ((s.zones z).freeLists o) (L z o)) ∧
      Tiles Place.extent {a | OnList L a} (usablePages regions) ∧
      ∀ z o, ∀ p ∈ L z o, InZone z o p ∧ WidestGiven regions o p := by
  obtain ⟨L, hcore, hfilled, -, hinside⟩ := pmmInit_spec hmap hrun
  refine ⟨hinside, L, hcore.dll, hcore.tiles.congr fun a => (or_iff_left id).symm, ?_⟩
  exact fun z o p hp => ⟨(hcore.heads z o p hp).2.2.2, hfilled.blocks z o p hp⟩

/-- 64 MiB below 4 GiB, which hold `pages_array`, and 64 pages of `ZONE_NORMAL`. -/
def twoRegions : List Region :=
  [⟨0x1000000, 0x4000000, .usable⟩, ⟨0x100000000, 0x40000, .usable⟩]

theorem bootMap_twoRegions : BootMap twoRegions := by
  refine ⟨by decide +kernel, by decide +kernel, by decide +kernel, ?_⟩
  unfold twoRegions
  simp only [pairwise_cons, mem_singleton, forall_eq, not_mem_nil, false_implies,
    implies_true, List.Pairwise.nil, and_true]
  omega

theorem boot_ingestion_exact_two : ∃ s L, pmmInit twoRegions = some s ∧
    (s.zones .normal).freeLists 6 = some 0x100000 ∧
    Tiles Place.extent {a | OnList L a} (usablePages twoRegions) := by
  have hlist : (pmmInit twoRegions).any
      (fun s => decide ((s.zones .normal).freeLists 6 = some 0x100000)) = true := by
    decide +kernel
  obtain ⟨s, hrun, hhead⟩ := (Option.any_eq_true _ _).1 hlist
  obtain ⟨-, L, -, htiles, -⟩ := boot_ingestion_exact bootMap_twoRegions hrun
  exact ⟨s, L, hrun, of_decide_eq_true hhead, htiles⟩

end BoredOS.Mem.Pmm
