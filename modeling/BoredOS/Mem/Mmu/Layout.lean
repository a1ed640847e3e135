import BoredOS.Mem.Mmu.Model

/-!
# The Bits of an Entry

An entry keeps a frame number in bits 12 to 51 and flags outside of them. The lemmas here read the
frame and the flags back from the entries that `mem/mmu.c` writes.
-/

namespace BoredOS.Mem.Mmu

open Pmm List Nat
open BitVec (eq_of_getLsbD_eq getLsbD_and getLsbD_ofNat)

/-! ## Tests of flags -/

theorem not_has_zero (mask : Pte) : ¬ Has (0 : Pte) mask := by
  unfold Has
  simp

variable {w f : ℕ} {flags mask : Pte}

theorem or_and_distrib (a b mask : BitVec w) :
    (a ||| b) &&& mask = (a &&& mask) ||| (b &&& mask) := by
  ext i
  simp [Bool.and_or_distrib_right]

theorem has_or (a b mask : BitVec w) : Has (a ||| b) mask ↔ Has a mask ∨ Has b mask := by
  unfold Has
  rw [or_and_distrib]
  constructor
  · intro h
    by_contra hnone
    rw [not_or, not_not, not_not] at hnone
    apply h
    rw [hnone.1, hnone.2]
    simp
  · intro h hzero
    have hboth := BitVec.or_eq_zero_iff.1 hzero
    rcases h with h | h
    · exact h hboth.1
    · exact h hboth.2

theorem has_and (e keep mask : BitVec w) (hsub : keep &&& mask = mask) :
    Has (e &&& keep) mask ↔ Has e mask := by
  unfold Has
  rw [BitVec.and_assoc, hsub]

theorem not_has_and (e keep mask : BitVec w) (hdisj : keep &&& mask = 0) :
    ¬ Has (e &&& keep) mask := by
  unfold Has
  rw [BitVec.and_assoc, hdisj]
  simp

/-- Clearing bits that are not set changes nothing. -/
theorem and_not_of_and_eq_zero {e mask : BitVec w} (h : e &&& mask = 0) : e &&& ~~~mask = e := by
  apply eq_of_getLsbD_eq
  intro i hi
  have hbit : (e &&& mask).getLsbD i = false := by
    rw [h]
    simp
  rw [getLsbD_and] at hbit
  rw [getLsbD_and, BitVec.getLsbD_not]
  cases he : e.getLsbD i with
  | false => rfl
  | true =>
    rw [he, Bool.true_and] at hbit
    rw [hbit]
    simp [hi]

/-! ## Frames -/

theorem ptAddrMask_bit (i : ℕ) : ptAddrMask.getLsbD i = decide (12 ≤ i ∧ i < 52) := by
  rcases Nat.lt_or_ge i 64 with hlt | hge
  · have hall : ∀ j < 64, ptAddrMask.getLsbD j = decide (12 ≤ j ∧ j < 52) := by decide
    exact hall i hlt
  · rw [BitVec.getLsbD_of_ge _ _ hge]
    simp
    omega

/-- The address in an entry is that of its frame. -/
theorem physOf_eq (e : Pte) : physOf e = frameOf e * pageSize := by
  have hmod : physOf e % pageSize = 0 := by
    unfold physOf ptAddrMask pageSize
    show (e.toNat &&& _) % 2 ^ 12 = 0
    rw [Nat.and_mod_two_pow]
    simp
  exact (Nat.div_mul_cancel (Nat.dvd_of_mod_eq_zero hmod)).symm

/-- The address bits of a frame number. -/
theorem ofNat_and_addrMask (hf : f < 2 ^ 40) :
    BitVec.ofNat 64 (f * pageSize) &&& ptAddrMask = BitVec.ofNat 64 (f * pageSize) := by
  apply eq_of_getLsbD_eq
  intro i hi
  rw [getLsbD_and, ptAddrMask_bit, getLsbD_ofNat,
    show f * pageSize = f <<< 12 from (Nat.shiftLeft_eq f 12).symm, Nat.testBit_shiftLeft]
  by_cases hlow : 12 ≤ i
  · by_cases hhigh : i < 52
    · simp [hlow, hhigh]
    · have hzero : f.testBit (i - 12) = false :=
        Nat.testBit_lt_two_pow (Nat.lt_of_lt_of_le hf (Nat.pow_le_pow_right (by decide) (by omega)))
      simp [hhigh, hzero]
  · simp [hlow]

/-! ## Links to tables -/

theorem tableEntry_eq (f : ℕ) :
    tableEntry f = BitVec.ofNat 64 (f * pageSize) ||| (ptPresent ||| ptRw ||| ptUser) := by
  unfold tableEntry
  rw [BitVec.or_assoc, BitVec.or_assoc, BitVec.or_assoc]

theorem physOf_tableEntry (hf : f < 2 ^ 40) : physOf (tableEntry f) = f * pageSize := by
  have haddr : tableEntry f &&& ptAddrMask = BitVec.ofNat 64 (f * pageSize) := by
    rw [tableEntry_eq, or_and_distrib, ofNat_and_addrMask hf,
      show (ptPresent ||| ptRw ||| ptUser) &&& ptAddrMask = 0 by decide]
    simp
  unfold physOf
  rw [haddr, BitVec.toNat_ofNat]
  unfold pageSize
  omega

theorem frameOf_tableEntry (hf : f < 2 ^ 40) : frameOf (tableEntry f) = f := by
  unfold frameOf
  rw [physOf_tableEntry hf, Nat.mul_div_cancel _ (by decide)]

theorem has_tableEntry (f : ℕ) : Has (tableEntry f) ptPresent := by
  rw [tableEntry_eq, has_or]
  exact .inr (by decide)

theorem not_huge_tableEntry (hf : f < 2 ^ 40) : ¬ Has (tableEntry f) ptHuge := by
  rw [tableEntry_eq, has_or, not_or, ← ofNat_and_addrMask hf]
  exact ⟨not_has_and _ _ _ (by decide), by decide⟩

/-! ## Flags of mapped pages -/

def cacheBits (flags : BitVec 32) : Pte :=
  if Has flags mmuFlagWc then if Has flags mmuFlagHuge2m then ptPat2m else ptPat4k
  else if Has flags mmuFlagNocache then ptPcd ||| ptPwt
  else 0

/-- `mmu_flags_to_pte` flag by flag. -/
theorem mmuFlagsToPte_eq (flags : BitVec 32) : mmuFlagsToPte flags = ptPresent |||
      ((if Has flags mmuProtWrite ∧ ¬ Has flags mmuFlagCow then ptRw else 0) |||
      ((if Has flags mmuProtUser then ptUser else 0) |||
      ((if ¬ Has flags mmuProtExec then ptNx else 0) |||
      ((if Has flags mmuFlagGlobal then ptGlobal else 0) |||
      ((if Has flags mmuFlagCow then ptCow else 0) ||| cacheBits flags))))) := by
  unfold mmuFlagsToPte cacheBits
  -- each test adds its bit or nothing
  have hadd : ∀ (c : Prop) [Decidable c] (e x : Pte),
      (if c then e ||| x else e) = e ||| (if c then x else 0) := by
    intro c _ e x
    split
    · rfl
    · simp
  have hcache : ∀ e : Pte, (if Has flags mmuFlagWc then
        if Has flags mmuFlagHuge2m then e ||| ptPat2m else e ||| ptPat4k
      else if Has flags mmuFlagNocache then e ||| (ptPcd ||| ptPwt) else e) =
      e ||| (if Has flags mmuFlagWc then if Has flags mmuFlagHuge2m then ptPat2m else ptPat4k
        else if Has flags mmuFlagNocache then ptPcd ||| ptPwt else 0) := by
    intro e
    split
    · split <;> rfl
    · exact hadd _ e _
  rw [hcache, hadd, hadd, hadd, hadd, hadd]
  simp only [BitVec.or_assoc]

theorem has_ite (c : Prop) [Decidable c] (x mask : BitVec w) :
    Has (if c then x else 0) mask ↔ c ∧ Has x mask := by
  split
  next hc => exact ⟨fun h => ⟨hc, h⟩, And.right⟩
  next hc =>
    refine ⟨fun h => absurd h ?_, fun h => absurd h.1 hc⟩
    unfold Has
    simp

/-- The caching bits stay clear of the other flags. -/
theorem not_has_cacheBits (flags : BitVec 32)
    (hmask : (ptPat2m ||| ptPat4k ||| (ptPcd ||| ptPwt)) &&& mask = 0) :
    ¬ Has (cacheBits flags) mask := by
  have hall : ¬ Has (ptPat2m ||| ptPat4k ||| (ptPcd ||| ptPwt)) mask := not_not.2 hmask
  rw [has_or, has_or, not_or, not_or] at hall
  unfold cacheBits
  split
  · split
    · exact hall.1.1
    · exact hall.1.2
  · rw [has_ite]
    exact fun h => hall.2 h.2

theorem has_mmuFlagsToPte (flags : BitVec 32)
    (hmask : (ptPat2m ||| ptPat4k ||| (ptPcd ||| ptPwt)) &&& mask = 0) :
    Has (mmuFlagsToPte flags) mask ↔ Has ptPresent mask ∨
      ((Has flags mmuProtWrite ∧ ¬ Has flags mmuFlagCow) ∧ Has ptRw mask) ∨
      (Has flags mmuProtUser ∧ Has ptUser mask) ∨ (¬ Has flags mmuProtExec ∧ Has ptNx mask) ∨
      (Has flags mmuFlagGlobal ∧ Has ptGlobal mask) ∨ (Has flags mmuFlagCow ∧ Has ptCow mask) := by
  simp only [mmuFlagsToPte_eq, has_or, has_ite, not_has_cacheBits flags hmask, or_false]

theorem has_present_mmuFlagsToPte (flags : BitVec 32) : Has (mmuFlagsToPte flags) ptPresent := by
  rw [has_mmuFlagsToPte flags (by decide)]
  exact .inl (by decide)

theorem has_rw_mmuFlagsToPte (flags : BitVec 32) :
    Has (mmuFlagsToPte flags) ptRw ↔ Has flags mmuProtWrite ∧ ¬ Has flags mmuFlagCow := by
  rw [has_mmuFlagsToPte flags (by decide)]
  simp +decide

theorem has_user_mmuFlagsToPte (flags : BitVec 32) :
    Has (mmuFlagsToPte flags) ptUser ↔ Has flags mmuProtUser := by
  rw [has_mmuFlagsToPte flags (by decide)]
  simp +decide

theorem has_nx_mmuFlagsToPte (flags : BitVec 32) :
    Has (mmuFlagsToPte flags) ptNx ↔ ¬ Has flags mmuProtExec := by
  rw [has_mmuFlagsToPte flags (by decide)]
  simp +decide

/-- The flags stay out of the address, unless the caching bit of a page of 2 MiB is asked for. -/
theorem mmuFlagsToPte_and_addrMask {flags : BitVec 32}
    (h : ¬ (Has flags mmuFlagWc ∧ Has flags mmuFlagHuge2m)) :
    mmuFlagsToPte flags &&& ptAddrMask = 0 := by
  have hpart : ∀ (c : Prop) [Decidable c] (x : Pte), x &&& ptAddrMask = 0 →
      (if c then x else 0) &&& ptAddrMask = 0 := by
    intro c _ x hx
    split
    · exact hx
    · rfl
  have hcache : cacheBits flags &&& ptAddrMask = 0 := by
    unfold cacheBits
    split
    next hwc =>
      rw [if_neg (fun hhuge => h ⟨hwc, hhuge⟩)]
      decide
    next => exact hpart _ _ (by decide)
  rw [mmuFlagsToPte_eq]
  simp only [or_and_distrib, hcache, hpart _ _ (show ptRw &&& ptAddrMask = 0 by decide),
    hpart _ _ (show ptUser &&& ptAddrMask = 0 by decide),
    hpart _ _ (show ptNx &&& ptAddrMask = 0 by decide),
    hpart _ _ (show ptGlobal &&& ptAddrMask = 0 by decide),
    hpart _ _ (show ptCow &&& ptAddrMask = 0 by decide)]
  decide

/-! ## Entries from an address and flags -/

theorem frameOf_and_or (a : Pte) (hflags : flags &&& ptAddrMask = 0) :
    frameOf ((a &&& ptAddrMask) ||| flags) = frameOf a := by
  unfold frameOf physOf
  rw [or_and_distrib, hflags, BitVec.and_assoc, BitVec.and_self]
  simp

theorem flags_and_or (a : Pte) (hflags : flags &&& ptAddrMask = 0) :
    ((a &&& ptAddrMask) ||| flags) &&& ~~~ptAddrMask = flags := by
  have hkeep := and_not_of_and_eq_zero hflags
  rw [or_and_distrib, BitVec.and_assoc, hkeep]
  simp

/-- The frame of an address; physical addresses have 52 bits. -/
theorem frameOf_ofNat {phys : ℕ} (halign : phys % pageSize = 0) :
    frameOf (BitVec.ofNat 64 phys) = phys % 2 ^ 52 / pageSize := by
  have hmask : BitVec.ofNat 64 phys &&& ptAddrMask =
      BitVec.ofNat 64 (phys % 2 ^ 52 / pageSize * pageSize) := by
    have hback : phys % 2 ^ 52 / pageSize * pageSize = phys % 2 ^ 52 := by
      unfold pageSize at halign ⊢
      omega
    rw [hback]
    apply eq_of_getLsbD_eq
    intro i hi
    rw [getLsbD_and, ptAddrMask_bit, getLsbD_ofNat, getLsbD_ofNat, Nat.testBit_mod_two_pow]
    by_cases hlow : 12 ≤ i
    · simp only [hlow, true_and]
      cases phys.testBit i <;> simp
    · have hzero : phys.testBit i = false := by
        have hdvd : 2 ^ 12 ∣ phys := Nat.dvd_of_mod_eq_zero halign
        obtain ⟨k, rfl⟩ := hdvd
        rw [Nat.mul_comm, ← Nat.shiftLeft_eq, Nat.testBit_shiftLeft]
        simp [hlow]
      simp [hzero]
  unfold frameOf physOf
  rw [hmask, BitVec.toNat_ofNat]
  unfold pageSize
  omega

theorem frameOf_or_flags (e : Pte) (hflags : flags &&& ptAddrMask = 0) :
    frameOf (e ||| flags) = frameOf e := by
  unfold frameOf physOf
  rw [or_and_distrib, hflags]
  simp

theorem frameOf_pageEntry (hf : f < 2 ^ 40) {flags : BitVec 32}
    (hflags : ¬ Has flags mmuFlagHuge2m) : frameOf (pageEntry (f * pageSize) flags) = f := by
  unfold pageEntry
  rw [frameOf_and_or _ (mmuFlagsToPte_and_addrMask fun h => hflags h.2),
    frameOf_ofNat (Nat.mul_mod_left f pageSize)]
  unfold pageSize
  omega

theorem has_pageEntry (phys : ℕ) (flags : BitVec 32) (hmask : ptAddrMask &&& mask = 0) :
    Has (pageEntry phys flags) mask ↔ Has (mmuFlagsToPte flags) mask := by
  unfold pageEntry
  rw [has_or]
  exact or_iff_right (not_has_and _ _ _ hmask)

/-!
## Where the Page Tables Are

A `Layout` gives every table a position: its owner and the indices on the way from the PML4 to it.
A frame has one position, so tables of different contexts, of the two halves and of different
levels never share a frame. The kernel half of a context depends on the tables of the kernel only
(`walk_kernelSame`); unmapping and protecting pages of the user half touch user tables only.
-/

abbrev Tables := ℕ → ℕ → Pte

/-! ## Walks -/

/-- The entries that a translation reads, from the PML4 down. -/
def walk (t : Tables) (pml4 virt : ℕ) : List Pte :=
  let e4 := t pml4 (pml4Idx virt)
  if ¬ Has e4 ptPresent then [e4]
  else
    let e3 := t (frameOf e4) (pdptIdx virt)
    if ¬ Has e3 ptPresent ∨ Has e3 ptHuge then [e4, e3]
    else
      let e2 := t (frameOf e3) (pdIdx virt)
      if ¬ Has e2 ptPresent ∨ Has e2 ptHuge then [e4, e3, e2]
      else [e4, e3, e2, t (frameOf e2) (ptIdx virt)]

variable (v : ℕ)

theorem pml4Idx_lt : pml4Idx v < 512 := mod_lt _ (by decide)

theorem pdptIdx_lt : pdptIdx v < 512 := mod_lt _ (by decide)

theorem pdIdx_lt : pdIdx v < 512 := mod_lt _ (by decide)

theorem ptIdx_lt : ptIdx v < 512 := mod_lt _ (by decide)

theorem setEntry_apply (m : Mm) (table idx : ℕ) (e : Pte) (f i : ℕ) :
    (m.setEntry table idx e).tables f i = if f = table ∧ i = idx then e else m.tables f i := by
  unfold Mm.setEntry
  by_cases hf : f = table
  · subst hf
    simp [Function.update_apply]
  · simp [hf]

/-! ## Positions -/

/-- Who a table belongs to; a user table belongs to the context of its PML4. -/
inductive Owner where
  | kernel
  | user (pml4 : ℕ)
  deriving DecidableEq

/-- The owner of a table and the indices on the way to it. -/
structure Pos where
  owner : Owner
  path : List ℕ
  deriving DecidableEq

/-- The table behind an entry; the upper half of every PML4 leads to the tables of the kernel. -/
def Pos.child (p : Pos) (i : ℕ) : Pos :=
  if p.path = [] ∧ 256 ≤ i then ⟨.kernel, [i]⟩ else ⟨p.owner, p.path ++ [i]⟩

/-- Every table that is linked from a table with a position has the position that the link gives
it. -/
structure Layout (pos : ℕ → Option Pos) (t : Tables) : Prop where
  link : ∀ f p, pos f = some p → p.path.length < 3 → ∀ i < 512, Has (t f i) ptPresent →
    (p.path ≠ [] → ¬ Has (t f i) ptHuge) → pos (frameOf (t f i)) = some (p.child i)

/-- The PML4 of a context. -/
def IsRoot (pos : ℕ → Option Pos) (r : ℕ) : Prop := pos r = some ⟨.user r, []⟩

/-- An entry of the user half of a context. -/
def UserSpot (pos : ℕ → Option Pos) (r f i : ℕ) : Prop :=
  (f = r ∧ i < 256) ∨ ∃ path, path ≠ [] ∧ pos f = some ⟨.user r, path⟩

variable {m : Mm} {f i : ℕ}

variable {pos : ℕ → Option Pos} {t t' : Tables} {r virt : ℕ}

/-- The tables of a walk have the positions of its indices. -/
theorem Layout.walk_pos (h : Layout pos t) {owner : Owner} (hr : IsRoot pos r)
    (howner : Pos.child ⟨.user r, []⟩ (pml4Idx virt) = ⟨owner, [pml4Idx virt]⟩)
    (h4 : Has (t r (pml4Idx virt)) ptPresent) :
    pos (frameOf (t r (pml4Idx virt))) = some ⟨owner, [pml4Idx virt]⟩ ∧
    ∀ pdpt, pdpt = frameOf (t r (pml4Idx virt)) → Has (t pdpt (pdptIdx virt)) ptPresent →
      ¬ Has (t pdpt (pdptIdx virt)) ptHuge →
      pos (frameOf (t pdpt (pdptIdx virt))) = some ⟨owner, [pml4Idx virt, pdptIdx virt]⟩ ∧
      ∀ pd, pd = frameOf (t pdpt (pdptIdx virt)) → Has (t pd (pdIdx virt)) ptPresent →
        ¬ Has (t pd (pdIdx virt)) ptHuge →
        pos (frameOf (t pd (pdIdx virt))) =
          some ⟨owner, [pml4Idx virt, pdptIdx virt, pdIdx virt]⟩ := by
  have hpdpt : pos (frameOf (t r (pml4Idx virt))) = some ⟨owner, [pml4Idx virt]⟩ := by
    rw [h.link r _ hr (by simp) _ (pml4Idx_lt virt) h4 (by simp), howner]
  refine ⟨hpdpt, ?_⟩
  rintro pdpt rfl h3 hhuge3
  have hpd := h.link _ _ hpdpt (by simp) _ (pdptIdx_lt virt) h3 fun _ => hhuge3
  refine ⟨hpd, ?_⟩
  rintro pd rfl h2 hhuge2
  exact h.link _ _ hpd (by simp [Pos.child]) _ (pdIdx_lt virt) h2 fun _ => hhuge2

theorem child_user (hlow : pml4Idx virt < 256) :
    Pos.child ⟨.user r, []⟩ (pml4Idx virt) = ⟨.user r, [pml4Idx virt]⟩ := by
  unfold Pos.child
  rw [if_neg (by omega)]
  rfl

theorem child_kernel (hhigh : 256 ≤ pml4Idx virt) :
    Pos.child ⟨.user r, []⟩ (pml4Idx virt) = ⟨.kernel, [pml4Idx virt]⟩ := by
  unfold Pos.child
  rw [if_pos ⟨rfl, hhigh⟩]

/-- The tables of the kernel and the upper half of the PML4 are the same. -/
structure KernelSame (pos : ℕ → Option Pos) (r : ℕ) (t t' : Tables) : Prop where
  upper : ∀ i, 256 ≤ i → t' r i = t r i
  below : ∀ f path, pos f = some ⟨.kernel, path⟩ → t' f = t f

/-- The kernel half of a context depends on nothing else. -/
theorem walk_kernelSame (h : Layout pos t) (hr : IsRoot pos r) (hsame : KernelSame pos r t t')
    (hhigh : 256 ≤ pml4Idx virt) : walk t' r virt = walk t r virt := by
  have h4 := hsame.upper _ hhigh
  unfold walk
  dsimp only
  rw [h4]
  by_cases hp4 : Has (t r (pml4Idx virt)) ptPresent
  · obtain ⟨hpdpt, hrest⟩ := h.walk_pos hr (child_kernel hhigh) hp4
    rw [if_neg (not_not.2 hp4), if_neg (not_not.2 hp4), hsame.below _ _ hpdpt]
    by_cases hp3 : ¬ Has (t (frameOf (t r (pml4Idx virt))) (pdptIdx virt)) ptPresent ∨
        Has (t (frameOf (t r (pml4Idx virt))) (pdptIdx virt)) ptHuge
    · rw [if_pos hp3, if_pos hp3]
    · rw [if_neg hp3, if_neg hp3]
      rw [not_or, not_not] at hp3
      obtain ⟨hpd, hrest'⟩ := hrest _ rfl hp3.1 hp3.2
      rw [hsame.below _ _ hpd]
      split
      next => rfl
      next hp2 =>
        rw [not_or, not_not] at hp2
        rw [hsame.below _ _ (hrest' _ rfl hp2.1 hp2.2)]
  · rw [if_pos hp4, if_pos hp4]

/-! ## Unmapping in the user half -/

def UserErased (pos : ℕ → Option Pos) (r : ℕ) (t t' : Tables) : Prop :=
  ∀ f i, t' f i = t f i ∨ (t' f i = 0 ∧ UserSpot pos r f i)

theorem UserErased.refl (pos : ℕ → Option Pos) (r : ℕ) (t : Tables) : UserErased pos r t t :=
  fun _ _ => .inl rfl

variable {t₁ t₂ t₃ : Tables}

theorem UserErased.trans (h : UserErased pos r t₁ t₂)
    (h' : UserErased pos r t₂ t₃) : UserErased pos r t₁ t₃ := by
  intro f i
  rcases h' f i with heq | hzero
  · rw [heq]
    exact h f i
  · exact .inr hzero

variable (h : UserErased pos r t m.tables)

include h in
theorem UserErased.setEntry
    (hspot : UserSpot pos r f i) : UserErased pos r t (m.setEntry f i 0).tables := by
  intro f' i'
  rw [setEntry_apply]
  split
  next heq =>
    obtain ⟨rfl, rfl⟩ := heq
    exact .inr ⟨rfl, hspot⟩
  next => exact h f' i'

/-- What is not in the user half of the context stays. -/
theorem KernelSame.of_spots (hr : IsRoot pos r)
    (h : ∀ f i, t' f i = t f i ∨ UserSpot pos r f i) : KernelSame pos r t t' := by
  refine ⟨?_, ?_⟩
  · intro i hi
    rcases h r i with heq | hspot | ⟨path, hne, hpos⟩
    · exact heq
    · omega
    · rw [hr] at hpos
      cases hpos
      exact absurd rfl hne
  · intro f path hpos
    funext i
    rcases h f i with heq | ⟨rfl, -⟩ | ⟨path', -, hpos'⟩
    · exact heq
    · rw [hr] at hpos
      cases hpos
    · rw [hpos] at hpos'
      cases hpos'

theorem UserErased.kernelSame (h : UserErased pos r t t') (hr : IsRoot pos r) :
    KernelSame pos r t t' :=
  .of_spots hr fun f i => (h f i).imp_right And.right

theorem UserErased.layout (h : UserErased pos r t t') (hl : Layout pos t) : Layout pos t' := by
  refine ⟨?_⟩
  intro f p hp hlen i hi hpresent hhuge
  rcases h f i with heq | ⟨hzero, -⟩
  · rw [heq] at hpresent hhuge ⊢
    exact hl.link f p hp hlen i hi hpresent hhuge
  · rw [hzero] at hpresent
    exact absurd hpresent (not_has_zero _)

variable (cpu : ℕ)

include h in
theorem UserErased.pruneTable
    (hspot : UserSpot pos r f i) : UserErased pos r t (pruneTable cpu m f i).tables :=
  h.setEntry hspot

include h in
theorem UserErased.pruneUpper
    {l4 pdpt l3 pd : ℕ} (hspot4 : UserSpot pos r r l4) (hspot3 : UserSpot pos r pdpt l3) :
    UserErased pos r t (pruneUpper cpu m r l4 pdpt l3 pd).tables := by
  unfold Mmu.pruneUpper
  split
  · dsimp only
    split
    · exact (h.pruneTable cpu hspot3).pruneTable cpu hspot4
    · exact h.pruneTable cpu hspot3
  · exact h

/-- An unmapping erases entries of user tables of its own context only. -/
theorem mmuUnmapPageUnlocked_erased (m : Mm) (hl : Layout pos m.tables)
    (hr : IsRoot pos r) (hlow : pml4Idx virt < 256) :
    UserErased pos r m.tables (mmuUnmapPageUnlocked cpu m r virt).1.tables := by
  unfold mmuUnmapPageUnlocked
  -- every test that fails leaves the tables alone
  by_cases h4 : Has (m.tables r (pml4Idx virt)) ptPresent
  swap
  · rw [if_pos h4]
    exact .refl _ _ _
  rw [if_neg (not_not.2 h4)]
  split
  · exact .refl _ _ _
  obtain ⟨hpdpt, hrest⟩ := hl.walk_pos hr (child_user hlow) h4
  have hspot4 : UserSpot pos r r (pml4Idx virt) := .inl ⟨rfl, hlow⟩
  generalize frameOf (m.tables r (pml4Idx virt)) = pdpt at *
  have hspot3 : UserSpot pos r pdpt (pdptIdx virt) := .inr ⟨_, by simp, hpdpt⟩
  by_cases h3 : Has (m.tables pdpt (pdptIdx virt)) ptPresent
  swap
  · rw [if_pos h3]
    exact .refl _ _ _
  rw [if_neg (not_not.2 h3)]
  by_cases hhuge3 : Has (m.tables pdpt (pdptIdx virt)) ptHuge
  · rw [if_pos hhuge3]
    exact .refl _ _ _
  rw [if_neg hhuge3]
  split
  · exact .refl _ _ _
  obtain ⟨hpd, hrest'⟩ := hrest _ rfl h3 hhuge3
  generalize frameOf (m.tables pdpt (pdptIdx virt)) = pd at *
  have hspot2 : UserSpot pos r pd (pdIdx virt) := .inr ⟨_, by simp, hpd⟩
  by_cases h2 : Has (m.tables pd (pdIdx virt)) ptPresent
  swap
  · rw [if_pos h2]
    exact .refl _ _ _
  rw [if_neg (not_not.2 h2)]
  split
  · exact .refl _ _ _
  split
  next =>
    unfold unmapHuge
    dsimp only
    rw [if_pos h2, if_pos hlow]
    apply UserErased.pruneUpper _ cpu hspot4 hspot3
    exact (UserErased.refl pos r m.tables).setEntry hspot2
  next hhuge2 =>
    have hspot1 : UserSpot pos r (frameOf (m.tables pd (pdIdx virt))) (ptIdx virt) :=
      .inr ⟨_, by simp, hrest' _ rfl h2 hhuge2⟩
    generalize frameOf (m.tables pd (pdIdx virt)) = pt at *
    have hclear := (UserErased.refl pos r m.tables).setEntry hspot1
    have hleaf : ∀ s, UserErased pos r m.tables
        (if Has (m.tables pt (ptIdx virt)) ptPresent then (m.setEntry pt (ptIdx virt) 0).withPmm s
          else m.setEntry pt (ptIdx virt) 0).tables := by
      intro s
      split
      · exact hclear
      · exact hclear
    have hprune : ∀ m' : Mm, UserErased pos r m.tables m'.tables → UserErased pos r m.tables
        (if pml4Idx virt < 256 ∧ isTableEmpty m' pt = true then
          pruneUpper cpu (pruneTable cpu m' pd (pdIdx virt)) r (pml4Idx virt) pdpt (pdptIdx virt) pd
        else m').tables := by
      intro m' h
      split
      · exact (h.pruneTable cpu hspot2).pruneUpper cpu hspot4 hspot3
      · exact h
    exact hprune _ (hleaf _)

/-- The user pages of a range are unmapped. -/
theorem mmuUnmapPages_erased (hr : IsRoot pos r) (virt : ℕ) :
    ∀ (is : List ℕ) (m : Mm), Layout pos m.tables →
    (∀ i ∈ is, pml4Idx (pageAt virt i) < 256) →
    UserErased pos r m.tables
      (is.foldl (fun m i => (mmuUnmapPageUnlocked cpu m r (pageAt virt i)).1) m).tables := by
  intro is
  induction is with
  | nil => exact fun m _ _ => .refl _ _ _
  | cons i is ih =>
    intro m hl hlow
    have hone := mmuUnmapPageUnlocked_erased cpu m hl hr (hlow i mem_cons_self)
    exact hone.trans (ih _ (hone.layout hl) fun j hj => hlow j (mem_cons_of_mem i hj))

/-! ## Protecting in the user half -/

/-- An entry may be stored if the table it links is where the layout puts it. -/
theorem Layout.setEntry (h : Layout pos m.tables) {e : Pte}
    (hlink : ∀ p, pos f = some p → p.path.length < 3 → Has e ptPresent →
      (p.path ≠ [] → ¬ Has e ptHuge) → pos (frameOf e) = some (p.child i)) :
    Layout pos (m.setEntry f i e).tables := by
  refine ⟨?_⟩
  intro f' p hp hlen i' hi' hpresent hhuge
  rw [setEntry_apply] at hpresent hhuge ⊢
  by_cases heq : f' = f ∧ i' = i
  · rw [if_pos heq] at hpresent hhuge ⊢
    obtain ⟨rfl, rfl⟩ := heq
    exact hlink p hp hlen hpresent hhuge
  · rw [if_neg heq] at hpresent hhuge ⊢
    exact h.link f' p hp hlen i' hi' hpresent hhuge

/-- Only entries of the user half have changed. -/
def UserChanged (pos : ℕ → Option Pos) (r : ℕ) (t t' : Tables) : Prop :=
  ∀ f i, t' f i = t f i ∨ UserSpot pos r f i

theorem UserChanged.refl (pos : ℕ → Option Pos) (r : ℕ) (t : Tables) : UserChanged pos r t t :=
  fun _ _ => .inl rfl

theorem UserChanged.trans (h : UserChanged pos r t₁ t₂)
    (h' : UserChanged pos r t₂ t₃) : UserChanged pos r t₁ t₃ := by
  intro f i
  rcases h' f i with heq | hspot
  · rw [heq]
    exact h f i
  · exact .inr hspot

theorem userChanged_setEntry (m : Mm) (hspot : UserSpot pos r f i) (e : Pte) :
    UserChanged pos r m.tables (m.setEntry f i e).tables := by
  intro f' i'
  rw [setEntry_apply]
  split
  next heq =>
    obtain ⟨rfl, rfl⟩ := heq
    exact .inr hspot
  next => exact .inl rfl

/-- A change of the protection changes user tables of its own context only. -/
theorem mmuProtectPage_changed (m : Mm) (hl : Layout pos m.tables) (hr : IsRoot pos r)
    (hlow : pml4Idx virt < 256) (flags : BitVec 32) :
    UserChanged pos r m.tables (mmuProtectPage m r virt flags).1.tables ∧
      Layout pos (mmuProtectPage m r virt flags).1.tables := by
  have hnothing : UserChanged pos r m.tables m.tables ∧ Layout pos m.tables := ⟨.refl _ _ _, hl⟩
  unfold mmuProtectPage
  dsimp only
  split
  · exact hnothing
  by_cases h4 : Has (m.tables r (pml4Idx virt)) ptPresent
  swap
  · rw [if_pos h4]
    exact hnothing
  rw [if_neg (not_not.2 h4)]
  obtain ⟨-, hrest⟩ := hl.walk_pos hr (child_user hlow) h4
  generalize frameOf (m.tables r (pml4Idx virt)) = pdpt at *
  by_cases h3 : ¬ Has (m.tables pdpt (pdptIdx virt)) ptPresent ∨
      Has (m.tables pdpt (pdptIdx virt)) ptHuge
  · rw [if_pos h3]
    exact hnothing
  rw [if_neg h3]
  rw [not_or, not_not] at h3
  obtain ⟨hpd, hrest'⟩ := hrest _ rfl h3.1 h3.2
  generalize frameOf (m.tables pdpt (pdptIdx virt)) = pd at *
  by_cases h2 : Has (m.tables pd (pdIdx virt)) ptPresent
  swap
  · rw [if_pos h2]
    exact hnothing
  rw [if_neg (not_not.2 h2)]
  split
  next =>
    refine ⟨userChanged_setEntry m (.inr ⟨_, by simp, hpd⟩) _, hl.setEntry ?_⟩
    -- the entry still maps a page of 2 MiB
    intro p hp _ _ hnot
    rw [hpd] at hp
    cases hp
    exact absurd ((has_or _ _ _).2 (.inr (by decide))) (hnot (by simp))
  next hhuge =>
    have hpt := hrest' _ rfl h2 hhuge
    split
    · exact hnothing
    · refine ⟨userChanged_setEntry m (.inr ⟨_, by simp, hpt⟩) _, hl.setEntry ?_⟩
      -- the lowest tables link no tables
      intro p hp hlen
      rw [hpt] at hp
      cases hp
      exact absurd hlen (by simp)

/-- The user pages of a range are protected. -/
theorem mmuProtectPages_changed (hr : IsRoot pos r) (virt : ℕ) (flags : BitVec 32) :
    ∀ (is : List ℕ) (m : Mm), Layout pos m.tables →
    (∀ i ∈ is, pml4Idx (pageAt virt i) < 256) →
    UserChanged pos r m.tables
      (is.foldl (fun m i => (mmuProtectPage m r (pageAt virt i) flags).1) m).tables := by
  intro is
  induction is with
  | nil => exact fun m _ _ => .refl _ _ _
  | cons i is ih =>
    intro m hl hlow
    obtain ⟨hone, hl'⟩ := mmuProtectPage_changed m hl hr (hlow i mem_cons_self) flags
    exact hone.trans (ih _ hl' fun j hj => hlow j (mem_cons_of_mem i hj))

end BoredOS.Mem.Mmu
