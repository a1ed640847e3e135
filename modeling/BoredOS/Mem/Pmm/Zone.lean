import BoredOS.Mem.Pmm.Blocks

/-!
# Allocation from a Zone and Release to a Zone

`alloc_from_zone_locked` takes a block off a list and puts the halves it does not need back;
`free_to_zone_locked` merges a block with its buddies and puts the result on a list. The descriptor
of the buddy decides about a merge, and it may be stale: pages inside a larger block keep what was
written when they were heads. `mem_list_of_mergeable` shows that a stale descriptor is never
mistaken for a free buddy, since a larger block around the buddy would hold the block itself too.
-/

namespace BoredOS.Mem.Pmm

open Lib.Tiling Option PmmState

variable {U : Set ℕ} {X : Set Place} {s : PmmState} {L : FreeLists} {z : ZoneId}

/-! ## Frames -/

/-- The descriptor of a page as its users see it is unchanged. -/
structure SameDesc (s s' : PmmState) (u : ℕ) : Prop where
  flags : (s'.pages u).flags = (s.pages u).flags
  refcount : (s'.pages u).refcount = (s.pages u).refcount
  order : (s'.pages u).order = (s.pages u).order

theorem SameDesc.refl (s : PmmState) (u : ℕ) : SameDesc s s u := ⟨rfl, rfl, rfl⟩

variable {u p o order page : ℕ} {s' : PmmState} {s₁ s₂ s₃ : PmmState}

theorem SameDesc.trans (h : SameDesc s₁ s₂ u)
    (h' : SameDesc s₂ s₃ u) : SameDesc s₁ s₃ u :=
  ⟨h'.flags.trans h.flags, h'.refcount.trans h.refcount, h'.order.trans h.order⟩

theorem sameDesc_setPage (s : PmmState) (hne : u ≠ p) (v : Page) :
    SameDesc s (s.setPage p v) u := by
  refine ⟨?_, ?_, ?_⟩
  all_goals rw [pages_setPage, if_neg hne]

/-- The descriptors of all pages of `X` and everything but pages and lists stay as they are. -/
structure Frame (X : Set Place) (s s' : PmmState) : Prop where
  desc : ∀ a ∈ X, ∀ u ∈ a.extent, SameDesc s s' u
  total : s'.totalPageCount = s.totalPageCount
  pools : s'.pcpPools = s.pcpPools
  ready : s'.smpReady = s.smpReady

theorem Frame.refl (X : Set Place) (s : PmmState) : Frame X s s :=
  ⟨fun _ _ u _ => .refl s u, rfl, rfl, rfl⟩

/-- Frames compose, so that a loop has the frame of its steps. -/
theorem Frame.trans (h : Frame X s₁ s₂) (h' : Frame X s₂ s₃) : Frame X s₁ s₃ :=
  ⟨fun a ha u hu => (h.desc a ha u hu).trans (h'.desc a ha u hu), h'.total.trans h.total,
    h'.pools.trans h.pools, h'.ready.trans h.ready⟩

theorem Frame.mono {X' : Set Place} (h : Frame X s s') (hsub : ∀ a ∈ X', a ∈ X) : Frame X' s s' :=
  ⟨fun a ha => h.desc a (hsub a ha), h.total, h.pools, h.ready⟩

theorem Frame.head (h : Frame X s s') {a : Place} (ha : a ∈ X) : SameDesc s s' a.head :=
  h.desc a ha a.head a.head_mem_extent

theorem LinksOnly.frame {s : PmmState} (h : LinksOnly s s') : Frame X s s' :=
  ⟨fun _ _ u _ => ⟨h.flags u, h.refcount u, h.order u⟩, h.total, h.pools, h.ready⟩

/-- A store into the descriptor of a page outside of `X`. -/
theorem frame_setPage (hp : ∀ a ∈ X, p ∉ a.extent) (v : Page) : Frame X s (s.setPage p v) := by
  refine ⟨?_, rfl, rfl, rfl⟩
  intro a ha u hu
  apply sameDesc_setPage
  rintro rfl
  exact hp a ha hu

theorem Core.congrSet (h : Core U X s L) {X' : Set Place} (hX : ∀ a, a ∈ X' ↔ a ∈ X) :
    Core U X' s L := by
  have heq : X' = X := Set.ext hX
  rwa [heq]

/-- `X` and one block in the hand of the running call. -/
def withHand (X : Set Place) (o p : ℕ) : Set Place := {a | a ∈ X ∨ a = ⟨.hand, o, p⟩}

/-- Nothing in `X` is in the hand of the running call. -/
def NoHand (X : Set Place) : Prop := ∀ a ∈ X, a.holder ≠ .hand

variable (h : Core U (withHand X o p) s L) (hX : NoHand X)

include h hX in
/-- A block in hand meets no block that somebody else holds. -/
theorem Core.outside (hu : u ∈ block o p) : ∀ a ∈ X, u ∉ a.extent := by
  intro a ha hmem
  have hplace := h.tiles.disj a (.inr (.inl ha)) ⟨.hand, o, p⟩ (.inr (.inr rfl)) u hmem hu
  exact hX a ha (by rw [hplace])

include h hX in
theorem Core.head_ne
    (hu : u ∈ block o p) : ∀ a ∈ X, a.head ≠ u :=
  fun a ha heq => h.outside hX hu a ha (heq ▸ a.head_mem_extent)

/-! ## Splitting -/

/-- A block in hand is two blocks of half the size in hand. -/
theorem Core.halve (h : Core U (withHand X (o + 1) p) s L) (hX : NoHand X) :
    Core U {a | a ∈ withHand X o p ∨ a = ⟨.hand, o, p + 2 ^ o⟩} s L := by
  have hsplit := h.tiles.split (a := .mk .hand (o + 1) p) (b := .mk .hand o p)
    (c := Place.mk .hand o (p + 2 ^ o)) (.inr (.inr rfl)) (fun u => block_split u)
    (fun u hu => block_halves_disjoint u hu)
  apply h.retile
  · apply hsplit.congr
    intro a
    constructor
    · rintro (ha | (ha | ha) | ha)
      · exact .inl ⟨.inl ha, fun heq => by
          obtain ⟨z', hz', -⟩ := ha
          rw [heq] at hz'
          cases hz'⟩
      · exact .inl ⟨.inr (.inl ha), fun heq => hX a ha (by rw [heq])⟩
      · exact .inr (.inl ha)
      · exact .inr (.inr ha)
    · rintro (⟨ha | ha | ha, hne⟩ | ha | ha)
      · exact .inl ha
      · exact .inr (.inl (.inl ha))
      · exact absurd ha hne
      · exact .inr (.inl (.inr ha))
      · exact .inr (.inr ha)
  · rintro a ((ha | rfl) | rfl) z'
    · exact h.offList a (.inl ha) z'
    · exact fun heq => by cases heq
    · exact fun heq => by cases heq

/-- What splitting or merging has done to the lists of a zone: the block in the hand had order `o`
and has order `o'` now. -/
structure ListsMoved (z : ZoneId) (o o' : ℕ) (L L' : FreeLists) : Prop where
  same : listed L' z + 2 ^ o' = listed L z + 2 ^ o
  other : ∀ z' ≠ z, listed L' z' = listed L z'

/-- `split_block` puts the upper halves on the lists, down to the order that is asked for. -/
theorem splitBlock_spec (hX : NoHand X) : ∀ (curr : ℕ) {s : PmmState}
    {L : FreeLists}, order ≤ curr → curr < maxOrder → 2 ^ curr ∣ page → InZone z curr page →
    Core U (withHand X curr page) s L →
    ∃ s' L', splitBlock z page order curr s = some s' ∧ Core U (withHand X order page) s' L' ∧
      Frame X s s' ∧ (∀ z', (s'.zones z').freePages = (s.zones z').freePages) ∧
      ListsMoved z curr order L L' := by
  intro curr
  induction curr with
  | zero =>
    intro s L hle _ _ _ h
    obtain rfl : order = 0 := by omega
    exact ⟨s, L, rfl, h, .refl X s, fun _ => rfl, rfl, fun _ _ => rfl⟩
  | succ curr ih =>
    intro s L hle hlt hdvd hzone h
    unfold splitBlock
    by_cases hmore : curr + 1 > order
    · rw [if_pos hmore]
      have hbuddy : page + 2 ^ curr ∈ block (curr + 1) page :=
        (block_split _).2 (.inr (head_mem_block curr _))
      have hbelow : page + 2 ^ curr < s.totalPageCount :=
        h.below _ (h.mem_usable (.inr rfl) hbuddy)
      have hdvd' : 2 ^ curr ∣ page := (pow_dvd_pow 2 (Nat.le_succ curr)).trans hdvd
      have hlower : InZone z curr page := fun u hu => hzone u ((block_split u).2 (.inl hu))
      have hupper : InZone z curr (page + 2 ^ curr) :=
        fun u hu => hzone u ((block_split u).2 (.inr hu))
      rw [pfnToPage, if_neg (by omega), bind_eq_bind, bind_some]
      -- the upper half is described as free and put on its list
      have hput := (h.halve hX).putOn (z := z) (o := curr) (p := page + 2 ^ curr)
        (a := ⟨.hand, curr, page + 2 ^ curr⟩) (.inr rfl) rfl rfl
        (v := { s.pages (page + 2 ^ curr) with zone := (s.pages page).zone }.asFree curr) rfl
        (by
          show (s.pages page).zone = _
          rw [h.zones, h.zones, hlower page (head_mem_block curr page),
            hupper _ (head_mem_block curr _)])
        (by omega) (Nat.dvd_add hdvd' (Nat.dvd_refl _)) hupper
      -- the lower half is what stays in hand
      have hset : ∀ a, a ∈ withHand X curr page ↔
          (a ∈ withHand X curr page ∨ a = ⟨.hand, curr, page + 2 ^ curr⟩) ∧
            a ≠ ⟨.hand, curr, page + 2 ^ curr⟩ := by
        intro a
        constructor
        · rintro (ha | rfl)
          · exact ⟨.inl (.inl ha), fun heq => hX a ha (by rw [heq])⟩
          · refine ⟨.inl (.inr rfl), fun heq => ?_⟩
            have : page = page + 2 ^ curr := congrArg Place.head heq
            omega
        · rintro ⟨ha | ha, hne⟩
          · exact ha
          · exact absurd ha hne
      have honly := linksOnly_listAddHead (s.setPage (page + 2 ^ curr)
        ({ s.pages (page + 2 ^ curr) with zone := (s.pages page).zone }.asFree curr))
        z curr (page + 2 ^ curr)
      obtain ⟨s', L', hrun, hcore, hframe, hpages, hmoved⟩ :=
        ih (by omega) (by omega) hdvd' hlower (hput.congrSet hset)
      refine ⟨s', L', hrun, hcore, ?_, ?_, ?_, ?_⟩
      · exact ((frame_setPage (h.outside hX hbuddy) _).trans honly.frame).trans hframe
      · intro z'
        exact (hpages z').trans (honly.freePages z')
      · have hsame := hmoved.same
        rw [listed_cons L z (by omega)] at hsame
        omega
      · intro z' hz'
        rw [hmoved.other z' hz', listed_set_other L _ _ hz']
    · obtain rfl : order = curr + 1 := by omega
      rw [if_neg hmore]
      exact ⟨s, L, rfl, h, .refl X s, fun _ => rfl, rfl, fun _ _ => rfl⟩

/-! ## Allocation -/

/-- The search stops at the head of a list that is not empty. -/
theorem findBlock_spec (lists : ℕ → Option ℕ) {fuel curr o p : ℕ}
    (hrun : findBlock lists fuel curr = some (o, p)) :
    curr ≤ o ∧ o < maxOrder ∧ lists o = some p := by
  induction fuel generalizing curr with
  | zero => cases hrun
  | succ fuel ih =>
    unfold findBlock at hrun
    split at hrun
    next hlt =>
      cases hlist : lists curr with
      | none =>
        rw [hlist] at hrun
        obtain ⟨hle, ho, hp⟩ := ih hrun
        exact ⟨by omega, ho, hp⟩
      | some =>
        rw [hlist] at hrun
        cases hrun
        exact ⟨le_refl _, hlt, hlist⟩
    next => cases hrun

/-- The free page counters are right. -/
def Counted (s : PmmState) (L : FreeLists) : Prop := ∀ z, (s.zones z).freePages = listed L z

/-- A block of a zone that has just been allocated. -/
structure Allocated (z : ZoneId) (order page : ℕ) (flags : BitVec 32) (s : PmmState) : Prop where
  aligned : 2 ^ order ∣ page
  zone : InZone z order page
  orderField : (s.pages page).order = order
  flagsField : (s.pages page).flags = flags &&& ~~~pageFlagZero
  refcountField : (s.pages page).refcount = 1

/-- The head of the block in hand is marked, which no other block sees. -/
theorem markAllocated_spec (flags : BitVec 32)
    (h : Core U (withHand X order page) s L) (hX : NoHand X) (hdvd : 2 ^ order ∣ page)
    (hzone : InZone z order page) :
    Core U (withHand X order page) (markAllocated s page order flags) L ∧
      Frame X s (markAllocated s page order flags) ∧
      Allocated z order page flags (markAllocated s page order flags) := by
  have hmem := head_mem_block order page
  refine ⟨?_, frame_setPage (h.outside hX hmem) _, hdvd, hzone, ?_, ?_, ?_⟩
  · exact h.setDesc (h.not_mem_list (.inr rfl) hmem) (h.mem_usable (.inr rfl) hmem) _ rfl
  all_goals
    unfold markAllocated
    rw [pages_setPage, if_pos rfl]

/-- `alloc_from_zone_locked` takes a free block in hand or changes nothing. -/
theorem allocFromZoneLocked_spec (order : ℕ) (flags : BitVec 32) (h : Core U X s L)
    (hcount : Counted s L) (hX : NoHand X) (z : ZoneId) :
    ∃ s' r, allocFromZoneLocked s z order flags = some (s', r) ∧
      (r = none → s' = s) ∧
      ∀ page, r = some page → ∃ L', Core U (withHand X order page) s' L' ∧ Counted s' L' ∧
        Frame X s s' ∧ Allocated z order page flags s' := by
  unfold allocFromZoneLocked
  cases hfind : findBlock (s.zones z).freeLists (maxOrder + 1) order with
  | none => exact ⟨s, none, rfl, fun _ => rfl, (nomatch ·, ·)⟩
  | some found =>
    obtain ⟨curr, page⟩ := found
    obtain ⟨hle, hlt, hlist⟩ := findBlock_spec _ hfind
    -- the head of the list is one of its pages
    have hmem : page ∈ L z curr := by
      have hhead := (h.dll z curr).head_eq
      rw [hlist] at hhead
      exact List.mem_of_head? hhead.symm
    obtain ⟨-, hdvd, -, hzone⟩ := h.heads z curr page hmem
    have honly := linksOnly_listRemove s z curr page
    obtain ⟨s₁, L₁, hrun, hcore₁, hframe₁, hpages₁, hmoved⟩ :=
      splitBlock_spec hX curr hle hlt hdvd hzone (h.takeOff hmem)
    have hdvd' : 2 ^ order ∣ page := (pow_dvd_pow 2 hle).trans hdvd
    have hzone' : InZone z order page := fun u hu => hzone u
      ⟨hu.1, hu.2.trans_le (Nat.add_le_add_left (Nat.pow_le_pow_right (by decide) hle) page)⟩
    obtain ⟨hcore₂, hframe₂, halloc⟩ := markAllocated_spec flags hcore₁ hX hdvd' hzone'
    refine ⟨_, some page, by dsimp only; rw [hrun]; rfl, (nomatch ·), fun q hq => ?_⟩
    obtain rfl : page = q := some.inj hq
    -- the counter loses the pages of the block that is handed out
    have hsame := hmoved.same
    have herase := listed_erase L z hlt hmem
    have hpages : ∀ z', ((markAllocated s₁ page order flags).zones z').freePages =
        (s.zones z').freePages :=
      fun z' => (hpages₁ z').trans (honly.freePages z')
    refine ⟨L₁, hcore₂.congr rfl (fun z' => freeLists_setFreePages _ z z' _) rfl,
      ?_, ?_, ?_⟩
    · intro z'
      rw [freePages_setFreePages]
      split
      next hz =>
        rw [hz, hpages, hcount]
        omega
      next hz =>
        rw [hpages z', hcount, ← listed_set_other L curr ((L z curr).erase page) hz,
          ← hmoved.other z' hz]
    · exact (((honly.frame).trans hframe₁).trans hframe₂).trans
        ⟨fun _ _ _ _ => ⟨rfl, rfl, rfl⟩, rfl, rfl, rfl⟩
    · exact ⟨halloc.aligned, halloc.zone, halloc.orderField, halloc.flagsField,
        halloc.refcountField⟩

/-! ## Merging -/

/-- A place off the lists is aligned and its descriptor does not look like that of a free block. -/
structure Quiet (s : PmmState) (a : Place) : Prop where
  aligned : 2 ^ a.order ∣ a.head
  unmarked : (s.pages a.head).flags &&& pageFlagFree ≠ 0 → (s.pages a.head).refcount ≠ 0

theorem Quiet.frame {a : Place} (h : Quiet s a) (hframe : Frame X s s')
    (ha : a ∈ X) : Quiet s' a := by
  refine ⟨h.aligned, ?_⟩
  rw [(hframe.head ha).flags, (hframe.head ha).refcount]
  exact h.unmarked

/-- The buddy is another block. -/
theorem buddy_ne (hp : 2 ^ o ∣ p) : p ^^^ 2 ^ o ≠ p := by
  rcases buddy_eq hp with ⟨-, heq⟩ | ⟨-, hle, heq⟩
  · rw [heq]
    omega
  · rw [heq]
    omega

include h hX in
/-- A buddy whose descriptor passes the tests of `free_to_zone_locked` is on the list. -/
theorem mem_list_of_mergeable
    (hquiet : ∀ a ∈ X, Quiet s a) (hdvd : 2 ^ o ∣ p) (hzone : InZone z o p)
    (hmerge : mergeable s p (p ^^^ 2 ^ o) o = true) : p ^^^ 2 ^ o ∈ L z o := by
  simp only [mergeable, Bool.and_eq_true, decide_eq_true_eq] at hmerge
  obtain ⟨⟨⟨⟨-, hfree⟩, horder⟩, hzones⟩, hrefs⟩ := hmerge
  have hhand : p ∈ (Place.mk .hand o p).extent := head_mem_block o p
  have husable : p ^^^ 2 ^ o ∈ U := by
    by_contra hout
    exact hfree (h.reserved _ hout)
  obtain ⟨a, ha, hmem⟩ := (h.tiles.cover _).1 husable
  -- a block around the buddy, with another head, would be the one in the hand
  have hinside : ∀ o' q holder, a = ⟨holder, o', q⟩ → 2 ^ o' ∣ q → holder ≠ .hand →
      q = p ^^^ 2 ^ o := by
    rintro o' q holder rfl hq hholder
    by_contra hne
    have hp : p ∈ block o' q := by
      rcases lt_or_ge o o' with hlt | hge
      · exact buddy_mem_block hdvd hq hlt hmem
      · have hdvd' := (pow_dvd_pow 2 hge).trans (buddy_dvd hdvd)
        exact absurd (eq_head_of_dvd hq hdvd' hmem).symm hne
    have heq := h.tiles.disj _ ha _ (.inr (.inr rfl)) p hp hhand
    exact hholder (congrArg Place.holder heq)
  rcases ha with ha | ha | ha
  · obtain ⟨z', hz', hlist⟩ := ha
    obtain ⟨-, hq, hord, hin⟩ := h.heads z' a.order a.head hlist
    have heq := hinside a.order a.head a.holder rfl hq (by rw [hz']; exact fun hc => by cases hc)
    have hz : z' = z := by
      rw [← hin _ hmem, ← hzone p (head_mem_block o p), ← h.zones, ← h.zones, hzones]
    rw [heq, horder] at hord
    rw [← hord] at hlist
    rw [← hz, ← heq]
    exact hlist
  · have heq := hinside a.order a.head a.holder rfl (hquiet a ha).aligned (hX a ha)
    exact absurd (by rw [heq]; exact hrefs) ((hquiet a ha).unmarked (by rw [heq]; exact hfree))
  · -- the buddy is not in the block itself
    subst ha
    exact absurd (eq_head_of_dvd hdvd (buddy_dvd hdvd) hmem) (buddy_ne hdvd)

/-- Two buddies in the hand become one block. -/
theorem Core.join (hdvd : 2 ^ o ∣ p) (hX : NoHand X)
    (h : Core U {a | a ∈ withHand X o p ∨ a = ⟨.hand, o, p ^^^ 2 ^ o⟩} s L) :
    Core U (withHand X (o + 1) (min p (p ^^^ 2 ^ o))) s L := by
  have hmerge := h.tiles.merge (a := Place.mk .hand o p) (b := Place.mk .hand o (p ^^^ 2 ^ o))
    (c := Place.mk .hand (o + 1) (min p (p ^^^ 2 ^ o))) (.inr (.inl (.inr rfl)))
    (.inr (.inr rfl)) (fun u => block_merge hdvd u)
  apply h.retile
  · apply hmerge.congr
    intro a
    constructor
    · rintro (ha | ha | ha)
      · obtain ⟨z', hz', hlist⟩ := ha
        refine .inl ⟨.inl ⟨z', hz', hlist⟩, fun heq => ?_, fun heq => ?_⟩
        all_goals
          rw [heq] at hz'
          cases hz'
      · exact .inl ⟨.inr (.inl (.inl ha)), fun heq => hX a ha (by rw [heq]),
          fun heq => hX a ha (by rw [heq])⟩
      · exact .inr ha
    · rintro (⟨ha | (ha | ha) | ha, hne, hne'⟩ | ha)
      · exact .inl ha
      · exact .inr (.inl ha)
      · exact absurd ha hne
      · exact absurd ha hne'
      · exact .inr (.inr ha)
  · rintro a (ha | rfl) z'
    · exact h.offList a (.inl (.inl ha)) z'
    · exact fun heq => by cases heq

/-- The block in hand grows by its free buddies and stays aligned and in its zone. -/
theorem mergeBuddies_spec (hX : NoHand X) : ∀ (fuel : ℕ) {s : PmmState} {L : FreeLists}
    {p o : ℕ}, o < maxOrder → 2 ^ o ∣ p → InZone z o p → Core U (withHand X o p) s L →
    (∀ a ∈ X, Quiet s a) →
    ∃ s' p' o' L', mergeBuddies z fuel s p o = (s', p', o') ∧ o' < maxOrder ∧ 2 ^ o' ∣ p' ∧
      InZone z o' p' ∧ Core U (withHand X o' p') s' L' ∧ LinksOnly s s' ∧
      ListsMoved z o o' L L' := by
  intro fuel
  induction fuel with
  | zero =>
    intro s L p o hlt hdvd hzone h _
    exact ⟨s, p, o, L, rfl, hlt, hdvd, hzone, h, .refl s, rfl, fun _ _ => rfl⟩
  | succ fuel ih =>
    intro s L p o hlt hdvd hzone h hquiet
    unfold mergeBuddies
    split
    next hmerge =>
      -- a descriptor that passes the test is the head of a block on the list of this order
      have hlist := mem_list_of_mergeable h hX hquiet hdvd hzone hmerge.2
      obtain ⟨-, -, -, hzoneb⟩ := h.heads z o _ hlist
      have honly := linksOnly_listRemove s z o (p ^^^ 2 ^ o)
      have hjoin := (h.takeOff hlist).join hdvd hX
      have hzone' : InZone z (o + 1) (min p (p ^^^ 2 ^ o)) := fun u hu =>
        ((block_merge hdvd u).1 hu).elim (hzone u) (hzoneb u)
      obtain ⟨s', p', o', L', hrun, hlt', hdvd', hzone'', hcore, honly', hmoved⟩ :=
        ih (by omega) (merge_dvd hdvd) hzone' hjoin fun a ha => (hquiet a ha).frame honly.frame ha
      refine ⟨s', p', o', L', hrun, hlt', hdvd', hzone'', hcore, honly.trans honly', ?_, ?_⟩
      · have hsame := hmoved.same
        have herase := listed_erase L z hlt hlist
        omega
      · intro z' hz'
        rw [hmoved.other z' hz', listed_set_other L _ _ hz']
    next => exact ⟨s, p, o, L, rfl, hlt, hdvd, hzone, h, .refl s, rfl, fun _ _ => rfl⟩

/-! ## Release -/

/-- `free_to_zone_locked` brings the block in hand back to the lists. -/
theorem freeToZoneLocked_spec (hX : NoHand X) (hlt : order < maxOrder)
    (hdvd : 2 ^ order ∣ page) (hzone : InZone z order page)
    (h : Core U (withHand X order page) s L) (hcount : Counted s L) (hquiet : ∀ a ∈ X, Quiet s a) :
    ∃ L', Core U X (freeToZoneLocked s z page order) L' ∧
      Counted (freeToZoneLocked s z page order) L' ∧
      Frame X s (freeToZoneLocked s z page order) := by
  obtain ⟨s₁, p, o, L₁, hrun, hlt₁, hdvd₁, hzone₁, hcore₁, honly₁, hmoved⟩ :=
    mergeBuddies_spec hX maxOrder hlt hdvd hzone h hquiet
  have hput := hcore₁.putOn (z := z) (o := o) (p := p) (a := .mk .hand o p) (.inr rfl) rfl rfl
    (v := (s₁.pages p).asFree o) rfl rfl hlt₁ hdvd₁ hzone₁
  set s₂ := putOn s₁ z o p ((s₁.pages p).asFree o)
  have honly₂ := linksOnly_listAddHead (s₁.setPage p ((s₁.pages p).asFree o)) z o p
  have hfree : freeToZoneLocked s z page order =
      s₂.setFreePages z ((s₂.zones z).freePages + 2 ^ order) := by
    unfold freeToZoneLocked
    rw [hrun]
    rfl
  rw [hfree]
  refine ⟨L₁.set z o (p :: L₁ z o), ?_, ?_, ?_⟩
  · have hback : Core U X s₂ (L₁.set z o (p :: L₁ z o)) := by
      apply hput.congrSet
      intro a
      constructor
      · exact fun ha => ⟨.inl ha, fun heq => hX a ha (by rw [heq])⟩
      · rintro ⟨ha | ha, hne⟩
        · exact ha
        · exact absurd ha hne
    exact hback.congr rfl (fun z' => freeLists_setFreePages _ z z' _) rfl
  · -- the counter gains the pages of the block, the lists those of the merged one
    have hpages : ∀ z', (s₂.zones z').freePages = listed L z' :=
      fun z' => (honly₂.freePages z').trans ((honly₁.freePages z').trans (hcount z'))
    intro z'
    rw [freePages_setFreePages]
    by_cases hz : z' = z
    · subst hz
      have hsame := hmoved.same
      rw [if_pos rfl, listed_cons L₁ z' hlt₁, hpages]
      omega
    · rw [if_neg hz, hpages, listed_set_other L₁ _ _ hz, hmoved.other z' hz]
  · exact ((honly₁.frame.trans (frame_setPage
      (hcore₁.outside hX (head_mem_block o p)) _)).trans honly₂.frame).trans
      ⟨fun _ _ _ _ => ⟨rfl, rfl, rfl⟩, rfl, rfl, rfl⟩

end BoredOS.Mem.Pmm
