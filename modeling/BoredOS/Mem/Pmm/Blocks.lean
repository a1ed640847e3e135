import BoredOS.Lib.Tiling
import BoredOS.Mem.Pmm.Lists

/-!
# Blocks and Who Holds Them

A `Place` is a block with its holder: a free list, the pool of a CPU, a client, or the running call
itself. `Core U X s L` says that the blocks on the lists `L` and the places in `X` tile the usable
pages `U`, and that the descriptors are right for the blocks on the lists. What the functions of
`mem/pmm.c` do is put together from taking a block off a list, putting one on a list, and splitting,
merging and handing over the blocks in `X`.
-/

namespace BoredOS.Mem.Pmm

open Lib.Tiling Lib.DList List
open PmmState (pages_setPage)
open FreeLists (set_other set_same)

/-! ## Places -/

/-- Who holds a block; `hand` is the running call. -/
inductive Holder where
  | zone (z : ZoneId)
  | pool (cpu : ℕ)
  | client
  | hand
  deriving DecidableEq

/-- A block with its holder. -/
structure Place where
  holder : Holder
  order : ℕ
  head : ℕ

def Place.extent (a : Place) : Set ℕ := block a.order a.head

/-- A free block on a list. -/
def OnList (L : FreeLists) (a : Place) : Prop := ∃ z, a.holder = .zone z ∧ a.head ∈ L z a.order

variable {z : ZoneId} {o p : ℕ} {a : Place}

theorem onList_zone {L : FreeLists} {h : ℕ} : OnList L ⟨.zone z, o, h⟩ ↔ h ∈ L z o := by
  constructor
  · rintro ⟨z', hz, hmem⟩
    cases hz
    exact hmem
  · exact fun hmem => ⟨z, rfl, hmem⟩

theorem onList_set {L : FreeLists} {xs : List ℕ} : OnList (L.set z o xs) a ↔
    if a.holder = .zone z ∧ a.order = o then a.head ∈ xs else OnList L a := by
  obtain ⟨holder, o', q⟩ := a
  cases holder with
  | zone =>
    simp only [onList_zone, FreeLists.set, Holder.zone.injEq]
    split <;> rfl
  | _ => simp [OnList]

theorem Place.head_mem_extent (a : Place) : a.head ∈ a.extent := head_mem_block a.order a.head

/-- The zone of a page by its address. -/
def zoneOf (pfn : ℕ) : ZoneId := paddrToZoneId (pfn * pageSize)

def InZone (z : ZoneId) (o h : ℕ) : Prop := ∀ u ∈ block o h, zoneOf u = z

/-- The blocks on the lists and the places in `X` tile `U`; the descriptors of the blocks on the
lists are right, and no page outside `U` looks free. -/
structure Core (U : Set ℕ) (X : Set Place) (s : PmmState) (L : FreeLists) : Prop where
  dll : ∀ z o, Dll (fun p => (s.pages p).freeNext) (fun p => (s.pages p).freePrev)
    ((s.zones z).freeLists o) (L z o)
  tiles : Tiles Place.extent {a | OnList L a ∨ a ∈ X} U
  offList : ∀ a ∈ X, ∀ z, a.holder ≠ .zone z
  heads : ∀ z o h, h ∈ L z o → o < maxOrder ∧ 2 ^ o ∣ h ∧ (s.pages h).order = o ∧ InZone z o h
  reserved : ∀ u, u ∉ U → (s.pages u).flags &&& pageFlagFree = 0
  zones : ∀ u, (s.pages u).zone = zoneOf u
  below : ∀ u ∈ U, u < s.totalPageCount

section

variable {U : Set ℕ} {X : Set Place} {s : PmmState} {L : FreeLists}

section

variable (h : Core U X s L)

include h

/-- No head of a place in `X` is on a list. -/
theorem Core.not_mem_list (ha : a ∈ X) {u : ℕ} (hu : u ∈ a.extent)
    (z : ZoneId) (o : ℕ) : u ∉ L z o := by
  intro hmem
  have heq := h.tiles.disj ⟨.zone z, o, u⟩ (.inl (onList_zone.2 hmem)) a (.inr ha) u
    (head_mem_block o u) hu
  exact h.offList a ha z (heq ▸ rfl)

theorem Core.linked : Linked s L := by
  refine ⟨h.dll, ?_⟩
  intro z o z' o' p hp hp'
  have heq := h.tiles.disj ⟨.zone z', o', p⟩ (.inl (onList_zone.2 hp')) ⟨.zone z, o, p⟩
    (.inl (onList_zone.2 hp)) p (head_mem_block o' p) (head_mem_block o p)
  cases heq
  exact ⟨rfl, rfl⟩

theorem Core.mem_usable (ha : a ∈ X) {u : ℕ} (hu : u ∈ a.extent) : u ∈ U :=
  h.tiles.mem (.inr ha) hu

/-- Other places off the lists, with the same pages. -/
theorem Core.retile {X' : Set Place} (htiles : Tiles Place.extent {a | OnList L a ∨ a ∈ X'} U)
    (hoff : ∀ a ∈ X', ∀ z, a.holder ≠ .zone z) : Core U X' s L :=
  { h with tiles := htiles, offList := hoff }

/-- A store into the descriptor of a page that is not the head of a block on a list. -/
theorem Core.setDesc (hp : ∀ z o, p ∉ L z o) (hU : p ∈ U) (v : Page)
    (hzone : v.zone = (s.pages p).zone) : Core U X (s.setPage p v) L := by
  refine ⟨?_, h.tiles, h.offList, ?_, ?_, ?_, h.below⟩
  · intro z o
    apply (h.dll z o).congr
    · intro y hy
      have hyp : y ≠ p := fun heq => hp z o (heq ▸ hy)
      rw [pages_setPage, if_neg hyp]
      exact ⟨rfl, rfl⟩
    · rfl
  · intro z o q hq
    have hqp : q ≠ p := fun heq => hp z o (heq ▸ hq)
    rw [pages_setPage, if_neg hqp]
    exact h.heads z o q hq
  · intro u hu
    have hup : u ≠ p := fun heq => hu (heq ▸ hU)
    rw [pages_setPage, if_neg hup]
    exact h.reserved u hu
  · intro u
    rw [pages_setPage]
    split
    next hu => rw [hu, hzone, h.zones]
    next => exact h.zones u

/-- Counters and pools are not part of it. -/
theorem Core.congr {s' : PmmState} (hpages : s'.pages = s.pages)
    (hlists : ∀ z, (s'.zones z).freeLists = (s.zones z).freeLists)
    (htotal : s'.totalPageCount = s.totalPageCount) : Core U X s' L := by
  refine ⟨?_, h.tiles, h.offList, ?_, ?_, ?_, ?_⟩
  · intro z o
    rw [hpages, hlists]
    exact h.dll z o
  · rw [hpages]
    exact h.heads
  · rw [hpages]
    exact h.reserved
  · rw [hpages]
    exact h.zones
  · rw [htotal]
    exact h.below

/-! ## Taking a block off a list -/

theorem Core.takeOff (hp : p ∈ L z o) :
    Core U {a | a ∈ X ∨ a = ⟨.hand, o, p⟩} (listRemove s z o p) (L.set z o ((L z o).erase p)) := by
  have hlists := listRemove_spec h.linked hp
  have honly := linksOnly_listRemove s z o p
  have hnodup : (L z o).Nodup := (h.dll z o).nodup
  -- the lists without the block
  have hon : ∀ a, OnList (L.set z o ((L z o).erase p)) a ↔ OnList L a ∧ a ≠ ⟨.zone z, o, p⟩ := by
    rintro ⟨holder, o', q⟩
    rw [onList_set]
    split
    next hat =>
      obtain ⟨rfl, rfl⟩ : holder = .zone z ∧ o' = o := hat
      rw [hnodup.mem_erase_iff, onList_zone, and_comm]
      simp
    next hat => exact (and_iff_left fun heq => hat (by cases heq; exact ⟨rfl, rfl⟩)).symm
  refine ⟨hlists, ?_, ?_, ?_, ?_, ?_, ?_⟩
  · have hrename := h.tiles.rename (a := ⟨.zone z, o, p⟩) (b := ⟨.hand, o, p⟩)
      (.inl (onList_zone.2 hp)) rfl
    apply hrename.congr
    intro a
    simp only [Set.mem_ofPred_eq, hon]
    constructor
    · rintro (⟨ha, hne⟩ | ha | ha)
      · exact .inl ⟨.inl ha, hne⟩
      · exact .inl ⟨.inr ha, fun heq => h.offList a ha z (by rw [heq])⟩
      · exact .inr ha
    · rintro (⟨ha | ha, hne⟩ | ha)
      · exact .inl ⟨ha, hne⟩
      · exact .inr (.inl ha)
      · exact .inr (.inr ha)
  · rintro a (ha | rfl) z'
    · exact h.offList a ha z'
    · exact fun heq => by cases heq
  · intro z' o' q hq
    have hq' : q ∈ L z' o' := by
      have := (hon ⟨.zone z', o', q⟩).1 (onList_zone.2 hq)
      exact onList_zone.1 this.1
    rw [honly.order]
    exact h.heads z' o' q hq'
  · intro u hu
    rw [honly.flags]
    exact h.reserved u hu
  · intro u
    rw [honly.zone]
    exact h.zones u
  · rw [honly.total]
    exact h.below

end

/-! ## Putting a block on a list -/

/-- The state after a block was described as free and put at the head of a list. -/
def putOn (s : PmmState) (z : ZoneId) (o p : ℕ) (v : Page) : PmmState :=
  listAddHead (s.setPage p v) z o p

theorem Core.putOn (h : Core U X s L) (ha : a ∈ X)
    (hao : a.order = o) (hap : a.head = p) {v : Page} (hvo : v.order = o)
    (hvz : v.zone = (s.pages p).zone) (hlt : o < maxOrder) (hdvd : 2 ^ o ∣ p)
    (hzone : InZone z o p) :
    Core U {b | b ∈ X ∧ b ≠ a} (putOn s z o p v) (L.set z o (p :: L z o)) := by
  subst hao hap
  have hnot : ∀ z o, a.head ∉ L z o := h.not_mem_list ha a.head_mem_extent
  have hdesc := h.setDesc hnot (h.mem_usable ha a.head_mem_extent) v hvz
  have hlists := listAddHead_spec hdesc.linked z a.order hnot
  have honly := linksOnly_listAddHead (s.setPage a.head v) z a.order a.head
  have hon : ∀ b, OnList (L.set z a.order (a.head :: L z a.order)) b ↔
      OnList L b ∨ b = ⟨.zone z, a.order, a.head⟩ := by
    rintro ⟨holder, o', q⟩
    rw [onList_set]
    split
    next hat =>
      obtain ⟨rfl, rfl⟩ : holder = .zone z ∧ o' = a.order := hat
      rw [mem_cons, onList_zone, or_comm]
      simp
    next hat => exact (or_iff_left fun heq => hat (by cases heq; exact ⟨rfl, rfl⟩)).symm
  show Core U _ (listAddHead (s.setPage a.head v) z a.order a.head) _
  refine ⟨hlists, ?_, ?_, ?_, ?_, ?_, ?_⟩
  · have hrename := h.tiles.rename (a := a) (b := ⟨.zone z, a.order, a.head⟩) (.inr ha) rfl
    apply hrename.congr
    intro b
    simp only [Set.mem_ofPred_eq, hon]
    constructor
    · rintro ((hb | hb) | hb)
      · refine .inl ⟨.inl hb, fun heq => ?_⟩
        obtain ⟨z', hz', -⟩ := hb
        exact h.offList a ha z' (heq ▸ hz')
      · exact .inr hb
      · exact .inl ⟨.inr hb.1, hb.2⟩
    · rintro (⟨hb | hb, hne⟩ | hb)
      · exact .inl (.inl hb)
      · exact .inr ⟨hb, hne⟩
      · exact .inl (.inr hb)
  · exact fun b hb => h.offList b hb.1
  · intro z' o' q hq
    rw [honly.order]
    rcases (hon ⟨.zone z', o', q⟩).1 (onList_zone.2 hq) with hq' | heq
    · exact hdesc.heads z' o' q (onList_zone.1 hq')
    · cases heq
      rw [pages_setPage, if_pos rfl]
      exact ⟨hlt, hdvd, hvo, hzone⟩
  · intro u hu
    rw [honly.flags]
    exact hdesc.reserved u hu
  · intro u
    rw [honly.zone]
    exact hdesc.zones u
  · rw [honly.total]
    exact h.below

end

/-! ## Counting the free pages -/

/-- The number of pages in the blocks on the lists of a zone. -/
def listed (L : FreeLists) (z : ZoneId) : ℕ :=
  ∑ o ∈ Finset.range maxOrder, 2 ^ o * (L z o).length

variable (L : FreeLists)

theorem listed_set_other {z' : ZoneId} (o : ℕ) (xs : List ℕ) (hz : z' ≠ z) :
    listed (L.set z o xs) z' = listed L z' := by
  apply Finset.sum_congr rfl
  intro o' _
  rw [set_other L _ fun h => hz h.1]

theorem listed_set_same (z : ZoneId) (ho : o < maxOrder) (xs : List ℕ) :
    listed (L.set z o xs) z + 2 ^ o * (L z o).length = listed L z + 2 ^ o * xs.length := by
  have hmem : o ∈ Finset.range maxOrder := Finset.mem_range.2 ho
  have hsplit : ∀ K : FreeLists, listed K z = 2 ^ o * (K z o).length +
      ∑ o' ∈ (Finset.range maxOrder).erase o, 2 ^ o' * (K z o').length :=
    fun K => (Finset.add_sum_erase _ _ hmem).symm
  have hrest : ∑ o' ∈ (Finset.range maxOrder).erase o, 2 ^ o' * (L.set z o xs z o').length =
      ∑ o' ∈ (Finset.range maxOrder).erase o, 2 ^ o' * (L z o').length := by
    apply Finset.sum_congr rfl
    intro o' ho'
    rw [set_other L _ fun h => Finset.ne_of_mem_erase ho' h.2]
  rw [hsplit (L.set z o xs), hsplit L, hrest, set_same]
  omega

theorem listed_cons (z : ZoneId) (ho : o < maxOrder) (p : ℕ) :
    listed (L.set z o (p :: L z o)) z = listed L z + 2 ^ o := by
  have h := listed_set_same L z ho (p :: L z o)
  rw [length_cons, mul_add, mul_one] at h
  omega

theorem listed_erase (z : ZoneId) (ho : o < maxOrder)
    (hp : p ∈ L z o) : listed (L.set z o ((L z o).erase p)) z + 2 ^ o = listed L z := by
  have h := listed_set_same L z ho ((L z o).erase p)
  have hpos : 0 < (L z o).length := length_pos_of_mem hp
  obtain ⟨n, hn⟩ : ∃ n, (L z o).length = n + 1 := ⟨(L z o).length - 1, by omega⟩
  rw [length_erase_of_mem hp, hn, Nat.add_sub_cancel, mul_add, mul_one] at h
  omega

end BoredOS.Mem.Pmm
