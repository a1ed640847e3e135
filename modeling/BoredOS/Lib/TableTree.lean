import BoredOS.Lib.Update

/-!
# Trees of Tables

A table is an array of entries and is named by a number. An entry of an inner table is zero or leads
to another table; an entry of a table at the lowest level is a value. Nothing in the memory says
where a table belongs: that is what `pos` is for, which gives the tables of a forest their root and
the indices on the way from it.

`Tree` ties `pos` to the entries in both directions: what an entry leads to has the position of that
entry, and a table below a root is led to. A table then has one position and a position one table
(`Tree.unique`). A tree grows by a table of zeroes (`Tree.grow`) and loses an empty table
(`Tree.drop`), and both leave all values alone; a store into a table at the lowest level changes the
value of its own index path and no other (`Tree.value_store`).
-/

namespace BoredOS.Lib.TableTree

open Function List Update

variable {E : Type*}

/-- The root that a table is below and the indices on the way to it. -/
abbrev Spot := ℕ × List ℕ

/-- A store into a table. -/
def store (t : ℕ → ℕ → E) (f i : ℕ) (e : E) : ℕ → ℕ → E :=
  update t f (update (t f) i e)

theorem store_apply (t : ℕ → ℕ → E) (f i : ℕ) (e : E) (g j : ℕ) :
    store t f i e g j = if g = f ∧ j = i then e else t g j := by
  unfold store
  by_cases hg : g = f
  · subst hg
    simp [update_apply]
  · simp [hg]

/-- The value that a list of indices leads to. -/
def value [Zero E] [DecidableEq E] (target : E → ℕ) (t : ℕ → ℕ → E) : ℕ → List ℕ → E
  | _, [] => 0
  | f, [i] => t f i
  | f, i :: j :: is => if t f i = 0 then 0 else value target t (target (t f i)) (j :: is)

/-- The indices stay in the range `dom` of the tables on the way. -/
def Along (dom : List ℕ → ℕ → Prop) : List ℕ → List ℕ → Prop
  | _, [] => True
  | path, i :: is => dom path i ∧ Along dom (path ++ [i]) is

/-- A forest of tables: `depth` is the length of the path to a table at the lowest level and `dom`
the range of the indices that belong to the forest. -/
structure Tree [Zero E] (target : E → ℕ) (depth : ℕ) (dom : List ℕ → ℕ → Prop)
    (pos : ℕ → Option Spot)
    (t : ℕ → ℕ → E) : Prop where
  root : ∀ f r, pos f = some (r, []) → f = r
  short : ∀ f r path, pos f = some (r, path) → path.length ≤ depth
  entry : ∀ f r path, pos f = some (r, path) → path.length < depth → ∀ i, dom path i →
    t f i = 0 ∨ pos (target (t f i)) = some (r, path ++ [i])
  linked : ∀ g r path i, pos g = some (r, path ++ [i]) →
    ∃ f, pos f = some (r, path) ∧ dom path i ∧ t f i ≠ 0 ∧ target (t f i) = g

variable {path path₀ : List ℕ} {f₀ r₀ i₀ : ℕ}

namespace Tree

variable [Zero E] {target : E → ℕ} {depth : ℕ} {dom : List ℕ → ℕ → Prop} {pos : ℕ → Option Spot}
  {t t' : ℕ → ℕ → E}

section

variable (h : Tree target depth dom pos t)

include h

/-- A position has one table. -/
theorem unique {r : ℕ} : ∀ (path : List ℕ) {f g : ℕ},
    pos f = some (r, path) → pos g = some (r, path) → f = g := by
  intro path
  induction path using reverseRecOn with
  | nil =>
    intro f g hf hg
    rw [h.root f r hf, h.root g r hg]
  | append_singleton path i ih =>
    intro f g hf hg
    -- both are led to by the same entry of the same table
    obtain ⟨f', hf', -, -, rfl⟩ := h.linked f r path i hf
    obtain ⟨g', hg', -, -, rfl⟩ := h.linked g r path i hg
    rw [ih hf' hg']

/-- An inner entry that is not zero leads to the table of its position. -/
theorem child {f r i : ℕ}
    (hf : pos f = some (r, path)) (hlen : path.length < depth) (hi : dom path i)
    (hne : t f i ≠ 0) : pos (target (t f i)) = some (r, path ++ [i]) :=
  (h.entry f r path hf hlen i hi).resolve_left hne

/-- The tables on the way to a table are there. -/
theorem ancestor {r : ℕ} (path : List ℕ) : ∀ (rest : List ℕ)
    {g : ℕ}, pos g = some (r, path ++ rest) → ∃ g', pos g' = some (r, path) := by
  intro rest
  induction rest using reverseRecOn with
  | nil =>
    intro g hg
    rw [append_nil] at hg
    exact ⟨g, hg⟩
  | append_singleton rest k ih =>
    intro g hg
    rw [← append_assoc] at hg
    obtain ⟨g', hg', -⟩ := h.linked g r _ k hg
    exact ih hg'

/-! ## Changes of the tree -/

/-- What is in other tables does not matter. -/
theorem congr (hagree : ∀ f, pos f ≠ none → t' f = t f) : Tree target depth dom pos t' := by
  refine ⟨h.root, h.short, ?_, ?_⟩
  · intro f r path hf
    rw [hagree f (by rw [hf]; simp)]
    exact h.entry f r path hf
  · intro g r path i hg
    obtain ⟨f, hf, hi, hne, htarget⟩ := h.linked g r path i hg
    refine ⟨f, hf, hi, ?_⟩
    rw [hagree f (by rw [hf]; simp)]
    exact ⟨hne, htarget⟩

section

variable (hf₀ : pos f₀ = some (r₀, path₀))

include hf₀

/-- A store into a table at the lowest level keeps the tree. -/
theorem storeLow (hlow : path₀.length = depth) (i₀ : ℕ) (e : E) :
    Tree target depth dom pos (store t f₀ i₀ e) := by
  have hother : ∀ f r path, pos f = some (r, path) → path.length < depth → ∀ i,
      store t f₀ i₀ e f i = t f i := by
    intro f r path hf hlen i
    rw [store_apply, if_neg]
    rintro ⟨rfl, -⟩
    rw [hf₀] at hf
    cases hf
    omega
  refine ⟨h.root, h.short, ?_, ?_⟩
  · intro f r path hf hlen i hi
    rw [hother f r path hf hlen i]
    exact h.entry f r path hf hlen i hi
  · intro g r path i hg
    obtain ⟨f, hf, hi, hne, htarget⟩ := h.linked g r path i hg
    have hlen := h.short g r (path ++ [i]) hg
    simp only [length_append, length_cons, length_nil] at hlen
    refine ⟨f, hf, hi, ?_, ?_⟩
    · rw [hother f r path hf (by omega) i]
      exact hne
    · rw [hother f r path hf (by omega) i]
      exact htarget

/-- A table of zeroes is linked from an entry that was zero. -/
theorem grow {g : ℕ} (hlow : path₀.length < depth) (hi₀ : dom path₀ i₀)
    (hzero : t f₀ i₀ = 0) (hg : pos g = none) {e : E} (he : e ≠ 0) (htarget : target e = g) :
    Tree target depth dom (update pos g (some (r₀, path₀ ++ [i₀])))
      (store (update t g fun _ => 0) f₀ i₀ e) := by
  have hne₀ : f₀ ≠ g := ne_of_none hg hf₀
  -- the tables that were there are as they were, but for the new link
  have hold : ∀ f ≠ g, ∀ i, store (update t g fun _ => 0) f₀ i₀ e f i =
      if f = f₀ ∧ i = i₀ then e else t f i := by
    intro f hf i
    rw [store_apply, update_of_ne hf]
  have hnew : ∀ i, store (update t g fun _ => 0) f₀ i₀ e g i = 0 := by
    intro i
    rw [store_apply, if_neg (fun hc => hne₀ hc.1.symm), update_self]
  refine ⟨?_, ?_, ?_, ?_⟩
  · intro f r hf
    obtain ⟨-, hf⟩ | ⟨-, hf⟩ := of_update hf
    · simp at hf
    · exact h.root f r hf
  · intro f r path hf
    obtain ⟨-, hf⟩ | ⟨-, hf⟩ := of_update hf
    · cases hf
      simp only [length_append, length_cons, length_nil]
      omega
    · exact h.short f r path hf
  · intro f r path hf hlen i hi
    obtain ⟨rfl, -⟩ | ⟨hne, hfp⟩ := of_update hf
    · exact .inl (hnew i)
    · rw [hold f hne i]
      split
      next hat =>
        obtain ⟨rfl, rfl⟩ := hat
        rw [hfp] at hf₀
        cases hf₀
        rw [htarget, update_self]
        exact .inr rfl
      next =>
        rcases h.entry f r path hfp hlen i hi with hz | hp
        · exact .inl hz
        · right
          rw [update_of_ne (ne_of_none hg hp), hp]
  · intro q r path i hq
    obtain ⟨rfl, hspot⟩ | ⟨-, hq⟩ := of_update hq
    · obtain ⟨rfl, hpath⟩ := Prod.mk.inj (Option.some.inj hspot)
      obtain ⟨rfl, hi⟩ := append_inj' hpath rfl
      obtain rfl := (cons.inj hi).1
      refine ⟨f₀, ?_, hi₀, ?_, ?_⟩
      · rw [update_of_ne hne₀]
        exact hf₀
      · rw [hold f₀ hne₀, if_pos ⟨rfl, rfl⟩]
        exact he
      · rw [hold f₀ hne₀, if_pos ⟨rfl, rfl⟩, htarget]
    · obtain ⟨f, hf, hi, hne, ht⟩ := h.linked q r path i hq
      have hfg : f ≠ g := ne_of_none hg hf
      have hat : ¬ (f = f₀ ∧ i = i₀) := by
        rintro ⟨rfl, rfl⟩
        exact hne hzero
      refine ⟨f, ?_, hi, ?_, ?_⟩
      · rw [update_of_ne hfg]
        exact hf
      · rw [hold f hfg, if_neg hat]
        exact hne
      · rw [hold f hfg, if_neg hat]
        exact ht

/-- An empty table is unlinked. -/
theorem drop (hlow : path₀.length < depth) (hi₀ : dom path₀ i₀) (hne : t f₀ i₀ ≠ 0)
    (hempty : ∀ i, dom (path₀ ++ [i₀]) i → t (target (t f₀ i₀)) i = 0) :
    Tree target depth dom (update pos (target (t f₀ i₀)) none) (store t f₀ i₀ 0) := by
  have hg := h.child hf₀ hlow hi₀ hne
  refine ⟨?_, ?_, ?_, ?_⟩
  · intro f r hf
    obtain ⟨-, hf⟩ := of_update_none hf
    exact h.root f r hf
  · intro f r path hf
    obtain ⟨-, hf⟩ := of_update_none hf
    exact h.short f r path hf
  · intro f r path hf hlen i hi
    obtain ⟨-, hf⟩ := of_update_none hf
    rw [store_apply]
    by_cases hat : f = f₀ ∧ i = i₀
    · exact .inl (if_pos hat)
    · rw [if_neg hat]
      rcases h.entry f r path hf hlen i hi with hz | hp
      · exact .inl hz
      · right
        rw [update_of_ne]
        · exact hp
        · -- another entry that leads to the table would have its position
          intro heq
          rw [heq, hg] at hp
          obtain ⟨rfl, hpath⟩ := Prod.mk.inj (Option.some.inj hp)
          obtain ⟨rfl, hidx⟩ := append_inj' hpath rfl
          exact hat ⟨h.unique _ hf hf₀, (cons.inj hidx).1.symm⟩
  · intro q r path i hq
    obtain ⟨hqne, hq⟩ := of_update_none hq
    obtain ⟨f, hf, hi, hfi, ht⟩ := h.linked q r path i hq
    have hfg : f ≠ target (t f₀ i₀) := by
      rintro rfl
      rw [hg] at hf
      cases hf
      exact hfi (hempty i hi)
    have hat : ¬ (f = f₀ ∧ i = i₀) := by
      rintro ⟨rfl, rfl⟩
      exact hqne ht.symm
    refine ⟨f, ?_, hi, ?_, ?_⟩
    · rw [update_of_ne hfg]
      exact hf
    · rw [store_apply, if_neg hat]
      exact hfi
    · rw [store_apply, if_neg hat]
      exact ht

end

end

end Tree

/-! ## Values -/

variable [Zero E] [DecidableEq E] {target : E → ℕ} {t t' : ℕ → ℕ → E} {f i j : ℕ} {is : List ℕ}

theorem value_zero (h : t f i = 0) : value target t f (i :: is) = 0 := by
  cases is with
  | nil => exact h
  | cons => exact if_pos h

theorem value_step (h : t f i ≠ 0) :
    value target t f (i :: j :: is) = value target t (target (t f i)) (j :: is) :=
  if_neg h

variable {depth r : ℕ} {dom : List ℕ → ℕ → Prop} {pos pos' : ℕ → Option Spot}

/-- The value of a path is in the table at its end, and zero if there is no such table. -/
theorem Tree.value_at (h : Tree target depth dom pos t) : ∀ (is path : List ℕ) {f : ℕ},
    pos f = some (r, path) → path.length + is.length = depth → Along dom path (is ++ [i]) →
    (∃ g, pos g = some (r, path ++ is) ∧ value target t f (is ++ [i]) = t g i) ∨
      (∀ g, pos g ≠ some (r, path ++ is)) ∧ value target t f (is ++ [i]) = 0 := by
  intro is
  induction is with
  | nil => exact fun path f hf _ _ => .inl ⟨f, by rwa [append_nil], rfl⟩
  | cons j is ih =>
    intro path f hf hlen halong
    simp only [length_cons] at hlen
    by_cases hzero : t f j = 0
    · refine .inr ⟨fun g hg => ?_, value_zero hzero⟩
      -- the table would be below the one that the zero leads to
      obtain ⟨g', hg'⟩ := h.ancestor (path ++ [j]) is (by rw [append_assoc]; exact hg)
      obtain ⟨f', hf', -, hne, -⟩ := h.linked g' r path j hg'
      rw [h.unique path hf' hf] at hne
      exact hne hzero
    · have hbelow := ih (path ++ [j]) (h.child hf (by omega) halong.1 hzero)
        (by simp only [length_append, length_cons, length_nil]; omega) halong.2
      obtain ⟨k, ks, hks⟩ := exists_cons_of_ne_nil (concat_ne_nil i is)
      rw [append_assoc] at hbelow
      rw [cons_append, hks, value_step hzero, ← hks]
      exact hbelow

variable (h : Tree target depth dom pos t) (hr : pos r = some (r, [])) {is : List ℕ} {i : ℕ}
  (hlen : is.length = depth) (halong : Along dom [] (is ++ [i]))

include h hr hlen halong

/-- The values of two forests are the same when the tables at the lowest level are, but for those
that are in one forest only and hold zeroes. -/
theorem Tree.value_same (h' : Tree target depth dom pos' t') (hr' : pos' r = some (r, []))
    (hold : ∀ g, pos g = some (r, is) →
      pos' g = some (r, is) ∧ t' g i = t g i ∨ pos' g = none ∧ t g i = 0)
    (hnew : ∀ g, pos' g = some (r, is) → pos g = some (r, is) ∨ t' g i = 0) :
    value target t' r (is ++ [i]) = value target t r (is ++ [i]) := by
  have hzero := (Nat.zero_add is.length).trans hlen
  rcases h.value_at is [] hr hzero halong with ⟨g, hg, hv⟩ | ⟨hno, hv⟩ <;>
    rcases h'.value_at is [] hr' hzero halong with ⟨g', hg', hv'⟩ | ⟨hno', hv'⟩ <;> rw [hv, hv']
  · rcases hold g hg with ⟨hsame, heq⟩ | ⟨hgone, hz⟩
    · rw [h'.unique is hg' hsame, heq]
    · rcases hnew g' hg' with hthere | hz'
      · rw [h.unique is hthere hg] at hg'
        rw [hgone] at hg'
        cases hg'
      · rw [hz', hz]
  · exact ((hold g hg).resolve_left fun hsame => hno' g hsame.1).2.symm
  · exact (hnew g' hg').resolve_left (hno g')

/-- A store into a table at the lowest level changes the value of one path. -/
theorem Tree.value_store (hf₀ : pos f₀ = some (r₀, path₀)) (hlow : path₀.length = depth) (e : E) :
    value target (store t f₀ i₀ e) r (is ++ [i]) =
      if r = r₀ ∧ is ++ [i] = path₀ ++ [i₀] then e else value target t r (is ++ [i]) := by
  have hzero := (Nat.zero_add is.length).trans hlen
  have hat : r = r₀ ∧ is ++ [i] = path₀ ++ [i₀] ↔ pos f₀ = some (r, is) ∧ i = i₀ := by
    rw [hf₀]
    constructor
    · rintro ⟨rfl, hpath⟩
      obtain ⟨rfl, hi⟩ := append_inj' hpath rfl
      exact ⟨rfl, (cons.inj hi).1⟩
    · rintro ⟨hspot, rfl⟩
      cases hspot
      exact ⟨rfl, rfl⟩
  simp only [hat]
  rcases h.value_at is [] hr hzero halong with ⟨g, hg, hv⟩ | ⟨hno, hv⟩ <;>
    rcases (h.storeLow hf₀ hlow i₀ e).value_at is [] hr hzero halong with
      ⟨g', hg', hv'⟩ | ⟨hno', hv'⟩ <;> rw [hv, hv']
  · obtain rfl := h.unique is hg' hg
    have hiff : g' = f₀ ↔ pos f₀ = some (r, is) := ⟨fun heq => heq ▸ hg, h.unique is hg⟩
    simp only [store_apply, hiff]
  · exact absurd hg (hno' g)
  · exact absurd hg' (hno g')
  · rw [if_neg fun hc => hno f₀ hc.1]

end BoredOS.Lib.TableTree
