import Mathlib

/-!
# Trees Given by Lists of Children

`Reaches kids a b`: there is a way from `a` to `b` along the lists of children. The lemmas say what
is still reached when a leaf is taken away (`Reaches.of_leaf`) and when a node is moved to another
parent with all that is below it (`Reaches.move`). If that parent is itself below the node, nothing
outside reaches the node any more (`not_reaches_of_move_below`).
-/

namespace BoredOS.Lib.Forest

variable {α : Type} {kids kids' : α → List α} {r x p n : α}

/-- A way along the lists of children. -/
def Reaches (kids : α → List α) : α → α → Prop := Relation.ReflTransGen fun a b => b ∈ kids a

theorem Reaches.refl (a : α) : Reaches kids a a := Relation.ReflTransGen.refl

theorem Reaches.tail {a b c : α} (h : Reaches kids a b) (hc : c ∈ kids b) : Reaches kids a c :=
  Relation.ReflTransGen.tail h hc

theorem Reaches.mono (hsub : ∀ a b, b ∈ kids a → b ∈ kids' a) (h : Reaches kids r n) :
    Reaches kids' r n :=
  Relation.ReflTransGen.mono hsub _ _ h

/-- The last step of a way, if it is not the empty one. -/
theorem Reaches.cases_last {a b : α} (h : Reaches kids a b) :
    a = b ∨ ∃ c, Reaches kids a c ∧ b ∈ kids c := by
  obtain heq | ⟨c, hc, hb⟩ := Relation.ReflTransGen.cases_tail h
  · exact .inl heq.symm
  · exact .inr ⟨c, hc, hb⟩

/-- Nothing else is lost with a leaf. -/
theorem Reaches.of_leaf (hleaf : kids x = []) (hkeep : ∀ a b, b ≠ x → b ∈ kids a → b ∈ kids' a)
    (hn : n ≠ x) (h : Reaches kids r n) : Reaches kids' r n := by
  induction h with
  | refl => exact .refl r
  | tail hb hc ih =>
    refine (ih ?_).tail (hkeep _ _ hn hc)
    rintro rfl
    simp [hleaf] at hc

section

variable (hkeep : ∀ a b, b ≠ x → b ∈ kids a → b ∈ kids' a)

include hkeep

/-- What is not below the node that moves is reached as before. -/
theorem Reaches.of_not_below (h : Reaches kids r n) (hn : ¬ Reaches kids x n) :
    Reaches kids' r n := by
  induction h with
  | refl => exact .refl r
  | tail hb hc ih =>
    refine (ih fun hxb => hn (hxb.tail hc)).tail (hkeep _ _ ?_ hc)
    rintro rfl
    exact hn (.refl _)

/-- A node moves to a parent that is not below it: all is still reached. -/
theorem Reaches.move (hx : x ∈ kids' p) (hp : Reaches kids r p) (hnot : ¬ Reaches kids x p)
    (h : Reaches kids r n) : Reaches kids' r n := by
  have hmoved : Reaches kids' r x := (hp.of_not_below hkeep hnot).tail hx
  have hbelow : ∀ m, Reaches kids x m → Reaches kids' r m := by
    intro m hm
    induction hm with
    | refl => exact hmoved
    | @tail b c hb hc ih =>
      by_cases hcx : c = x
      · exact hcx ▸ hmoved
      · exact ih.tail (hkeep _ _ hcx hc)
  by_cases hn : Reaches kids x n
  · exact hbelow n hn
  · exact h.of_not_below hkeep hn

end

/-- A node moves to a parent below itself: from outside it is not reached any more. -/
theorem not_reaches_of_move_below (huniq : ∀ a a' b, b ∈ kids a → b ∈ kids a' → a = a')
    (hedge : ∀ a b, b ∈ kids' a → b ≠ x ∧ b ∈ kids a ∨ a = p ∧ b = x) (hp : Reaches kids x p)
    (hr : ¬ Reaches kids x r) (h : Reaches kids' r n) : ¬ Reaches kids x n := by
  induction h with
  | refl => exact hr
  | @tail b c hb hc ih =>
    obtain ⟨hcx, hc⟩ | ⟨rfl, rfl⟩ := hedge b c hc
    · intro hxc
      -- the way to `c` comes through its one parent
      obtain heq | ⟨b', hb', hc'⟩ := hxc.cases_last
      · exact hcx heq.symm
      · exact ih (huniq b b' c hc hc' ▸ hb')
    · exact absurd hp ih

end BoredOS.Lib.Forest
