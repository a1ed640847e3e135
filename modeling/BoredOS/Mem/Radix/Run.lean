import BoredOS.Mem.Radix.Root

/-!
# Runs of the Radix Tree

Sequences of insertions, deletions and lookups on a tree made by `radix_tree_init`, compared with
the same calls on a finite map. The tree and the map agree, on the results and on what is stored,
exactly in the runs that never grow an empty tree; such a call dereferences NULL.
-/

namespace BoredOS.Mem.Radix

open Function

variable {α : Type}

/-- A call with its arguments; a NULL item is `none`. -/
inductive Call (α : Type) where
  | insert (index : ℕ) (item : Option α)
  | delete (index : ℕ)
  | lookup (index : ℕ)

/-- What a call returns: a return code or an item, `none` for NULL. -/
inductive Result (α : Type) where
  | code (ret : ℤ)
  | item (x : Option α)
  deriving DecidableEq

/-! ## The code -/

/-- One call, `none` when it dereferences NULL. -/
def applyCall (root : RadixRoot α) : Call α → Option (RadixRoot α × Result α)
  | .insert index item => (radixTreeInsert root index item).map fun r => (r.1, .code r.2)
  | .delete index => (radixTreeDelete root index).map fun r => (r.1, .item r.2)
  | .lookup index => (radixTreeLookup root index).map fun r => (root, .item r)

/-- A sequence of calls with the results in order. -/
def runCalls : RadixRoot α → List (Call α) → Option (RadixRoot α × List (Result α))
  | root, [] => some (root, [])
  | root, call :: rest => do
    let (root, result) ← applyCall root call
    let (root, results) ← runCalls root rest
    some (root, result :: results)

/-! ## The finite map -/

def specCall (m : ℕ → Option α) : Call α → (ℕ → Option α) × Result α
  | .insert index item =>
    if item.isSome ∧ index < 2 ^ 42 ∧ m index = none then
      (update m index item, .code 0)
    else (m, .code (-1))
  | .delete index => (update m index none, .item (m index))
  | .lookup index => (m, .item (m index))

def specCalls : (ℕ → Option α) → List (Call α) → (ℕ → Option α) × List (Result α)
  | m, [] => (m, [])
  | m, call :: rest =>
    let (m, result) := specCall m call
    let (m, results) := specCalls m rest
    (m, result :: results)

/-! ## Agreement -/

/-- The calls dereference nothing that is NULL, return what the map returns and leave a tree whose
lookups give the map. -/
def RefinesMap (root : RadixRoot α) (m : ℕ → Option α) (calls : List (Call α)) : Prop :=
  ∃ root', runCalls root calls = some (root', (specCalls m calls).2) ∧
    ∀ index, radixTreeLookup root' index = some ((specCalls m calls).1 index)

/-- The call grows a tree without a root node. -/
def CallGrowsEmpty (root : RadixRoot α) : Call α → Prop
  | .insert index item => GrowsEmpty root index item
  | _ => False

/-- No call of the sequence grows an empty tree. -/
def NeverGrowsEmpty : RadixRoot α → List (Call α) → Prop
  | _, [] => True
  | root, call :: rest =>
    ¬ CallGrowsEmpty root call ∧
      ∀ root' result, applyCall root call = some (root', result) → NeverGrowsEmpty root' rest

/-- One call that does not grow an empty tree does to the tree what it does to the map. -/
theorem applyCall_spec {root : RadixRoot α} {m : ℕ → Option α} (h : root.WF)
    (hm : ∀ index, root.itemAt index = m index) {call : Call α}
    (hgrow : ¬ CallGrowsEmpty root call) :
    ∃ root', applyCall root call = some (root', (specCall m call).2) ∧ root'.WF ∧
      ∀ index, root'.itemAt index = (specCall m call).1 index := by
  cases call with
  | insert index item =>
    cases item with
    | none => exact ⟨root, by simp [applyCall, radixTreeInsert, specCall], h, by simpa [specCall]⟩
    | some x =>
      obtain ⟨root', ret, hrun, hdone⟩ := radixTreeInsert_spec h index x hgrow
      have hret := hdone.ret_eq
      have hitem := hdone.item
      rw [hm] at hret
      simp only [specCall, Option.isSome_some, true_and]
      by_cases hc : index < 2 ^ 42 ∧ m index = none
      · rw [if_pos hc] at hret ⊢
        subst hret
        refine ⟨root', by simp [applyCall, hrun], hdone.wf, fun j => ?_⟩
        rw [hitem, hm]
        simp only [update_apply, true_and]
      · rw [if_neg hc] at hret ⊢
        subst hret
        refine ⟨root', by simp [applyCall, hrun], hdone.wf, fun j => ?_⟩
        rw [hitem, hm, if_neg fun hj => absurd hj.1 (by decide)]
  | delete index =>
    obtain ⟨root', hrun, hwf, hitem, -⟩ := radixTreeDelete_spec h index
    refine ⟨root', by simp [applyCall, hrun, specCall, hm], hwf, ?_⟩
    intro j
    rw [hitem, hm]
    exact (update_apply m index none j).symm
  | lookup =>
    exact ⟨root, by simp [applyCall, radixTreeLookup_spec h, specCall, hm], h, hm⟩

/-- From any well-formed tree and the map it stands for, by induction on the calls. -/
theorem refinesMap_iff_of_wf (calls : List (Call α)) : ∀ {root : RadixRoot α} {m : ℕ → Option α},
    root.WF → (∀ index, root.itemAt index = m index) →
    (RefinesMap root m calls ↔ NeverGrowsEmpty root calls) := by
  induction calls with
  | nil =>
    intro root m h hm
    refine iff_of_true ⟨root, rfl, fun index => ?_⟩ trivial
    rw [radixTreeLookup_spec h, hm]
    rfl
  | cons call rest ih =>
    intro root m h hm
    by_cases hgrow : CallGrowsEmpty root call
    · -- the run stops here
      refine iff_of_false ?_ fun hsafe => hsafe.1 hgrow
      rintro ⟨root', hrun, -⟩
      cases call with
      | insert =>
        simp [runCalls, applyCall, radixTreeInsert_growsEmpty h hgrow] at hrun
      | delete | lookup => exact hgrow
    · obtain ⟨root₁, hcall, hwf₁, hm₁⟩ := applyCall_spec h hm hgrow
      have htail : RefinesMap root m (call :: rest) ↔
          RefinesMap root₁ (specCall m call).1 rest := by
        unfold RefinesMap
        simp only [runCalls, hcall, specCalls]
        apply exists_congr
        intro root'
        apply and_congr_left
        intro _
        cases hrest : runCalls root₁ rest with
        | none => simp [hrest]
        | some => simp [hrest, Prod.ext_iff]
      rw [htail, ih hwf₁ hm₁]
      constructor
      · intro hsafe
        refine ⟨hgrow, fun root' result hcall' => ?_⟩
        rw [hcall] at hcall'
        cases hcall'
        exact hsafe
      · intro hsafe
        exact hsafe.2 _ _ hcall

/-- The radix tree refines a finite map in exactly the runs that never grow an empty tree. -/
theorem radixTree_refinesMap_iff (calls : List (Call α)) :
    RefinesMap radixTreeInit (fun _ => none) calls ↔ NeverGrowsEmpty radixTreeInit calls :=
  refinesMap_iff_of_wf calls radixTreeInit_wf itemAt_radixTreeInit

/-- The first insertion at an index other than 0 dereferences NULL. -/
theorem insert_one_into_empty_faults :
    runCalls (radixTreeInit : RadixRoot ℕ) [.insert 1 (some 7)] = none ∧
      ¬ RefinesMap (radixTreeInit : RadixRoot ℕ) (fun _ => none) [.insert 1 (some 7)] := by
  have hrun : runCalls (radixTreeInit : RadixRoot ℕ) [.insert 1 (some 7)] = none := rfl
  refine ⟨hrun, ?_⟩
  rintro ⟨root', hrun', -⟩
  rw [hrun] at hrun'
  cases hrun'

end BoredOS.Mem.Radix
