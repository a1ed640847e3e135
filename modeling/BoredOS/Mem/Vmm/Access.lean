import BoredOS.Mem.Vmm.Calls

/-!
# Permissions of Areas and Entries

The entries of the page tables are to grant no more than the areas around them. This is not so in
every run. `vmm_protect` replaces the flags of whole areas and the entries of its range only. Areas
keep `VMA_FLAG_COW` when they lose `VMA_FLAG_WRITE`, and the fault handler takes the one for the
other. A read fault is not checked at all, so that pages appear in areas without any permission.
`AccessSafe` describes the calls that stay clear of this, and in every run of such calls the entries
grant what the areas allow (`access_of_safe_run`). The containers of the spaces go along in these
runs, with the condition that no removal is a stale splice (`CleanCall`).
-/

namespace BoredOS.Mem.Vmm

open Lib.Intervals Lib.TableTree Pmm Mmu
open Option (any_eq_true bind_eq_some_iff bind_some some.inj)

/-! ## What an area allows -/

/-- The entry grants no more than the flags of the area. -/
structure Allows (flags : BitVec 32) (e : Pte) : Prop where
  write : Has e ptRw → Has flags vmaFlagWrite
  exec : ¬ Has e ptNx → Has flags vmaFlagExec
  some : Has flags permBits

/-- A page whose entry is present and for the user: if it can be written it lies in an area for
writing, if it can be executed in an area for executing, and not in an area without permissions. -/
def AccessOkAt (s : Machine) (r v : ℕ) (sp : Space) : Prop :=
  Has (s.entry r v) ptPresent → Has (s.entry r v) ptUser →
    (Has (s.entry r v) ptRw → ∃ a ∈ sp.vmas, a.Covers v ∧ Has a.flags vmaFlagWrite) ∧
    (¬ Has (s.entry r v) ptNx → ∃ a ∈ sp.vmas, a.Covers v ∧ Has a.flags vmaFlagExec) ∧
    ∀ a ∈ sp.vmas, a.Covers v → Has a.flags permBits
  deriving Decidable

/-- All pages of all spaces. -/
def AccessOk (s : Machine) : Prop :=
  ∀ r sp v, s.spaces r = some sp → UserPage v → AccessOkAt s r v sp

/-- The bits of `prot` for reading, writing and executing. -/
def protBits : BitVec 32 := mmuProtRead ||| mmuProtWrite ||| mmuProtExec

/-- A call that does not part entries from areas. -/
def AccessSafe (s : Machine) : VmmCall → Prop
  | .create .. | .map .. => True
  | .protect r addr length prot => ∀ sp, s.spaces r = some sp → 0 < length → addr % pageSize = 0 →
      rangeEnd addr length ≤ 2 ^ 47 ∧ ¬ (Has prot mmuFlagWc ∧ Has prot mmuFlagHuge2m) ∧
      -- the pages of an area that meets the range, in the range and outside of it
      ∀ a ∈ sp.vmas, a.start < rangeEnd addr length → addr < a.end_ → ∀ v, a.Covers v → UserPage v →
        Has (s.entry r v) ptPresent → Has prot protBits ∧
        (¬ (addr ≤ v ∧ v < rangeEnd addr length) →
          (Has (s.entry r v) ptRw → Has prot mmuProtWrite) ∧
          (¬ Has (s.entry r v) ptNx → Has prot mmuProtExec))
  | .unmap _ _ _ addr length => 0 < length → addr % pageSize = 0 → rangeEnd addr length ≤ 2 ^ 47
  | .clone _ _ areaMem r => ∀ sp, s.spaces r = some sp →
      CountsFit unshared s r ∧ AreasCreated s r areaMem sp.vmas
  | .fault _ r addr code _ => ∀ sp, s.spaces r = some sp → Truthful s r addr code ∧
      ∀ a ∈ sp.vmas, FaultsIn sp.vmas addr a →
        (Has code faultWrite → Has a.flags vmaFlagCow → Has a.flags vmaFlagWrite) ∧
        (¬ Has code faultPresent → ¬ Has code faultWrite → ¬ Has code faultExec →
          Has a.flags permBits)
  | .brk .. | .destroy .. => False

/-! ## Flags -/

section

variable {flags prot : BitVec 32} {e : Pte}

theorem has_mask_or {w : ℕ} (x a b : BitVec w) : Has x (a ||| b) ↔ Has x a ∨ Has x b := by
  have hcomm : ∀ x y : BitVec w, Has x y ↔ Has y x := fun x y => by
    unfold Has
    rw [BitVec.and_comm]
  rw [hcomm, has_or, hcomm a, hcomm b]

theorem has_vmaFlagsOf_write : Has (vmaFlagsOf prot) vmaFlagWrite ↔ Has prot mmuProtWrite := by
  unfold vmaFlagsOf
  rw [has_or, has_or, has_ite, has_ite, has_ite]
  simp +decide

theorem has_vmaFlagsOf_exec : Has (vmaFlagsOf prot) vmaFlagExec ↔ Has prot mmuProtExec := by
  unfold vmaFlagsOf
  rw [has_or, has_or, has_ite, has_ite, has_ite]
  simp +decide

theorem has_vmaFlagsOf_perms : Has (vmaFlagsOf prot) permBits ↔ Has prot protBits := by
  unfold vmaFlagsOf protBits
  rw [has_or, has_or, has_ite, has_ite, has_ite, has_mask_or, has_mask_or]
  simp +decide

theorem perms_of_write (h : Has flags vmaFlagWrite) : Has flags permBits := by
  unfold permBits
  rw [has_mask_or, has_mask_or]
  exact .inl (.inr h)

theorem perms_of_exec (h : Has flags vmaFlagExec) : Has flags permBits := by
  unfold permBits
  rw [has_mask_or]
  exact .inr h

variable {mask : BitVec 32}

theorem has_protected_flags (hmask : ~~~permBits &&& mask = 0) :
    Has ((flags &&& ~~~permBits) ||| vmaFlagsOf prot) mask ↔ Has (vmaFlagsOf prot) mask := by
  rw [has_or]
  exact or_iff_right (not_has_and _ _ _ hmask)

theorem has_cloneFlags (h : Has flags mask) : Has (cloneFlags flags) mask := by
  unfold cloneFlags
  split
  · exact (has_or _ _ _).2 (.inl h)
  · exact h

/-- What is granted to a smaller extent is allowed. -/
theorem Allows.weaken {flags' : BitVec 32} {e' : Pte} (h : Allows flags e)
    (hflags : ∀ mask, Has flags mask → Has flags' mask) (hrw : Has e' ptRw → Has e ptRw)
    (hnx : Has e ptNx → Has e' ptNx) : Allows flags' e' :=
  ⟨fun hw => hflags _ (h.write (hrw hw)), fun hx => hflags _ (h.exec fun hc => hx (hnx hc)),
    hflags _ h.some⟩

end

/-! ## The calls -/

variable {s : Machine}

section

variable {flags code prot : BitVec 32} {e : Pte} {total : ℕ} {shared : Bool}

/-- The parent of a clone keeps its entries or loses the right to write. -/
theorem Allows.clonedParent (h : Allows flags e) :
    Allows (cloneFlags flags) (clonedParent total shared e) := by
  apply h.weaken fun _ => has_cloneFlags
  · unfold Vmm.clonedParent
    split
    · exact fun hrw => absurd hrw (not_rw_cowEntry e)
    · exact id
  · unfold Vmm.clonedParent
    split
    · exact (has_cowEntry e (by decide)).2
    · exact id

theorem write_of_cloneMapFlags : Has (cloneMapFlags total shared e) mmuProtWrite → Has e ptRw := by
  apply of_cloneMapFlags
  · intro device
    unfold sharedCloneFlags
    simp only [has_or, has_ite]
    simp +decide
  · unfold privateCloneFlags
    simp only [has_or, has_ite]
    simp +decide

theorem exec_of_cloneMapFlags : Has (cloneMapFlags total shared e) mmuProtExec → ¬ Has e ptNx := by
  apply of_cloneMapFlags
  · intro device
    unfold sharedCloneFlags
    simp only [has_or, has_ite]
    simp +decide
  · rw [← has_cowEntry e (by decide)]
    unfold privateCloneFlags
    simp only [has_or, has_ite]
    simp +decide

/-- The child of a clone is granted what the parent is. -/
theorem Allows.clonedChild (h : Allows flags e) :
    Allows (cloneFlags flags) (pageEntry (physOf e) (cloneMapFlags total shared e)) := by
  apply h.weaken fun _ => has_cloneFlags
  · rw [has_pageEntry _ _ (by decide), has_rw_mmuFlagsToPte]
    exact fun hrw => write_of_cloneMapFlags hrw.1
  · rw [has_pageEntry _ _ (by decide), has_nx_mmuFlagsToPte]
    exact fun hnx hexec => exec_of_cloneMapFlags hexec hnx

/-- The entries that `vmm_protect` leaves in an area. -/
theorem Allows.protected_inside (hprot : Has prot protBits) (hpresent : Has e ptPresent) :
    Allows ((flags &&& ~~~permBits) ||| vmaFlagsOf prot)
      (protectEntry (prot ||| mmuProtUser) e) := by
  have huser : ∀ mask : BitVec 32, mmuProtUser &&& mask = 0 →
      (Has (prot ||| mmuProtUser) mask ↔ Has prot mask) := fun mask hmask => by
    rw [has_or]
    exact or_iff_left (not_not.2 hmask)
  unfold protectEntry
  rw [if_pos hpresent]
  refine ⟨?_, ?_, ?_⟩
  · rw [has_protected _ _ (by decide), has_rw_mmuFlagsToPte, huser _ (by decide),
      has_protected_flags (by decide), has_vmaFlagsOf_write]
    exact And.left
  · rw [has_protected _ _ (by decide), has_nx_mmuFlagsToPte, not_not, huser _ (by decide),
      has_protected_flags (by decide), has_vmaFlagsOf_exec]
    exact id
  · rw [has_protected_flags (by decide), has_vmaFlagsOf_perms]
    exact hprot

/-- The entries of an area outside of the range. -/
theorem Allows.protected_outside (hprot : Has prot protBits)
    (hwrite : Has e ptRw → Has prot mmuProtWrite) (hexec : ¬ Has e ptNx → Has prot mmuProtExec) :
    Allows ((flags &&& ~~~permBits) ||| vmaFlagsOf prot) e := by
  refine ⟨?_, ?_, ?_⟩
  · rw [has_protected_flags (by decide), has_vmaFlagsOf_write]
    exact hwrite
  · rw [has_protected_flags (by decide), has_vmaFlagsOf_exec]
    exact hexec
  · rw [has_protected_flags (by decide), has_vmaFlagsOf_perms]
    exact hprot

/-- A fault that is admitted in an area, with nothing granted for `VMA_FLAG_COW` alone. -/
theorem Allows.outcome {e' : Pte}
    (hold : Has e ptPresent → Allows flags e) (hadmitted : Admitted code flags)
    (hwrite : Has code faultWrite → Has flags vmaFlagCow → Has flags vmaFlagWrite)
    (hread : ¬ Has code faultPresent → ¬ Has code faultWrite → ¬ Has code faultExec →
      Has flags permBits)
    (h : Outcome (decide (Has code faultPresent)) (decide (Has code faultWrite)) flags e e')
    (hpresent : Has e' ptPresent) : Allows flags e' := by
  have hw : Has code faultWrite → Has flags vmaFlagWrite :=
    fun hcode => (hadmitted.1 hcode).elim id (hwrite hcode)
  -- a fault on an absent page asks for one of the permissions
  have hperms : ¬ Has code faultPresent → Has flags permBits := by
    intro habsent
    by_cases hcode : Has code faultWrite
    · exact perms_of_write (hw hcode)
    by_cases hexec : Has code faultExec
    · exact perms_of_exec (hadmitted.2 hexec)
    exact hread habsent hcode hexec
  cases h with
  | same => exact hold hpresent
  | zero z hcode =>
    refine ⟨?_, ?_, hperms (of_decide_eq_false hcode)⟩
    · rw [has_pageEntry _ _ (by decide), has_rw_mmuFlagsToPte]
      exact fun hc => absurd hc.1 (by decide)
    · rw [has_pageEntry _ _ (by decide), has_nx_mmuFlagsToPte, not_not]
      exact fun hc => absurd hc (by decide)
  | fresh p hcode =>
    refine ⟨?_, ?_, hperms (of_decide_eq_false hcode)⟩
    · rw [has_pageEntry _ _ (by decide), has_rw_mmuFlagsToPte]
      unfold newPageFlags
      simp only [has_or, has_ite]
      simp +decide
    · rw [has_pageEntry _ _ (by decide), has_nx_mmuFlagsToPte, not_not]
      unfold newPageFlags
      simp only [has_or, has_ite]
      simp +decide
  | upgrade hcode holdPresent =>
    have hgranted := hw (of_decide_eq_true hcode)
    refine ⟨fun _ => hgranted, ?_, perms_of_write hgranted⟩
    rw [has_or]
    exact fun hnx => (hold holdPresent).exec fun hc => hnx (.inl hc)
  | copy p hcode =>
    have hgranted := hw (of_decide_eq_true hcode)
    refine ⟨fun _ => hgranted, ?_, perms_of_write hgranted⟩
    rw [has_copiedEntry _ _ _ (by decide)]
    unfold copiedFlags
    intro hnx
    by_contra hexec
    apply hnx
    rw [if_neg hexec, has_or]
    exact .inr (by decide)

end

/-! ## Runs -/

def AccessInv (s : Machine) : Prop :=
  (∃ U data pos T, Sound unshared U data pos T s) ∧ Tidy (fun _ => Allows) s

theorem AccessInv.ok (h : AccessInv s) : AccessOk s := by
  obtain ⟨⟨U, data, pos, T, hsound⟩, htidy⟩ := h
  intro r sp v hr hv hpresent _
  have hwf := hsound.wellFormed r sp hr
  obtain ⟨a, ha, hav, hallows⟩ := (htidy r sp hr).pages v hv hpresent
  refine ⟨fun hrw => ⟨a, ha, hav, hallows.write hrw⟩, fun hnx => ⟨a, ha, hav, hallows.exec hnx⟩, ?_⟩
  intro b hb hbv
  obtain rfl := hwf.separated.unique hb ha hbv hav
  exact hallows.some

theorem accessInv_init {kernel : ℕ} (h : (vmmSystem kernel).init s) : AccessInv s := by
  obtain ⟨hspaces, U, data, L, m, cpu, bytes, hinv, hnarrow, hnull, -, hrun⟩ := h
  obtain ⟨vm, hrun', U', hsound⟩ := Sound.init unshared hinv hnarrow hnull cpu bytes
  obtain rfl : s.vm = vm := some.inj (hrun.symm.trans hrun')
  obtain ⟨vm, spaces⟩ := s
  obtain rfl : spaces = fun _ => none := hspaces
  exact ⟨⟨U', _, _, _, hsound⟩, .start vm⟩

/-- A safe call on a space that exists returns and keeps the invariant. -/
theorem accessInv_call (kernel : ℕ) {call : VmmCall} (h : AccessInv s)
    (hlive : call.Live s) (hsafe : AccessSafe s call) :
    ∃ s', vmmStep kernel s call = some s' ∧ AccessInv s' := by
  obtain ⟨⟨U, data, pos, T, hsound⟩, htidy⟩ := h
  cases call with
  | create cpu mem =>
    obtain ⟨s', hrun, ⟨pos', T', hsound'⟩, htidy'⟩ := hsound.step_create htidy kernel cpu mem
    exact ⟨s', hrun, ⟨U, data, pos', T', hsound'⟩, htidy'⟩
  | map r mem hint length prot flags file offset =>
    obtain ⟨sp, hr⟩ := hlive r rfl
    obtain ⟨hsound', htidy'⟩ :=
      hsound.step_map htidy hr mem hint length prot flags file offset rfl
    unfold vmmStep
    dsimp only
    rw [hr]
    exact ⟨_, rfl, ⟨U, data, pos, T, hsound'⟩, htidy'⟩
  | protect r addr length prot =>
    obtain ⟨sp, hr⟩ := hlive r rfl
    unfold vmmStep
    dsimp only
    rw [hr]
    refine ⟨_, rfl, ?_⟩
    by_cases hcall : 0 < length ∧ addr % pageSize = 0
    swap
    · rw [protectedBy, vmmProtect, if_pos (by omega), setSpace_self hr]
      exact ⟨⟨U, data, pos, T, hsound⟩, htidy⟩
    obtain ⟨hle, hflags, hpages⟩ := hsafe sp hr hcall.1 hcall.2
    obtain ⟨⟨pos', T', hsound'⟩, htidy'⟩ :=
      hsound.step_protect htidy hr hcall.2 hcall.1 hle hflags (by
        intro a ha v hav hv hpresent
        have hallows := (htidy r sp hr).page (hsound.wellFormed r sp hr) ha hav hv hpresent
        unfold protectArea
        -- an area that meets the range gets the flags as a whole, its entries only inside
        by_cases hmeet : a.start < rangeEnd addr length ∧ a.end_ > addr
        · obtain ⟨hprot, hout⟩ := hpages a ha hmeet.1 hmeet.2 v hav hv hpresent
          rw [if_pos hmeet]
          split
          next => exact .protected_inside hprot hpresent
          next hin => exact .protected_outside hprot (hout hin).1 (hout hin).2
        · rw [if_neg hmeet, if_neg]
          · exact hallows
          · have : a.start ≤ v ∧ v < a.end_ := hav
            omega)
    exact ⟨⟨U, data, pos', T', hsound'⟩, htidy'⟩
  | unmap cpu mem r addr length =>
    obtain ⟨sp, hr⟩ := hlive r rfl
    unfold vmmStep
    dsimp only
    rw [hr]
    refine ⟨_, rfl, ?_⟩
    by_cases hcall : 0 < length ∧ addr % pageSize = 0
    swap
    · rw [unmapped, vmmUnmap, if_pos (by omega), setSpace_self hr]
      exact ⟨⟨U, data, pos, T, hsound⟩, htidy⟩
    have hle := hsafe hcall.1 hcall.2
    obtain ⟨data', pos', T', hsound', hentry⟩ :=
      hsound.unmap rfl hr cpu mem hcall.2 hcall.1 hle
    exact ⟨⟨U, data', pos', T', hsound'⟩,
      hsound.step_unmap htidy hr cpu mem hcall.2 hcall.1 hle hentry⟩
  | clone cpu mem areaMem r =>
    obtain ⟨sp, hr⟩ := hlive r rfl
    obtain ⟨hfit, hareas⟩ := hsafe sp hr
    obtain ⟨s', hrun, ⟨data', pos', T', hsound'⟩, htidy'⟩ :=
      hsound.step_clone htidy hr hfit kernel cpu mem hareas
        (fun a ha v hav hv hpresent => by
          have hallows := (htidy r sp hr).page (hsound.wellFormed r sp hr) ha hav hv hpresent
          exact ⟨hallows.clonedParent, hallows.clonedChild⟩)
    exact ⟨s', hrun, ⟨U, data', pos', T', hsound'⟩, htidy'⟩
  | fault cpu r addr code rsp =>
    obtain ⟨sp, hr⟩ := hlive r rfl
    obtain ⟨htruth, hareas⟩ := hsafe sp hr
    obtain ⟨s', hrun, ⟨data', pos', T', hsound'⟩, htidy'⟩ :=
      hsound.step_fault htidy hr kernel cpu rsp htruth
        (fun a ha hin hadmitted e hold houtcome =>
          .outcome hold hadmitted (hareas a ha hin).1 (hareas a ha hin).2 houtcome)
    exact ⟨s', hrun, ⟨U, data', pos', T', hsound'⟩, htidy'⟩
  | brk | destroy => exact hsafe.elim

/-! ## Containers along a run -/

/-- A machine with the containers of its spaces. -/
structure TreeMachine where
  machine : Machine
  trees : ℕ → Vma.VmaState

/-- The areas of a space, none if it does not exist. -/
def areasOf (s : Machine) (r : ℕ) : List Area := (s.spaces r).elim [] Space.vmas

/-- A call on the space `r₀`, seen from the container of `r`. -/
def onSpace (s : Machine) (r r₀ : ℕ) (f : Space → List AreaOp) : List AreaOp :=
  if r = r₀ then (s.spaces r₀).elim [] f else []

/-- The calls of `vma.c` that a call makes on the container of the space `r`. The container of a new
space is filled by `vmm_clone_space`. -/
def callOps (s : Machine) (r : ℕ) : VmmCall → List AreaOp
  | .create .. | .protect .. | .destroy .. => []
  | .map r₀ mem hint length prot flags file offset =>
    onSpace s r r₀ (mapOps mem · hint length prot flags file offset)
  | .unmap _ mem r₀ addr length => onSpace s r r₀ fun sp => unmapOps mem sp.vmas addr length
  | .clone _ _ areaMem r₀ => (s.spaces r).elim (childOps areaMem (areasOf s r₀)) fun _ => []
  | .fault _ r₀ addr _ rsp => onSpace s r r₀ (faultOps · addr rsp)
  | .brk _ mem r₀ newBrk => onSpace s r r₀ (brkOps mem · newBrk)

/-- The container that a call finds: that of the space, or an empty one for a new space. -/
def TreeMachine.Finds (t : TreeMachine) (r : ℕ) (c : Vma.VmaState) : Prop :=
  (t.machine.spaces r).elim (Vma.vmaSystem.init c) fun _ => c = t.trees r

/-- The machine takes its steps, and the containers go through the calls of `vma.c`. -/
def treeSystem (kernel : ℕ) : BoredOS.Lib.Transition.System TreeMachine VmmCall where
  init t := (vmmSystem kernel).init t.machine
  step t call t' := vmmStep kernel t.machine call = some t'.machine ∧
    ∀ r sp, t'.machine.spaces r = some sp →
      ∃ c, t.Finds r c ∧ Trail c (callOps t.machine r call) (t'.trees r)

/-- No removal of the call is a stale splice. -/
def CleanCall (t : TreeMachine) (call : VmmCall) : Prop :=
  ∀ r c, t.Finds r c → Clean c (callOps t.machine r call)

/-- The containers have the areas of the lists, and searches find them. -/
def Served (t : TreeMachine) : Prop :=
  ∀ r sp, t.machine.spaces r = some sp →
    Mirrors (t.trees r) sp.vmas ∧ FindsAs (t.trees r) sp.vmas

section

variable {kernel : ℕ} {call : VmmCall} {s' : Machine} {t : TreeMachine} {sp' : Space}

theorem areasOf_eq (hr : s.spaces r = some sp) : areasOf s r = sp.vmas := by
  rw [areasOf, hr]
  rfl

theorem onSpace_nil (s : Machine) (r r₀ : ℕ) : onSpace s r r₀ (fun _ => []) = [] := by
  unfold onSpace
  cases s.spaces r₀ <;> simp

/-- A call on one space is followed by its container, and the others stay. -/
theorem onSpace_turns {vm : Vm} {f : Space → List AreaOp} {r₀ : ℕ} {sp₁ : Space} {vmas : List Area}
    (hr₀ : s.spaces r₀ = some sp) (hturns : Turns sp.vmas (f sp) vmas)
    (hsame : SameRanges vmas sp₁.vmas)
    (hr : (Machine.setSpace { s with vm := vm } r₀ sp₁).spaces r = some sp') :
    ∃ vmas, Turns (areasOf s r) (onSpace s r r₀ f) vmas ∧ SameRanges vmas sp'.vmas := by
  rw [spaces_setSpace] at hr
  unfold onSpace
  split at hr
  next heq =>
    obtain rfl := Option.some.inj hr
    rw [if_pos heq, heq, areasOf_eq hr₀, hr₀]
    exact ⟨_, hturns, hsame⟩
  next hne =>
    rw [if_neg hne, areasOf_eq (s := s) hr]
    exact ⟨_, .nil _, .refl _⟩

/-- `vmm_clone_space` has no room for the child, or the child is a new space and the parent keeps
the bounds of its areas. -/
theorem vmmCloneSpace_spaces {U : Set ℕ} {data : ℕ → Option Grant} {pos : ℕ → Option Spot}
    {T : Set ℕ} (h : Sound unshared U data pos T s) {cpu : ℕ} {mem : Bool} {areaMem : Area → Bool}
    {m : Mm} {child : Option Space}
    (hrun : vmmCloneSpace cpu mem areaMem s.vm.mm kernel sp = some (m, sp', child)) :
    SameRanges sp.vmas sp'.vmas ∧ ∀ ch ∈ child, s.spaces ch.pml4 = none ∧
      ch.vmas = childAreas areaMem sp.vmas := by
  obtain ⟨m₁, res, hcreate, -, -, hsome⟩ := h.create cpu mem kernel
  unfold vmmCloneSpace at hrun
  rw [hcreate, Option.bind_eq_bind, bind_some] at hrun
  cases res with
  | none =>
    cases hrun
    exact ⟨.refl _, nofun⟩
  | some child =>
    obtain ⟨f, rfl, hfree, -⟩ := hsome child rfl
    obtain ⟨m₂, -, hrun⟩ := bind_eq_some_iff.1 hrun
    cases hrun
    refine ⟨SameRanges.map (g := fun a => { a with flags := cloneFlags a.flags })
      (fun _ => ⟨rfl, rfl⟩) sp.vmas, ?_⟩
    rintro ch ⟨rfl⟩
    exact ⟨hfree, rfl⟩

/-- The containers that exist after a call follow it to the areas that it leaves, up to flags. -/
theorem callOps_turns {U : Set ℕ} {data : ℕ → Option Grant} {pos : ℕ → Option Spot} {T : Set ℕ}
    (h : Sound unshared U data pos T s) (hsafe : AccessSafe s call)
    (hstep : vmmStep kernel s call = some s') (hr : s'.spaces r = some sp') :
    ∃ vmas, Turns (areasOf s r) (callOps s r call) vmas ∧ SameRanges vmas sp'.vmas := by
  have hsame : ∀ {s'' : Machine}, s''.spaces = s.spaces → s''.spaces r = some sp' →
      ∃ vmas, Turns (areasOf s r) [] vmas ∧ SameRanges vmas sp'.vmas := by
    intro s'' heq hr
    rw [heq] at hr
    rw [areasOf_eq hr]
    exact ⟨_, .nil _, .refl _⟩
  cases call with
  | create cpu mem =>
    obtain ⟨m', res, hrun, -, -, hsome⟩ := h.create cpu mem kernel
    simp only [vmmStep, hrun, Option.bind_eq_bind, bind_some] at hstep
    obtain rfl := Option.some.inj hstep
    cases res with
    | none => exact hsame rfl hr
    | some sp =>
      obtain ⟨f, rfl, hfree, -⟩ := hsome sp rfl
      obtain ⟨rfl, rfl⟩ | hr := spaces_setSpace_cases hr
      · rw [areasOf, hfree]
        exact ⟨_, .nil _, .nil⟩
      · exact hsame rfl hr
  | map r₀ mem hint length prot flags file offset =>
    obtain ⟨sp, hr₀, hstep⟩ := bind_eq_some_iff.1 hstep
    obtain rfl := Option.some.inj hstep
    exact onSpace_turns hr₀ (vmmMap_turns ..) (.refl _) hr
  | protect r₀ addr length prot =>
    obtain ⟨sp, hr₀, hstep⟩ := bind_eq_some_iff.1 hstep
    obtain rfl := Option.some.inj hstep
    have hbounds : SameRanges sp.vmas (vmmProtect s.vm sp addr length prot).2.1.vmas := by
      unfold vmmProtect
      split
      next => exact .refl _
      next => exact .map (fun a => by split <;> exact ⟨rfl, rfl⟩) sp.vmas
    have hops := onSpace_turns (f := fun _ => []) hr₀ (.nil sp.vmas) hbounds hr
    rw [onSpace_nil] at hops
    exact hops
  | unmap cpu mem r₀ addr length =>
    obtain ⟨sp, hr₀, hstep⟩ := bind_eq_some_iff.1 hstep
    obtain rfl := Option.some.inj hstep
    exact onSpace_turns hr₀ (vmmUnmap_turns (h.wellFormed r₀ sp hr₀) cpu mem s.vm addr length)
      (.refl _) hr
  | clone cpu mem areaMem r₀ =>
    obtain ⟨sp, hr₀, hstep⟩ := bind_eq_some_iff.1 hstep
    obtain ⟨⟨m, sp₁, child⟩, hrun, hstep⟩ := bind_eq_some_iff.1 hstep
    obtain rfl := Option.some.inj hstep
    obtain ⟨hbounds, hchild⟩ := vmmCloneSpace_spaces h hrun
    -- a space that was there is the parent or another one, with the bounds that it had
    have hold : ((s.withMm m).setSpace r₀ sp₁).spaces r = some sp' →
        ∃ vmas, Turns (areasOf s r) (callOps s r (.clone cpu mem areaMem r₀)) vmas ∧
          SameRanges vmas sp'.vmas := by
      intro hr
      rw [spaces_setSpace] at hr
      split at hr
      next heq =>
        obtain rfl := Option.some.inj hr
        rw [callOps, heq, areasOf_eq hr₀, hr₀]
        exact ⟨_, .nil _, hbounds⟩
      next =>
        have hr' : s.spaces r = some sp' := hr
        rw [callOps, areasOf_eq hr', hr']
        exact ⟨_, .nil _, .refl _⟩
    cases child with
    | none => exact hold hr
    | some ch =>
      obtain ⟨rfl, rfl⟩ | hr := spaces_setSpace_cases hr
      · obtain ⟨hfree, hvmas⟩ := hchild _ rfl
        rw [callOps, areasOf, hfree, areasOf_eq hr₀, hvmas]
        exact ⟨_, childAreas_turns areaMem sp.vmas, .refl _⟩
      · exact hold hr
  | fault cpu r₀ addr code rsp =>
    obtain ⟨sp, hr₀, hstep⟩ := bind_eq_some_iff.1 hstep
    obtain ⟨⟨vm', sp₁, ret⟩, hrun, hstep⟩ := bind_eq_some_iff.1 hstep
    obtain rfl := Option.some.inj hstep
    exact onSpace_turns hr₀ (vmmHandlePageFault_turns (h.wellFormed r₀ sp hr₀) hrun) (.refl _) hr
  | brk | destroy => exact hsafe.elim

theorem Served.mirrors (h : Served t) {c : Vma.VmaState} (hc : t.Finds r c) :
    Mirrors c (areasOf t.machine r) := by
  unfold TreeMachine.Finds at hc
  unfold areasOf
  cases hr : t.machine.spaces r with
  | none =>
    rw [hr] at hc
    exact mirrors_nil hc
  | some sp =>
    rw [hr] at hc
    obtain rfl : c = t.trees r := hc
    exact (h r sp hr).1

theorem TreeMachine.exists_finds (t : TreeMachine) (r : ℕ) : ∃ c, t.Finds r c := by
  unfold TreeMachine.Finds
  cases t.machine.spaces r with
  | none => exact ⟨Vma.emptyVma, rfl, rfl⟩
  | some => exact ⟨t.trees r, rfl⟩

/-- The container of one space goes along with a safe call that is clean. -/
theorem Served.keeps (h : Served t) (hinv : AccessInv t.machine) (hsafe : AccessSafe t.machine call)
    (hclean : CleanCall t call) (hstep : vmmStep kernel t.machine call = some s')
    (hinv' : AccessInv s') (hr : s'.spaces r = some sp') {c : Vma.VmaState} (hc : t.Finds r c) :
    TreeKeeps c (callOps t.machine r call) sp'.vmas := by
  obtain ⟨⟨U, data, pos, T, hsound⟩, -⟩ := hinv
  obtain ⟨⟨U', data', pos', T', hsound'⟩, -⟩ := hinv'
  have hwf : WellFormed (areasOf t.machine r) := by
    unfold areasOf
    cases hsp : t.machine.spaces r with
    | none => exact .nil
    | some sp => exact hsound.wellFormed r sp hsp
  obtain ⟨vmas, hturns, hsame⟩ := callOps_turns hsound hsafe hstep hr
  obtain ⟨hexists, hkeeps⟩ := (h.mirrors hc).turns hwf hturns (hclean r c hc)
  refine ⟨hexists, fun c' hc' => ?_⟩
  have hmirrors := (hkeeps c' hc').1.congr hsame
  exact ⟨hmirrors, hmirrors.find (hsound'.wellFormed r sp' hr)⟩

/-- A safe and clean call returns, the containers can follow it, and they end up with the areas. -/
theorem served_call (kernel : ℕ) (h : Served t) (hinv : AccessInv t.machine)
    (hlive : call.Live t.machine) (hsafe : AccessSafe t.machine call) (hclean : CleanCall t call) :
    ∃ s', vmmStep kernel t.machine call = some s' ∧ AccessInv s' ∧
      (∃ trees, (treeSystem kernel).step t call ⟨s', trees⟩) ∧
      ∀ trees, (treeSystem kernel).step t call ⟨s', trees⟩ → Served ⟨s', trees⟩ := by
  obtain ⟨s', hrun, hinv'⟩ := accessInv_call kernel hinv hlive hsafe
  refine ⟨s', hrun, hinv', ?_, ?_⟩
  · have hfollow : ∀ r, ∃ c', ∀ sp', s'.spaces r = some sp' →
        ∃ c, t.Finds r c ∧ Trail c (callOps t.machine r call) c' := by
      intro r
      obtain ⟨c, hc⟩ := t.exists_finds r
      cases hr : s'.spaces r with
      | none => exact ⟨c, nofun⟩
      | some sp' =>
        obtain ⟨⟨c', hc'⟩, -⟩ := h.keeps hinv hsafe hclean hrun hinv' hr hc
        exact ⟨c', fun _ _ => ⟨c, hc, hc'⟩⟩
    choose trees htrees using hfollow
    exact ⟨trees, hrun, htrees⟩
  · rintro trees ⟨-, htrees⟩ r sp' hr
    obtain ⟨c, hc, htrail⟩ := htrees r sp' hr
    exact (h.keeps hinv hsafe hclean hrun hinv' hr hc).2 _ htrail

/-- A safe call whose removals are no stale splices. -/
def AccessGuard (t : TreeMachine) (call : VmmCall) : Prop :=
  AccessSafe t.machine call ∧ CleanCall t call

theorem inv_of_reachable (h : (treeSystem kernel).Reachable AccessGuard t) :
    AccessInv t.machine ∧ Served t := by
  apply h.invariant (I := fun t => AccessInv t.machine ∧ Served t)
  · intro t ht
    refine ⟨accessInv_init ht, fun r sp hr => ?_⟩
    rw [show t.machine.spaces = fun _ => none from ht.1] at hr
    cases hr
  · rintro t call ⟨s', trees⟩ ⟨hinv, hserved⟩ ⟨hsafe, hclean⟩ hstep
    obtain ⟨s₁, hrun, hinv', -, hserved'⟩ :=
      served_call kernel hserved hinv (VmmCall.live_of_step hstep.1) hsafe hclean
    obtain rfl : s' = s₁ := some.inj (hstep.1.symm.trans hrun)
    exact ⟨hinv', hserved' trees hstep⟩

end

/-- In every state of a run of safe and clean calls the entries grant what the areas allow and the
containers have the areas, and the next such call returns and keeps this. -/
theorem access_of_safe_run {kernel : ℕ} {t : TreeMachine}
    (h : (treeSystem kernel).Reachable AccessGuard t) :
    (AccessOk t.machine ∧ Served t) ∧ ∀ call, VmmCall.Live t.machine call → AccessGuard t call →
      ∃ s', vmmStep kernel t.machine call = some s' ∧ AccessOk s' ∧
        (∃ trees, (treeSystem kernel).step t call ⟨s', trees⟩) ∧
        ∀ trees, (treeSystem kernel).step t call ⟨s', trees⟩ → Served ⟨s', trees⟩ := by
  obtain ⟨hinv, hserved⟩ := inv_of_reachable h
  refine ⟨⟨hinv.ok, hserved⟩, ?_⟩
  rintro call hlive ⟨hsafe, hclean⟩
  obtain ⟨s', hrun, hinv', hstep⟩ := served_call kernel hserved hinv hlive hsafe hclean
  exact ⟨s', hrun, hinv'.ok, hstep⟩

/-! ## Concrete runs -/

/-- A page that can be read and written is touched, the space is cloned and the page made read-only.
The write fault that follows finds `VMA_FLAG_COW` and makes the entry writable again. -/
def forkCalls : List VmmCall :=
  [.create 0 true, .map 1048577 true 0x400000 0x1000 (mmuProtRead ||| mmuProtWrite) 0 none 0,
    .fault 0 1048577 0x400000 faultWrite none, .clone 0 true (fun _ => true) 1048577,
    .protect 1048577 0x400000 0x1000 mmuProtRead,
    .fault 0 1048577 0x400000 (faultPresent ||| faultWrite) none]

/-- The second of two pages is touched and the first made read-only, with the area of both. -/
def neighbourCalls : List VmmCall :=
  [.create 0 true, .map 1048577 true 0x400000 0x2000 (mmuProtRead ||| mmuProtWrite) 0 none 0,
    .fault 0 1048577 0x401000 faultWrite none, .protect 1048577 0x400000 0x1000 mmuProtRead]

/-- A page without permissions is read. -/
def noneCalls : List VmmCall :=
  [.create 0 true, .map 1048577 true 0x400000 0x1000 0 0 none 0, .fault 0 1048577 0x400000 0 none]

/-- The machine takes a step in a run with containers. -/
theorem exists_reachable_step {kernel : ℕ} {t : TreeMachine} {s' : Machine} (call : VmmCall)
    (h : (treeSystem kernel).Reachable AccessGuard t) (hguard : AccessGuard t call)
    (hrun : vmmStep kernel t.machine call = some s') :
    ∃ trees, (treeSystem kernel).Reachable AccessGuard ⟨s', trees⟩ := by
  obtain ⟨hinv, hserved⟩ := inv_of_reachable h
  obtain ⟨s₁, hrun', -, ⟨trees, hstep⟩, -⟩ :=
    served_call kernel hserved hinv (VmmCall.live_of_step hrun) hguard.1 hguard.2
  obtain rfl : s' = s₁ := some.inj (hrun.symm.trans hrun')
  exact ⟨trees, h.next hguard hstep⟩

/-- `vmm_map` takes nothing out of a container. -/
theorem cleanCall_map (t : TreeMachine) (r : ℕ) (mem : Bool) (hint length : ℕ)
    (prot flags : BitVec 32) (file : Option ℕ) (offset : ℕ) :
    CleanCall t (.map r mem hint length prot flags file offset) := by
  intro r' c _
  apply clean_of_inserts
  intro op hop
  rw [callOps, onSpace] at hop
  split at hop
  next =>
    cases hr : t.machine.spaces r with
    | none =>
      rw [hr] at hop
      cases hop
    | some sp =>
      rw [hr] at hop
      exact mapOps_inserts hop
  next => cases hop

/-- A page is mapped and written, and its entry and its area are for writing. -/
theorem access_of_safe_run_touched : ∃ t, (treeSystem 0).Reachable AccessGuard t ∧
    Has (t.machine.entry 1048577 0x400000) ptRw ∧ AccessOk t.machine ∧ Served t := by
  obtain ⟨vm, hboot, hinit⟩ := init_boot
  have heval : (bootVm.bind fun vm =>
      (vmmRun 0 ⟨vm, fun _ => none⟩ (forkCalls.take 2)).bind fun s =>
        if (s.spaces 1048577).all fun sp => decide (faultOps sp 0x400000 none = []) &&
            sp.vmas.all fun a => decide (Has a.flags vmaFlagWrite) then
          vmmStep 0 s (.fault 0 1048577 0x400000 faultWrite none) else none).any
      (fun s => decide (Has (s.entry 1048577 0x400000) ptRw)) = true := by
    decide +kernel
  rw [hboot, bind_some] at heval
  obtain ⟨s, hrun, hrw⟩ := (any_eq_true _ _).1 heval
  obtain ⟨s₂, hrun₂, hrun⟩ := bind_eq_some_iff.1 hrun
  obtain ⟨s₁, hcreate, hrun₂⟩ := bind_eq_some_iff.1 hrun₂
  obtain ⟨s₂', hmap, hrun₂⟩ := bind_eq_some_iff.1 hrun₂
  obtain rfl : s₂' = s₂ := some.inj hrun₂
  split at hrun
  next hareas =>
    have hstart : (treeSystem 0).Reachable AccessGuard ⟨⟨vm, fun _ => none⟩, fun _ =>
        Vma.emptyVma⟩ :=
      .start hinit
    obtain ⟨trees₁, hreach₁⟩ := exists_reachable_step (.create 0 true) hstart
      ⟨trivial, fun _ _ _ => trivial⟩ hcreate
    obtain ⟨trees₂, hreach₂⟩ := exists_reachable_step
      (.map 1048577 true 0x400000 0x1000 (mmuProtRead ||| mmuProtWrite) 0 none 0) hreach₁
      ⟨trivial, cleanCall_map _ _ _ _ _ _ _ _ _⟩ hmap
    have hboth : ∀ sp, s₂'.spaces 1048577 = some sp → faultOps sp 0x400000 none = [] ∧
        ∀ a ∈ sp.vmas, Has a.flags vmaFlagWrite := by
      intro sp hsp
      rw [hsp] at hareas
      obtain ⟨hops, hall⟩ := Bool.and_eq_true_iff.1 hareas
      exact ⟨of_decide_eq_true hops, fun a ha => of_decide_eq_true (List.all_eq_true.1 hall a ha)⟩
    have hsafe : AccessSafe s₂' (.fault 0 1048577 0x400000 faultWrite none) := by
      intro sp hsp
      refine ⟨fun hcode => absurd hcode (by decide), ?_⟩
      intro a ha _
      refine ⟨fun _ _ => (hboth sp hsp).2 a ha, ?_⟩
      exact fun _ hcode => absurd hcode (by decide)
    -- the fault is inside the area, so that no stack grows
    have hclean : CleanCall ⟨s₂', trees₂⟩ (.fault 0 1048577 0x400000 faultWrite none) := by
      intro r c _
      have hops : callOps s₂' r (.fault 0 1048577 0x400000 faultWrite none) = [] := by
        rw [callOps, onSpace]
        split
        next =>
          cases hsp : s₂'.spaces 1048577 with
          | none => rfl
          | some sp => exact (hboth sp hsp).1
        next => rfl
      show Clean c (callOps s₂' r _)
      rw [hops]
      trivial
    obtain ⟨trees, hreach⟩ := exists_reachable_step _ hreach₂ ⟨hsafe, hclean⟩ hrun
    exact ⟨⟨s, trees⟩, hreach, of_decide_eq_true hrw, (access_of_safe_run hreach).1⟩
  next => cases hrun

/-- A page of the first space that is granted too much after the calls. -/
theorem exceeds_of_eval {calls : List VmmCall} {v : ℕ} (hv : UserPage v)
    (h : (bootVm.bind fun vm => vmmRun 0 ⟨vm, fun _ => none⟩ calls).any (fun s =>
      (s.spaces 1048577).any fun sp => decide (¬ AccessOkAt s 1048577 v sp)) = true) :
    ∃ s₀ s, (vmmSystem 0).init s₀ ∧ vmmRun 0 s₀ calls = some s ∧ ¬ AccessOk s := by
  obtain ⟨vm, hboot, hinit⟩ := init_boot
  rw [hboot, bind_some] at h
  obtain ⟨s, hrun, hs⟩ := (any_eq_true _ _).1 h
  obtain ⟨sp, hsp, hnot⟩ := (any_eq_true _ _).1 hs
  exact ⟨_, s, hinit, hrun, fun hok => of_decide_eq_true hnot (hok 1048577 sp v hsp hv)⟩

/-- Runs in which an entry is writable in an area that is read-only, and one in which a page appears
in an area without permissions. -/
theorem fault_grants_more :
    (∃ s₀ s, (vmmSystem 0).init s₀ ∧ vmmRun 0 s₀ forkCalls = some s ∧ ¬ AccessOk s) ∧
      (∃ s₀ s, (vmmSystem 0).init s₀ ∧ vmmRun 0 s₀ neighbourCalls = some s ∧ ¬ AccessOk s) ∧
      ∃ s₀ s, (vmmSystem 0).init s₀ ∧ vmmRun 0 s₀ noneCalls = some s ∧ ¬ AccessOk s :=
  ⟨exceeds_of_eval (v := 0x400000) (by decide) (by decide +kernel),
    exceeds_of_eval (v := 0x401000) (by decide) (by decide +kernel),
    exceeds_of_eval (v := 0x400000) (by decide) (by decide +kernel)⟩

end BoredOS.Mem.Vmm
