import BoredOS.Sys.Descriptors.Model

/-!
# The Counters Against the Slots of One Table

`Accounts k H F` says that the kernel's counters, allocated objects and open files are right for the
references `H` and for the files `F` that are open without a handle. The calls are treated against
an arbitrary remainder: a call on one table takes what is right for `R` and the slots before to what
is right for `R` and the slots after (`Keeps`).
-/

namespace BoredOS.Sys.Descriptors

open Lib.RefCount Function List Option Nat Pi Ref

variable {k : Kernel} {H R : Ref → ℕ} {F : List ℕ} {r : Ref} {c : Ctx} {p : Fds}
  {fd : Fin maxProcessFds}

/-! ## Slots of one table -/

/-- What one slot holds. -/
def slotHeld (x : Option Ref) : Ref → ℕ := fun r => if x = some r then 1 else 0

@[simp] theorem slotHeld_none : slotHeld none = 0 := by
  funext r
  simp [slotHeld]

@[simp] theorem slotHeld_some : slotHeld (some r) = single r 1 := by
  funext q
  by_cases hq : q = r
  · simp [slotHeld, hq]
  · have hne : r ≠ q := Ne.symm hq
    simp [slotHeld, hq, hne]

theorem heldBy_eq_sum : heldBy p = ∑ fd, slotHeld (p fd) := by
  funext r
  simp [heldBy, slotHeld, Finset.sum_apply]

@[simp] theorem heldBy_emptyFds : heldBy emptyFds = 0 := by
  simp [heldBy_eq_sum, emptyFds]

theorem heldBy_update (x : Option Ref) :
    heldBy (update p fd x) + slotHeld (p fd) = heldBy p + slotHeld x := by
  simp only [heldBy_eq_sum]
  exact sum_update slotHeld p fd x

theorem heldBy_fill (h : p fd = none) :
    heldBy (update p fd (some r)) = heldBy p + single r 1 := by
  have hsum := @heldBy_update p fd (some r)
  simpa [h] using hsum

theorem heldBy_clear (h : p fd = some r) :
    heldBy p = heldBy (update p fd none) + single r 1 := by
  have hsum := @heldBy_update p fd none
  simpa [h] using hsum.symm

theorem heldBy_pos (h : p fd = some r) : 0 < heldBy p r := by
  simp [heldBy_clear h]

theorem heldBy_eq_zero_iff : heldBy p = 0 ↔ ∀ fd, p fd = none := by
  constructor
  · intro hzero fd
    cases hfd : p fd with
    | none => rfl
    | some =>
      have hpos := heldBy_pos hfd
      rw [hzero] at hpos
      exact absurd hpos (lt_irrefl 0)
  · intro hnone
    have hempty : p = emptyFds := funext hnone
    simp [hempty]

theorem eq_none_of_fsAllocFdSlot {start : ℕ} (h : fsAllocFdSlot p start = some fd) :
    p fd = none ∧ start ≤ fd.val := by
  have hfound := find?_some h
  simp only [Bool.and_eq_true, decide_eq_true_eq, isNone_iff_eq_none] at hfound
  exact ⟨hfound.2, hfound.1⟩

/-! ## The kernel's side -/

/-- Counters, objects and open files are right for the references `H` and for the files `F` that are
open without a handle; numbers from `fresh` on are unused. -/
structure Accounts (k : Kernel) (H : Ref → ℕ) (F : List ℕ) : Prop where
  balanced : Balanced obj k.table H
  files : ∀ i, k.fileOpen i = true ↔ 0 < H ⟨.file, i⟩ ∨ i ∈ F
  apart : ∀ i ∈ F, H ⟨.file, i⟩ = 0
  unused : ∀ r : Ref, k.fresh ≤ r.id → H r = 0
  unusedFile : ∀ i ∈ F, i < k.fresh

variable {i : ℕ} {q : Ref}

theorem obj_eq_fileRef : q.obj = ⟨.fileRef, i⟩ ↔ q = ⟨.file, i⟩ := by
  obtain ⟨kind, j⟩ := q
  cases kind <;> simp [obj, Kind.obj]

theorem obj_eq_pipe : q.obj = ⟨.pipe, i⟩ ↔ q = ⟨.pipeRead, i⟩ ∨ q = ⟨.pipeWrite, i⟩ := by
  obtain ⟨kind, j⟩ := q
  cases kind <;> simp [obj, Kind.obj]

theorem obj_eq_socket : q.obj = ⟨.socket, i⟩ ↔ q = ⟨.socket, i⟩ := by
  obtain ⟨kind, j⟩ := q
  cases kind <;> simp [obj, Kind.obj]

namespace Accounts

section

variable (h : Accounts k H F)

include h

theorem id_lt (hr : 0 < H r) : r.id < k.fresh := by
  by_contra hge
  rw [h.unused r (Nat.le_of_not_lt hge)] at hr
  exact lt_irrefl 0 hr

theorem fresh_not_mem : k.fresh ∉ F :=
  fun hmem => lt_irrefl _ (h.unusedFile _ hmem)

/-- A change that concerns one file: its handle, its state, or whether it is open without one. -/
theorem of_file {k' : Kernel} {H' : Ref → ℕ} {F' : List ℕ}
    (hbalanced : Balanced obj k'.table H') (hfresh : k.fresh ≤ k'.fresh) (hlt : i < k'.fresh)
    (hopen : ∀ j ≠ i, k'.fileOpen j = k.fileOpen j) (hrefs : ∀ q, q ≠ ⟨.file, i⟩ → H' q = H q)
    (hloose : ∀ j ≠ i, (j ∈ F' ↔ j ∈ F))
    (hself : k'.fileOpen i = true ↔ 0 < H' ⟨.file, i⟩ ∨ i ∈ F')
    (hapart : i ∈ F' → H' ⟨.file, i⟩ = 0) : Accounts k' H' F' := by
  have hfile : ∀ j ≠ i, H' ⟨.file, j⟩ = H ⟨.file, j⟩ :=
    fun j hj => hrefs _ fun heq => hj (congrArg Ref.id heq)
  refine ⟨hbalanced, fun j => ?_, fun j hmem => ?_, fun q hq => ?_, fun j hmem => ?_⟩
  · by_cases hj : j = i
    · exact hj ▸ hself
    · rw [hopen j hj, hfile j hj, hloose j hj, h.files j]
  · by_cases hj : j = i
    · subst hj
      exact hapart hmem
    · rw [hfile j hj]
      exact h.apart j ((hloose j hj).1 hmem)
  · rw [hrefs q]
    · exact h.unused q (le_trans hfresh hq)
    · rintro rfl
      exact absurd hlt (not_lt.2 hq)
  · by_cases hj : j = i
    · exact hj ▸ hlt
    · exact lt_of_lt_of_le (h.unusedFile j ((hloose j hj).1 hmem)) hfresh

/-- A reference that is held is taken once more. -/
theorem addref (hr : 0 < H r) :
    Accounts (addref k r) (H + single r 1) F where
  balanced := h.balanced.addref (h.balanced.alive_of_held hr)
  files := by
    intro i
    rw [show (Descriptors.addref k r).fileOpen = k.fileOpen from rfl, h.files i]
    by_cases hi : (⟨.file, i⟩ : Ref) = r
    · simp [hi, hr]
    · simp [hi]
  apart := by
    intro i hi
    have hzero := h.apart i hi
    have hne : (⟨.file, i⟩ : Ref) ≠ r := by
      rintro rfl
      exact absurd hzero (Nat.pos_iff_ne_zero.1 hr)
    simp [hne, hzero]
  unused := by
    intro q hq
    have hne : q ≠ r := by
      rintro rfl
      exact absurd (h.id_lt hr) (not_lt.2 hq)
    simp [hne, h.unused q hq]
  unusedFile := h.unusedFile

end

/-- The counter's part of giving a reference back. -/
theorem balanced_putRef {last : Bool} (h : Balanced obj k.table (H + single r 1))
    (hlast : last = true ↔ ∀ q : Ref, q.obj = r.obj → H q = 0) :
    Balanced obj (putRef k r last).table H := by
  cases last with
  | true => exact h.sub_free (hlast.1 rfl)
  | false =>
    apply h.sub_of_held
    by_contra hall
    push Not at hall
    exact Bool.false_ne_true (hlast.2 fun q hq => le_zero.1 (hall q hq))

variable (h : Accounts k (H + single r 1) F)

include h in
/-- Giving back a reference of another kind leaves the files as they are. -/
theorem of_putRef {last : Bool}
    (hkind : r.kind ≠ .file) (hlast : last = true ↔ ∀ q : Ref, q.obj = r.obj → H q = 0) :
    Accounts (putRef k r last) H F := by
  have hfile : ∀ i, (H + single r 1 : Ref → ℕ) ⟨.file, i⟩ = H ⟨.file, i⟩ := by
    intro i
    have hne : (⟨.file, i⟩ : Ref) ≠ r := by
      rintro rfl
      exact hkind rfl
    simp [hne]
  have hopen : (putRef k r last).fileOpen = k.fileOpen := by cases last <;> rfl
  have hfresh : (putRef k r last).fresh = k.fresh := by cases last <;> rfl
  constructor
  case balanced => exact balanced_putRef h.balanced hlast
  case files =>
    intro i
    rw [hopen, h.files i, hfile i]
  case apart =>
    intro i hi
    rw [← hfile i]
    exact h.apart i hi
  case unused =>
    intro q hq
    rw [hfresh] at hq
    exact (Nat.add_eq_zero_iff.1 (h.unused q hq)).1
  case unusedFile =>
    rw [hfresh]
    exact h.unusedFile

/-- The handle of a file counts the slots, and the file goes with it. -/
theorem closeFile (h : Accounts k (H + single ⟨.file, i⟩ 1) F) :
    Accounts (closeFile k i) H F := by
  have hheld : 0 < (H + single ⟨.file, i⟩ 1 : Ref → ℕ) ⟨.file, i⟩ := by simp
  have hcount : k.table.count ⟨.file, i⟩ = H ⟨.file, i⟩ + 1 := by
    simpa using h.balanced.count_eq ⟨.file, i⟩ (h.balanced.alive_of_held hheld)
  have hothers : (∀ q : Ref, q.obj = (⟨.file, i⟩ : Ref).obj → H q = 0) ↔ H ⟨.file, i⟩ = 0 := by
    simp [show (⟨.file, i⟩ : Ref).obj = ⟨.fileRef, i⟩ from rfl, obj_eq_fileRef]
  have hmem : i ∉ F := fun hi => by simpa using h.apart i hi
  have hlt : i < k.fresh := h.id_lt hheld
  have hrefs : ∀ q, q ≠ ⟨.file, i⟩ → H q = (H + single ⟨.file, i⟩ 1 : Ref → ℕ) q :=
    fun q hq => by simp [hq]
  by_cases hlast : H ⟨.file, i⟩ = 0
  · -- the last reference: the file is closed
    have hdef : Descriptors.closeFile k i = putRef (vfsClose k i) ⟨.file, i⟩ true := by
      simp [Descriptors.closeFile, hcount, hlast]
    rw [hdef]
    refine h.of_file (balanced_putRef h.balanced (by simp [hothers, hlast])) (le_refl _) hlt
      (fun j hj => update_of_ne hj _ _) hrefs (fun _ _ => .rfl) ?_ fun hi => absurd hi hmem
    simp [putRef, vfsClose, hlast, hmem]
  · have hdef : Descriptors.closeFile k i = putRef k ⟨.file, i⟩ false := by
      simp [Descriptors.closeFile, hcount, hlast]
    rw [hdef]
    refine h.of_file (balanced_putRef h.balanced (by simp [hothers, hlast])) (le_refl _) hlt
      (fun _ _ => rfl) hrefs (fun _ _ => .rfl) ?_ fun hi => absurd hi hmem
    simp [putRef, h.files i, Nat.pos_of_ne_zero hlast]

include h in
/-- Either end of a pipe keeps it. -/
theorem closePipe (hobj : r.obj = ⟨.pipe, r.id⟩) : Accounts (closePipe k r) H F := by
  have halive : k.table.alive ⟨.pipe, r.id⟩ = true := by
    rw [← hobj]
    exact h.balanced.alive_of_held (by simp)
  have hcount : ∀ q : Ref, q.obj = ⟨.pipe, r.id⟩ → (k.table.sub r).count q = H q := by
    intro q hq
    have hbefore := h.balanced.count_eq q (by rw [hq, halive])
    by_cases hqr : q = r
    · subst hqr
      simp [Table.sub, hbefore]
    · simpa [Table.sub, hqr] using hbefore
  apply h.of_putRef
  · intro hkind
    simp [obj, hkind, Kind.obj] at hobj
  · rw [hcount ⟨.pipeRead, r.id⟩ rfl, hcount ⟨.pipeWrite, r.id⟩ rfl, hobj, decide_eq_true_eq]
    simp only [obj_eq_pipe, forall_eq_or_imp, forall_eq]
    omega

theorem processSocketRelease (h : Accounts k (H + single ⟨.socket, i⟩ 1) F) :
    Accounts (processSocketRelease k i) H F := by
  have hcount : k.table.count ⟨.socket, i⟩ = H ⟨.socket, i⟩ + 1 := by
    simpa using h.balanced.count_eq ⟨.socket, i⟩ (h.balanced.alive_of_held (by simp))
  apply h.of_putRef
  · simp
  · simp only [show (⟨.socket, i⟩ : Ref).obj = ⟨.socket, i⟩ from rfl, obj_eq_socket, forall_eq,
      hcount, Bool.not_eq_true', decide_eq_false_iff_not]
    omega

include h in
theorem release : Accounts (release k r) H F := by
  obtain ⟨kind, i⟩ := r
  cases kind with
  | file => exact h.closeFile
  | pipeRead | pipeWrite => exact h.closePipe rfl
  | socket => exact h.processSocketRelease

/-! ## New objects -/

/-- A file is opened and nobody has a handle of it yet. -/
theorem vfsOpen (h : Accounts k H F) : Accounts (vfsOpen k) H (k.fresh :: F) := by
  refine h.of_file h.balanced (le_succ _) (lt_succ_self _)
    (fun j hj => update_of_ne hj _ _) (fun _ _ => rfl) (fun j hj => by simp [hj]) ?_
    fun _ => h.unused _ (le_refl _)
  simp [Descriptors.vfsOpen]

theorem vfsClose (h : Accounts k H (i :: F)) (hi : i ∉ F) : Accounts (vfsClose k i) H F := by
  refine h.of_file h.balanced (le_refl _) (h.unusedFile i mem_cons_self)
    (fun j hj => update_of_ne hj _ _) (fun _ _ => rfl) (fun j hj => by simp [hj]) ?_
    fun hmem => absurd hmem hi
  simp [Descriptors.vfsClose, hi, h.apart i]

/-- A file without a handle gets one, with references of its own. -/
theorem allocFileRef {n : ℕ} (h : Accounts k H (i :: F)) (hi : i ∉ F) (hn : 0 < n) :
    Accounts (allocFileRef k i n) (H + single ⟨.file, i⟩ n) F := by
  refine h.of_file ?_ (le_refl _) (h.unusedFile i mem_cons_self) (fun _ _ => rfl)
    (fun q hq => by simp [hq]) (fun j hj => by simp [hj]) ?_ fun hmem => absurd hmem hi
  · apply h.balanced.create
    · intro q hq
      rw [obj_eq_fileRef.1 hq]
      exact h.apart i (by simp)
    · intro q hq
      apply single_eq_of_ne
      rintro rfl
      exact hq rfl
    · exact ⟨⟨.file, i⟩, rfl, by simp [hn]⟩
  · simp [Descriptors.allocFileRef, h.files i, Nat.add_pos_right _ hn]

/-- The only reference to a handle is given up without a counter, and the file stays open. -/
theorem freeFileRef (h : Accounts k (H + single ⟨.file, i⟩ 1) F)
    (hi : H ⟨.file, i⟩ = 0) : Accounts (freeFileRef k i) H (i :: F) := by
  refine h.of_file ?_ (le_refl _) (h.id_lt (r := ⟨.file, i⟩) (by simp)) (fun _ _ => rfl)
    (fun q hq => by simp [hq]) (fun j hj => by simp [hj]) ?_ fun _ => hi
  · apply h.balanced.free
    · intro q hq
      rw [obj_eq_fileRef.1 hq, hi]
    · intro q hq
      apply single_eq_of_ne
      rintro rfl
      exact hq rfl
  · simp [Descriptors.freeFileRef, h.files i]

/-- A new object comes with all its holders. -/
theorem create {o : ObjKind} {n : Ref → ℕ} (h : Accounts k H F)
    (hn : ∀ q : Ref, q.obj ≠ ⟨o, k.fresh⟩ → n q = 0)
    (hheld : ∃ q : Ref, q.obj = ⟨o, k.fresh⟩ ∧ 0 < n q) (ho : o ≠ .fileRef) :
    Accounts { k with table := k.table.create obj ⟨o, k.fresh⟩ n, fresh := k.fresh + 1 }
      (H + n) F := by
  have hfile : ∀ i, (H + n) ⟨.file, i⟩ = H ⟨.file, i⟩ := by
    intro i
    have hzero : n ⟨.file, i⟩ = 0 := by
      apply hn
      intro hobj
      exact ho (congrArg Obj.kind hobj).symm
    simp [hzero]
  constructor
  case balanced =>
    refine h.balanced.create ?_ hn hheld
    intro q hq
    exact h.unused q (le_of_eq (congrArg Obj.id hq).symm)
  case files =>
    intro i
    rw [hfile i]
    exact h.files i
  case apart =>
    intro i hi
    rw [hfile i]
    exact h.apart i hi
  case unused =>
    -- the holders of the new object have its number, which is no longer fresh
    intro q hq
    have hzero : n q = 0 := by
      apply hn
      intro hobj
      have hid : q.id = k.fresh := congrArg Obj.id hobj
      rw [hid] at hq
      exact not_succ_le_self _ hq
    simp [hzero, h.unused q (le_of_succ_le hq)]
  case unusedFile =>
    intro i hi
    exact lt_succ_of_lt (h.unusedFile i hi)

theorem fsCreatePipeState (h : Accounts k H F) : Accounts (fsCreatePipeState k)
    (H + (single ⟨.pipeRead, k.fresh⟩ 1 + single ⟨.pipeWrite, k.fresh⟩ 1)) F := by
  apply h.create
  · intro q hq
    simp only [ne_eq, obj_eq_pipe, not_or] at hq
    simp [hq.1, hq.2]
  · exact ⟨⟨.pipeRead, k.fresh⟩, rfl, by simp⟩
  · simp

theorem processSocketCreate (h : Accounts k H F) :
    Accounts (processSocketCreate k) (H + single ⟨.socket, k.fresh⟩ 1) F := by
  apply h.create
  · intro q hq
    simp only [ne_eq, obj_eq_socket] at hq
    simp [hq]
  · exact ⟨⟨.socket, k.fresh⟩, rfl, by simp⟩
  · simp

end Accounts

/-! ## The calls on one table -/

/-- Against every remainder, what was right for the slots before is right for those after. -/
def Keeps (c c' : Ctx) : Prop :=
  ∀ R F, Accounts c.kernel (R + heldBy c.fds) F → Accounts c'.kernel (R + heldBy c'.fds) F

theorem Keeps.refl (c : Ctx) : Keeps c c := fun _ _ h => h

theorem Keeps.trans {c c' c'' : Ctx} (h : Keeps c c') (h' : Keeps c' c'') : Keeps c c'' :=
  fun R F hacc => h' R F (h R F hacc)

theorem keeps_foldl {α : Type} {f : Ctx → α → Ctx} (hf : ∀ c a, Keeps c (f c a)) (l : List α) :
    Keeps c (l.foldl f c) := by
  induction l generalizing c with
  | nil => exact .refl c
  | cons a l ih => exact (hf c a).trans ih

theorem keeps_processCloseFdInner (c : Ctx) (fd : Fin maxProcessFds) :
    Keeps c (processCloseFdInner c fd) := by
  intro R F h
  unfold processCloseFdInner
  cases hfd : c.fds fd with
  | none => exact h
  | some =>
    apply Accounts.release
    rw [add_assoc, ← heldBy_clear hfd]
    exact h

theorem Accounts.fill (h : Accounts k (R + heldBy p + single r 1) F) (hfd : p fd = none) :
    Accounts k (R + heldBy (update p fd (some r))) F := by
  rw [heldBy_fill hfd, ← add_assoc]
  exact h

/-- `open` drops the handle again if no slot is free. -/
theorem keeps_fsCmdOpen (c : Ctx) (t : OpenTrial) : Keeps c (fsCmdOpen c t).1 := by
  intro R F h
  have hopen := h.vfsOpen
  have hmem := h.fresh_not_mem
  cases t with
  | refused => exact h
  | opened memory =>
    cases memory with
    | false => exact hopen.vfsClose hmem
    | true =>
      have hacc := hopen.allocFileRef hmem one_pos
      simp only [fsCmdOpen]
      cases hslot : fsAllocFdSlot c.fds 0 with
      | some =>
        exact hacc.fill (eq_none_of_fsAllocFdSlot hslot).1
      | none => exact (hacc.freeFileRef (h.unused _ (le_refl _))).vfsClose hmem

theorem keeps_fsCmdClose (c : Ctx) (fd : Int) : Keeps c (fsCmdClose c fd).1 := by
  unfold fsCmdClose
  split
  · exact .refl c
  · split
    · exact .refl c
    · exact keeps_processCloseFdInner c _

/-- A used slot is copied into an empty one. -/
theorem keeps_copySlot {old new : Fin maxProcessFds} (hold : c.fds old = some r)
    (hnew : c.fds new = none) : Keeps c (copySlot c old new) := by
  intro R F h
  have hne : old ≠ new := by
    rintro rfl
    rw [hold] at hnew
    cases hnew
  have hkernel : (copySlot c old new).kernel = addref c.kernel r := by
    simp [copySlot, fdAddref, Ctx.setFd, hne, hold]
  have hfds : (copySlot c old new).fds = update c.fds new (some r) := by
    simp [copySlot, Ctx.setFd, hold]
  rw [hkernel, hfds]
  exact (h.addref (Nat.add_pos_right _ (heldBy_pos hold))).fill hnew

theorem keeps_fsCmdDup (c : Ctx) (oldfd : Int) : Keeps c (fsCmdDup c oldfd).1 := by
  unfold fsCmdDup
  split
  · exact .refl c
  next old _ =>
    cases hold : c.fds old with
    | none => exact .refl c
    | some =>
      cases hslot : fsAllocFdSlot c.fds 0 with
      | none => exact .refl c
      | some => exact keeps_copySlot hold (eq_none_of_fsAllocFdSlot hslot).1

@[simp] theorem processCloseFdInner_self : (processCloseFdInner c fd).fds fd = none := by
  unfold processCloseFdInner
  cases hfd : c.fds fd with
  | none => exact hfd
  | some => simp

theorem processCloseFdInner_of_ne {i : Fin maxProcessFds} (hi : i ≠ fd) :
    (processCloseFdInner c fd).fds i = c.fds i := by
  unfold processCloseFdInner
  cases hfd : c.fds fd with
  | none => rfl
  | some => simp [hi]

/-- `dup2` closes the target before it takes the reference; the two slots differ, so it is safe. -/
theorem keeps_fsCmdDup2 (c : Ctx) (oldfd newfd : Int) : Keeps c (fsCmdDup2 c oldfd newfd).1 := by
  unfold fsCmdDup2
  split
  next old new _ _ =>
    cases hold : c.fds old with
    | none => exact .refl c
    | some r =>
      by_cases heq : old = new
      · simp only [heq, if_true, isNone_some, Bool.false_eq_true, if_false]
        exact .refl c
      · simp only [heq, isNone_some, Bool.false_eq_true, if_false]
        apply (keeps_processCloseFdInner c new).trans
        apply keeps_copySlot _ processCloseFdInner_self
        · exact r
        · rw [processCloseFdInner_of_ne heq, hold]
  · exact .refl c

/-- `pipe` gives both ends or none. -/
theorem keeps_fsCmdPipe (c : Ctx) (valid memory : Bool) : Keeps c (fsCmdPipe c valid memory).1 := by
  unfold fsCmdPipe
  cases valid with
  | false => exact .refl c
  | true =>
    cases hrfd : fsAllocFdSlot c.fds 0 with
    | none => exact .refl c
    | some rfd =>
      cases hwfd : fsAllocFdSlot c.fds (rfd + 1) with
      | none => simpa [hwfd] using Keeps.refl c
      | some wfd =>
        cases memory with
        | false => simpa [hwfd] using Keeps.refl c
        | true =>
          intro R F h
          obtain ⟨hr, -⟩ := eq_none_of_fsAllocFdSlot hrfd
          obtain ⟨hw, hlt⟩ := eq_none_of_fsAllocFdSlot hwfd
          -- the search for the second slot starts behind the first
          have hne : wfd ≠ rfd := by
            rintro rfl
            exact not_succ_le_self _ hlt
          simp only [Bool.not_true, Bool.false_eq_true, if_false, hwfd, Ctx.setFd]
          rw [heldBy_fill (by simpa [hne] using hw), heldBy_fill hr,
            add_assoc (heldBy c.fds), ← add_assoc]
          exact h.fsCreatePipeState

theorem keeps_placeSocket (hfd : c.fds fd = none) : Keeps c (placeSocket c fd) := by
  intro R F h
  exact h.processSocketCreate.fill hfd

theorem keeps_undoSocket (hfd : c.fds fd = some ⟨.socket, i⟩) : Keeps c (undoSocket c fd i) := by
  intro R F h
  apply Accounts.processSocketRelease
  rw [undoSocket, add_assoc, ← heldBy_clear hfd]
  exact h

theorem placeSocket_self : (placeSocket c fd).fds fd = some ⟨.socket, c.kernel.fresh⟩ := by
  simp [placeSocket, Ctx.setFd]

/-- `socketpair` gives both sockets or none. -/
theorem keeps_handleSysSocketpair (c : Ctx) (valid memory₁ memory₂ paired : Bool) :
    Keeps c (handleSysSocketpair c valid memory₁ memory₂ paired).1 := by
  unfold handleSysSocketpair
  cases valid with
  | false => exact .refl c
  | true =>
    cases hfd₁ : fsAllocFdSlot c.fds 0 with
    | none => exact .refl c
    | some fd₁ =>
      cases memory₁ with
      | false => exact .refl c
      | true =>
        have hfirst := keeps_placeSocket (eq_none_of_fsAllocFdSlot hfd₁).1
        have hundo := hfirst.trans (keeps_undoSocket placeSocket_self)
        simp only [Bool.not_true, Bool.false_eq_true, if_false]
        cases hfd₂ : fsAllocFdSlot (placeSocket c fd₁).fds 0 with
        | none => exact hundo
        | some fd₂ =>
          have hnone := (eq_none_of_fsAllocFdSlot hfd₂).1
          have hne : fd₁ ≠ fd₂ := by
            rintro rfl
            rw [placeSocket_self] at hnone
            cases hnone
          cases memory₂ with
          | false => exact hundo
          | true =>
            have hsecond := hfirst.trans (keeps_placeSocket hnone)
            cases paired with
            | true => exact hsecond
            | false =>
              -- both sockets are closed again
              apply (hsecond.trans (keeps_undoSocket _)).trans (keeps_undoSocket _)
              · simp [placeSocket, Ctx.setFd, hne]
              · simp [undoSocket, placeSocket, Ctx.setFd, Ne.symm hne]

theorem keeps_processCleanupFds (c : Ctx) : Keeps c (processCleanupFds c) :=
  keeps_foldl keeps_processCloseFdInner _

/-- A slot that has been closed stays empty while others are closed. -/
theorem foldl_close_eq_none {l : List (Fin maxProcessFds)} (h : fd ∈ l ∨ c.fds fd = none) :
    (l.foldl processCloseFdInner c).fds fd = none := by
  induction l generalizing c with
  | nil => simpa using h
  | cons i l ih =>
    apply ih
    by_cases hi : fd = i
    · subst hi
      exact .inr processCloseFdInner_self
    · rw [processCloseFdInner_of_ne hi]
      simpa [hi] using h

theorem heldBy_processCleanupFds : heldBy (processCleanupFds c).fds = 0 := by
  rw [heldBy_eq_zero_iff]
  intro fd
  exact foldl_close_eq_none (.inl (mem_finRange fd))

end BoredOS.Sys.Descriptors
