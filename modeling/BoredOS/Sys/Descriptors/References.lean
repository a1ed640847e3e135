import BoredOS.Sys.Descriptors.Accounts

/-!
# Descriptor Reference Counts Along Every Run

A fork copies the parent's table after everything that can fail. A spawn sets the table up first and
may fail, or start over with an interpreter, afterwards: what it has taken by then is left behind.
-/

namespace BoredOS.Sys.Descriptors

open Lib.RefCount Lib.Transition Function List Proc Pi
open Nat (le_of_succ_le)

section

variable {k : Kernel} {H R : Ref → ℕ} {F : List ℕ} {r : Ref} {c : Ctx} {p parent : Fds}
  {fd : Fin maxProcessFds} (hle : heldBy parent ≤ R) (h : Accounts k R F)

/-! ## A child's table -/

section

variable {child : Ctx} {l : List (Fin maxProcessFds)}

theorem fds_inheritFd : (inheritFd parent child fd).fds = update child.fds fd (parent fd) := rfl

include hle in
/-- The parent's references are held by the parent, so that the child may take them again. -/
theorem accounts_inheritFd (hfd : child.fds fd = none)
    (h : Accounts child.kernel (R + heldBy child.fds) F) :
    Accounts (inheritFd parent child fd).kernel
      (R + heldBy (inheritFd parent child fd).fds) F := by
  rw [fds_inheritFd]
  cases hp : parent fd with
  | none =>
    have hkernel : (inheritFd parent child fd).kernel = child.kernel := by
      simp [inheritFd, fdAddref, Ctx.setFd, hp]
    rw [hkernel, ← hfd, update_eq_self]
    exact h
  | some r =>
    have hkernel : (inheritFd parent child fd).kernel = addref child.kernel r := by
      simp [inheritFd, fdAddref, Ctx.setFd, hp]
    rw [hkernel]
    apply Accounts.fill _ hfd
    apply h.addref
    exact lt_of_lt_of_le (heldBy_pos hp) (le_trans (hle r) (Nat.le_add_right _ _))

/-- The loop takes the slots of the list and leaves the others. -/
theorem fds_foldl_inheritFd (fd : Fin maxProcessFds) :
    (l.foldl (inheritFd parent) child).fds fd = if fd ∈ l then parent fd else child.fds fd := by
  induction l generalizing child with
  | nil => simp
  | cons i l ih =>
    rw [foldl_cons, ih, fds_inheritFd]
    by_cases hi : fd = i
    · subst hi
      simp
    · simp [hi]

include hle in
/-- Each descriptor that is inherited brings a reference of its own. -/
theorem accounts_foldl_inheritFd (hl : l.Nodup)
    (hnone : ∀ i ∈ l, child.fds i = none) (h : Accounts child.kernel (R + heldBy child.fds) F) :
    Accounts (l.foldl (inheritFd parent) child).kernel
      (R + heldBy (l.foldl (inheritFd parent) child).fds) F := by
  induction l generalizing child with
  | nil => exact h
  | cons i l ih =>
    obtain ⟨hi, hl⟩ := nodup_cons.1 hl
    apply ih hl _ (accounts_inheritFd hle (hnone i (by simp)) h)
    intro j hj
    have hne : j ≠ i := by
      rintro rfl
      exact hi hj
    rw [fds_inheritFd, update_of_ne hne]
    exact hnone j (mem_cons_of_mem i hj)

include hle h in
theorem accounts_inheritAll :
    Accounts (inheritAll k parent).kernel (R + heldBy (inheritAll k parent).fds) F := by
  apply accounts_foldl_inheritFd hle (nodup_finRange _)
  · intro i _
    rfl
  · simpa using h

end

/-- What the process that is returned holds, if there is one. -/
def childHeld (r : Kernel × Option Proc) : Ref → ℕ := (r.2.toList.map held).sum

@[simp] theorem childHeld_none : childHeld (k, none) = 0 := by
  simp [childHeld]

@[simp] theorem childHeld_some {pid : ℕ} :
    childHeld (k, some { pid := pid, fds := p }) = heldBy p := by
  simp [childHeld, held]

theorem Accounts.withPid (h : Accounts k H F) (pid : ℕ) : Accounts { k with nextPid := pid } H F :=
  { h with }

theorem Accounts.withDepth (h : Accounts k H F) (depth : Int) :
    Accounts { k with spawnShebangDepth := depth } H F :=
  { h with }

include hle h in
theorem accounts_processDuplicate (t : ForkTrial) :
    Accounts (processDuplicate k parent t).1 (R + childHeld (processDuplicate k parent t)) F := by
  cases t with
  | noStruct => simpa [processDuplicate] using h
  | noMemory => simpa [processDuplicate] using h.withPid _
  | succeeds => simpa [processDuplicate] using accounts_inheritAll hle (h.withPid _)

/-! ## Spawning -/

theorem stdFd_ne {i j : Fin 3} (h : i ≠ j) : stdFd i ≠ stdFd j := by
  intro heq
  have hval : (stdFd i).val = (stdFd j).val := by rw [heq]
  exact h (Fin.ext hval)

/-- The accounts of a new table, with the files that were opened in vain on the way. -/
def Opens (c : Ctx) (R : Ref → ℕ) (F : List ℕ) (vain : Prop) : Prop :=
  ∃ G, Accounts c.kernel (R + heldBy c.fds) (G ++ F) ∧ (G = [] ↔ ¬ vain)

variable {vain vain' : Prop}

theorem Opens.of_accounts (h : Accounts c.kernel (R + heldBy c.fds) F)
    (hvain : ¬ vain) : Opens c R F vain :=
  ⟨[], h, by simp [hvain]⟩

theorem Opens.of_vain {i : ℕ} (h : Accounts c.kernel (R + heldBy c.fds) (i :: F))
    (hvain : vain) : Opens c R F vain :=
  ⟨[i], h, by simp [hvain]⟩

/-- What is opened in vain by one part and by the next. -/
theorem Opens.trans {c' : Ctx} (h : Opens c R F vain)
    (h' : ∀ F, Accounts c.kernel (R + heldBy c.fds) F → Opens c' R F vain') :
    Opens c' R F (vain ∨ vain') := by
  obtain ⟨G, hacc, hG⟩ := h
  obtain ⟨G', hacc', hG'⟩ := h' _ hacc
  refine ⟨G' ++ G, ?_, ?_⟩
  · rw [append_assoc]
    exact hacc'
  · rw [append_eq_nil_iff, hG, hG']
    tauto

theorem heldBy_std : heldBy (fun fd => if fd.val < 3 then some r else none) = single r 3 := by
  funext q
  by_cases hq : q = r
  · subst hq
    simp only [heldBy, single_eq_same, Option.ite_none_right_eq_some, and_true]
    decide
  · have hne : r ≠ q := Ne.symm hq
    simp [heldBy, hq, hne]

theorem opens_openTty (h : Accounts k R F) (t : TtyTrial) :
    Opens (openTty k t) R F (t = .noRef) := by
  cases t with
  | closed => exact .of_accounts (by simpa [openTty] using h) (by simp)
  | noRef => exact .of_vain (by simpa [openTty] using h.vfsOpen) rfl
  | opened =>
    apply Opens.of_accounts _ (by simp)
    rw [openTty, heldBy_std]
    exact h.vfsOpen.allocFileRef h.fresh_not_mem (by simp)

include hle h in
theorem accounts_inheritStd :
    Accounts (inheritStd k parent).kernel (R + heldBy (inheritStd k parent).fds) F := by
  apply accounts_foldl_inheritFd hle
  · decide
  · intro i _
    rfl
  · simpa using h

/-- The part before the console. -/
def firstFds (k : Kernel) (parent : Fds) (tty : Bool) (e : Setup) : Ctx :=
  if tty then openTty k e.tty else inheritStd k parent

theorem mem_std {fd : Fin maxProcessFds} : fd ∈ (List.finRange 3).map stdFd ↔ fd.val < 3 := by
  rw [mem_map]
  constructor
  · rintro ⟨i, -, rfl⟩
    exact i.isLt
  · intro hlt
    exact ⟨⟨fd.val, hlt⟩, mem_finRange _, rfl⟩

theorem fds_firstFds (tty : Bool) (e : Setup) (i : Fin 3) :
    ((firstFds k parent tty e).fds (stdFd i)).isSome = true ↔ e.given parent tty i := by
  have hlt : (stdFd i).val < 3 := i.isLt
  cases tty with
  | true =>
    simp only [firstFds, Setup.given, if_true]
    cases e.tty <;> simp [openTty, emptyFds, hlt]
  | false =>
    simp only [firstFds, Setup.given, Bool.false_eq_true, if_false, inheritStd,
      fds_foldl_inheritFd, mem_std, hlt, if_true]

theorem fds_firstFds_of_le (tty : Bool) (e : Setup) (hfd : 3 ≤ fd.val) :
    (firstFds k parent tty e).fds fd = none := by
  have hge : ¬ fd.val < 3 := not_lt.2 hfd
  cases tty with
  | true =>
    simp only [firstFds, if_true]
    cases e.tty <;> simp [openTty, emptyFds, hge]
  | false =>
    simp only [firstFds, Bool.false_eq_true, if_false, inheritStd, fds_foldl_inheritFd, mem_std,
      hge, emptyFds]

/-! ### The console -/

section

variable {console : Fin 3 → TtyTrial} {cref : Option ℕ} {i : Fin 3} {j : ℕ}

/-- A handle that starts with no reference and gets one starts with one. -/
theorem addref_allocFileRef : addref (allocFileRef k j 0) ⟨.file, j⟩ = allocFileRef k j 1 := by
  have hcount : ((k.table.create Ref.obj ⟨.fileRef, j⟩ (single ⟨.file, j⟩ 0)).addref
      ⟨.file, j⟩).count =
      (k.table.create Ref.obj ⟨.fileRef, j⟩ (single ⟨.file, j⟩ 1)).count := by
    funext q
    by_cases hq : q = ⟨.file, j⟩
    · subst hq
      simp [Table.addref, Table.create, Ref.obj, Kind.obj]
    · simp [Table.addref, Table.create, hq, obj_eq_fileRef]
  simp only [addref, allocFileRef, Table.addref] at hcount ⊢
  rw [hcount]
  rfl

/-- The slot gets the handle, whose counter is in the kernel `k` already. -/
def withConsole (c : Ctx) (k : Kernel) (i : Fin 3) (j : ℕ) : Ctx × Option ℕ :=
  (.setFd { c with kernel := k } (stdFd i) (some ⟨.file, j⟩), some j)

/-- A standard descriptor is there, shares the console of an earlier one, or tries to open it. -/
theorem consoleFd_cases (console : Fin 3 → TtyTrial) (c : Ctx) (cref : Option ℕ) (i : Fin 3) :
    ((c.fds (stdFd i)).isSome = true ∧ consoleFd console (c, cref) i = (c, cref)) ∨
    (c.fds (stdFd i) = none ∧ ((∃ j, cref = some j ∧
          consoleFd console (c, cref) i = withConsole c (addref c.kernel ⟨.file, j⟩) i j) ∨
        (cref = none ∧ console i = .closed ∧ consoleFd console (c, cref) i = (c, none)) ∨
        (cref = none ∧ console i = .noRef ∧
          consoleFd console (c, cref) i = ({ c with kernel := vfsOpen c.kernel }, none)) ∨
        (cref = none ∧ console i = .opened ∧ consoleFd console (c, cref) i =
          withConsole c (allocFileRef (vfsOpen c.kernel) c.kernel.fresh 1) i c.kernel.fresh))) := by
  cases hfd : c.fds (stdFd i) with
  | some => exact .inl ⟨rfl, by simp [consoleFd, hfd]⟩
  | none =>
    refine .inr ⟨rfl, ?_⟩
    cases cref with
    | some j => exact .inl ⟨j, rfl, by simp [consoleFd, hfd, openConsole, withConsole]⟩
    | none =>
      cases hi : console i with
      | closed | noRef => simp [consoleFd, hfd, hi, openConsole]
      | opened => simp [consoleFd, hfd, hi, openConsole, withConsole, addref_allocFileRef]

/-- The handle of the console is held by a slot. -/
def ConsoleHeld (cr : Ctx × Option ℕ) : Prop := ∀ j, cr.2 = some j → 0 < heldBy cr.1.fds ⟨.file, j⟩

theorem consoleHeld_withConsole : ConsoleHeld (withConsole c k i j) := by
  intro j' hj
  obtain rfl : j = j' := Option.some.inj hj
  apply heldBy_pos
  exact update_self (stdFd i) _ _

theorem consoleHeld_consoleFd (hheld : ConsoleHeld (c, cref)) :
    ConsoleHeld (consoleFd console (c, cref) i) := by
  obtain ⟨-, heq⟩ | ⟨-, ⟨j, -, heq⟩ | ⟨-, -, heq⟩ | ⟨-, -, heq⟩ | ⟨-, -, heq⟩⟩ :=
    consoleFd_cases console c cref i
  · rw [heq]
    exact hheld
  · rw [heq]
    exact consoleHeld_withConsole
  · simp [heq, ConsoleHeld]
  · simp [heq, ConsoleHeld]
  · rw [heq]
    exact consoleHeld_withConsole

/-- One turn opens a file in vain when the slot is empty, there is no handle yet, and none can be
made. -/
theorem opens_consoleFd (hheld : ConsoleHeld (c, cref))
    (h : Accounts c.kernel (R + heldBy c.fds) F) :
    Opens (consoleFd console (c, cref) i).1 R F
      (c.fds (stdFd i) = none ∧ cref = none ∧ console i = .noRef) := by
  obtain ⟨hfd, heq⟩ | ⟨hfd, ⟨j, hj, heq⟩ | ⟨hc, hi, heq⟩ | ⟨hc, hi, heq⟩ | ⟨hc, hi, heq⟩⟩ :=
    consoleFd_cases console c cref i
  · rw [heq]
    apply Opens.of_accounts h
    rintro ⟨hnone, -⟩
    simp [hnone] at hfd
  · rw [heq]
    have hacc := h.addref (Nat.add_pos_right _ (hheld j hj))
    exact .of_accounts (hacc.fill hfd) (by simp [hj])
  · rw [heq]
    exact .of_accounts h (by simp [hi])
  · rw [heq]
    exact .of_vain h.vfsOpen ⟨hfd, hc, hi⟩
  · rw [heq]
    have hacc := h.vfsOpen.allocFileRef h.fresh_not_mem Nat.one_pos
    exact .of_accounts (hacc.fill hfd) (by simp [hi])

theorem fds_consoleFd_of_ne (hfd : fd ≠ stdFd i) :
    (consoleFd console (c, cref) i).1.fds fd = c.fds fd := by
  obtain ⟨-, heq⟩ | ⟨-, ⟨j, -, heq⟩ | ⟨-, -, heq⟩ | ⟨-, -, heq⟩ | ⟨-, -, heq⟩⟩ :=
    consoleFd_cases console c cref i <;>
  simp [heq, withConsole, Ctx.setFd, hfd]

theorem isSome_consoleFd_self : ((consoleFd console (c, cref) i).1.fds (stdFd i)).isSome = true ↔
      (c.fds (stdFd i)).isSome = true ∨ cref.isSome = true ∨ console i = .opened := by
  obtain ⟨hfd, heq⟩ | ⟨hfd, ⟨j, hj, heq⟩ | ⟨hc, hi, heq⟩ | ⟨hc, hi, heq⟩ | ⟨hc, hi, heq⟩⟩ :=
    consoleFd_cases console c cref i
  all_goals
    rw [heq]
    simp [*, withConsole, Ctx.setFd]

theorem isSome_consoleFd_ref : (consoleFd console (c, cref) i).2.isSome = true ↔
      cref.isSome = true ∨ (c.fds (stdFd i) = none ∧ console i = .opened) := by
  obtain ⟨hfd, heq⟩ | ⟨hfd, ⟨j, hj, heq⟩ | ⟨hc, hi, heq⟩ | ⟨hc, hi, heq⟩ | ⟨hc, hi, heq⟩⟩ :=
    consoleFd_cases console c cref i
  · have hne : c.fds (stdFd i) ≠ none := Option.isSome_iff_ne_none.1 hfd
    simp [heq, hne]
  all_goals
    rw [heq]
    simp [*, withConsole]

end

/-! ### The table of a new process -/

/-- The console loop after `n` turns. -/
def turn (k : Kernel) (parent : Fds) (tty : Bool) (e : Setup) : ℕ → Ctx × Option ℕ
  | 0 => (firstFds k parent tty e, none)
  | n + 1 =>
    if h : n < 3 then consoleFd e.console (turn k parent tty e n) ⟨n, h⟩
    else turn k parent tty e n

section

variable {tty : Bool} {e : Setup} {i : Fin 3} {n : ℕ}

theorem setupFds_eq_turn : setupFds k parent tty e = (turn k parent tty e 3).1 := rfl

theorem turn_succ (h : n < 3) : turn k parent tty e (n + 1) =
    consoleFd e.console ((turn k parent tty e n).1, (turn k parent tty e n).2) ⟨n, h⟩ := by
  simp [turn, h]

/-- A slot whose turn has not come is as before the loop. -/
theorem fds_turn (hn : n ≤ 3) (hi : n ≤ i.val) :
    (turn k parent tty e n).1.fds (stdFd i) = (firstFds k parent tty e).fds (stdFd i) := by
  induction n with
  | zero => rfl
  | succ n ih =>
    rw [turn_succ hn, fds_consoleFd_of_ne]
    · exact ih (le_of_succ_le hn) (le_of_succ_le hi)
    · apply stdFd_ne
      rintro rfl
      exact Nat.not_succ_le_self _ hi

theorem fds_turn_eq_none (hn : n < 3) :
    (turn k parent tty e n).1.fds (stdFd ⟨n, hn⟩) = none ↔ ¬ e.given parent tty ⟨n, hn⟩ := by
  rw [fds_turn (le_of_lt hn) (le_refl n), ← fds_firstFds tty e ⟨n, hn⟩,
    Option.not_isSome_iff_eq_none]

/-- The turns so far and the last one. -/
theorem exists_turn_succ {P : Fin 3 → Prop} (hn : n < 3) :
    (∃ j : Fin 3, j.val < n + 1 ∧ P j) ↔ (∃ j : Fin 3, j.val < n ∧ P j) ∨ P ⟨n, hn⟩ := by
  constructor
  · rintro ⟨j, hj, hrest⟩
    rcases Nat.lt_succ_iff_lt_or_eq.1 hj with hlt | rfl
    · exact .inl ⟨j, hlt, hrest⟩
    · exact .inr hrest
  · rintro (⟨j, hj, hrest⟩ | hnow)
    · exact ⟨j, Nat.lt_succ_of_lt hj, hrest⟩
    · exact ⟨⟨n, hn⟩, Nat.lt_succ_self n, hnow⟩

/-- There is a handle once an empty slot could be given one. -/
theorem ref_turn (hn : n ≤ 3) : (turn k parent tty e n).2.isSome = true ↔
    ∃ j : Fin 3, j.val < n ∧ ¬ e.given parent tty j ∧ e.console j = .opened := by
  induction n with
  | zero => simp [turn]
  | succ n ih =>
    rw [turn_succ hn, isSome_consoleFd_ref, ih (le_of_succ_le hn), fds_turn_eq_none hn,
      exists_turn_succ hn]

theorem consoleHeld_turn (hn : n ≤ 3) : ConsoleHeld (turn k parent tty e n) := by
  induction n with
  | zero => simp [turn, ConsoleHeld]
  | succ n ih =>
    rw [turn_succ hn]
    exact consoleHeld_consoleFd (ih (le_of_succ_le hn))

/-- The slot is empty at its turn, no slot before it has brought a handle, and none can be made. -/
def Setup.LeaksAt (e : Setup) (parent : Fds) (tty : Bool) (i : Fin 3) : Prop :=
  ¬ e.given parent tty i ∧ e.console i = .noRef ∧
    ∀ j < i, e.given parent tty j ∨ e.console j ≠ .opened

theorem Opens.congr (h : Opens c R F vain) (hiff : vain ↔ vain') : Opens c R F vain' := by
  obtain ⟨G, hacc, hG⟩ := h
  exact ⟨G, hacc, by rw [hG, hiff]⟩

include hle h in
/-- What the loop has opened in vain after `n` turns. -/
theorem opens_turn (hn : n ≤ 3) :
    Opens (turn k parent tty e n).1 R F
      ((tty = true ∧ e.tty = .noRef) ∨ ∃ i : Fin 3, i.val < n ∧ e.LeaksAt parent tty i) := by
  induction n with
  | zero =>
    cases tty with
    | true => simpa [turn, firstFds] using opens_openTty h e.tty
    | false => exact .of_accounts (accounts_inheritStd hle h) (by simp)
  | succ n ih =>
    have hnow := (ih (le_of_succ_le hn)).trans fun F hacc =>
      @opens_consoleFd R F _ e.console _ ⟨n, hn⟩ (consoleHeld_turn (le_of_succ_le hn)) hacc
    rw [← turn_succ hn] at hnow
    apply hnow.congr
    rw [or_assoc]
    apply or_congr_right
    have hat : (turn k parent tty e n).1.fds (stdFd ⟨n, hn⟩) = none ∧
        (turn k parent tty e n).2 = none ∧ e.console ⟨n, hn⟩ = .noRef ↔
        e.LeaksAt parent tty ⟨n, hn⟩ := by
      rw [fds_turn_eq_none hn, ← Option.not_isSome_iff_eq_none, ref_turn (le_of_succ_le hn)]
      simp only [Setup.LeaksAt, Fin.lt_def, not_exists, not_and, or_iff_not_imp_left, ne_eq]
      tauto
    rw [hat, exists_turn_succ hn]

include hle h in
/-- Setting up the table takes its references and opens a file in vain in the cases of `Leaks`. -/
theorem opens_setupFds : Opens (setupFds k parent tty e) R F (e.Leaks parent tty) := by
  have hall := @opens_turn k R F parent hle h tty e 3 (le_refl 3)
  apply hall.congr
  simp [Setup.Leaks, Setup.LeaksAt]

/-- A slot is not touched after its turn. -/
theorem fds_turn_of_lt (hn : n ≤ 3) (hi : i.val < n) : (turn k parent tty e n).1.fds (stdFd i) =
    (turn k parent tty e (i.val + 1)).1.fds (stdFd i) := by
  induction n with
  | zero => exact absurd hi (Nat.not_lt_zero _)
  | succ n ih =>
    rcases Nat.lt_succ_iff_lt_or_eq.1 hi with hlt | rfl
    · rw [turn_succ hn, fds_consoleFd_of_ne]
      · exact ih (le_of_succ_le hn) hlt
      · apply stdFd_ne
        rintro rfl
        exact lt_irrefl _ hlt
    · rfl

/-- A slot is used in the end if it was given, or if a handle was there or could be made at its
turn. -/
theorem isSome_setupFds : ((setupFds k parent tty e).fds (stdFd i)).isSome = true ↔
    e.given parent tty i ∨
      (∃ j : Fin 3, j.val < i.val ∧ ¬ e.given parent tty j ∧ e.console j = .opened) ∨
      e.console i = .opened := by
  rw [setupFds_eq_turn, fds_turn_of_lt (le_refl 3) i.isLt, turn_succ i.isLt,
    isSome_consoleFd_self, ref_turn (le_of_lt i.isLt),
    fds_turn (le_of_lt i.isLt) (le_refl _), fds_firstFds]

theorem fds_turn_of_le (hn : n ≤ 3) (hfd : 3 ≤ fd.val) :
    (turn k parent tty e n).1.fds fd = none := by
  induction n with
  | zero => exact fds_firstFds_of_le tty e hfd
  | succ n ih =>
    rw [turn_succ hn, fds_consoleFd_of_ne]
    · exact ih (le_of_succ_le hn)
    · rintro rfl
      exact absurd hn (not_le.2 (Nat.lt_succ_of_le hfd))

/-- The new table is empty when nothing is taken. -/
theorem heldBy_setupFds : heldBy (setupFds k parent tty e).fds = 0 ↔ ¬ e.Takes parent tty := by
  rw [heldBy_eq_zero_iff]
  constructor
  · rintro hnone ⟨i, hi⟩
    have hsome : ((setupFds k parent tty e).fds (stdFd i)).isSome = true := by
      rw [isSome_setupFds]
      tauto
    rw [hnone (stdFd i)] at hsome
    cases hsome
  · intro htakes fd
    by_cases hfd : 3 ≤ fd.val
    · exact fds_turn_of_le (le_refl 3) hfd
    · have hstd : fd = stdFd ⟨fd.val, Nat.lt_of_not_le hfd⟩ := rfl
      rw [← Option.not_isSome_iff_eq_none, hstd, isSome_setupFds]
      rintro (hgiven | ⟨j, -, -, hj⟩ | hnow)
      · exact htakes ⟨_, .inl hgiven⟩
      · exact htakes ⟨j, .inr hj⟩
      · exact htakes ⟨_, .inr hnow⟩

theorem depth_foldl_inheritFd {child : Ctx} {l : List (Fin maxProcessFds)} :
    (l.foldl (inheritFd parent) child).kernel.spawnShebangDepth =
      child.kernel.spawnShebangDepth := by
  induction l generalizing child with
  | nil => rfl
  | cons i l ih =>
    rw [foldl_cons, ih]
    simp only [inheritFd, fdAddref]
    split <;> rfl

theorem depth_setupFds :
    (setupFds k parent tty e).kernel.spawnShebangDepth = k.spawnShebangDepth := by
  have hfirst : (firstFds k parent tty e).kernel.spawnShebangDepth = k.spawnShebangDepth := by
    cases tty with
    | true =>
      simp only [firstFds, if_true]
      cases e.tty <;> rfl
    | false => exact depth_foldl_inheritFd
  have hloop : ∀ n ≤ 3, (turn k parent tty e n).1.kernel.spawnShebangDepth =
      k.spawnShebangDepth := by
    intro n hn
    induction n with
    | zero => exact hfirst
    | succ n ih =>
      rw [turn_succ hn, ← ih (le_of_succ_le hn)]
      obtain ⟨-, heq⟩ | ⟨-, ⟨j, -, heq⟩ | ⟨-, -, heq⟩ | ⟨-, -, heq⟩ | ⟨-, -, heq⟩⟩ :=
        consoleFd_cases e.console (turn k parent tty e n).1 (turn k parent tty e n).2 ⟨n, hn⟩
      all_goals exact congrArg (fun cr => cr.1.kernel.spawnShebangDepth) heq
  exact hloop 3 (le_refl 3)

end

/-! ### The whole spawn -/

/-- What a spawn leaves behind: references that no slot has and files without a handle. Nothing is
left exactly when it was safe. -/
def SpawnLeaves (r : Kernel × Option Proc) (R : Ref → ℕ) (F : List ℕ) (safe : Prop) : Prop :=
  ∃ O G, Accounts r.1 (R + O + childHeld r) (G ++ F) ∧ ((O = 0 ∧ G = []) ↔ safe)

theorem SpawnLeaves.of_accounts (h : Accounts k R F) {safe : Prop} (hsafe : safe) :
    SpawnLeaves (k, none) R F safe :=
  ⟨0, [], by simpa using h, by simp [hsafe]⟩

/-- Without memory for the structure or its page tables nothing has been taken. -/
theorem spawnLeaves_createStruct {e : Setup} {rest : Kernel → Kernel × Option Proc} {safe : Prop}
    (h : Accounts k R F) (hrest : SpawnLeaves (rest { k with nextPid := k.nextPid + 1 }) R F safe) :
    SpawnLeaves (createStruct k e rest) R F (e.Begins → safe) := by
  unfold createStruct
  cases hstruct : e.struct with
  | false => exact .of_accounts h (by simp [Setup.Begins, hstruct])
  | true =>
    cases htables : e.pageTables with
    | false =>
      exact .of_accounts (h.withPid _) (by simp [Setup.Begins, htables])
    | true =>
      have hbegins : e.Begins := ⟨hstruct, htables⟩
      simpa [hbegins] using hrest

include hle h in
/-- The references of a table that is given up are left behind. -/
theorem exists_of_opens_setupFds (tty : Bool)
    (e : Setup) : ∃ O G, Accounts (setupFds k parent tty e).kernel (R + O) (G ++ F) ∧
      ((O = 0 ∧ G = []) ↔ ¬ e.Takes parent tty ∧ ¬ e.Leaks parent tty) := by
  obtain ⟨G, hacc, hG⟩ := @opens_setupFds k R F parent hle h tty e
  refine ⟨heldBy (setupFds k parent tty e).fds, G, hacc, ?_⟩
  rw [hG, heldBy_setupFds]

theorem add_eq_zero_iff_holders {O O' : Ref → ℕ} : O + O' = 0 ↔ O = 0 ∧ O' = 0 := by
  simp [funext_iff]

/-- By induction on the chain of scripts: every attempt but the last adds to what is left. -/
theorem accounts_processCreateElf (tty : Bool) (image : Image) (hle : heldBy parent ≤ R)
    (h : Accounts k R F) : SpawnLeaves (processCreateElf parent tty image k) R F
      (SpawnSafe parent tty image k.spawnShebangDepth) := by
  induction image generalizing k R F with
  | refused e why =>
    apply spawnLeaves_createStruct h
    obtain ⟨O, G, hacc, hsafe⟩ := exists_of_opens_setupFds hle (h.withPid _) tty e
    exact ⟨O, G, by simpa using hacc, hsafe⟩
  | starts e =>
    apply spawnLeaves_createStruct h
    obtain ⟨G, hacc, hG⟩ := @opens_setupFds _ _ _ _ hle (h.withPid (k.nextPid + 1)) tty e
    exact ⟨0, G, by simpa using hacc, by simpa using hG⟩
  | script e interp ih =>
    apply spawnLeaves_createStruct h
    obtain ⟨O, G, hacc, hsafe⟩ :=
      exists_of_opens_setupFds hle (h.withPid (k.nextPid + 1)) tty e
    simp only [depth_setupFds]
    split
    next hdepth =>
      refine ⟨O, G, by simpa using hacc.withDepth 0, ?_⟩
      rw [hsafe]
      simp [Int.not_lt.2 hdepth]
    next hdepth =>
      -- the interpreter is spawned on top of what the script has left
      have hle' : heldBy parent ≤ R + O := fun r =>
        le_trans (hle r) (Nat.le_add_right _ _)
      obtain ⟨O', G', hacc', hsafe'⟩ := ih hle' (hacc.withDepth (k.spawnShebangDepth + 1))
      refine ⟨O + O', G' ++ G, ?_, ?_⟩
      · rw [append_assoc, ← add_assoc]
        exact hacc'.withDepth _
      · have hlt : k.spawnShebangDepth < 4 := Int.not_le.1 hdepth
        rw [← hsafe, ← hsafe', add_eq_zero_iff_holders, append_eq_nil_iff]
        tauto

end

/-! ## One step -/

variable {s s' : State} {i : ℕ} {q : Proc} {a : ℕ × Call} {O : Ref → ℕ} {G : List ℕ}

/-- The slots of one process and those of the others. -/
theorem slots_set (hi : s.procs[i]? = some q) : ∃ R, s.slots = R + q.held ∧
    ∀ k q', ({ kernel := k, procs := s.procs.set i q' } : State).slots = R + q'.held := by
  -- the others are what is left when the process is exchanged for one that holds nothing
  let idle : Proc := { pid := 0, fds := emptyFds, exited := true }
  have hidle : idle.held = 0 := by simp [idle, held]
  refine ⟨((s.procs.set i idle).map held).sum, ?_, ?_⟩
  · have hsum := sum_map_set held idle hi
    rw [hidle, add_zero] at hsum
    exact hsum.symm
  · intro k q'
    have hlt : i < s.procs.length := (List.getElem?_eq_some_iff.1 hi).1
    have hsum := sum_map_set held q' (getElem?_set_self hlt (a := idle))
    rw [hidle, add_zero, set_set] at hsum
    exact hsum

/-- With references that no slot has, or files without a handle, the counters are wrong. -/
theorem refsOk_iff (h : Accounts s.kernel (s.slots + O) G) : RefsOk s ↔ O = 0 ∧ G = [] := by
  constructor
  · intro hok
    have hbalanced : Balanced Ref.obj s.kernel.table s.slots := ⟨hok.refs, hok.freed⟩
    have hO : O = 0 := by
      have hsame := h.balanced.holders_eq hbalanced
      simpa using hsame
    refine ⟨hO, ?_⟩
    apply eq_nil_iff_forall_not_mem.2
    intro j hj
    have hopen := (hok.closed j).1 ((h.files j).2 (.inr hj))
    have hnone := h.apart j hj
    rw [hO, add_zero] at hnone
    exact absurd hnone (Nat.pos_iff_ne_zero.1 hopen)
  · rintro ⟨rfl, rfl⟩
    rw [add_zero] at h
    exact ⟨h.balanced.count_eq, h.balanced.alive_iff, by simpa using h.files⟩

def StepLeaves (s' : State) (safe : Prop) : Prop :=
  ∃ O G, Accounts s'.kernel (s'.slots + O) G ∧ ((O = 0 ∧ G = []) ↔ safe)

theorem StepLeaves.of_accounts (h : Accounts s'.kernel s'.slots []) : StepLeaves s' True :=
  ⟨0, [], by simpa using h, by simp⟩

theorem held_of_running (hq : q.exited = false) : q.held = heldBy q.fds := by
  simp [held, hq]

/-- A call on the caller's own table. -/
theorem stepLeaves_putCtx (h : Accounts s.kernel s.slots []) (hi : s.procs[i]? = some q)
    (hq : q.exited = false) {c : Ctx} (hkeeps : Keeps ⟨q.fds, s.kernel⟩ c) :
    StepLeaves (s.putCtx i q c) True := by
  obtain ⟨R, hslots, hset⟩ := slots_set hi
  rw [hslots, held_of_running hq] at h
  have hheld : ({ q with fds := c.fds } : Proc).held = heldBy c.fds := held_of_running hq
  apply StepLeaves.of_accounts
  rw [State.putCtx, hset, hheld]
  exact hkeeps R [] h

theorem heldBy_le_slots (hi : s.procs[i]? = some q) (hq : q.exited = false) :
    heldBy q.fds ≤ s.slots := by
  obtain ⟨R, hslots, -⟩ := slots_set hi
  rw [hslots, held_of_running hq]
  exact fun r => Nat.le_add_left _ _

theorem slots_addProc {r : Kernel × Option Proc} : (s.addProc r).slots = s.slots + childHeld r := by
  simp [State.addProc, State.slots, childHeld]

section

variable (h : Accounts s.kernel s.slots [])

include h

section

variable (hi : s.procs[i]? = some q) (hq : q.exited = false)

include hi hq

/-- The end of a process drops what its descriptors hold. -/
theorem stepLeaves_exitProc (hstep : exitProc s i q = some s') : StepLeaves s' True := by
  unfold exitProc at hstep
  split at hstep
  · cases hstep
    exact .of_accounts h
  · split at hstep
    · cases hstep
    · cases hstep
      obtain ⟨R, hslots, hset⟩ := slots_set hi
      rw [hslots, held_of_running hq] at h
      apply StepLeaves.of_accounts
      rw [hset]
      -- the table is empty, so that it does not matter that it is no longer counted
      have hclosed := keeps_processCleanupFds ⟨q.fds, s.kernel⟩ R [] h
      rw [heldBy_processCleanupFds] at hclosed
      simpa [held] using hclosed

end

/-- What a step leaves is accounted for but for what nobody holds, and that is nothing if and only
if the step is safe. -/
theorem stepLeaves_step (hstep : step s a = some s') : StepLeaves s' (DescriptorSafe s a) := by
  obtain ⟨i, call⟩ := a
  unfold step at hstep
  cases hi : s.procs[i]? with
  | none => simp [hi] at hstep
  | some q =>
    simp only [hi] at hstep
    cases hq : q.exited with
    | true => simp [hq] at hstep
    | false =>
      simp only [hq, Bool.false_eq_true, if_false] at hstep
      simp only [DescriptorSafe, hi]
      cases call with
      | openFile t =>
        cases hstep
        exact stepLeaves_putCtx h hi hq (keeps_fsCmdOpen _ t)
      | close fd =>
        cases hstep
        exact stepLeaves_putCtx h hi hq (keeps_fsCmdClose _ fd)
      | dup oldfd =>
        cases hstep
        exact stepLeaves_putCtx h hi hq (keeps_fsCmdDup _ oldfd)
      | dup2 oldfd newfd =>
        cases hstep
        exact stepLeaves_putCtx h hi hq (keeps_fsCmdDup2 _ oldfd newfd)
      | pipe valid memory =>
        cases hstep
        exact stepLeaves_putCtx h hi hq (keeps_fsCmdPipe _ valid memory)
      | socketpair valid memory₁ memory₂ paired =>
        cases hstep
        exact stepLeaves_putCtx h hi hq (keeps_handleSysSocketpair _ valid memory₁ memory₂ paired)
      | duplicate | createThread =>
        cases hstep
        apply StepLeaves.of_accounts
        rw [slots_addProc]
        exact accounts_processDuplicate (heldBy_le_slots hi hq) h _
      | exec replaced =>
        cases replaced with
        | true =>
          cases hstep
          exact stepLeaves_putCtx h hi hq (keeps_foldl keeps_processCloseFdInner _)
        | false =>
          cases hstep
          exact .of_accounts h
      | exit => exact stepLeaves_exitProc h hi hq hstep
      | spawn tty image =>
        cases hstep
        obtain ⟨O, G, hacc, hsafe⟩ := accounts_processCreateElf tty image (heldBy_le_slots hi hq) h
        refine ⟨O, G, ?_, hsafe⟩
        rw [append_nil] at hacc
        rw [slots_addProc, add_right_comm]
        exact hacc

end

theorem accounts_processInit : Accounts processInit.kernel processInit.slots [] := by
  have hslots : processInit.slots = 0 := by simp [processInit, State.slots, held]
  rw [hslots]
  constructor <;> simp [processInit]
  constructor <;> simp

/-- In every run whose spawns are all safe, the counters are the numbers of slots and what no slot
refers to is freed and closed; and a next call keeps this exactly when it is safe. -/
theorem refs_of_safe_run (h : descriptorSystem.Reachable DescriptorSafe s) :
    RefsOk s ∧ ∀ a s', step s a = some s' → (RefsOk s' ↔ DescriptorSafe s a) := by
  have hacc : Accounts s.kernel s.slots [] := by
    apply h.invariant (I := fun s => Accounts s.kernel s.slots [])
    · rintro s rfl
      exact accounts_processInit
    · intro s a s' hacc hsafe hstep
      obtain ⟨O, G, hacc', hiff⟩ := stepLeaves_step hacc hstep
      obtain ⟨rfl, rfl⟩ := hiff.2 hsafe
      simpa using hacc'
  constructor
  · have hzero : Accounts s.kernel (s.slots + 0) [] := by simpa using hacc
    exact (refsOk_iff hzero).2 ⟨rfl, rfl⟩
  · intro a s' hstep
    obtain ⟨O, G, hacc', hiff⟩ := stepLeaves_step hacc hstep
    rw [refsOk_iff hacc', hiff]

/-! ## Runs -/

/-- Everything that is asked for is there. -/
def amplySetup : Setup where
  struct := true
  pageTables := true
  tty := .opened
  console := fun _ => .opened

/-- The first process makes a pipe and forks; the child writes to the pipe from descriptor 1 and
replaces its image. -/
def pipelineRun : List (ℕ × Call) :=
  [(0, .spawn false (.starts amplySetup)), (1, .pipe true true), (1, .duplicate .succeeds),
    (2, .dup2 4 1), (2, .exec true), (1, .close 4)]

theorem refs_of_safe_run_pipeline : ∃ s, descriptorSystem.Reachable DescriptorSafe s ∧
    s.kernel.table.count ⟨.pipeWrite, 1⟩ = 1 ∧ RefsOk s := by
  obtain ⟨s, hrun, hcount⟩ : ∃ s, System.runWithin step DescriptorSafe processInit
      pipelineRun = some s ∧ s.kernel.table.count ⟨.pipeWrite, 1⟩ = 1 := by
    apply exists_of_any
    decide +kernel
  have hreach : descriptorSystem.Reachable DescriptorSafe s :=
    .of_runWithin (fun _ _ _ h => h) (.start rfl) hrun
  exact ⟨s, hreach, hcount, (refs_of_safe_run hreach).1⟩

/-- A forked process makes a pipe on its descriptors 0 and 1, spawns a path that does not exist and
ends. -/
def missingPathRun : List (ℕ × Call) :=
  [(0, .spawn false (.starts amplySetup)), (1, .duplicate .succeeds), (2, .close 0), (2, .close 1),
    (2, .pipe true true), (2, .spawn false (.refused amplySetup .missing)), (2, .exit)]

/-- No slot refers to the pipe, and it still has a reader and a writer. -/
theorem refs_not_slots : ∃ s, descriptorSystem.Reachable (fun _ _ => True) s ∧ ¬ RefsOk s ∧
    s.slots ⟨.pipeRead, 1⟩ = 0 ∧ s.slots ⟨.pipeWrite, 1⟩ = 0 ∧
    s.kernel.table.alive ⟨.pipe, 1⟩ = true ∧ s.kernel.table.count ⟨.pipeWrite, 1⟩ = 1 := by
  obtain ⟨s, hrun, hread, hwrite, halive, hcount⟩ : ∃ s,
      System.runWithin step (fun _ _ => True) processInit missingPathRun = some s ∧
      s.slots ⟨.pipeRead, 1⟩ = 0 ∧ s.slots ⟨.pipeWrite, 1⟩ = 0 ∧
      s.kernel.table.alive ⟨.pipe, 1⟩ = true ∧ s.kernel.table.count ⟨.pipeWrite, 1⟩ = 1 := by
    apply exists_of_any
    decide +kernel
  refine ⟨s, .of_runWithin (fun _ _ _ h => h) (.start rfl) hrun, ?_, hread, hwrite, halive, hcount⟩
  intro hok
  have hrefs := hok.refs ⟨.pipeWrite, 1⟩ halive
  rw [hcount, hwrite] at hrefs
  cases hrefs

end BoredOS.Sys.Descriptors
