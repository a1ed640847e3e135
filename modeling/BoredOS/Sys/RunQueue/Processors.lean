import BoredOS.Lib.Update
import BoredOS.Sys.RunQueue.Cycle

/-!
# The Processors

Who is current on the processors, and how the pieces of the calls change it. Only
`process_schedule`, `process_terminate_current_with_status` and the start of a processor do
(`step_current`); the first two go to the process that is next in line (`scheduleChoice`,
`terminateChoice`). Everything that links and processors lead to was allocated (`Bounded`).
-/

namespace BoredOS.Sys.RunQueue

open Function Lib.Update Nat Lib.Transition Option

/-! ## Who is current -/

variable {s s' s'' : State} {p q cpu : ℕ}

/-- The same processes, links and processors. -/
structure Kept (s s' : State) : Prop where
  count : s'.count = s.count
  next : s'.next = s.next
  current : s'.current = s.current
  idle : s'.idle = s.idle

namespace Kept

theorem refl (s : State) : Kept s s := ⟨rfl, rfl, rfl, rfl⟩

theorem trans (h : Kept s s') (h' : Kept s' s'') : Kept s s'' :=
  ⟨h'.count.trans h.count, h'.next.trans h.next, h'.current.trans h.current, h'.idle.trans h.idle⟩

theorem modify (f : Proc → Proc) : Kept s (s.modify p f) := ⟨rfl, rfl, rfl, rfl⟩

theorem of_view (h : s'.view = s.view) : Kept s s' := by
  have hview : Kept s.view s'.view := by
    rw [h]
    exact refl s.view
  exact ⟨hview.count, hview.next, hview.current, hview.idle⟩

end Kept

/-- Links and processors lead to processes that were allocated. -/
structure Bounded (s : State) : Prop where
  next : ∀ p q, s.next p = some q → q < s.count
  current : ∀ cpu q, s.current cpu = some q → q < s.count
  idle : ∀ cpu q, s.idle cpu = some q → q < s.count

variable {start found : ℕ} {ok : ℕ → Bool} {choice : ℕ × ℕ}

namespace Bounded

section

variable (h : Bounded s)

include h

theorem of_kept (hk : Kept s s') : Bounded s' := by
  obtain ⟨hcount, hnext, hcurrent, hidle⟩ := hk
  constructor
  · rw [hnext, hcount]
    exact h.next
  · rw [hcurrent, hcount]
    exact h.current
  · rw [hidle, hcount]
    exact h.idle

theorem allocate (pid : BitVec 32) (proc : Proc) :
    Bounded (allocate { s with nextPid := pid } proc) := by
  constructor
  · exact forall_update (fun p q hq => lt_succ_of_lt (h.next p q hq)) fun q hq => nomatch hq
  · exact fun cpu q hq => lt_succ_of_lt (h.current cpu q hq)
  · exact fun cpu q hq => lt_succ_of_lt (h.idle cpu q hq)

/-- New links, all of them to allocated processes. -/
theorem of_links {next : ℕ → Option ℕ}
    (hnext : ∀ p q, next p = some q → q < s.count) : Bounded { s with next } :=
  ⟨hnext, h.current, h.idle⟩

theorem linkAfter {head : ℕ} (hp : p < s.count) :
    ∀ q r, linkAfter s.next head p q = some r → r < s.count :=
  forall_update (forall_update h.next (h.next head)) fun _ heq => some.inj heq ▸ hp

theorem linkSection (hp : p < s.count) : Bounded (linkSection s p) := by
  refine of_kept (h.of_links ?_) (.modify _)
  cases queueHead s with
  | some => exact h.linkAfter hp
  | none => exact forall_update h.next fun _ heq => some.inj heq ▸ hp

theorem spawnSection : Bounded (spawnSection s cpu) := by
  unfold RunQueue.spawnSection
  split
  · exact h
  · rename_i parent _
    have hnew := h.allocate (s.nextPid + 1) (fresh s.nextPid (s.procs parent).pid
      (s.procs parent).pgid (s.procs parent).cpuAffinity)
    refine of_kept (hnew.of_links ?_) (.modify _)
    exact hnew.linkAfter (lt_succ_self s.count)

/-- A process that ends copies links and drops some. -/
theorem unlink : ∀ q r, runqueueUnlink s.next p q = some r → r < s.count := by
  unfold runqueueUnlink
  split
  · exact h.next
  · split
    · exact forall_update h.next fun _ heq => nomatch heq
    · dsimp only
      split
      · exact forall_update (forall_update h.next (h.next p)) fun _ heq => nomatch heq
      · exact forall_update h.next fun _ heq => nomatch heq

theorem endSection (status : Int) : Bounded (endSection s p status) :=
  of_kept (h.of_links h.unlink) (.modify _)

theorem setCurrent (cpu : ℕ) (hp : p < s.count) :
    Bounded { s with current := update s.current cpu (some p) } :=
  ⟨h.next, forall_update h.current fun _ heq => some.inj heq ▸ hp, h.idle⟩

theorem pick {first : ℕ} {fuel : ℕ}
    (hfirst : first < s.count) (hfound : pick s.next start ok fuel first = some (some found)) :
    found < s.count ∧ ok found = true := by
  induction fuel generalizing first with
  | zero => simp [RunQueue.pick] at hfound
  | succ fuel ih =>
    unfold RunQueue.pick at hfound
    split at hfound
    next hok =>
      obtain rfl := some.inj (some.inj hfound)
      exact ⟨hfirst, hok⟩
    · split at hfound
      · cases hfound
      · split at hfound
        · cases hfound
        · exact ih (h.next _ _ ‹_›) hfound

/-- What the loop finds was allocated and is what it looks for. -/
theorem pickFrom {first : Option ℕ} (hfirst : ∀ p, first = some p → p < s.count)
    (hfound : pickFrom s start ok first = some (some found)) :
    found < s.count ∧ ok found = true := by
  cases first with
  | none => cases hfound
  | some first => exact h.pick (hfirst first rfl) hfound

end

end Bounded

variable {now : ℕ} {status : Int}

/-! ### `process_schedule` -/

/-- It goes on with the current process, with the idle one or with one that may run. -/
theorem scheduleChoice_spec (hb : Bounded s) (h : scheduleChoice s cpu now = some choice) :
    s.current cpu = some choice.1 ∧ choice.2 < s.count ∧
      (choice.2 = choice.1 ∨ s.idle cpu = some choice.2 ∨
        matchesCpu (s.procs choice.2) cpu = true ∧ runnable (s.procs choice.2) now = true) := by
  unfold scheduleChoice at h
  split at h
  · cases h
  next cur hcur =>
    split at h
    · cases h
    · obtain ⟨found, hfound, rfl⟩ := map_eq_some_iff.1 h
      refine ⟨hcur, ?_⟩
      cases found with
      | some =>
        obtain ⟨hlt, hok⟩ := hb.pickFrom (hb.next cur) hfound
        exact ⟨hlt, .inr (.inr (by simpa using hok))⟩
      | none =>
        have hstay : cur < s.count := hb.current cpu cur hcur
        change fallback s cpu cur < s.count ∧ (fallback s cpu cur = cur ∨
          s.idle cpu = some (fallback s cpu cur) ∨ _)
        unfold fallback
        dsimp only
        split
        · cases hidle : s.idle cpu with
          | none => exact ⟨hstay, .inl rfl⟩
          | some p => exact ⟨hb.idle cpu p hidle, .inr (.inl rfl)⟩
        · exact ⟨hstay, .inl rfl⟩

theorem processSchedule_current (h : Bounded s) (hstep : processSchedule s cpu now = some s') :
    Bounded s' ∧ s'.count = s.count ∧
      s'.current = (scheduleChoice s cpu now).elim s.current fun choice =>
        if choice.1 = choice.2 then s.current
        else update s.current cpu (some choice.2) := by
  obtain ⟨hnone, rfl⟩ | ⟨cur, chosen, s₁, hchoice, hs₁, rfl⟩ := processSchedule_cases hstep
  · rw [hnone]
    exact ⟨h, rfl, rfl⟩
  have hkept : Kept s s₁ := by
    rcases hs₁ with rfl | rfl
    · exact .refl s₁
    · exact .modify _
  rw [hchoice, ← hkept.count, ← hkept.current]
  unfold switchTo
  dsimp only [Option.elim_some]
  split
  · exact ⟨h.of_kept hkept, rfl, rfl⟩
  · have hkept' := (hkept.trans (.modify (p := cur) fun proc =>
      { proc with runningCpu := none })).trans (.modify (p := chosen) fun proc =>
        { proc with runningCpu := some cpu })
    refine ⟨(h.of_kept hkept').setCurrent cpu ?_, rfl, rfl⟩
    rw [hkept'.count]
    exact (scheduleChoice_spec h hchoice).2.1

/-! ### `process_terminate_current_with_status` -/

/-- It goes to the idle process or to another one that may run. -/
theorem terminateChoice_spec (hb : Bounded s) (h : terminateChoice s cpu status = some choice) :
    s.current cpu = some choice.1 ∧ choice.2 < s.count ∧ (s.idle cpu = some choice.2 ∨
      matchesCpu (s.procs choice.2) cpu = true ∧ ready (s.procs choice.2) = true) := by
  unfold terminateChoice at h
  split at h
  · cases h
  next cur hcur =>
    obtain ⟨found, hfound, hnext⟩ := Option.bind_eq_some_iff.1 h
    obtain ⟨p, hp, rfl⟩ := map_eq_some_iff.1 hnext
    refine ⟨hcur, ?_⟩
    cases found with
    | none =>
      have hidle : s.idle cpu = some p := by simpa using hp
      exact ⟨hb.idle cpu p hidle, .inl hidle⟩
    | some q =>
      obtain rfl : q = p := by simpa using hp
      have hended : Bounded (stopped s cur status) := (hb.endSection status).of_kept (.modify _)
      obtain ⟨hlt, hok⟩ := hended.pickFrom (hb.next cur) hfound
      -- the process that ends is not ready any more
      have hne : q ≠ cur := by
        rintro rfl
        simp [State.modify, endSection, markEnded, ready] at hok
      exact ⟨hlt, .inr (by simpa [State.modify, endSection, hne] using hok)⟩

theorem processTerminateCurrent_current (h : Bounded s)
    (hstep : processTerminateCurrent s cpu status = some s') :
    Bounded s' ∧ s'.count = s.count ∧
      s'.current = (terminateChoice s cpu status).elim s.current fun choice =>
        update s.current cpu (some choice.2) := by
  obtain ⟨hnone, rfl⟩ | ⟨cur, -, -, hcase⟩ := processTerminateCurrent_cases hstep
  · exact ⟨h, rfl, by simp [terminateChoice, hnone]⟩
  have hended : Bounded (stopped s cur status) := (h.endSection status).of_kept (.modify _)
  obtain ⟨hnone, -, rfl⟩ | ⟨chosen, hchoice, rfl⟩ := hcase
  · rw [hnone]
    exact ⟨hended, rfl, rfl⟩
  · have hkept : Kept { stopped s cur status with current := update s.current cpu (some chosen) }
        (dropOrphan (notifySection (started (stopped s cur status) cpu chosen) cur) cur) :=
      (Kept.modify _).trans (Kept.of_view (view_dropOrphan.trans view_notifySection))
    rw [hchoice]
    exact ⟨(hended.setCurrent cpu (terminateChoice_spec h hchoice).2.1).of_kept hkept,
      hkept.count, hkept.current⟩

/-- The pieces that leave the processors as they are. -/
def Stays : Act → Prop
  | .schedule _ _ | .terminateCurrent _ _ | .apEntry _ _ => False
  | _ => True

theorem bounded_processInit (cpuCount : ℕ) : Bounded (processInit cpuCount) := by
  have hzero : ∀ i q : ℕ, (if i = 0 then some 0 else none) = some q → q < 1 := by
    intro i q hq
    split at hq
    · cases hq
      exact Nat.zero_lt_one
    · cases hq
  exact ⟨hzero, hzero, hzero⟩

/-- Every piece keeps the bounds and the processes, and most do not change who is current. -/
theorem step_current {a : Act} (h : Bounded s) (hstep : step s a = some s') :
    Bounded s' ∧ s.count ≤ s'.count ∧ (Stays a → s'.current = s.current) := by
  cases a with
  | create | createElf =>
    cases hstep
    exact ⟨h.allocate _ _, le_succ _, fun _ => rfl⟩
  | link =>
    obtain ⟨hb, rfl⟩ := ite_some_none_eq_some.1 hstep
    exact ⟨h.linkSection hb.1, le_refl _, fun _ => rfl⟩
  | duplicate cpu | createThread cpu =>
    cases hstep
    have hspawn : s.count ≤ (spawnSection s cpu).count ∧
        (spawnSection s cpu).current = s.current := by
      unfold spawnSection
      split
      · exact ⟨le_refl _, rfl⟩
      · exact ⟨le_succ _, rfl⟩
    exact ⟨h.spawnSection, hspawn.1, fun _ => hspawn.2⟩
  | apEntry cpu p =>
    obtain ⟨hc, rfl⟩ := ite_some_none_eq_some.1 hstep
    refine ⟨?_, le_refl _, fun hstay => hstay.elim⟩
    have hcur := h.setCurrent cpu hc.1
    exact ⟨hcur.next, hcur.current, forall_update h.idle fun _ heq => some.inj heq ▸ hc.1⟩
  | schedule =>
    obtain ⟨hb, hcount, -⟩ := processSchedule_current h hstep
    exact ⟨hb, hcount.ge, fun hstay => hstay.elim⟩
  | terminate p status =>
    obtain ⟨-, rfl⟩ := ite_some_none_eq_some.1 hstep
    exact ⟨h.endSection status, le_refl _, fun _ => rfl⟩
  | terminateCurrent =>
    obtain ⟨hb, hcount, -⟩ := processTerminateCurrent_current h hstep
    exact ⟨hb, hcount.ge, fun hstay => hstay.elim⟩
  | _ =>
    have hk := Kept.of_view (view_step (by trivial) hstep)
    exact ⟨h.of_kept hk, hk.count.ge, fun _ => hk.current⟩

end BoredOS.Sys.RunQueue
