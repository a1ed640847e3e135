import BoredOS.Mem.Vmm.Calls
import BoredOS.Sys.Futex.Model

/-!
# The Futex Queues

A bucket is found from bits of the key that lie inside the page, so it depends on the address alone
(`futexBucket_key`). In a run in which `FUTEX_WAIT` is left by `FUTEX_WAKE` only, the lists of the
buckets are the lists of the processes that wait (`Listed`), and `queues_of_safe_run` follows. A
piece that takes a process out of its wait in another way leaves its node on the list.
-/

namespace BoredOS.Sys.Futex

open Function List Lib.SList Lib.Transition Mem.Pmm Mem.Mmu RunQueue Futex Option
open Mem.Vmm (Machine VmmCall bootVm faultWrite inShared init_boot vmmRun vmmSystem)

section

/-! ## Blocked processes and the other calls -/

variable {a : Act} {prev : Option ℕ} {p : ℕ} {rq : State}

section

variable {s s' s'' : State} {p q : ℕ}

/-- The fields that tell in what a process is. -/
structure SameWait (p : ℕ) (s s' : State) : Prop where
  state : (s'.procs p).state = (s.procs p).state
  exited : (s'.procs p).exited = (s.procs p).exited
  waitsExit : (s'.procs p).waitsExit = (s.procs p).waitsExit

open SameWait

namespace SameWait

theorem refl (p : ℕ) (s : State) : SameWait p s s := ⟨rfl, rfl, rfl⟩

theorem of_procs (h : s'.procs p = s.procs p) : SameWait p s s' := by
  constructor <;> rw [h]

theorem trans (h : SameWait p s s') (h' : SameWait p s' s'') : SameWait p s s'' :=
  ⟨h'.state.trans h.state, h'.exited.trans h.exited, h'.waitsExit.trans h.waitsExit⟩

variable {f : Proc → Proc}

/-- Another process is changed, or other fields. -/
theorem changed (hprocs : s'.procs = (s.modify q f).procs)
    (hf : p = q → (f (s.procs q)).state = (s.procs q).state ∧
      (f (s.procs q)).exited = (s.procs q).exited ∧
      (f (s.procs q)).waitsExit = (s.procs q).waitsExit) : SameWait p s s' := by
  by_cases hpq : p = q
  · subst hpq
    obtain ⟨hstate, hexited, hwaits⟩ := hf rfl
    constructor <;> simpa [hprocs, State.modify]
  · exact of_procs (by simp [hprocs, State.modify, hpq])

theorem modify (hf : p = q → (f (s.procs q)).state = (s.procs q).state ∧
    (f (s.procs q)).exited = (s.procs q).exited ∧
    (f (s.procs q)).waitsExit = (s.procs q).waitsExit) : SameWait p s (s.modify q f) :=
  changed rfl hf

theorem allocate (hp : p < s.count) (pid : BitVec 32) (proc : Proc) :
    SameWait p s (allocate { s with nextPid := pid } proc) :=
  of_procs (by simp [RunQueue.allocate, ne_of_lt hp])

theorem spawnSection (hp : p < s.count) (cpu : ℕ) : SameWait p s (spawnSection s cpu) := by
  unfold RunQueue.spawnSection
  split
  · exact refl p s
  · exact of_procs (by simp [State.modify, RunQueue.allocate, ne_of_lt hp])

theorem pidTableRemove (pid : BitVec 32) : SameWait p s (pidTableRemove s pid) := of_procs rfl

/-- A process that is not in its own exit queue is not woken. -/
theorem wakeExit (hw : (s.procs p).waitsExit = false) (reaper : ℕ) :
    SameWait p s (s.modify reaper wakeExit) := by
  refine modify fun hpr => ?_
  subst hpr
  rw [RunQueue.wakeExit, if_neg (by simp [hw])]
  exact ⟨rfl, rfl, rfl⟩

theorem reparentAll (hw : (s.procs p).waitsExit = false) : SameWait p s (reparentAll s q) :=
  reparentAll_induction (fun _ _ _ h => h.trans (modify fun _ => ⟨rfl, rfl, rfl⟩))
    (fun _ q h => h.trans (wakeExit (h.waitsExit.trans hw) q))
    (fun _ _ h => h.trans (pidTableRemove _)) (refl p s)

theorem switchTo (cpu cur chosen : ℕ) : SameWait p s (switchTo s cpu cur chosen) := by
  unfold RunQueue.switchTo
  split
  · exact refl p s
  · have hcur : SameWait p s (s.modify cur fun proc => { proc with runningCpu := none }) :=
      modify fun _ => ⟨rfl, rfl, rfl⟩
    exact hcur.trans (changed (f := fun proc => { proc with runningCpu := some cpu }) rfl
      fun _ => ⟨rfl, rfl, rfl⟩)

end SameWait

/-- A process that was blocked is out of its wait if and only if it is disturbed. -/
abbrev LeftBy (disturbed : Prop) (p : ℕ) (s s' : State) : Prop :=
  ((s'.procs p).state = .blocked ↔ ¬ disturbed) ∧ (¬ disturbed → SameWait p s s')

variable {disturbed : Prop}

theorem SameWait.leftBy (h : SameWait p s s')
    (hblocked : (s.procs p).state = .blocked) (hnot : ¬ disturbed) : LeftBy disturbed p s s' :=
  ⟨iff_of_true (h.state.trans hblocked) hnot, fun _ => h⟩

theorem LeftBy.of_disturbed (hstate : (s'.procs p).state ≠ .blocked)
    (h : disturbed) : LeftBy disturbed p s s' :=
  ⟨iff_of_false hstate (not_not_intro h), fun hnot => absurd h hnot⟩

theorem notifyProc_not_blocked (proc : Proc) : (notifyProc proc).state ≠ .blocked := by
  unfold notifyProc
  dsimp only
  split
  · simp [wake]
  · assumption

/-- `notify` leaves nobody blocked that it tells. -/
theorem notifySection_blocked : ((notifySection s q).procs p).state = .blocked ↔
    (s.procs p).state = .blocked ∧ notified s q ≠ some p := by
  unfold notifySection
  cases hq : notified s q with
  | none => simp
  | some r =>
    by_cases hpr : p = r
    · subst hpr
      simp [State.modify, notifyProc_not_blocked]
    · simp [State.modify, hpr, Ne.symm hpr]

theorem notifySection_sameWait (hq : notified s q ≠ some p) : SameWait p s (notifySection s q) := by
  unfold notifySection
  cases hr : notified s q with
  | none => exact refl p s
  | some =>
    refine modify fun hpr => ?_
    subst hpr
    exact absurd hr hq

/-- Who is told does not depend on the links and the processors. -/
theorem notified_congr (hbuckets : s'.buckets = s.buckets) (hreaper : s'.reaperPid = s.reaperPid)
    (hprocs : ∀ r, (s'.procs r).pid = (s.procs r).pid ∧
      (s'.procs r).parentPid = (s.procs r).parentPid) : notified s' q = notified s q := by
  have hfind : ∀ pid, pidTableFind s' pid = pidTableFind s pid := by
    intro pid
    simp only [pidTableFind, hbuckets, (hprocs _).1]
  simp only [notified, hfind, (hprocs q).2, hreaper]

/-- What `process_schedule` does to a blocked process. -/
theorem processSchedule_blocked {cpu now : ℕ} (hblocked : (s.procs p).state = .blocked)
    (hstep : processSchedule s cpu now = some s') :
    LeftBy (scheduleFound s cpu now = some p) p s s' := by
  unfold processSchedule at hstep
  unfold scheduleFound
  cases hcur : s.current cpu with
  | none =>
    rw [hcur] at hstep
    cases hstep
    exact (refl p s).leftBy hblocked (by simp)
  | some cur =>
    simp only [hcur] at hstep ⊢
    split at hstep
    · rename_i hkill
      cases hstep
      rw [if_pos hkill]
      exact (refl p s).leftBy hblocked (by simp)
    · rename_i hkill
      rw [if_neg hkill]
      obtain ⟨found, hfound, rfl⟩ := map_eq_some_iff.1 hstep
      rw [hfound]
      cases found with
      | none => exact (SameWait.switchTo _ _ _).leftBy hblocked (by simp)
      | some q =>
        dsimp only
        by_cases hpq : p = q
        · subst hpq
          have hwake : ((s.modify p wake).procs p).state = .running := by
            simp [State.modify, wake]
          rw [if_pos hblocked]
          refine .of_disturbed ?_ rfl
          rw [(switchTo (p := p) cpu cur p).state, hwake]
          simp
        · have hsame : SameWait p s (RunQueue.switchTo
              (if (s.procs q).state = .blocked then s.modify q wake else s) cpu cur q) := by
            split
            · exact (modify fun h => absurd h hpq).trans (switchTo _ _ _)
            · exact switchTo _ _ _
          exact hsame.leftBy hblocked (by simpa using Ne.symm hpq)

/-- What `process_terminate_current_with_status` does to a blocked process. -/
theorem processTerminateCurrent_blocked {cpu : ℕ} {status : Int}
    (hblocked : (s.procs p).state = .blocked)
    (hstep : processTerminateCurrent s cpu status = some s') :
    LeftBy (Disturbs s (.terminateCurrent cpu status) p) p s s' := by
  unfold Disturbs
  obtain ⟨hcur, rfl⟩ | ⟨cur, hcur, -, hcase⟩ := processTerminateCurrent_cases hstep
  · exact (refl p s').leftBy hblocked (by simp [hcur])
  simp only [hcur, bind_some]
  -- the ended process is a zombie, the others are as before
  have hended : p = cur → ((stopped s cur status).procs p).state = .zombie := by
    rintro rfl
    simp [stopped, State.modify, endSection, markEnded]
  have hother : p ≠ cur → SameWait p s (stopped s cur status) := by
    intro hne
    exact of_procs (by simp [stopped, State.modify, endSection, hne])
  obtain ⟨hchoice, -, rfl⟩ | ⟨q, hchoice, rfl⟩ := hcase
  · rw [hchoice]
    simp only [Option.isSome_none, Bool.false_eq_true, false_and, or_false]
    by_cases hp : p = cur
    · exact .of_disturbed (by simp [hended hp]) (by rw [hp])
    · exact (hother hp).leftBy hblocked (by simpa using Ne.symm hp)
  · rw [hchoice]
    simp only [Option.isSome_some, true_and]
    generalize hs₂ : started (stopped s cur status) cpu q = s₂
    have hstart : SameWait p (stopped s cur status) s₂ := by
      rw [← hs₂]
      exact changed (f := fun proc => { proc with runningCpu := some cpu }) rfl
        fun _ => ⟨rfl, rfl, rfl⟩
    have htold : notified s₂ cur = notified s cur := by
      refine notified_congr ?_ ?_ fun r => ?_
      · rw [← hs₂]
        rfl
      · rw [← hs₂]
        rfl
      · rw [← hs₂]
        simp only [started, stopped, State.modify, endSection, markEnded, update_apply]
        split <;> split <;> simp_all
    have hdrop : SameWait p (notifySection s₂ cur)
        (dropOrphan (notifySection s₂ cur) cur) := by
      unfold dropOrphan
      split
      · exact pidTableRemove _
      · exact refl p _
    rw [LeftBy, hdrop.state, notifySection_blocked, htold, hstart.state]
    by_cases hp : p = cur
    · refine ⟨iff_of_false (by simp [hended hp]) (by simp [hp]), fun hne => ?_⟩
      exact absurd (.inl (by rw [hp])) hne
    · have hsame := hother hp
      refine ⟨?_, fun hne => ?_⟩
      · rw [hsame.state]
        simp [hblocked, Ne.symm hp]
      · refine ((hsame.trans hstart).trans (notifySection_sameWait ?_)).trans hdrop
        rw [htold]
        exact fun h => hne (.inr h)

/-- What a piece does to a blocked process that is not in its own exit queue. -/
theorem step_blocked (hp : p < s.count) (hblocked : (s.procs p).state = .blocked)
    (hw : (s.procs p).waitsExit = false) (hwait : ∀ cpu, a = .wait cpu → s.current cpu ≠ some p)
    (hset : ∀ t, a ≠ .setState p true t) (hstep : step s a = some s') :
    LeftBy (Disturbs s a p) p s s' := by
  have hquiet : SameWait p s s' → ¬ Disturbs s a p → LeftBy (Disturbs s a p) p s s' :=
    fun hsame => hsame.leftBy hblocked
  cases a with
  | create | createElf =>
    cases hstep
    exact hquiet (allocate hp _ _) id
  | link =>
    obtain ⟨-, rfl⟩ := ite_some_none_eq_some.1 hstep
    exact hquiet (changed (f := markCreated) rfl fun _ => ⟨rfl, rfl, rfl⟩) id
  | insert =>
    obtain ⟨-, rfl⟩ := ite_some_none_eq_some.1 hstep
    exact hquiet (changed (f := fun proc => { proc with tabled := true }) rfl
      fun _ => ⟨rfl, rfl, rfl⟩) id
  | duplicate cpu | createThread cpu =>
    cases hstep
    exact hquiet (spawnSection hp cpu) id
  | apEntry cpu q =>
    obtain ⟨-, rfl⟩ := ite_some_none_eq_some.1 hstep
    exact hquiet (changed (f := fun proc => { proc with cpuAffinity := some cpu }) rfl
      fun _ => ⟨rfl, rfl, rfl⟩) id
  | schedule => exact processSchedule_blocked hblocked hstep
  | condemn =>
    obtain ⟨-, rfl⟩ := ite_some_none_eq_some.1 hstep
    exact hquiet (modify fun _ => ⟨rfl, rfl, rfl⟩) id
  | reparent =>
    obtain ⟨-, rfl⟩ := ite_some_none_eq_some.1 hstep
    exact hquiet (reparentAll hw) id
  | terminate q status =>
    obtain ⟨-, rfl⟩ := ite_some_none_eq_some.1 hstep
    by_cases hpq : p = q
    · refine .of_disturbed ?_ hpq
      simp [processTerminateSection, endSection, State.modify, hpq, markEnded]
    · refine hquiet (of_procs ?_) hpq
      simp [processTerminateSection, endSection, State.modify, hpq]
  | notify =>
    obtain ⟨-, rfl⟩ := ite_some_none_eq_some.1 hstep
    rw [LeftBy, notifySection_blocked]
    exact ⟨and_iff_right hblocked, notifySection_sameWait⟩
  | terminateCurrent => exact processTerminateCurrent_blocked hblocked hstep
  | wait cpu =>
    cases hstep
    refine hquiet ?_ id
    unfold waitSection
    split
    · exact refl p s
    · rename_i caller hcaller
      refine modify fun heq => ?_
      subst heq
      exact absurd hcaller (hwait cpu rfl)
  | waited =>
    cases hstep
    refine hquiet (modify fun heq => ?_) id
    subst heq
    exact ⟨rfl, rfl, hw.symm⟩
  | reap =>
    obtain ⟨-, rfl⟩ := ite_some_none_eq_some.1 hstep
    exact hquiet (pidTableRemove _) id
  | setState q blocked sleepUntil =>
    cases hstep
    by_cases hpq : p = q
    · subst hpq
      cases blocked with
      | true => exact absurd rfl (hset sleepUntil)
      | false =>
        refine .of_disturbed ?_ rfl
        simp [setState, State.modify]
    · have hnot : ¬ Disturbs s (.setState q blocked sleepUntil) p := by
        cases blocked with
        | true => exact id
        | false => exact hpq
      refine hquiet (of_procs ?_) hnot
      simp [setState, State.modify, hpq]
  | setReaper =>
    cases hstep
    exact hquiet (of_procs rfl) id

end

/-! ## The bucket of an address -/

/-- The bucket that an address has under every key. -/
def bucketOf (uaddr : ℕ) : ℕ := uaddr / 4 % futexBuckets

theorem bucketOf_lt (uaddr : ℕ) : bucketOf uaddr < futexBuckets := Nat.mod_lt _ (by decide)

/-- The bits of the key that choose the bucket lie inside the page, where the address, its
translation and the key without a translation agree. -/
theorem futexBucket_key (m : FutexState) (p uaddr : ℕ) :
    futexBucket (futexKey m p uaddr) = bucketOf uaddr := by
  have hpage : futexKey m p uaddr % pageSize = uaddr % pageSize := by
    unfold futexKey
    dsimp only
    split
    · rename_i hphys
      obtain ⟨x, hx⟩ := lastEntry_of_translated hphys
      exact mmuVirtToPhys_mod hx
    · have hpml4 : pml4Phys m p % 2 ^ 12 = 0 := Nat.mul_mod_left _ _
      change (uaddr ^^^ pml4Phys m p) % 2 ^ 12 = uaddr % 2 ^ 12
      rw [Nat.xor_mod_two_pow, hpml4, Nat.xor_zero]
  unfold futexBucket bucketOf futexBuckets
  unfold pageSize at hpage
  omega

/-! ## The loop of a wake -/

variable {m m' m'' : FutexState} {b phys space uaddr : ℕ} {count : ℤ}

/-- The processes of `out` were taken off the list of a bucket, which was `all` and is `left`. -/
structure Woken (b : ℕ) (out left all : List ℕ) (m m' : FutexState) : Prop where
  list : Slist m'.next (m'.head b) left
  heads : ∀ b' ≠ b, m'.head b' = m.head b'
  links : ∀ q, q ∉ all → m'.next q = m.next q
  nodes : ∀ q, q ∉ out → (m'.node q).uaddr = (m.node q).uaddr ∧
    (m'.node q).pml4Phys = (m.node q).pml4Phys ∧ (m'.node q).physAddr = (m.node q).physAddr
  procs : ∀ q, m'.rq.procs q =
    if q ∈ out then { m.rq.procs q with state := .running } else m.rq.procs q
  waits : ∀ q, m'.waits q = if q ∈ out then none else m.waits q

theorem Woken.refl {all : List ℕ} (h : Slist m.next (m.head b) all) : Woken b [] all all m m where
  list := h
  heads _ _ := rfl
  links _ _ := rfl
  nodes _ _ := ⟨rfl, rfl, rfl⟩
  procs q := by simp
  waits q := by simp

/-- One process is taken off, then others. -/
theorem Woken.cons {p : ℕ} {out mid left all : List ℕ} (h : Woken b [p] mid all m m')
    (h' : Woken b out left mid m' m'') (hmid : ∀ q, q ∉ all → q ∉ mid) :
    Woken b (p :: out) left all m m'' where
  list := h'.list
  heads b' hb := (h'.heads b' hb).trans (h.heads b' hb)
  links q hq := (h'.links q (hmid q hq)).trans (h.links q hq)
  nodes q hq := by
    simp only [mem_cons, not_or] at hq
    obtain ⟨h₁, h₂, h₃⟩ := h'.nodes q hq.2
    obtain ⟨g₁, g₂, g₃⟩ := h.nodes q (by simpa using hq.1)
    exact ⟨h₁.trans g₁, h₂.trans g₂, h₃.trans g₃⟩
  procs q := by
    rw [h'.procs q, h.procs q]
    by_cases hq : q = p <;> by_cases hout : q ∈ out <;> simp [hq, hout]
  waits q := by
    rw [h'.waits q, h.waits q]
    by_cases hq : q = p <;> by_cases hout : q ∈ out <;> simp [hq, hout]

@[simp] theorem setLink_rq (prev link : Option ℕ) : (setLink m b prev link).rq = m.rq := by
  cases prev <;> rfl

@[simp] theorem setLink_pml4 (prev link : Option ℕ) : (setLink m b prev link).pml4 = m.pml4 := by
  cases prev <;> rfl

@[simp] theorem setLink_waits (prev link : Option ℕ) : (setLink m b prev link).waits = m.waits := by
  cases prev <;> rfl

/-- A link is not what a node is matched by. -/
theorem setLink_node (prev link : Option ℕ) (q : ℕ) :
    ((setLink m b prev link).node q).uaddr = (m.node q).uaddr ∧
      ((setLink m b prev link).node q).pml4Phys = (m.node q).pml4Phys ∧
      ((setLink m b prev link).node q).physAddr = (m.node q).physAddr := by
  cases prev with
  | none => exact ⟨rfl, rfl, rfl⟩
  | some k =>
    by_cases hq : q = k
    · subst hq
      simp [setLink]
    · simp [setLink, hq]

/-- The store that the loop makes takes a node off the list. -/
theorem slist_setLink {ks rest : List ℕ}
    (hlist : Slist m.next (m.head b) (ks ++ p :: rest)) (hnd : (ks ++ p :: rest).Nodup) :
    Slist (setLink m b ks.getLast? (m.node p).next).next
      ((setLink m b ks.getLast? (m.node p).next).head b) (ks ++ rest) := by
  cases hprev : ks.getLast? with
  | none =>
    obtain rfl : ks = [] := getLast?_eq_none_iff.1 hprev
    have hrest : Slist m.next (m.node p).next rest := hlist.2
    change Slist m.next (update m.head b (m.node p).next b) rest
    rw [update_self]
    exact hrest
  | some k =>
    refine (hlist.unlink hnd hprev).congr fun x _ => ?_
    by_cases hx : x = k
    · subst hx
      simp [FutexState.next, setLink]
    · simp [FutexState.next, setLink, hx]

theorem release_next {q : ℕ} (hq : q ≠ p) : (release m p).next q = m.next q := by
  simp [FutexState.next, release, hq]

/-- The loop takes a matching node off the list and goes on with the next one. -/
theorem woken_release {ks rest : List ℕ}
    (hlist : Slist m.next (m.head b) (ks ++ p :: rest)) (hnd : (ks ++ p :: rest).Nodup) :
    Woken b [p] (ks ++ rest) (ks ++ p :: rest) m
        (release (setLink m b ks.getLast? (m.node p).next) p) ∧
      getLink (release (setLink m b ks.getLast? (m.node p).next) p) b ks.getLast? = rest.head? := by
  have hp : p ∉ ks ++ rest := (nodup_middle.1 hnd).notMem
  have hshort := slist_setLink hlist hnd
  generalize hlink : (m.node p).next = link at hshort ⊢
  have hnext : link = rest.head? := hlink.symm.trans hlist.next_eq
  constructor
  · constructor
    · refine hshort.congr fun x hx => release_next ?_
      rintro rfl
      exact hp hx
    · intro b' hb
      cases ks.getLast? with
      | none => exact update_of_ne hb ..
      | some => rfl
    · intro q hq
      have hne : q ≠ p := by
        rintro rfl
        exact hq (by simp)
      rw [release_next hne]
      cases hlast : ks.getLast? with
      | none => rfl
      | some k =>
        have hqk : q ≠ k := by
          rintro rfl
          exact hq (mem_append_left _ (mem_of_getLast? hlast))
        simp [FutexState.next, setLink, hqk]
    · intro q hq
      have hne : q ≠ p := by simpa using hq
      simpa [release, hne] using setLink_node ks.getLast? link q
    · intro q
      by_cases hq : q = p
      · subst hq
        simp [release, State.modify]
      · simp [release, State.modify, hq]
    · intro q
      by_cases hq : q = p
      · subst hq
        simp [release]
      · simp [release, hq]
  · cases hprev : ks.getLast? with
    | none => simp [getLink, release, setLink, hnext]
    | some k =>
      have hkp : k ≠ p := by
        rintro rfl
        exact hp (mem_append_left _ (mem_of_getLast? hprev))
      simp [getLink, release, setLink, hkp, hnext]

theorem wakeLoop_some {fuel woken : ℕ} :
    wakeLoop b phys space uaddr count (fuel + 1) m prev (some p) woken = if (woken : ℤ) < count then
        if futexMatch phys space uaddr (m.node p) = true then
          wakeLoop b phys space uaddr count fuel (release (setLink m b prev (m.node p).next) p) prev
            (getLink (release (setLink m b prev (m.node p).next) p) b prev) (woken + 1)
        else wakeLoop b phys space uaddr count fuel m (some p) (m.node p).next woken
      else some (m, woken) := rfl

/-- The loop takes the first matching nodes off the list, as many as it is asked for. -/
theorem wakeLoop_spec (b phys space uaddr : ℕ) (count : ℤ) {ks rest : List ℕ} {fuel woken : ℕ}
    (hlist : Slist m.next (m.head b) (ks ++ rest)) (hnd : (ks ++ rest).Nodup)
    (hfuel : rest.length < fuel) {ok : ℕ → Bool}
    (hok : ∀ p ∈ rest, futexMatch phys space uaddr (m.node p) = ok p) :
    ∃ m', wakeLoop b phys space uaddr count fuel m ks.getLast? rest.head? woken =
        some (m', woken + (taken ok (count - woken).toNat rest).length) ∧
      Woken b (taken ok (count - woken).toNat rest)
        (ks ++ takeOut ok (count - woken).toNat rest) (ks ++ rest) m m' := by
  obtain ⟨fuel, rfl⟩ : ∃ n, fuel = n + 1 := ⟨fuel - 1, by omega⟩
  induction rest generalizing m ks fuel woken with
  | nil =>
    have hout : takeOut ok (count - woken).toNat [] = [] := by
      cases (count - woken).toNat <;> rfl
    rw [taken_nil, hout]
    exact ⟨m, rfl, Woken.refl hlist⟩
  | cons p rest ih =>
    by_cases hcount : (woken : ℤ) < count
    · obtain ⟨n, hn⟩ : ∃ n, (count - woken).toNat = n + 1 :=
        ⟨(count - woken).toNat - 1, by omega⟩
      have hrest : ∀ q ∈ rest, futexMatch phys space uaddr (m.node q) = ok q :=
        fun q hq => hok q (by simp [hq])
      have hnd' : (ks ++ rest).Nodup := (nodup_middle.1 hnd).of_cons
      obtain ⟨fuel, rfl⟩ : ∃ n, fuel = n + 1 := ⟨fuel - 1, by simp at hfuel; omega⟩
      rw [head?_cons, wakeLoop_some, if_pos hcount, hok p (by simp), hn]
      cases hp : ok p with
      | true =>
        obtain ⟨hone, hcur⟩ := woken_release hlist hnd
        have hn' : (count - (woken + 1 : ℕ)).toNat = n := by omega
        -- what the nodes that are left are matched by has not changed
        have hok' : ∀ q ∈ rest, futexMatch phys space uaddr
            ((release (setLink m b ks.getLast? (m.node p).next) p).node q) = ok q := by
          intro q hq
          have hne : q ≠ p := by
            rintro rfl
            exact (nodup_middle.1 hnd).notMem (mem_append_right _ hq)
          obtain ⟨h₁, h₂, h₃⟩ := hone.nodes q (by simpa using hne)
          rw [← hrest q hq]
          simp only [futexMatch, h₁, h₂, h₃]
        obtain ⟨m', hrun, hwoken⟩ := @ih _ ks (woken + 1) hone.list hnd' hok' fuel
          (by simp at hfuel; omega)
        rw [hn'] at hrun hwoken
        rw [if_pos rfl, hcur, hrun, taken_cons_pos hp]
        refine ⟨m', ?_, ?_⟩
        · simp only [length_cons]
          congr 2
          omega
        · have hleft : takeOut ok (n + 1) (p :: rest) = takeOut ok n rest := by
            simp [takeOut, hp]
          rw [hleft]
          refine hone.cons hwoken fun q hq hmem => hq ?_
          exact (mem_append.1 hmem).elim (mem_append_left _)
            fun h => mem_append_right _ (mem_cons_of_mem p h)
      | false =>
        have hnext : (m.node p).next = rest.head? := hlist.next_eq
        have hassoc : ks ++ p :: rest = (ks ++ [p]) ++ rest := by simp
        rw [hassoc] at hlist hnd
        obtain ⟨m', hrun, hwoken⟩ := @ih m (ks ++ [p]) woken hlist hnd hrest fuel
          (by simp at hfuel; omega)
        rw [hn, getLast?_concat] at hrun
        rw [hn] at hwoken
        rw [if_neg (by simp), hnext, hrun, taken_cons_neg hp]
        have hleft : takeOut ok (n + 1) (p :: rest) = p :: takeOut ok (n + 1) rest := by
          simp [takeOut, hp]
        rw [hleft]
        refine ⟨m', rfl, ?_⟩
        simpa using hwoken
    · have hzero : (count - woken).toNat = 0 := by omega
      rw [hzero]
      refine ⟨m, ?_, Woken.refl hlist⟩
      rw [head?_cons, wakeLoop_some, if_neg hcount, taken_zero]
      rfl

/-! ## What is known of the processes that wait -/

/-- A process that waits is blocked, and its node tells where. -/
structure Waiting (m : FutexState) (p uaddr : ℕ) : Prop where
  lt : p < m.rq.count
  exited : (m.rq.procs p).exited = false
  state : (m.rq.procs p).state = .blocked
  waitsExit : (m.rq.procs p).waitsExit = false
  node : (m.node p).uaddr = uaddr
  space : (m.node p).pml4Phys = pml4Phys m p

theorem Waiting.of_same (h : Waiting m p uaddr) (hcount : m.rq.count ≤ m'.rq.count)
    (hsame : SameWait p m.rq m'.rq) (hnode : (m'.node p).uaddr = (m.node p).uaddr ∧
      (m'.node p).pml4Phys = (m.node p).pml4Phys) (hpml4 : m'.pml4 p = m.pml4 p) :
    Waiting m' p uaddr where
  lt := lt_of_lt_of_le h.lt hcount
  exited := hsame.exited.trans h.exited
  state := hsame.state.trans h.state
  waitsExit := hsame.waitsExit.trans h.waitsExit
  node := hnode.1.trans h.node
  space := by
    rw [hnode.2, h.space]
    simp only [pml4Phys, hpml4]

/-- This is so in every run, also if the lists are not in order. -/
structure Recorded (m : FutexState) : Prop where
  bounded : Bounded m.rq
  waiting : ∀ p u, m.waits p = some u → Waiting m p u

namespace Recorded

theorem init (cpuCount : ℕ) (mm : Mm) (pml4 : ℕ) : Recorded (futexInit cpuCount mm pml4) where
  bounded := bounded_processInit cpuCount
  waiting p u hu := by simp [futexInit] at hu

section

variable (h : Recorded m)

include h

/-- A process that can make a call does not wait. -/
theorem not_waits (hp : CanCall m p) : m.waits p = none := by
  by_contra hne
  obtain ⟨u, hu⟩ := Option.ne_none_iff_exists'.1 hne
  have hblocked := (h.waiting p u hu).state
  rw [hp.1] at hblocked
  cases hblocked

theorem enqueue (hlt : p < m.rq.count) (hp : CanCall m p) (uaddr : ℕ) :
    Recorded (enqueue m p uaddr) := by
  refine ⟨h.bounded.of_kept ⟨rfl, rfl, rfl, rfl⟩, fun q u hu => ?_⟩
  by_cases hq : q = p
  · subst hq
    obtain rfl : uaddr = u := by simpa [enqueue] using hu
    constructor
    · exact hlt
    · simpa [enqueue, State.modify] using hp.2.1
    · simp [enqueue, State.modify]
    · simpa [enqueue, State.modify] using hp.2.2
    · simp [enqueue]
    · simp [enqueue, pml4Phys]
  · refine (h.waiting q u (by simpa [Futex.enqueue, hq] using hu)).of_same (le_refl _)
      (SameWait.of_procs ?_) ?_ rfl
    · simp [Futex.enqueue, State.modify, hq]
    · simp [Futex.enqueue, hq]

/-- The timeout is stored, whether the process then waits or not. -/
theorem store (p t : ℕ) :
    Recorded { m with rq := m.rq.modify p fun proc => { proc with sleepUntil := t } } := by
  refine ⟨h.bounded.of_kept ⟨rfl, rfl, rfl, rfl⟩, fun q u hu => ?_⟩
  have hsame : SameWait q m.rq (m.rq.modify p fun proc => { proc with sleepUntil := t }) :=
    SameWait.modify fun _ => ⟨rfl, rfl, rfl⟩
  exact (h.waiting q u hu).of_same (le_refl _) hsame ⟨rfl, rfl⟩ rfl

theorem setLink (b : ℕ) (prev link : Option ℕ) : Recorded (setLink m b prev link) := by
  refine ⟨by simpa using h.bounded, fun q u hu => ?_⟩
  rw [setLink_waits] at hu
  obtain ⟨huaddr, hspace, -⟩ := setLink_node prev link q
  apply (h.waiting q u hu).of_same
  · simp
  · exact SameWait.of_procs (by simp)
  · exact ⟨huaddr, hspace⟩
  · simp

theorem release (p : ℕ) : Recorded (release m p) := by
  refine ⟨h.bounded.of_kept ⟨rfl, rfl, rfl, rfl⟩, fun q u hu => ?_⟩
  have hq : q ≠ p := by
    rintro rfl
    simp [Futex.release] at hu
  refine (h.waiting q u (by simpa [Futex.release, hq] using hu)).of_same (le_refl _)
    (SameWait.of_procs ?_) ?_ rfl
  · simp [Futex.release, State.modify, hq]
  · simp [Futex.release, hq]

/-- The loop keeps it on any links. -/
theorem wakeLoop {phys space fuel woken woken' : ℕ} {count : ℤ} {cur : Option ℕ}
    (hrun : wakeLoop b phys space uaddr count fuel m prev cur woken = some (m', woken')) :
    Recorded m' := by
  induction fuel generalizing m prev cur woken with
  | zero => cases hrun
  | succ fuel ih =>
    cases cur with
    | none =>
      cases hrun
      exact h
    | some p =>
      rw [wakeLoop_some] at hrun
      split at hrun
      · split at hrun
        · exact ih ((h.setLink _ _ _).release p) hrun
        · exact ih h hrun
      · cases hrun
        exact h

/-- What a piece of another call does to the processes that wait. -/
theorem step_blocked (hposs : Possible m a)
    (hstep : step m.rq a = some rq) {u : ℕ} (hp : m.waits p = some u) :
    LeftBy (Disturbs m.rq a p) p m.rq rq := by
  obtain ⟨hlt, -, hstate, hwexit, -, -⟩ := h.waiting p u hp
  refine Futex.step_blocked hlt hstate hwexit ?_ ?_ hstep
  · rintro cpu rfl hcur
    exact hposs p hcur hstate
  · rintro t rfl
    exact hposs hstate

end

/-- A piece of another call makes processes, but the PML4s of those there are stay. -/
theorem newPml4_of_lt (hp : p < m.rq.count) (a : Act) (pml4 : ℕ) :
    newPml4 m a pml4 p = m.pml4 p := by
  have hne : p ≠ m.rq.count := ne_of_lt hp
  unfold newPml4
  split
  · exact update_of_ne hne _ _
  · exact update_of_ne hne _ _
  · exact update_of_ne hne _ _
  · rename_i cpu
    cases m.rq.current cpu with
    | none => rfl
    | some => exact update_of_ne hne _ _
  · rfl

section

variable (h : Recorded m)

include h

theorem run (pml4 : ℕ) (hposs : Possible m a) (hstep : step m.rq a = some rq) :
    Recorded { m with rq, pml4 := newPml4 m a pml4, waits := stillWaits rq m.waits } := by
  obtain ⟨hb, hcount, -⟩ := step_current h.bounded hstep
  refine ⟨hb, fun p u hu => ?_⟩
  obtain ⟨hblocked, hp⟩ : (rq.procs p).state = .blocked ∧ m.waits p = some u := by
    simpa [stillWaits] using hu
  have hwaiting := h.waiting p u hp
  -- a process that is still blocked was not disturbed
  obtain ⟨hiff, hsame⟩ := h.step_blocked hposs hstep hp
  exact hwaiting.of_same hcount (hsame (hiff.1 hblocked)) ⟨rfl, rfl⟩
    (newPml4_of_lt hwaiting.lt a pml4)

theorem exec (hp : CanCall m p) (pml4 : ℕ) : Recorded { m with pml4 := update m.pml4 p pml4 } := by
  refine ⟨h.bounded, fun q u hu => ?_⟩
  have hq : q ≠ p := by
    rintro rfl
    rw [h.not_waits hp] at hu
    cases hu
  exact (h.waiting q u hu).of_same (le_refl _) (.refl q m.rq) ⟨rfl, rfl⟩ (update_of_ne hq _ _)

theorem memory (mm : Mm) : Recorded { m with mm } :=
  ⟨h.bounded, fun p u hu =>
    (h.waiting p u hu).of_same (le_refl _) (.refl p m.rq) ⟨rfl, rfl⟩ rfl⟩

theorem sysFutexWait (hlt : p < m.rq.count) (hp : CanCall m p)
    (uaddr : ℕ) (equal : Bool) (now : ℕ) (timeout : Option (ℤ × ℤ)) :
    Recorded (sysFutexWait m p uaddr equal now timeout) := by
  cases timeout with
  | none =>
    cases equal with
    | true => exact h.enqueue hlt hp uaddr
    | false => exact h
  | some =>
    cases equal with
    | true => exact (h.store _ _).enqueue hlt (by simpa [CanCall, State.modify] using hp) uaddr
    | false => exact h.store _ _

theorem futexStep {e : FutexAct} (hstep : futexStep m e = some m') : Recorded m' := by
  obtain ⟨a, pml4, rq, rfl, hposs, hrq, rfl⟩ | ⟨mm, rfl, rfl⟩ | ⟨cpu, p, hcur, hp, hcall⟩ :=
    futexStep_cases hstep
  · exact h.run pml4 hposs hrq
  · exact h.memory mm
  · obtain ⟨pml4, rfl, rfl⟩ | ⟨uaddr, equal, now, timeout, rfl, rfl⟩ |
      ⟨uaddr, count, woken, rfl, hrun⟩ := hcall
    · exact h.exec hp pml4
    · exact h.sysFutexWait (h.bounded.current cpu p hcur) hp uaddr equal now timeout
    · exact h.wakeLoop hrun

end

end Recorded

/-! ## The lists are those of the waiting processes -/

/-- The list of a bucket has the processes that wait on an address of the bucket. -/
structure Intact (m : FutexState) (b : ℕ) (l : List ℕ) : Prop where
  list : Slist m.next (m.head b) l
  nodup : l.Nodup
  mem : ∀ p, p ∈ l ↔ ∃ u, m.waits p = some u ∧ bucketOf u = b

/-- All buckets are intact. -/
structure Listed (m : FutexState) (lists : ℕ → List ℕ) : Prop where
  recorded : Recorded m
  intact : ∀ b < futexBuckets, Intact m b (lists b)

variable {lists : ℕ → List ℕ}

section

variable (h : Listed m lists)

include h

theorem Listed.queuesOk : QueuesOk m := by
  refine ⟨lists, fun b hb => ⟨(h.intact b hb).list, (h.intact b hb).nodup⟩, ?_, ?_⟩
  · intro b hb b' hb' hne p hp hp'
    obtain ⟨u, hu, rfl⟩ := ((h.intact b hb).mem p).1 hp
    obtain ⟨u', hu', rfl⟩ := ((h.intact b' hb').mem p).1 hp'
    obtain rfl := some.inj (hu.symm.trans hu')
    exact hne rfl
  · intro b hb p hp
    obtain ⟨u, hu, -⟩ := ((h.intact b hb).mem p).1 hp
    obtain ⟨hlt, hexited, hstate, -, hnode, -⟩ := h.recorded.waiting p u hu
    exact ⟨hlt, hexited, hstate, by rw [hnode, hu]⟩

/-- As long as nobody takes out the node of a process, queues in order mean that it is blocked. -/
theorem Listed.blocked_of_queuesOk
    (hp : m.waits p = some uaddr) (hok : QueuesOk m') (hnext : m'.next = m.next)
    (hhead : m'.head = m.head) : (m'.rq.procs p).state = .blocked := by
  obtain ⟨lists', hlist', -, hnodes'⟩ := hok
  have hb := bucketOf_lt uaddr
  have hsame : lists' (bucketOf uaddr) = lists (bucketOf uaddr) := by
    have hnew := (hlist' _ hb).1
    rw [hnext, hhead] at hnew
    exact hnew.unique (h.intact _ hb).list
  have hmem : p ∈ lists' (bucketOf uaddr) := by
    rw [hsame]
    exact ((h.intact _ hb).mem p).2 ⟨uaddr, hp, rfl⟩
  exact (hnodes' _ hb p hmem).2.2.1

/-- The lists only depend on the links and on who waits. -/
theorem Listed.of_same (hrec : Recorded m') (hnext : m'.next = m.next)
    (hhead : m'.head = m.head) (hwaits : m'.waits = m.waits) : Listed m' lists where
  recorded := hrec
  intact b hb := by
    obtain ⟨hlist, hnd, hmem⟩ := h.intact b hb
    refine ⟨?_, hnd, ?_⟩
    · rwa [hnext, hhead]
    · rwa [hwaits]

/-! ### Waiting -/

/-- A waiter is put in front of the list of its bucket. -/
theorem Listed.enqueue (hlt : p < m.rq.count) (hp : CanCall m p)
    (uaddr : ℕ) : Listed (enqueue m p uaddr)
      (update lists (bucketOf uaddr) (p :: lists (bucketOf uaddr))) := by
  have hnone := h.recorded.not_waits hp
  have hnot : ∀ b < futexBuckets, p ∉ lists b := by
    intro b hb hmem
    obtain ⟨u, hu, -⟩ := ((h.intact b hb).mem p).1 hmem
    rw [hnone] at hu
    cases hu
  have hkey := futexBucket_key m p uaddr
  -- the links are those of before, with the old head behind the new node
  have hnext : (Futex.enqueue m p uaddr).next = update m.next p (m.head (bucketOf uaddr)) := by
    funext q
    by_cases hq : q = p
    · subst hq
      simp [FutexState.next, Futex.enqueue, hkey]
    · simp [FutexState.next, Futex.enqueue, hq]
  have hwaits : ∀ q, (Futex.enqueue m p uaddr).waits q =
      if q = p then some uaddr else m.waits q := by
    intro q
    simp [Futex.enqueue, update_apply]
  refine ⟨h.recorded.enqueue hlt hp uaddr, fun b hb => ?_⟩
  obtain ⟨hlist, hnd, hmem⟩ := h.intact b hb
  by_cases hbu : b = bucketOf uaddr
  · subst hbu
    have hhead : (Futex.enqueue m p uaddr).head (bucketOf uaddr) = some p := by
      simp [Futex.enqueue, hkey]
    rw [update_self]
    refine ⟨?_, nodup_cons.2 ⟨hnot _ hb, hnd⟩, fun q => ?_⟩
    · rw [hnext, hhead]
      exact hlist.push (hnot _ hb)
    · rw [hwaits q]
      by_cases hq : q = p
      · simp [hq]
      · simp [hq, hmem q]
  · have hhead : (Futex.enqueue m p uaddr).head b = m.head b := by
      simp [Futex.enqueue, hkey, hbu]
    rw [update_of_ne hbu]
    refine ⟨?_, hnd, fun q => ?_⟩
    · rw [hnext, hhead]
      refine hlist.congr fun q hq => update_of_ne ?_ _ _
      rintro rfl
      exact hnot b hb hq
    · rw [hwaits q]
      by_cases hq : q = p
      · subst hq
        simp [Ne.symm hbu, hnot b hb]
      · simp [hq, hmem q]

/-- A call of `sys_futex_wait` enqueues its process or leaves the lists alone. -/
theorem Listed.sysFutexWait (hlt : p < m.rq.count)
    (hp : CanCall m p) (uaddr : ℕ) (equal : Bool) (now : ℕ) (timeout : Option (ℤ × ℤ)) :
    ∃ lists', Listed (sysFutexWait m p uaddr equal now timeout) lists' := by
  have hstore : ∀ t : ℕ, Listed { m with
      rq := m.rq.modify p fun proc => { proc with sleepUntil := t } } lists := fun t =>
    h.of_same (h.recorded.store p t) rfl rfl rfl
  cases timeout with
  | none =>
    cases equal with
    | true => exact ⟨_, h.enqueue hlt hp uaddr⟩
    | false => exact ⟨lists, h⟩
  | some =>
    cases equal with
    | true =>
      exact ⟨_, (hstore _).enqueue hlt (by simpa [CanCall, State.modify] using hp) uaddr⟩
    | false => exact ⟨lists, hstore _⟩

end

/-! ### Waking -/

/-- The nodes that a wake by `p` matches. -/
def wakeMatch (m : FutexState) (p uaddr q : ℕ) : Bool :=
  futexMatch (futexGetPhys m p uaddr) (pml4Phys m p) uaddr (m.node q)

/-- A list has at most one node for each process. -/
theorem Intact.length_le {l : List ℕ} (h : Intact m b l) (hrec : Recorded m) :
    l.length ≤ m.rq.count := by
  have hsub : l ⊆ List.range m.rq.count := by
    intro p hp
    obtain ⟨u, hu, -⟩ := (h.mem p).1 hp
    exact mem_range.2 (hrec.waiting p u hu).lt
  simpa using (subperm_of_subset h.nodup hsub).length_le

/-- A wake ends; it takes the first nodes that match off the list, as many as it is asked for. -/
theorem Intact.kernelFutexWake {l : List ℕ} (h : Intact m (bucketOf uaddr) l)
    (hrec : Recorded m) (p : ℕ) (count : ℤ) :
    ∃ m', kernelFutexWake m p uaddr count =
        some (m', (taken (wakeMatch m p uaddr) count.toNat l).length) ∧
      Woken (bucketOf uaddr) (taken (wakeMatch m p uaddr) count.toNat l)
        (takeOut (wakeMatch m p uaddr) count.toNat l) l m m' := by
  obtain ⟨m', hrun, hwoken⟩ := @wakeLoop_spec m (bucketOf uaddr) (futexGetPhys m p uaddr)
    (pml4Phys m p) uaddr count [] _ _ 0 h.list h.nodup (Nat.lt_succ_of_le (h.length_le hrec))
    (wakeMatch m p uaddr) fun _ _ => rfl
  rw [← h.list.head_eq] at hrun
  refine ⟨m', ?_, by simpa using hwoken⟩
  unfold Futex.kernelFutexWake
  rw [futexBucket_key]
  simpa using hrun

/-- After a wake the lists are those of the processes that still wait. -/
theorem Listed.of_woken (h : Listed m lists) {n : ℕ} {ok : ℕ → Bool} (hb : b < futexBuckets)
    (hrec : Recorded m')
    (hw : Woken b (taken ok n (lists b)) (takeOut ok n (lists b)) (lists b) m m') :
    Listed m' (update lists b (takeOut ok n (lists b))) := by
  obtain ⟨-, hnd, hmem⟩ := h.intact b hb
  have hout : ∀ p ∈ taken ok n (lists b), p ∈ lists b := fun p hp => (mem_of_mem_taken hp).1
  refine ⟨hrec, fun b' hb' => ?_⟩
  by_cases hbb : b' = b
  · subst hbb
    rw [update_self]
    refine ⟨hw.list, nodup_takeOut hnd, fun p => ?_⟩
    rw [hw.waits p, mem_takeOut hnd, hmem p]
    by_cases hp : p ∈ taken ok n (lists b')
    · simp [hp]
    · simp [hp]
  · rw [update_of_ne hbb]
    obtain ⟨hlist', hnd', hmem'⟩ := h.intact b' hb'
    -- a process of another list is not on this one
    have hnot : ∀ p ∈ lists b', p ∉ lists b := by
      intro p hp' hp
      obtain ⟨u, hu, hub⟩ := (hmem p).1 hp
      obtain ⟨u', hu', hub'⟩ := (hmem' p).1 hp'
      obtain rfl := some.inj (hu.symm.trans hu')
      exact hbb (hub'.symm.trans hub)
    refine ⟨?_, hnd', fun p => ?_⟩
    · rw [hw.heads b' hbb]
      exact hlist'.congr fun p hp => hw.links p (hnot p hp)
    · rw [hw.waits p]
      by_cases hp : p ∈ taken ok n (lists b)
      · have hp' : p ∉ lists b' := fun hp' => hnot p hp' (hout p hp)
        simp [hp, hp']
      · simp [hp, hmem' p]

/-! ## Every run -/

/-- A piece that leaves the waiting processes alone does not change who waits. -/
theorem Recorded.stillWaits (h : Recorded m) {pml4 : ℕ}
    (hposs : Possible m a) (hstep : step m.rq a = some rq) (hsafe : FutexSafe m (.run a pml4)) :
    stillWaits rq m.waits = m.waits := by
  funext p
  unfold Futex.stillWaits
  cases hp : m.waits p with
  | none => simp
  | some u =>
    have hnot : ¬ Disturbs m.rq a p := hsafe p (h.waiting p u hp).lt (by simp [hp])
    rw [if_pos ((h.step_blocked hposs hstep hp).1.2 hnot)]

/-- One step from lists that are in order: they stay in order if the step leaves the waiting
processes alone, and otherwise a node is left on a list. -/
theorem Listed.futexStep (h : Listed m lists) {e : FutexAct} (hstep : futexStep m e = some m') :
    (FutexSafe m e → ∃ lists', Listed m' lists') ∧ (QueuesOk m' → FutexSafe m e) := by
  have hrec := h.recorded.futexStep hstep
  obtain ⟨a, pml4, rq, rfl, hposs, hrq, rfl⟩ | ⟨mm, rfl, rfl⟩ | ⟨cpu, p, hcur, hp, hcall⟩ :=
    futexStep_cases hstep
  · constructor
    · intro hsafe
      exact ⟨lists, h.of_same hrec rfl rfl (h.recorded.stillWaits hposs hrq hsafe)⟩
    · -- a process that is disturbed is not blocked any more, and its node is not taken out
      intro hok p _ hp hdist
      obtain ⟨u, hu⟩ := Option.ne_none_iff_exists'.1 hp
      exact (h.recorded.step_blocked hposs hrq hu).1.1 (h.blocked_of_queuesOk hu hok rfl rfl) hdist
  · exact ⟨fun _ => ⟨lists, h.of_same hrec rfl rfl rfl⟩, fun _ => trivial⟩
  · obtain ⟨pml4, rfl, rfl⟩ | ⟨uaddr, equal, now, timeout, rfl, rfl⟩ |
      ⟨uaddr, count, woken, rfl, hrun⟩ := hcall
    · exact ⟨fun _ => ⟨lists, h.of_same hrec rfl rfl rfl⟩, fun _ => trivial⟩
    · refine ⟨fun _ => ?_, fun _ => trivial⟩
      exact h.sysFutexWait (h.recorded.bounded.current cpu p hcur) hp uaddr equal now timeout
    · refine ⟨fun _ => ?_, fun _ => trivial⟩
      have hb := bucketOf_lt uaddr
      obtain ⟨m₁, hrun₁, hwoken⟩ := (h.intact _ hb).kernelFutexWake h.recorded p count
      rw [hrun] at hrun₁
      obtain ⟨rfl, -⟩ := Prod.mk.inj (some.inj hrun₁)
      exact ⟨_, h.of_woken hb hrec hwoken⟩

/-- In every run that leaves the waiting processes alone the lists are those of the processes that
wait. -/
theorem listed_of_reachable (h : futexSystem.Reachable FutexSafe m) : ∃ lists, Listed m lists := by
  refine System.Reachable.invariant (I := fun s => ∃ lists, Listed s lists) ?_ ?_ h
  · rintro _ ⟨cpuCount, mm, pml4, rfl⟩
    exact ⟨fun _ => [], Recorded.init cpuCount mm pml4,
      fun _ _ => ⟨rfl, nodup_nil, fun p => by simp [futexInit]⟩⟩
  · rintro s e s' ⟨lists, hs⟩ hsafe hstep
    exact (hs.futexStep hstep).1 hsafe

/-- In every run in which only `FUTEX_WAKE` takes a process out of `FUTEX_WAIT` the queues are in
order, and the first step that does it in another way leaves a node on a list where it does not
belong. -/
theorem queues_of_safe_run (h : futexSystem.Reachable FutexSafe m) :
    QueuesOk m ∧ ∀ e m', futexStep m e = some m' → (QueuesOk m' ↔ FutexSafe m e) := by
  obtain ⟨lists, hlists⟩ := listed_of_reachable h
  refine ⟨hlists.queuesOk, fun e m' hstep => ⟨(hlists.futexStep hstep).2, fun hsafe => ?_⟩⟩
  obtain ⟨lists', hlists'⟩ := (hlists.futexStep hstep).1 hsafe
  exact hlists'.queuesOk

/-! ## Concrete runs -/

/-- A program has touched the page of the word. -/
def touchCalls : List VmmCall :=
  [.create 0 true, .map 1048577 true 0x400000 0x1000 (mmuProtRead ||| mmuProtWrite) 0 none 0,
    .fault 0 1048577 0x400000 faultWrite none]

/-- The program runs, with a second thread. -/
def startThreads : List FutexAct :=
  [.run (.createElf 0 false) 1048577, .run (.link 1) 0, .run (.insert 1) 0,
    .run (.schedule 0 0) 0, .run (.createThread 0) 0, .run (.insert 2) 0]

/-- What can be evaluated for a run of the futexes over the memory of a run of the VMM. -/
theorem exists_futexRun {calls : List VmmCall} {run : FutexState → Option FutexState}
    {P : Machine → FutexState → Prop} [∀ s m, Decidable (P s m)]
    (h : (bootVm.bind fun vm => (vmmRun 0 ⟨vm, fun _ => none⟩ calls).bind fun s =>
      (run (futexInit 1 s.vm.mm 0)).map fun m => (s, m)).any (fun r => decide (P r.1 r.2)) = true) :
    ∃ s₀ s m, (vmmSystem 0).init s₀ ∧ vmmRun 0 s₀ calls = some s ∧
      run (futexInit 1 s.vm.mm 0) = some m ∧ P s m := by
  obtain ⟨vm, hboot, hinit⟩ := init_boot
  rw [hboot, bind_some] at h
  obtain ⟨⟨s, m⟩, hrun, hP⟩ := @exists_of_any _ _ (fun r : Machine × FutexState => P r.1 r.2) _ h
  obtain ⟨s', hs, hmap⟩ := Option.bind_eq_some_iff.1 hrun
  obtain ⟨m', hrun', heq⟩ := map_eq_some_iff.1 hmap
  obtain ⟨rfl, rfl⟩ := Prod.mk.inj heq
  exact ⟨_, s', m', hinit, hs, hrun', hP⟩

/-- A thread waits, the other one wakes it, and the thread waits again. -/
def wokenEvents : List FutexAct :=
  startThreads ++ [.wait 0 0x400010 true 0 none, .run (.schedule 0 0) 0, .wake 0 0x400010 1,
    .run (.schedule 0 0) 0, .run (.schedule 0 0) 0, .wait 0 0x400010 true 0 none]

/-- The timeout of a wait expires, and the thread waits again on the word. -/
def expiredEvents : List FutexAct :=
  startThreads ++ [.wait 0 0x400010 true 0 (some (0, 5000000)), .run (.schedule 0 0) 0,
    .run (.schedule 0 10) 0, .run (.schedule 0 10) 0, .wait 0 0x400010 true 10 none]

/-- The queues are in order after a wake and a second wait. -/
theorem queues_of_safe_run_woken :
    ∃ s₀ s m, (vmmSystem 0).init s₀ ∧ vmmRun 0 s₀ touchCalls = some s ∧
      System.runWithin futexStep FutexSafe (futexInit 1 s.vm.mm 0) wokenEvents = some m ∧
      (m.rq.procs 1).state = .blocked ∧ QueuesOk m := by
  obtain ⟨s₀, s, m, hinit, hs, hrun, hstate⟩ := @exists_futexRun touchCalls
    (fun m => System.runWithin futexStep FutexSafe m wokenEvents)
    (fun _ m => (m.rq.procs 1).state = .blocked) _ (by decide +kernel)
  have hreach : futexSystem.Reachable FutexSafe m :=
    System.Reachable.of_runWithin (fun _ _ _ h => h) (.start ⟨1, s.vm.mm, 0, rfl⟩) hrun
  exact ⟨s₀, s, m, hinit, hs, hrun, hstate, (queues_of_safe_run hreach).1⟩

/-- A node that is its own successor is on no list that ends. -/
theorem not_queuesOk_of_loop (hb : b < futexBuckets) (hhead : m.head b = some p)
    (hnext : m.next p = some p) : ¬ QueuesOk m := by
  rintro ⟨lists, hlists, -⟩
  have hlist := (hlists b hb).1
  rw [hhead] at hlist
  cases hl : lists b with
  | nil => simp [hl, Slist] at hlist
  | cons q rest =>
    rw [hl] at hlist
    obtain ⟨hq, hrest⟩ := hlist
    cases hq
    rw [hnext] at hrest
    -- the list goes on with the same node, so it is its own tail
    have hsame : rest = p :: rest := hrest.unique ⟨rfl, by rwa [hnext]⟩
    simpa using congrArg List.length hsame

/-- The node that the first wait left on its list becomes its own successor. -/
theorem second_wait_loops : ∃ s₀ s m, (vmmSystem 0).init s₀ ∧ vmmRun 0 s₀ touchCalls = some s ∧
      expiredEvents.foldlM futexStep (futexInit 1 s.vm.mm 0) = some m ∧ m.next 1 = some 1 ∧
      ¬ QueuesOk m := by
  obtain ⟨s₀, s, m, hinit, hs, hrun, hhead, hnext⟩ := @exists_futexRun touchCalls
    (fun m => expiredEvents.foldlM futexStep m)
    (fun _ m => m.head 4 = some 1 ∧ m.next 1 = some 1) _ (by decide +kernel)
  exact ⟨s₀, s, m, hinit, hs, hrun, hnext, not_queuesOk_of_loop (by decide) hhead hnext⟩

end

/-!
## What a Wake Reaches

A wake of `kernel_futex_wake` is meant for the threads of the caller's address space that wait on
the address. It finds them after every change of the page tables, because a node also has the space
and the address. But it also matches every node with the physical address of the word, and private
pages of several spaces have one physical address as long as they are the zero page or shared after
a fork. And it does not clear `sleep_until`, so a thread that waits with a timeout is not scheduled
before its deadline.
-/

/-! ## What a wake is meant for -/

/-- A thread of the space of `p` that is blocked in `FUTEX_WAIT` on the address. -/
def Own (m : FutexState) (p uaddr q : ℕ) : Prop :=
  m.waits q = some uaddr ∧ m.pml4 q = m.pml4 p
  deriving Decidable

def procsWith (m : FutexState) (P : ℕ → Prop) [DecidablePred P] : List ℕ :=
  (List.range m.rq.count).filter fun q => decide (P q)

/-- The processes that wait on the word: in private memory those of the space, in shared memory
also those that wait on the same physical address. -/
def waitersOn (isPrivate : Bool) (m : FutexState) (p uaddr : ℕ) : List ℕ :=
  if isPrivate = true then procsWith m (Own m p uaddr)
  else procsWith m fun q => m.waits q ≠ none ∧ wakeMatch m p uaddr q = true

def wokenBy (m m' : FutexState) : List ℕ :=
  procsWith m fun q => (m.rq.procs q).state = .blocked ∧ (m'.rq.procs q).state = .running

/-- The deadline of a process does not keep it from being scheduled. -/
def Due (m : FutexState) (now q : ℕ) : Prop :=
  (m.rq.procs q).sleepUntil = 0 ∨ (m.rq.procs q).sleepUntil ≤ now
  deriving Decidable

/-- A wake of at most `n` threads by `p` at the time `now`. -/
structure WakeOk (isPrivate : Bool) (now : ℕ) (m m' : FutexState) (p uaddr n : ℕ) : Prop where
  reached : (waitersOn isPrivate m p uaddr).length ≤ n → ∀ q, Own m p uaddr q →
    (m'.rq.procs q).state = .running ∧ Due m' now q
  number : isPrivate = true → (wokenBy m m').length = min n (procsWith m (Own m p uaddr)).length
  own : isPrivate = true → ∀ q ∈ wokenBy m m', Own m p uaddr q

/-- A thread that waits elsewhere, with the physical address of the word. -/
def Foreign (m : FutexState) (p uaddr q : ℕ) : Prop :=
  ¬ Own m p uaddr q ∧ futexGetPhys m p uaddr ≠ 0 ∧ (m.node q).physAddr = futexGetPhys m p uaddr

/-- In private memory, the threads that wait elsewhere are behind `n` others on the list. If all
threads are to be reached, none of them has to sleep on. -/
structure WakeSafe (isPrivate : Bool) (now : ℕ) (m : FutexState) (p uaddr n : ℕ) (l : List ℕ) :
    Prop where
  behind : isPrivate = true → ∀ front q rest, l = front ++ q :: rest → Foreign m p uaddr q →
    n ≤ (front.filter (wakeMatch m p uaddr)).length
  due : (waitersOn isPrivate m p uaddr).length ≤ n → ∀ q, Own m p uaddr q → Due m now q

/-! ## One wake -/

variable {m m' : FutexState} {p q uaddr : ℕ} {l : List ℕ}

/-- A node of a process that waits matches if the process is one of the space on the address, or has
the physical address. -/
theorem wakeMatch_iff (hrec : Recorded m) {u : ℕ} (hq : m.waits q = some u) :
    wakeMatch m p uaddr q = true ↔ Own m p uaddr q ∨ Foreign m p uaddr q := by
  obtain ⟨-, -, -, -, hnode, hspace⟩ := hrec.waiting q u hq
  have hpos : 0 < pageSize := by decide
  have hown : Own m p uaddr q ↔ (m.node q).pml4Phys = pml4Phys m p ∧ (m.node q).uaddr = uaddr := by
    rw [hspace, hnode, Own, hq, pml4Phys, pml4Phys, Nat.mul_left_inj (ne_of_gt hpos)]
    simp [and_comm]
  rw [Foreign, hown]
  simp only [wakeMatch, futexMatch, Bool.or_eq_true, Bool.and_eq_true, bne_iff_ne, beq_iff_eq]
  constructor
  · rintro (⟨⟨hphys, -⟩, heq⟩ | hspace)
    · by_cases hsame : (m.node q).pml4Phys = pml4Phys m p ∧ (m.node q).uaddr = uaddr
      · exact .inl hsame
      · exact .inr ⟨hsame, hphys, heq⟩
    · exact .inl hspace
  · rintro (hspace | ⟨-, hphys, heq⟩)
    · exact .inr hspace
    · exact .inl ⟨⟨hphys, by rwa [heq]⟩, heq⟩

variable {P : ℕ → Prop} {b : ℕ} {ok : ℕ → Bool}

theorem mem_procsWith [DecidablePred P] : q ∈ procsWith m P ↔ q < m.rq.count ∧ P q := by
  simp [procsWith]

/-- Processes with a property are counted on any list that has just them. -/
theorem length_procsWith [DecidablePred P] (hnd : l.Nodup)
    (hl : ∀ q, q ∈ l ↔ q < m.rq.count ∧ P q) : (procsWith m P).length = l.length := by
  have hperm : (procsWith m P).Perm l := by
    refine (perm_ext_iff_of_nodup (nodup_range.filter _) hnd).2 fun q => ?_
    exact mem_procsWith.trans (hl q).symm
  exact hperm.length_eq

theorem Intact.mem_of_own (hl : Intact m (bucketOf uaddr) l) (hq : Own m p uaddr q) : q ∈ l :=
  (hl.mem q).2 ⟨uaddr, hq.1, rfl⟩

variable {left all : List ℕ} {n : ℕ}

theorem Woken.due_iff {out : List ℕ} (hw : Woken b out left all m m') (now : ℕ) :
    Due m' now q ↔ Due m now q := by
  unfold Due
  rw [hw.procs q]
  split <;> rfl

section

variable (hrec : Recorded m) (hl : Intact m (bucketOf uaddr) l)

include hrec hl

theorem length_own :
    (procsWith m (Own m p uaddr)).length = (l.filter fun q => decide (Own m p uaddr q)).length := by
  refine length_procsWith (hl.nodup.filter _) fun q => ?_
  rw [mem_filter, decide_eq_true_iff]
  constructor
  · rintro ⟨-, hown⟩
    exact ⟨(hrec.waiting q uaddr hown.1).lt, hown⟩
  · rintro ⟨-, hown⟩
    exact ⟨hl.mem_of_own hown, hown⟩

theorem wakeMatch_of_own (hq : q ∈ l) (hown : decide (Own m p uaddr q) = true) :
    wakeMatch m p uaddr q = true := by
  obtain ⟨u, hu, -⟩ := (hl.mem q).1 hq
  exact (wakeMatch_iff hrec hu).2 (.inl (of_decide_eq_true hown))

/-- The processes that run are those whose nodes were taken out. -/
theorem mem_wokenBy
    (hw : Woken b (taken ok n l) left all m m') : q ∈ wokenBy m m' ↔ q ∈ taken ok n l := by
  rw [wokenBy, mem_procsWith, hw.procs q]
  constructor
  · rintro ⟨-, hblocked, hrunning⟩
    by_contra hnot
    rw [if_neg hnot, hblocked] at hrunning
    cases hrunning
  · intro hq
    obtain ⟨u, hu, -⟩ := (hl.mem q).1 (mem_of_mem_taken hq).1
    obtain ⟨hlt, -, hblocked, -⟩ := hrec.waiting q u hu
    rw [if_pos hq]
    exact ⟨hlt, hblocked, rfl⟩

/-- In private memory the condition says that only threads of the space are taken out. -/
theorem behind_iff : (∀ q ∈ taken (wakeMatch m p uaddr) n l, Own m p uaddr q) ↔
      ∀ front q rest, l = front ++ q :: rest → Foreign m p uaddr q →
        n ≤ (front.filter (wakeMatch m p uaddr)).length := by
  rw [forall_taken_iff]
  refine forall_congr' fun front => forall_congr' fun q => forall_congr' fun rest =>
    forall_congr' fun heq => ?_
  obtain ⟨u, hu, -⟩ := (hl.mem q).1 (by simp [heq])
  rw [wakeMatch_iff hrec hu]
  constructor
  · intro h hforeign
    exact h (.inr hforeign) hforeign.1
  · rintro h (hown | hforeign) hnot
    · exact absurd hown hnot
    · exact h hforeign

/-- If all that wait on the word are to be woken, every thread of the space is. -/
theorem mem_taken_of_own {isPrivate : Bool}
    (hbehind : isPrivate = true → ∀ q ∈ taken (wakeMatch m p uaddr) n l, Own m p uaddr q)
    (hle : (waitersOn isPrivate m p uaddr).length ≤ n) (hq : Own m p uaddr q) :
    q ∈ taken (wakeMatch m p uaddr) n l := by
  have hql := hl.mem_of_own hq
  cases isPrivate with
  | true =>
    rw [waitersOn, if_pos rfl, length_own hrec hl] at hle
    refine (mem_taken_iff (fun q => wakeMatch_of_own hrec hl) (fun q hq => ?_)
      hle).2 ⟨hql, decide_eq_true hq⟩
    exact decide_eq_true (hbehind rfl q hq)
  | false =>
    -- every node of the list that matches is of a process that waits on the word
    have hsub : l.filter (wakeMatch m p uaddr) ⊆ waitersOn false m p uaddr := by
      intro q hq
      obtain ⟨hql, hok⟩ := mem_filter.1 hq
      obtain ⟨u, hu, -⟩ := (hl.mem q).1 hql
      rw [waitersOn, if_neg (by simp), mem_procsWith]
      exact ⟨(hrec.waiting q u hu).lt, by simp [hu], hok⟩
    have hlen := (subperm_of_subset (hl.nodup.filter _) hsub).length_le
    refine (mem_taken_iff (fun _ _ h => h) (fun q hq => (mem_of_mem_taken hq).2)
      (le_trans hlen hle)).2 ⟨hql, wakeMatch_of_own hrec hl hql (decide_eq_true hq)⟩

end

/-- In every state of every run in which the list of the bucket is that of the processes that wait,
a wake returns the number of the processes that it wakes. It wakes those that it is meant for, and
they can be scheduled, exactly if no thread that waits elsewhere is in its way and no deadline is
left. -/
theorem wake_reaches_iff (h : futexSystem.Reachable (fun _ _ => True) m)
    (hl : Intact m (bucketOf uaddr) l) (isPrivate : Bool) (now : ℕ) (count : ℤ) :
    ∃ m', kernelFutexWake m p uaddr count = some (m', (wokenBy m m').length) ∧
      (WakeOk isPrivate now m m' p uaddr count.toNat ↔
        WakeSafe isPrivate now m p uaddr count.toNat l) := by
  have hrec : Recorded m := by
    refine System.Reachable.invariant ?_ (fun _ _ _ hs _ hstep => hs.futexStep hstep) h
    rintro _ ⟨cpuCount, mm, pml4, rfl⟩
    exact .init cpuCount mm pml4
  obtain ⟨m', hrun, hw⟩ := hl.kernelFutexWake hrec p count
  have hmem : ∀ {q}, q ∈ wokenBy m m' ↔ q ∈ taken (wakeMatch m p uaddr) count.toNat l :=
    mem_wokenBy hrec hl hw
  have hlen : (wokenBy m m').length = _ :=
    length_procsWith (nodup_taken hl.nodup) fun q => hmem.symm.trans mem_procsWith
  refine ⟨m', by rw [hrun, hlen], fun hok => ⟨fun hpriv => ?_, fun hle q hq => ?_⟩, fun hsafe => ?_⟩
  · rw [← behind_iff hrec hl]
    exact fun q hq => hok.own hpriv q (hmem.2 hq)
  · exact (hw.due_iff now).1 (hok.reached hle q hq).2
  · have hbehind : isPrivate = true → ∀ q ∈ taken (wakeMatch m p uaddr) count.toNat l,
        Own m p uaddr q := fun hpriv => (behind_iff hrec hl).2 (hsafe.behind hpriv)
    constructor
    · intro hle q hq
      have htaken := mem_taken_of_own hrec hl hbehind hle hq
      refine ⟨?_, (hw.due_iff now).2 (hsafe.due hle q hq)⟩
      rw [hw.procs q, if_pos htaken]
    · intro hpriv
      rw [hlen, length_own hrec hl]
      exact length_taken (fun q => wakeMatch_of_own hrec hl) fun q hq =>
        decide_eq_true (hbehind hpriv q hq)
    · exact fun hpriv q hq => hbehind hpriv q (hmem.1 hq)

/-! ## Concrete runs -/

/-- A thread waits and the other thread of the program runs. -/
def waitEvents (timeout : Option (ℤ × ℤ)) : List FutexAct :=
  startThreads ++ [.wait 0 0x400010 true 0 timeout, .run (.schedule 0 0) 0]

/-- The thread is woken. -/
theorem wake_reaches_iff_threads :
    ∃ s₀ s m m', (vmmSystem 0).init s₀ ∧ vmmRun 0 s₀ touchCalls = some s ∧
      System.runWithin futexStep FutexSafe (futexInit 1 s.vm.mm 0) (waitEvents none) = some m ∧
      Own m 2 0x400010 1 ∧ (∃ woken, kernelFutexWake m 2 0x400010 1 = some (m', woken)) ∧
      WakeOk true 0 m m' 2 0x400010 1 := by
  obtain ⟨s₀, s, m, hinit, hs, hrun, hown, hall⟩ := @exists_futexRun touchCalls
    (fun m => System.runWithin futexStep FutexSafe m (waitEvents none))
    (fun _ m => Own m 2 0x400010 1 ∧ ∀ q < m.rq.count, m.waits q ≠ none →
      Own m 2 0x400010 q ∧ Due m 0 q) _ (by decide +kernel)
  have hreach : futexSystem.Reachable FutexSafe m :=
    System.Reachable.of_runWithin (fun _ _ _ h => h) (.start ⟨1, s.vm.mm, 0, rfl⟩) hrun
  obtain ⟨lists, hlists⟩ := listed_of_reachable hreach
  have hintact := hlists.intact _ (bucketOf_lt 0x400010)
  have hwaits : ∀ {q u}, m.waits q = some u → Own m 2 0x400010 q ∧ Due m 0 q := fun hq =>
    hall _ (hlists.recorded.waiting _ _ hq).lt (by simp [hq])
  obtain ⟨m', hwake, hiff⟩ := wake_reaches_iff (p := 2) (hreach.mono fun _ _ _ => trivial) hintact
    true 0 1
  refine ⟨s₀, s, m, m', hinit, hs, hrun, hown, ⟨_, hwake⟩, hiff.2 ⟨?_, ?_⟩⟩
  · intro _ front q rest heq hforeign
    obtain ⟨u, hu, -⟩ := (hintact.mem q).1 (by simp [heq])
    exact absurd (hwaits hu).1 hforeign.1
  · exact fun _ q hq => (hwaits hq.1).2

/-- Two programs read a page of their private memory; both have the zero page there. -/
def zeroPageCalls : List VmmCall :=
  [.create 0 true, .map 1048577 true 0x400000 0x1000 (mmuProtRead ||| mmuProtWrite) 0 none 0,
    .fault 0 1048577 0x400000 0 none,
    .create 0 true, .map 1048581 true 0x400000 0x1000 (mmuProtRead ||| mmuProtWrite) 0 none 0,
    .fault 0 1048581 0x400000 0 none]

/-- A thread of the first program waits, then the second program waits, and then the other thread of
the first program runs. -/
def aliasEvents : List FutexAct :=
  startThreads ++ [.run (.createElf 0 false) 1048581, .run (.link 3) 0, .run (.insert 3) 0,
      .wait 0 0x400010 true 0 none, .run (.schedule 0 0) 0, .run (.schedule 0 0) 0,
      .run (.schedule 0 0) 0, .wait 0 0x400010 true 0 none, .run (.schedule 0 0) 0]

/-- A wake of one thread by the first program wakes the second program instead of its own thread. A
thread that is woken after one second of a timeout of ten is not scheduled. -/
theorem wake_misses : (∃ s₀ s m m', (vmmSystem 0).init s₀ ∧ vmmRun 0 s₀ zeroPageCalls = some s ∧
      (∃ sp, s.spaces 1048577 = some sp ∧ inShared sp.vmas 0x400000 = false) ∧
      aliasEvents.foldlM futexStep (futexInit 1 s.vm.mm 0) = some m ∧ m.rq.current 0 = some 2 ∧
      Own m 2 0x400010 1 ∧ kernelFutexWake m 2 0x400010 1 = some (m', 1) ∧
      (m'.rq.procs 1).state = .blocked ∧ ¬ WakeOk true 0 m m' 2 0x400010 1) ∧
    ∃ s₀ s m m', (vmmSystem 0).init s₀ ∧ vmmRun 0 s₀ touchCalls = some s ∧
      (waitEvents (some (10, 0))).foldlM futexStep (futexInit 1 s.vm.mm 0) = some m ∧
      m.rq.current 0 = some 2 ∧ kernelFutexWake m 2 0x400010 1 = some (m', 1) ∧
      ¬ WakeOk true 1000 m m' 2 0x400010 1 := by
  constructor
  · obtain ⟨s₀, s, m, hinit, hs, hrun, hprivate, hcur, hown, hother, hwake⟩ :=
      @exists_futexRun zeroPageCalls (fun m => aliasEvents.foldlM futexStep m)
        (fun s m => (s.spaces 1048577).any (fun sp => inShared sp.vmas 0x400000 == false) = true ∧
          m.rq.current 0 = some 2 ∧ Own m 2 0x400010 1 ∧ ¬ Own m 2 0x400010 3 ∧
          (kernelFutexWake m 2 0x400010 1).any (fun r => r.2 == 1 && decide
            (3 ∈ wokenBy m r.1 ∧ (r.1.rq.procs 1).state = .blocked)) = true) _ (by decide +kernel)
    obtain ⟨sp, hsp, hshared⟩ := (any_eq_true _ _).1 hprivate
    obtain ⟨⟨m', woken⟩, hwake, heval⟩ := (any_eq_true _ _).1 hwake
    obtain ⟨hone, hwoken, hblocked⟩ : woken = 1 ∧ 3 ∈ wokenBy m m' ∧
      (m'.rq.procs 1).state = .blocked := by simpa using heval
    subst hone
    refine ⟨s₀, s, m, m', hinit, hs, ⟨sp, hsp, by simpa using hshared⟩, hrun, hcur, hown, hwake,
      hblocked, fun hok => hother (hok.own rfl 3 hwoken)⟩
  · obtain ⟨s₀, s, m, hinit, hs, hrun, hcur, hown, hfew, hwake⟩ :=
      @exists_futexRun touchCalls (fun m => (waitEvents (some (10, 0))).foldlM futexStep m)
        (fun _ m => m.rq.current 0 = some 2 ∧ Own m 2 0x400010 1 ∧
          (waitersOn true m 2 0x400010).length ≤ 1 ∧
          (kernelFutexWake m 2 0x400010 1).any (fun r => r.2 == 1 && decide
            (¬ Due r.1 1000 1)) = true) _ (by decide +kernel)
    obtain ⟨⟨m', woken⟩, hwake, heval⟩ := (any_eq_true _ _).1 hwake
    obtain ⟨hone, hdue⟩ : woken = 1 ∧ ¬ Due m' 1000 1 := by simpa using heval
    subst hone
    exact ⟨s₀, s, m, m', hinit, hs, hrun, hcur, hwake, fun hok => hdue (hok.reached hfew 1 hown).2⟩

end BoredOS.Sys.Futex
