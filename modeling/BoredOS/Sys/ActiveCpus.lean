import BoredOS.Sys.RunQueue.Processors

/-!
# Which Processors Run an Address Space

`active_cpus` of a `vmm_space_t` has a bit for every processor that runs a process of the space;
`mmu_tlb_shootdown_target` sends its interrupt to these. `process_schedule` and
`process_terminate_current_with_status` of `sys/process.c` set the bit of the space they go to and
then clear the bit of the space they come from.

The pieces of the calls and their interleavings are those of `Sys.RunQueue`; here every process has
its space. A switch between two threads of one space sets a bit and clears it again, and the bit of
a processor from 64 on is that of another one.
-/

namespace BoredOS.Sys.ActiveCpus

open Lib.Transition Lib.Update RunQueue Function Option List

/-! ## The code -/

/-- The processes with their `vmm_space`. A space is named by the number of its allocation. -/
structure Machine where
  rq : State
  space : ℕ → Option ℕ
  spaces : ℕ
  active : ℕ → BitVec 64

/-- `1ULL << my_cpu`; the processor takes the count modulo 64. -/
def cpuBit (cpu : ℕ) : BitVec 64 := 1#64 <<< (cpu % 64)

def setBit (active : ℕ → BitVec 64) (cpu sp : ℕ) : ℕ → BitVec 64 :=
  update active sp (active sp ||| cpuBit cpu)

def clearBit (active : ℕ → BitVec 64) (cpu sp : ℕ) : ℕ → BitVec 64 :=
  update active sp (active sp &&& ~~~ cpuBit cpu)

/-- The lines around `write_cr3`, which both calls have. -/
def switchBits (active : ℕ → BitVec 64) (cpu : ℕ) (outgoing incoming : Option ℕ) : ℕ → BitVec 64 :=
  let active := incoming.elim active (setBit active cpu)
  outgoing.elim active (clearBit active cpu)

/-- `active_cpus` after `process_schedule`. -/
def scheduleBits (m : Machine) (cpu now : ℕ) : ℕ → BitVec 64 :=
  match scheduleChoice m.rq cpu now with
  | none => m.active
  | some (cur, chosen) =>
    if cur = chosen then m.active
    else switchBits m.active cpu (m.space cur) (m.space chosen)

/-- `active_cpus` after `process_terminate_current_with_status`. -/
def terminateBits (m : Machine) (cpu : ℕ) (status : Int) : ℕ → BitVec 64 :=
  match terminateChoice m.rq cpu status with
  | none => m.active
  | some (cur, chosen) => switchBits m.active cpu (m.space cur) (m.space chosen)

/-- `vmm_create_space` for a process, if there is memory. -/
def giveSpace (m : Machine) (p : ℕ) (memory : Bool) : Machine :=
  if memory = true then
    { m with
      space := update m.space p (some m.spaces)
      spaces := m.spaces + 1
      active := update m.active m.spaces 0 }
  else { m with space := update m.space p none }

/-- The space of the new process in `process_duplicate` and `process_create_thread`. -/
def spawnSpace (m : Machine) (cpu : ℕ) (thread memory : Bool) : Machine :=
  match m.rq.current cpu with
  | none => m
  | some parent =>
    match m.space parent with
    | none => { m with space := update m.space m.rq.count none }
    | some sp =>
      if thread = true then { m with space := update m.space m.rq.count (some sp) }
      else giveSpace m m.rq.count memory

/-- A piece of a call; `memory` tells whether a new space can be had. A processor that comes up
has had no process before, and its first one is made by `process_create` for the kernel. -/
def spaceStep (m : Machine) (e : Act × Bool) : Option Machine :=
  (step m.rq e.1).bind fun rq =>
    match e.1 with
    | .schedule cpu now => some { m with rq, active := scheduleBits m cpu now }
    | .terminateCurrent cpu status => some { m with rq, active := terminateBits m cpu status }
    | .create _ _ => some { m with rq, space := update m.space m.rq.count none }
    | .createElf _ _ => some { giveSpace m m.rq.count e.2 with rq }
    | .duplicate cpu => some { spawnSpace m cpu false e.2 with rq }
    | .createThread cpu => some { spawnSpace m cpu true e.2 with rq }
    | .apEntry cpu p =>
      if m.rq.current cpu = none ∧ m.space p = none then some { m with rq } else none
    | _ => some { m with rq }

def machineInit (cpuCount : ℕ) : Machine :=
  { rq := processInit cpuCount, space := fun _ => none, spaces := 0, active := fun _ => 0 }

def spaceSystem : System Machine (Act × Bool) where
  init m := ∃ cpuCount, m = machineInit cpuCount
  step m e m' := spaceStep m e = some m'

/-- The processors that `mmu_tlb_shootdown_target` reaches from processor `this`: itself and those
to which the interrupt goes. -/
def shootdownTargets (mask : BitVec 64) (this : ℕ) : List ℕ :=
  this :: (range 64).filter fun cpu => (mask &&& ~~~ cpuBit this).getLsbD cpu

/-! ## The property -/

/-- The space of the process that a processor runs. -/
def runs (m : Machine) (cpu : ℕ) : Option ℕ := (m.rq.current cpu).bind m.space

/-- A processor has its bit in a space exactly if it runs a process of the space. -/
def TracksCpus (m : Machine) : Prop :=
  ∀ sp cpu, (m.active sp).getLsbD cpu = true ↔ runs m cpu = some sp

/-- The process next in line has no space, or another one than the process that runs, and the
processor is one of the first 64. -/
def Crosses (m : Machine) (cpu : ℕ) (choice : ℕ × ℕ) : Prop :=
  m.space choice.2 = none ∨ cpu < 64 ∧ m.space choice.1 ≠ m.space choice.2
  deriving Decidable

def SwitchSafe (m : Machine) (e : Act × Bool) : Prop :=
  match e.1 with
  | .schedule cpu now => ∀ choice ∈ scheduleChoice m.rq cpu now,
      choice.1 = choice.2 ∨ Crosses m cpu choice
  | .terminateCurrent cpu status => ∀ choice ∈ terminateChoice m.rq cpu status,
      Crosses m cpu choice
  | _ => True

instance (m : Machine) : (e : Act × Bool) → Decidable (SwitchSafe m e)
  | (.schedule cpu now, _) => inferInstanceAs (Decidable
      (∀ choice ∈ scheduleChoice m.rq cpu now, choice.1 = choice.2 ∨ Crosses m cpu choice))
  | (.terminateCurrent cpu status, _) => inferInstanceAs (Decidable
      (∀ choice ∈ terminateChoice m.rq cpu status, Crosses m cpu choice))
  | (.create _ _, _) | (.createElf _ _, _) | (.link _, _) | (.insert _, _) | (.duplicate _, _)
  | (.createThread _, _) | (.apEntry _ _, _) | (.condemn _ _, _) | (.reparent _, _)
  | (.terminate _ _, _) | (.notify _, _) | (.wait _, _) | (.waited _, _) | (.reap _, _)
  | (.setState _ _ _, _) | (.setReaper _, _) => .isTrue trivial

/-! ## The bits -/

section

variable {active : ℕ → BitVec 64} {run : ℕ → Option ℕ} {cpu sp c : ℕ} {outgoing incoming : Option ℕ}

theorem getLsbD_cpuBit : (cpuBit cpu).getLsbD c = decide (c = cpu % 64) := by
  have hlt : cpu % 64 < 64 := Nat.mod_lt _ (by decide)
  simp only [cpuBit, BitVec.getLsbD_shiftLeft, BitVec.getLsbD_one]
  by_cases hc : c = cpu % 64
  · simp [hc, hlt]
  · simp [hc]
    omega

/-- The bits after a switch: set for the space it goes to, then cleared for the one it comes
from. -/
theorem getLsbD_switchBits : (switchBits active cpu outgoing incoming sp).getLsbD c =
      (((active sp).getLsbD c || decide (incoming = some sp ∧ c = cpu % 64)) &&
        !decide (outgoing = some sp ∧ c = cpu % 64)) := by
  have hset : ∀ active : ℕ → BitVec 64, (incoming.elim active (setBit active cpu) sp).getLsbD c =
        ((active sp).getLsbD c || decide (incoming = some sp ∧ c = cpu % 64)) := by
    intro active
    cases incoming with
    | none => simp
    | some y =>
      by_cases hy : sp = y
      · subst hy
        simp [setBit, getLsbD_cpuBit]
      · simp [setBit, hy, Ne.symm hy]
  unfold switchBits
  cases outgoing with
  | none => simp [hset]
  | some x =>
    by_cases hx : sp = x
    · subst hx
      by_cases hc : c < 64
      · simp only [elim_some, clearBit, update_self, BitVec.getLsbD_and,
          BitVec.getLsbD_not, hset, getLsbD_cpuBit, hc, decide_true, Bool.true_and, true_and]
      · simp [clearBit, BitVec.getLsbD_of_ge _ c (Nat.le_of_not_lt hc)]
    · simp [clearBit, hx, Ne.symm hx, hset]

/-- If the bits tell which spaces the processors run, they do so after a switch exactly if it goes
to another space, on one of the first 64 processors. -/
theorem tracks_switchBits (cpu : ℕ) (incoming : Option ℕ)
    (h : ∀ sp c, (active sp).getLsbD c = true ↔ run c = some sp) :
    (∀ sp c, (switchBits active cpu (run cpu) incoming sp).getLsbD c = true ↔
        update run cpu incoming c = some sp) ↔
      incoming = none ∨ cpu < 64 ∧ run cpu ≠ incoming := by
  constructor
  · intro htracks
    by_contra hbad
    simp only [not_or, not_and_or, not_lt, ne_eq, not_not] at hbad
    obtain ⟨hsome, hbad⟩ := hbad
    obtain ⟨y, rfl⟩ := ne_none_iff_exists'.1 hsome
    have hbit := (htracks y cpu).2 (by simp)
    obtain hlarge | hsame := hbad
    · rw [BitVec.getLsbD_of_ge _ cpu hlarge] at hbit
      cases hbit
    · -- the bit was cleared again, on the processor that still runs the space
      have hlt := BitVec.lt_of_getLsbD hbit
      rw [getLsbD_switchBits, hsame, Nat.mod_eq_of_lt hlt] at hbit
      simp at hbit
  · intro hcross sp c
    rw [getLsbD_switchBits, Bool.and_eq_true, Bool.or_eq_true, h sp c]
    by_cases hcpu : cpu < 64
    · rw [Nat.mod_eq_of_lt hcpu]
      by_cases hc : c = cpu
      · subst hc
        have hne : incoming = some sp → run c ≠ some sp := by
          intro heq hrun
          obtain hnone | ⟨-, hne⟩ := hcross
          · rw [heq] at hnone
            cases hnone
          · exact hne (hrun.trans heq.symm)
        simp only [and_true, decide_eq_true_eq, Bool.not_eq_true', decide_eq_false_iff_not,
          update_self]
        exact ⟨fun hh => hh.1.resolve_left hh.2, fun hh => ⟨.inr hh, hne hh⟩⟩
      · simp [hc]
    · -- the processor has no bit, so it ran no space and goes to none
      obtain hnone | ⟨hlt, -⟩ := hcross
      · have hrun : run cpu = none := by
          by_contra hsome
          obtain ⟨x, hx⟩ := ne_none_iff_exists'.1 hsome
          exact hcpu (BitVec.lt_of_getLsbD ((h x cpu).2 hx))
        by_cases hc : c = cpu
        · subst hc
          simp [hnone, hrun]
        · simp [hnone, hrun, hc]
      · exact absurd hlt hcpu

end

/-! ## Runs -/

variable {s : State} {m m' : Machine} {cpu : ℕ}

/-- Every process has a space that was allocated. -/
structure Sound (m : Machine) : Prop where
  bounded : Bounded m.rq
  spaces : ∀ p sp, m.space p = some sp → sp < m.spaces

/-- What a new process gets: an old space, or a new one with clear bits. -/
structure Gives (m m' : Machine) : Prop where
  sound : ∀ p sp, m'.space p = some sp → sp < m'.spaces
  space : m'.space = m.space ∨ ∃ x, m'.space = update m.space m.rq.count x
  tracks : TracksCpus m → ∀ sp cpu, (m'.active sp).getLsbD cpu = true ↔ runs m cpu = some sp

theorem Gives.of_update (h : Sound m) {x : Option ℕ} (hx : ∀ sp, x = some sp → sp < m.spaces) :
    Gives m { m with space := update m.space m.rq.count x } := by
  exact ⟨forall_update h.spaces hx, .inr ⟨x, rfl⟩, fun htracks => htracks⟩

theorem gives_giveSpace (h : Sound m) (memory : Bool) :
    Gives m (giveSpace m m.rq.count memory) := by
  unfold giveSpace
  split
  · refine ⟨?_, .inr ⟨_, rfl⟩, fun htracks sp cpu => ?_⟩
    · exact forall_update (fun p sp hp => Nat.lt_succ_of_lt (h.spaces p sp hp))
        fun sp heq => some.inj heq ▸ Nat.lt_succ_self _
    · -- the bits of a new space are clear, and nobody runs it
      by_cases hsp : sp = m.spaces
      · subst hsp
        refine iff_of_false (by simp) fun hrun => ?_
        obtain ⟨p, -, hp⟩ := bind_eq_some_iff.1 hrun
        exact lt_irrefl _ (h.spaces p _ hp)
      · simpa [hsp] using htracks sp cpu
  · exact .of_update h (by simp)

theorem gives_spawnSpace (h : Sound m) (cpu : ℕ) (thread memory : Bool) :
    Gives m (spawnSpace m cpu thread memory) := by
  unfold spawnSpace
  split
  · exact ⟨h.spaces, .inl rfl, fun htracks => htracks⟩
  · rename_i parent _
    cases hsp : m.space parent with
    | none => exact .of_update h (by simp)
    | some sp =>
      dsimp only
      split
      · refine .of_update h fun sp' heq => ?_
        cases heq
        exact h.spaces parent sp hsp
      · exact gives_giveSpace h memory

variable {rq : State}

/-- A piece that gives a space to a new process. -/
theorem Gives.step (h : Sound m) (hg : Gives m m') (hb : Bounded rq)
    (hcur : rq.current = m.rq.current) :
    Sound { m' with rq } ∧ (TracksCpus m → TracksCpus { m' with rq }) := by
  refine ⟨⟨hb, hg.sound⟩, fun htracks sp cpu => (hg.tracks htracks sp cpu).trans ?_⟩
  have hruns : runs { m' with rq } cpu = runs m cpu := by
    change (rq.current cpu).bind m'.space = (m.rq.current cpu).bind m.space
    rw [hcur]
    obtain hsame | ⟨x, hx⟩ := hg.space
    · rw [hsame]
    · -- the process that gets the space is not current yet
      refine bind_congr fun p hp => ?_
      rw [hx, update_of_ne (ne_of_lt (h.bounded.current cpu p hp))]
  rw [hruns]

/-- The bits after a switch of one processor. -/
theorem tracks_switch (htracks : TracksCpus m) {cur chosen : ℕ} (hcur : m.rq.current cpu = some cur)
    (hrq : rq.current = update m.rq.current cpu (some chosen)) :
    TracksCpus { m with
        rq, active := switchBits m.active cpu (m.space cur) (m.space chosen) } ↔
      Crosses m cpu (cur, chosen) := by
  have hrun : runs m cpu = m.space cur := by simp [runs, hcur]
  have hruns : runs { m with rq } = update (runs m) cpu (m.space chosen) := by
    funext c
    simp only [runs, hrq]
    by_cases hc : c = cpu
    · subst hc
      simp
    · simp [hc, runs]
  have hswitch := tracks_switchBits cpu (m.space chosen) htracks
  rw [hrun, ← hruns] at hswitch
  exact hswitch

theorem tracks_same (htracks : TracksCpus m) (hrq : rq.current = m.rq.current) :
    TracksCpus { m with rq } := by
  intro sp cpu
  rw [htracks sp cpu, runs, runs, hrq]

theorem step_schedule {now : ℕ} (h : Sound m) (htracks : TracksCpus m)
    (hstep : processSchedule m.rq cpu now = some rq) (memory : Bool) :
    TracksCpus { m with rq, active := scheduleBits m cpu now } ↔
      SwitchSafe m (.schedule cpu now, memory) := by
  have hcurrent := (processSchedule_current h.bounded hstep).2.2
  unfold scheduleBits SwitchSafe
  cases hchoice : scheduleChoice m.rq cpu now with
  | none =>
    rw [hchoice] at hcurrent
    exact iff_of_true (tracks_same htracks hcurrent) (by simp [hchoice])
  | some choice =>
    obtain ⟨cur, chosen⟩ := choice
    rw [hchoice] at hcurrent
    have hsafe : (∀ choice ∈ scheduleChoice m.rq cpu now,
        choice.1 = choice.2 ∨ Crosses m cpu choice) ↔
        cur = chosen ∨ Crosses m cpu (cur, chosen) := by simp [hchoice]
    refine .trans ?_ hsafe.symm
    by_cases heq : cur = chosen
    · simp only [elim_some, heq, if_true] at hcurrent ⊢
      exact iff_of_true (tracks_same htracks hcurrent) (.inl trivial)
    · simp only [elim_some, if_neg heq] at hcurrent ⊢
      rw [or_iff_right heq]
      exact tracks_switch htracks (scheduleChoice_spec h.bounded hchoice).1 hcurrent

theorem step_terminateCurrent {status : Int} (h : Sound m) (htracks : TracksCpus m)
    (hstep : processTerminateCurrent m.rq cpu status = some rq) (memory : Bool) :
    TracksCpus { m with rq, active := terminateBits m cpu status } ↔
      SwitchSafe m (.terminateCurrent cpu status, memory) := by
  have hcurrent := (processTerminateCurrent_current h.bounded hstep).2.2
  unfold terminateBits SwitchSafe
  cases hchoice : terminateChoice m.rq cpu status with
  | none =>
    rw [hchoice] at hcurrent
    exact iff_of_true (tracks_same htracks hcurrent) (by simp [hchoice])
  | some choice =>
    obtain ⟨cur, chosen⟩ := choice
    rw [hchoice] at hcurrent
    have hsafe : (∀ choice ∈ terminateChoice m.rq cpu status, Crosses m cpu choice) ↔
        Crosses m cpu (cur, chosen) := by simp [hchoice]
    exact (tracks_switch htracks (terminateChoice_spec h.bounded hchoice).1 hcurrent).trans
        hsafe.symm

/-- One piece: the spaces stay sound, and the bits are right afterwards exactly if the piece meets
the condition. -/
theorem spaceStep_tracks {e : Act × Bool} (h : Sound m) (htracks : TracksCpus m)
    (hstep : spaceStep m e = some m') : Sound m' ∧ (TracksCpus m' ↔ SwitchSafe m e) := by
  obtain ⟨a, memory⟩ := e
  obtain ⟨rq, hrq, heq⟩ := bind_eq_some_iff.1 hstep
  obtain ⟨hb, -, hstays⟩ := step_current h.bounded hrq
  have hquiet : Stays a → Sound { m with rq } ∧ TracksCpus { m with rq } := fun hstay =>
    ⟨⟨hb, h.spaces⟩, tracks_same htracks (hstays hstay)⟩
  cases a with
  | schedule =>
    cases heq
    exact ⟨⟨hb, h.spaces⟩, step_schedule h htracks hrq memory⟩
  | terminateCurrent =>
    cases heq
    exact ⟨⟨hb, h.spaces⟩, step_terminateCurrent h htracks hrq memory⟩
  | create =>
    cases heq
    have hnew := (Gives.of_update h (x := none) (by simp)).step h hb (hstays trivial)
    exact ⟨hnew.1, iff_of_true (hnew.2 htracks) trivial⟩
  | createElf =>
    cases heq
    have hnew := (gives_giveSpace h memory).step h hb (hstays trivial)
    exact ⟨hnew.1, iff_of_true (hnew.2 htracks) trivial⟩
  | duplicate cpu =>
    cases heq
    have hnew := (gives_spawnSpace h cpu false memory).step h hb (hstays trivial)
    exact ⟨hnew.1, iff_of_true (hnew.2 htracks) trivial⟩
  | createThread cpu =>
    cases heq
    have hnew := (gives_spawnSpace h cpu true memory).step h hb (hstays trivial)
    exact ⟨hnew.1, iff_of_true (hnew.2 htracks) trivial⟩
  | apEntry cpu p =>
    obtain ⟨⟨hcur, hspace⟩, heq⟩ := ite_none_right_eq_some.1 heq
    cases heq
    obtain ⟨-, rfl⟩ := ite_some_none_eq_some.1 hrq
    refine ⟨⟨hb, h.spaces⟩, iff_of_true (fun sp c => ?_) trivial⟩
    rw [htracks sp c]
    by_cases hc : c = cpu
    · subst hc
      simp [runs, hcur, apEntry, State.modify, hspace]
    · simp [runs, apEntry, State.modify, hc]
  | _ =>
    cases heq
    exact ⟨(hquiet trivial).1, iff_of_true (hquiet trivial).2 trivial⟩

/-- The interrupt reaches every processor that runs the space. -/
theorem mem_shootdownTargets (htracks : TracksCpus m) {this sp : ℕ} (hthis : this < 64)
    (hrun : runs m cpu = some sp) : cpu ∈ shootdownTargets (m.active sp) this := by
  have hbit := (htracks sp cpu).2 hrun
  have hlt := BitVec.lt_of_getLsbD hbit
  by_cases hcpu : cpu = this
  · simp [shootdownTargets, hcpu]
  · have hmask : (m.active sp &&& ~~~ cpuBit this).getLsbD cpu = true := by
      rw [BitVec.getLsbD_and, BitVec.getLsbD_not, getLsbD_cpuBit, Nat.mod_eq_of_lt hthis]
      simp [hbit, hlt, hcpu]
    exact mem_cons_of_mem _ (mem_filter.2 ⟨mem_range.2 hlt, hmask⟩)

/-- In a run whose switches all go to another space, on one of the first 64 processors, the bits
tell which processors run a space and the interrupt of a shootdown reaches these; a further piece
keeps the bits right exactly if it meets the condition too. -/
theorem active_cpus_of_safe_run (h : spaceSystem.Reachable SwitchSafe m) : TracksCpus m ∧
      (∀ this < 64, ∀ sp cpu, runs m cpu = some sp → cpu ∈ shootdownTargets (m.active sp) this) ∧
      ∀ e m', spaceStep m e = some m' → (TracksCpus m' ↔ SwitchSafe m e) := by
  obtain ⟨hsound, htracks⟩ : Sound m ∧ TracksCpus m := by
    apply h.invariant (I := fun m => Sound m ∧ TracksCpus m)
    · rintro m ⟨cpuCount, rfl⟩
      refine ⟨⟨bounded_processInit cpuCount, by simp [machineInit]⟩, fun sp cpu => ?_⟩
      refine iff_of_false (by simp [machineInit]) ?_
      simp [runs, machineInit]
    · rintro m e m' ⟨hsound, htracks⟩ hsafe hstep
      obtain ⟨hsound', hiff⟩ := spaceStep_tracks hsound htracks hstep
      exact ⟨hsound', hiff.2 hsafe⟩
  exact ⟨htracks, fun this hthis sp cpu => mem_shootdownTargets htracks hthis,
    fun e m' hstep => (spaceStep_tracks hsound htracks hstep).2⟩

/-- Two programs take turns on a processor, and one of them ends. -/
theorem active_cpus_of_safe_run_fork : ∃ m, System.runWithin spaceStep SwitchSafe (machineInit 1)
        [(.createElf 0 false, true), (.link 1, true), (.insert 1, true), (.schedule 0 0, true),
          (.duplicate 0, true), (.insert 2, true), (.schedule 0 0, true), (.reparent 2, true),
          (.terminateCurrent 0 0, true), (.schedule 0 0, true)] = some m ∧
      runs m 0 = some 0 ∧ TracksCpus m := by
  refine (exists_of_any (P := fun m => runs m 0 = some 0) ?_).imp fun m ⟨hrun, hcur⟩ =>
    ⟨hrun, hcur, (active_cpus_of_safe_run ?_).1⟩
  · decide +kernel
  · exact .of_runWithin (fun _ _ _ h => h) (.start ⟨1, rfl⟩) hrun

/-- A program with three threads: after a switch between two of them, processor 1 runs the space
and is not reached by a shootdown from processor 0. -/
theorem active_cpus_lose_thread :
    ∃ m, spaceSystem.Reachable (fun _ _ => True) m ∧ runs m 1 = some 0 ∧
      1 ∉ shootdownTargets (m.active 0) 0 ∧ ¬ TracksCpus m := by
  obtain ⟨m, hrun, hone, hbit, htargets⟩ : ∃ m, System.runWithin spaceStep (fun _ _ => True)
        (machineInit 2)
        [(.createElf 0 false, true), (.link 1, true), (.insert 1, true), (.schedule 0 0, true),
          (.createThread 0, true), (.insert 2, true), (.createThread 0, true), (.insert 3, true),
          (.create 1 false, true), (.link 4, true), (.insert 4, true), (.apEntry 1 4, true),
          (.schedule 1 0, true), (.schedule 1 0, true)] = some m ∧ runs m 1 = some 0 ∧
      (m.active 0).getLsbD 1 = false ∧ 1 ∉ shootdownTargets (m.active 0) 0 := by
    apply exists_of_any
    decide +kernel
  refine ⟨m, ?_, hone, htargets, fun htracks => ?_⟩
  · exact .of_runWithin (fun _ _ _ h => h) (.start ⟨2, rfl⟩) hrun
  · have hset := (htracks 0 1).2 hone
    rw [hbit] at hset
    cases hset

end BoredOS.Sys.ActiveCpus
