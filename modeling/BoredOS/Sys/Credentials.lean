import Mathlib

/-!
# User and Group Identities

The calls of `sys/syscall_proc.c` that change the identities of a process. A process has a real, an
effective and a saved user id, and the same for groups. Three calls with different conventions
change them; `setreuid` and `setregid` store the real id before the effective id is checked and
restore it by hand. Whether the caller is root is decided by the effective *user* id in all six.

Without root a call can only permute and duplicate the ids that are there (`setOne_within`,
`setTwo_within`, `setThree_within`), and so can every sequence of calls (`credentials_closed`).
-/

namespace BoredOS.Sys.Credentials

open List Function

/-- The real, effective and saved id of a process, for users or for groups. -/
structure Ids where
  real : BitVec 32
  effective : BitVec 32
  saved : BitVec 32
  deriving DecidableEq, Repr

/-- The fields of `process_t` that the calls read and write. -/
structure Cred where
  user : Ids
  group : Ids
  isSuidElevated : Bool
  deriving DecidableEq, Repr

def eperm : BitVec 64 := -1

/-- `(uid_t)-1`, the argument that leaves an id alone. -/
def keep : BitVec 32 := -1

/-- One of the three ids. -/
def Ids.Mem (x : BitVec 32) (ids : Ids) : Prop :=
  x = ids.real ∨ x = ids.effective ∨ x = ids.saved
  deriving Decidable

/-! ## The three conventions -/

/-- `setuid` and `setgid`; `none` is a refusal. -/
def setOne (root : Bool) (ids : Ids) (new : BitVec 32) : Option Ids :=
  if root = true then some ⟨new, new, new⟩
  else if new = ids.real ∨ new = ids.saved then some { ids with effective := new }
  else none

/-- `setreuid` and `setregid`: the ids afterwards, and whether the call was admitted. -/
def setTwo (root : Bool) (cur : Ids) (real effective : BitVec 32) : Ids × Bool :=
  if real ≠ keep ∧ root = false ∧ ¬ cur.Mem real then (cur, false)
  else
    let ids := if real ≠ keep then { cur with real := real } else cur
    if effective ≠ keep ∧ root = false ∧ ¬ cur.Mem effective then
      -- the real id has been stored and goes back by hand
      ({ ids with real := cur.real }, false)
    else
      let ids := if effective ≠ keep then { ids with effective := effective } else ids
      let ids :=
        if real ≠ keep ∨ (effective ≠ keep ∧ effective ≠ cur.real) then
          { ids with saved := ids.effective }
        else ids
      (ids, true)

/-- `setresuid` and `setresgid`; `none` is a refusal. -/
def setThree (root : Bool) (ids : Ids) (real effective saved : BitVec 32) : Option Ids :=
  if root = false ∧ ((real ≠ keep ∧ ¬ ids.Mem real) ∨ (effective ≠ keep ∧ ¬ ids.Mem effective) ∨
      (saved ≠ keep ∧ ¬ ids.Mem saved)) then none
  else
    some ⟨if real ≠ keep then real else ids.real,
      if effective ≠ keep then effective else ids.effective,
      if saved ≠ keep then saved else ids.saved⟩

/-! ## The calls -/

def Cred.root (c : Cred) : Bool := decide (c.user.effective = 0)

/-- `is_suid_elevated` is computed again. -/
def Cred.elevate (c : Cred) : Cred :=
  { c with isSuidElevated :=
      decide (c.user.effective ≠ c.user.real ∨ c.group.effective ≠ c.group.real) }

def handleSysSetuid (c : Cred) (arg1 : BitVec 64) : Cred × BitVec 64 :=
  match setOne c.root c.user (arg1.setWidth 32) with
  | some ids => ({ c with user := ids }, 0)
  | none => (c, eperm)

def handleSysSetgid (c : Cred) (arg1 : BitVec 64) : Cred × BitVec 64 :=
  match setOne c.root c.group (arg1.setWidth 32) with
  | some ids => ({ c with group := ids }, 0)
  | none => (c, eperm)

def handleSysSetreuid (c : Cred) (arg1 arg2 : BitVec 64) : Cred × BitVec 64 :=
  match setTwo c.root c.user (arg1.setWidth 32) (arg2.setWidth 32) with
  | (ids, true) => ({ c with user := ids }.elevate, 0)
  | (ids, false) => ({ c with user := ids }, eperm)

def handleSysSetregid (c : Cred) (arg1 arg2 : BitVec 64) : Cred × BitVec 64 :=
  match setTwo c.root c.group (arg1.setWidth 32) (arg2.setWidth 32) with
  | (ids, true) => ({ c with group := ids }.elevate, 0)
  | (ids, false) => ({ c with group := ids }, eperm)

def handleSysSetresuid (c : Cred) (arg1 arg2 arg3 : BitVec 64) : Cred × BitVec 64 :=
  match setThree c.root c.user (arg1.setWidth 32) (arg2.setWidth 32) (arg3.setWidth 32) with
  | some ids => ({ c with user := ids }.elevate, 0)
  | none => (c, eperm)

def handleSysSetresgid (c : Cred) (arg1 arg2 arg3 : BitVec 64) : Cred × BitVec 64 :=
  match setThree c.root c.group (arg1.setWidth 32) (arg2.setWidth 32) (arg3.setWidth 32) with
  | some ids => ({ c with group := ids }.elevate, 0)
  | none => (c, eperm)

inductive CredCall where
  | setuid (arg1 : BitVec 64)
  | setgid (arg1 : BitVec 64)
  | setreuid (arg1 arg2 : BitVec 64)
  | setregid (arg1 arg2 : BitVec 64)
  | setresuid (arg1 arg2 arg3 : BitVec 64)
  | setresgid (arg1 arg2 arg3 : BitVec 64)
  deriving DecidableEq, Repr

def credStep (c : Cred) : CredCall → Cred × BitVec 64
  | .setuid a => handleSysSetuid c a
  | .setgid a => handleSysSetgid c a
  | .setreuid a b => handleSysSetreuid c a b
  | .setregid a b => handleSysSetregid c a b
  | .setresuid a b d => handleSysSetresuid c a b d
  | .setresgid a b d => handleSysSetresgid c a b d

def credRun (c : Cred) (calls : List CredCall) : Cred :=
  calls.foldl (fun c call => (credStep c call).1) c

/-! ## What a call without root can reach -/

/-- Every id comes from `old`. -/
structure Ids.Within (new old : Ids) : Prop where
  real : old.Mem new.real
  effective : old.Mem new.effective
  saved : old.Mem new.saved

theorem Ids.Within.refl (ids : Ids) : ids.Within ids :=
  ⟨.inl rfl, .inr (.inl rfl), .inr (.inr rfl)⟩

variable {new old : Ids} {c : Cred}

theorem Ids.Within.mem (h : new.Within old) {x : BitVec 32} (hx : new.Mem x) : old.Mem x := by
  rcases hx with rfl | rfl | rfl
  · exact h.real
  · exact h.effective
  · exact h.saved

theorem Ids.Within.trans {mid : Ids} (h : new.Within mid) (h' : mid.Within old) : new.Within old :=
  ⟨h'.mem h.real, h'.mem h.effective, h'.mem h.saved⟩

def Ids.NonZero (ids : Ids) : Prop := ¬ ids.Mem 0

theorem Ids.Within.nonZero (h : new.Within old) (hold : old.NonZero) : new.NonZero :=
  fun hzero => hold (h.mem hzero)

theorem Ids.NonZero.not_root (h : c.user.NonZero) : c.root = false :=
  decide_eq_false fun hzero => h (.inr (.inl hzero.symm))

section

variable {ids ids' : Ids} {real effective saved new : BitVec 32}

theorem setOne_within (h : setOne false ids new = some ids') : ids'.Within ids := by
  unfold setOne at h
  rw [if_neg Bool.false_ne_true] at h
  split at h
  next hnew =>
    cases h
    exact ⟨.inl rfl, hnew.imp id .inr, .inr (.inr rfl)⟩
  next => cases h

/-- An admitted argument is one of the ids, or leaves the id alone. -/
theorem mem_choice {x old : BitVec 32} (hx : ¬ (x ≠ keep ∧ ¬ ids.Mem x)) (hold : ids.Mem old) :
    ids.Mem (if x ≠ keep then x else old) := by
  split
  next hne => exact Decidable.byContradiction fun hnot => hx ⟨hne, hnot⟩
  next => exact hold

/-- A refusal puts the real id back; an admitted call takes ids from those that are there. -/
theorem setTwo_within (h : setTwo false ids real effective = (ids', true)) : ids'.Within ids := by
  unfold setTwo at h
  simp only [true_and] at h
  split at h
  next => cases h
  next hreal =>
    split at h
    next => cases h
    next heffective =>
      have hr := mem_choice hreal (.inl rfl)
      have he := mem_choice heffective (.inr (.inl rfl))
      cases h
      refine ⟨?_, ?_, ?_⟩
      · simp only [apply_ite Ids.real, ite_self]
        exact hr
      · simp only [apply_ite Ids.effective, ite_self]
        exact he
      · simp only [apply_ite Ids.saved, apply_ite Ids.effective, ite_self]
        split
        · exact he
        · exact .inr (.inr rfl)

theorem setTwo_refused {root : Bool} (h : setTwo root ids real effective = (ids', false)) :
    ids' = ids := by
  unfold setTwo at h
  dsimp only at h
  split at h
  next =>
    cases h
    rfl
  next =>
    split at h
    next =>
      cases h
      split
      · rfl
      · rfl
    next => cases h

theorem setThree_within (h : setThree false ids real effective saved = some ids') :
    ids'.Within ids := by
  unfold setThree at h
  split at h
  next => cases h
  next hchecks =>
    simp only [true_and, not_or] at hchecks
    cases h
    exact ⟨mem_choice hchecks.1 (.inl rfl), mem_choice hchecks.2.1 (.inr (.inl rfl)),
      mem_choice hchecks.2.2 (.inr (.inr rfl))⟩

end

/-! ## One call -/

/-- `setuid` and `setgid` leave the mark as it is. -/
def CredCall.unmarked : CredCall → Bool
  | .setuid _ | .setgid _ => true
  | _ => false

/-- What a call can do: it is refused and changes nothing, or it replaces the user ids or the group
ids, without root by ids that are there, and computes the mark again if it is one that does. -/
theorem credStep_cases (c : Cred) (call : CredCall) : credStep c call = (c, eperm) ∨
    ∃ d : Cred, credStep c call = (if call.unmarked = true then d else d.elevate, 0) ∧
      d.isSuidElevated = c.isSuidElevated ∧
      (c.root = false → d.user.Within c.user ∧ d.group.Within c.group) := by
  cases call with
  | setuid =>
    unfold credStep handleSysSetuid
    dsimp only
    split
    next ids h => exact .inr ⟨_, rfl, rfl, fun hroot => ⟨setOne_within (hroot ▸ h), .refl _⟩⟩
    next => exact .inl rfl
  | setgid =>
    unfold credStep handleSysSetgid
    dsimp only
    split
    next ids h => exact .inr ⟨_, rfl, rfl, fun hroot => ⟨.refl _, setOne_within (hroot ▸ h)⟩⟩
    next => exact .inl rfl
  | setreuid =>
    unfold credStep handleSysSetreuid
    dsimp only
    split
    next ids h => exact .inr ⟨_, rfl, rfl, fun hroot => ⟨setTwo_within (hroot ▸ h), .refl _⟩⟩
    next ids h =>
      rw [setTwo_refused h]
      exact .inl rfl
  | setregid =>
    unfold credStep handleSysSetregid
    dsimp only
    split
    next ids h => exact .inr ⟨_, rfl, rfl, fun hroot => ⟨.refl _, setTwo_within (hroot ▸ h)⟩⟩
    next ids h =>
      rw [setTwo_refused h]
      exact .inl rfl
  | setresuid =>
    unfold credStep handleSysSetresuid
    dsimp only
    split
    next ids h => exact .inr ⟨_, rfl, rfl, fun hroot => ⟨setThree_within (hroot ▸ h), .refl _⟩⟩
    next => exact .inl rfl
  | setresgid =>
    unfold credStep handleSysSetresgid
    dsimp only
    split
    next ids h => exact .inr ⟨_, rfl, rfl, fun hroot => ⟨.refl _, setThree_within (hroot ▸ h)⟩⟩
    next => exact .inl rfl

theorem credStep_within (hroot : c.root = false) (call : CredCall) :
    (credStep c call).1.user.Within c.user ∧ (credStep c call).1.group.Within c.group := by
  rcases credStep_cases c call with heq | ⟨d, heq, -, hids⟩
  · rw [heq]
    exact ⟨.refl c.user, .refl c.group⟩
  · rw [heq]
    dsimp only
    split
    · exact hids hroot
    · exact hids hroot

/-! ## Sequences of calls -/

theorem credRun_append (c : Cred) (calls : List CredCall) (call : CredCall) :
    credRun c (calls ++ [call]) = (credStep (credRun c calls) call).1 :=
  foldl_append

/-- The user ids of a process that starts without the id of root. -/
theorem credRun_user (h : c.user.NonZero) (calls : List CredCall) :
    (credRun c calls).user.Within c.user := by
  -- from the right, so that the ids before the last call are the ones of a shorter sequence
  induction calls using reverseRecOn with
  | nil => exact .refl c.user
  | append_singleton calls call ih =>
    rw [credRun_append]
    exact (credStep_within (ih.nonZero h).not_root call).1.trans ih

/-- The group ids of a process that is not root before any of the calls. -/
theorem credRun_group : ∀ calls : List CredCall,
    (∀ done, done <+: calls → (credRun c done).user.effective ≠ 0) →
      (credRun c calls).group.Within c.group := by
  intro calls
  induction calls using reverseRecOn with
  | nil => exact fun _ => .refl c.group
  | append_singleton calls call ih =>
    intro h
    have hbefore : (credRun c calls).root = false :=
      decide_eq_false (h calls (prefix_append calls [call]))
    rw [credRun_append]
    apply (credStep_within hbefore call).2.trans
    exact ih fun done hdone => h done (hdone.trans (prefix_append calls [call]))

/-- A process none of whose user ids is the one of root keeps to the user ids that it has, and to
its group ids while it is not root; a call that fails changes nothing. -/
theorem credentials_closed (c : Cred) (calls : List CredCall) :
    (c.user.real ≠ 0 → c.user.effective ≠ 0 → c.user.saved ≠ 0 →
      (credRun c calls).user.Within c.user ∧ (credRun c calls).user.NonZero) ∧
    ((∀ done, done <+: calls → (credRun c done).user.effective ≠ 0) →
      (credRun c calls).group.Within c.group) ∧
    ∀ call, (credStep (credRun c calls) call).2 ≠ 0 →
      (credStep (credRun c calls) call).1 = credRun c calls := by
  refine ⟨?_, credRun_group calls, fun call h => ?_⟩
  · intro hreal heffective hsaved
    have hnonzero : c.user.NonZero := by
      rintro (h | h | h)
      · exact hreal h.symm
      · exact heffective h.symm
      · exact hsaved h.symm
    have hwithin := credRun_user hnonzero calls
    exact ⟨hwithin, hwithin.nonZero hnonzero⟩
  · -- a call that returns an error changes nothing, with root or without
    rcases credStep_cases (credRun c calls) call with heq | ⟨d, heq, -⟩
    · rw [heq]
    · exact absurd (by rw [heq]) h

/-- A process that runs a set-uid program of another user, and drops and regains the identity. -/
theorem credentials_closed_swap : (credRun ⟨⟨1000, 1001, 1001⟩, ⟨100, 100, 100⟩, true⟩
      [.setreuid 1001 1000, .setuid 1001, .setresuid 0 1000 1000]).user.Within ⟨1000, 1001, 1001⟩ :=
  ((credentials_closed ⟨⟨1000, 1001, 1001⟩, ⟨100, 100, 100⟩, true⟩
    [.setreuid 1001 1000, .setuid 1001, .setresuid 0 1000 1000]).1
      (by decide) (by decide) (by decide)).1

/-! ## The elevation mark

`is_suid_elevated` says of a process that an effective id is not the real one. It is stored beside
the ids, and `setuid` and `setgid` do not store it again; neither does `process_create_thread`,
whose new process has it clear. -/

/-- What the file of an `exec` has to do with identities. -/
structure Exe where
  uid : BitVec 32
  gid : BitVec 32
  setUid : Bool
  setGid : Bool
  nosuid : Bool

def Ids.become (ids : Ids) (id : BitVec 32) : Ids := { ids with effective := id, saved := id }

/-- The stores of `process_create_elf` and `process_exec_replace_current`. -/
def Cred.exec (c : Cred) (f : Exe) : Cred :=
  { c with
    user := if f.nosuid = false ∧ f.setUid = true then c.user.become f.uid else c.user
    group := if f.nosuid = false ∧ f.setGid = true then c.group.become f.gid else c.group }.elevate

/-- The identities of a process without a parent. -/
def Cred.zero : Cred := ⟨⟨0, 0, 0⟩, ⟨0, 0, 0⟩, false⟩

/-- The calls that make processes and change identities. A number may name another process later. -/
inductive ElevCall where
  | spawn (child : ℕ) (parent : Option ℕ) (file : Exe)
  | fork (child parent : ℕ)
  | createThread (child parent : ℕ)
  | exec (p : ℕ) (file : Exe)
  | cred (p : ℕ) (call : CredCall)

def elevStep (s : ℕ → Option Cred) : ElevCall → ℕ → Option Cred
  | .spawn child parent file => update s child (((parent.bind s).getD Cred.zero).exec file)
  | .fork child parent => update s child (s parent)
  -- the memory of the new process was cleared, and the mark is not copied
  | .createThread child parent =>
    update s child ((s parent).map ({ · with isSuidElevated := false }))
  | .exec p file => update s p ((s p).map (·.exec file))
  | .cred p call => update s p ((s p).map fun c => (credStep c call).1)

def Cred.Differs (c : Cred) : Prop :=
  c.user.effective ≠ c.user.real ∨ c.group.effective ≠ c.group.real
  deriving Decidable

def Cred.Exact (c : Cred) : Prop := c.isSuidElevated = true ↔ c.Differs

/-- The marks of all processes are right. -/
def AllExact (s : ℕ → Option Cred) : Prop := ∀ p, ∀ c ∈ s p, c.Exact

/-- The ids before a `setuid` or `setgid`, and its argument, for which the effective id stays equal
to the real one or different from it. -/
def Ids.Steady (root : Bool) (ids : Ids) (new : BitVec 32) : Prop :=
  -- root gets three equal ids
  if root = true then ids.effective = ids.real
  else if new = ids.real then ids.effective = ids.real
  else if new = ids.saved then ids.effective ≠ ids.real
  -- anything else is refused
  else True
  deriving Decidable

/-- The ids of the other kind differ anyway, or those of the call are steady. -/
def CredCall.Safe (c : Cred) : CredCall → Prop
  | .setuid a => c.group.effective ≠ c.group.real ∨ c.user.Steady c.root (a.setWidth 32)
  | .setgid a => c.user.effective ≠ c.user.real ∨ c.group.Steady c.root (a.setWidth 32)
  | _ => True

/-- An elevated process makes no thread, and no `setuid` or `setgid` makes a difference that is
there go or come. -/
def CallSafe (s : ℕ → Option Cred) : ElevCall → Prop
  | .createThread _ parent => ∀ c ∈ s parent, ¬ c.Differs
  | .cred p call => ∀ c ∈ s p, call.Safe c
  | _ => True

def SafeCalls : (ℕ → Option Cred) → List ElevCall → Prop
  | _, [] => True
  | s, call :: calls => CallSafe s call ∧ SafeCalls (elevStep s call) calls

theorem Cred.exact_elevate (c : Cred) : c.elevate.Exact := decide_eq_true_iff

/-- What a call does to a mark that is right. -/
theorem Cred.Exact.credStep_iff (hc : c.Exact) (call : CredCall) : (credStep c call).1.Exact ↔
    (call.unmarked = true → ((credStep c call).1.Differs ↔ c.Differs)) := by
  rcases credStep_cases c call with heq | ⟨d, heq, hmark, -⟩
  · rw [heq]
    exact iff_of_true hc fun _ => Iff.rfl
  · rw [heq]
    by_cases h : call.unmarked = true
    · simp only [h, if_true, forall_const]
      rw [Cred.Exact, hmark]
      exact (iff_congr hc Iff.rfl).trans Iff.comm
    · simp only [h]
      exact iff_of_true d.exact_elevate nofun

theorem Ids.steady_iff {root : Bool} {ids ids' : Ids} {new : BitVec 32}
    (h : setOne root ids new = some ids') : ids.Steady root new ↔
      (ids'.effective ≠ ids'.real ↔ ids.effective ≠ ids.real) := by
  unfold setOne at h
  unfold Ids.Steady
  grind

theorem Ids.steady_of_refused {root : Bool} {ids : Ids} {new : BitVec 32}
    (h : setOne root ids new = none) : ids.Steady root new := by
  unfold setOne at h
  unfold Ids.Steady
  grind

/-- The ids and the argument decide whether the ids differ as before. -/
theorem CredCall.safe_iff (c : Cred) (call : CredCall) : call.Safe c ↔
    (call.unmarked = true → ((credStep c call).1.Differs ↔ c.Differs)) := by
  -- what does not change differs before and after, and then the rest does not matter
  have hother : ∀ {P Q G : Prop}, (G ∨ (P ↔ Q)) ↔ ((P ∨ G) ↔ (Q ∨ G)) := by
    intro P Q G
    tauto
  cases call with
  | setuid a =>
    unfold CredCall.Safe credStep handleSysSetuid CredCall.unmarked
    dsimp only
    rw [imp_iff_right rfl]
    split
    next ids h => rw [Ids.steady_iff h, hother, Cred.Differs, Cred.Differs]
    next h => exact iff_of_true (.inr (Ids.steady_of_refused h)) Iff.rfl
  | setgid a =>
    unfold CredCall.Safe credStep handleSysSetgid CredCall.unmarked
    dsimp only
    rw [imp_iff_right rfl]
    split
    next ids h =>
      rw [Ids.steady_iff h, hother, Cred.Differs, Cred.Differs, or_comm,
        or_comm (b := c.group.effective ≠ c.group.real)]
    next h => exact iff_of_true (.inr (Ids.steady_of_refused h)) Iff.rfl
  | _ => exact iff_of_true trivial nofun

section

variable {s : ℕ → Option Cred} (hs : AllExact s)

include hs

theorem allExact_update (p : ℕ) (o : Option Cred) : AllExact (update s p o) ↔ ∀ c ∈ o, c.Exact := by
  constructor
  · intro h
    simpa using h p
  · intro h q
    by_cases hq : q = p
    · subst hq
      simpa using h
    · rw [update_of_ne hq]
      exact hs q

/-- From a table whose marks are right, a call leads to one exactly if it meets the condition. -/
theorem allExact_elevStep_iff (call : ElevCall) : AllExact (elevStep s call) ↔ CallSafe s call := by
  cases call with
  | spawn child parent file =>
    refine iff_of_true ((allExact_update hs child _).2 fun d hd => ?_) trivial
    rw [← Option.mem_some_iff.1 hd]
    exact Cred.exact_elevate _
  | fork child parent => exact iff_of_true ((allExact_update hs child _).2 (hs parent)) trivial
  | createThread child parent =>
    refine (allExact_update hs child _).trans ?_
    simp [CallSafe, Cred.Exact, Cred.Differs]
  | exec p file =>
    refine iff_of_true ((allExact_update hs p _).2 fun d hd => ?_) trivial
    obtain ⟨c, -, rfl⟩ := Option.mem_map.1 hd
    exact Cred.exact_elevate _
  | cred p call =>
    refine (allExact_update hs p _).trans ?_
    rw [Option.forall_mem_map]
    exact forall₂_congr fun c hc => ((hs p c hc).credStep_iff call).trans (call.safe_iff c).symm

end

/-- The mark of every process is right after each call of a sequence exactly if the calls meet the
condition. -/
theorem mark_exact_iff (s : ℕ → Option Cred) (hs : AllExact s) (calls : List ElevCall) :
    (∀ done, done <+: calls → AllExact (done.foldl elevStep s)) ↔ SafeCalls s calls := by
  induction calls generalizing s with
  | nil => simpa [SafeCalls] using hs
  | cons call calls ih =>
    simp only [prefix_cons_iff, SafeCalls, ← allExact_elevStep_iff hs]
    constructor
    · intro h
      have hstep := h [call] (.inr ⟨[], rfl, nil_prefix⟩)
      exact ⟨hstep, (ih _ hstep).1 fun done hdone => h (call :: done) (.inr ⟨done, rfl, hdone⟩)⟩
    · rintro ⟨hstep, hrest⟩ done (rfl | ⟨done, rfl, hdone⟩)
      · exact hs
      · exact (ih _ hstep).2 hrest done hdone

/-- A set-uid program is run and forks, the child asks for the identity that it has, and the parent
gives it up by `setreuid`. -/
def steadyCalls : List ElevCall :=
  [.spawn 1 none ⟨1001, 0, true, false, false⟩, .fork 2 1, .cred 2 (.setuid 1001),
    .cred 1 (.setreuid (-1) 0)]

theorem mark_exact_iff_fork : SafeCalls (fun _ => none) steadyCalls ∧
    ∀ done, done <+: steadyCalls → AllExact (done.foldl elevStep fun _ => none) := by
  have hsafe : SafeCalls (fun _ => none) steadyCalls := by
    refine ⟨trivial, trivial, ?_, fun c _ => trivial, trivial⟩
    rintro c ⟨⟩
    exact .inr (by decide)
  exact ⟨hsafe, (mark_exact_iff _ (by simp [AllExact]) _).2 hsafe⟩

/-- A set-uid program drops its identity and takes it again by `setuid`: it is elevated without the
mark. -/
theorem mark_missed : ∃ c : Cred, [ElevCall.exec 0 ⟨1001, 0, true, false, false⟩,
      .cred 0 (.setreuid (-1) 1000), .cred 0 (.setuid 1001)].foldl elevStep
        (fun _ => some ⟨⟨1000, 1000, 1000⟩, ⟨100, 100, 100⟩, false⟩) 0 = some c ∧
      c.Differs ∧ c.isSuidElevated = false :=
  ⟨_, rfl, by decide, rfl⟩

end BoredOS.Sys.Credentials
