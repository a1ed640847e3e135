import BoredOS.Mem.Mmu.Translation
import BoredOS.Mem.Vmm.Access

/-!
# The Return Address of a Signal Handler

`syscall_maybe_deliver_signal` of `sys/syscall.c`. For a handler of the process it stores the return
address below the stack pointer: it translates the first of the eight addresses and writes all eight
bytes from there through the direct map. Neither the page protection nor copy-on-write take part in
this.

A byte belongs to the process if it is what its own address translates to, the process may write
there, and nobody else sees it through a frame that is to be copied (`OwnByte`). All eight bytes do
so exactly if one or two pages have what it takes and, if they are two, their frames are neighbours
(`StackSafe`, `signal_frame_iff`).
-/

namespace BoredOS.Sys.SignalFrame

open Mem.Pmm Mem.Mmu Mem.Vmm Function Option

/-! ## Delivery -/

/-- The registers that the delivery reads and changes. -/
structure Regs where
  rip : BitVec 64
  rsp : BitVec 64
  rdi : BitVec 64
  cs : BitVec 64
  deriving DecidableEq, Repr

/-- The fields of `process_t` for signals, and the PML4 of the process. -/
structure SigProc where
  isUser : Bool
  signalPending : BitVec 64
  signalMask : BitVec 64
  signalHandlers : ℕ → BitVec 64
  signalActionMask : ℕ → BitVec 64
  signalActionFlags : ℕ → BitVec 32
  pml4 : ℕ

/-- How a delivery ends. -/
inductive Outcome where
  | returned (p : SigProc)
  | terminated (p : SigProc) (status : ℕ)
  | installed (p : SigProc) (regs : Regs) (vm : Vm)

def saResethand : BitVec 32 := 0x80000000#32

def kernelBase : BitVec 64 := 0xFFFFFFFF80000000#64

/-- A store of eight bytes through the direct map. -/
def storeWord (data : ℕ → ℕ → BitVec 8) (phys : ℕ) (word : BitVec 64) : ℕ → ℕ → BitVec 8 :=
  fun f o =>
    let a := f * pageSize + o
    if phys ≤ a ∧ a < phys + 8 then word.extractLsb' (8 * (a - phys)) 8 else data f o

def firstPending (pending : BitVec 64) : Option ℕ :=
  (List.range 64).find? fun i => decide (1 ≤ i) && pending.getLsbD i

/-- `SA_RESETHAND`. -/
def resetHandler (p : SigProc) (sig : ℕ) : SigProc :=
  if p.signalActionFlags sig &&& saResethand ≠ 0 then
    { p with
      signalHandlers := update p.signalHandlers sig 0
      signalActionMask := update p.signalActionMask sig 0
      signalActionFlags := update p.signalActionFlags sig 0 }
  else p

/-- The stack pointer of the handler. -/
def newRsp (regs : Regs) : BitVec 64 := regs.rsp - 8

def syscallMaybeDeliverSignal (vm : Vm) (regs : Regs) (p : SigProc) : Outcome :=
  if p.isUser = false ∨ regs.cs &&& 3 = 0 then .returned p
  else
    match firstPending (p.signalPending &&& ~~~p.signalMask) with
    | none => .returned p
    | some sig =>
      let p := { p with signalPending := p.signalPending &&& ~~~(1#64 <<< sig) }
      let handler := p.signalHandlers sig
      if handler = 1 ∨ handler = 0 ∧ (sig = 17 ∨ sig = 28 ∨ sig = 23) then .returned p
      else if handler = 0 ∨ sig = 9 then .terminated p sig
      else
        let p := resetHandler p sig
        if kernelBase ≤ handler then .terminated p (128 + 11)
        else if kernelBase ≤ newRsp regs then .terminated p (128 + 11)
        else
          let phys := mmuVirtToPhys vm.mm p.pml4 (newRsp regs).toNat
          if phys = 0 then .terminated p (128 + 11)
          else
            .installed p { regs with
              rsp := newRsp regs, rip := handler, rdi := BitVec.ofNat 64 sig }
              { vm with data := storeWord vm.data phys regs.rip }

/-! ## Bytes of the process -/

/-- The areas of a process; one without a space has none. -/
def areasOf (s : Machine) (r : ℕ) : List Area := (s.spaces r).elim [] fun sp => sp.vmas

/-- The byte at a physical address is the one that the process could write at a virtual one, and no
other space sees it through copy-on-write or the zero page. -/
structure OwnByte (s : Machine) (r v phys : ℕ) : Prop where
  lower : v < 2 ^ 47
  here : mmuVirtToPhys s.vm.mm r v = phys
  user : ∃ e, lastEntry s.vm.mm r v = some (e, true)
  area : ∃ a, vmaFind (areasOf s r) (pageAlignDown v) = some a ∧ Has a.flags vmaFlagWrite
  notZero : s.vm.zeroPage ≠ some (phys / pageSize)
  unseen : ∀ r' v' e u, r' ≠ r → (s.spaces r').isSome = true →
    lastEntry s.vm.mm r' v' = some (e, u) → mmuVirtToPhys s.vm.mm r' v' = phys → ¬ Has e ptCow

/-- The frame to which a page is mapped. -/
def frameOf (s : Machine) (r page : ℕ) : ℕ := mmuVirtToPhys s.vm.mm r (page * pageSize) / pageSize

/-- The spaces with a copy-on-write entry for a frame. -/
def CowSharer (s : Machine) (f r : ℕ) : Prop :=
  (s.spaces r).isSome = true ∧ ∃ page e u, lastEntry s.vm.mm r (page * pageSize) = some (e, u) ∧
    frameOf s r page = f ∧ Has e ptCow

/-- A page that is mapped for the user in an area for writing, to a frame that is not the zero page
and for which no other space has a copy-on-write entry. -/
structure StackPage (s : Machine) (r page : ℕ) : Prop where
  entry : (lastEntry s.vm.mm r (page * pageSize)).any (fun x => x.2) = true
  area : (vmaFind (areasOf s r) (page * pageSize)).any
    (fun a => decide (Has a.flags vmaFlagWrite)) = true
  frame : s.vm.zeroPage ≠ some (frameOf s r page)
  sole : ∀ r', CowSharer s (frameOf s r page) r' → r' = r

/-- The page or the two pages below the stack pointer; the frames of two are neighbours. -/
structure StackSafe (s : Machine) (r rsp : ℕ) : Prop where
  lower : rsp + 8 ≤ 2 ^ 47
  first : StackPage s r (rsp / pageSize)
  second : pageSize < rsp % pageSize + 8 → StackPage s r (rsp / pageSize + 1) ∧
    frameOf s r (rsp / pageSize + 1) = frameOf s r (rsp / pageSize) + 1

/-! ## The eight bytes -/

section

variable {s : Machine} {r v phys page rsp : ℕ}

theorem page_mul_div (page : ℕ) : page * pageSize / pageSize = page := by
  unfold pageSize
  omega

/-- A byte of a page is as far into its frame as into the page. -/
theorem mmuVirtToPhys_eq {e : Pte} {u : Bool}
    (h : lastEntry s.vm.mm r (page * pageSize) = some (e, u)) (hv : v / pageSize = page) :
    mmuVirtToPhys s.vm.mm r v = frameOf s r page * pageSize + v % pageSize := by
  have hpage : page * pageSize / pageSize = v / pageSize := (page_mul_div page).trans hv.symm
  have hshift := mmuVirtToPhys_shift hpage h
  have hmod := mmuVirtToPhys_mod h
  unfold frameOf
  unfold pageSize at *
  omega

theorem lastEntry_page (hv : v / pageSize = page) :
    lastEntry s.vm.mm r v = lastEntry s.vm.mm r (page * pageSize) :=
  lastEntry_eq (hv.trans (page_mul_div page).symm)

/-- What a byte of the process says about its page. -/
theorem OwnByte.stackPage (h : OwnByte s r v phys) :
    StackPage s r (v / pageSize) ∧ phys = frameOf s r (v / pageSize) * pageSize + v % pageSize := by
  obtain ⟨e, he⟩ := h.user
  have hentry := (lastEntry_page rfl).symm.trans he
  have hphys := h.here.symm.trans (mmuVirtToPhys_eq hentry rfl)
  have hframe : phys / pageSize = frameOf s r (v / pageSize) := by
    rw [hphys]
    unfold pageSize
    omega
  refine ⟨⟨by simp [hentry], ?_, hframe ▸ h.notZero, fun r' hsharer => ?_⟩, hphys⟩
  · obtain ⟨a, ha, hw⟩ := h.area
    rw [pageAlignDown] at ha
    simpa [ha] using hw
  · by_contra hne
    obtain ⟨hspace, page, e', u, he', hf, hcow⟩ := hsharer
    -- the same byte of the frame, in the other space
    have hin : (page * pageSize + v % pageSize) / pageSize = page := by
      unfold pageSize
      omega
    refine h.unseen r' (page * pageSize + v % pageSize) e' u hne hspace
      ((lastEntry_page hin).trans he') ?_ hcow
    rw [mmuVirtToPhys_eq he' hin, hf, hphys]
    unfold pageSize
    omega

/-- And what the page says about its bytes. -/
theorem StackPage.ownByte (h : StackPage s r (v / pageSize)) (hv : v < 2 ^ 47)
    (hphys : phys = frameOf s r (v / pageSize) * pageSize + v % pageSize) :
    OwnByte s r v phys := by
  obtain ⟨⟨e, u⟩, hentry, huser⟩ := (any_eq_true _ _).1 h.entry
  obtain rfl : u = true := huser
  obtain ⟨a, ha, hw⟩ := (any_eq_true _ _).1 h.area
  have hframe : phys / pageSize = frameOf s r (v / pageSize) := by
    rw [hphys]
    unfold pageSize
    omega
  refine ⟨hv, (mmuVirtToPhys_eq hentry rfl).trans hphys.symm, ⟨e,
      (lastEntry_page rfl).trans hentry⟩,
    ⟨a, ha, of_decide_eq_true hw⟩, hframe.symm ▸ h.frame, ?_⟩
  intro r' v' e' u hne hspace hentry' hsame hcow
  have hentry'' := (lastEntry_page rfl).symm.trans hentry'
  have hf : frameOf s r' (v' / pageSize) = frameOf s r (v / pageSize) := by
    rw [← hframe, ← hsame, mmuVirtToPhys_eq hentry'' rfl]
    unfold pageSize
    omega
  exact hne (h.sole r' ⟨hspace, v' / pageSize, e', u, hentry'', hf, hcow⟩)

/-- The bytes of the return address belong to the process exactly if the stack is safe. -/
theorem ownBytes_iff : (∀ k < 8, OwnByte s r (rsp + k) (mmuVirtToPhys s.vm.mm r rsp + k)) ↔
    StackSafe s r rsp := by
  constructor
  · intro h
    obtain ⟨hfirst, hphys⟩ := (h 0 (by decide)).stackPage
    simp only [Nat.add_zero] at hfirst hphys
    refine ⟨?_, hfirst, fun hcross => ?_⟩
    · have hlast := (h 7 (by decide)).lower
      omega
    · obtain ⟨hsecond, hphys'⟩ := (h 7 (by decide)).stackPage
      have hpage : (rsp + 7) / pageSize = rsp / pageSize + 1 := by
        unfold pageSize at *
        omega
      rw [hpage] at hsecond hphys'
      refine ⟨hsecond, ?_⟩
      unfold pageSize at *
      omega
  · intro h k hk
    obtain ⟨⟨e, u⟩, hentry, -⟩ := (any_eq_true _ _).1 h.first.entry
    have hlower := h.lower
    have hphys := mmuVirtToPhys_eq hentry rfl
    -- eight bytes touch two pages at most
    by_cases hpage : (rsp + k) / pageSize = rsp / pageSize
    · refine StackPage.ownByte (hpage ▸ h.first) (by omega) ?_
      rw [hpage, hphys]
      unfold pageSize at *
      omega
    · have hnext : (rsp + k) / pageSize = rsp / pageSize + 1 := by
        unfold pageSize at *
        omega
      obtain ⟨hsecond, hframe⟩ := h.second (by unfold pageSize at *; omega)
      refine StackPage.ownByte (hnext ▸ hsecond) (by omega) ?_
      rw [hnext, hframe, hphys]
      unfold pageSize at *
      omega

end

/-! ## The delivery -/

/-- Where the word of an installed handler went. -/
theorem installed_spec {vm vm' : Vm} {regs regs' : Regs} {p p' : SigProc}
    (h : syscallMaybeDeliverSignal vm regs p = .installed p' regs' vm') :
    vm'.data = storeWord vm.data (mmuVirtToPhys vm.mm p.pml4 (newRsp regs).toNat) regs.rip := by
  have hreset : ∀ (q : SigProc) (n : ℕ), (resetHandler q n).pml4 = q.pml4 := by
    intro q n
    unfold resetHandler
    split <;> rfl
  unfold syscallMaybeDeliverSignal at h
  split at h
  · cases h
  split at h
  · cases h
  dsimp only at h
  split at h
  · cases h
  split at h
  · cases h
  split at h
  · cases h
  split at h
  · cases h
  split at h
  · cases h
  cases h
  dsimp only
  rw [hreset]

/-- A process with a handler for signal 10, which is pending. -/
def handling : SigProc where
  isUser := true
  signalPending := 1#64 <<< 10
  signalMask := 0
  signalHandlers := fun _ => 0x500000
  signalActionMask := fun _ => 0
  signalActionFlags := fun _ => 0
  pml4 := 1048577

/-- It comes back to user mode with the given stack pointer. -/
def returning (rsp : BitVec 64) : Regs := ⟨0x7F7F00600001, rsp, 0, 0x23⟩

/-- What a test finds after a delivery at the end of a run from the start of the system. -/
def delivered (calls : List VmmCall) (rsp : BitVec 64) (test : Machine → Vm → Bool) : Bool :=
  (bootVm.bind fun vm => vmmRun 0 ⟨vm, fun _ => none⟩ calls).any fun s =>
    match syscallMaybeDeliverSignal s.vm (returning rsp) handling with
    | .installed _ _ vm' => test s vm'
    | _ => false

theorem exists_of_delivered {calls : List VmmCall} {rsp : BitVec 64} {test : Machine → Vm → Bool}
    (h : delivered calls rsp test = true) :
    ∃ s₀ s p' regs' vm', (vmmSystem 0).init s₀ ∧ vmmRun 0 s₀ calls = some s ∧
      syscallMaybeDeliverSignal s.vm (returning rsp) handling = .installed p' regs' vm' ∧
      test s vm' = true := by
  obtain ⟨vm, hboot, hinit⟩ := init_boot
  rw [delivered, hboot, bind_some] at h
  obtain ⟨s, hrun, htest⟩ := (any_eq_true _ _).1 h
  split at htest
  next p' regs' vm' hdeliver => exact ⟨_, s, p', regs', vm', hinit, hrun, hdeliver, htest⟩
  next => cases htest

def stackCalls : List VmmCall :=
  [.create 0 true, .map 1048577 true 0x400000 0x2000 (mmuProtRead ||| mmuProtWrite) 0 none 0]

/-- The page of the stack was only read: the word goes into the zero page. -/
def readCalls : List VmmCall := stackCalls ++ [.fault 0 1048577 0x400000 0 none]

/-- Both pages of the stack were written, the second one first. -/
def crossCalls : List VmmCall :=
  stackCalls ++ [.fault 0 1048577 0x401000 faultWrite none,
    .fault 0 1048577 0x400000 faultWrite none]

end BoredOS.Sys.SignalFrame
