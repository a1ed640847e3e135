import BoredOS.Net.Datagram
import BoredOS.Net.UnixSocket.Model
import BoredOS.Sys.Descriptors.Model

/-!
# Sending on Unix Domain Sockets

`unix_socket_send` of `net/unix_socket.c`: descriptors are queued at the peer, the data is copied
into a packet, and the packet is appended to the receive buffer of the peer.

The descriptors are queued before there is a packet and nothing takes them out again, a full queue
drops the rest of them, and the packet is made for the low 16 bits of the length while all bytes are
copied.
-/

namespace BoredOS.Net.UnixSocket

open Function List Nat
open Sys.Descriptors (Ref Fds maxProcessFds)

/-- `passed_kinds`, `passed_objs` and `passed_flags` of one descriptor. -/
structure Passed where
  ref : Ref
  flags : BitVec 32

/-- The blocks, the receive buffers of their sockets, the descriptors queued at them, and the
reference counters. -/
structure SendState where
  unix : UnixState
  rx : ℕ → RxBuf
  passed : ℕ → List Passed
  refs : Ref → ℕ

/-- `fds` and `fd_flags` of the calling process. -/
structure Sender where
  fds : Fds
  fdFlags : Fin maxProcessFds → BitVec 32

/-- What a number in `pass_fds` stands for, if it is that of a used slot. -/
def Sender.lookup (c : Sender) (fd : Int) : Option Passed :=
  if fd < 0 then none
  else if h : fd.toNat < maxProcessFds then
    (c.fds ⟨fd.toNat, h⟩).map fun ref => ⟨ref, c.fdFlags ⟨fd.toNat, h⟩⟩
  else none

/-- The loop over `pass_fds`, which ends when the queue is full. -/
def queueFds (c : Sender) : List Int → List Passed → (Ref → ℕ) → List Passed × (Ref → ℕ)
  | [], queue, refs => (queue, refs)
  | fd :: rest, queue, refs =>
    if queue.length < 16 then
      match c.lookup fd with
      | none => queueFds c rest queue refs
      | some p => queueFds c rest (queue ++ [p]) (update refs p.ref (refs p.ref + 1))
    else (queue, refs)

/-- `peer_unp` of the block `u`. -/
def peerUnp (s : SendState) (u : ℕ) (destPath : Option (List (BitVec 8))) : Option ℕ :=
  (s.unix.unps u).bind fun unp => sendTarget s.unix unp destPath

/-- What a call leaves, its result, and the number of bytes that it wrote behind the packet. -/
structure Sent where
  state : SendState
  ret : Int
  overrun : ℕ

section

variable (pbufMem entryMem : Bool) (c : Sender) (s : SendState) (u : ℕ) (data : List (BitVec 8))
  (pass : List Int) (destPath : Option (List (BitVec 8)))

/-- `unix_socket_send`; `pbufMem` and `entryMem` tell whether the packet and its entry in the
receive buffer find memory. -/
def unixSocketSend : Sent :=
  match peerUnp s u destPath with
  | none => ⟨s, -1, 0⟩
  | some b =>
    let (queue, refs) := queueFds c pass (s.passed b) s.refs
    let s := { s with passed := update s.passed b queue, refs := refs }
    if pbufMem = false then ⟨s, -1, 0⟩
    else
      -- room for `(u16_t)len` bytes, and a copy of `len` bytes
      let p : Packet := ⟨data.take (data.length % 2 ^ 16), 0, 0⟩
      let overrun := data.length - data.length % 2 ^ 16
      match (s.rx b).append entryMem p with
      | none => ⟨s, -2, overrun⟩
      | some rx => ⟨{ s with rx := update s.rx b rx }, (BitVec.ofNat 32 data.length).toInt, overrun⟩

/-- The descriptors that a call is asked to pass. -/
def validFds : List Passed := pass.filterMap c.lookup

/-- A call that fails changes nothing, in the sockets or in the memory behind its packet; one that
succeeds has appended the data and queued the descriptors, each with a reference. -/
structure SendAtomic (r : Sent) : Prop where
  failed : r.ret < 0 → r.state = s ∧ r.overrun = 0
  sent : 0 ≤ r.ret → r.ret = data.length ∧ r.overrun = 0 ∧ ∃ b, peerUnp s u destPath = some b ∧
    (r.state.rx b).queue.flatMap Packet.payload = (s.rx b).queue.flatMap Packet.payload ++ data ∧
    r.state.passed b = s.passed b ++ validFds c pass ∧
    ∀ x, r.state.refs x = s.refs x + ((validFds c pass).map Passed.ref).count x

/-- The packet for `len` bytes finds memory, and room in the receive buffer. -/
def Accepts (len : ℕ) (sb : RxBuf) : Prop :=
  pbufMem = true ∧ entryMem = true ∧ sb.cc + BitVec.ofNat 32 (len % 2 ^ 16) ≤ sb.hiwat
  deriving Decidable

/-- A packet that is made has all of the data. If it is accepted there is room for all descriptors,
and otherwise none is queued. -/
def SendSafe : Prop :=
  ∀ b, peerUnp s u destPath = some b → (pbufMem = true → data.length < 2 ^ 16) ∧
    if Accepts pbufMem entryMem data.length (s.rx b) then
      (validFds c pass).length ≤ 16 - (s.passed b).length
    else validFds c pass = [] ∨ 16 ≤ (s.passed b).length

end

variable {pbufMem entryMem : Bool} {c : Sender} {s : SendState} {u b : ℕ} {data : List (BitVec 8)}
  {pass : List Int} {destPath : Option (List (BitVec 8))}

/-- The loop queues the used slots for which there is room, with a reference each. -/
theorem queueFds_eq (queue : List Passed) (refs : Ref → ℕ) :
    queueFds c pass queue refs = (queue ++ (validFds c pass).take (16 - queue.length),
      fun x => refs x + (((validFds c pass).take (16 - queue.length)).map Passed.ref).count x) := by
  induction pass generalizing queue refs with
  | nil => simp [queueFds, validFds]
  | cons fd rest ih =>
    by_cases hroom : queue.length < 16
    · rw [queueFds, if_pos hroom]
      cases hfd : c.lookup fd with
      | none => simp [ih, validFds, hfd]
      | some p =>
        obtain ⟨n, hn⟩ : ∃ n, 16 - queue.length = n + 1 := ⟨15 - queue.length, by omega⟩
        have hn' : 16 - (queue ++ [p]).length = n := by
          rw [length_append, length_singleton]
          omega
        have hvalid : validFds c (fd :: rest) = p :: validFds c rest := by simp [validFds, hfd]
        simp only [ih, hn, hn', hvalid, take_succ_cons, map_cons, count_cons,
          append_assoc, singleton_append, update_apply]
        congr 1
        funext x
        by_cases hx : x = p.ref
        · simp [hx]
          omega
        · simp [hx, Ne.symm hx]
    · have hzero : 16 - queue.length = 0 := by omega
      simp [queueFds, hroom, hzero]

/-- The state after the descriptors were queued. -/
def queued (c : Sender) (s : SendState) (b : ℕ) (pass : List Int) : SendState :=
  { s with
    passed := update s.passed b (queueFds c pass (s.passed b) s.refs).1
    refs := (queueFds c pass (s.passed b) s.refs).2 }

/-- A packet that is not accepted leaves the descriptors behind, and what was written behind it. -/
theorem unixSocketSend_refused (hb : peerUnp s u destPath = some b)
    (h : ¬ Accepts pbufMem entryMem data.length (s.rx b)) :
    (unixSocketSend pbufMem entryMem c s u data pass destPath).ret < 0 ∧
      (unixSocketSend pbufMem entryMem c s u data pass destPath).state = queued c s b pass ∧
      (unixSocketSend pbufMem entryMem c s u data pass destPath).overrun =
        if pbufMem = true then data.length - data.length % 2 ^ 16 else 0 := by
  simp only [unixSocketSend, hb]
  by_cases hmem : pbufMem = false
  · simp [hmem, queued]
  · have hnone : (s.rx b).append entryMem ⟨data.take (data.length % 2 ^ 16), 0, 0⟩ = none := by
      refine if_pos ?_
      rw [length_take_of_le (mod_le _ _)]
      by_contra hroom
      simp only [not_or, BitVec.not_lt, Bool.not_eq_false] at hroom hmem
      exact h ⟨hmem, hroom⟩
    simp only [if_neg hmem, hnone]
    exact ⟨by decide, rfl, (if_pos (by simpa using hmem)).symm⟩

theorem unixSocketSend_accepted (hb : peerUnp s u destPath = some b)
    (h : Accepts pbufMem entryMem data.length (s.rx b)) :
    ∃ rx, rx.queue = (s.rx b).queue ++ [⟨data.take (data.length % 2 ^ 16), 0, 0⟩] ∧
      unixSocketSend pbufMem entryMem c s u data pass destPath =
        ⟨{ queued c s b pass with rx := update s.rx b rx }, (BitVec.ofNat 32 data.length).toInt,
          data.length - data.length % 2 ^ 16⟩ := by
  obtain ⟨rfl, rfl, hroom⟩ := h
  obtain ⟨rx, hrx, hqueue⟩ : ∃ rx, (s.rx b).append true
      ⟨data.take (data.length % 2 ^ 16), 0, 0⟩ = some rx ∧
      rx.queue = (s.rx b).queue ++ [⟨data.take (data.length % 2 ^ 16), 0, 0⟩] := by
    refine ⟨_, if_neg ?_, rfl⟩
    rw [length_take_of_le (mod_le _ _)]
    simpa using hroom
  refine ⟨rx, hqueue, ?_⟩
  simp only [unixSocketSend, hb, hrx]
  rfl

/-- Nothing is queued if there is nothing to queue, or no room. -/
theorem queued_eq_iff : queued c s b pass = s ↔
    validFds c pass = [] ∨ 16 ≤ (s.passed b).length := by
  have htake : (validFds c pass).take (16 - (s.passed b).length) = [] ↔
      validFds c pass = [] ∨ 16 ≤ (s.passed b).length := by
    rw [take_eq_nil_iff, Nat.sub_eq_zero_iff_le, or_comm]
  rw [← htake]
  constructor
  · intro h
    have hpassed := congrFun (congrArg SendState.passed h) b
    simpa [queued, queueFds_eq] using hpassed
  · intro h
    simp [queued, queueFds_eq, h]

/-- A send is atomic exactly if it is not one of the calls named above. -/
theorem unix_send_atomic_iff (pbufMem entryMem : Bool) (c : Sender) (s : SendState) (u : ℕ)
    (data : List (BitVec 8)) (pass : List Int) (destPath : Option (List (BitVec 8))) :
    SendAtomic c s u data pass destPath (unixSocketSend pbufMem entryMem c s u data pass destPath) ↔
      SendSafe pbufMem entryMem c s u data pass destPath := by
  cases hb : peerUnp s u destPath with
  | none =>
    refine iff_of_true ?_ (by simp [SendSafe, hb])
    simp only [unixSocketSend, hb]
    exact ⟨fun _ => ⟨rfl, rfl⟩, fun h => absurd h (by simp)⟩
  | some b =>
    simp only [SendSafe, hb, Option.some.injEq, forall_eq']
    split
    · rename_i hacc
      obtain ⟨rx, hqueue, hsend⟩ := @unixSocketSend_accepted _ _ c _ _ _ _ pass _ hb hacc
      rw [hsend]
      constructor
      · rintro ⟨hfailed, hsent⟩
        by_cases hneg : (BitVec.ofNat 32 data.length).toInt < 0
        · -- the packet is in the queue although the result is negative
          have hrx := congrArg List.length (congrArg RxBuf.queue
            (congrFun (congrArg SendState.rx (hfailed hneg).1) b))
          simp [hqueue] at hrx
        · obtain ⟨-, hover, b', hb', -, hpassed, -⟩ := hsent (by simpa using hneg)
          obtain rfl := Option.some.inj (hb.symm.trans hb')
          have hover' : data.length - data.length % 2 ^ 16 = 0 := hover
          refine ⟨fun _ => by omega, ?_⟩
          have hlen := congrArg List.length hpassed
          simp only [queued, queueFds_eq, update_self, length_append, length_take] at hlen
          omega
      · rintro ⟨hmade, hroom⟩
        have hlen : data.length < 2 ^ 16 := hmade hacc.1
        have hret : (BitVec.ofNat 32 data.length).toInt = data.length := by
          rw [BitVec.toInt_ofNat', Int.bmod_def]
          omega
        have htake : (validFds c pass).take (16 - (s.passed b).length) = validFds c pass :=
          take_of_length_le hroom
        rw [mod_eq_of_lt hlen, take_length] at hqueue
        rw [hret, mod_eq_of_lt hlen]
        refine ⟨fun hneg => absurd hneg (by simp), fun _ => ⟨rfl, ?_, b, hb, ?_, ?_, ?_⟩⟩
        · simp
        · simp [hqueue]
        · simp [queued, queueFds_eq, htake]
        · simp [queued, queueFds_eq, htake]
    · rename_i hacc
      obtain ⟨hneg, hstate, hover⟩ := @unixSocketSend_refused _ _ c _ _ _ _ pass _ hb hacc
      have hwhole : (unixSocketSend pbufMem entryMem c s u data pass destPath).overrun = 0 ↔
          (pbufMem = true → data.length < 2 ^ 16) := by
        rw [hover]
        split
        · simp_all
          omega
        · simp_all
      rw [← queued_eq_iff, ← hstate, ← hwhole]
      exact ⟨fun h => (h.failed hneg).symm,
        fun h => ⟨fun _ => h.symm, fun hpos => absurd hneg (by omega)⟩⟩

/-- Two connected sockets with empty buffers; every counter is one. -/
def connectedPair : SendState :=
  ⟨⟨fun u => if u < 2 then some { freshUnpcb 1 true with peer := some (1 - u), state := .connected }
    else none, []⟩, fun _ => ⟨0, 512 * 1024, []⟩, fun _ => [], fun _ => 1⟩

/-- A process with a file in slot 3. -/
def fileSender : Sender := ⟨fun i => if i.val = 3 then some ⟨.file, 7⟩ else none, fun _ => 0⟩

/-- A send for which there is no memory leaves a descriptor in the queue, with its reference. -/
theorem unix_send_not_atomic :
    (unixSocketSend false true fileSender connectedPair 0 [0] [3] none).ret = -1 ∧
      (unixSocketSend false true fileSender connectedPair 0 [0] [3] none).state.refs
        ⟨.file, 7⟩ = 2 ∧
      ¬ SendAtomic fileSender connectedPair 0 [0] [3] none
        (unixSocketSend false true fileSender connectedPair 0 [0] [3] none) := by
  refine ⟨rfl, by decide, fun h => ?_⟩
  have hrefs := congrFun (congrArg SendState.refs (h.failed (by decide)).1) ⟨.file, 7⟩
  exact absurd hrefs (by decide)

end BoredOS.Net.UnixSocket
