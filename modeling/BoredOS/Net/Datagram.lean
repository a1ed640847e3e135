import BoredOS.Lib.Transition
import BoredOS.Net.Sockbuf

/-!
# Datagrams

The receive buffer of a socket for datagrams, which may be empty: `sockbuf_append`, `sockbuf_read`
without `peek`, and the two receivers of `handle_sys_recvfrom`, `network_socket_recvfrom` and
`unix_socket_recv`. The reader is the one of streams (`Sockbuf.dequeue`): it goes on with the next
packet while there is room, and leaves the rest of a packet that is too long in the queue. A unix
socket reports no source. `datagrams_of_safe_run` says when a call still hands out one datagram.
-/

namespace BoredOS.Net

open Lib.Transition List Nat

/-- A packet in a receive buffer, with the address that it came from. -/
structure Packet where
  payload : List (BitVec 8)
  srcIp : BitVec 32
  srcPort : BitVec 16
  deriving DecidableEq

/-- `rx_sb` of a socket. -/
structure RxBuf where
  cc : BitVec 32
  hiwat : BitVec 32
  queue : List Packet
  deriving DecidableEq

namespace RxBuf

/-- `sockbuf_append`; `mem` tells whether the entry finds memory. -/
def append (mem : Bool) (sb : RxBuf) (p : Packet) : Option RxBuf :=
  if mem = false ∨ sb.hiwat < sb.cc + BitVec.ofNat 32 p.payload.length then none
  else some ⟨sb.cc + BitVec.ofNat 32 p.payload.length, sb.hiwat, sb.queue ++ [p]⟩

/-- The loop of `sockbuf_read`: what was taken, the queue and the count. -/
def readLoop : List Packet → ℕ → BitVec 32 → List (BitVec 8) × List Packet × BitVec 32
  | [], _, cc => ([], [], cc)
  | p :: rest, wanted, cc =>
    if wanted = 0 then ([], p :: rest, cc)
    else if p.payload.length ≤ wanted then
      let (taken, left, cc) :=
        readLoop rest (wanted - p.payload.length) (Sockbuf.uncount cc p.payload.length)
      (p.payload ++ taken, left, cc)
    else
      let n := min wanted 4096
      (p.payload.take n, { p with payload := p.payload.drop n } :: rest, Sockbuf.uncount cc n)

/-- `sockbuf_read` into a buffer of `maxLen` bytes: the bytes, and the source of the first packet.
An empty buffer is waited for. -/
def read (sb : RxBuf) (maxLen : ℕ) : Option (RxBuf × Packet) :=
  match sb.queue with
  | [] => none
  | first :: _ =>
    let (taken, queue, cc) := readLoop sb.queue maxLen sb.cc
    some (⟨cc, sb.hiwat, queue⟩, ⟨taken, first.srcIp, first.srcPort⟩)

end RxBuf

/-! ## Receivers -/

/-- What a call writes into the caller's buffer and, if it does, into `src_addr`. -/
structure Received where
  payload : List (BitVec 8)
  source : Option (BitVec 32 × BitVec 16)
  deriving DecidableEq

/-- The two domains with datagrams. -/
inductive Domain where
  | inet
  | unix
  deriving DecidableEq

/-- The part of `handle_sys_recvfrom` for datagrams, once there is one: `unix_socket_recv` asks
`sockbuf_read` for no source, and nothing is written into `src_addr` after it. -/
def recvfromDatagram (domain : Domain) (sb : RxBuf) (maxLen : ℕ) : Option (RxBuf × Received) :=
  (sb.read maxLen).map fun r => match domain with
    | .inet => (r.1, ⟨r.2.payload, some (r.2.srcIp, r.2.srcPort)⟩)
    | .unix => (r.1, ⟨r.2.payload, none⟩)

/-- A receiver and what its calls returned. -/
structure Receiver where
  domain : Domain
  rx : RxBuf
  got : List Received
  deriving DecidableEq

inductive DatagramEvent where
  | arrive (mem : Bool) (p : Packet)
  | receive (maxLen : ℕ)

/-- A datagram is appended, or a call with room for some bytes returns. -/
def datagramStep (s : Receiver) : DatagramEvent → Option Receiver
  | .arrive mem p => (s.rx.append mem p).map fun rx => { s with rx := rx }
  | .receive maxLen =>
    if maxLen = 0 then none
    else (recvfromDatagram s.domain s.rx maxLen).map fun r => ⟨s.domain, r.1, s.got ++ [r.2]⟩

def datagramSystem : System Receiver DatagramEvent where
  init s := s.rx.queue = [] ∧ s.got = []
  step s e s' := datagramStep s e = some s'

/-- The datagram as a call with room for `maxLen` bytes returns it. -/
def Packet.truncate (p : Packet) (maxLen : ℕ) : Received :=
  ⟨p.payload.take maxLen, some (p.srcIp, p.srcPort)⟩

/-- What is wanted: the datagrams that wait, and what the calls return. -/
def deliver (q : List Packet × List Received) : DatagramEvent → List Packet × List Received
  | .arrive _ p => (q.1 ++ [p], q.2)
  | .receive maxLen =>
    match q.1 with
    | [] => q
    | p :: rest => (rest, q.2 ++ [p.truncate maxLen])

/-- The oldest datagram has room, and the call ends with it. -/
def OneDatagram (queue : List Packet) (maxLen : ℕ) : Prop :=
  match queue with
  | [] => True
  | p :: rest => p.payload.length ≤ maxLen ∧ (rest = [] ∨ p.payload.length = maxLen)

/-- The socket is not a unix one, and every call ends with the oldest datagram. -/
def DatagramSafe (s : Receiver) : DatagramEvent → Prop
  | .arrive _ _ => True
  | .receive maxLen => s.domain = .inet ∧ OneDatagram s.rx.queue maxLen

variable {s s' : Receiver} {p : Packet} {rest : List Packet} {maxLen : ℕ} {cc : BitVec 32}

namespace RxBuf

@[simp] theorem readLoop_zero (queue : List Packet) : readLoop queue 0 cc = ([], queue, cc) := by
  cases queue <;> simp [readLoop]

theorem readLoop_length (queue : List Packet) :
    (readLoop queue maxLen cc).2.1.length ≤ queue.length := by
  induction queue generalizing maxLen cc with
  | nil => exact le_refl _
  | cons p queue ih =>
    unfold readLoop
    split
    next => exact le_refl _
    next =>
      split
      next => exact le_succ_of_le ih
      next => simp

/-- A reader with room takes packets from a queue or a part of one. -/
theorem readLoop_ne (hrest : rest ≠ []) (hpos : 0 < maxLen) :
    (readLoop rest maxLen cc).2.1 ≠ rest := by
  cases rest with
  | nil => exact absurd rfl hrest
  | cons p rest =>
    unfold readLoop
    rw [if_neg (ne_of_gt hpos)]
    intro heq
    split at heq
    next =>
      have hle := @readLoop_length (maxLen - p.payload.length)
        (Sockbuf.uncount cc p.payload.length) rest
      exact not_succ_le_self _ (le_trans (le_of_eq (congrArg length heq).symm) hle)
    next hlong =>
      have hdrop : p.payload.length - min maxLen 4096 = p.payload.length := by
        simpa using congrArg (fun q => (q.map fun x => x.payload.length).headD 0) heq
      omega

/-- A call returns the oldest datagram and leaves the others exactly if it ends with it. -/
theorem readLoop_exact_iff (hpos : 0 < maxLen) :
    ((readLoop (p :: rest) maxLen cc).1 = p.payload.take maxLen ∧
      (readLoop (p :: rest) maxLen cc).2.1 = rest) ↔ OneDatagram (p :: rest) maxLen := by
  unfold readLoop OneDatagram
  rw [if_neg (ne_of_gt hpos)]
  split
  next hle =>
    simp only [hle, true_and, take_of_length_le hle]
    by_cases hrest : rest = []
    · simp [hrest, readLoop]
    · by_cases hfull : p.payload.length = maxLen
      · simp [hfull]
      · simp only [hrest, hfull, or_self, iff_false, not_and]
        exact fun _ => readLoop_ne hrest (by omega)
  next hlong =>
    refine iff_of_false (fun h => ?_) fun h => hlong h.1
    exact absurd h.2 (cons_ne_self _ _)

end RxBuf

/-- One call, from any state. -/
theorem receive_exact_iff (hqueue : s.rx.queue = p :: rest) (hpos : 0 < maxLen) :
    (∃ s'', datagramStep s (.receive maxLen) = some s'' ∧
      (s''.rx.queue, s''.got) = deliver (s.rx.queue, s.got) (.receive maxLen)) ↔
      DatagramSafe s (.receive maxLen) := by
  rw [DatagramSafe, hqueue, ← @RxBuf.readLoop_exact_iff p rest maxLen s.rx.cc hpos]
  cases hdomain : s.domain with
  | inet =>
    simp [datagramStep, recvfromDatagram, RxBuf.read, hqueue, hdomain, deliver, Packet.truncate,
      ne_of_gt hpos, and_comm]
  | unix =>
    -- there is no source in what the call returns
    simp [datagramStep, recvfromDatagram, RxBuf.read, hqueue, hdomain, deliver, Packet.truncate,
      ne_of_gt hpos]

/-- As long as every call is one of an internet socket and ends with the oldest datagram, the
datagrams are handed out one by one; and a further call hands out the oldest one, with its source,
exactly if it is such a call. -/
theorem datagrams_of_safe_run {es : List DatagramEvent}
    (hrun : datagramSystem.Trace DatagramSafe s es s') :
    (s'.rx.queue, s'.got) = es.foldl deliver (s.rx.queue, s.got) ∧
      ∀ p rest maxLen, s'.rx.queue = p :: rest → 0 < maxLen →
        ((∃ s'', datagramStep s' (.receive maxLen) = some s'' ∧
          (s''.rx.queue, s''.got) = deliver (s'.rx.queue, s'.got) (.receive maxLen)) ↔
          s'.domain = .inet ∧ OneDatagram s'.rx.queue maxLen) := by
  refine ⟨?_, fun p rest maxLen hqueue hpos => receive_exact_iff hqueue hpos⟩
  refine (@System.Trace.simulates _ _ _ _ _ (fun _ => True) (fun s => (s.rx.queue, s.got)) deliver
    ?_ _ _ _ trivial hrun).2
  intro s e s' _ hsafe hstep
  refine ⟨trivial, ?_⟩
  cases e with
  | arrive =>
    obtain ⟨rx, hrx, rfl⟩ := Option.map_eq_some_iff.1 hstep
    obtain ⟨-, hrx⟩ := Option.ite_none_left_eq_some.1 hrx
    cases hrx
    rfl
  | receive maxLen =>
    cases hqueue : s.rx.queue with
    | nil =>
      simp [datagramSystem, datagramStep, recvfromDatagram, RxBuf.read, hqueue] at hstep
    | cons p rest =>
      have hpos : 0 < maxLen := by
        by_contra hzero
        simp [datagramSystem, datagramStep, le_zero.1 (not_lt.1 hzero)] at hstep
      obtain ⟨s'', hstep', heq⟩ := (receive_exact_iff hqueue hpos).2 hsafe
      obtain rfl := Option.some.inj (hstep.symm.trans hstep')
      rw [heq, hqueue]

/-- Two datagrams for calls that end with them. -/
theorem datagrams_of_safe_run_two : ∃ s', datagramSystem.Trace DatagramSafe
      ⟨.inet, ⟨0, 64, []⟩, []⟩
      [.arrive true ⟨[1, 2], 7, 53⟩, .arrive true ⟨[3], 8, 53⟩, .receive 2, .receive 9] s' ∧
    (s'.rx.queue, s'.got) = ([], [⟨[1, 2], some (7, 53)⟩, ⟨[3], some (8, 53)⟩]) := by
  refine Exists.imp (fun _ hrun => ⟨hrun, (datagrams_of_safe_run hrun).1⟩) ?_
  exact ⟨_, _, trivial, rfl, _, trivial, rfl, _, ⟨rfl, by decide, .inr rfl⟩, rfl, _,
    ⟨rfl, by decide, .inl rfl⟩, rfl, rfl⟩

/-- One call returns two datagrams under the source of the first, two calls return one, and a unix
socket tells no source. -/
theorem datagram_boundaries_lost :
    [.arrive true ⟨[1], 7, 53⟩, .arrive true ⟨[2], 8, 53⟩, .receive 2].foldlM datagramStep
      ⟨.inet, ⟨0, 64, []⟩, []⟩ = some ⟨.inet, ⟨0, 64, []⟩, [⟨[1, 2], some (7, 53)⟩]⟩ ∧
    [.arrive true ⟨[1, 2], 7, 53⟩, .receive 1, .receive 1].foldlM datagramStep
      ⟨.inet, ⟨0, 64, []⟩, []⟩ =
        some ⟨.inet, ⟨0, 64, []⟩, [⟨[1], some (7, 53)⟩, ⟨[2], some (7, 53)⟩]⟩ ∧
    [.arrive true ⟨[1], 0, 0⟩, .receive 1].foldlM datagramStep ⟨.unix, ⟨0, 64, []⟩, []⟩ =
      some ⟨.unix, ⟨0, 64, []⟩, [⟨[1], none⟩]⟩ := by
  decide

end BoredOS.Net
