import BoredOS.Net.Datagram
import BoredOS.Net.UnixSocket.Model
import BoredOS.Sys.Pipe

/-!
# End of Stream

What `fs_cmd_read` returns for a pipe and for a unix domain socket that have no data. A reader takes
0 as the end of the stream. A pipe returns it also if it is only empty, and a socket that has no
peer, if it was never connected.
-/

namespace BoredOS.Sys

open Net Net.UnixSocket List

/-- The sockets and the receive buffer of the socket `u` at one moment. -/
structure Moment (u : ℕ) where
  sockets : UnixState
  unp : Unpcb
  rx : RxBuf
  live : sockets.unps u = some unp

namespace Moment

variable {u : ℕ}

def Drained (m : Moment u) : Prop := ∀ p ∈ m.rx.queue, p.payload = []

/-- The peer of a stream socket has been closed: no block sends to this one. -/
def PeerClosed (m : Moment u) : Prop :=
  m.unp.type = 1 ∧ m.unp.state = .connected ∧ ∀ v y, m.sockets.unps v = some y → y.peer ≠ some u

/-- The test of `unix_socket_recv` for a connection that is closed. -/
def LooksClosed (m : Moment u) : Prop :=
  m.unp.state = .closed ∨ (m.unp.peer = none ∧ m.unp.state ≠ .listening)

instance (m : Moment u) : Decidable m.LooksClosed := inferInstanceAs (Decidable (_ ∨ _))

end Moment

/-- What one turn of the call meets. The lock of a receive buffer is released between the test for
data and `sockbuf_read`: other readers may come first. -/
inductive Turn where
  | pipe (writers : Int) (pipe : Pipe)
  | socket (u : ℕ) (test read : Moment u)

namespace Turn

/-- One turn of a read of `len` bytes; there is no result if the call waits. -/
def recv (nonblock : Bool) (len : ℕ) : Turn → Option Int
  | .pipe writers p => some (p.fsCmdRead writers nonblock len).2.2
  | .socket _ test read =>
    if test.rx.queue = [] then
      if test.LooksClosed then some 0 else if nonblock = true then some (-2) else none
    else some (RxBuf.readLoop read.rx.queue len read.rx.cc).1.length

/-- No data is buffered when the turn ends. -/
def Drained : Turn → Prop
  | .pipe _ p => p.count = 0
  | .socket _ test read => if test.rx.queue = [] then test.Drained else read.Drained

/-- No data can arrive any more. -/
def Cut : Turn → Prop
  | .pipe writers _ => writers = 0
  | .socket _ test read => if test.rx.queue = [] then test.PeerClosed else read.PeerClosed

/-- A turn that does not take a stream for ended: a pipe has data, or no writers, or a reader that
does not wait; a socket without data that looks closed is, and what the test found is not gone. -/
def Plain (nonblock : Bool) : Turn → Prop
  | .pipe writers p => p.count ≠ 0 ∨ writers = 0 ∨ nonblock = true
  | .socket _ test read =>
    if test.rx.queue = [] then test.LooksClosed → test.PeerClosed
    else ¬ read.Drained ∨ read.PeerClosed

end Turn

/-- `fs_cmd_read` on a pipe or a unix domain socket: the result, and the turn that it comes from. -/
def fsCmdRead (nonblock : Bool) (len : ℕ) : List Turn → Option (Int × Turn)
  | [] => none
  | t :: rest =>
    match t.recv nonblock len with
    | none => fsCmdRead nonblock len rest
    | some ret => some (ret, t)

/-- Zero is the end of the stream, and a stream that has not ended would block. -/
def ZeroIsEnd (ret : Int) (t : Turn) : Prop :=
  (ret = 0 → t.Drained ∧ t.Cut) ∧ (t.Drained → ¬ t.Cut → ret = -2)

/-! ## One turn -/

variable {len : ℕ}

theorem readLoop_eq_nil_iff (hlen : 0 < len) (queue : List Packet) (cc : BitVec 32) :
    (RxBuf.readLoop queue len cc).1 = [] ↔ ∀ p ∈ queue, p.payload = [] := by
  induction queue generalizing cc with
  | nil => simp [RxBuf.readLoop]
  | cons p rest ih =>
    unfold RxBuf.readLoop
    rw [if_neg hlen.ne', forall_mem_cons]
    split
    next =>
      rw [append_eq_nil_iff]
      refine and_congr_right fun hempty => ?_
      -- an empty packet leaves as much room as there was
      rw [hempty, length_nil, Nat.sub_zero]
      exact ih _
    next hlong =>
      have hne : p.payload ≠ [] := fun h => hlong (by simp [h])
      simp only [take_eq_nil_iff, hne, or_false, false_and, iff_false]
      omega

theorem pipe_read_eq_zero {pipe : Pipe} (hlen : 0 < len) (writers : Int)
    (nonblock : Bool) (hzero : (pipe.fsCmdRead writers nonblock len).2.2 = 0) : pipe.count = 0 := by
  obtain ⟨hbytes, hret, hshort⟩ := Pipe.readLoop_spec writers nonblock pipe [] len
  unfold Pipe.fsCmdRead at hzero
  rw [hzero] at hret hshort
  have hend := hshort (by simpa using hlen)
  have hcount := congrArg List.length hbytes
  simp only [Pipe.contents, nil_append, length_append, length_map,
    length_range, hend, ← hret] at hcount
  simpa using hcount

theorem pipe_read_of_empty {pipe : Pipe} (hlen : 0 < len) (writers : Int)
    (nonblock : Bool) (hempty : pipe.count = 0) :
    (pipe.fsCmdRead writers nonblock len).2.2 =
      if writers ≠ 0 ∧ nonblock = true then -2 else 0 := by
  obtain ⟨n, rfl⟩ := Nat.exists_eq_succ_of_ne_zero hlen.ne'
  simp [Pipe.fsCmdRead, Pipe.readLoop, hempty]

theorem Turn.zeroIsEnd_iff {nonblock : Bool} (hlen : 0 < len) {t : Turn} {ret : Int}
    (h : t.recv nonblock len = some ret) : ZeroIsEnd ret t ↔ t.Plain nonblock := by
  cases t with
  | pipe writers pipe =>
    cases h
    by_cases hempty : pipe.count = 0
    -- the writers and the flag decide what an empty pipe returns
    · rw [pipe_read_of_empty hlen writers nonblock hempty]
      by_cases hw : writers = 0 <;> cases nonblock <;>
        simp [ZeroIsEnd, Turn.Plain, Turn.Drained, Turn.Cut, hempty, hw]
    · have hne : (pipe.fsCmdRead writers nonblock len).2.2 ≠ 0 :=
        fun hzero => hempty (pipe_read_eq_zero hlen writers nonblock hzero)
      simp [ZeroIsEnd, Turn.Plain, Turn.Drained, hempty, hne]
  | socket u test read =>
    simp only [Turn.recv] at h
    simp only [ZeroIsEnd, Turn.Plain, Turn.Drained, Turn.Cut]
    split at h
    next hempty =>
      have hdrained : test.Drained := by simp [Moment.Drained, hempty]
      by_cases hlooks : test.LooksClosed
      · rw [if_pos hlooks] at h
        cases h
        simp [hempty, hlooks, hdrained]
      · rw [if_neg hlooks] at h
        split at h
        next =>
          cases h
          simp [hempty, hlooks]
        next => cases h
    next hsome =>
      cases h
      -- data was there at the test; what is read is what is left of it
      have hzero : ((RxBuf.readLoop read.rx.queue len read.rx.cc).1.length : Int) = 0 ↔
          read.Drained := by
        rw [Int.natCast_eq_zero, length_eq_zero_iff, readLoop_eq_nil_iff hlen]
        rfl
      rw [if_neg hsome, if_neg hsome, if_neg hsome, hzero]
      by_cases hdrained : read.Drained <;> by_cases hcut : read.PeerClosed <;>
        simp [hdrained, hcut]

/-! ## The call -/

/-- The result of a read is 0 only at the end of the stream if and only if the turn that it comes
from is one of those that tell an end from an empty buffer. -/
theorem zero_is_end_iff_plain {nonblock : Bool} {len : ℕ} {turns : List Turn} {ret : Int} {t : Turn}
    (hlen : 0 < len) (h : fsCmdRead nonblock len turns = some (ret, t)) :
    ZeroIsEnd ret t ↔ t.Plain nonblock := by
  induction turns with
  | nil => cases h
  | cons first rest ih =>
    unfold fsCmdRead at h
    cases hrecv : first.recv nonblock len with
    | none =>
      rw [hrecv] at h
      exact ih h
    | some =>
      rw [hrecv] at h
      cases h
      exact Turn.zeroIsEnd_iff hlen hrecv

theorem zero_is_end_of_closed_pipe : fsCmdRead false 1 [.pipe 0 .empty] = some (0, .pipe 0 .empty) ∧
      (ZeroIsEnd 0 (.pipe 0 .empty) ↔ (Turn.pipe 0 .empty).Plain false) := by
  have hread : fsCmdRead false 1 [.pipe 0 .empty] = some (0, .pipe 0 .empty) := rfl
  exact ⟨hread, zero_is_end_iff_plain Nat.one_pos hread⟩

/-- A datagram socket after `bind`. -/
def boundSocket : Moment 0 where
  sockets := (unixSocketBind (unixSocketCreate true ⟨fun _ => none, []⟩ 0 2).1 0
    (freshUnpcb 2 true) [47]).1
  unp := { freshUnpcb 2 true with path := [47], state := .bound, wasBound := true }
  rx := ⟨0, 524288, []⟩
  live := rfl

/-- A new pipe returns 0 although it has a writer, and so does a datagram socket that is bound,
although others can send to its path. -/
theorem zero_before_end : ((fsCmdRead false 1 [.pipe 1 .empty]).map Prod.fst = some 0 ∧
      ¬ ZeroIsEnd 0 (.pipe 1 .empty)) ∧
    ((unixStep ⟨fun _ => none, []⟩ (.create true 0 2)).bind fun s => unixStep s (.bind 0 [47])) =
      some boundSocket.sockets ∧
    sendTarget boundSocket.sockets (freshUnpcb 2 true) (some [47]) = some 0 ∧
    (fsCmdRead true 1 [.socket 0 boundSocket boundSocket]).map Prod.fst = some 0 ∧
      ¬ ZeroIsEnd 0 (.socket 0 boundSocket boundSocket) := by
  refine ⟨⟨rfl, fun h => ?_⟩, rfl, rfl, rfl, fun h => ?_⟩
  · exact absurd (h.1 rfl).2 (show ¬ (1 : Int) = 0 by decide)
  · have hcut := (h.1 rfl).2
    simp [Turn.Cut, boundSocket, Moment.PeerClosed, freshUnpcb] at hcut

end BoredOS.Sys
