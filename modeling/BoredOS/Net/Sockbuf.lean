import Mathlib

/-!
# Socket Buffers

`net/sockbuf.c`: a queue of packet buffers with a bound on the bytes in it. A reader takes whole
packets from the front and at most one part of a packet, of which the rest stays at the front.
-/

namespace BoredOS.Net

open List Nat

/-- A packet buffer of lwIP with data in it; `tot_len` has 16 bits. -/
structure Pbuf where
  payload : List (BitVec 8)
  nonempty : payload ≠ []
  bound : payload.length < 2 ^ 16

namespace Pbuf

def totLen (p : Pbuf) : ℕ := p.payload.length

theorem totLen_pos (p : Pbuf) : 0 < p.totLen := length_pos_iff.2 p.nonempty

/-- `pbuf_free_header` of a part of the data. -/
def freeHeader (p : Pbuf) (n : ℕ) (h : n < p.totLen) : Pbuf where
  payload := p.payload.drop n
  nonempty := by
    rw [Ne, drop_eq_nil_iff]
    exact not_le.2 h
  bound := by
    rw [length_drop]
    exact lt_of_le_of_lt (sub_le ..) p.bound

end Pbuf

/-- An element of the queue, with the address that the packet came from. -/
structure SockbufEntry where
  p : Pbuf
  srcIp : BitVec 32
  srcPort : BitVec 16

/-- `sockbuf_t`: the bytes in the queue as the code counts them, the bound, and the queue. -/
structure Sockbuf where
  cc : BitVec 32
  hiwat : BitVec 32
  queue : List SockbufEntry

namespace Sockbuf

/-- `sockbuf_init`. -/
def init (hiwat : BitVec 32) : Sockbuf :=
  ⟨0, if hiwat ≠ 0 then hiwat else BitVec.ofNat 32 (512 * 1024), []⟩

def bytes (sb : Sockbuf) : List (BitVec 8) := sb.queue.flatMap fun entry => entry.p.payload

/-- The packet is within the bound; the sum is one of 32-bit words. -/
def Fits (sb : Sockbuf) (p : Pbuf) : Prop := sb.cc + BitVec.ofNat 32 p.totLen ≤ sb.hiwat
  deriving Decidable

/-- `sockbuf_append`; `mem` tells whether the entry finds memory. A packet that is not taken is left
to the caller. -/
def append (mem : Bool) (sb : Sockbuf) (p : Pbuf) (srcIp : BitVec 32) (srcPort : BitVec 16) :
    Sockbuf × Int :=
  if mem = false then (sb, -1)
  else if ¬ sb.Fits p then (sb, -1)
  else
    (⟨sb.cc + BitVec.ofNat 32 p.totLen, sb.hiwat, sb.queue ++ [⟨p, srcIp, srcPort⟩]⟩, 0)

/-- The count goes down by the bytes that were taken, and not below zero. -/
def uncount (cc : BitVec 32) (n : ℕ) : BitVec 32 :=
  if BitVec.ofNat 32 n ≤ cc then cc - BitVec.ofNat 32 n else 0

/-- The loop of `sockbuf_read`: what was taken, the queue and the count. The part of a packet is
copied through a buffer of 4096 bytes, and the loop ends there. -/
def dequeue : List SockbufEntry → ℕ → BitVec 32 → List (BitVec 8) × List SockbufEntry × BitVec 32
  | [], _, cc => ([], [], cc)
  | entry :: rest, wanted, cc =>
    if wanted = 0 then ([], entry :: rest, cc)
    else if h : entry.p.totLen ≤ wanted then
      let (taken, left, cc) := dequeue rest (wanted - entry.p.totLen) (uncount cc entry.p.totLen)
      (entry.p.payload ++ taken, left, cc)
    else
      let n := min wanted 4096
      (entry.p.payload.take n,
        { entry with p := entry.p.freeHeader n (by omega) } :: rest, uncount cc n)

/-- `sockbuf_read`, without `peek`: the buffer afterwards and the bytes that were copied; `null`
tells that there is no buffer to copy to. -/
def read (sb : Sockbuf) (null : Bool) (maxLen : ℕ) : Sockbuf × List (BitVec 8) :=
  if null = true ∨ maxLen = 0 then (sb, [])
  else
    let (taken, queue, cc) := dequeue sb.queue maxLen sb.cc
    (⟨cc, sb.hiwat, queue⟩, taken)

/-- `sockbuf_is_empty`. -/
def isEmpty (sb : Sockbuf) : Bool := sb.queue.isEmpty

/-! ## What the operations do to the bytes -/

/-- What is taken and what is left are the bytes of the queue, in their order. -/
theorem dequeue_bytes : ∀ (queue : List SockbufEntry) (wanted : ℕ) (cc : BitVec 32),
    (dequeue queue wanted cc).1 ++
        (dequeue queue wanted cc).2.1.flatMap (fun entry => entry.p.payload) =
      queue.flatMap fun entry => entry.p.payload := by
  intro queue
  induction queue with
  | nil => exact fun _ _ => rfl
  | cons entry rest ih =>
    intro wanted cc
    unfold dequeue
    split
    next => rfl
    next =>
      split
      next =>
        -- a whole packet: the loop goes on with the rest of the queue
        have hrest := ih (wanted - entry.p.totLen) (uncount cc entry.p.totLen)
        simp only [flatMap_cons, append_assoc, hrest]
      next =>
        simp only [flatMap_cons, Pbuf.freeHeader, ← append_assoc, take_append_drop]

theorem dequeue_ne_nil {queue : List SockbufEntry} {wanted : ℕ} (cc : BitVec 32)
    (hqueue : queue ≠ []) (hwanted : 0 < wanted) : (dequeue queue wanted cc).1 ≠ [] := by
  cases queue with
  | nil => exact absurd rfl hqueue
  | cons entry rest =>
    unfold dequeue
    rw [if_neg (by omega)]
    split
    next => exact append_ne_nil_of_left_ne_nil entry.p.nonempty _
    next hlt =>
      have hpos := entry.p.totLen_pos
      intro hnil
      have hlen := congrArg List.length hnil
      unfold Pbuf.totLen at hlt hpos
      rw [length_take, length_nil] at hlen
      omega

theorem dequeue_length : ∀ (queue : List SockbufEntry) (wanted : ℕ) (cc : BitVec 32),
    (dequeue queue wanted cc).1.length ≤ wanted := by
  intro queue
  induction queue with
  | nil => exact fun _ _ => zero_le _
  | cons entry rest ih =>
    intro wanted cc
    unfold dequeue
    split
    next => exact zero_le _
    next =>
      split
      next hle =>
        have hrest := ih (wanted - entry.p.totLen) (uncount cc entry.p.totLen)
        simp only [length_append]
        unfold Pbuf.totLen at hle hrest ⊢
        omega
      next =>
        simp only [length_take]
        omega

end Sockbuf

end BoredOS.Net
