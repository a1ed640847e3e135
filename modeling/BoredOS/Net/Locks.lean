import Mathlib

/-!
# The Locks of the Network

Which of `network_lock` and the locks of the sockets the calls of `net/network.c` take, in order.
`network_socket_close` takes the lock of the socket while it holds `network_lock`, so the order that
all calls have to keep is `network_lock` first.

Three calls do not: closing a listener closes the queued clients and the callback for a new
connection closes a client that it cannot queue, both under `network_lock`, and `network_setsockopt`
takes `network_lock` under the lock of the socket (`lock_order_iff`).
-/

namespace BoredOS.Net.Locks

inductive Lock where
  | network
  | sock (id : ℕ)
  deriving DecidableEq

inductive LockOp where
  | acquire (l : Lock)
  | release (l : Lock)

/-! ## The calls -/

/-- A section under `network_lock`. -/
def networkSection (ops : List LockOp) : List LockOp :=
  .acquire .network :: ops ++ [.release .network]

/-- A section under the lock of a socket. -/
def sockSection (id : ℕ) (ops : List LockOp) : List LockOp :=
  .acquire (.sock id) :: ops ++ [.release (.sock id)]

/-- A connection that waits for `accept`; nothing waits at it. -/
structure Client where
  id : ℕ
  refs : ℕ

/-- `process_socket_release` of a client, and the `network_socket_close` in it. -/
def releaseClient (c : Client) : List LockOp :=
  if 1 < c.refs then [] else networkSection (sockSection c.id [])

def networkSocketClose (id : ℕ) (queue : List Client) : List LockOp :=
  networkSection (sockSection id [] ++ queue.flatMap releaseClient)

/-- `process_socket_release`; closing a Unix domain socket takes neither lock. -/
def processSocketRelease (id refs : ℕ) (isUnix : Bool) (queue : List Client) : List LockOp :=
  if 1 < refs ∨ isUnix = true then [] else networkSocketClose id queue

/-- A new connection, with `accept_queue_count` and `backlog_max` of the listener; `sockMem` and
`entryMem` tell whether the socket and the entry of the queue find memory. -/
structure Accept where
  listener : ℕ
  client : ℕ
  count : Int
  backlogMax : Int
  sockMem : Bool
  entryMem : Bool

/-- The client is put into the queue. -/
def Accept.Queued (a : Accept) : Prop :=
  (a.count < if 0 < a.backlogMax ∧ a.backlogMax ≤ 128 then a.backlogMax else 128) ∧
    a.entryMem = true
  deriving Decidable

/-- `tcp_socket_accept_callback` -/
def acceptCallback (a : Accept) : List LockOp :=
  if a.sockMem = false then []
  else sockSection a.listener [] ++ if a.Queued then [] else releaseClient ⟨a.client, 1⟩

/-- What `network_setsockopt` looks at. -/
structure SockOpt where
  level : Int
  optname : Int
  optlen : ℕ
  hasPcb : Bool
  type : ℕ

/-- The option is also set in the PCB: `SO_KEEPALIVE` of a TCP socket, or `TCP_NODELAY`. -/
def SockOpt.InPcb (o : SockOpt) : Prop :=
  4 ≤ o.optlen ∧ o.hasPcb = true ∧
    (o.level = 1 ∧ o.optname = 9 ∧ o.type = 1 ∨ o.level = 6 ∧ o.optname = 1)
  deriving Decidable

def networkSetsockopt (id : ℕ) (o : SockOpt) : List LockOp :=
  sockSection id (if o.InPcb then networkSection [] else [])

inductive NetCall where
  | close (id : ℕ) (queue : List Client)
  | release (id refs : ℕ) (isUnix : Bool) (queue : List Client)
  | setsockopt (id : ℕ) (o : SockOpt)
  /-- Sections of another call: each is a `network_process_frames` in which connections arrive, or
  takes no other lock. The other callbacks take no lock either. -/
  | sections (arrived : List (List Accept))

def NetCall.ops : NetCall → List LockOp
  | .close id queue => networkSocketClose id queue
  | .release id refs isUnix queue => processSocketRelease id refs isUnix queue
  | .setsockopt id o => networkSetsockopt id o
  | .sections arrived => arrived.flatMap fun as => networkSection (as.flatMap acceptCallback)

/-! ## The order -/

/-- The locks that are held after some operations. -/
def after (held : List Lock) (ops : List LockOp) : List Lock :=
  ops.foldl (fun held op => match op with
    | .acquire l => l :: held
    | .release l => held.erase l) held

/-- `network_lock` is taken only when no lock is held: not twice, and not under that of a socket. -/
def Ordered (held : List Lock) : List LockOp → Prop
  | [] => True
  | .acquire l :: ops => (l = .network → held = []) ∧ Ordered (l :: held) ops
  | .release l :: ops => Ordered (held.erase l) ops

/-- No client is closed under `network_lock`, and no option is set in a PCB. -/
def NetCall.Safe : NetCall → Prop
  | .close _ queue => ∀ c ∈ queue, 1 < c.refs
  | .release _ refs isUnix queue => (1 < refs ∨ isUnix = true) ∨ ∀ c ∈ queue, 1 < c.refs
  | .setsockopt _ o => ¬ o.InPcb
  | .sections arrived => ∀ as ∈ arrived, ∀ a ∈ as, a.sockMem = false ∨ a.Queued

variable {held : List Lock} {ops : List LockOp}

theorem after_append (a b : List LockOp) : after held (a ++ b) = after (after held a) b :=
  List.foldl_append

theorem ordered_append (a b : List LockOp) :
    Ordered held (a ++ b) ↔ Ordered held a ∧ Ordered (after held a) b := by
  induction a generalizing held with
  | nil => simp [Ordered, after]
  | cons op a ih => cases op <;> simp [Ordered, after, ih, and_assoc]

/-- Pieces that give back what they take are ordered one by one. -/
theorem flatMap_ordered {α : Type} {f : α → List LockOp} {P : α → Prop}
    (hf : ∀ x, after held (f x) = held ∧ (Ordered held (f x) ↔ P x)) (xs : List α) :
    after held (xs.flatMap f) = held ∧ (Ordered held (xs.flatMap f) ↔ ∀ x ∈ xs, P x) := by
  induction xs with
  | nil => simp [Ordered, after]
  | cons x xs ih =>
    rw [List.flatMap_cons, ordered_append, after_append, (hf x).1, (hf x).2, ih.2]
    exact ⟨ih.1, by simp⟩

theorem section_ordered {P : Prop}
    (h : after [.network] ops = [.network] ∧ (Ordered [.network] ops ↔ P)) :
    after [] (networkSection ops) = [] ∧ (Ordered [] (networkSection ops) ↔ P) := by
  have hafter : after [] (networkSection ops) = (after [.network] ops).erase .network :=
    @after_append [.network] ops _
  rw [hafter, h.1, ← h.2]
  refine ⟨rfl, ?_⟩
  simp [networkSection, Ordered, ordered_append]

theorem sockSection_ordered (id : ℕ) :
    after held (sockSection id []) = held ∧ Ordered held (sockSection id []) := by
  simp [sockSection, after, Ordered]

theorem releaseClient_ordered (c : Client) : after [.network] (releaseClient c) = [.network] ∧
      (Ordered [.network] (releaseClient c) ↔ 1 < c.refs) := by
  unfold releaseClient
  split
  next h => exact ⟨rfl, iff_of_true trivial h⟩
  next h =>
    refine ⟨?_, iff_of_false (fun ho => nomatch ho.1 rfl) h⟩
    simp [networkSection, sockSection, after]

theorem networkSocketClose_ordered (id : ℕ) (queue : List Client) :
    Ordered [] (networkSocketClose id queue) ↔ ∀ c ∈ queue, 1 < c.refs := by
  obtain ⟨hafter, hiff⟩ := flatMap_ordered releaseClient_ordered queue
  obtain ⟨hsock, hordered⟩ := @sockSection_ordered [.network] id
  refine (section_ordered ⟨?_, ?_⟩).2
  · rw [after_append, hsock, hafter]
  · rw [ordered_append, hsock, hiff, and_iff_right hordered]

theorem acceptCallback_ordered (a : Accept) : after [.network] (acceptCallback a) = [.network] ∧
      (Ordered [.network] (acceptCallback a) ↔ a.sockMem = false ∨ a.Queued) := by
  obtain ⟨hsock, hordered⟩ := @sockSection_ordered [.network] a.listener
  obtain ⟨hafter, hiff⟩ := releaseClient_ordered ⟨a.client, 1⟩
  unfold acceptCallback
  split
  next hmem => exact ⟨rfl, iff_of_true trivial (.inl hmem)⟩
  next hmem =>
    rw [after_append, ordered_append, hsock, and_iff_right hordered, or_iff_right hmem]
    split
    next hq => exact ⟨rfl, iff_of_true trivial hq⟩
    next hq =>
      rw [hiff]
      exact ⟨hafter, iff_of_false (Nat.lt_irrefl 1) hq⟩

/-- A call keeps the order exactly if it is not one of those that are named above. -/
theorem lock_order_iff (c : NetCall) : Ordered [] c.ops ↔ c.Safe := by
  cases c with
  | close id queue => exact networkSocketClose_ordered id queue
  | release id refs isUnix queue =>
    rw [NetCall.ops, NetCall.Safe, processSocketRelease]
    split
    next h => exact iff_of_true trivial (.inl h)
    next h => exact (networkSocketClose_ordered id queue).trans (or_iff_right h).symm
  | setsockopt id o =>
    rw [NetCall.ops, NetCall.Safe, networkSetsockopt]
    split
    next h => exact iff_of_false (fun ho => nomatch ho.2.1 rfl) (not_not.2 h)
    next h => exact iff_of_true (sockSection_ordered id).2 h
  | sections arrived =>
    exact (flatMap_ordered (fun as => section_ordered (flatMap_ordered acceptCallback_ordered as))
      arrived).2

/-- A listener is closed with a client in its queue, a connection arrives when the queue is full,
and an option of a connected socket is set. -/
theorem lock_order_broken : ¬ Ordered [] (networkSocketClose 0 [⟨1, 1⟩]) ∧
    ¬ Ordered [] (NetCall.sections [[⟨0, 1, 16, 16, true, true⟩]]).ops ∧
    networkSetsockopt 0 ⟨1, 9, 4, true, 1⟩ = [.acquire (.sock 0), .acquire .network,
      .release .network, .release (.sock 0)] ∧
    networkSocketClose 0 [] = [.acquire .network, .acquire (.sock 0), .release (.sock 0),
      .release .network] := by
  refine ⟨fun h => ?_, fun h => ?_, rfl, rfl⟩
  · exact absurd (h.2.2.1 rfl) (by decide)
  · exact absurd (h.2.2.1 rfl) (by decide)

end BoredOS.Net.Locks
