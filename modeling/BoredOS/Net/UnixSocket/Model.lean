import BoredOS.Lib.Transition

/-!
# Unix Domain Sockets

The protocol control blocks of `net/unix_socket.c`: which block is the peer of which, the list of
bound blocks, and the queues of connections that wait for `accept`. Blocks are known by their
addresses, and an address is live while the block is allocated. The data that `send` and `recv` move
is left out; neither changes a link.

Two calls can leave links behind. `unix_socket_connect` does not look at the peer that the caller
has, and `unix_socket_close` takes a block off the list only in the states `BOUND` and `LISTENING`,
which a bound block leaves when it connects. A step from a good state leads to a good state if and
only if it is not one of these (`unix_links_of_safe_run`).
-/

namespace BoredOS.Net.UnixSocket

open Function

/-- `UNP_STATE_*`. -/
inductive UnpState where
  | unconnected
  | bound
  | listening
  | connected
  | closed
  deriving DecidableEq, Repr

/-- `unpcb_t`, with `backlog_max` of its socket. `wasBound` records that `bind` has succeeded, and
`held` that a descriptor refers to the socket. -/
structure Unpcb where
  path : List (BitVec 8)
  type : BitVec 8
  state : UnpState
  peer : Option ℕ
  acceptQueue : List ℕ
  backlogMax : ℕ
  wasBound : Bool
  held : Bool
  deriving DecidableEq, Repr

/-- The blocks by their addresses, and `unix_listeners`. -/
structure UnixState where
  unps : ℕ → Option Unpcb
  listeners : List ℕ

namespace UnixState

def put (s : UnixState) (u : ℕ) (x : Unpcb) : UnixState :=
  { s with unps := update s.unps u (some x) }

def modify (s : UnixState) (u : ℕ) (f : Unpcb → Unpcb) : UnixState :=
  { s with unps := update s.unps u ((s.unps u).map f) }

/-- `kfree` of a block. -/
def free (s : UnixState) (u : ℕ) : UnixState :=
  { s with unps := update s.unps u none }

end UnixState

/-! ## The functions -/

/-- The block that `unix_socket_create` fills in, for a socket from `process_socket_create`. -/
def freshUnpcb (type : BitVec 8) (held : Bool) : Unpcb :=
  ⟨[], type, .unconnected, none, [], 128, false, held⟩

/-- `unix_socket_create`; `mem` tells whether the block finds memory, `u` is its address. -/
def unixSocketCreate (mem : Bool) (s : UnixState) (u : ℕ) (type : BitVec 8) : UnixState × Int :=
  if mem = false then (s, -1) else (s.put u (freshUnpcb type true), 0)

/-- `unix_socket_bind`: at most 107 bytes of the path are kept. -/
def unixSocketBind (s : UnixState) (u : ℕ) (unp : Unpcb) (path : List (BitVec 8)) :
    UnixState × Int :=
  if unp.state ≠ .unconnected then (s, -1)
  else
    let s := s.modify u fun x => { x with path := path.take 107, state := .bound, wasBound := true }
    ({ s with listeners := u :: s.listeners }, 0)

def unixSocketListen (s : UnixState) (u : ℕ) (unp : Unpcb) (backlog : Int) : UnixState × Int :=
  if unp.state ≠ .bound then (s, -1)
  else
    let s := s.modify u fun x => { x with state := .listening }
    if backlog > 0 then
      (s.modify u fun x => { x with backlogMax := if backlog > 16 then 16 else backlog.toNat }, 0)
    else (s, 0)

/-- The search in `unix_listeners`: 108 bytes are compared. -/
def findListener (s : UnixState) (path : List (BitVec 8)) : Option ℕ :=
  s.listeners.find? fun l => (s.unps l).any fun x => decide (x.path = path.take 108)

/-- The listener that `connect` will use. -/
def listenerOf (s : UnixState) (path : List (BitVec 8)) : Option ℕ :=
  (findListener s path).filter fun l => (s.unps l).any fun x => decide (x.state = .listening)

def unixSocketClose (s : UnixState) (u : ℕ) (unp : Unpcb) : UnixState :=
  let s :=
    if unp.state = .bound ∨ unp.state = .listening then
      { s with listeners := s.listeners.erase u }
    else s
  let s :=
    match unp.peer with
    | none => s
    | some b => s.modify b fun y => { y with peer := none }
  s.free u

/-- `max_backlog` of a listener. -/
def maxBacklog (x : Unpcb) : ℕ := if 0 < x.backlogMax ∧ x.backlogMax ≤ 16 then x.backlogMax else 16

/-- `unix_socket_connect`: `sockMem` and `unpMem` tell whether the socket and the block of the other
end find memory, `conn` is the address of the block. Without the block the code stores through a
null pointer, and there is no next state. -/
def unixSocketConnect (sockMem unpMem : Bool) (s : UnixState) (u : ℕ) (unp : Unpcb)
    (path : List (BitVec 8)) (conn : ℕ) : Option (UnixState × Int) :=
  match listenerOf s path with
  | none => some (s, -1)
  | some l =>
    if sockMem = false then some (s, -1)
    else if unpMem = false then none
    else
      let s := s.put conn (freshUnpcb unp.type false)
      let s := s.modify u fun x => { x with peer := some conn, state := .connected }
      let s := s.modify conn fun x => { x with peer := some u, state := .connected }
      if (s.unps l).any fun x => decide (x.acceptQueue.length < maxBacklog x) then
        some (s.modify l fun x => { x with acceptQueue := x.acceptQueue ++ [conn] }, 0)
      else
        -- `process_socket_release` of the other end
        some (unixSocketClose s conn
          { freshUnpcb unp.type false with peer := some u, state := .connected }, -1)

/-- `unix_socket_accept`: the first connection of the queue; there is none, or the call waits. -/
def unixSocketAccept (s : UnixState) (u : ℕ) (unp : Unpcb) : UnixState × Option ℕ :=
  match unp.acceptQueue with
  | [] => (s, none)
  | c :: queue =>
    let s := s.modify u fun x => { x with acceptQueue := queue }
    -- the caller gets a descriptor for it
    (s.modify c fun x => { x with held := true }, some c)

def unixSocketpair (mem1 mem2 : Bool) (s : UnixState) (u1 u2 : ℕ) (type : BitVec 8) :
    UnixState × Int :=
  if mem1 = false then (s, -1)
  else
    let s := s.put u1 (freshUnpcb type true)
    if mem2 = false then (s, -1)
    else
      let s := s.put u2 (freshUnpcb type true)
      let s := s.modify u1 fun x => { x with peer := some u2, state := .connected }
      (s.modify u2 fun x => { x with peer := some u1, state := .connected }, 0)

/-- The block whose socket `unix_socket_send` stores into. -/
def sendTarget (s : UnixState) (unp : Unpcb) (destPath : Option (List (BitVec 8))) : Option ℕ :=
  match unp.peer with
  | some b => some b
  | none => if unp.type = 2 then destPath.bind (findListener s) else none

/-! ## Steps -/

/-- The calls on sockets. New blocks come with the addresses that `kmalloc` returns for them. -/
inductive UnixCall where
  | create (mem : Bool) (u : ℕ) (type : BitVec 8)
  | bind (u : ℕ) (path : List (BitVec 8))
  | listen (u : ℕ) (backlog : Int)
  | connect (sockMem unpMem : Bool) (u : ℕ) (path : List (BitVec 8)) (conn : ℕ)
  | accept (u : ℕ)
  | socketpair (mem1 mem2 : Bool) (u1 u2 : ℕ) (type : BitVec 8)
  | send (u : ℕ) (destPath : Option (List (BitVec 8)))
  | recv (u : ℕ)
  | close (u : ℕ)

/-- The block behind a descriptor. -/
def heldUnpcb (s : UnixState) (u : ℕ) : Option Unpcb := (s.unps u).filter Unpcb.held

/-- One call; it is made on a socket with a descriptor, and `kmalloc` returns what is not in use. -/
def unixStep (s : UnixState) : UnixCall → Option UnixState
  | .create mem u type => if (s.unps u).isNone then some (unixSocketCreate mem s u type).1 else none
  | .bind u path => (heldUnpcb s u).map fun unp => (unixSocketBind s u unp path).1
  | .listen u backlog => (heldUnpcb s u).map fun unp => (unixSocketListen s u unp backlog).1
  | .connect sockMem unpMem u path conn =>
    if (s.unps conn).isNone then
      (heldUnpcb s u).bind fun unp =>
        (unixSocketConnect sockMem unpMem s u unp path conn).map Prod.fst
    else none
  | .accept u => (heldUnpcb s u).map fun unp => (unixSocketAccept s u unp).1
  | .socketpair mem1 mem2 u1 u2 type =>
    if (s.unps u1).isNone ∧ (s.unps u2).isNone ∧ u1 ≠ u2 then
      some (unixSocketpair mem1 mem2 s u1 u2 type).1
    else none
  | .send u _ => (heldUnpcb s u).map fun _ => s
  | .recv u => (heldUnpcb s u).map fun _ => s
  | .close u => (heldUnpcb s u).map fun unp => unixSocketClose s u unp

def unixSystem : BoredOS.Lib.Transition.System UnixState UnixCall where
  init s := s = ⟨fun _ => none, []⟩
  step s e s' := unixStep s e = some s'

/-! ## The property -/

/-- Peers are live and mutual, the list holds the live blocks that were bound, and what waits in a
queue is live. -/
structure UnixOk (s : UnixState) : Prop where
  peers : ∀ a x b, s.unps a = some x → x.peer = some b → ∃ y, s.unps b = some y ∧ y.peer = some a
  listeners : ∀ u, u ∈ s.listeners ↔ ∃ x, s.unps u = some x ∧ x.wasBound = true
  queues : ∀ u x c, s.unps u = some x → c ∈ x.acceptQueue → ∃ y, s.unps c = some y

/-- A call that leaves no link behind: a socket that has a peer does not connect, and a bound socket
is not closed in a state in which `unix_socket_close` does not expect it on the list. -/
def UnixSafe (s : UnixState) : UnixCall → Prop
  | .connect sockMem unpMem u path _ => sockMem = true → unpMem = true →
      (listenerOf s path).isSome = true → (s.unps u).all fun x => x.peer.isNone
  | .close u => (s.unps u).all fun x =>
    !x.wasBound || decide (x.state = .bound) || decide (x.state = .listening)
  | _ => True

instance (s : UnixState) : (e : UnixCall) → Decidable (UnixSafe s e)
  | .connect .. => inferInstanceAs (Decidable (_ → _ → _ → _))
  | .close _ => inferInstanceAs (Decidable (_ = _))
  | .create .. | .bind .. | .listen .. | .accept _ | .socketpair .. | .send .. | .recv _ =>
    inferInstanceAs (Decidable True)

end BoredOS.Net.UnixSocket
