import BoredOS.Lib.Matching
import BoredOS.Lib.Update
import BoredOS.Net.UnixSocket.Model

/-!
# The Links Between Unix Domain Sockets

The links of the blocks as functions of an address: its peer (`peerOf`), whether it is bound
(`isBound`) and its queue (`queueOf`). `UnixInv` is the invariant of the links, and every function
of the model is shown to keep it from what it does to these functions.
-/

namespace BoredOS.Net.UnixSocket

open Lib.Matching Lib.Update Function List
open Option (all_some bind_eq_some_iff isNone_iff_eq_none map_eq_some_iff some.inj)

variable {s : UnixState} {u : ℕ} {x : Unpcb} {f : Unpcb → Unpcb}

/-! ## The invariant -/

def peerOf (s : UnixState) : ℕ → Option ℕ := (fun x => x.bind Unpcb.peer) ∘ s.unps

def isBound (s : UnixState) : ℕ → Bool := (fun x => x.any Unpcb.wasBound) ∘ s.unps

def queueOf (s : UnixState) : ℕ → List ℕ := (fun x => x.elim [] Unpcb.acceptQueue) ∘ s.unps

/-- The block is live, and no descriptor refers to its socket. -/
def isWaiting (s : UnixState) : ℕ → Bool := (fun x => x.any fun y => !y.held) ∘ s.unps

/-- The state of a block tells whether it has been bound, until it connects. -/
def StateOk (x : Unpcb) : Prop :=
  (x.state = .bound ∨ x.state = .listening → x.wasBound = true) ∧
    (x.state = .unconnected → x.wasBound = false)

/-- What waits in the queues is waited for in one place. -/
structure Queues (queue : ℕ → List ℕ) (waiting : ℕ → Bool) : Prop where
  waiting : ∀ u c, c ∈ queue u → waiting c = true
  once : ∀ u, (queue u).Nodup
  separate : ∀ u v c, c ∈ queue u → c ∈ queue v → u = v

/-- The invariant: nobody is the peer of itself, and the list has no block twice. -/
structure UnixInv (s : UnixState) : Prop where
  paired : Paired (peerOf s)
  apart : ∀ a, peerOf s a ≠ some a
  listed : ∀ u, u ∈ s.listeners ↔ isBound s u = true
  nodup : s.listeners.Nodup
  states : ∀ u x, s.unps u = some x → StateOk x
  queues : Queues (queueOf s) (isWaiting s)

section

theorem peerOf_put : peerOf (s.put u x) = update (peerOf s) u x.peer :=
  comp_update ..

theorem isBound_put : isBound (s.put u x) = update (isBound s) u x.wasBound :=
  comp_update ..

theorem queueOf_put : queueOf (s.put u x) = update (queueOf s) u x.acceptQueue :=
  comp_update ..

theorem isWaiting_put : isWaiting (s.put u x) = update (isWaiting s) u (!x.held) :=
  comp_update ..

theorem modify_eq_put (hx : s.unps u = some x) : s.modify u f = s.put u (f x) := by
  unfold UnixState.modify
  rw [hx]
  rfl

variable {β : Type}

variable (φ : Option Unpcb → β)

/-- A change that a view does not see. -/
theorem view_modify (h : ∀ x, φ (some (f x)) = φ (some x)) :
    φ ∘ (s.modify u f).unps = φ ∘ s.unps := by
  have hsame : φ ((s.unps u).map f) = φ (s.unps u) := by
    cases s.unps u with
    | none => rfl
    | some x => exact h x
  unfold UnixState.modify
  rw [comp_update, hsame]
  exact update_eq_self u _

theorem peerOf_modify (h : ∀ x, (f x).peer = x.peer) : peerOf (s.modify u f) = peerOf s :=
  view_modify _ h

theorem isBound_modify (h : ∀ x, (f x).wasBound = x.wasBound) :
    isBound (s.modify u f) = isBound s :=
  view_modify _ h

theorem queueOf_modify (h : ∀ x, (f x).acceptQueue = x.acceptQueue) :
    queueOf (s.modify u f) = queueOf s :=
  view_modify _ h

theorem isWaiting_modify (h : ∀ x, (f x).held = x.held) : isWaiting (s.modify u f) = isWaiting s :=
  view_modify _ fun x => congrArg not (h x)

theorem view_some (hx : s.unps u = some x) : (φ ∘ s.unps) u = φ (some x) := by
  rw [comp_apply, hx]

theorem peerOf_some (hx : s.unps u = some x) : peerOf s u = x.peer :=
  view_some _ hx

theorem isBound_some (hx : s.unps u = some x) : isBound s u = x.wasBound :=
  view_some _ hx

theorem queueOf_some (hx : s.unps u = some x) : queueOf s u = x.acceptQueue :=
  view_some _ hx

theorem isWaiting_some (hx : s.unps u = some x) : isWaiting s u = !x.held :=
  view_some _ hx

theorem views_none (hu : s.unps u = none) :
    peerOf s u = none ∧ isBound s u = false ∧ queueOf s u = [] ∧ isWaiting s u = false := by
  unfold peerOf isBound queueOf isWaiting
  simp only [comp_apply, hu]
  exact ⟨rfl, rfl, rfl, rfl⟩

/-- The blocks after `unix_socket_close`: the peer without its link, and the block is gone. -/
theorem unps_close : (unixSocketClose s u x).unps = update (x.peer.elim s fun b =>
    s.modify b fun y => { y with peer := none }).unps u none := by
  unfold unixSocketClose
  cases x.peer <;> (dsimp only; split <;> rfl)

/-- A view that does not see peers. -/
theorem view_close (h : ∀ y, φ (some { y with peer := none }) = φ (some y)) :
    φ ∘ (unixSocketClose s u x).unps = update (φ ∘ s.unps) u (φ none) := by
  rw [unps_close, comp_update]
  cases x.peer with
  | none => rfl
  | some => exact congrArg (update · u (φ none)) (view_modify φ h)

theorem peerOf_close : peerOf (unixSocketClose s u x) =
    update (x.peer.elim (peerOf s) fun b => update (peerOf s) b none) u none := by
  unfold peerOf
  rw [unps_close, comp_update]
  cases x.peer with
  | none => rfl
  | some b =>
    unfold UnixState.modify
    simp only [Option.elim_some, comp_update]
    cases s.unps b <;> rfl

theorem listeners_close : (unixSocketClose s u x).listeners =
    if x.state = .bound ∨ x.state = .listening then s.listeners.erase u else s.listeners := by
  unfold unixSocketClose
  cases x.peer <;> (dsimp only; split <;> rfl)

theorem heldUnpcb_eq_some (h : heldUnpcb s u = some x) : s.unps u = some x ∧ x.held = true :=
  Option.filter_eq_some_iff.1 h

end

variable {c : ℕ} {y : Unpcb}

variable {s' : UnixState}

theorem UnixInv.ok (h : UnixInv s) : UnixOk s := by
  refine ⟨?_, ?_, ?_⟩
  · intro a x b ha hb
    have hback : peerOf s b = some a := h.paired a b ((peerOf_some ha).trans hb)
    exact bind_eq_some_iff.1 hback
  · intro u
    rw [h.listed u]
    exact Option.any_eq_true ..
  · intro u x c hu hc
    have hwaiting := h.queues.waiting u c ((queueOf_some hu).symm ▸ hc)
    obtain ⟨y, hy, -⟩ := (Option.any_eq_true _ _).1 hwaiting
    exact ⟨y, hy⟩

theorem UnixOk.paired (h : UnixOk s) : Paired (peerOf s) := by
  intro a b hab
  obtain ⟨x, ha, hb⟩ := bind_eq_some_iff.1 hab
  obtain ⟨y, hy, hback⟩ := h.peers a x b ha hb
  rw [peerOf_some hy, hback]

/-- A block that a descriptor refers to is in no queue. -/
theorem UnixInv.not_queued (h : UnixInv s) (hu : isWaiting s u = false) (v : ℕ) :
    u ∉ queueOf s v := by
  intro hmem
  rw [h.queues.waiting v u hmem] at hu
  cases hu

theorem states_put (h : ∀ v y, s.unps v = some y → StateOk y) (hx : StateOk x) (v : ℕ) (y : Unpcb)
    (hv : (s.put u x).unps v = some y) : StateOk y := by
  obtain ⟨-, hnew⟩ | ⟨-, hold⟩ := of_update hv
  · cases hnew
    exact hx
  · exact h v y hold

/-- A change after which no queue has more in it. -/
theorem Queues.of_mem {queue queue' : ℕ → List ℕ} {waiting waiting' : ℕ → Bool}
    (h : Queues queue waiting) (hmem : ∀ v c, c ∈ queue' v → c ∈ queue v ∧ waiting' c = true)
    (honce : ∀ v, (queue' v).Nodup) : Queues queue' waiting' where
  waiting v c hc := (hmem v c hc).2
  once := honce
  separate v w c hv hw := h.separate v w c (hmem v c hv).1 (hmem w c hw).1

/-- A new socket has no peer and nothing waits in its queue. -/
theorem UnixInv.create (h : UnixInv s) (hu : s.unps u = none) (type : BitVec 8) (held : Bool) :
    UnixInv (s.put u (freshUnpcb type held)) ∧ peerOf (s.put u (freshUnpcb type held)) = peerOf s ∧
      queueOf (s.put u (freshUnpcb type held)) = queueOf s := by
  obtain ⟨hpeer, hbound, hqueue, hwaiting⟩ := views_none hu
  have hpeers : peerOf (s.put u (freshUnpcb type held)) = peerOf s := by
    rw [peerOf_put, update_eq_self_iff, hpeer]
    rfl
  have hbounds : isBound (s.put u (freshUnpcb type held)) = isBound s := by
    rw [isBound_put, update_eq_self_iff, hbound]
    rfl
  have hqueues : queueOf (s.put u (freshUnpcb type held)) = queueOf s := by
    rw [queueOf_put, update_eq_self_iff, hqueue]
    rfl
  refine ⟨⟨hpeers ▸ h.paired, hpeers ▸ h.apart, hbounds ▸ h.listed, h.nodup, ?_, ?_⟩, hpeers,
      hqueues⟩
  · exact states_put h.states ⟨fun hc => (hc.elim (nomatch ·) (nomatch ·)), fun _ => rfl⟩
  · rw [hqueues, isWaiting_put]
    refine h.queues.of_mem (fun v c hc => ⟨hc, ?_⟩) h.queues.once
    rw [update_of_ne]
    · exact h.queues.waiting v c hc
    · rintro rfl
      exact h.not_queued hwaiting v hc

/-- The states of the blocks after one of them has changed. -/
theorem states_modify (h : ∀ v y, s.unps v = some y → StateOk y)
    (hf : ∀ y, s.unps u = some y → StateOk (f y)) (v : ℕ) (y : Unpcb)
    (hv : (s.modify u f).unps v = some y) : StateOk y := by
  obtain ⟨-, hnew⟩ | ⟨-, hold⟩ := of_update hv
  · obtain ⟨z, hz, rfl⟩ := Option.map_eq_some_iff.1 hnew
    exact hf z hz
  · exact h v y hold

section

variable (h : UnixInv s)

include h

variable (hpeer : ∀ y, (f y).peer = y.peer) (hbound : ∀ y, (f y).wasBound = y.wasBound)

include hpeer hbound in
/-- A change of a block that keeps its peer and its place on the list. -/
theorem UnixInv.modify (hstate : ∀ y, s.unps u = some y → StateOk (f y))
    (hqueues : Queues (queueOf (s.modify u f)) (isWaiting (s.modify u f))) :
    UnixInv (s.modify u f) := by
  have hpeers : peerOf (s.modify u f) = peerOf s := peerOf_modify hpeer
  have hbounds : isBound (s.modify u f) = isBound s := isBound_modify hbound
  exact ⟨hpeers ▸ h.paired, hpeers ▸ h.apart, hbounds ▸ h.listed, h.nodup,
    states_modify h.states hstate, hqueues⟩

include hpeer hbound in
/-- A change of the path, the state or the backlog. -/
theorem UnixInv.relabel (hqueue : ∀ y, (f y).acceptQueue = y.acceptQueue)
    (hheld : ∀ y, (f y).held = y.held) (hstate : ∀ y, s.unps u = some y → StateOk (f y)) :
    UnixInv (s.modify u f) := by
  apply h.modify hpeer hbound hstate
  rw [queueOf_modify hqueue, isWaiting_modify hheld]
  exact h.queues

section

variable (hu : s.unps u = some x)

include hu

/-- Only an unbound socket can be bound, so that no socket is listed twice. -/
theorem UnixInv.bind (path : List (BitVec 8)) : UnixInv (unixSocketBind s u x path).1 := by
  unfold unixSocketBind
  split
  next => exact h
  next hstate =>
    have hunbound : x.wasBound = false := (h.states u x hu).2 (not_not.1 hstate)
    have hnew : u ∉ s.listeners := by
      rw [h.listed u, isBound_some hu, hunbound]
      exact Bool.false_ne_true
    rw [modify_eq_put hu]
    refine ⟨?_, ?_, ?_, nodup_cons.2 ⟨hnew, h.nodup⟩, ?_, ?_⟩
    · show Paired (peerOf (s.put u _))
      rw [peerOf_put, ← peerOf_some hu, update_eq_self]
      exact h.paired
    · show ∀ a, peerOf (s.put u _) a ≠ some a
      rw [peerOf_put, ← peerOf_some hu, update_eq_self]
      exact h.apart
    · intro v
      show v ∈ u :: s.listeners ↔ isBound (s.put u _) v = true
      rw [isBound_put, mem_cons, update_apply, h.listed v]
      split
      next heq => exact ⟨fun _ => rfl, fun _ => .inl heq⟩
      next hne => exact or_iff_right hne
    · exact states_put h.states ⟨fun _ => rfl, (nomatch ·)⟩
    · show Queues (queueOf (s.put u _)) (isWaiting (s.put u _))
      rw [queueOf_put, isWaiting_put, ← queueOf_some hu, ← isWaiting_some hu,
        update_eq_self, update_eq_self]
      exact h.queues

theorem UnixInv.listen (backlog : Int) : UnixInv (unixSocketListen s u x backlog).1 := by
  unfold unixSocketListen
  split
  next => exact h
  next hstate =>
    have hbound : x.wasBound = true := (h.states u x hu).1 (.inl (not_not.1 hstate))
    have hlistening : UnixInv (s.modify u fun y => { y with state := .listening }) := by
      refine h.relabel ?_ ?_ ?_ ?_ ?_
      iterate 4 exact fun _ => rfl
      intro y hy
      obtain rfl : x = y := some.inj (hu.symm.trans hy)
      exact ⟨fun _ => hbound, (nomatch ·)⟩
    split
    · refine hlistening.relabel ?_ ?_ ?_ ?_ ?_
      iterate 4 exact fun _ => rfl
      exact fun y hy => hlistening.states u y hy
    · exact hlistening

/-- `unix_socket_close` of a block that is in no queue and on the list only where the code looks for
it. -/
theorem UnixInv.close (hqueued : ∀ v, u ∉ queueOf s v)
    (hsafe : x.wasBound = true → x.state = .bound ∨ x.state = .listening) :
    UnixInv (unixSocketClose s u x) := by
  have hbounds : isBound (unixSocketClose s u x) = update (isBound s) u false :=
    view_close _ (by exact fun _ => rfl)
  have hqueues : queueOf (unixSocketClose s u x) = update (queueOf s) u [] :=
    view_close _ (by exact fun _ => rfl)
  have hwaits : isWaiting (unixSocketClose s u x) = update (isWaiting s) u false :=
    view_close _ (by exact fun _ => rfl)
  refine ⟨?_, ?_, ?_, ?_, ?_, ?_⟩
  · rw [peerOf_close]
    cases hpeer : x.peer with
    | none =>
      have hnone : peerOf s u = none := (peerOf_some hu).trans hpeer
      rw [Option.elim_none, ← hnone, update_eq_self]
      exact h.paired
    | some b => exact h.paired.part (h.paired u b ((peerOf_some hu).trans hpeer))
  · intro a ha
    rw [peerOf_close] at ha
    obtain ⟨-, ha⟩ := of_update_none ha
    cases hpeer : x.peer with
    | none =>
      rw [hpeer] at ha
      exact h.apart a ha
    | some =>
      rw [hpeer] at ha
      exact h.apart a (of_update_none ha).2
  · intro v
    rw [hbounds, listeners_close]
    split
    next =>
      rw [h.nodup.mem_erase_iff, update_apply, h.listed v]
      split
      next heq => exact ⟨fun hc => absurd heq hc.1, (nomatch ·)⟩
      next hne => exact and_iff_right hne
    next hstate =>
      have hunbound : isBound s u = false := by
        rw [isBound_some hu]
        exact eq_false_of_ne_true fun hbound => hstate (hsafe hbound)
      rw [h.listed v, ← hunbound, update_eq_self]
  · rw [listeners_close]
    split
    · exact h.nodup.erase u
    · exact h.nodup
  · intro v y hv
    rw [unps_close] at hv
    obtain ⟨-, hv⟩ := of_update_none hv
    cases hpeer : x.peer with
    | none =>
      rw [hpeer] at hv
      exact h.states v y hv
    | some b =>
      rw [hpeer] at hv
      exact states_modify h.states (by exact fun z hz => h.states b z hz) v y hv
  · -- the queue of the block goes, and it was in none itself
    rw [hqueues, hwaits]
    refine h.queues.of_mem (fun v c hc => ?_) fun v => ?_
    · rw [update_apply] at hc
      split at hc
      · cases hc
      · have hne : c ≠ u := by
          rintro rfl
          exact hqueued v hc
        rw [update_of_ne hne]
        exact ⟨hc, h.queues.waiting v c hc⟩
    · rw [update_apply]
      split
      · exact nodup_nil
      · exact h.queues.once v

/-- The first element of a queue is taken out, and is then in none. -/
theorem UnixInv.dequeue {queue : List ℕ} (hqueue : x.acceptQueue = c :: queue) :
    UnixInv (s.modify u fun y => { y with acceptQueue := queue }) ∧
      ∀ v, c ∉ queueOf (s.modify u fun y => { y with acceptQueue := queue }) v := by
  have hfull : queueOf s u = c :: queue := (queueOf_some hu).trans hqueue
  have hnodup := nodup_cons.1 (hfull ▸ h.queues.once u)
  have hqueues : queueOf (s.modify u fun y => { y with acceptQueue := queue }) =
      update (queueOf s) u queue := by
    rw [modify_eq_put hu, queueOf_put]
  have hother : ∀ v d, d ∈ update (queueOf s) u queue v → d ∈ queueOf s v ∧ d ≠ c := by
    intro v d hd
    rw [update_apply] at hd
    split at hd
    next heq =>
      subst heq
      refine ⟨hfull ▸ mem_cons_of_mem c hd, ?_⟩
      rintro rfl
      exact hnodup.1 hd
    next hne =>
      refine ⟨hd, ?_⟩
      rintro rfl
      exact hne (h.queues.separate v u d hd (hfull ▸ mem_cons_self))
  rw [hqueues]
  refine ⟨h.modify (by exact fun _ => rfl) (by exact fun _ => rfl) (by exact h.states u) ?_,
    fun v hc => (hother v c hc).2 rfl⟩
  rw [hqueues, isWaiting_modify (by exact fun _ => rfl)]
  refine h.queues.of_mem (fun v d hd => ?_) fun v => ?_
  · have hmem := (hother v d hd).1
    exact ⟨hmem, h.queues.waiting v d hmem⟩
  · rw [update_apply]
    split
    · exact hnodup.2
    · exact h.queues.once v

end

/-- A block that is in no queue gets a descriptor. -/
theorem UnixInv.hold (hc : ∀ v, c ∉ queueOf s v) :
    UnixInv (s.modify c fun y => { y with held := true }) := by
  refine h.modify (by exact fun _ => rfl) (by exact fun _ => rfl) (by exact h.states c) ?_
  rw [queueOf_modify (by exact fun _ => rfl)]
  refine h.queues.of_mem (fun v d hd => ⟨hd, ?_⟩) h.queues.once
  have hne : d ≠ c := by
    rintro rfl
    exact hc v hd
  have hsame : (s.modify c fun y => { y with held := true }).unps d = s.unps d :=
    update_of_ne hne ..
  unfold isWaiting
  rw [comp_apply, hsame]
  exact h.queues.waiting v d hd

theorem UnixInv.accept (hu : s.unps u = some x) : UnixInv (unixSocketAccept s u x).1 := by
  unfold unixSocketAccept
  cases hqueue : x.acceptQueue with
  | nil => exact h
  | cons =>
    obtain ⟨hinv, hout⟩ := h.dequeue hu hqueue
    exact hinv.hold hout

end

/-- The stores that make two blocks each other's peer. -/
def joined (s : UnixState) (u c : ℕ) : UnixState :=
  (s.modify u fun y => { y with peer := some c, state := .connected }).modify c
    fun y => { y with peer := some u, state := .connected }

theorem peerOf_joined (hu : s.unps u = some x) (hc : s.unps c = some y) (hne : u ≠ c) :
    peerOf (joined s u c) = update (update (peerOf s) u (some c)) c (some u) := by
  have hc' : (s.modify u fun y => { y with peer := some c, state := .connected }).unps c = some y :=
    (update_of_ne hne.symm ..).trans hc
  unfold joined
  rw [modify_eq_put hc', peerOf_put, modify_eq_put hu, peerOf_put]

/-- Two blocks without peers become each other's peer. -/
theorem UnixInv.join (h : UnixInv s) (hu : s.unps u = some x)
    (hc : s.unps c = some y) (hne : u ≠ c) (hx : x.peer = none) (hy : y.peer = none) :
    UnixInv (joined s u c) := by
  have hpeers := peerOf_joined hu hc hne
  have hbounds : isBound (joined s u c) = isBound s :=
    (isBound_modify (by exact fun _ => rfl)).trans (isBound_modify (by exact fun _ => rfl))
  have hqueues : queueOf (joined s u c) = queueOf s :=
    (queueOf_modify (by exact fun _ => rfl)).trans (queueOf_modify (by exact fun _ => rfl))
  have hwaits : isWaiting (joined s u c) = isWaiting s :=
    (isWaiting_modify (by exact fun _ => rfl)).trans (isWaiting_modify (by exact fun _ => rfl))
  have hconnected : ∀ (z : Unpcb) (b : ℕ), StateOk { z with peer := some b, state := .connected } :=
    fun _ _ => ⟨fun hs => hs.elim (nomatch ·) (nomatch ·), (nomatch ·)⟩
  refine ⟨?_, ?_, hbounds ▸ h.listed, h.nodup, ?_, ?_⟩
  · rw [hpeers]
    exact h.paired.join ((peerOf_some hu).trans hx) ((peerOf_some hc).trans hy)
  · intro a ha
    rw [hpeers, update_apply, update_apply] at ha
    split at ha
    next heq => exact hne ((some.inj ha).trans heq)
    next =>
      split at ha
      next heq => exact hne (heq.symm.trans (some.inj ha).symm)
      next => exact h.apart a ha
  · apply states_modify
    · exact states_modify h.states (by exact fun z _ => hconnected z c)
    · exact fun z _ => hconnected z u
  · rw [hqueues, hwaits]
    exact h.queues

/-- A connection that waits in no queue is put at the end of one. -/
theorem UnixInv.enqueue (h : UnixInv s) {l : ℕ} (hl : s.unps l = some y)
    (hc : isWaiting s c = true) (hnew : ∀ v, c ∉ queueOf s v) :
    UnixInv (s.modify l fun z => { z with acceptQueue := z.acceptQueue ++ [c] }) := by
  have hqueues : queueOf (s.modify l fun z => { z with acceptQueue := z.acceptQueue ++ [c] }) =
      update (queueOf s) l (queueOf s l ++ [c]) := by
    rw [modify_eq_put hl, queueOf_put, queueOf_some hl]
  refine h.modify (by exact fun _ => rfl) (by exact fun _ => rfl) (by exact h.states l) ?_
  rw [hqueues, isWaiting_modify (by exact fun _ => rfl)]
  have hcases : ∀ v d, d ∈ update (queueOf s) l (queueOf s l ++ [c]) v →
      d ∈ queueOf s v ∨ (d = c ∧ v = l) := by
    intro v d hd
    rw [update_apply] at hd
    split at hd
    next heq =>
      rw [heq]
      exact (mem_append.1 hd).imp id fun hd => ⟨mem_singleton.1 hd, rfl⟩
    next => exact .inl hd
  refine ⟨?_, ?_, ?_⟩
  · intro v d hd
    rcases hcases v d hd with hd | ⟨rfl, -⟩
    · exact h.queues.waiting v d hd
    · exact hc
  · intro v
    rw [update_apply]
    split
    · rw [nodup_append]
      refine ⟨h.queues.once l, nodup_cons.2 ⟨not_mem_nil, nodup_nil⟩, ?_⟩
      rintro d hd e he rfl
      exact hnew l (mem_singleton.1 he ▸ hd)
    · exact h.queues.once v
  · intro v w d hv hw
    rcases hcases v d hv with hv' | ⟨hdc, hvl⟩
    · rcases hcases w d hw with hw' | ⟨hdc, hwl⟩
      · exact h.queues.separate v w d hv' hw'
      · exact absurd (hdc ▸ hv') (hnew v)
    · rcases hcases w d hw with hw' | ⟨-, hwl⟩
      · exact absurd (hdc ▸ hw') (hnew w)
      · exact hvl.trans hwl.symm

/-!
## Runs of Calls on Unix Domain Sockets

- `unix_links_of_safe_run` — the links along every run, and the calls after which they are wrong
-/

/-! ## Steps of runs -/

variable {conn : ℕ} {unp : Unpcb} {path : List (BitVec 8)}
  {u : ℕ} {sockMem unpMem : Bool} {res : UnixState × Int}

section

variable {s s' : UnixState}

/-- The two ends after `unix_socket_connect` has linked them, and before the queue. -/
def linked (s : UnixState) (u conn : ℕ) (type : BitVec 8) : UnixState :=
  joined (s.put conn (freshUnpcb type false)) u conn

/-- The blocks of the two ends before they are linked. -/
theorem unps_put (hu : s.unps u = some unp) (hconn : s.unps conn = none)
    (x : Unpcb) : u ≠ conn ∧ (s.put conn x).unps u = some unp ∧
        (s.put conn x).unps conn = some x := by
  have hne : u ≠ conn := by
    rintro rfl
    rw [hu] at hconn
    cases hconn
  exact ⟨hne, (update_of_ne hne ..).trans hu, update_self ..⟩

/-- `connect` finds no listener or no memory and changes nothing, or it pairs two sockets. -/
theorem unixSocketConnect_cases
    (h : unixSocketConnect sockMem unpMem s u unp path conn = some res) :
    (res.1 = s ∧ ¬ (sockMem = true ∧ unpMem = true ∧ (listenerOf s path).isSome = true)) ∨
    sockMem = true ∧ unpMem = true ∧ ∃ l, listenerOf s path = some l ∧
      (res.1 = (linked s u conn unp.type).modify l
          (fun x => { x with acceptQueue := x.acceptQueue ++ [conn] }) ∨
        res.1 = unixSocketClose (linked s u conn unp.type) conn
          { freshUnpcb unp.type false with peer := some u, state := .connected }) := by
  unfold unixSocketConnect at h
  cases hl : listenerOf s path with
  | none =>
    rw [hl] at h
    cases h
    exact .inl ⟨rfl, fun hc => nomatch hc.2.2⟩
  | some l =>
    rw [hl] at h
    cases sockMem with
    | false =>
      cases h
      exact .inl ⟨rfl, fun hc => nomatch hc.1⟩
    | true =>
      cases unpMem with
      | false => cases h
      | true =>
        dsimp only at h
        rw [if_neg (by decide), if_neg (by decide)] at h
        refine .inr ⟨rfl, rfl, l, rfl, ?_⟩
        split at h
        · cases h
          exact .inl rfl
        · cases h
          exact .inr rfl

/-- The new socket becomes the peer of the caller, which must not have one yet. -/
theorem UnixInv.connect (h : UnixInv s) (hu : s.unps u = some unp) (hconn : s.unps conn = none)
    (hsafe : sockMem = true → unpMem = true → (listenerOf s path).isSome = true → unp.peer = none)
    (hres : unixSocketConnect sockMem unpMem s u unp path conn = some res) : UnixInv res.1 := by
  rcases unixSocketConnect_cases hres with ⟨heq, -⟩ | ⟨hsock, hunp, l, hl, heq⟩
  · rw [heq]
    exact h
  · have hpeer := hsafe hsock hunp (by rw [hl]; rfl)
    obtain ⟨hcreated, -, hsame⟩ := h.create hconn unp.type false
    obtain ⟨hne, hu', hconn'⟩ := unps_put hu hconn (freshUnpcb unp.type false)
    have hlinked : UnixInv (linked s u conn unp.type) := hcreated.join hu' hconn' hne hpeer rfl
    have hnew : (linked s u conn unp.type).unps conn =
        some { freshUnpcb unp.type false with peer := some u, state := .connected } := by
      unfold linked joined
      rw [modify_eq_put ((update_of_ne hne.symm ..).trans hconn')]
      exact update_self ..
    have hqueues : queueOf (linked s u conn unp.type) = queueOf s :=
      ((queueOf_modify (by exact fun _ => rfl)).trans
        (queueOf_modify (by exact fun _ => rfl))).trans hsame
    have hout : ∀ v, conn ∉ queueOf (linked s u conn unp.type) v := by
      rw [hqueues]
      exact h.not_queued (views_none hconn).2.2.2
    rcases heq with heq | heq
    · obtain ⟨y, hy, -⟩ := (Option.any_eq_true _ _).1 (Option.filter_eq_some_iff.1 hl).2
      have hlive : Option.isSome ∘ (linked s u conn unp.type).unps =
          Option.isSome ∘ (s.put conn (freshUnpcb unp.type false)).unps :=
        (view_modify _ (by exact fun _ => rfl)).trans (view_modify _ (by exact fun _ => rfl))
      obtain ⟨z, hz⟩ : ∃ z, (linked s u conn unp.type).unps l = some z := by
        apply Option.isSome_iff_exists.1
        apply (congrFun hlive l).trans
        rw [comp_apply, (unps_put hy hconn _).2.1]
        rfl
      rw [heq]
      exact hlinked.enqueue hz ((isWaiting_some hnew).trans rfl) hout
    · rw [heq]
      exact hlinked.close hnew hout (nomatch ·)

theorem UnixInv.socketpair (h : UnixInv s) {u1 u2 : ℕ} (h1 : s.unps u1 = none)
    (h2 : s.unps u2 = none) (hne : u1 ≠ u2) (mem1 mem2 : Bool) (type : BitVec 8) :
    UnixInv (unixSocketpair mem1 mem2 s u1 u2 type).1 := by
  obtain ⟨hfirst, -⟩ := h.create h1 type true
  have h2' : (s.put u1 (freshUnpcb type true)).unps u2 = none :=
    (update_of_ne hne.symm ..).trans h2
  obtain ⟨hsecond, -⟩ := hfirst.create h2' type true
  obtain ⟨-, hu1, hu2⟩ := unps_put (update_self ..) h2' (freshUnpcb type true)
  unfold unixSocketpair
  split
  · exact h
  split
  · exact hfirst
  exact hsecond.join hu1 hu2 hne rfl rfl

/-- One safe call keeps the invariant. -/
theorem unixInv_step {e : UnixCall} (h : UnixInv s) (hsafe : UnixSafe s e)
    (hstep : unixStep s e = some s') : UnixInv s' := by
  unfold unixStep at hstep
  cases e with
  | create mem u type =>
    dsimp only at hstep
    split at hstep
    next hnone =>
      cases hstep
      unfold unixSocketCreate
      split
      · exact h
      · exact (h.create (isNone_iff_eq_none.1 hnone) type true).1
    next => cases hstep
  | bind u path =>
    obtain ⟨unp, hheld, rfl⟩ := map_eq_some_iff.1 hstep
    exact h.bind (heldUnpcb_eq_some hheld).1 path
  | listen u backlog =>
    obtain ⟨unp, hheld, rfl⟩ := map_eq_some_iff.1 hstep
    exact h.listen (heldUnpcb_eq_some hheld).1 backlog
  | connect =>
    dsimp only at hstep
    split at hstep
    next hnone =>
      obtain ⟨unp, hheld, hstep⟩ := Option.bind_eq_some_iff.1 hstep
      obtain ⟨res, hres, rfl⟩ := map_eq_some_iff.1 hstep
      have hu := (heldUnpcb_eq_some hheld).1
      apply h.connect hu (isNone_iff_eq_none.1 hnone) _ hres
      intro hsock hunp hfound
      have hpeer := hsafe hsock hunp hfound
      rw [hu] at hpeer
      exact isNone_iff_eq_none.1 hpeer
    next => cases hstep
  | accept =>
    obtain ⟨unp, hheld, rfl⟩ := map_eq_some_iff.1 hstep
    exact h.accept (heldUnpcb_eq_some hheld).1
  | socketpair mem1 mem2 u1 u2 type =>
    dsimp only at hstep
    split at hstep
    next hnew =>
      cases hstep
      exact h.socketpair (isNone_iff_eq_none.1 hnew.1)
        (isNone_iff_eq_none.1 hnew.2.1) hnew.2.2 mem1 mem2 type
    next => cases hstep
  | send | recv =>
    obtain ⟨unp, -, rfl⟩ := map_eq_some_iff.1 hstep
    exact h
  | close =>
    obtain ⟨unp, hheld, rfl⟩ := map_eq_some_iff.1 hstep
    obtain ⟨hu, hheld⟩ := heldUnpcb_eq_some hheld
    apply h.close hu
    · apply h.not_queued
      rw [isWaiting_some hu, hheld]
      rfl
    · intro hbound
      unfold UnixSafe at hsafe
      dsimp only at hsafe
      rw [hu] at hsafe
      simpa [hbound] using hsafe

/-- A step that is not safe leaves a good state. -/
theorem not_unixOk_step {e : UnixCall} (h : UnixInv s) (hbroken : ¬ UnixSafe s e)
    (hstep : unixStep s e = some s') : ¬ UnixOk s' := by
  intro hok
  unfold unixStep at hstep
  cases e with
  | connect sockMem unpMem u path conn =>
    dsimp only at hstep
    split at hstep
    next hnone =>
      obtain ⟨unp, hheld, hstep⟩ := Option.bind_eq_some_iff.1 hstep
      obtain ⟨res, hres, rfl⟩ := map_eq_some_iff.1 hstep
      have hu := (heldUnpcb_eq_some hheld).1
      have hconn := isNone_iff_eq_none.1 hnone
      unfold UnixSafe at hbroken
      simp only [Classical.not_imp, hu, all_some] at hbroken
      obtain ⟨hsock, hunp, hfound, hpeer⟩ := hbroken
      obtain ⟨b, hb⟩ := Option.ne_none_iff_exists'.1 fun hc => hpeer (isNone_iff_eq_none.2 hc)
      -- the peer that is left behind still points to the caller
      have hlink : peerOf s u = some b := (peerOf_some hu).trans hb
      have hback := h.paired u b hlink
      have hbu : b ≠ u := by
        rintro rfl
        exact h.apart b hlink
      have hbc : b ≠ conn := by
        rintro rfl
        rw [(views_none hconn).1] at hback
        cases hback
      obtain ⟨huc, hu', hconn'⟩ := unps_put hu hconn (freshUnpcb unp.type false)
      have hpeers : peerOf (linked s u conn unp.type) =
          update (update (peerOf s) u (some conn)) conn (some u) := by
        unfold linked
        rw [peerOf_joined hu' hconn' huc, (h.create hconn unp.type false).2.1]
      rcases unixSocketConnect_cases hres with ⟨-, hnot⟩ | ⟨-, -, l, hl, heq | heq⟩
      · exact hnot ⟨hsock, hunp, hfound⟩
      · rw [heq] at hok
        have hpaired := hok.paired
        rw [peerOf_modify (by exact fun _ => rfl), hpeers] at hpaired
        have hu' := hpaired b u (by rw [update_of_ne hbc, update_of_ne hbu, hback])
        rw [update_of_ne huc, update_self] at hu'
        exact hbc (Option.some.inj hu').symm
      · rw [heq] at hok
        have hpaired := hok.paired
        rw [peerOf_close, Option.elim_some, hpeers] at hpaired
        have hu' := hpaired b u (by
          rw [update_of_ne hbc, update_of_ne hbu, update_of_ne hbc, update_of_ne hbu, hback])
        rw [update_of_ne huc, update_self] at hu'
        cases hu'
    next => cases hstep
  | close u =>
    obtain ⟨unp, hheld, rfl⟩ := map_eq_some_iff.1 hstep
    have hu := (heldUnpcb_eq_some hheld).1
    unfold UnixSafe at hbroken
    simp only [hu, all_some, Bool.or_eq_true, Bool.not_eq_true', decide_eq_true_eq,
      not_or, Bool.not_eq_false] at hbroken
    obtain ⟨⟨hbound, hnotBound⟩, hnotListening⟩ := hbroken
    -- the address stays on the list
    have hmem : u ∈ (unixSocketClose s u unp).listeners := by
      have hlisted : u ∈ s.listeners := by
        rw [h.listed u, isBound_some hu]
        exact hbound
      unfold unixSocketClose
      rw [if_neg (by rintro (hc | hc); exacts [hnotBound hc, hnotListening hc])]
      cases unp.peer <;> exact hlisted
    obtain ⟨x, hx, -⟩ := (hok.listeners u).1 hmem
    have hfreed : (unixSocketClose s u unp).unps u = none := update_self ..
    rw [hfreed] at hx
    cases hx
  | _ => exact hbroken trivial

theorem unixInv_init : UnixInv ⟨fun _ => none, []⟩ := by
  refine ⟨?_, ?_, ?_, List.nodup_nil, ?_, ?_, ?_, ?_⟩
  · exact fun a b hab => (nomatch hab)
  · exact fun a ha => (nomatch ha)
  · exact fun u => ⟨(nomatch ·), (nomatch ·)⟩
  · exact fun u x hx => (nomatch hx)
  · exact fun u c hc => (nomatch hc)
  · exact fun u => List.nodup_nil
  · exact fun u v c hc => (nomatch hc)

/-- In every state of a run of safe calls the links are in order, and exactly the safe calls lead on
to such a state. -/
theorem unix_links_of_safe_run (h : unixSystem.Reachable UnixSafe s) :
    UnixOk s ∧ ∀ e s', unixStep s e = some s' → (UnixOk s' ↔ UnixSafe s e) := by
  have hinv : UnixInv s := by
    apply h.invariant
    · rintro s rfl
      exact unixInv_init
    · exact fun s e s' hs hsafe hstep => unixInv_step hs hsafe hstep
  refine ⟨hinv.ok, ?_⟩
  intro e s' hstep
  constructor
  · intro hok
    by_contra hbroken
    exact not_unixOk_step hinv hbroken hstep hok
  · exact fun hsafe => (unixInv_step hinv hsafe hstep).ok

end

/-! ## Concrete runs -/

/-- A server listens and a client connects. -/
def serveCalls : List UnixCall :=
  [.create true 10 1, .bind 10 [1], .listen 10 8, .create true 11 1, .connect true true 11 [1] 12]

theorem unix_links_of_safe_run_served :
    ∃ s, BoredOS.Lib.Transition.System.runWithin unixStep UnixSafe ⟨fun _ => none, []⟩
        (serveCalls ++ [.accept 10, .send 11 none, .close 10]) = some s ∧
      peerOf s 11 = some 12 ∧ s.listeners = [] ∧ UnixOk s := by
  refine (Lib.Transition.exists_of_any
    (P := fun s => peerOf s 11 = some 12 ∧ s.listeners = []) ?_).imp
    fun s ⟨hrun, hpeer, hlist⟩ => ⟨hrun, hpeer, hlist, (unix_links_of_safe_run ?_).1⟩
  · decide +kernel
  · exact .of_runWithin (fun _ _ _ => id) (.start rfl) hrun

def unixRun (s : UnixState) (calls : List UnixCall) : Option UnixState := calls.foldlM unixStep s

/-- A client that is bound connects and is closed, and its address stays on the list. A client
connects twice, and the other end of the first connection keeps the link. -/
theorem unix_links_left : (∃ s, unixRun ⟨fun _ => none, []⟩
        (serveCalls.take 4 ++ [.bind 11 [2], .connect true true 11 [1] 12, .close 11]) = some s ∧
      s.listeners = [11, 10] ∧ s.unps 11 = none ∧ ¬ UnixOk s) ∧
    ∃ s, unixRun ⟨fun _ => none, []⟩ (serveCalls ++ [.connect true true 11 [1] 13]) = some s ∧
      peerOf s 12 = some 11 ∧ peerOf s 11 = some 13 ∧ ¬ UnixOk s := by
  refine ⟨⟨_, rfl, rfl, rfl, ?_⟩, _, rfl, rfl, rfl, ?_⟩
  · intro hok
    obtain ⟨x, hx, -⟩ := (hok.listeners 11).1 List.mem_cons_self
    cases hx
  · intro hok
    have hback := hok.paired 12 11 rfl
    cases hback

end BoredOS.Net.UnixSocket
