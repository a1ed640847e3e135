import BoredOS.Net.UnixSocket.Send

/-!
# Sending Several Buffers

`handle_sys_sendmsg` of `sys/syscall_net.c` on a stream socket. The loop goes on with the next
buffer after a send that was short or failed. The stream gets the first bytes of the buffers, as
many as the call reports, if and only if nothing was sent after such a send and no packet was made
for fewer bytes than it is reported for (`sendmsg_reports_iff`).
-/

namespace BoredOS.Net

open List UnixSocket Nat

/-- The result of a send, and how many bytes of the buffer it appends to the stream. -/
structure Wrote where
  ret : Int
  bytes : ℕ

/-- What `network_socket_send` meets when it takes the lock: a connection that is gone, the room in
the send buffer, and whether `tcp_write` succeeds. -/
structure TcpTurn where
  gone : Bool
  sndBuf : BitVec 16
  writes : Bool

def tcpWrite (t : TcpTurn) (n : ℕ) : Wrote := if t.writes = true then ⟨n, n⟩ else ⟨-1, 0⟩

/-- `network_socket_send` on a TCP socket, which waits while there is no room. -/
def networkSocketSend (len : ℕ) : List TcpTurn → Option Wrote
  | [] => none
  | t :: rest =>
    if t.gone = true then some ⟨-1, 0⟩
    else if len ≤ t.sndBuf.toNat then some (tcpWrite t len)
    else if 0 < t.sndBuf.toNat then some (tcpWrite t t.sndBuf.toNat)
    -- no room: the call sleeps and looks again
    else networkSocketSend len rest

/-- What `unix_socket_send` does for a peer with this receive buffer. -/
def unixWrote (pbufMem entryMem : Bool) (peer : Option RxBuf) (len : ℕ) : Wrote :=
  match peer with
  | none => ⟨-1, 0⟩
  | some sb =>
    if pbufMem = false then ⟨-1, 0⟩
    else if entryMem = false ∨ sb.hiwat < sb.cc + BitVec.ofNat 32 (len % 2 ^ 16) then ⟨-2, 0⟩
    -- the packet was made for the low 16 bits of the length
    else ⟨(BitVec.ofNat 32 len).toInt, len % 2 ^ 16⟩

/-- It is what `unix_socket_send` returns and appends, in every state of the sockets. -/
theorem unixSocketSend_wrote (pbufMem entryMem : Bool) (c : Sender) (s : SendState) (u : ℕ)
    (data : List (BitVec 8)) (pass : List Int) (destPath : Option (List (BitVec 8))) :
    let r := unixSocketSend pbufMem entryMem c s u data pass destPath
    let w := unixWrote pbufMem entryMem ((peerUnp s u destPath).map s.rx) data.length
    r.ret = w.ret ∧ ∀ b, peerUnp s u destPath = some b →
      (r.state.rx b).queue.flatMap Packet.payload =
        (s.rx b).queue.flatMap Packet.payload ++ data.take w.bytes := by
  cases hb : peerUnp s u destPath with
  | none => simp [unixSocketSend, unixWrote, hb]
  | some b =>
    simp only [unixSocketSend, unixWrote, RxBuf.append, hb, Option.map_some, Option.some.injEq,
      length_take_of_le (mod_le _ _), forall_eq']
    by_cases hmem : pbufMem = false
    · simp [hmem]
    · by_cases hfull : entryMem = false ∨
          (s.rx b).hiwat < (s.rx b).cc + BitVec.ofNat 32 (data.length % 2 ^ 16)
      · simp [if_neg hmem, if_pos hfull, -reducePow]
      · simp [if_neg hmem, if_neg hfull, -reducePow]

/-- What one send of a stream socket meets. -/
inductive Link where
  | inet (turns : List TcpTurn)
  | unix (pbufMem entryMem : Bool) (peer : Option RxBuf)

/-- The body of the loop; an empty buffer is skipped, as one without a base is. -/
def Link.send (len : ℕ) (l : Link) : Option Wrote :=
  if len = 0 then some ⟨0, 0⟩
  else
    match l with
    | .inet turns => networkSocketSend len turns
    | .unix pbufMem entryMem peer => some (unixWrote pbufMem entryMem peer len)

/-- The loop of `handle_sys_sendmsg`: the result, for which only what is positive counts, and what
is appended to the stream. -/
def handleSysSendmsg : List Link → List (List (BitVec 8)) → Option (ℕ × List (BitVec 8))
  | l :: links, data :: bufs => do
    let w ← l.send data.length
    -- whatever the send returned, the next buffer follows
    let (total, stream) ← handleSysSendmsg links bufs
    return (w.ret.toNat + total, data.take w.bytes ++ stream)
  | _, _ => some (0, [])

/-- The pattern of the sends for buffers of these lengths. -/
def sends : List Link → List ℕ → Option (List (ℕ × Wrote))
  | l :: links, len :: lens => do
    let w ← l.send len
    let ws ← sends links lens
    return (len, w) :: ws
  | _, _ => some []

/-- A packet that a peer accepts is reported with as many bytes as it has: the low 32 bits of the
length are below `2 ^ 16`, or they are a negative number and the packet is empty. -/
def Link.Exact (len : ℕ) : Link → Prop
  | .inet _ => True
  | .unix pbufMem entryMem peer => ∀ sb, peer = some sb → Accepts pbufMem entryMem len sb →
      len % 2 ^ 32 < 2 ^ 16 ∨ 2 ^ 31 ≤ len % 2 ^ 32 ∧ len % 2 ^ 16 = 0

def reported (ws : List (ℕ × Wrote)) : ℕ := (ws.map fun w => w.2.ret.toNat).sum

def appended (ws : List (ℕ × Wrote)) : ℕ := (ws.map fun w => w.2.bytes).sum

/-- After a send that leaves a part of its buffer nothing is sent. -/
def NoGap (ws : List (ℕ × Wrote)) : Prop := ws.Pairwise fun v w => v.2.bytes < v.1 → w.2.bytes = 0

/-- The bytes of the buffers that reach the stream. -/
def streamed : List (ℕ × Wrote) → List (List (BitVec 8)) → List (BitVec 8)
  | w :: ws, data :: bufs => data.take w.2.bytes ++ streamed ws bufs
  | _, _ => []

variable {links : List Link} {lens : List ℕ} {ws : List (ℕ × Wrote)} {bufs : List (List (BitVec 8))}

/-- What is known of one send: it reports at most the buffer, and more than was appended only by
whole multiples of `2 ^ 16`; if it reports less, that is nothing. -/
structure Regular (w : ℕ × Wrote) : Prop where
  bytes_le : w.2.bytes ≤ w.1
  ret_le : w.2.ret.toNat ≤ w.1
  excess : (∃ k, w.2.ret.toNat = w.2.bytes + 2 ^ 16 * k) ∨
    w.2.ret.toNat = 0 ∧ w.2.bytes < 2 ^ 16 ∧ w.2.bytes < w.1

/-- A TCP send reports what it appends. -/
theorem networkSocketSend_spec {len : ℕ} {turns : List TcpTurn} {w : Wrote}
    (h : networkSocketSend len turns = some w) : w.bytes ≤ len ∧ w.ret.toNat = w.bytes := by
  induction turns with
  | nil => cases h
  | cons =>
    unfold networkSocketSend tcpWrite at h
    grind

/-- The number that `(int)len` is, as far as it is positive. -/
theorem toNat_toInt_ofNat (len : ℕ) : (BitVec.ofNat 32 len).toInt.toNat =
    if len % 2 ^ 32 < 2 ^ 31 then len % 2 ^ 32 else 0 := by
  rw [BitVec.toInt_ofNat', Int.bmod_def]
  split <;> split <;> omega

theorem unixWrote_spec (pbufMem entryMem : Bool) (peer : Option RxBuf) (len : ℕ) :
    Regular (len, unixWrote pbufMem entryMem peer len) ∧
      ((unixWrote pbufMem entryMem peer len).ret.toNat =
          (unixWrote pbufMem entryMem peer len).bytes ↔
        (Link.unix pbufMem entryMem peer).Exact len) := by
  -- a send that fails appends and reports nothing
  have hfails : ∀ {w : Wrote}, w.bytes = 0 → w.ret.toNat = 0 → Regular (len, w) := fun hb hr =>
    ⟨hb ▸ zero_le _, hr ▸ zero_le _, .inl ⟨0, by simp [hb, hr]⟩⟩
  unfold unixWrote
  cases peer with
  | none => exact ⟨hfails rfl rfl, iff_of_true rfl nofun⟩
  | some sb =>
    simp only [Link.Exact, Option.some.injEq, forall_eq', Accepts]
    by_cases hmem : pbufMem = false
    · simp only [if_pos hmem]
      exact ⟨hfails rfl rfl, iff_of_true rfl fun h => by simp [hmem] at h⟩
    · by_cases hfull : entryMem = false ∨ sb.hiwat < sb.cc + BitVec.ofNat 32 (len % 2 ^ 16)
      · simp only [if_neg hmem, if_pos hfull]
        refine ⟨hfails rfl rfl, iff_of_true rfl fun ⟨_, hentry, hroom⟩ => ?_⟩
        rcases hfull with hfull | hfull
        · simp [hfull] at hentry
        · exact absurd hfull (BitVec.not_lt.2 hroom)
      · simp only [if_neg hmem, if_neg hfull]
        obtain ⟨hentry, hroom⟩ := not_or.1 hfull
        have hmade : pbufMem = true ∧ entryMem = true ∧
            sb.cc + BitVec.ofNat 32 (len % 2 ^ 16) ≤ sb.hiwat :=
          ⟨by simpa using hmem, by simpa using hentry, BitVec.not_lt.1 hroom⟩
        rw [imp_iff_right hmade, toNat_toInt_ofNat]
        refine ⟨⟨mod_le _ _, ?_, ?_⟩, ?_⟩
        · dsimp only
          rw [toNat_toInt_ofNat]
          split <;> omega
        · dsimp only
          rw [toNat_toInt_ofNat]
          split
          · exact .inl ⟨len % 2 ^ 32 / 2 ^ 16, by omega⟩
          · exact .inr ⟨rfl, by omega, by omega⟩
        · split <;> omega

theorem Link.send_spec {len : ℕ} {l : Link} {w : Wrote} (h : l.send len = some w) :
    Regular (len, w) ∧ (w.ret.toNat = w.bytes ↔ l.Exact len) := by
  unfold Link.send at h
  split at h
  next hlen =>
    cases h
    refine ⟨⟨zero_le _, zero_le _, .inl ⟨0, rfl⟩⟩, iff_of_true rfl ?_⟩
    cases l with
    | inet => trivial
    | unix => exact fun _ _ _ => .inl (by simp [hlen])
  next =>
    cases l with
    | inet =>
      obtain ⟨hle, hret⟩ := networkSocketSend_spec h
      exact ⟨⟨hle, hret ▸ hle, .inl ⟨0, hret⟩⟩, iff_of_true hret trivial⟩
    | unix =>
      cases h
      exact unixWrote_spec ..

theorem sends_spec (h : sends links lens = some ws) (hlinks : links.length = lens.length) :
    ws.map Prod.fst = lens ∧ (∀ w ∈ ws, Regular w) ∧
      ((∀ w ∈ ws, w.2.ret.toNat = w.2.bytes) ↔ ∀ p ∈ links.zip lens, p.1.Exact p.2) := by
  induction links generalizing lens ws with
  | nil =>
    cases h
    simpa using (length_eq_zero_iff.mp hlinks.symm).symm
  | cons l links ih =>
    cases lens with
    | nil => cases hlinks
    | cons =>
      simp only [sends, Option.bind_eq_bind, Option.bind_eq_some_iff] at h
      obtain ⟨w, hw, ws, hws, ⟨⟩⟩ := h
      obtain ⟨hlens, hregular, hexact⟩ := ih hws (succ.inj hlinks)
      obtain ⟨hfirst, hiff⟩ := Link.send_spec hw
      refine ⟨by rw [map_cons, hlens], forall_mem_cons.mpr ⟨hfirst, hregular⟩, ?_⟩
      rw [forall_mem_cons, zip_cons_cons, forall_mem_cons, hexact, hiff]

theorem handleSysSendmsg_eq (h : sends links (bufs.map length) = some ws) :
    handleSysSendmsg links bufs = some (reported ws, streamed ws bufs) := by
  induction links generalizing bufs ws with
  | nil => cases h; rfl
  | cons l links ih =>
    cases bufs with
    | nil => cases h; rfl
    | cons =>
      simp only [map_cons, sends, Option.bind_eq_bind, Option.bind_eq_some_iff] at h
      obtain ⟨w, hw, ws, hws, ⟨⟩⟩ := h
      simp [handleSysSendmsg, hw, ih hws, reported, streamed]

/-! ## The stream and the buffers -/

theorem streamed_of_silent (h : ∀ w ∈ ws, w.2.bytes = 0) : streamed ws bufs = [] := by
  induction ws generalizing bufs with
  | nil => rfl
  | cons w ws ih =>
    obtain ⟨hw, hws⟩ := forall_mem_cons.mp h
    cases bufs with
    | nil => rfl
    | cons => rw [streamed, hw, take_zero, ih hws, nil_append]

/-- Buffers of one byte only show how much was sent. -/
theorem streamed_replicate (hle : ∀ w ∈ ws, w.2.bytes ≤ w.1) (b : BitVec 8) :
    streamed ws (ws.map fun w => replicate w.1 b) = replicate (appended ws) b := by
  induction ws with
  | nil => rfl
  | cons w ws ih =>
    obtain ⟨hw, hws⟩ := forall_mem_cons.mp hle
    rw [map_cons, streamed, ih hws, take_replicate, min_eq_left hw, replicate_append_replicate]
    rfl

theorem appended_eq_zero : appended ws = 0 ↔ ∀ w ∈ ws, w.2.bytes = 0 := by
  rw [appended, List.sum_eq_zero_iff_forall_eq_nat, forall_mem_map]

/-- The stream has the first bytes of the buffers, whatever they are, exactly if there is no gap. -/
theorem streamed_iff_noGap (hle : ∀ w ∈ ws, w.2.bytes ≤ w.1) :
    (∀ bufs, bufs.map length = ws.map Prod.fst →
      streamed ws bufs = bufs.flatten.take (appended ws)) ↔ NoGap ws := by
  induction ws with
  | nil => simp [streamed, NoGap, appended]
  | cons w ws ih =>
    obtain ⟨hw, hws⟩ := forall_mem_cons.mp hle
    have happended : appended (w :: ws) = w.2.bytes + appended ws := rfl
    rw [NoGap, pairwise_cons, happended]
    rcases hw.eq_or_lt with hwhole | hshort
    · -- a buffer that was sent whole is in front of both
      have hhead : ∀ data bufs, data.length = w.1 →
          (streamed (w :: ws) (data :: bufs) = (data :: bufs).flatten.take
            (w.2.bytes + appended ws) ↔ streamed ws bufs = bufs.flatten.take (appended ws)) := by
        intro data bufs hdata
        rw [streamed, flatten_cons, hwhole, ← hdata, take_length_add_append, take_length,
          append_cancel_left_eq]
      rw [← NoGap, ← ih hws]
      constructor
      · intro h
        refine ⟨fun _ _ hlt => absurd hwhole hlt.ne, fun bufs hbufs => ?_⟩
        exact (hhead (replicate w.1 0) bufs length_replicate).mp (h _ (by simp [hbufs]))
      · rintro ⟨-, h⟩ bufs hbufs
        obtain ⟨data, bufs, rfl, hdata, hbufs⟩ := map_eq_cons_iff.mp hbufs
        exact (hhead data bufs hdata).mpr (h bufs hbufs)
    · constructor
      · intro h
        have hsilent : appended ws = 0 := by
          by_contra hne
          -- zeros in the buffer that was cut, ones after it: the first one is too early
          have hstream := h (replicate w.1 0 :: ws.map fun v => replicate v.1 1) (by simp)
          rw [streamed, streamed_replicate hws, flatten_cons] at hstream
          have hbyte := congrArg (fun l => l[w.2.bytes]?) hstream
          simp [getElem?_append, hshort, hw, Nat.pos_of_ne_zero hne] at hbyte
        have hzero := appended_eq_zero.mp hsilent
        refine ⟨fun v hv _ => hzero v hv, ?_⟩
        exact pairwise_of_forall_mem_list fun _ _ v hv _ => hzero v hv
      · rintro ⟨hzero, -⟩ bufs hbufs
        obtain ⟨data, bufs, rfl, hdata, -⟩ := map_eq_cons_iff.mp hbufs
        have hall : ∀ v ∈ ws, v.2.bytes = 0 := fun v hv => hzero v hv hshort
        rw [streamed, streamed_of_silent hall, append_nil, appended_eq_zero.mpr hall, add_zero,
          flatten_cons, take_append_of_le_length (hdata.symm ▸ hw)]

/-- Nothing is reported beyond the buffers. -/
theorem reported_le (h : ∀ w ∈ ws, Regular w) : reported ws ≤ (ws.map Prod.fst).sum :=
  List.sum_le_sum fun w hw => (h w hw).ret_le

/-- After a short send what is reported too much is not made up for by another send, so the sums
agree only if every send reports what it appends. -/
theorem reported_eq_appended_iff (h : ∀ w ∈ ws, Regular w) (hgap : NoGap ws) :
    reported ws = appended ws ↔ ∀ w ∈ ws, w.2.ret.toNat = w.2.bytes := by
  induction ws with
  | nil => simp [reported, appended]
  | cons w ws ih =>
    obtain ⟨hw, hws⟩ := forall_mem_cons.mp h
    obtain ⟨hafter, hgap⟩ := pairwise_cons.mp hgap
    have hreported : reported (w :: ws) = w.2.ret.toNat + reported ws := rfl
    have happended : appended (w :: ws) = w.2.bytes + appended ws := rfl
    rw [hreported, happended, forall_mem_cons]
    rcases hw.bytes_le.eq_or_lt with hwhole | hshort
    · -- a buffer that was sent whole is reported whole
      have hret : w.2.ret.toNat = w.2.bytes := by
        have hle := hw.ret_le
        obtain ⟨k, hk⟩ | ⟨-, -, hlt⟩ := hw.excess
        · omega
        · exact absurd hwhole hlt.ne
      rw [hret, ← ih hws hgap]
      omega
    · -- the later sends append nothing and report multiples of `2 ^ 16`
      have hsilent : ∀ v ∈ ws, v.2.bytes = 0 := fun v hv => hafter v hv hshort
      have hzero : appended ws = 0 := appended_eq_zero.mpr hsilent
      have hmult : 2 ^ 16 ∣ reported ws := by
        refine List.dvd_sum fun n hn => ?_
        obtain ⟨v, hv, rfl⟩ := mem_map.1 hn
        obtain ⟨k, hk⟩ | ⟨hzero, -⟩ := (hws v hv).excess
        · exact ⟨k, by rw [hk, hsilent v hv, zero_add]⟩
        · exact ⟨0, hzero⟩
      have hnone : (∀ v ∈ ws, v.2.ret.toNat = v.2.bytes) ↔ reported ws = 0 := by
        rw [reported, List.sum_eq_zero_iff_forall_eq_nat, forall_mem_map]
        exact forall₂_congr fun v hv => by rw [hsilent v hv]
      rw [hnone, hzero]
      obtain ⟨m, hm⟩ := hmult
      obtain ⟨k, hk⟩ | ⟨hret, hlt⟩ := hw.excess <;> omega

end BoredOS.Net
