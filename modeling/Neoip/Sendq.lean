/-
Neoip/Sendq.lean

The send queue of a connection, `bt_swarm_full_sendq_t`, on the transmit buffer
of its socket.

A command which is queued waits in `cmd_queue` until the buffer has the room
which `get_datum_len` announces.  At the front, a `BLOCK_REP` first launches a
`bt_io_read_t` for its data, and is sent when the read completes; any other
command is sent at once, as `to_datum` builds it.  The buffer takes no more than
what fits: `socket_full_t::send` clamps what it is given.

The last three fields of `Sendq` are its history, which no function reads: all
the commands queued, which of them were cancelled, and what was sent for which.
A command is known by its rank in this history, its ticket, so that two equal
commands can be told apart.

Main result: `Sendq.always_wellSent_iff`.  The queue does what it should in the
whole run exactly when no block read completes where `size_t` is serialized as
a `uint64_t`; the order and the front of the queue are right in any case
(`SendqInv`).
-/
import Neoip.Wire

namespace Neoip

/-- The platform, the torrent and the socket of a send queue.  `xmitbuf_maxlen` is none when
it is unlimited. -/
structure SendqCfg where
  nb_piece : ℕ
  size_t : SizeT
  xmitbuf_maxlen : Option ℕ

/-- A command in the queue. -/
structure Queued where
  ticket : ℕ
  bt_cmd : WireCmd
deriving DecidableEq, Repr

/-- A command which was sent, with the bytes given to the socket. -/
structure Sent where
  ticket : ℕ
  bt_cmd : WireCmd
  datum : Datum
deriving DecidableEq, Repr

/-- A `bt_io_read_t`.  It is not pending any more once it notified an error. -/
structure IoRead where
  prange : Prange
  pending : Bool
deriving DecidableEq, Repr

/-- `bt_swarm_full_sendq_t`. -/
structure Sendq where
  cmd_queue : List Queued
  bt_io_read : Option IoRead
  xmitbuf_usedlen : ℕ
  /-- All that the transmit buffer received. -/
  stream : Datum
  queued : List WireCmd
  cancelled : List ℕ
  sent : List Sent
deriving DecidableEq

/-- What is on the disk: the data which is read has the length of its range. -/
structure BlockIo where
  read : Prange → Datum
  length_read : ∀ prange, (read prange).length = prange.length

/-- The calls of a send queue. -/
inductive SendqCall
  | queueCmd (bt_cmd : WireCmd)
  | removeOneBlockRep (prange : Prange)
  | removeAllBlockRep
  | notifyMaysend
  /-- The socket writes out the head of its transmit buffer. -/
  | xmitted (written_len : ℕ)
  | ioReadDone (io : BlockIo)
  | ioReadFailed

/-- A call, with the pieces which are locally available at that time. -/
structure SendqEvent (cfg : SendqCfg) where
  local_pavail : Pieceavail
  size : local_pavail.length = cfg.nb_piece
  call : SendqCall

namespace Sendq

variable (cfg : SendqCfg) (local_pavail : Pieceavail)

def start : Sendq where
  cmd_queue := []
  bt_io_read := none
  xmitbuf_usedlen := 0
  stream := []
  queued := []
  cancelled := []
  sent := []

/-- `xmitbuf_freelen() < cmd_len`. -/
def noRoom (s : Sendq) (cmd_len : ℕ) : Bool :=
  match cfg.xmitbuf_maxlen with
  | none => false
  | some maxlen => maxlen - s.xmitbuf_usedlen < cmd_len

/-- `socket_full_t::send`. -/
def send (s : Sendq) (datum : Datum) : Sendq :=
  let sendlen :=
    match cfg.xmitbuf_maxlen with
    | none => datum.length
    | some maxlen => min datum.length (maxlen - s.xmitbuf_usedlen)
  { s with
    xmitbuf_usedlen := s.xmitbuf_usedlen + sendlen
    stream := s.stream ++ datum.take sendlen }

/-- Note what is sent for a command. -/
def note (s : Sendq) (next : Queued) (datum : Datum) : Sendq :=
  { s with sent := s.sent ++ [⟨next.ticket, next.bt_cmd, datum⟩] }

/-- `send_front_cmd`.  The bool is `not_sent`. -/
def sendFrontCmd (s : Sendq) : Sendq × Bool :=
  match s.cmd_queue with
  | [] => (s, true)
  | next :: cmd_queue =>
    if s.noRoom cfg (next.bt_cmd.getDatumLen local_pavail) then (s, true)
    else
      match next.bt_cmd with
      | .blockRep prange =>
        match s.bt_io_read with
        | some _ => (s, true)
        | none => ({ s with bt_io_read := some ⟨prange, true⟩ }, true)
      | bt_cmd =>
        let cmd_datum := bt_cmd.toDatum local_pavail
        (({ s with cmd_queue }.send cfg cmd_datum).note next cmd_datum, false)

@[simp] theorem cmd_queue_send (s : Sendq) (datum : Datum) :
    (s.send cfg datum).cmd_queue = s.cmd_queue := rfl

@[simp] theorem cmd_queue_note (s : Sendq) (next : Queued) (datum : Datum) :
    (s.note next datum).cmd_queue = s.cmd_queue := rfl

/-- What `send_front_cmd` does: nothing, the launch of a read, or one command less. -/
theorem sendFrontCmd_cases (s : Sendq) :
    s.sendFrontCmd cfg local_pavail = (s, true) ∨
    (∃ next cmd_queue prange, s.cmd_queue = next :: cmd_queue ∧ next.bt_cmd = .blockRep prange ∧
      s.noRoom cfg (next.bt_cmd.getDatumLen local_pavail) = false ∧ s.bt_io_read = none ∧
      s.sendFrontCmd cfg local_pavail = ({ s with bt_io_read := some ⟨prange, true⟩ }, true)) ∨
    (∃ next cmd_queue, s.cmd_queue = next :: cmd_queue ∧ next.bt_cmd.isBlockRep = false ∧
      s.noRoom cfg (next.bt_cmd.getDatumLen local_pavail) = false ∧
      s.sendFrontCmd cfg local_pavail =
        (({ s with cmd_queue }.send cfg (next.bt_cmd.toDatum local_pavail)).note next
          (next.bt_cmd.toDatum local_pavail), false)) := by
  generalize hres : s.sendFrontCmd cfg local_pavail = res
  simp only [sendFrontCmd] at hres
  split at hres
  · exact .inl hres.symm
  next next cmd_queue hqueue =>
  split at hres
  · exact .inl hres.symm
  next hroom =>
  rw [Bool.not_eq_true] at hroom
  split at hres
  · next prange hcmd =>
      split at hres
      · exact .inl hres.symm
      · next hread =>
          exact .inr (.inl ⟨next, cmd_queue, prange, hqueue, hcmd, hroom, hread, hres.symm⟩)
  · next hcmd =>
      refine .inr (.inr ⟨next, cmd_queue, hqueue, ?_, hroom, hres.symm⟩)
      cases h : next.bt_cmd with
      | blockRep prange => exact absurd h (hcmd prange)
      | _ => rfl

/-- `fill_socket_xmitbuf`: send from the front until one command is not sent. -/
def fillSocketXmitbuf (s : Sendq) : Sendq :=
  if s.cmd_queue = [] then s
  else
    match _h : s.sendFrontCmd cfg local_pavail with
    | (s', true) => s'
    | (s', false) => fillSocketXmitbuf s'
termination_by s.cmd_queue.length
decreasing_by
  rcases s.sendFrontCmd_cases cfg local_pavail with
    hsame | ⟨_, _, _, _, _, _, _, hread⟩ | ⟨next, cmd_queue, hqueue, _, _, hsent⟩
  · exact absurd (_h.symm.trans hsame) (by simp)
  · exact absurd (_h.symm.trans hread) (by simp)
  · obtain rfl := (Prod.mk.inj (_h.symm.trans hsent)).1
    rw [cmd_queue_note, cmd_queue_send, hqueue]
    exact Nat.lt_succ_self _

/-- The command at the end of the queue. -/
def pushBack (bt_cmd : WireCmd) (s : Sendq) : Sendq :=
  { s with
    cmd_queue := s.cmd_queue ++ [⟨s.queued.length, bt_cmd⟩]
    queued := s.queued ++ [bt_cmd] }

/-- `queue_cmd`. -/
def queueCmd (bt_cmd : WireCmd) (s : Sendq) : Sendq :=
  (s.pushBack bt_cmd).fillSocketXmitbuf cfg local_pavail

/-- The queue without a command, `bt_io_read` is deleted when it is the one of the front. -/
def eraseBlockRep (matching : Queued → Bool) (ticket : ℕ) (s : Sendq) : Sendq :=
  { s with
    bt_io_read := if s.cmd_queue.head?.any matching then none else s.bt_io_read
    cmd_queue := s.cmd_queue.eraseP matching
    cancelled := s.cancelled ++ [ticket] }

/-- `remove_one_block_rep`: the first command which is equal. -/
def removeOneBlockRep (prange : Prange) (s : Sendq) : Sendq :=
  let matching := fun q : Queued => decide (q.bt_cmd = .blockRep prange)
  match s.cmd_queue.find? matching with
  | none => s
  | some q => (s.eraseBlockRep matching q.ticket).fillSocketXmitbuf cfg local_pavail

/-- The queue without any `BLOCK_REP`, and `bt_io_read` deleted. -/
def eraseAllBlockRep (s : Sendq) : Sendq :=
  { s with
    bt_io_read := none
    cmd_queue := s.cmd_queue.filter fun q => !q.bt_cmd.isBlockRep
    cancelled := s.cancelled ++
      (s.cmd_queue.filter fun q => q.bt_cmd.isBlockRep).map Queued.ticket }

/-- `remove_all_block_rep`. -/
def removeAllBlockRep (s : Sendq) : Sendq := s.eraseAllBlockRep.fillSocketXmitbuf cfg local_pavail

/-- The reply is sent, `bt_io_read` is deleted. -/
def sendReply (ticket : ℕ) (cmd_prange : Prange) (cmd_queue : List Queued) (read_data : Datum)
    (s : Sendq) : Sendq :=
  let header := blockRepHeader cfg.size_t cmd_prange read_data.length
  let s := ({ s with cmd_queue, bt_io_read := none }.send cfg header).send cfg read_data
  s.note ⟨ticket, .blockRep cmd_prange⟩ (header ++ read_data)

/-- `neoip_bt_io_read_cb`, on success.  The callback asserts that the front is a
`BLOCK_REP`. -/
def ioReadDone (io : BlockIo) (s : Sendq) : Sendq :=
  match s.bt_io_read, s.cmd_queue with
  | some ⟨prange, true⟩, ⟨ticket, .blockRep cmd_prange⟩ :: cmd_queue =>
    (s.sendReply cfg ticket cmd_prange cmd_queue (io.read prange)).fillSocketXmitbuf cfg
      local_pavail
  | _, _ => s

/-- `neoip_bt_io_read_cb`, on an error, which is notified to the swarm.  The read stays. -/
def ioReadFailed (s : Sendq) : Sendq :=
  { s with bt_io_read := s.bt_io_read.map fun r => { r with pending := false } }

def xmitted (written_len : ℕ) (s : Sendq) : Sendq :=
  { s with xmitbuf_usedlen := s.xmitbuf_usedlen - written_len }

def step {cfg : SendqCfg} (s : Sendq) (e : SendqEvent cfg) : Sendq :=
  match e.call with
  | .queueCmd bt_cmd => s.queueCmd cfg e.local_pavail bt_cmd
  | .removeOneBlockRep prange => s.removeOneBlockRep cfg e.local_pavail prange
  | .removeAllBlockRep => s.removeAllBlockRep cfg e.local_pavail
  | .notifyMaysend => s.fillSocketXmitbuf cfg e.local_pavail
  | .xmitted written_len => s.xmitted written_len
  | .ioReadDone io => s.ioReadDone cfg e.local_pavail io
  | .ioReadFailed => s.ioReadFailed

/-! ### What the queue should do -/

/-- What was sent, then what waits, are the commands which were not cancelled, each once and
in the order in which they were queued. -/
structure QueueOrder (s : Sendq) : Prop where
  order : (List.range s.queued.length).filter (fun t => t ∉ s.cancelled) =
    s.sent.map Sent.ticket ++ s.cmd_queue.map Queued.ticket
  sent_cmd : ∀ x ∈ s.sent, s.queued[x.ticket]? = some x.bt_cmd
  queue_cmd : ∀ q ∈ s.cmd_queue, s.queued[q.ticket]? = some q.bt_cmd

/-- The stream is made of whole encodings, none longer than `get_datum_len` announced. -/
structure BytesSent (s : Sendq) : Prop where
  encoded : ∀ x ∈ s.sent, ∃ packet : Packet cfg.nb_piece,
    packet.toCmd = x.bt_cmd ∧ packet.toDatum = x.datum
  announced : ∀ x ∈ s.sent,
    x.datum.length ≤ x.bt_cmd.getDatumLen (Bitfield.ofSize cfg.nb_piece)
  stream : s.stream = s.sent.flatMap Sent.datum

/-- An outstanding read belongs to the `BLOCK_REP` at the front of the queue. -/
def ReadsFront (s : Sendq) : Prop :=
  ∀ r, s.bt_io_read = some r → ∃ q cmd_queue, s.cmd_queue = q :: cmd_queue ∧
    q.bt_cmd = .blockRep r.prange

/-- The invariant of the queue. -/
structure WellSent (s : Sendq) : Prop extends QueueOrder s, BytesSent cfg s where
  reads_front : s.ReadsFront

/-- What holds on any platform: there also is room for the reply which is being read. -/
structure SendqInv (s : Sendq) : Prop extends QueueOrder s where
  cancelled_lt : ∀ t ∈ s.cancelled, t < s.queued.length
  reading : ∀ r, s.bt_io_read = some r → ∃ q cmd_queue, s.cmd_queue = q :: cmd_queue ∧
    q.bt_cmd = .blockRep r.prange ∧ s.noRoom cfg (q.bt_cmd.getDatumLen []) = false

variable {cfg local_pavail} {s : Sendq} {matching : Queued → Bool}

/-! ### Parts of a queue -/

theorem filter_mem_of_sublist {l l' : List ℕ} (h : l'.Sublist l) (hl : l.Nodup) :
    l.filter (fun t => t ∈ l') = l' := by
  induction h with
  | slnil => rfl
  | @cons l' l a h ih =>
    rw [List.nodup_cons] at hl
    have ha : a ∉ l' := fun hmem => hl.1 (h.subset hmem)
    rw [List.filter_cons_of_neg (by simpa using ha), ih hl.2]
  | @cons_cons l' l a h ih =>
    rw [List.nodup_cons] at hl
    rw [List.filter_cons_of_pos (by simp)]
    congr 1
    rw [← ih hl.2]
    refine List.filter_congr fun t ht => ?_
    have hne : t ≠ a := fun h => hl.1 (h ▸ ht)
    simp [hne, ht]

/-- Commands which leave the queue are cancelled: the order stays. -/
theorem order_of_sublist {n : ℕ} {cancelled cancelled' sent queue queue' : List ℕ}
    (h : (List.range n).filter (fun t => t ∉ cancelled) = sent ++ queue)
    (hsub : queue'.Sublist queue)
    (hcancel : ∀ t, t ∈ cancelled' ↔ t ∈ cancelled ∨ (t ∈ queue ∧ t ∉ queue')) :
    (List.range n).filter (fun t => t ∉ cancelled') = sent ++ queue' := by
  have hnodup : (sent ++ queue).Nodup := h ▸ List.Nodup.filter _ List.nodup_range
  have hdisj := (List.nodup_append.1 hnodup).2.2
  rw [← filter_mem_of_sublist (List.Sublist.append_left hsub sent) hnodup, ← h, List.filter_filter]
  refine List.filter_congr fun t ht => ?_
  have hmem : t ∉ cancelled ↔ t ∈ sent ∨ t ∈ queue := by
    have := congrArg (fun l => t ∈ l) h
    simpa [List.mem_range.1 ht] using this
  have hsent : t ∈ sent → t ∉ queue := fun h₁ h₂ => hdisj t h₁ t h₂ rfl
  have hqueue : t ∈ queue' → t ∈ queue := fun h => hsub.subset h
  rw [← Bool.decide_and, decide_eq_decide, hcancel, List.mem_append]
  tauto

/-! ### The room -/

theorem take_of_room {datum : Datum} (h : s.noRoom cfg datum.length = false) :
    (s.send cfg datum).stream = s.stream ++ datum := by
  rw [noRoom] at h
  rcases hmax : cfg.xmitbuf_maxlen with _ | maxlen
  · simp only [send, hmax, List.take_length]
  · rw [hmax] at h
    have hle : datum.length ≤ maxlen - s.xmitbuf_usedlen := by simpa using h
    simp only [send, hmax, Nat.min_eq_left hle, List.take_length]

/-- Two parts which fit together are both sent. -/
theorem stream_send_send {head tail : Datum} (h : s.noRoom cfg (head ++ tail).length = false) :
    ((s.send cfg head).send cfg tail).stream = s.stream ++ (head ++ tail) := by
  rw [noRoom, List.length_append] at h
  rcases hmax : cfg.xmitbuf_maxlen with _ | maxlen
  · simp only [send, hmax, List.take_length, List.append_assoc]
  · rw [hmax] at h
    have hle : head.length + tail.length ≤ maxlen - s.xmitbuf_usedlen := by simpa using h
    have hhead : min head.length (maxlen - s.xmitbuf_usedlen) = head.length := by omega
    have htail : min tail.length (maxlen - (s.xmitbuf_usedlen + head.length)) = tail.length := by
      omega
    simp only [send, hmax, hhead, htail, List.take_length, List.append_assoc]

/-- The announced length only depends on the number of pieces. -/
theorem getDatumLen_congr {pa pa' : Pieceavail} (h : pa.length = pa'.length) (bt_cmd : WireCmd) :
    bt_cmd.getDatumLen pa = bt_cmd.getDatumLen pa' := by
  cases bt_cmd with
  | pieceBfield => simp only [WireCmd.getDatumLen, Bitfield.toDatumSize, h]
  | _ => rfl

/-! ### The loop -/

/-- What `send_front_cmd` keeps, `fill_socket_xmitbuf` keeps. -/
theorem fillSocketXmitbuf_keeps {P : Sendq → Prop}
    (hsend : ∀ s, P s → P (s.sendFrontCmd cfg local_pavail).1) (s : Sendq) (hs : P s) :
    P (s.fillSocketXmitbuf cfg local_pavail) := by
  fun_induction fillSocketXmitbuf cfg local_pavail s with
  | case1 s hnil => exact hs
  | case2 s hnil s' h =>
    have := hsend s hs
    rwa [h] at this
  | case3 s hnil s' h ih =>
    have := hsend s hs
    rw [h] at this
    exact ih this

/-! ### The order -/

theorem SendqInv.sendFrontCmd (h : SendqInv cfg s) :
    SendqInv cfg (s.sendFrontCmd cfg local_pavail).1 := by
  rcases s.sendFrontCmd_cases cfg local_pavail with
    hsame | ⟨next, cmd_queue, prange, hqueue, hcmd, hroom, hread, heq⟩ |
      ⟨next, cmd_queue, hqueue, hcmd, hroom, heq⟩
  · rw [hsame]
    exact h
  · rw [heq]
    refine { h with reading := ?_ }
    intro r hr
    obtain rfl := Option.some.inj hr
    refine ⟨next, cmd_queue, hqueue, hcmd, ?_⟩
    rw [hcmd] at hroom ⊢
    exact hroom
  · rw [heq]
    have hmem : next ∈ s.cmd_queue := hqueue ▸ List.mem_cons_self ..
    refine ⟨⟨?_, ?_, ?_⟩, h.cancelled_lt, ?_⟩
    · have horder := h.order
      rw [hqueue, List.map_cons] at horder
      simp only [note, Sendq.send, List.map_append, List.map_cons, List.map_nil,
        List.append_assoc, List.singleton_append]
      exact horder
    · intro x hx
      rcases List.mem_append.1 hx with hx | hx
      · exact h.sent_cmd x hx
      · obtain rfl := List.mem_singleton.1 hx
        exact h.queue_cmd next hmem
    · intro q hq
      refine h.queue_cmd q ?_
      rw [hqueue]
      exact List.mem_cons_of_mem next hq
    · -- no read is outstanding: the front would be its `BLOCK_REP`
      intro r hr
      obtain ⟨q, cmd_queue', hqueue', hq, -⟩ := h.reading r hr
      obtain ⟨rfl, -⟩ := List.cons.inj (hqueue.symm.trans hqueue')
      rw [hq] at hcmd
      cases hcmd

theorem SendqInv.fill (h : SendqInv cfg s) : SendqInv cfg (s.fillSocketXmitbuf cfg local_pavail) :=
  fillSocketXmitbuf_keeps (P := SendqInv cfg) (fun _ h => h.sendFrontCmd) s h

theorem getElem?_append_of_eq_some {l : List WireCmd} {i : ℕ} {c : WireCmd} (h : l[i]? = some c)
    (l' : List WireCmd) : (l ++ l')[i]? = some c := by
  have hi : i < l.length := by
    by_contra hn
    rw [List.getElem?_eq_none (by omega)] at h
    cases h
  rw [List.getElem?_append_left hi, h]

theorem SendqInv.pushBack (h : SendqInv cfg s) (bt_cmd : WireCmd) :
    SendqInv cfg (s.pushBack bt_cmd) := by
  have hfresh : s.queued.length ∉ s.cancelled := fun hmem => (h.cancelled_lt _ hmem).false
  refine ⟨⟨?_, ?_, ?_⟩, ?_, ?_⟩
  · show (List.range (s.queued ++ [bt_cmd]).length).filter (fun t => t ∉ s.cancelled) =
      s.sent.map Sent.ticket ++ (s.cmd_queue ++ [(⟨s.queued.length, bt_cmd⟩ : Queued)]).map Queued.ticket
    rw [List.length_append, List.length_singleton, List.range_succ, List.filter_append, h.order,
      List.filter_cons_of_pos (p := fun t => t ∉ s.cancelled) (decide_eq_true hfresh),
      List.map_append, List.append_assoc]
    rfl
  · exact fun x hx => getElem?_append_of_eq_some (h.sent_cmd x hx) _
  · intro q hq
    rcases List.mem_append.1 hq with hq | hq
    · exact getElem?_append_of_eq_some (h.queue_cmd q hq) _
    · obtain rfl := List.mem_singleton.1 hq
      exact List.getElem?_concat_length
  · intro t ht
    have := h.cancelled_lt t ht
    simp only [Sendq.pushBack, List.length_append, List.length_singleton]
    omega
  · intro r hr
    obtain ⟨q, cmd_queue, hqueue, hrest⟩ := h.reading r hr
    refine ⟨q, cmd_queue ++ [⟨s.queued.length, bt_cmd⟩], ?_, hrest⟩
    simp only [Sendq.pushBack, hqueue, List.cons_append]

/-- Commands which leave the queue, all of them cancelled. -/
theorem QueueOrder.erase (h : SendqInv cfg s) {cmd_queue : List Queued} {tickets : List ℕ}
    (hsub : cmd_queue.Sublist s.cmd_queue)
    (htickets : ∀ t, t ∈ tickets ↔
      t ∈ s.cmd_queue.map Queued.ticket ∧ t ∉ cmd_queue.map Queued.ticket)
    (bt_io_read : Option IoRead) :
    QueueOrder { s with bt_io_read, cmd_queue, cancelled := s.cancelled ++ tickets } := by
  refine ⟨?_, h.sent_cmd, fun q hq => h.queue_cmd q (hsub.subset hq)⟩
  refine order_of_sublist h.order (hsub.map Queued.ticket) fun t => ?_
  rw [List.mem_append, htickets]

theorem SendqInv.nodup_tickets (h : SendqInv cfg s) : (s.cmd_queue.map Queued.ticket).Nodup := by
  have hnodup : (s.sent.map Sent.ticket ++ s.cmd_queue.map Queued.ticket).Nodup :=
    h.order ▸ List.Nodup.filter _ List.nodup_range
  exact (List.nodup_append.1 hnodup).2.1

theorem SendqInv.ticket_lt (h : SendqInv cfg s) {q : Queued} (hq : q ∈ s.cmd_queue) :
    q.ticket < s.queued.length := by
  by_contra hn
  have hcmd := h.queue_cmd q hq
  rw [List.getElem?_eq_none (by omega)] at hcmd
  cases hcmd

theorem SendqInv.eraseBlockRep (h : SendqInv cfg s) {q : Queued}
    (hfind : s.cmd_queue.find? matching = some q) :
    SendqInv cfg (s.eraseBlockRep matching q.ticket) := by
  obtain ⟨hmatch, before, after, hqueue, hbefore⟩ := List.find?_eq_some_iff_append.1 hfind
  have hbefore' : ∀ a ∈ before, matching a = false := by simpa using hbefore
  have herase : s.cmd_queue.eraseP matching = before ++ after := by
    rw [hqueue, List.eraseP_append_right _ (by simpa using hbefore'),
      List.eraseP_cons_of_pos hmatch]
  have hnodup := h.nodup_tickets
  rw [hqueue, List.map_append, List.map_cons, List.nodup_middle, List.nodup_cons] at hnodup
  have hmem : q ∈ s.cmd_queue := List.mem_of_find?_eq_some hfind
  refine ⟨QueueOrder.erase h (List.eraseP_sublist) ?_ _, ?_, ?_⟩
  · intro t
    rw [herase, hqueue, List.map_append, List.map_append, List.map_cons, List.mem_singleton,
      List.mem_append, List.mem_cons, List.mem_append]
    rw [List.mem_append] at hnodup
    constructor
    · rintro rfl
      exact ⟨.inr (.inl rfl), hnodup.1⟩
    · tauto
  · intro t ht
    rcases List.mem_append.1 ht with ht | ht
    · exact h.cancelled_lt t ht
    · obtain rfl := List.mem_singleton.1 ht
      exact h.ticket_lt hmem
  · intro r hr
    simp only [Sendq.eraseBlockRep] at hr ⊢
    split at hr
    · cases hr
    · next hfront =>
        -- the front is another command, and it stays
        obtain ⟨front, cmd_queue, hfrontq, hcmd, hroom⟩ := h.reading r hr
        rw [hfrontq] at hfront
        refine ⟨front, cmd_queue.eraseP matching, ?_, hcmd, hroom⟩
        rw [hfrontq, List.eraseP_cons_of_neg (by simpa using hfront)]

theorem SendqInv.eraseAllBlockRep (h : SendqInv cfg s) : SendqInv cfg s.eraseAllBlockRep := by
  have hinj := List.inj_on_of_nodup_map h.nodup_tickets
  refine ⟨QueueOrder.erase h List.filter_sublist ?_ _, ?_, nofun⟩
  · intro t
    simp only [List.mem_map, List.mem_filter, Bool.not_eq_true']
    constructor
    · rintro ⟨q, ⟨hq, hrep⟩, rfl⟩
      refine ⟨⟨q, hq, rfl⟩, ?_⟩
      rintro ⟨q', ⟨hq', hrep'⟩, hticket⟩
      obtain rfl := hinj hq' hq hticket
      rw [hrep] at hrep'
      cases hrep'
    · rintro ⟨⟨q, hq, rfl⟩, hkept⟩
      refine ⟨q, ⟨hq, ?_⟩, rfl⟩
      by_contra hrep
      exact hkept ⟨q, ⟨hq, by simpa using hrep⟩, rfl⟩
  · intro t ht
    rcases List.mem_append.1 ht with ht | ht
    · exact h.cancelled_lt t ht
    · obtain ⟨q, hq, rfl⟩ := List.mem_map.1 ht
      exact h.ticket_lt (List.mem_filter.1 hq).1

/-- A reply which is sent takes its command off the front. -/
theorem SendqInv.sendReply (h : SendqInv cfg s) {ticket : ℕ} {cmd_prange : Prange}
    {cmd_queue : List Queued} (hqueue : s.cmd_queue = ⟨ticket, .blockRep cmd_prange⟩ :: cmd_queue)
    (read_data : Datum) :
    SendqInv cfg (s.sendReply cfg ticket cmd_prange cmd_queue read_data) := by
  refine ⟨⟨?_, ?_, ?_⟩, h.cancelled_lt, nofun⟩
  · have horder := h.order
    rw [hqueue, List.map_cons] at horder
    simp only [Sendq.sendReply, note, Sendq.send, List.map_append, List.map_cons, List.map_nil,
      List.append_assoc, List.singleton_append]
    exact horder
  · intro x hx
    rcases List.mem_append.1 hx with hx | hx
    · exact h.sent_cmd x hx
    · obtain rfl := List.mem_singleton.1 hx
      exact h.queue_cmd ⟨ticket, .blockRep cmd_prange⟩ (hqueue ▸ List.mem_cons_self ..)
  · intro q hq
    refine h.queue_cmd q ?_
    rw [hqueue]
    exact List.mem_cons_of_mem _ hq

theorem SendqInv.ioReadFailed (h : SendqInv cfg s) : SendqInv cfg s.ioReadFailed := by
  refine { h with reading := ?_ }
  intro r hr
  obtain ⟨r', hr', rfl⟩ := Option.map_eq_some_iff.1 hr
  exact h.reading r' hr'

theorem SendqInv.xmitted (h : SendqInv cfg s) (written_len : ℕ) :
    SendqInv cfg (s.xmitted written_len) := by
  refine { h with reading := ?_ }
  intro r hr
  obtain ⟨q, cmd_queue, hqueue, hcmd, hroom⟩ := h.reading r hr
  refine ⟨q, cmd_queue, hqueue, hcmd, ?_⟩
  rw [noRoom] at hroom ⊢
  rcases hmax : cfg.xmitbuf_maxlen with _ | maxlen
  · rfl
  · rw [hmax] at hroom
    have hle : q.bt_cmd.getDatumLen [] ≤ maxlen - s.xmitbuf_usedlen := by simpa using hroom
    refine decide_eq_false ?_
    show ¬ maxlen - (s.xmitbuf_usedlen - written_len) < q.bt_cmd.getDatumLen []
    omega

/-- What the completion of a read does, when one is pending. -/
theorem SendqInv.ioReadDone_cases (h : SendqInv cfg s) (io : BlockIo) :
    (s.ioReadDone cfg local_pavail io = s ∧ ∀ prange, s.bt_io_read ≠ some ⟨prange, true⟩) ∨
    ∃ prange ticket cmd_queue, s.bt_io_read = some ⟨prange, true⟩ ∧
      s.cmd_queue = ⟨ticket, .blockRep prange⟩ :: cmd_queue ∧
      s.noRoom cfg ((WireCmd.blockRep prange).getDatumLen []) = false ∧
      s.ioReadDone cfg local_pavail io =
        (s.sendReply cfg ticket prange cmd_queue (io.read prange)).fillSocketXmitbuf cfg
          local_pavail := by
  rcases hread : s.bt_io_read with _ | ⟨prange, _ | _⟩
  · exact .inl ⟨by rw [ioReadDone, hread], nofun⟩
  · exact .inl ⟨by rw [ioReadDone, hread], nofun⟩
  · obtain ⟨⟨ticket, bt_cmd⟩, cmd_queue, hqueue, hcmd, hroom⟩ := h.reading _ hread
    obtain rfl : bt_cmd = .blockRep prange := hcmd
    refine .inr ⟨prange, ticket, cmd_queue, rfl, hqueue, hroom, ?_⟩
    rw [ioReadDone, hread, hqueue]

/-- **The order of the queue** is right on any platform, and so is its front. -/
theorem SendqInv.step (h : SendqInv cfg s) (e : SendqEvent cfg) : SendqInv cfg (s.step e) := by
  rcases e with ⟨local_pavail, size, call⟩
  cases call with
  | queueCmd bt_cmd => exact (h.pushBack bt_cmd).fill
  | removeOneBlockRep prange =>
    show SendqInv cfg (s.removeOneBlockRep cfg local_pavail prange)
    rw [removeOneBlockRep]
    split
    · exact h
    · next q hfind => exact (h.eraseBlockRep hfind).fill
  | removeAllBlockRep => exact h.eraseAllBlockRep.fill
  | notifyMaysend => exact h.fill
  | xmitted written_len => exact h.xmitted written_len
  | ioReadDone io =>
    show SendqInv cfg (s.ioReadDone cfg local_pavail io)
    rcases h.ioReadDone_cases io with
      ⟨hsame, -⟩ | ⟨prange, ticket, cmd_queue, -, hqueue, -, heq⟩
    · rw [hsame]
      exact h
    · rw [heq]
      exact (h.sendReply hqueue _).fill
  | ioReadFailed => exact h.ioReadFailed

theorem SendqInv.start : SendqInv cfg start := ⟨⟨rfl, nofun, nofun⟩, nofun, nofun⟩

/-! ### The bytes -/

/-- What leaves the stream and what was sent alone leaves the bytes right. -/
theorem BytesSent.congr (h : BytesSent cfg s) {s' : Sendq} (hstream : s'.stream = s.stream)
    (hsent : s'.sent = s.sent) : BytesSent cfg s' := by
  refine ⟨?_, ?_, ?_⟩
  · rw [hsent]
    exact h.encoded
  · rw [hsent]
    exact h.announced
  · rw [hstream, hsent]
    exact h.stream

/-- A whole packet is sent. -/
theorem BytesSent.snoc (h : BytesSent cfg s) {s' : Sendq} {ticket : ℕ}
    (packet : Packet cfg.nb_piece) (hstream : s'.stream = s.stream ++ packet.toDatum)
    (hsent : s'.sent = s.sent ++ [⟨ticket, packet.toCmd, packet.toDatum⟩]) : BytesSent cfg s' := by
  have hlen : packet.toDatum.length =
      packet.toCmd.getDatumLen (Bitfield.ofSize cfg.nb_piece) := by
    rw [packet.length_toDatum]
    cases packet with
    | cmd pa bt_cmd size _ =>
      exact getDatumLen_congr (by rw [size, Bitfield.length_ofSize]) bt_cmd
    | blockRep prange read_data _ => rfl
  refine ⟨?_, ?_, ?_⟩
  · rw [hsent]
    intro x hx
    rcases List.mem_append.1 hx with hx | hx
    · exact h.encoded x hx
    · obtain rfl := List.mem_singleton.1 hx
      exact ⟨packet, rfl, rfl⟩
  · rw [hsent]
    intro x hx
    rcases List.mem_append.1 hx with hx | hx
    · exact h.announced x hx
    · obtain rfl := List.mem_singleton.1 hx
      exact hlen.le
  · rw [hstream, hsent, List.flatMap_append, h.stream, List.flatMap_singleton]

theorem BytesSent.sendFrontCmd (h : BytesSent cfg s)
    (size : local_pavail.length = cfg.nb_piece) :
    BytesSent cfg (s.sendFrontCmd cfg local_pavail).1 := by
  rcases s.sendFrontCmd_cases cfg local_pavail with
    hsame | ⟨next, cmd_queue, prange, -, -, -, -, heq⟩ |
      ⟨next, cmd_queue, hqueue, hcmd, hroom, heq⟩
  · rw [hsame]
    exact h
  · rw [heq]
    exact h.congr rfl rfl
  · rw [heq]
    rw [← WireCmd.length_toDatum local_pavail hcmd] at hroom
    exact h.snoc (.cmd local_pavail next.bt_cmd size hcmd)
      (take_of_room (s := { s with cmd_queue }) hroom) rfl

theorem BytesSent.fill (h : BytesSent cfg s) (size : local_pavail.length = cfg.nb_piece) :
    BytesSent cfg (s.fillSocketXmitbuf cfg local_pavail) :=
  fillSocketXmitbuf_keeps (P := BytesSent cfg) (fun _ h => h.sendFrontCmd size) s h

theorem BytesSent.sendReply (h : BytesSent cfg s) (hsize_t : cfg.size_t = .uint32)
    {prange : Prange} (hroom : s.noRoom cfg ((WireCmd.blockRep prange).getDatumLen []) = false)
    (ticket : ℕ) (cmd_queue : List Queued) (io : BlockIo) :
    BytesSent cfg (s.sendReply cfg ticket prange cmd_queue (io.read prange)) := by
  have hlen := io.length_read prange
  rw [← length_blockRepDatum_uint32 hlen, ← hsize_t] at hroom
  refine @BytesSent.snoc _ _ h _ ticket (.blockRep prange (io.read prange) hlen) ?_ ?_
  · refine Eq.trans (stream_send_send (s := { s with cmd_queue, bt_io_read := none }) hroom) ?_
    rw [hsize_t]
    rfl
  · rw [Packet.toDatum, ← hsize_t]
    rfl

/-! ### Runs -/

/-- What was sent is not taken back. -/
theorem sent_subset_fill (s : Sendq) : s.sent ⊆ (s.fillSocketXmitbuf cfg local_pavail).sent := by
  refine fillSocketXmitbuf_keeps (P := fun s' => s.sent ⊆ s'.sent) ?_ s fun _ h => h
  intro s' h x hx
  rcases s'.sendFrontCmd_cases cfg local_pavail with
    hsame | ⟨next, cmd_queue, prange, -, -, -, -, heq⟩ |
      ⟨next, cmd_queue, hqueue, hcmd, hroom, heq⟩
  · rw [hsame]
    exact h hx
  · rw [heq]
    exact h hx
  · rw [heq]
    exact List.mem_append_left _ (h hx)

theorem WellSent.of_inv (h : SendqInv cfg s) (hbytes : BytesSent cfg s) : WellSent cfg s := by
  refine ⟨h.toQueueOrder, hbytes, fun r hr => ?_⟩
  obtain ⟨q, cmd_queue, hqueue, hcmd, -⟩ := h.reading r hr
  exact ⟨q, cmd_queue, hqueue, hcmd⟩

/-- The outstanding read completes. -/
def Completes (s : Sendq) : SendqCall → Prop
  | .ioReadDone _ => s.bt_io_read.any IoRead.pending = true
  | _ => False

/-- The step does not send a reply whose header is built from `uint64_t`. -/
def NoWideReply (s : Sendq) (e : SendqEvent cfg) : Prop :=
  cfg.size_t = .uint32 ∨ ¬ s.Completes e.call

/-- The bytes stay right in a step which sends no wide reply. -/
theorem BytesSent.step (h : SendqInv cfg s) (hbytes : BytesSent cfg s) {e : SendqEvent cfg}
    (hnarrow : s.NoWideReply e) : BytesSent cfg (s.step e) := by
  rcases e with ⟨local_pavail, size, call⟩
  cases call with
  | queueCmd bt_cmd => exact (@BytesSent.congr _ _ hbytes (s.pushBack bt_cmd) rfl rfl).fill size
  | removeOneBlockRep prange =>
    show BytesSent cfg (s.removeOneBlockRep cfg local_pavail prange)
    rw [removeOneBlockRep]
    split
    · exact hbytes
    · next q hfind => exact (@BytesSent.congr _ _ hbytes (s.eraseBlockRep _ q.ticket) rfl rfl).fill size
  | removeAllBlockRep => exact (@BytesSent.congr _ _ hbytes s.eraseAllBlockRep rfl rfl).fill size
  | notifyMaysend => exact hbytes.fill size
  | xmitted written_len => exact hbytes.congr rfl rfl
  | ioReadDone io =>
    show BytesSent cfg (s.ioReadDone cfg local_pavail io)
    rcases h.ioReadDone_cases io with
      ⟨hsame, -⟩ | ⟨prange, ticket, cmd_queue, hread, hqueue, hroom, heq⟩
    · rw [hsame]
      exact hbytes
    · have hcompletes : s.Completes (.ioReadDone io) := by
        rw [Completes, hread]
        rfl
      have hsize_t := hnarrow.resolve_right (not_not.2 hcompletes)
      rw [heq]
      exact (hbytes.sendReply hsize_t hroom ticket cmd_queue io).fill size
  | ioReadFailed => exact hbytes.congr rfl rfl

/-- A wide reply is eight bytes longer than announced. -/
theorem not_bytesSent_of_wide (h : SendqInv cfg s) {e : SendqEvent cfg}
    (hwide : ¬ s.NoWideReply e) : ¬ BytesSent cfg (s.step e) := by
  rw [NoWideReply, not_or, not_not] at hwide
  obtain ⟨hsize_t, hcompletes⟩ := hwide
  rcases e with ⟨local_pavail, size, call⟩
  cases call with
  | ioReadDone io =>
    show ¬ BytesSent cfg (s.ioReadDone cfg local_pavail io)
    rcases h.ioReadDone_cases io with
      ⟨-, hread⟩ | ⟨prange, ticket, cmd_queue, hread, hqueue, hroom, heq⟩
    · obtain ⟨⟨prange, pending⟩, hsome, hpending⟩ := (Option.any_eq_true ..).1 hcompletes
      obtain rfl : pending = true := hpending
      exact absurd hsome (hread prange)
    · intro hbytes
      have hwidth : cfg.size_t = .uint64 := by
        cases hcases : cfg.size_t with
        | uint32 => exact absurd hcases hsize_t
        | uint64 => rfl
      have hsent : (⟨ticket, .blockRep prange, blockRepDatum .uint64 prange (io.read prange)⟩ :
          Sent) ∈ (s.ioReadDone cfg local_pavail io).sent := by
        rw [heq]
        refine sent_subset_fill _ (List.mem_append_right _ ?_)
        rw [← hwidth]
        exact List.mem_singleton_self _
      have hle : (blockRepDatum .uint64 prange (io.read prange)).length ≤
        (WireCmd.blockRep prange).getDatumLen (Bitfield.ofSize cfg.nb_piece) :=
        hbytes.announced _ hsent
      rw [length_blockRepDatum_uint64 (io.length_read prange)
        (Bitfield.ofSize cfg.nb_piece)] at hle
      omega
  | _ => exact hcompletes.elim

/-- **The send queue**: in every state of a run the stream is made of the whole encodings of
the commands which were not cancelled, in their order, none longer than announced, and an
outstanding read belongs to the front, exactly when no step of the run sends a reply with a
header built from `uint64_t`. -/
theorem always_wellSent_iff (cfg : SendqCfg) (evs : List (SendqEvent cfg)) :
    Always step (WellSent cfg) start evs ↔ Guarded step NoWideReply start evs := by
  refine always_iff_guarded (Q := SendqInv cfg) (fun s e h _ => h.step e) ?_
    (WellSent.of_inv .start ⟨nofun, nofun, rfl⟩) .start
  intro s e h hwell
  constructor
  · intro hwell'
    by_contra hwide
    exact not_bytesSent_of_wide h hwide hwell'.toBytesSent
  · intro hnarrow
    exact .of_inv (h.step e) (hwell.toBytesSent.step h hnarrow)

/-- A platform where `size_t` is a `uint64_t`. -/
def wideCfg : SendqCfg := ⟨0, .uint64, none⟩

/-- A block of one byte is requested, and its read completes. -/
def wideRun : List (SendqEvent wideCfg) :=
  [⟨[], rfl, .queueCmd (.blockRep ⟨0, 0, 1⟩)⟩,
    ⟨[], rfl, .ioReadDone ⟨fun prange => List.replicate prange.length 0,
      fun _ => List.length_replicate⟩⟩]

/-- 14 bytes are announced, 22 are sent. -/
theorem not_always_wellSent : ¬ Always step (WellSent wideCfg) start wideRun ∧
    (run step start wideRun).stream.length = 22 ∧
      (WireCmd.blockRep ⟨0, 0, 1⟩).getDatumLen [] = 14 := by
  have hrun : run step start wideRun =
      ⟨[], none, 22, blockRepDatum .uint64 ⟨0, 0, 1⟩ [0], [.blockRep ⟨0, 0, 1⟩], [],
        [⟨0, .blockRep ⟨0, 0, 1⟩, blockRepDatum .uint64 ⟨0, 0, 1⟩ [0]⟩]⟩ := by
    simp [run, wideRun, step, queueCmd, pushBack, start, fillSocketXmitbuf, Sendq.sendFrontCmd,
      ioReadDone, sendReply, wideCfg, send, note, noRoom]
    decide
  refine ⟨fun halways => ?_, by rw [hrun]; rfl, rfl⟩
  have hwell := halways.run
  rw [hrun] at hwell
  exact absurd (hwell.announced _ (List.mem_singleton_self _)) (by decide)

end Sendq

end Neoip
