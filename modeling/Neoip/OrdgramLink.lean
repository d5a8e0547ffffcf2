/-
Neoip/OrdgramLink.lean

Two `ordgram_t` and the network between them, over all runs.

The network holds what each side has sent.  A packet is received as often and
in any order as the run says: the network keeps what is received, and loses it
only by an event of its own.  Both sides send and receive, and each direction is
a `Flow`.

Main result: in a run with fewer than `2 ^ 31` packets outstanding, each side
delivers what the other one has submitted, in order, and no packet is forgotten
before the other side has it, exactly as long as no packet which is acknowledged
is without a payload (`kept_iff`).
-/
import Neoip.OrdgramFlow

namespace Neoip

/-- The two sides and the network. -/
structure Link where
  peer : Bool → Ordgram
  /-- The packets which a side has sent and which the network has not lost. -/
  wire : Bool → List Datum
  /-- The packets which a side has accepted from its upper layer. -/
  submitted : Bool → List Datum
  /-- The packets which a side has given to its upper layer. -/
  delivered : Bool → List Datum

/-- Any order of the packets, losses and duplicates included. -/
inductive LinkEvent
  | submit (side : Bool) (pkt : Datum)
  | rxmit (side : Bool) (seqnb : Wai32)
  | zerotimerSeqnb2ack (side : Bool)
  | zerotimerDeliver (side : Bool)
  | sendbufSetMaxLen (side : Bool) (len : ℕ)
  /-- The side receives packet `i` of those which the other one has sent. -/
  | recv (side : Bool) (i : ℕ)
  /-- The network loses packet `i` of those which the side has sent. -/
  | lose (side : Bool) (i : ℕ)
  deriving DecidableEq, Repr

namespace Link

def ctor : Link where
  peer := fun _ => Ordgram.ctor
  wire := fun _ => []
  submitted := fun _ => []
  delivered := fun _ => []

/-- The packets which an event submits: those for which the call returns `OK`. -/
def accepted (out : OrdgramOut) : OrdgramEvent → List Datum
  | .pktFromUpper pkt => if out.err = .OK then [pkt] else []
  | _ => []

/-- A side handles an event. -/
def handle (side : Bool) (e : OrdgramEvent) (l : Link) : Link :=
  let r := (l.peer side).handle e
  { peer := Function.update l.peer side r.2
    wire := Function.update l.wire side (l.wire side ++ r.1.toLower)
    submitted := Function.update l.submitted side (l.submitted side ++ accepted r.1 e)
    delivered := Function.update l.delivered side (l.delivered side ++ r.1.toUpper) }

def step (l : Link) : LinkEvent → Link
  | .submit side pkt => l.handle side (.pktFromUpper pkt)
  | .rxmit side seqnb => l.handle side (.rxmit seqnb)
  | .zerotimerSeqnb2ack side => l.handle side .zerotimerSeqnb2ack
  | .zerotimerDeliver side => l.handle side .zerotimerDeliver
  | .sendbufSetMaxLen side len => l.handle side (.sendbufSetMaxLen len)
  | .recv side i =>
    match (l.wire !side)[i]? with
    | none => l
    | some pkt => l.handle side (.pktFromLower pkt)
  | .lose side i =>
    { l with wire := Function.update l.wire side ((l.wire side).eraseIdx i) }

/-- The direction in which `side` sends. -/
def flow (l : Link) (side : Bool) : Flow where
  submitted := l.submitted side
  delivered := l.delivered !side
  sendbuf_pkt_db := (l.peer side).rdgram.sendbuf_pkt_db
  next_xmit_seqnb := (l.peer side).rdgram.next_xmit_seqnb
  recvbuf_pkt_db := (l.peer !side).recvbuf_pkt_db
  next_seqnb_to_deliver := (l.peer !side).next_seqnb_to_deliver
  seqnb2ack_list := (l.peer !side).rdgram.seqnb2ack_list
  data := (l.wire side).filterMap Rdgram.toData
  acks := (l.wire !side).filterMap Rdgram.toAck

/-- In each direction, fewer than `2 ^ 31` packets are outstanding. -/
def Window (l : Link) : Prop := ∀ side, (l.flow side).Window

/-- In each direction, what is delivered are the first packets submitted, in their order, and a
packet which the sender has forgotten has been delivered or buffered by the receiver. -/
def Kept (l : Link) : Prop := ∀ side, (l.flow side).Kept

/-- When an acknowledgement is received, the packet which the sender has kept under its number is
not a header alone. -/
def AckedHasPayload (l : Link) : LinkEvent → Prop
  | .recv side i => ∀ pkt ∈ (l.wire !side)[i]?, ∀ seqnb ∈ Rdgram.toAck pkt,
      ∀ sendbuf_pkt ∈ Omap.find seqnb (l.peer side).rdgram.sendbuf_pkt_db,
        sendbuf_pkt ≠ Rdgram.buildData seqnb []
  | _ => True

instance (f : Flow) : Decidable f.Window :=
  List.decidableBAll (fun q => Wai.behind q f.next_xmit_seqnb < 2 ^ 31) f.outstanding

instance (l : Link) : Decidable l.Window :=
  decidable_of_iff ((l.flow false).Window ∧ (l.flow true).Window)
    (Bool.forall_bool (p := fun side => (l.flow side).Window)).symm

end Link

namespace Flow

/-- What the receiver of a direction has after an event. -/
def recv (pkts : List Datum) (o : Ordgram) (f : Flow) : Flow :=
  { f with
    delivered := f.delivered ++ pkts
    recvbuf_pkt_db := o.recvbuf_pkt_db
    next_seqnb_to_deliver := o.next_seqnb_to_deliver
    seqnb2ack_list := o.rdgram.seqnb2ack_list }

/-- What its sender has. -/
def send (pkts : List Datum) (o : Ordgram) (f : Flow) : Flow :=
  { f with
    sendbuf_pkt_db := o.rdgram.sendbuf_pkt_db
    next_xmit_seqnb := o.rdgram.next_xmit_seqnb
    data := f.data ++ pkts.filterMap Rdgram.toData }

theorem quiet_deliverLoop (f : Flow) (pkts : List Datum) (fuel : ℕ) (o : Ordgram) :
    Relation.ReflTransGen Quiet (f.recv pkts o)
      (f.recv (pkts ++ (Ordgram.deliverLoop fuel o).1) (Ordgram.deliverLoop fuel o).2) := by
  induction fuel generalizing pkts o with
  | zero =>
    rw [Ordgram.deliverLoop, List.append_nil]
  | succ fuel ih =>
    rw [Ordgram.deliverLoop]
    cases hfind : Omap.find o.next_seqnb_to_deliver o.recvbuf_pkt_db with
    | none => rw [List.append_nil]
    | some pkt =>
      have hstep : Quiet (f.recv pkts o) (f.recv (pkts ++ [pkt]) (o.deliverPkt pkt)) := by
        have hquiet := Quiet.deliverPkt (f := f.recv pkts o) hfind
        have happ : (f.recv pkts o).delivered ++ [pkt] = f.delivered ++ (pkts ++ [pkt]) :=
          List.append_assoc _ _ _
        rw [happ] at hquiet
        exact hquiet
      have hrest := ih (pkts ++ [pkt]) (o.deliverPkt pkt)
      rw [List.append_assoc, List.singleton_append] at hrest
      exact hrest.head hstep

/-- A packet of data which is received by `o`. -/
theorem quiet_recvData (f : Flow) (o : Ordgram) {q : Wai32} {pkt payload : Datum}
    (hdata : Rdgram.toData pkt = some (q, payload)) (hmem : (q, payload) ∈ f.data) :
    Relation.ReflTransGen Quiet (f.recv [] o)
      (f.recv (o.pktFromLower pkt).1.toUpper (o.pktFromLower pkt).2) := by
  rw [Ordgram.pktFromLower_of_toData hdata]
  have hmem' : (q, payload) ∈ (f.recv [] o).data := hmem
  split_ifs with hack hnil
  · apply Relation.ReflTransGen.single
    exact Quiet.recvOld hmem' (Or.inr (Or.inr hnil))
  · apply Relation.ReflTransGen.single
    dsimp only
    rw [Ordgram.recvSeqnb]
    split_ifs with hlt hgt
    · exact Quiet.recvOld hmem' (Or.inl hlt)
    · dsimp only
      rw [Ordgram.pktFromLowerOutoforder, if_neg hlt]
      dsimp only
      cases hfind : Omap.find q o.recvbuf_pkt_db with
      | some _ =>
        apply Quiet.recvOld hmem' (Or.inr (Or.inl _))
        show (Omap.find q o.recvbuf_pkt_db).isSome
        rw [hfind]
        rfl
      | none => exact Quiet.recvOutoforder hmem' hnil hfind
    all_goals
      have hquiet := Quiet.recvNext hmem' hnil (Bool.not_eq_true _ ▸ hlt) (Bool.not_eq_true _ ▸ hgt)
      have happ : (f.recv [] o).delivered ++ [payload] = f.delivered ++ [payload] := by
        rw [recv, List.append_nil]
      rw [happ] at hquiet
      exact hquiet
  · exact Relation.ReflTransGen.refl

theorem quiet_zerotimerExpire (f : Flow) (o : Ordgram) :
    Relation.ReflTransGen Quiet (f.recv [] o)
      (f.recv o.zerotimerExpire.1 o.zerotimerExpire.2) := by
  have hdrop : Quiet (f.recv [] o) (f.recv [] o.dropObsolete) := Quiet.dropObsolete
  exact (quiet_deliverLoop f [] _ o.dropObsolete).head hdrop

end Flow

namespace Link

variable {l : Link} {side : Bool} {e : OrdgramEvent} {pkt : Datum} {seqnb : Wai32}

def Inv (l : Link) : Prop := ∀ side, (l.flow side).Inv

/-! ### What an event does to a direction -/

/-- The direction in which the side sends. -/
theorem flow_handle_self (l : Link) (side : Bool) (e : OrdgramEvent) :
    (l.handle side e).flow side =
      { (l.flow side).send ((l.peer side).handle e).1.toLower ((l.peer side).handle e).2 with
        submitted := l.submitted side ++ accepted ((l.peer side).handle e).1 e } := by
  have hne : (!side) ≠ side := Bool.not_ne_self side
  simp [flow, handle, Flow.send, hne]

/-- The direction in which the side receives. -/
theorem flow_handle_other (l : Link) (side : Bool) (e : OrdgramEvent) :
    (l.handle side e).flow (!side) =
      { (l.flow !side).recv ((l.peer side).handle e).1.toUpper ((l.peer side).handle e).2 with
        acks := (l.flow !side).acks ++
          ((l.peer side).handle e).1.toLower.filterMap Rdgram.toAck } := by
  have hne : (!side) ≠ side := Bool.not_ne_self side
  simp [flow, handle, Flow.recv, hne]

/-- An event which leaves the sender's half of the side, and sends no data. -/
theorem flow_handle_self_eq (hbuf : ((l.peer side).handle e).2.rdgram.sendbuf_pkt_db =
      (l.peer side).rdgram.sendbuf_pkt_db)
    (hxmit : ((l.peer side).handle e).2.rdgram.next_xmit_seqnb =
      (l.peer side).rdgram.next_xmit_seqnb)
    (hlower : ((l.peer side).handle e).1.toLower.filterMap Rdgram.toData = [])
    (hacc : accepted ((l.peer side).handle e).1 e = []) :
    (l.handle side e).flow side = l.flow side := by
  rw [flow_handle_self, Flow.send, hbuf, hxmit, hlower, hacc, List.append_nil, List.append_nil]
  rfl

/-- An event which leaves the receiver's half of the side, and sends no acknowledgement. -/
theorem flow_handle_other_eq (hbuf : ((l.peer side).handle e).2.recvbuf_pkt_db =
      (l.peer side).recvbuf_pkt_db)
    (hnext : ((l.peer side).handle e).2.next_seqnb_to_deliver =
      (l.peer side).next_seqnb_to_deliver)
    (hack : ((l.peer side).handle e).2.rdgram.seqnb2ack_list =
      (l.peer side).rdgram.seqnb2ack_list)
    (hlower : ((l.peer side).handle e).1.toLower.filterMap Rdgram.toAck = [])
    (hupper : ((l.peer side).handle e).1.toUpper = []) :
    (l.handle side e).flow (!side) = l.flow !side := by
  rw [flow_handle_other, Flow.recv, hbuf, hnext, hack, hlower, hupper, List.append_nil,
    List.append_nil]
  simp [flow]

/-- A packet from the upper layer is refused, with no effect, or submitted. -/
theorem flow_submit (l : Link) (side : Bool) (pkt : Datum) :
    (l.handle side (.pktFromUpper pkt)).flow side = l.flow side ∨
      (l.handle side (.pktFromUpper pkt)).flow side = (l.flow side).submit pkt := by
  by_cases hfull : (l.peer side).rdgram.sendbuf_max_len ≠ 0 ∧
      (l.peer side).rdgram.sendbuf_max_len < (l.peer side).rdgram.sendbuf_used_len +
        (Rdgram.buildData (l.peer side).rdgram.next_xmit_seqnb pkt).length
  · left
    have hres : (l.peer side).handle (.pktFromUpper pkt) =
        (⟨.SENDBUF_FULL, [], []⟩, l.peer side) := by
      rw [Ordgram.handle, Ordgram.pktFromUpper, Rdgram.pktFromUpper, if_pos hfull]
    apply flow_handle_self_eq
    all_goals simp [hres, accepted]
  · right
    rw [flow_handle_self, Ordgram.handle, Ordgram.pktFromUpper, Rdgram.pktFromUpper,
      if_neg hfull]
    dsimp only
    rw [Flow.send, accepted, if_pos rfl, Flow.submit]
    simp [flow, Rdgram.sendbufPktCtor]

theorem flow_submit_other (l : Link) (side : Bool) (pkt : Datum) :
    (l.handle side (.pktFromUpper pkt)).flow (!side) = l.flow !side := by
  apply flow_handle_other_eq
  all_goals
    rw [Ordgram.handle, Ordgram.pktFromUpper, Rdgram.pktFromUpper]
    split_ifs
    · rfl
    · simp [Rdgram.sendbufPktCtor]

theorem rdgram_zerotimerExpire (o : Ordgram) : o.zerotimerExpire.2.rdgram = o.rdgram :=
  Ordgram.deliverLoop_invariant (P := fun o' => o'.rdgram = o.rdgram) (fun _ _ _ h => h) _ rfl

theorem flow_eq_recv (l : Link) (side : Bool) :
    l.flow (!side) = (l.flow !side).recv [] (l.peer side) := by
  simp [flow, Flow.recv]

/-- The receiver's half, when no acknowledgement is sent. -/
theorem flow_handle_recv (hlower : ((l.peer side).handle e).1.toLower.filterMap Rdgram.toAck = []) :
    (l.handle side e).flow (!side) =
      (l.flow !side).recv ((l.peer side).handle e).1.toUpper ((l.peer side).handle e).2 := by
  rw [flow_handle_other, hlower, List.append_nil]
  rfl

theorem rdgram_recvSeqnb (o : Ordgram) (pkt : Datum) (seqnb : Wai32) :
    (o.recvSeqnb pkt seqnb).2.rdgram = o.rdgram := by
  rw [Ordgram.recvSeqnb]
  split_ifs
  · rfl
  · rw [Ordgram.pktFromLowerOutoforder]
    split_ifs
    cases Omap.find seqnb o.recvbuf_pkt_db <;> rfl
  all_goals rfl

/-- A packet of data leaves the sender's half of the side which receives it. -/
theorem pktFromLower_of_toData (o : Ordgram) {data : Wai32 × Datum}
    (hdata : Rdgram.toData pkt = some data) :
    (o.pktFromLower pkt).1.toLower = [] ∧
      (o.pktFromLower pkt).2.rdgram.sendbuf_pkt_db = o.rdgram.sendbuf_pkt_db ∧
      (o.pktFromLower pkt).2.rdgram.next_xmit_seqnb = o.rdgram.next_xmit_seqnb := by
  rw [Ordgram.pktFromLower_of_toData hdata]
  split_ifs
  · exact ⟨rfl, rfl, rfl⟩
  · refine ⟨rfl, ?_, ?_⟩
    all_goals
      dsimp only
      rw [rdgram_recvSeqnb]
  · exact ⟨rfl, rfl, rfl⟩

/-- What a received packet does to the direction in which its receiver sends. -/
theorem flow_recv (l : Link) (side : Bool) (pkt : Datum) :
    (l.handle side (.pktFromLower pkt)).flow side = l.flow side ∨
      ∃ q, Rdgram.toAck pkt = some q ∧
        (l.handle side (.pktFromLower pkt)).flow side = (l.flow side).recvAck q := by
  cases hdata : Rdgram.toData pkt with
  | some data =>
    obtain ⟨hlower, hbuf, hxmit⟩ := pktFromLower_of_toData (l.peer side) hdata
    refine Or.inl (flow_handle_self_eq hbuf hxmit ?_ rfl)
    rw [Ordgram.handle, hlower]
    rfl
  | none =>
    cases hack : Rdgram.toAck pkt with
    | some q =>
      obtain ⟨used_len, hrecv⟩ := Ordgram.pktFromLower_of_toAck (o := l.peer side) hack
      refine Or.inr ⟨q, rfl, ?_⟩
      rw [flow_handle_self, Ordgram.handle, hrecv, Flow.send, Flow.recvAck]
      simp [flow, accepted]
    | none =>
      obtain ⟨hlower, -, hsame⟩ := Ordgram.pktFromLower_of_bogus (o := l.peer side) hdata hack
      refine Or.inl (flow_handle_self_eq ?_ ?_ ?_ rfl)
      all_goals rw [Ordgram.handle]
      · rw [hsame]
      · rw [hsame]
      · rw [hlower]
        rfl

/-- What it does to the direction in which it was sent. -/
theorem flow_recv_other (l : Link) (side : Bool) (hmem : pkt ∈ l.wire !side) :
    Relation.ReflTransGen Flow.Quiet (l.flow !side)
      ((l.handle side (.pktFromLower pkt)).flow !side) := by
  cases hdata : Rdgram.toData pkt with
  | some data =>
    have hlower := (pktFromLower_of_toData (l.peer side) hdata).1
    rw [flow_handle_recv (e := .pktFromLower pkt) (by rw [Ordgram.handle, hlower]; rfl)]
    have hflow : data ∈ (l.flow !side).data := List.mem_filterMap.2 ⟨pkt, hmem, hdata⟩
    have hquiet := Flow.quiet_recvData (l.flow !side) (l.peer side) hdata hflow
    rw [← flow_eq_recv] at hquiet
    exact hquiet
  | none =>
    have hsame : (l.handle side (.pktFromLower pkt)).flow (!side) = l.flow !side := by
      cases hack : Rdgram.toAck pkt with
      | some q =>
        obtain ⟨used_len, hrecv⟩ := Ordgram.pktFromLower_of_toAck (o := l.peer side) hack
        apply flow_handle_other_eq
        all_goals simp [Ordgram.handle, hrecv]
      | none =>
        obtain ⟨hlower, hupper, hsame⟩ :=
          Ordgram.pktFromLower_of_bogus (o := l.peer side) hdata hack
        apply flow_handle_other_eq
        all_goals simp [Ordgram.handle, hlower, hupper, hsame]
    rw [hsame]

theorem flow_rxmit (l : Link) (side : Bool) (seqnb : Wai32) :
    Relation.ReflTransGen Flow.Quiet (l.flow side)
      ((l.handle side (.rxmit seqnb)).flow side) := by
  have hflow : (l.handle side (.rxmit seqnb)).flow side =
      { l.flow side with data := (l.flow side).data ++
          ((l.peer side).rdgram.rxmit seqnb).toList.filterMap Rdgram.toData } := by
    rw [flow_handle_self]
    simp [Ordgram.handle, accepted, flow, Flow.send]
  rw [hflow, Rdgram.rxmit]
  cases hfind : Omap.find seqnb (l.peer side).rdgram.sendbuf_pkt_db with
  | none =>
    rw [Option.toList_none, List.filterMap_nil, List.append_nil]
  | some pkt => exact Relation.ReflTransGen.single (Flow.Quiet.rxmit (Omap.mem_of_find hfind))

theorem flow_rxmit_other (hinv : l.Inv) (side : Bool) (seqnb : Wai32) :
    (l.handle side (.rxmit seqnb)).flow (!side) = l.flow !side := by
  refine flow_handle_other_eq rfl rfl rfl ?_ rfl
  rw [Ordgram.handle, Rdgram.rxmit]
  cases hfind : Omap.find seqnb (l.peer side).rdgram.sendbuf_pkt_db with
  | none => rfl
  | some pkt =>
    -- what is in the buffer is data
    obtain ⟨k, payload, -, -, hpkt⟩ := (hinv side).sendbuf _ (Omap.mem_of_find hfind)
    obtain rfl : pkt = Rdgram.buildData seqnb payload := hpkt
    simp

theorem flow_zerotimerSeqnb2ack (l : Link) (side : Bool) :
    (l.handle side .zerotimerSeqnb2ack).flow side = l.flow side := by
  apply flow_handle_self_eq
  all_goals
    rw [Ordgram.handle, Rdgram.zerotimerSeqnb2ack]
    split_ifs
    · simp [List.filterMap_map, accepted]
    · simp [accepted]

theorem flow_zerotimerSeqnb2ack_other (l : Link) (side : Bool) :
    Relation.ReflTransGen Flow.Quiet (l.flow !side)
      ((l.handle side .zerotimerSeqnb2ack).flow !side) := by
  cases htimer : (l.peer side).rdgram.zerotimer_seqnb2ack with
  | false =>
    have hsame : (l.handle side .zerotimerSeqnb2ack).flow (!side) = l.flow !side := by
      apply flow_handle_other_eq
      all_goals simp [Ordgram.handle, Rdgram.zerotimerSeqnb2ack, htimer]
    rw [hsame]
  | true =>
    apply Relation.ReflTransGen.single
    have hflow : (l.handle side .zerotimerSeqnb2ack).flow (!side) =
        { l.flow !side with
          acks := (l.flow !side).acks ++ (l.flow !side).seqnb2ack_list
          seqnb2ack_list := [] } := by
      rw [flow_handle_other]
      simp [Ordgram.handle, Rdgram.zerotimerSeqnb2ack, htimer, Flow.recv, flow,
        List.filterMap_map]
    rw [hflow]
    exact Flow.Quiet.sendAcks

theorem flow_zerotimerDeliver (l : Link) (side : Bool) :
    (l.handle side .zerotimerDeliver).flow side = l.flow side := by
  apply flow_handle_self_eq
  all_goals
    rw [Ordgram.handle]
    split_ifs
    · rfl
    · simp [rdgram_zerotimerExpire, accepted]

theorem flow_zerotimerDeliver_other (l : Link) (side : Bool) :
    Relation.ReflTransGen Flow.Quiet (l.flow !side)
      ((l.handle side .zerotimerDeliver).flow !side) := by
  have hlower : ((l.peer side).handle .zerotimerDeliver).1.toLower.filterMap Rdgram.toAck = [] := by
    rw [Ordgram.handle]
    split_ifs <;> rfl
  have hquiet := Flow.quiet_zerotimerExpire (l.flow !side)
    { l.peer side with zerotimer_deliver := (l.peer side).zerotimer_deliver - 1 }
  have hsrc : (l.flow !side).recv []
      { l.peer side with zerotimer_deliver := (l.peer side).zerotimer_deliver - 1 } =
        l.flow !side := (flow_eq_recv l side).symm
  rw [hsrc] at hquiet
  rw [flow_handle_recv hlower, Ordgram.handle]
  split_ifs
  · show Relation.ReflTransGen Flow.Quiet (l.flow !side) ((l.flow !side).recv [] (l.peer side))
    rw [← flow_eq_recv]
  · exact hquiet

theorem sendbufSetMaxLen_eq (r : Rdgram) (len : ℕ) :
    ∃ len', r.sendbufSetMaxLen len = { r with sendbuf_max_len := len' } := by
  rw [Rdgram.sendbufSetMaxLen]
  split_ifs
  · exact ⟨len, rfl⟩
  · exact ⟨r.sendbuf_max_len, rfl⟩

theorem flow_sendbufSetMaxLen (l : Link) (side : Bool) (len : ℕ) :
    (l.handle side (.sendbufSetMaxLen len)).flow side = l.flow side := by
  obtain ⟨len', hset⟩ := sendbufSetMaxLen_eq (l.peer side).rdgram len
  apply flow_handle_self_eq
  all_goals simp [Ordgram.handle, hset, accepted]

theorem flow_sendbufSetMaxLen_other (l : Link) (side : Bool) (len : ℕ) :
    (l.handle side (.sendbufSetMaxLen len)).flow (!side) = l.flow !side := by
  obtain ⟨len', hset⟩ := sendbufSetMaxLen_eq (l.peer side).rdgram len
  apply flow_handle_other_eq
  all_goals simp [Ordgram.handle, hset]

theorem flow_lose (l : Link) (side side' : Bool) (i : ℕ) :
    Flow.Quiet (l.flow side') ((l.step (.lose side i)).flow side') := by
  have hwire : ∀ side', (l.step (.lose side i)).wire side' ⊆ l.wire side' := by
    intro side'
    show Function.update l.wire side ((l.wire side).eraseIdx i) side' ⊆ l.wire side'
    by_cases heq : side' = side
    · subst heq
      rw [Function.update_self]
      exact (List.eraseIdx_sublist _ _).subset
    · rw [Function.update_of_ne heq]
      exact fun _ h => h
  have hdata := List.filterMap_subset Rdgram.toData (hwire side')
  have hacks := List.filterMap_subset Rdgram.toAck (hwire !side')
  exact Flow.Quiet.net (f := l.flow side') hdata hacks

/-! ### Runs -/

/-- A step takes each direction through quiet steps, submits a packet or receives an
acknowledgement. -/
theorem flow_step (hinv : l.Inv) (e : LinkEvent) (side : Bool) :
    Relation.ReflTransGen Flow.Quiet (l.flow side) ((l.step e).flow side) ∨
      (∃ pkt, (l.step e).flow side = (l.flow side).submit pkt) ∨
      ∃ i pkt q, e = .recv side i ∧ (l.wire !side)[i]? = some pkt ∧ Rdgram.toAck pkt = some q ∧
        (l.step e).flow side = (l.flow side).recvAck q := by
  -- the side which handles the event, or the other one
  have hside : ∀ s : Bool, side = s ∨ side = !s := by decide +revert
  have hrefl : ∀ l' : Link, l'.flow side = l.flow side →
      Relation.ReflTransGen Flow.Quiet (l.flow side) (l'.flow side) := by
    intro l' heq
    rw [heq]
  cases e with
  | submit s pkt =>
    rcases hside s with rfl | rfl
    · rcases flow_submit l side pkt with hsame | hsub
      · exact Or.inl (hrefl _ hsame)
      · exact Or.inr (Or.inl ⟨pkt, hsub⟩)
    · exact Or.inl (hrefl _ (flow_submit_other l s pkt))
  | rxmit s seqnb =>
    rcases hside s with rfl | rfl
    · exact Or.inl (flow_rxmit l side seqnb)
    · exact Or.inl (hrefl _ (flow_rxmit_other hinv s seqnb))
  | zerotimerSeqnb2ack s =>
    rcases hside s with rfl | rfl
    · exact Or.inl (hrefl _ (flow_zerotimerSeqnb2ack l side))
    · exact Or.inl (flow_zerotimerSeqnb2ack_other l s)
  | zerotimerDeliver s =>
    rcases hside s with rfl | rfl
    · exact Or.inl (hrefl _ (flow_zerotimerDeliver l side))
    · exact Or.inl (flow_zerotimerDeliver_other l s)
  | sendbufSetMaxLen s len =>
    rcases hside s with rfl | rfl
    · exact Or.inl (hrefl _ (flow_sendbufSetMaxLen l side len))
    · exact Or.inl (hrefl _ (flow_sendbufSetMaxLen_other l s len))
  | lose s i => exact Or.inl (Relation.ReflTransGen.single (flow_lose l s side i))
  | recv s i =>
    cases hpkt : (l.wire !s)[i]? with
    | none =>
      have hsame : l.step (.recv s i) = l := by rw [step, hpkt]
      exact Or.inl (hrefl _ (by rw [hsame]))
    | some pkt =>
      have hstep : l.step (.recv s i) = l.handle s (.pktFromLower pkt) := by rw [step, hpkt]
      rw [hstep]
      rcases hside s with rfl | rfl
      · rcases flow_recv l side pkt with hsame | ⟨q, hack, hrecv⟩
        · exact Or.inl (hrefl _ hsame)
        · exact Or.inr (Or.inr ⟨i, pkt, q, rfl, hpkt, hack, hrecv⟩)
      · exact Or.inl (flow_recv_other l s (List.mem_of_getElem? hpkt))

/-- An acknowledgement which is received. -/
theorem flow_step_of_toAck {i : ℕ} {q : Wai32} (hpkt : (l.wire !side)[i]? = some pkt)
    (hack : Rdgram.toAck pkt = some q) :
    (l.step (.recv side i)).flow side = (l.flow side).recvAck q := by
  obtain ⟨used_len, hrecv⟩ := Ordgram.pktFromLower_of_toAck (o := l.peer side) hack
  have hstep : l.step (.recv side i) = l.handle side (.pktFromLower pkt) := by rw [step, hpkt]
  rw [hstep, flow_handle_self, Ordgram.handle, hrecv, Flow.send, Flow.recvAck]
  simp [flow, accepted]

theorem Inv.step (hinv : l.Inv) (hkept : l.Kept) (e : LinkEvent) (hwin : (l.step e).Window) :
    (l.step e).Inv := by
  intro side
  rcases flow_step hinv e side with hquiet | ⟨pkt, hsub⟩ | ⟨i, pkt, q, -, -, -, hrecv⟩
  · exact (Flow.inv_of_reflTransGen hquiet (hinv side) (hkept side)).1
  · have hwin' := hwin side
    rw [hsub] at hwin' ⊢
    exact ((hinv side).submit (hkept side) hwin').1
  · rw [hrecv]
    exact (hinv side).recvAck q

theorem kept_step_iff (hinv : l.Inv) (hkept : l.Kept) (e : LinkEvent) (hwin : (l.step e).Window) :
    (l.step e).Kept ↔ l.AckedHasPayload e := by
  have hmem : ∀ {side i pkt q}, (l.wire !side)[i]? = some pkt → Rdgram.toAck pkt = some q →
      q ∈ (l.flow side).acks := fun hpkt hack =>
    List.mem_filterMap.2 ⟨_, List.mem_of_getElem? hpkt, hack⟩
  constructor
  · intro hkept'
    cases e with
    | recv side i =>
      intro pkt hpkt seqnb hack sendbuf_pkt hfind
      have hiff := (hinv side).recvAck_kept_iff (hkept side) (hmem hpkt hack)
      rw [← flow_step_of_toAck hpkt hack] at hiff
      exact hiff.1 (hkept' side) sendbuf_pkt hfind
    | _ => trivial
  · intro hpayload side
    rcases flow_step hinv e side with hquiet | ⟨pkt, hsub⟩ | ⟨i, pkt, q, rfl, hpkt, hack, hrecv⟩
    · exact (Flow.inv_of_reflTransGen hquiet (hinv side) (hkept side)).2
    · have hwin' := hwin side
      rw [hsub] at hwin' ⊢
      exact ((hinv side).submit (hkept side) hwin').2
    · rw [hrecv, (hinv side).recvAck_kept_iff (hkept side) (hmem hpkt hack)]
      exact hpayload pkt hpkt q hack

theorem inv_ctor : ctor.Inv := by
  intro side
  refine ⟨rfl, rfl, List.prefix_rfl, List.not_mem_nil, ?_, ?_, ?_, ?_⟩
  · exact fun _ h => absurd h List.not_mem_nil
  · exact fun _ h => absurd h List.not_mem_nil
  · exact fun _ h => absurd h List.not_mem_nil
  · rintro q (h | h)
    all_goals exact absurd h List.not_mem_nil

theorem kept_ctor : ctor.Kept := fun _ =>
  ⟨List.prefix_rfl, fun _ h => absurd h (Nat.not_lt_zero _)⟩

/-- **Ordered reliable delivery**: in a run with fewer than `2 ^ 31` packets outstanding, each
side delivers what the other submits, in order and once, and no packet is forgotten before it is
delivered or buffered, exactly when no acknowledgement is received for a packet without a
payload. -/
theorem kept_iff (evs : List LinkEvent) (hwin : Always step Window ctor evs) :
    Always step Kept ctor evs ↔ Guarded step AckedHasPayload ctor evs := by
  have hQ : ∀ l e, Inv l → Kept l → Window (step l e) → Inv (step l e) :=
    fun l e hinv hkept hwin => hinv.step hkept e hwin
  have hstep : ∀ l e, Inv l → Kept l → Window (step l e) →
      (Kept (step l e) ∧ True ↔ AckedHasPayload l e) := fun l e hinv hkept hwin =>
    (and_iff_left trivial).trans (kept_step_iff hinv hkept e hwin)
  have hiff := always_and_guarded_iff (S := fun _ _ => True) hQ hstep kept_ctor inv_ctor hwin
  rwa [and_iff_left guarded_true] at hiff

/-- A packet which is submitted, received, acknowledged and delivered. -/
theorem kept_iff_one :
    Always step Kept ctor [.submit true [7], .recv false 0, .zerotimerSeqnb2ack false,
        .recv true 0] ↔
      Guarded step AckedHasPayload ctor [.submit true [7], .recv false 0,
        .zerotimerSeqnb2ack false, .recv true 0] :=
  kept_iff _ (by decide)

/-- An empty packet is acknowledged and forgotten by both sides. -/
theorem not_kept_empty : ¬∀ evs : List LinkEvent,
    Always step Window ctor evs → Always step Kept ctor evs := by
  intro h
  have hall := h [.submit true [], .recv false 0, .zerotimerSeqnb2ack false, .recv true 0]
    (by decide)
  have hkept := (hall.run true).2 0 (by decide)
  rcases hkept with (hlt | ⟨e, he, -⟩) | ⟨e, he, -⟩
  · exact absurd hlt (by decide)
  · exact absurd he (by decide +revert)
  · exact absurd he (by decide +revert)

end Link

end Neoip
