/-
Neoip/OrdgramRecvbuf.lean

The accounting of the receive buffer of `ordgram_t`, over all runs.

`recvbuf_used_len` is the length of what the buffer holds plus that of what has
leaked (`Recvbuf`).  The first loop of the zerotimer is the only thing which
leaks: it removes a packet and leaves `recvbuf_used_len`.

Main result: `always_accounted_iff`.
-/
import Neoip.Ordgram

namespace Neoip

namespace Ordgram

variable {o : Ordgram} {e : OrdgramEvent} {pkt payload : Datum} {seqnb : Wai32} {leaked : ℕ}

/-- The sum of the lengths of the packets in the receive buffer. -/
def heldLen (o : Ordgram) : ℕ := (o.recvbuf_pkt_db.map fun e => e.2.length).sum

def Accounted (o : Ordgram) : Prop :=
  o.recvbuf_used_len = o.heldLen ∧ o.recvbuf_used_len ≤ o.recvbuf_max_len

instance : DecidablePred Accounted := fun _ => inferInstanceAs (Decidable (_ ∧ _))

/-- A packet with exactly the next number is acknowledged, and delivered. -/
def Served (o : Ordgram) : OrdgramEvent → Prop
  | .pktFromLower pkt => ∀ payload, Rdgram.toData pkt = some (o.next_seqnb_to_deliver, payload) →
      (o.pktFromLower pkt).2.rdgram.seqnb2ack_list =
          o.rdgram.seqnb2ack_list ++ [o.next_seqnb_to_deliver] ∧
        (o.pktFromLower pkt).1.toUpper = [payload]
  | _ => True

/-- A packet with exactly the next number has a payload, and the buffer has room for it or has it
already.  A zerotimer does not find a packet which has been delivered. -/
def Unobstructed (o : Ordgram) : OrdgramEvent → Prop
  | .pktFromLower pkt => ∀ payload, Rdgram.toData pkt = some (o.next_seqnb_to_deliver, payload) →
      payload ≠ [] ∧ ((Omap.find o.next_seqnb_to_deliver o.recvbuf_pkt_db).isSome ∨
        o.recvbuf_used_len + payload.length ≤ o.recvbuf_max_len)
  | .zerotimerDeliver => o.zerotimer_deliver ≠ 0 →
      ∀ e ∈ o.recvbuf_pkt_db.head?, Wai.lt e.1 o.next_seqnb_to_deliver = false
  | _ => True

/-- The buffer, when `leaked` bytes of `recvbuf_used_len` are those of no packet. -/
structure Recvbuf (leaked : ℕ) (o : Ordgram) : Prop where
  keyed : Omap.Keyed o.recvbuf_pkt_db
  ne_nil : ∀ e ∈ o.recvbuf_pkt_db, e.2 ≠ []
  used_len : o.recvbuf_used_len = o.heldLen + leaked
  max_len : o.recvbuf_used_len ≤ o.recvbuf_max_len

theorem recvbuf_ctor : Recvbuf 0 ctor where
  keyed := List.nodup_nil
  ne_nil := fun _ h => absurd h List.not_mem_nil
  used_len := rfl
  max_len := Nat.zero_le _

/-- Nothing has leaked exactly when the accounting is right. -/
theorem Recvbuf.accounted_iff (h : Recvbuf leaked o) : o.Accounted ↔ leaked = 0 := by
  rw [Accounted, and_iff_left h.max_len, h.used_len]
  exact Nat.add_eq_left

/-- The buffer does not depend on the other side of the connection. -/
theorem Recvbuf.setRdgram (h : Recvbuf leaked o) (rdgram : Rdgram) :
    Recvbuf leaked { o with rdgram := rdgram } :=
  ⟨h.keyed, h.ne_nil, h.used_len, h.max_len⟩

theorem Recvbuf.setZerotimer (h : Recvbuf leaked o) (n : ℕ) :
    Recvbuf leaked { o with zerotimer_deliver := n } :=
  ⟨h.keyed, h.ne_nil, h.used_len, h.max_len⟩

/-! ### Packets which are received -/

theorem shouldAcked_eq_true : o.shouldAcked pkt seqnb = true ↔
    Wai.lt seqnb o.next_seqnb_to_deliver ∨ (Omap.find seqnb o.recvbuf_pkt_db).isSome ∨
      o.recvbuf_used_len + pkt.length ≤ o.recvbuf_max_len := by
  rw [shouldAcked]
  split_ifs with hlt hfind hlen
  · simp [hlt]
  · simp [hfind]
  · simp [hlt, hfind, hlen]
  · simp [not_lt.1 hlen]

theorem Recvbuf.pktFromLowerOutoforder (h : Recvbuf leaked o) (hne : pkt ≠ [])
    (hack : o.shouldAcked pkt seqnb = true) :
    Recvbuf leaked (o.pktFromLowerOutoforder pkt seqnb) := by
  rw [Ordgram.pktFromLowerOutoforder]
  split_ifs with hlt
  · exact h
  cases hfind : Omap.find seqnb o.recvbuf_pkt_db with
  | some _ => exact h
  | none =>
    -- it is not one of those which are acknowledged without a look at the length
    have hroom : o.recvbuf_used_len + pkt.length ≤ o.recvbuf_max_len := by
      simpa [hlt, hfind] using shouldAcked_eq_true.1 hack
    have hheld : (({ o with
        recvbuf_used_len := o.recvbuf_used_len + pkt.length
        recvbuf_pkt_db := Omap.insert Wai.lt seqnb pkt o.recvbuf_pkt_db } : Ordgram)).heldLen =
          pkt.length + o.heldLen := by
      show ((Omap.insert Wai.lt seqnb pkt o.recvbuf_pkt_db).map fun e => e.2.length).sum = _
      rw [Omap.insert_of_find hfind, Omap.sum_place]
      rfl
    refine ⟨?_, ?_, ?_, hroom⟩
    · show Omap.Keyed (Omap.insert Wai.lt seqnb pkt o.recvbuf_pkt_db)
      rw [Omap.insert_of_find hfind]
      exact Omap.keyed_place h.keyed hfind
    · intro e he
      rw [Omap.insert_of_find hfind, Omap.mem_place] at he
      rcases he with rfl | he
      · exact hne
      · exact h.ne_nil e he
    · rw [hheld]
      show o.recvbuf_used_len + pkt.length = _
      rw [h.used_len]
      omega

theorem Recvbuf.recvSeqnb (h : Recvbuf leaked o) (hne : pkt ≠ [])
    (hack : o.shouldAcked pkt seqnb = true) : Recvbuf leaked (o.recvSeqnb pkt seqnb).2 := by
  rw [Ordgram.recvSeqnb]
  split_ifs
  · exact h
  · exact h.pktFromLowerOutoforder hne hack
  all_goals exact ⟨h.keyed, h.ne_nil, h.used_len, h.max_len⟩

theorem Recvbuf.pktFromLower (h : Recvbuf leaked o) (pkt : Datum) :
    Recvbuf leaked (o.pktFromLower pkt).2 := by
  cases hdata : Rdgram.toData pkt with
  | some data =>
    rw [pktFromLower_of_toData hdata]
    split_ifs with hack hnil
    · exact h.setRdgram _
    · exact (h.setRdgram _).recvSeqnb hnil hack
    · exact h
  | none =>
    cases hack : Rdgram.toAck pkt with
    | some seqnb =>
      obtain ⟨used_len, hrecv⟩ := pktFromLower_of_toAck (o := o) hack
      rw [hrecv]
      exact h.setRdgram _
    | none =>
      rw [(pktFromLower_of_bogus hdata hack).2.2]
      exact h

/-- A packet in order is served exactly when nothing is in its way. -/
theorem served_iff_unobstructed : o.Served (.pktFromLower pkt) ↔
    o.Unobstructed (.pktFromLower pkt) := by
  refine forall_congr' fun payload => forall_congr' fun hdata => ?_
  have hlt : Wai.lt o.next_seqnb_to_deliver o.next_seqnb_to_deliver = false := by
    simp [Wai.lt, Wai.cmp]
  have hgt : Wai.gt o.next_seqnb_to_deliver o.next_seqnb_to_deliver = false := by
    simp [Wai.gt, Wai.cmp]
  have hack : o.shouldAcked payload o.next_seqnb_to_deliver = true ↔
      (Omap.find o.next_seqnb_to_deliver o.recvbuf_pkt_db).isSome ∨
        o.recvbuf_used_len + payload.length ≤ o.recvbuf_max_len := by
    simp [shouldAcked_eq_true, hlt]
  rw [pktFromLower_of_toData hdata, ← hack]
  split_ifs with hacked hnil
  · simp [hnil]
  · simp [hnil, hacked, Ordgram.recvSeqnb, hlt, hgt]
  · simp [hacked]

/-! ### The zerotimer -/

theorem Recvbuf.deliverPkt (h : Recvbuf leaked o)
    (hfind : Omap.find o.next_seqnb_to_deliver o.recvbuf_pkt_db = some pkt) :
    Recvbuf leaked (o.deliverPkt pkt) := by
  have hsum : o.heldLen = pkt.length + (o.deliverPkt pkt).heldLen :=
    Omap.sum_erase h.keyed (Omap.mem_of_find hfind) fun e => e.2.length
  have hused := h.used_len
  have hused' : (o.deliverPkt pkt).recvbuf_used_len = o.recvbuf_used_len - pkt.length := rfl
  refine ⟨Omap.keyed_erase h.keyed, fun e he => h.ne_nil e (Omap.mem_erase.1 he).1, ?_, ?_⟩
  · omega
  · exact (Nat.sub_le _ _).trans h.max_len

theorem Recvbuf.deliverLoop (h : Recvbuf leaked o) (fuel : ℕ) :
    Recvbuf leaked (Ordgram.deliverLoop fuel o).2 :=
  deliverLoop_invariant (fun _ _ hfind h => h.deliverPkt hfind) fuel h

/-- What the first loop of the zerotimer leaks: the lengths of the packets it removes. -/
def obsoleteLen (o : Ordgram) : ℕ :=
  ((o.recvbuf_pkt_db.takeWhile fun e => Wai.lt e.1 o.next_seqnb_to_deliver).map
    fun e => e.2.length).sum

theorem Recvbuf.dropObsolete (h : Recvbuf leaked o) :
    Recvbuf (leaked + o.obsoleteLen) o.dropObsolete := by
  have hsplit := List.takeWhile_append_dropWhile
    (p := fun e => Wai.lt e.1 o.next_seqnb_to_deliver) (l := o.recvbuf_pkt_db)
  have hsub := List.dropWhile_sublist (fun e => Wai.lt e.1 o.next_seqnb_to_deliver)
    (l := o.recvbuf_pkt_db)
  refine ⟨h.keyed.sublist (hsub.map Prod.fst), fun e he => h.ne_nil e (hsub.subset he), ?_,
    h.max_len⟩
  have hsum : o.heldLen = o.obsoleteLen + o.dropObsolete.heldLen := by
    rw [heldLen, ← hsplit, List.map_append, List.sum_append]
    rfl
  have hused : o.dropObsolete.recvbuf_used_len = o.recvbuf_used_len := rfl
  rw [hused, h.used_len, hsum]
  omega

/-- It leaks nothing exactly when the first packet is not an obsolete one. -/
theorem Recvbuf.obsoleteLen_eq_zero (h : Recvbuf leaked o) : o.obsoleteLen = 0 ↔
    ∀ e ∈ o.recvbuf_pkt_db.head?, Wai.lt e.1 o.next_seqnb_to_deliver = false := by
  rw [obsoleteLen]
  cases hdb : o.recvbuf_pkt_db with
  | nil => simp
  | cons e db =>
    have hne : e.2 ≠ [] := h.ne_nil e (hdb ▸ List.mem_cons_self)
    cases hlt : Wai.lt e.1 o.next_seqnb_to_deliver <;> simp [hlt, hne]

theorem Recvbuf.zerotimerExpire (h : Recvbuf leaked o) :
    Recvbuf (leaked + o.obsoleteLen) o.zerotimerExpire.2 :=
  h.dropObsolete.deliverLoop _

/-! ### Runs -/

/-- What a step leaks. -/
def leak (o : Ordgram) : OrdgramEvent → ℕ
  | .zerotimerDeliver => if o.zerotimer_deliver = 0 then 0 else o.obsoleteLen
  | _ => 0

theorem Recvbuf.step (h : Recvbuf leaked o) (e : OrdgramEvent) :
    Recvbuf (leaked + o.leak e) (o.step e) := by
  cases e with
  | pktFromUpper pkt =>
    rw [Ordgram.step, handle, Ordgram.pktFromUpper]
    split
    all_goals exact h.setRdgram _
  | pktFromLower pkt => exact h.pktFromLower pkt
  | rxmit seqnb => exact h
  | zerotimerSeqnb2ack => exact h.setRdgram _
  | zerotimerDeliver =>
    rw [Ordgram.step, handle, leak]
    split_ifs
    · exact h
    · exact (h.setZerotimer (o.zerotimer_deliver - 1)).zerotimerExpire
  | sendbufSetMaxLen len => exact h.setRdgram _

/-- A step leaks nothing and serves what it receives exactly when it is unobstructed. -/
theorem Recvbuf.leak_eq_zero_and_served_iff (h : Recvbuf leaked o) (e : OrdgramEvent) :
    o.leak e = 0 ∧ o.Served e ↔ o.Unobstructed e := by
  cases e with
  | pktFromLower pkt => exact (and_iff_right rfl).trans served_iff_unobstructed
  | zerotimerDeliver =>
    have hserved : o.Served .zerotimerDeliver := trivial
    rw [and_iff_left hserved, leak, Unobstructed, ← h.obsoleteLen_eq_zero]
    split_ifs with hzero
    · simp [hzero]
    · simp [hzero]
  | pktFromUpper pkt => exact iff_of_true ⟨rfl, trivial⟩ trivial
  | rxmit seqnb => exact iff_of_true ⟨rfl, trivial⟩ trivial
  | zerotimerSeqnb2ack => exact iff_of_true ⟨rfl, trivial⟩ trivial
  | sendbufSetMaxLen len => exact iff_of_true ⟨rfl, trivial⟩ trivial

/-- **The receive buffer**: in a run, the accounting is right in every state and every packet in
order is served, exactly when every step is unobstructed. -/
theorem always_accounted_iff (evs : List OrdgramEvent) :
    Always step Accounted ctor evs ∧ Guarded step Served ctor evs ↔
      Guarded step Unobstructed ctor evs := by
  refine always_and_guarded_iff (Q := fun o => ∃ leaked, Recvbuf leaked o) ?_ ?_
    (recvbuf_ctor.accounted_iff.2 rfl) ⟨0, recvbuf_ctor⟩ always_true
  · rintro o e ⟨leaked, h⟩ - -
    exact ⟨_, h.step e⟩
  · rintro o e ⟨leaked, h⟩ hacc -
    have hzero := h.accounted_iff.1 hacc
    subst hzero
    rw [(h.step e).accounted_iff, Nat.zero_add]
    exact h.leak_eq_zero_and_served_iff e

/-- Packet 1 comes before packet 0 and again after it, when it is in order. -/
theorem not_accounted_leak : ¬∀ evs : List OrdgramEvent,
    Always step Accounted ctor evs ∧ Guarded step Served ctor evs := by
  intro h
  have hall := (h [.pktFromLower (Rdgram.buildData 1 [7]), .pktFromLower (Rdgram.buildData 0 [5]),
    .pktFromLower (Rdgram.buildData 1 [7]), .zerotimerDeliver]).1
  exact not_always_of_run (by decide) hall

end Ordgram

end Neoip
