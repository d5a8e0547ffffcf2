/-
Neoip/OrdgramFlow.lean

One direction of a connection between two `ordgram_t`: what its sender, its
receiver and the network have of the packets which go that way.

The packets are those of `submitted`, numbered from zero; packet `k` is known
everywhere by the low 32 bits of `k`.  This is enough while less than half of
the numbers are outstanding (`Window`).

The receiver delivers the packets in order and each once, and the sender keeps
each one until the receiver has delivered or buffered it (`Kept`).  Only one
thing can break this: an acknowledgement of a packet which has no payload, as
the receiver acknowledges such a packet and forgets it (`Inv.recvAck_kept_iff`).
-/
import Mathlib.Data.List.TakeWhile
import Mathlib.Logic.Relation
import Neoip.Ordgram

namespace Neoip

/-- One direction of a link. -/
structure Flow where
  submitted : List Datum
  delivered : List Datum
  /-- The packets the sender has kept, with their headers. -/
  sendbuf_pkt_db : List (Wai32 × Datum)
  next_xmit_seqnb : Wai32
  recvbuf_pkt_db : List (Wai32 × Datum)
  next_seqnb_to_deliver : Wai32
  seqnb2ack_list : List Wai32
  /-- The data in the network. -/
  data : List (Wai32 × Datum)
  /-- The acknowledgements in the network. -/
  acks : List Wai32

namespace Flow

/-- The numbers of the packets which the sender, the receiver or the network still hold, or which
are being acknowledged. -/
def outstanding (f : Flow) : List Wai32 :=
  f.sendbuf_pkt_db.map Prod.fst ++ f.data.map Prod.fst ++ f.recvbuf_pkt_db.map Prod.fst ++
    f.seqnb2ack_list ++ f.acks

/-- Fewer than `2 ^ 31` packets are outstanding. -/
def Window (f : Flow) : Prop :=
  ∀ q ∈ f.outstanding, Wai.behind q f.next_xmit_seqnb < 2 ^ 31

/-- `q` is the number of packet `k`, which is one of the last `2 ^ 31` packets. -/
def IsNb (f : Flow) (k : ℕ) (q : Wai32) : Prop :=
  k < f.submitted.length ∧ f.submitted.length < k + 2 ^ 31 ∧ q = BitVec.ofNat 32 k

/-- The receiver has delivered packet `k`, or it has it in its buffer. -/
def Safe (f : Flow) (k : ℕ) : Prop :=
  k < f.delivered.length ∨ ∃ e ∈ f.recvbuf_pkt_db, f.IsNb k e.1

/-- What is delivered are the first packets in their order, and a packet which the sender does not
have any more is safe. -/
def Kept (f : Flow) : Prop :=
  f.delivered <+: f.submitted ∧
    ∀ k < f.submitted.length, f.Safe k ∨ ∃ e ∈ f.sendbuf_pkt_db, f.IsNb k e.1

/-- Every number which is outstanding is that of a packet, and comes with the right payload. -/
structure Inv (f : Flow) : Prop where
  next_xmit_seqnb : f.next_xmit_seqnb = BitVec.ofNat 32 f.submitted.length
  next_seqnb_to_deliver : f.next_seqnb_to_deliver = BitVec.ofNat 32 f.delivered.length
  delivered : f.delivered <+: f.submitted
  ne_nil : [] ∉ f.delivered
  sendbuf : ∀ e ∈ f.sendbuf_pkt_db, ∃ k pkt, f.IsNb k e.1 ∧ f.submitted[k]? = some pkt ∧
    e.2 = Rdgram.buildData e.1 pkt
  data : ∀ e ∈ f.data, ∃ k, f.IsNb k e.1 ∧ f.submitted[k]? = some e.2
  recvbuf : ∀ e ∈ f.recvbuf_pkt_db, ∃ k, f.IsNb k e.1 ∧ f.submitted[k]? = some e.2 ∧ e.2 ≠ []
  acks : ∀ q, q ∈ f.seqnb2ack_list ∨ q ∈ f.acks →
    ∃ k, f.IsNb k q ∧ (f.Safe k ∨ f.submitted[k]? = some [])

variable {f f' : Flow} {k k' : ℕ} {q : Wai32} {pkt : Datum}

/-! ### Numbers -/

theorem IsNb.inj (h : f.IsNb k q) (h' : f.IsNb k' q) : k = k' := by
  obtain ⟨hlt, hwin, hq⟩ := h
  obtain ⟨hlt', hwin', hq'⟩ := h'
  have heq := hq.symm.trans hq'
  exact Wai.ofNat_inj (w := 31) (by omega) (by omega) heq

/-- The packets which are not delivered yet are among the last `2 ^ 31`. -/
theorem Kept.delivered_window (h : f.Kept) :
    f.submitted.length < f.delivered.length + 2 ^ 31 := by
  rcases h.1.length_le.lt_or_eq with hlt | heq
  · rcases h.2 _ hlt with (hself | ⟨e, -, hnb⟩) | ⟨e, -, hnb⟩
    · exact absurd hself (lt_irrefl _)
    · exact hnb.2.1
    · exact hnb.2.1
  · omega

section Compare

variable (hinv : f.Inv) (hkept : f.Kept) (hnb : f.IsNb k q)
include hinv hkept hnb

theorem lt_next_iff : Wai.lt q f.next_seqnb_to_deliver = true ↔ k < f.delivered.length := by
  have hd := hkept.delivered_window
  have hle := hinv.delivered.length_le
  obtain ⟨hlt, hwin, rfl⟩ := hnb
  rw [hinv.next_seqnb_to_deliver]
  exact Wai.lt_ofNat (w := 31) (by omega) (by omega)

theorem gt_next_iff : Wai.gt q f.next_seqnb_to_deliver = true ↔ f.delivered.length < k := by
  have hd := hkept.delivered_window
  have hle := hinv.delivered.length_le
  obtain ⟨hlt, hwin, rfl⟩ := hnb
  rw [hinv.next_seqnb_to_deliver]
  exact Wai.gt_ofNat (w := 31) (by omega) (by omega)

theorem eq_next_iff : q = f.next_seqnb_to_deliver ↔ k = f.delivered.length := by
  have hd := hkept.delivered_window
  have hle := hinv.delivered.length_le
  obtain ⟨hlt, hwin, rfl⟩ := hnb
  rw [hinv.next_seqnb_to_deliver]
  refine ⟨fun heq => ?_, fun heq => by rw [heq]⟩
  exact Wai.ofNat_inj (w := 31) (by omega) (by omega) heq

end Compare

/-- The delivery of packet `k`, which is the next one. -/
theorem Inv.prefix_append (h : f.Inv) (hk : f.submitted[f.delivered.length]? = some pkt) :
    f.delivered ++ [pkt] <+: f.submitted := by
  obtain ⟨rest, hrest⟩ := h.delivered
  rw [← hrest, List.getElem?_append_right le_rfl, Nat.sub_self] at hk
  obtain ⟨tail, rfl⟩ : ∃ tail, rest = pkt :: tail := by
    cases rest with
    | nil => cases hk
    | cons b tail => exact ⟨tail, by rw [List.getElem?_cons_zero, Option.some.injEq] at hk; rw [hk]⟩
  exact ⟨tail, by rw [← hrest, List.append_assoc]; rfl⟩

/-! ### The steps which neither add a packet nor forget one -/

/-- What happens in one direction, but for the packets which the sender gets from its upper layer
and the acknowledgements which it receives. -/
inductive Quiet (f : Flow) : Flow → Prop
  | net {data : List (Wai32 × Datum)} {acks : List Wai32} (hdata : data ⊆ f.data)
      (hacks : acks ⊆ f.acks) :
      Quiet f { f with data := data, acks := acks }
  | rxmit {q : Wai32} {pkt : Datum} (hmem : (q, pkt) ∈ f.sendbuf_pkt_db) :
      Quiet f { f with data := f.data ++ [pkt].filterMap Rdgram.toData }
  | recvOld {q : Wai32} {pkt : Datum} (hmem : (q, pkt) ∈ f.data)
      (hold : Wai.lt q f.next_seqnb_to_deliver ∨ (Omap.find q f.recvbuf_pkt_db).isSome ∨
        pkt = []) :
      Quiet f { f with seqnb2ack_list := f.seqnb2ack_list ++ [q] }
  | recvOutoforder {q : Wai32} {pkt : Datum} (hmem : (q, pkt) ∈ f.data) (hne : pkt ≠ [])
      (hfind : Omap.find q f.recvbuf_pkt_db = none) :
      Quiet f { f with
        seqnb2ack_list := f.seqnb2ack_list ++ [q]
        recvbuf_pkt_db := Omap.insert Wai.lt q pkt f.recvbuf_pkt_db }
  | recvNext {q : Wai32} {pkt : Datum} (hmem : (q, pkt) ∈ f.data) (hne : pkt ≠ [])
      (hlt : Wai.lt q f.next_seqnb_to_deliver = false)
      (hgt : Wai.gt q f.next_seqnb_to_deliver = false) :
      Quiet f { f with
        seqnb2ack_list := f.seqnb2ack_list ++ [q]
        delivered := f.delivered ++ [pkt]
        next_seqnb_to_deliver := f.next_seqnb_to_deliver + 1 }
  | dropObsolete :
      Quiet f { f with recvbuf_pkt_db :=
        f.recvbuf_pkt_db.dropWhile fun e => Wai.lt e.1 f.next_seqnb_to_deliver }
  | deliverPkt {pkt : Datum}
      (hfind : Omap.find f.next_seqnb_to_deliver f.recvbuf_pkt_db = some pkt) :
      Quiet f { f with
        delivered := f.delivered ++ [pkt]
        recvbuf_pkt_db := Omap.erase f.next_seqnb_to_deliver f.recvbuf_pkt_db
        next_seqnb_to_deliver := f.next_seqnb_to_deliver + 1 }
  | sendAcks :
      Quiet f { f with acks := f.acks ++ f.seqnb2ack_list, seqnb2ack_list := [] }

/-- What is safe stays so while the buffer only loses packets which have been delivered. -/
theorem Safe.mono (hsub : f'.submitted = f.submitted)
    (hdel : f.delivered.length ≤ f'.delivered.length)
    (hbuf : ∀ e ∈ f.recvbuf_pkt_db, f.IsNb k e.1 →
      e ∈ f'.recvbuf_pkt_db ∨ k < f'.delivered.length) (h : f.Safe k) : f'.Safe k := by
  rcases h with hlt | ⟨e, he, hnb⟩
  · exact Or.inl (hlt.trans_le hdel)
  · rcases hbuf e he hnb with he' | hlt
    · refine Or.inr ⟨e, he', ?_⟩
      rw [IsNb, hsub]
      exact hnb
    · exact Or.inl hlt

/-- A step which keeps the sender, and only makes packets safe. -/
theorem Inv.quiet (hinv : f.Inv) (hkept : f.Kept) (hsub : f'.submitted = f.submitted)
    (hbuf : f'.sendbuf_pkt_db = f.sendbuf_pkt_db)
    (hxmit : f'.next_xmit_seqnb = f.next_xmit_seqnb)
    (hsafe : ∀ k, f.Safe k → f'.Safe k)
    (hnext : f'.next_seqnb_to_deliver = BitVec.ofNat 32 f'.delivered.length)
    (hdel : f'.delivered <+: f.submitted) (hne : [] ∉ f'.delivered)
    (hdata : ∀ e ∈ f'.data, ∃ k, f.IsNb k e.1 ∧ f.submitted[k]? = some e.2)
    (hrecv : ∀ e ∈ f'.recvbuf_pkt_db,
      ∃ k, f.IsNb k e.1 ∧ f.submitted[k]? = some e.2 ∧ e.2 ≠ [])
    (hacks : ∀ q, q ∈ f'.seqnb2ack_list ∨ q ∈ f'.acks →
      ∃ k, f.IsNb k q ∧ (f'.Safe k ∨ f.submitted[k]? = some [])) : f'.Inv ∧ f'.Kept := by
  have hnb : ∀ k q, f'.IsNb k q ↔ f.IsNb k q := fun k q => by rw [IsNb, IsNb, hsub]
  refine ⟨⟨?_, hnext, ?_, hne, ?_, ?_, ?_, ?_⟩, ?_, fun k hk => ?_⟩
  · rw [hxmit, hsub]
    exact hinv.next_xmit_seqnb
  · rw [hsub]
    exact hdel
  · simpa only [hbuf, hnb, hsub] using hinv.sendbuf
  · simpa only [hnb, hsub] using hdata
  · simpa only [hnb, hsub] using hrecv
  · simpa only [hnb, hsub] using hacks
  · rw [hsub]
    exact hdel
  · rw [hsub] at hk
    rw [hbuf]
    refine (hkept.2 k hk).imp (hsafe k) ?_
    rintro ⟨e, he, hk⟩
    exact ⟨e, he, (hnb k e.1).2 hk⟩

theorem Inv.net (hinv : f.Inv) (hkept : f.Kept) {data : List (Wai32 × Datum)} {acks : List Wai32}
    (hdata : data ⊆ f.data) (hacks : acks ⊆ f.acks) :
    ({ f with data := data, acks := acks } : Flow).Inv ∧
      ({ f with data := data, acks := acks } : Flow).Kept := by
  refine hinv.quiet hkept rfl rfl rfl (fun k h => h) hinv.next_seqnb_to_deliver hinv.delivered
    hinv.ne_nil (fun e he => hinv.data e (hdata he)) hinv.recvbuf ?_
  intro q hq
  exact hinv.acks q (hq.imp id fun h => hacks h)

theorem Inv.rxmit (hinv : f.Inv) (hkept : f.Kept) (hmem : (q, pkt) ∈ f.sendbuf_pkt_db) :
    ({ f with data := f.data ++ [pkt].filterMap Rdgram.toData } : Flow).Inv ∧
      ({ f with data := f.data ++ [pkt].filterMap Rdgram.toData } : Flow).Kept := by
  obtain ⟨k, payload, hnb, hk, hpkt⟩ := hinv.sendbuf _ hmem
  obtain rfl : pkt = Rdgram.buildData q payload := hpkt
  refine hinv.quiet hkept rfl rfl rfl (fun k h => h) hinv.next_seqnb_to_deliver hinv.delivered
    hinv.ne_nil ?_ hinv.recvbuf hinv.acks
  intro e he
  rcases List.mem_append.1 he with he | he
  · exact hinv.data e he
  · have heq : e = (q, payload) := by simpa using he
    exact ⟨k, by rw [heq]; exact hnb, by rw [heq]; exact hk⟩

/-- The number of a packet which is received is acknowledged. -/
theorem Inv.seqnb2ack (hinv : f.Inv) (hsafe : ∀ k, f.Safe k → f'.Safe k)
    (hlist : f'.seqnb2ack_list = f.seqnb2ack_list ++ [q]) (hacks : f'.acks = f.acks) (hnb : f.IsNb k q)
    (hk : f'.Safe k ∨ f.submitted[k]? = some []) :
    ∀ q, q ∈ f'.seqnb2ack_list ∨ q ∈ f'.acks →
      ∃ k, f.IsNb k q ∧ (f'.Safe k ∨ f.submitted[k]? = some []) := by
  intro q' hq'
  rw [hlist, hacks, List.mem_append, List.mem_singleton, or_right_comm] at hq'
  rcases hq' with hold | rfl
  · obtain ⟨k', hnb', hk'⟩ := hinv.acks q' hold
    exact ⟨k', hnb', hk'.imp (hsafe k') id⟩
  · exact ⟨k, hnb, hk⟩

theorem Inv.recvOld (hinv : f.Inv) (hkept : f.Kept) (hmem : (q, pkt) ∈ f.data)
    (hold : Wai.lt q f.next_seqnb_to_deliver ∨ (Omap.find q f.recvbuf_pkt_db).isSome ∨
      pkt = []) :
    ({ f with seqnb2ack_list := f.seqnb2ack_list ++ [q] } : Flow).Inv ∧
      ({ f with seqnb2ack_list := f.seqnb2ack_list ++ [q] } : Flow).Kept := by
  obtain ⟨k, hnb, hk⟩ := hinv.data _ hmem
  have hsafe : f.Safe k ∨ f.submitted[k]? = some [] := by
    rcases hold with hlt | hfind | rfl
    · exact Or.inl (Or.inl ((lt_next_iff hinv hkept hnb).1 hlt))
    · obtain ⟨a, ha⟩ := Option.isSome_iff_exists.1 hfind
      exact Or.inl (Or.inr ⟨_, Omap.mem_of_find ha, hnb⟩)
    · exact Or.inr hk
  refine hinv.quiet hkept rfl rfl rfl (fun k h => h) hinv.next_seqnb_to_deliver hinv.delivered
    hinv.ne_nil hinv.data hinv.recvbuf ?_
  exact hinv.seqnb2ack (fun k h => h) rfl rfl hnb hsafe

theorem Inv.recvOutoforder (hinv : f.Inv) (hkept : f.Kept) (hmem : (q, pkt) ∈ f.data)
    (hne : pkt ≠ []) (hfind : Omap.find q f.recvbuf_pkt_db = none) {f' : Flow}
    (hf' : f' = { f with
      seqnb2ack_list := f.seqnb2ack_list ++ [q]
      recvbuf_pkt_db := Omap.insert Wai.lt q pkt f.recvbuf_pkt_db }) : f'.Inv ∧ f'.Kept := by
  subst hf'
  obtain ⟨k, hnb, hk⟩ := hinv.data _ hmem
  rw [Omap.insert_of_find hfind]
  have hsafe : ∀ k, f.Safe k → ({ f with
      seqnb2ack_list := f.seqnb2ack_list ++ [q]
      recvbuf_pkt_db := Omap.place Wai.lt q pkt f.recvbuf_pkt_db } : Flow).Safe k := fun k =>
    Safe.mono rfl le_rfl fun e he _ => Or.inl (Omap.mem_place.2 (Or.inr he))
  refine hinv.quiet hkept rfl rfl rfl hsafe hinv.next_seqnb_to_deliver hinv.delivered hinv.ne_nil
    hinv.data ?_ ?_
  · intro e he
    rcases Omap.mem_place.1 he with rfl | he
    · exact ⟨k, hnb, hk, hne⟩
    · exact hinv.recvbuf e he
  · exact hinv.seqnb2ack hsafe rfl rfl hnb
      (Or.inl (Or.inr ⟨_, Omap.mem_place.2 (Or.inl rfl), hnb⟩))

theorem Inv.recvNext (hinv : f.Inv) (hkept : f.Kept) (hmem : (q, pkt) ∈ f.data) (hne : pkt ≠ [])
    (hlt : Wai.lt q f.next_seqnb_to_deliver = false)
    (hgt : Wai.gt q f.next_seqnb_to_deliver = false) {f' : Flow}
    (hf' : f' = { f with
      seqnb2ack_list := f.seqnb2ack_list ++ [q]
      delivered := f.delivered ++ [pkt]
      next_seqnb_to_deliver := f.next_seqnb_to_deliver + 1 }) : f'.Inv ∧ f'.Kept := by
  subst hf'
  obtain ⟨k, hnb, hk⟩ := hinv.data _ hmem
  -- neither before nor after the next one
  have hnext : k = f.delivered.length := by
    have hnlt := mt (lt_next_iff hinv hkept hnb).2 (by rw [hlt]; exact Bool.false_ne_true)
    have hngt := mt (gt_next_iff hinv hkept hnb).2 (by rw [hgt]; exact Bool.false_ne_true)
    omega
  subst hnext
  have hlen : (f.delivered ++ [pkt]).length = f.delivered.length + 1 := by simp
  have hsafe : ∀ k, f.Safe k → ({ f with
      seqnb2ack_list := f.seqnb2ack_list ++ [q]
      delivered := f.delivered ++ [pkt]
      next_seqnb_to_deliver := f.next_seqnb_to_deliver + 1 } : Flow).Safe k := fun k =>
    Safe.mono rfl (by rw [hlen]; exact Nat.le_succ _) fun e he _ => Or.inl he
  refine hinv.quiet hkept rfl rfl rfl hsafe ?_ ?_ ?_ ?_ ?_ ?_
  · rw [hlen, Wai.ofNat_succ, ← hinv.next_seqnb_to_deliver]
  · exact hinv.prefix_append hk
  · simpa [hne.symm] using hinv.ne_nil
  · exact hinv.data
  · exact hinv.recvbuf
  · refine hinv.seqnb2ack hsafe rfl rfl hnb (Or.inl (Or.inl ?_))
    rw [hlen]
    exact Nat.lt_succ_self _

theorem Inv.dropObsolete (hinv : f.Inv) (hkept : f.Kept) {f' : Flow}
    (hf' : f' = { f with recvbuf_pkt_db :=
      f.recvbuf_pkt_db.dropWhile fun e => Wai.lt e.1 f.next_seqnb_to_deliver }) :
    f'.Inv ∧ f'.Kept := by
  subst hf'
  have hsplit := List.takeWhile_append_dropWhile
    (p := fun e => Wai.lt e.1 f.next_seqnb_to_deliver) (l := f.recvbuf_pkt_db)
  have hsafe : ∀ k, f.Safe k → ({ f with
      recvbuf_pkt_db :=
        f.recvbuf_pkt_db.dropWhile fun e => Wai.lt e.1 f.next_seqnb_to_deliver } : Flow).Safe k := by
    intro k
    refine Safe.mono rfl le_rfl fun e he hnb => ?_
    rw [← hsplit, List.mem_append] at he
    rcases he with he | he
    · -- it is removed, as it has been delivered
      have hlt := List.all_eq_true.1 List.all_takeWhile e he
      exact Or.inr ((lt_next_iff hinv hkept hnb).1 hlt)
    · exact Or.inl he
  refine hinv.quiet hkept rfl rfl rfl hsafe hinv.next_seqnb_to_deliver hinv.delivered hinv.ne_nil
    hinv.data ?_ ?_
  · intro e he
    exact hinv.recvbuf e ((List.dropWhile_sublist _).subset he)
  · intro q hq
    obtain ⟨k, hnb, hk⟩ := hinv.acks q hq
    exact ⟨k, hnb, hk.imp (hsafe k) id⟩

theorem Inv.deliverPkt (hinv : f.Inv) (hkept : f.Kept)
    (hfind : Omap.find f.next_seqnb_to_deliver f.recvbuf_pkt_db = some pkt) {f' : Flow}
    (hf' : f' = { f with
      delivered := f.delivered ++ [pkt]
      recvbuf_pkt_db := Omap.erase f.next_seqnb_to_deliver f.recvbuf_pkt_db
      next_seqnb_to_deliver := f.next_seqnb_to_deliver + 1 }) : f'.Inv ∧ f'.Kept := by
  subst hf'
  obtain ⟨k, hnb, hk, hne⟩ := hinv.recvbuf _ (Omap.mem_of_find hfind)
  have hnext := (eq_next_iff hinv hkept hnb).1 rfl
  subst hnext
  have hlen : (f.delivered ++ [pkt]).length = f.delivered.length + 1 := by simp
  have hsafe : ∀ k, f.Safe k → ({ f with
      delivered := f.delivered ++ [pkt]
      recvbuf_pkt_db := Omap.erase f.next_seqnb_to_deliver f.recvbuf_pkt_db
      next_seqnb_to_deliver := f.next_seqnb_to_deliver + 1 } : Flow).Safe k := by
    intro k
    refine Safe.mono rfl (by rw [hlen]; exact Nat.le_succ _) fun e he hnb' => ?_
    by_cases heq : e.1 = f.next_seqnb_to_deliver
    · have hself := (eq_next_iff hinv hkept hnb').1 heq
      exact Or.inr (by rw [hlen]; omega)
    · exact Or.inl (Omap.mem_erase.2 ⟨he, heq⟩)
  refine hinv.quiet hkept rfl rfl rfl hsafe ?_ ?_ ?_ ?_ ?_ ?_
  · rw [hlen, Wai.ofNat_succ, ← hinv.next_seqnb_to_deliver]
  · exact hinv.prefix_append hk
  · simpa [hne.symm] using hinv.ne_nil
  · exact hinv.data
  · intro e he
    exact hinv.recvbuf e (Omap.mem_erase.1 he).1
  · intro q hq
    obtain ⟨k, hnb, hk⟩ := hinv.acks q hq
    exact ⟨k, hnb, hk.imp (hsafe k) id⟩

theorem Quiet.inv (h : Quiet f f') (hinv : f.Inv) (hkept : f.Kept) : f'.Inv ∧ f'.Kept := by
  cases h with
  | net hdata hacks => exact hinv.net hkept hdata hacks
  | rxmit hmem => exact hinv.rxmit hkept hmem
  | recvOld hmem hold => exact hinv.recvOld hkept hmem hold
  | recvOutoforder hmem hne hfind => exact hinv.recvOutoforder hkept hmem hne hfind rfl
  | recvNext hmem hne hlt hgt => exact hinv.recvNext hkept hmem hne hlt hgt rfl
  | dropObsolete => exact hinv.dropObsolete hkept rfl
  | deliverPkt hfind => exact hinv.deliverPkt hkept hfind rfl
  | sendAcks =>
    refine hinv.quiet hkept rfl rfl rfl (fun k h => h) hinv.next_seqnb_to_deliver
      hinv.delivered hinv.ne_nil hinv.data hinv.recvbuf ?_
    intro q hq
    have hq' : q ∈ f.acks ∨ q ∈ f.seqnb2ack_list := by simpa using hq
    exact hinv.acks q hq'.symm

theorem inv_of_reflTransGen (h : Relation.ReflTransGen Quiet f f') (hinv : f.Inv)
    (hkept : f.Kept) : f'.Inv ∧ f'.Kept := by
  induction h with
  | refl => exact ⟨hinv, hkept⟩
  | tail _ hstep ih => exact hstep.inv ih.1 ih.2

/-! ### A packet from the upper layer -/

/-- The sender takes a packet and sends it. -/
def submit (pkt : Datum) (f : Flow) : Flow :=
  { f with
    submitted := f.submitted ++ [pkt]
    sendbuf_pkt_db := Omap.insert Wai.lt f.next_xmit_seqnb
      (Rdgram.buildData f.next_xmit_seqnb pkt) f.sendbuf_pkt_db
    next_xmit_seqnb := f.next_xmit_seqnb + 1
    data := f.data ++ [(f.next_xmit_seqnb, pkt)] }

theorem Inv.sendbuf_find (h : f.Inv) : Omap.find f.next_xmit_seqnb f.sendbuf_pkt_db = none := by
  rw [Omap.find_eq_none]
  intro a ha
  obtain ⟨k, -, ⟨hlt, hwin, hq⟩, -, -⟩ := h.sendbuf _ ha
  rw [h.next_xmit_seqnb] at hq
  have heq := Wai.ofNat_inj (w := 31) (by omega) (by omega) hq
  omega

theorem Inv.mem_submit (h : f.Inv) {e : Wai32 × Datum} :
    e ∈ (f.submit pkt).sendbuf_pkt_db ↔
      e = (f.next_xmit_seqnb, Rdgram.buildData f.next_xmit_seqnb pkt) ∨ e ∈ f.sendbuf_pkt_db := by
  rw [submit, Omap.insert_of_find h.sendbuf_find, Omap.mem_place]

/-- A number which is still outstanding after the submission is still that of its packet. -/
theorem IsNb.submit (hnb : f.IsNb k q) (hinv : f.Inv) (hwin : (f.submit pkt).Window)
    (hmem : q ∈ (f.submit pkt).outstanding) : (f.submit pkt).IsNb k q := by
  have hbehind := hwin q hmem
  obtain ⟨hlt, hold, rfl⟩ := hnb
  have hnext : (f.submit pkt).next_xmit_seqnb = BitVec.ofNat 32 (f.submitted.length + 1) := by
    rw [Wai.ofNat_succ, ← hinv.next_xmit_seqnb]
    rfl
  rw [hnext, Wai.behind_ofNat (by omega) (by omega)] at hbehind
  have hlen : (f.submit pkt).submitted.length = f.submitted.length + 1 := List.length_append
  exact ⟨by omega, by omega, rfl⟩

theorem Inv.submit (hinv : f.Inv) (hkept : f.Kept) (hwin : (f.submit pkt).Window) :
    (f.submit pkt).Inv ∧ (f.submit pkt).Kept := by
  have hlen : (f.submit pkt).submitted.length = f.submitted.length + 1 := List.length_append
  have hget : ∀ {k : ℕ} {payload : Datum}, f.submitted[k]? = some payload →
      (f.submit pkt).submitted[k]? = some payload := by
    intro k payload hk
    have hlt := (List.getElem?_eq_some_iff.1 hk).1
    exact (List.getElem?_append_left hlt).trans hk
  have hnew : (f.submit pkt).IsNb f.submitted.length f.next_xmit_seqnb :=
    ⟨by omega, by omega, hinv.next_xmit_seqnb⟩
  have hself : (f.submit pkt).submitted[f.submitted.length]? = some pkt :=
    List.getElem?_concat_length
  have hprefix : f.delivered <+: (f.submit pkt).submitted :=
    hinv.delivered.trans (List.prefix_append _ _)
  -- the numbers which are outstanding stay in the window
  have hsend : ∀ e ∈ f.sendbuf_pkt_db, ∀ k, f.IsNb k e.1 → (f.submit pkt).IsNb k e.1 := by
    intro e he k hnb
    apply hnb.submit hinv hwin
    have hmem : e.1 ∈ (f.submit pkt).sendbuf_pkt_db.map Prod.fst :=
      List.mem_map_of_mem (hinv.mem_submit.2 (Or.inr he))
    simp [outstanding, hmem]
  have hrecv : ∀ e ∈ f.recvbuf_pkt_db, ∀ k, f.IsNb k e.1 → (f.submit pkt).IsNb k e.1 := by
    intro e he k hnb
    apply hnb.submit hinv hwin
    have hmem : e.1 ∈ (f.submit pkt).recvbuf_pkt_db.map Prod.fst := List.mem_map_of_mem he
    simp [outstanding, hmem]
  have hdata : ∀ e ∈ f.data, ∀ k, f.IsNb k e.1 → (f.submit pkt).IsNb k e.1 := by
    intro e he k hnb
    apply hnb.submit hinv hwin
    have hmem : e.1 ∈ (f.submit pkt).data.map Prod.fst :=
      List.mem_map_of_mem (List.mem_append_left _ he)
    simp [outstanding, hmem]
  have hacks : ∀ q, q ∈ f.seqnb2ack_list ∨ q ∈ f.acks → ∀ k, f.IsNb k q →
      (f.submit pkt).IsNb k q := by
    intro q hq k hnb
    apply hnb.submit hinv hwin
    have hmem : q ∈ (f.submit pkt).seqnb2ack_list ∨ q ∈ (f.submit pkt).acks := hq
    simp [outstanding, hmem]
  have hsafe : ∀ k, f.Safe k → (f.submit pkt).Safe k := by
    intro k
    apply Or.imp_right
    rintro ⟨e, he, hnb⟩
    exact ⟨e, he, hrecv e he k hnb⟩
  refine ⟨⟨?_, hinv.next_seqnb_to_deliver, hprefix, hinv.ne_nil, ?_, ?_, ?_, ?_⟩, hprefix, ?_⟩
  · rw [hlen, Wai.ofNat_succ, ← hinv.next_xmit_seqnb]
    rfl
  · intro e he
    rcases hinv.mem_submit.1 he with rfl | he
    · exact ⟨_, pkt, hnew, hself, rfl⟩
    · obtain ⟨k, payload, hnb, hk, hpkt⟩ := hinv.sendbuf e he
      exact ⟨k, payload, hsend e he k hnb, hget hk, hpkt⟩
  · intro e he
    rcases List.mem_append.1 he with he | he
    · obtain ⟨k, hnb, hk⟩ := hinv.data e he
      exact ⟨k, hdata e he k hnb, hget hk⟩
    · rw [List.mem_singleton] at he
      subst he
      exact ⟨_, hnew, hself⟩
  · intro e he
    obtain ⟨k, hnb, hk, hne⟩ := hinv.recvbuf e he
    exact ⟨k, hrecv e he k hnb, hget hk, hne⟩
  · intro q hq
    obtain ⟨k, hnb, hk⟩ := hinv.acks q hq
    exact ⟨k, hacks q hq k hnb, hk.imp (hsafe k) hget⟩
  · intro k hk
    rcases (Nat.lt_succ_iff.1 (hk.trans_eq hlen)).lt_or_eq with hlt | rfl
    · refine (hkept.2 k hlt).imp (hsafe k) ?_
      rintro ⟨e, he, hnb⟩
      exact ⟨e, hinv.mem_submit.2 (Or.inr he), hsend e he k hnb⟩
    · exact Or.inr ⟨_, hinv.mem_submit.2 (Or.inl rfl), hnew⟩

/-! ### An acknowledgement -/

/-- The sender forgets the packet which is acknowledged. -/
def recvAck (q : Wai32) (f : Flow) : Flow :=
  { f with sendbuf_pkt_db := Omap.erase q f.sendbuf_pkt_db }

theorem Inv.recvAck (hinv : f.Inv) (q : Wai32) : (f.recvAck q).Inv :=
  ⟨hinv.next_xmit_seqnb, hinv.next_seqnb_to_deliver, hinv.delivered, hinv.ne_nil,
    fun e he => hinv.sendbuf e (Omap.mem_erase.1 he).1, hinv.data, hinv.recvbuf, hinv.acks⟩

/-- A packet without a payload is never safe. -/
theorem Inv.not_safe (hinv : f.Inv) (hk : f.submitted[k]? = some []) : ¬f.Safe k := by
  rintro (hlt | ⟨e, he, hnb⟩)
  · have hget : f.delivered[k]? = some [] := by
      obtain ⟨rest, hrest⟩ := hinv.delivered
      rw [← hk, ← hrest, List.getElem?_append_left hlt]
    exact hinv.ne_nil (List.mem_of_getElem? hget)
  · obtain ⟨k', hnb', hk', hne⟩ := hinv.recvbuf e he
    rw [hnb'.inj hnb, hk] at hk'
    exact hne (Option.some.inj hk').symm

/-- **Acknowledgements**: to forget the packet which is acknowledged is right exactly when it has
a payload, or is not there any more. -/
theorem Inv.recvAck_kept_iff (hinv : f.Inv) (hkept : f.Kept) (hq : q ∈ f.acks) :
    (f.recvAck q).Kept ↔
      ∀ pkt, Omap.find q f.sendbuf_pkt_db = some pkt → pkt ≠ Rdgram.buildData q [] := by
  constructor
  · rintro hkept' pkt hfind rfl
    obtain ⟨k, payload, hnb, hk, hpkt⟩ := hinv.sendbuf _ (Omap.mem_of_find hfind)
    obtain rfl : payload = [] := by
      have hdata := congrArg Rdgram.toData hpkt
      rw [Rdgram.toData_buildData, Rdgram.toData_buildData, Option.some.injEq] at hdata
      exact (Prod.mk.inj hdata).2.symm
    rcases hkept'.2 k hnb.1 with hsafe | ⟨e, he, hnb'⟩
    · exact hinv.not_safe hk hsafe
    · exact (Omap.mem_erase.1 he).2 (hnb'.2.2.trans hnb.2.2.symm)
  · intro hpayload
    refine ⟨hkept.1, fun k hk => ?_⟩
    rcases hkept.2 k hk with hsafe | ⟨e, he, hnb⟩
    · exact Or.inl hsafe
    by_cases heq : e.1 = q
    · subst heq
      obtain ⟨k', hnb', hack⟩ := hinv.acks _ (Or.inr hq)
      rw [hnb'.inj hnb] at hack
      rcases hack with hsafe | hnil
      · exact Or.inl hsafe
      -- it has no payload, which is what is excluded
      exfalso
      obtain ⟨pkt, hfind⟩ : ∃ pkt, Omap.find e.1 f.sendbuf_pkt_db = some pkt :=
        Option.ne_none_iff_exists'.1 fun hnone => Omap.find_eq_none.1 hnone e.2 he
      obtain ⟨k'', payload, hnb'', hk'', hpkt⟩ := hinv.sendbuf _ (Omap.mem_of_find hfind)
      rw [hnb''.inj hnb, hnil] at hk''
      obtain rfl : payload = [] := (Option.some.inj hk'').symm
      exact hpayload pkt hfind hpkt
    · exact Or.inr ⟨e, Omap.mem_erase.2 ⟨he, heq⟩, hnb⟩

end Flow

end Neoip
