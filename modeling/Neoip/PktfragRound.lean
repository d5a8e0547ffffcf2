/-
Neoip/PktfragRound.lean

The fragments of any number of packets, received in any order.

The claim of a round trip is `RoundTrip`: each fragment fits in the mtu, and a
receiver which gets the fragments of the packets in any order, interleaved and
repeated, gives back each packet when the last of its fragments arrives for the
first time, and nothing before.

Main results: the round trip holds when the length of the data of a fragment is
positive as an `int` and the offsets are `uint32_t` (`roundTrip`), and fails for
a packet of `2 ^ 32 + 1` bytes, whose last fragment wraps around to the offset
zero (`not_roundTrip_wrap`).
-/
import Neoip.PktfragCovers

namespace Neoip

/-- A packet which is sent, with the mtu and the sequence number of its fragmentation. -/
structure SentPkt where
  outter_mtu : ℕ
  seqnb : ℕ
  pkt : Datum
  mtu_gt : Pktfrag.fragmentHdLen < outter_mtu
  seqnb_lt : seqnb < 2 ^ 32
  pkt_gt : outter_mtu < pkt.length

namespace SentPkt

/-- What `pkt_from_upper` gives. -/
def fraglist (p : SentPkt) : Option (List Datum) :=
  (Pktfrag.ctor p.outter_mtu 0).pktFromUpperSeqnb p.pkt p.seqnb

/-- `payl_mtu`. -/
def payl (p : SentPkt) : ℕ := p.outter_mtu - Pktfrag.fragmentHdLen

/-- The length of the data of a fragment is positive as an `int`, and the offset of the last
fragment is a `uint32_t`. -/
def Fits (p : SentPkt) : Prop :=
  0 < Pktfrag.fragBaseLen p.payl ∧
    Pktfrag.lastOffset p.payl (Pktfrag.fragBaseLen p.payl).toNat p.pkt.length < 2 ^ 32

end SentPkt

namespace Pktfrag

/-- A receiver which is given a packet, if it is still there. -/
def receive (s : Option Pktfrag) (pkt : Datum) : Option Pktfrag :=
  s.bind fun s => (s.pktFromLower pkt).map fun r => r.2.2

local instance : LawfulBEq Datum := inferInstance

/-- **The round trip** of packets through a receiver which starts as `s`. -/
def RoundTrip (sent : List SentPkt) (s : Pktfrag) : Prop :=
  ∀ p ∈ sent, ∃ fraglist, p.fraglist = some fraglist ∧
    (∀ x ∈ fraglist, x.length ≤ p.outter_mtu) ∧
    ∀ pre : List Datum, (∀ x ∈ pre, ∃ q ∈ sent, ∃ fraglist, q.fraglist = some fraglist ∧
      x ∈ fraglist) → ∀ x ∈ fraglist, (∃ y ∈ fraglist, y ∉ pre) →
        ∃ t t', run receive (some s) pre = some t ∧
          t.pktFromLower x =
            some (.OK, if ∀ y ∈ fraglist, y ∈ pre ++ [x] then p.pkt else [], t')

/-! ### The fragments of a packet -/

/-- A length which is positive as an `int` is not more than it was. -/
theorem bmod_le_self {x : ℤ} (hx : 0 ≤ x) (hpos : 0 < x.bmod (2 ^ 32)) :
    x.bmod (2 ^ 32) ≤ x ∧ x.bmod (2 ^ 32) < 2 ^ 64 := by
  rw [Int.bmod_def] at hpos ⊢
  split_ifs at hpos ⊢
  all_goals omega

theorem toSizeT_fragBaseLen {payl_mtu : ℕ} (hpos : 0 < fragBaseLen payl_mtu) :
    toSizeT (fragBaseLen payl_mtu) = (fragBaseLen payl_mtu).toNat ∧
      (fragBaseLen payl_mtu).toNat ≤ payl_mtu := by
  obtain ⟨hle, hlt⟩ := bmod_le_self (Int.natCast_nonneg payl_mtu) hpos
  refine ⟨?_, Int.toNat_le.2 hle⟩
  rw [toSizeT, Int.emod_eq_of_lt hpos.le hlt]

/-- The fragments of a packet, whose offsets on the wire are those in the packet. -/
structure IsFraglist (p : SentPkt) (frags : List Fragment) : Prop where
  fraglist : p.fraglist = some (frags.map (Fragment.wire p.seqnb))
  covers : Covers 0 frags p.pkt
  bound : ∀ f ∈ frags, f.offset < 2 ^ 32 ∧ f.data.length ≤ p.payl

/-- What `pkt_from_upper` gives, when the length of the data of a fragment is positive as an
`int`. -/
theorem exists_covers {p : SentPkt} (hpos : 0 < fragBaseLen p.payl) : ∃ frags,
    p.fraglist = some (frags.map (Fragment.wire p.seqnb)) ∧ Covers 0 frags p.pkt ∧
      ∀ f ∈ frags, f.data.length ≤ p.payl ∧
        f.offset ≤ 0 + lastOffset p.payl (fragBaseLen p.payl).toNat p.pkt.length ∧
        (f.more_bit = false →
          f.offset = 0 + lastOffset p.payl (fragBaseLen p.payl).toNat p.pkt.length) := by
  obtain ⟨hconv, hle⟩ := toSizeT_fragBaseLen hpos
  have hne : p.pkt ≠ [] := by
    have hgt := p.pkt_gt
    rintro hnil
    rw [hnil, List.length_nil] at hgt
    exact absurd hgt (Nat.not_lt_zero _)
  exact covers_fragment (Int.pos_iff_toNat_pos.1 hpos) hle hconv p.pkt.length 0 hne le_rfl

theorem exists_isFraglist {p : SentPkt} (hfits : p.Fits) : ∃ frags, IsFraglist p frags := by
  obtain ⟨frags, hfrag, hcov, hbound⟩ := exists_covers hfits.1
  refine ⟨frags, hfrag, hcov, fun f hf => ⟨?_, (hbound f hf).1⟩⟩
  have hle := (hbound f hf).2.1
  rw [Nat.zero_add] at hle
  exact hle.trans_lt hfits.2

theorem toFragment_wire {p : SentPkt} {frags : List Fragment} (h : IsFraglist p frags)
    {f : Fragment} (hf : f ∈ frags) :
    toFragment (f.wire p.seqnb) = some (p.seqnb, f.offset, f.more_bit, f.data) := by
  rw [Fragment.wire, Nat.mod_eq_of_lt (h.bound f hf).1]
  exact toFragment_buildFragment p.seqnb_lt (h.bound f hf).1

theorem length_wire (seqnb : ℕ) (f : Fragment) :
    (f.wire seqnb).length = fragmentHdLen + f.data.length := by
  simp [Fragment.wire, buildFragment, fragmentHdLen]
  omega

/-! ### The receiver -/

/-- The pending datagram of a number, which is a new one if there is none. -/
def pendingOf (s : Pktfrag) (seqnb : ℕ) : PendingDgram :=
  (Omap.find seqnb s.pending_dgram_db).getD PendingDgram.ctor

section Round

variable {sent : List SentPkt} {frags : SentPkt → List Fragment} {s t : Pktfrag} {pre : List Datum}
  {p q : SentPkt} {f g : Fragment}

/-- The receiver has got the packets of `pre`.  Each of its datagrams has some of the fragments of
its packet and not all; until a packet is complete for the first time these are those in `pre`. -/
structure Received (sent : List SentPkt) (frags : SentPkt → List Fragment) (pre : List Datum)
    (t : Pktfrag) : Prop where
  cur_size : t.pool_cur_size = 0
  pool : ∀ p ∈ sent, t.pool_max_size = 0 ∨ p.payl ≤ t.pool_max_size
  holds : ∀ p ∈ sent, Holds (frags p) p.pkt (t.pendingOf p.seqnb)
  incomplete : ∀ p ∈ sent, ∃ f ∈ frags p, ¬(t.pendingOf p.seqnb).Has f
  first : ∀ p ∈ sent, (∃ f ∈ frags p, f.wire p.seqnb ∉ pre) →
    ∀ f ∈ frags p, f.wire p.seqnb ∈ pre ↔ (t.pendingOf p.seqnb).Has f

/-- The two ways in which a fragment leaves the receiver. -/
theorem pktFromLower_wire (hfrags : ∀ p ∈ sent, IsFraglist p (frags p))
    (h : Received sent frags pre t) (hp : p ∈ sent) (hf : f ∈ frags p) :
    ∃ complete d, (t.pendingOf p.seqnb).addFragment f.offset f.more_bit f.data =
        some (complete, d) ∧
      t.pktFromLower (f.wire p.seqnb) = some (.OK,
        if complete then d.getCompleteDgram else [],
        { t with pending_dgram_db :=
            if complete then Omap.erase p.seqnb t.pending_dgram_db
            else Omap.assign ltUint32 p.seqnb d t.pending_dgram_db }) := by
  obtain ⟨complete, d, hadd, -⟩ := (h.holds p hp).addFragment (hfrags p hp).covers
    (fun f hf => ((hfrags p hp).bound f hf).1) hf
  refine ⟨complete, d, hadd, ?_⟩
  have hlen : ¬(t.pool_max_size ≠ 0 ∧ t.pool_max_size < f.data.length) := by
    rintro ⟨hne, hlt⟩
    have hle := ((hfrags p hp).bound f hf).2
    rcases h.pool p hp with hzero | hpool
    · exact hne hzero
    · omega
  rw [pktFromLower_of_toFragment h.cur_size (toFragment_wire (hfrags p hp) hf), if_neg hlen, store,
    ← pendingOf, hadd]
  cases complete <;> rfl

/-- Packets with distinct numbers have distinct fragments. -/
theorem eq_of_wire (hfrags : ∀ p ∈ sent, IsFraglist p (frags p))
    (hnodup : (sent.map SentPkt.seqnb).Nodup) (hp : p ∈ sent) (hf : f ∈ frags p) (hq : q ∈ sent)
    (hg : g ∈ frags q) (heq : g.wire q.seqnb = f.wire p.seqnb) : q = p ∧ g = f := by
  have hwire := congrArg toFragment heq
  rw [toFragment_wire (hfrags p hp) hf, toFragment_wire (hfrags q hq) hg,
    Option.some.injEq] at hwire
  obtain ⟨hseqnb, hrest⟩ := Prod.mk.inj hwire
  obtain rfl := List.inj_on_of_nodup_map hnodup hq hp hseqnb
  exact ⟨rfl, (hfrags q hq).covers.eq_of_offset hg hf (Prod.mk.inj hrest).1⟩

/-- What is in `pre` and one more fragment. -/
theorem mem_append_wire (hfrags : ∀ p ∈ sent, IsFraglist p (frags p))
    (hnodup : (sent.map SentPkt.seqnb).Nodup) (hp : p ∈ sent) (hf : f ∈ frags p) (hq : q ∈ sent)
    (hg : g ∈ frags q) : g.wire q.seqnb ∈ pre ++ [f.wire p.seqnb] ↔
      g.wire q.seqnb ∈ pre ∨ q = p ∧ g = f := by
  rw [List.mem_append, List.mem_singleton]
  refine or_congr_right ⟨eq_of_wire hfrags hnodup hp hf hq hg, ?_⟩
  rintro ⟨rfl, rfl⟩
  rfl

/-- A fragment of one packet leaves the datagrams of the others. -/
theorem Received.update (hfrags : ∀ p ∈ sent, IsFraglist p (frags p))
    (hnodup : (sent.map SentPkt.seqnb).Nodup) (h : Received sent frags pre t) (hp : p ∈ sent)
    (hf : f ∈ frags p) {t' : Pktfrag} (hcur : t'.pool_cur_size = t.pool_cur_size)
    (hmax : t'.pool_max_size = t.pool_max_size)
    (hother : ∀ q ∈ sent, q ≠ p → t'.pendingOf q.seqnb = t.pendingOf q.seqnb)
    (hholds : Holds (frags p) p.pkt (t'.pendingOf p.seqnb))
    (hincomplete : ∃ g ∈ frags p, ¬(t'.pendingOf p.seqnb).Has g)
    (hfirst : (∃ g ∈ frags p, g.wire p.seqnb ∉ pre ++ [f.wire p.seqnb]) →
      ∀ g ∈ frags p, g.wire p.seqnb ∈ pre ++ [f.wire p.seqnb] ↔ (t'.pendingOf p.seqnb).Has g) :
    Received sent frags (pre ++ [f.wire p.seqnb]) t' := by
  refine ⟨hcur.trans h.cur_size, ?_, fun q hq => ?_, fun q hq => ?_, fun q hq hnot => ?_⟩
  · rw [hmax]
    exact h.pool
  all_goals
    rcases eq_or_ne q p with rfl | hqp
  · exact hholds
  · rw [hother q hq hqp]
    exact h.holds q hq
  · exact hincomplete
  · rw [hother q hq hqp]
    exact h.incomplete q hq
  · exact hfirst hnot
  · intro g hg
    obtain ⟨g', hg', hnot'⟩ := hnot
    have hmiss : ∃ g ∈ frags q, g.wire q.seqnb ∉ pre :=
      ⟨g', hg', fun hpre => hnot' (List.mem_append_left _ hpre)⟩
    rw [hother q hq hqp, mem_append_wire hfrags hnodup hp hf hq hg, h.first q hq hmiss g hg]
    exact or_iff_left fun heq => hqp heq.1

/-- A fragment is received.  It gives back the packet if it is the last one for the first time,
and nothing as long as others are missing. -/
theorem Received.step (hfrags : ∀ p ∈ sent, IsFraglist p (frags p))
    (hnodup : (sent.map SentPkt.seqnb).Nodup) (h : Received sent frags pre t) (hp : p ∈ sent)
    (hf : f ∈ frags p) :
    ∃ pkt t', t.pktFromLower (f.wire p.seqnb) = some (.OK, pkt, t') ∧
      Received sent frags (pre ++ [f.wire p.seqnb]) t' ∧
      ((∃ g ∈ frags p, g.wire p.seqnb ∉ pre) → pkt =
        if ∀ y ∈ (frags p).map (Fragment.wire p.seqnb), y ∈ pre ++ [f.wire p.seqnb] then p.pkt
        else []) := by
  obtain ⟨complete, d, hadd, hlower⟩ := pktFromLower_wire hfrags h hp hf
  obtain ⟨complete', d', hadd', hholds, hhas, hcomplete, hpkt⟩ :=
    (h.holds p hp).addFragment (hfrags p hp).covers
      (fun f hf => ((hfrags p hp).bound f hf).1) hf
  obtain ⟨rfl, rfl⟩ := Prod.mk.inj (Option.some.inj (hadd.symm.trans hadd'))
  have hne : ∀ q ∈ sent, q ≠ p → p.seqnb ≠ q.seqnb := fun q hq hqp heq =>
    hqp (List.inj_on_of_nodup_map hnodup hq hp heq.symm)
  -- until the packet is complete for the first time, it has what is in `pre` and the fragment
  have hself : (∃ g ∈ frags p, g.wire p.seqnb ∉ pre) → ∀ g ∈ frags p,
      g.wire p.seqnb ∈ pre ++ [f.wire p.seqnb] ↔ d.Has g := by
    intro hmissing g hg
    rw [mem_append_wire hfrags hnodup hp hf hp hg, hhas g hg, h.first p hp hmissing g hg, or_comm]
    exact or_congr_left (and_iff_right rfl)
  have hmiss : (∃ g ∈ frags p, g.wire p.seqnb ∉ pre ++ [f.wire p.seqnb]) →
      ∃ g ∈ frags p, g.wire p.seqnb ∉ pre := by
    rintro ⟨g, hg, hnot⟩
    exact ⟨g, hg, fun hpre => hnot (List.mem_append_left _ hpre)⟩
  refine ⟨_, _, hlower, ?_, fun hmissing => ?_⟩
  · cases complete with
    | true =>
      have hall := (hcomplete.1 rfl).2
      obtain ⟨last, hlast, -⟩ := (hfrags p hp).covers.exists_last
      rw [if_pos rfl]
      have hnew : ({ t with pending_dgram_db :=
          (Omap.erase p.seqnb t.pending_dgram_db) } : Pktfrag).pendingOf p.seqnb =
            PendingDgram.ctor := by
        rw [pendingOf, Omap.find_erase_self, Option.getD_none]
      refine h.update hfrags hnodup hp hf rfl rfl ?_ ?_ ?_ ?_
      · intro q hq hqp
        rw [pendingOf, Omap.find_erase_of_ne (hne q hq hqp), pendingOf]
      · rw [hnew]
        exact Holds.ctor
      · rw [hnew]
        exact ⟨last, hlast, List.not_mem_nil⟩
      · -- none of its fragments is missing any more
        intro hnot
        obtain ⟨g, hg, hnot'⟩ := hnot
        exact absurd ((hself (hmiss ⟨g, hg, hnot'⟩) g hg).2 (hall g hg)) hnot'
    | false =>
      rw [if_neg Bool.false_ne_true]
      have hnew : ({ t with pending_dgram_db :=
          (Omap.assign ltUint32 p.seqnb d t.pending_dgram_db) } : Pktfrag).pendingOf p.seqnb =
            d := by
        rw [pendingOf, Omap.find_assign_self, Option.getD_some]
      refine h.update hfrags hnodup hp hf rfl rfl ?_ ?_ ?_ ?_
      · intro q hq hqp
        rw [pendingOf, Omap.find_assign_of_ne (hne q hq hqp), pendingOf]
      · rw [hnew]
        exact hholds
      · rw [hnew]
        by_contra! hall
        -- it would be complete now, or have been before
        obtain ⟨g, hg, hnot⟩ := h.incomplete p hp
        rcases (hhas g hg).1 (hall g hg) with rfl | hold
        · exact Bool.false_ne_true (hcomplete.2 ⟨hnot, hall⟩)
        · exact hnot hold
      · rw [hnew]
        exact fun hnot => hself (hmiss hnot)
  · split_ifs with htrue hall hall
    · exact hpkt htrue
    · exact absurd (List.forall_mem_map.2 fun g hg =>
        (hself hmissing g hg).2 ((hcomplete.1 htrue).2 g hg)) hall
    · -- the fragment which was missing is the one which is received
      exfalso
      have hall' := List.forall_mem_map.1 hall
      obtain ⟨g, hg, hnot⟩ := hmissing
      have heq := ((mem_append_wire hfrags hnodup hp hf hp hg).1 (hall' g hg)).resolve_left hnot
      obtain rfl := heq.2
      refine htrue (hcomplete.2 ⟨fun hold => hnot ?_, fun g' hg' => ?_⟩)
      · exact (h.first p hp ⟨g, hg, hnot⟩ g hg).2 hold
      · exact (hself ⟨g, hg, hnot⟩ g' hg').1 (hall' g' hg')
    · rfl

/-- All that is received are fragments of the packets. -/
theorem received_run (hfrags : ∀ p ∈ sent, IsFraglist p (frags p))
    (hnodup : (sent.map SentPkt.seqnb).Nodup) {pre' : List Datum}
    (hpre : ∀ x ∈ pre', ∃ p ∈ sent, ∃ f ∈ frags p, f.wire p.seqnb = x)
    (h : Received sent frags pre t) :
    ∃ t', run receive (some t) pre' = some t' ∧ Received sent frags (pre ++ pre') t' := by
  induction pre' generalizing pre t with
  | nil => exact ⟨t, rfl, by rwa [List.append_nil]⟩
  | cons x pre' ih =>
    obtain ⟨p, hp, f, hf, rfl⟩ := hpre x List.mem_cons_self
    obtain ⟨pkt, t', hlower, hreceived, -⟩ := h.step hfrags hnodup hp hf
    obtain ⟨t'', hrun, hreceived'⟩ :=
      ih (fun y hy => hpre y (List.mem_cons_of_mem _ hy)) hreceived
    refine ⟨t'', ?_, ?_⟩
    · rw [run_cons, receive, Option.bind_some, hlower]
      exact hrun
    · rwa [List.append_assoc, List.singleton_append] at hreceived'

theorem received_nil (hfrags : ∀ p ∈ sent, IsFraglist p (frags p)) (hcur : s.pool_cur_size = 0)
    (hdb : s.pending_dgram_db = [])
    (hpool : ∀ p ∈ sent, s.pool_max_size = 0 ∨ p.payl ≤ s.pool_max_size) :
    Received sent frags [] s := by
  have hctor : ∀ seqnb, s.pendingOf seqnb = PendingDgram.ctor := by
    intro seqnb
    rw [pendingOf, hdb]
    rfl
  refine ⟨hcur, hpool, fun p hp => ?_, fun p hp => ?_, fun p hp _ f hf => ?_⟩
  · rw [hctor]
    exact Holds.ctor
  · obtain ⟨f, hf, -⟩ := (hfrags p hp).covers.exists_last
    rw [hctor]
    exact ⟨f, hf, List.not_mem_nil⟩
  · rw [hctor]
    exact iff_of_false List.not_mem_nil List.not_mem_nil

end Round

/-- **Fragmentation and reassembly**: for any packets which fit, with distinct sequence numbers,
and a receiver which has nothing pending and whose pool has room for a fragment. -/
theorem roundTrip (sent : List SentPkt) (hnodup : (sent.map SentPkt.seqnb).Nodup)
    (hfits : ∀ p ∈ sent, p.Fits) (s : Pktfrag) (hcur : s.pool_cur_size = 0)
    (hdb : s.pending_dgram_db = [])
    (hpool : ∀ p ∈ sent, s.pool_max_size = 0 ∨ p.payl ≤ s.pool_max_size) : RoundTrip sent s := by
  have hexists : ∀ p ∈ sent, ∃ frags, IsFraglist p frags := fun p hp =>
    exists_isFraglist (hfits p hp)
  choose! frags hfrags using hexists
  intro p hp
  refine ⟨_, (hfrags p hp).fraglist, ?_, ?_⟩
  · intro x hx
    obtain ⟨f, hf, rfl⟩ := List.mem_map.1 hx
    have hle := ((hfrags p hp).bound f hf).2
    have hgt := p.mtu_gt
    rw [SentPkt.payl] at hle
    rw [length_wire]
    omega
  · intro pre hpre x hx hmiss
    obtain ⟨f, hf, rfl⟩ := List.mem_map.1 hx
    have hpre' : ∀ x ∈ pre, ∃ p ∈ sent, ∃ f ∈ frags p, f.wire p.seqnb = x := by
      intro y hy
      obtain ⟨q, hq, fraglist, hfraglist, hmem⟩ := hpre y hy
      obtain rfl := Option.some.inj ((hfrags q hq).fraglist.symm.trans hfraglist)
      obtain ⟨g, hg, hwire⟩ := List.mem_map.1 hmem
      exact ⟨q, hq, g, hg, hwire⟩
    obtain ⟨t, hrun, hreceived⟩ :=
      received_run hfrags hnodup hpre' (received_nil hfrags hcur hdb hpool)
    rw [List.nil_append] at hreceived
    obtain ⟨pkt, t', hlower, -, hpkt⟩ := hreceived.step hfrags hnodup hp hf
    have hmissing : ∃ g ∈ frags p, g.wire p.seqnb ∉ pre := by
      obtain ⟨y, hy, hnot⟩ := hmiss
      obtain ⟨g, hg, rfl⟩ := List.mem_map.1 hy
      exact ⟨g, hg, hnot⟩
    rw [hpkt hmissing] at hlower
    exact ⟨t, t', hrun, hlower⟩

/-- Two packets of three fragments, which are received out of order and twice. -/
def smallSent (seqnb : ℕ) (hseqnb : seqnb < 2 ^ 32) (b : UInt8) : SentPkt where
  outter_mtu := 12
  seqnb := seqnb
  pkt := List.replicate 13 b
  mtu_gt := by decide
  seqnb_lt := hseqnb
  pkt_gt := by
    rw [List.length_replicate]
    norm_num

theorem roundTrip_small :
    RoundTrip [smallSent 3 (by decide) 7, smallSent 4 (by decide) 8] (ctor 1400 30720) := by
  apply roundTrip
  · decide
  · rintro p hp
    have hfits : ∀ seqnb hseqnb b, (smallSent seqnb hseqnb b).Fits := by
      intro seqnb hseqnb b
      refine ⟨by show 0 < fragBaseLen 2; decide, ?_⟩
      show lastOffset 2 (fragBaseLen 2).toNat (List.replicate 13 b).length < 2 ^ 32
      rw [List.length_replicate]
      decide
    rcases List.mem_cons.1 hp with rfl | hp
    · exact hfits _ _ _
    · rw [List.mem_singleton.1 hp]
      exact hfits _ _ _
  · rfl
  · rfl
  · rintro p hp
    rcases List.mem_cons.1 hp with rfl | hp
    · exact Or.inr (by decide)
    · rw [List.mem_singleton.1 hp]
      exact Or.inr (by decide)

/-- A packet whose last fragment has one byte, at the offset `2 ^ 32`. -/
def wrapSent : SentPkt where
  outter_mtu := 1073741834
  seqnb := 0
  pkt := List.replicate 4294967297 0
  mtu_gt := by decide
  seqnb_lt := by norm_num
  pkt_gt := by
    rw [List.length_replicate]
    norm_num

/-- The last fragment alone is taken for a packet of one byte. -/
theorem not_roundTrip_wrap : ¬∀ (sent : List SentPkt) (s : Pktfrag),
    (sent.map SentPkt.seqnb).Nodup → s.pool_cur_size = 0 → s.pending_dgram_db = [] →
      (∀ p ∈ sent, s.pool_max_size = 0 ∨ p.payl ≤ s.pool_max_size) → RoundTrip sent s := by
  intro h
  have htrip := h [wrapSent] (ctor 1400 0) (List.nodup_singleton _) rfl rfl
    (fun _ _ => Or.inl rfl) wrapSent (List.mem_singleton_self _)
  obtain ⟨fraglist, hfraglist, -, hrecv⟩ := htrip
  have hlen : wrapSent.pkt.length = 4294967297 := List.length_replicate
  have hbase : fragBaseLen wrapSent.payl = 1073741824 := by decide
  obtain ⟨frags, hfrags, hcov, hbound⟩ := exists_covers (p := wrapSent) (by rw [hbase]; decide)
  obtain rfl := Option.some.inj (hfraglist.symm.trans hfrags)
  obtain ⟨f, hf, hmore⟩ := hcov.exists_last
  have hlast : lastOffset wrapSent.payl (fragBaseLen wrapSent.payl).toNat wrapSent.pkt.length =
      4294967296 := by
    rw [hlen, hbase]
    decide
  have hoffset : f.offset = 4294967296 := by
    rw [(hbound f hf).2.2 hmore, hlast]
  have hdata : f.data.length = 1 := by
    have hend := hcov.add_length_of_last hf hmore
    omega
  obtain ⟨b, hb⟩ := List.length_eq_one_iff.1 hdata
  have hwire : f.wire wrapSent.seqnb = buildFragment 0 0 false [b] := by
    rw [Fragment.wire, hoffset, hmore, hb]
    rfl
  obtain ⟨t, t', hrun, hlower⟩ := hrecv [] (fun _ hx => absurd hx List.not_mem_nil) _
    (List.mem_map_of_mem hf) ⟨_, List.mem_map_of_mem hf, List.not_mem_nil⟩
  obtain rfl := Option.some.inj hrun
  have hstore : (ctor 1400 0).pktFromLower (buildFragment 0 0 false [b]) =
      some (.OK, [b], ctor 1400 0) := by
    rw [pktFromLower_of_toFragment rfl
      (toFragment_buildFragment (Nat.two_pow_pos 32) (Nat.two_pow_pos 32))]
    rfl
  rw [hwire, hstore, Option.some.injEq, Prod.mk.injEq, Prod.mk.injEq] at hlower
  have hpkt := congrArg List.length hlower.2.1
  split_ifs at hpkt
  rw [hlen] at hpkt
  cases hpkt

end Pktfrag

end Neoip
