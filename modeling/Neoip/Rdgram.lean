/-
Neoip/Rdgram.lean

Reliable datagrams: `rdgram_t`.

A packet from the upper layer gets the next sequence number and stays in
`sendbuf_pkt_db`, with its header, until its number is acknowledged; it is sent
again each time its `rxmit_timeout` expires.  A packet from the lower layer is
acknowledged if the user of the layer says so, by `shouldAcked`; the
acknowledgements are sent when the zerotimer expires.

The buffer is found in by equality of the numbers, as the `std::map` with its
circular order does while all numbers in it are within half of the range.  A
packet which has been swallowed is the empty one.  The timers' delays and the
`MAYSEND` events are not in the model: no decision here depends on them.
-/
import Neoip.Omap
import Neoip.Wai
import Neoip.Wire

namespace Neoip

/-- The sequence numbers. -/
abbrev Wai32 := Wai 32

/-- `rdgram_err_t`.  The reason of a `serial_except_t` is the one it is thrown with. -/
inductive RdgramErr
  | OK
  | BOGUS_PKT (reason : String)
  | SENDBUF_FULL
  deriving DecidableEq, Repr

/-- `rdgram_t`. -/
structure Rdgram where
  sendbuf_pkt_db : List (Wai32 × Datum)
  next_xmit_seqnb : Wai32
  sendbuf_used_len : ℕ
  /-- `0` is unlimited. -/
  sendbuf_max_len : ℕ
  seqnb2ack_list : List Wai32
  /-- The zerotimer has been appended, and has not expired since. -/
  zerotimer_seqnb2ack : Bool

namespace Rdgram

def FIRST_SEQNB : Wai32 := 0

/-- `rdgram_pkttype_t`: the types of `rdgram_t` are those from 64 on, and 64 is `NONE`. -/
def DATA_PKT : UInt8 := 65

def ACK_PKT : UInt8 := 66

def ctor : Rdgram where
  sendbuf_pkt_db := []
  next_xmit_seqnb := FIRST_SEQNB
  sendbuf_used_len := 0
  sendbuf_max_len := 0
  seqnb2ack_list := []
  zerotimer_seqnb2ack := false

/-! ### Packets -/

def buildData (seqnb : Wai32) (pkt : Datum) : Datum :=
  DATA_PKT :: (writeUint32 seqnb.toNat ++ pkt)

def buildAck (seqnb : Wai32) : Datum := ACK_PKT :: writeUint32 seqnb.toNat

/-- `pkt >> seqnb`. -/
def readSeqnb (pkt : Datum) : Option (Wai32 × Datum) :=
  (readUint32 pkt).map fun r => (BitVec.ofNat 32 r.1, r.2)

/-! ### From the upper layer -/

/-- The `sendbuf_pkt_t` has a packet, and links itself into the database. -/
def sendbufPktCtor (pkt : Datum) (seqnb : Wai32) (r : Rdgram) : Rdgram :=
  { r with
    sendbuf_pkt_db := Omap.insert Wai.lt seqnb pkt r.sendbuf_pkt_db
    sendbuf_used_len := r.sendbuf_used_len + pkt.length }

/-- The packet comes back with its header, for the lower layer. -/
def pktFromUpper (pkt : Datum) (r : Rdgram) : RdgramErr × Datum × Rdgram :=
  let pkt := buildData r.next_xmit_seqnb pkt
  if r.sendbuf_max_len ≠ 0 ∧ r.sendbuf_max_len < r.sendbuf_used_len + pkt.length then
    (.SENDBUF_FULL, pkt, r)
  else
    let r := sendbufPktCtor pkt r.next_xmit_seqnb r
    (.OK, pkt, { r with next_xmit_seqnb := r.next_xmit_seqnb + 1 })

/-- The `rxmit_timeout` of a packet expires. -/
def rxmit (seqnb : Wai32) (r : Rdgram) : Option Datum := Omap.find seqnb r.sendbuf_pkt_db

/-! ### From the lower layer -/

/-- What `pkt_from_lower` gives back: the packet is empty when it has been swallowed, and
`seqnb_out` is only set with one which has not. -/
structure Filtered where
  err : RdgramErr
  pkt : Datum
  seqnb_out : Option Wai32
  rdgram : Rdgram

def recvDataPkt (shouldAcked : Datum → Wai32 → Bool) (pkt : Datum) (r : Rdgram) : Filtered :=
  match readSeqnb pkt with
  | none => ⟨.BOGUS_PKT "Cant read incoming packet seqnb due to uint32_t Payload Too Short",
      pkt, none, r⟩
  | some (seqnb, pkt) =>
    if shouldAcked pkt seqnb then
      ⟨.OK, pkt, some seqnb, { r with
        seqnb2ack_list := r.seqnb2ack_list ++ [seqnb]
        zerotimer_seqnb2ack := true }⟩
    else ⟨.OK, [], none, r⟩

def recvAckPkt (pkt : Datum) (r : Rdgram) : Filtered :=
  match readSeqnb pkt with
  | none => ⟨.BOGUS_PKT "Cant read incoming packet seqnb due to uint32_t Payload Too Short",
      pkt, none, r⟩
  | some (seqnb, _) =>
    match Omap.find seqnb r.sendbuf_pkt_db with
    -- it may be a duplicate of an ack which has been received
    | none => ⟨.OK, [], none, r⟩
    | some sendbuf_pkt => ⟨.OK, [], none, { r with
        sendbuf_pkt_db := Omap.erase seqnb r.sendbuf_pkt_db
        sendbuf_used_len := r.sendbuf_used_len - sendbuf_pkt.length }⟩

def pktFromLower (shouldAcked : Datum → Wai32 → Bool) (pkt : Datum) (r : Rdgram) : Filtered :=
  match pkt with
  | [] => ⟨.BOGUS_PKT "Cant read the packet type due to uint8_t Payload Too Short", [], none, r⟩
  | pkttype :: pkt =>
    if pkttype = DATA_PKT then recvDataPkt shouldAcked pkt r
    else if pkttype = ACK_PKT then recvAckPkt pkt r
    else ⟨.BOGUS_PKT "Unknown packet type", pkt, none, r⟩

/-- `zerotimer_seqnb2ack_process`, with the packets which it sends. -/
def zerotimerSeqnb2ack (r : Rdgram) : List Datum × Rdgram :=
  if r.zerotimer_seqnb2ack then
    (r.seqnb2ack_list.map buildAck, { r with seqnb2ack_list := [], zerotimer_seqnb2ack := false })
  else ([], r)

/-- It asserts that what is in the buffer fits. -/
def sendbufSetMaxLen (len : ℕ) (r : Rdgram) : Rdgram :=
  if r.sendbuf_used_len ≤ len then { r with sendbuf_max_len := len } else r

/-! ### What a packet says -/

/-- The number and the payload of a packet which is received as data. -/
def toData : Datum → Option (Wai32 × Datum)
  | [] => none
  | pkttype :: pkt => if pkttype = DATA_PKT then readSeqnb pkt else none

/-- The number of a packet which is received as an acknowledgement. -/
def toAck : Datum → Option Wai32
  | [] => none
  | pkttype :: pkt => if pkttype = ACK_PKT then (readSeqnb pkt).map Prod.fst else none

theorem readSeqnb_writeUint32 (seqnb : Wai32) (pkt : Datum) :
    readSeqnb (writeUint32 seqnb.toNat ++ pkt) = some (seqnb, pkt) := by
  rw [readSeqnb, readUint32_writeUint32 seqnb.isLt, Option.map_some, BitVec.ofNat_toNat,
    BitVec.setWidth_eq]

@[simp] theorem toData_buildData (seqnb : Wai32) (pkt : Datum) :
    toData (buildData seqnb pkt) = some (seqnb, pkt) := by
  rw [buildData, toData, if_pos rfl, readSeqnb_writeUint32]

@[simp] theorem toAck_buildAck (seqnb : Wai32) : toAck (buildAck seqnb) = some seqnb := by
  have hread := readSeqnb_writeUint32 seqnb []
  rw [List.append_nil] at hread
  rw [buildAck, toAck, if_pos rfl, hread, Option.map_some]

@[simp] theorem toAck_buildData (seqnb : Wai32) (pkt : Datum) :
    toAck (buildData seqnb pkt) = none := by
  rw [buildData, toAck, if_neg (by decide)]

@[simp] theorem toData_buildAck (seqnb : Wai32) : toData (buildAck seqnb) = none := by
  rw [buildAck, toData, if_neg (by decide)]

variable {shouldAcked : Datum → Wai32 → Bool} {pkt payload : Datum} {seqnb : Wai32} {r : Rdgram}

/-! ### What a packet does -/

/-- Data is acknowledged and kept, or swallowed with no effect. -/
theorem pktFromLower_of_toData (h : toData pkt = some (seqnb, payload)) :
    pktFromLower shouldAcked pkt r =
      if shouldAcked payload seqnb then
        ⟨.OK, payload, some seqnb, { r with
          seqnb2ack_list := r.seqnb2ack_list ++ [seqnb], zerotimer_seqnb2ack := true }⟩
      else ⟨.OK, [], none, r⟩ := by
  match pkt, h with
  | pkttype :: pkt, h =>
    rw [toData] at h
    split_ifs at h with htype
    rw [pktFromLower, if_pos htype, recvDataPkt, h]

theorem exists_recvAckPkt (shouldAcked : Datum → Wai32 → Bool) (r : Rdgram)
    (h : toAck pkt = some seqnb) : ∃ payl rest, readSeqnb payl = some (seqnb, rest) ∧
      pktFromLower shouldAcked pkt r = recvAckPkt payl r := by
  match pkt, h with
  | pkttype :: pkt, h =>
    rw [toAck] at h
    split_ifs at h with htype
    obtain ⟨⟨seqnb', rest⟩, hread, rfl⟩ := Option.map_eq_some_iff.1 h
    have hne : pkttype ≠ DATA_PKT := by
      rw [htype]
      decide
    refine ⟨pkt, rest, hread, ?_⟩
    rw [pktFromLower, if_neg hne, if_pos htype]

/-- An acknowledgement of a packet which is in the buffer takes it out. -/
theorem pktFromLower_of_toAck_some {sendbuf_pkt : Datum} (h : toAck pkt = some seqnb)
    (hfind : Omap.find seqnb r.sendbuf_pkt_db = some sendbuf_pkt) :
    pktFromLower shouldAcked pkt r = ⟨.OK, [], none, { r with
      sendbuf_pkt_db := Omap.erase seqnb r.sendbuf_pkt_db
      sendbuf_used_len := r.sendbuf_used_len - sendbuf_pkt.length }⟩ := by
  obtain ⟨payl, rest, hread, heq⟩ := exists_recvAckPkt shouldAcked r h
  rw [heq, recvAckPkt, hread]
  dsimp only
  rw [hfind]

/-- A duplicate of an acknowledgement has no effect. -/
theorem pktFromLower_of_toAck_none (h : toAck pkt = some seqnb)
    (hfind : Omap.find seqnb r.sendbuf_pkt_db = none) :
    pktFromLower shouldAcked pkt r = ⟨.OK, [], none, r⟩ := by
  obtain ⟨payl, rest, hread, heq⟩ := exists_recvAckPkt shouldAcked r h
  rw [heq, recvAckPkt, hread]
  dsimp only
  rw [hfind]

/-- An acknowledgement takes the packet out of the buffer, where it is there. -/
theorem pktFromLower_of_toAck (shouldAcked : Datum → Wai32 → Bool) (r : Rdgram)
    (h : toAck pkt = some seqnb) :
    ∃ used_len, pktFromLower shouldAcked pkt r = ⟨.OK, [], none, { r with
      sendbuf_pkt_db := Omap.erase seqnb r.sendbuf_pkt_db, sendbuf_used_len := used_len }⟩ := by
  cases hfind : Omap.find seqnb r.sendbuf_pkt_db with
  | none =>
    refine ⟨r.sendbuf_used_len, ?_⟩
    have herase : Omap.erase seqnb r.sendbuf_pkt_db = r.sendbuf_pkt_db := by
      apply Omap.erase_of_notMem
      rintro ⟨q, a⟩ hmem rfl
      exact Omap.find_eq_none.1 hfind a hmem
    rw [herase]
    exact pktFromLower_of_toAck_none h hfind
  | some sendbuf_pkt => exact ⟨_, pktFromLower_of_toAck_some h hfind⟩

/-- Any other packet changes nothing. -/
theorem pktFromLower_of_bogus (shouldAcked : Datum → Wai32 → Bool) (r : Rdgram)
    (hdata : toData pkt = none) (hack : toAck pkt = none) :
    (pktFromLower shouldAcked pkt r).err ≠ .OK ∧ (pktFromLower shouldAcked pkt r).rdgram = r := by
  match pkt with
  | [] => exact ⟨RdgramErr.noConfusion, rfl⟩
  | pkttype :: pkt =>
    rw [toData] at hdata
    rw [toAck] at hack
    rw [pktFromLower]
    by_cases htype : pkttype = DATA_PKT
    · rw [if_pos htype] at hdata ⊢
      rw [recvDataPkt, hdata]
      exact ⟨RdgramErr.noConfusion, rfl⟩
    by_cases htype' : pkttype = ACK_PKT
    · rw [if_pos htype', Option.map_eq_none_iff] at hack
      rw [if_neg htype, if_pos htype', recvAckPkt, hack]
      exact ⟨RdgramErr.noConfusion, rfl⟩
    · rw [if_neg htype, if_neg htype']
      exact ⟨RdgramErr.noConfusion, rfl⟩

end Rdgram

end Neoip
