/-
Neoip/Pktfrag.lean

Fragments of packets: `pktfrag_t` and its `pending_dgram_t`.

A fragment is the type of the packet, the sequence number of the datagram, the
offset of the fragment in it, a byte which says whether there are more, and the
data.  A datagram is pending until its fragments cover it.

`size_t` has 64 bits, and lengths are natural numbers; offsets are `uint32_t`.
A call which does not come back gives `none`: it loops for ever, or an
exception leaves it.  `outter_mtu` is larger than a header.
-/
import Neoip.Omap
import Neoip.Run
import Neoip.Wire

namespace Neoip

/-- `pktfrag_err_t`. -/
inductive PktfragErr
  | OK
  | BOGUS_PKT (reason : String)
  | FRAGMENT_TOO_LARGE
  deriving DecidableEq, Repr

/-- `pending_dgram_t`. -/
structure PendingDgram where
  /-- `0` is not known yet. -/
  full_dgram_len : ℕ
  fragment_db : List (ℕ × Datum)
  deriving DecidableEq, Repr

/-- `pktfrag_t`. -/
structure Pktfrag where
  next_xmit_seqnb : ℕ
  outter_mtu : ℕ
  /-- `0` is unlimited. -/
  pool_max_size : ℕ
  pool_cur_size : ℕ
  pending_dgram_db : List (ℕ × PendingDgram)
  deriving DecidableEq, Repr

/-- The order of the keys of both databases, which are `uint32_t`. -/
def ltUint32 (a b : ℕ) : Bool := a < b

/-! ### A pending datagram -/

namespace PendingDgram

def ctor : PendingDgram where
  full_dgram_len := 0
  fragment_db := []

/-- The loop of `is_complete`, for a number of rounds.  A key of the map is a `uint32_t`. -/
def scan (d : PendingDgram) : ℕ → ℕ → Option Bool
  | 0, offset => if d.full_dgram_len ≤ offset then some true else none
  | rounds + 1, offset =>
    if d.full_dgram_len ≤ offset then some true
    else match Omap.find (offset % 2 ^ 32) d.fragment_db with
      | none => some false
      | some fragment => d.scan rounds (offset + fragment.length)

/-- `is_complete`.  A round which finds bytes goes forward, so a loop which is not over after
`full_dgram_len` rounds has found none, and finds none for ever. -/
def isComplete (d : PendingDgram) : Option Bool :=
  if d.full_dgram_len = 0 then some false else d.scan d.full_dgram_len 0

theorem scan_of_le {d : PendingDgram} {offset : ℕ} (hle : d.full_dgram_len ≤ offset)
    (rounds : ℕ) : d.scan rounds offset = some true := by
  cases rounds with
  | zero => rw [scan, if_pos hle]
  | succ rounds => rw [scan, if_pos hle]

/-- The fragment is in the database, and the length is known if it is the last one. -/
def link (offset : ℕ) (more_bit : Bool) (fragment : Datum) (d : PendingDgram) : PendingDgram where
  full_dgram_len := if more_bit then d.full_dgram_len else offset + fragment.length
  fragment_db := Omap.insert ltUint32 offset fragment d.fragment_db

/-- `add_fragment`. -/
def addFragment (offset : ℕ) (more_bit : Bool) (fragment : Datum) (d : PendingDgram) :
    Option (Bool × PendingDgram) :=
  match Omap.find offset d.fragment_db with
  | some _ => some (false, d)
  | none =>
    (d.link offset more_bit fragment).isComplete.map fun complete =>
      (complete, d.link offset more_bit fragment)

/-- `get_complete_dgram`: all the fragments, in the order of the offsets. -/
def getCompleteDgram (d : PendingDgram) : Datum := d.fragment_db.flatMap Prod.snd

end PendingDgram

namespace Pktfrag

/-- `pktfrag_pkttype_t`: the types of `pktfrag_t` are those from 48 on, and 48 is `NONE`. -/
def PKT_FRAGMENT : UInt8 := 49

def ctor (outter_mtu pool_max_size : ℕ) : Pktfrag where
  next_xmit_seqnb := 0
  outter_mtu := outter_mtu
  pool_max_size := pool_max_size
  pool_cur_size := 0
  pending_dgram_db := []

/-! ### Fragmentation -/

/-- `cpu_fragment_hd_len`: the type, two `uint32_t` and the more bit. -/
def fragmentHdLen : ℕ := 1 + 4 + 4 + 1

def buildFragment (seqnb frag_offset : ℕ) (more_bit : Bool) (data : Datum) : Datum :=
  PKT_FRAGMENT :: (writeUint32 seqnb ++ writeUint32 frag_offset ++ [more_bit.toUInt8] ++ data)

/-- `int frag_base_len = payl_mtu`. -/
def fragBaseLen (payl_mtu : ℕ) : ℤ := Int.bmod payl_mtu (2 ^ 32)

/-- `frag_len = frag_base_len`, from an `int` to a `size_t`. -/
def toSizeT (i : ℤ) : ℕ := (i % 2 ^ 64).toNat

/-- The loop of `pkt_from_upper`, for a number of rounds. -/
def fragment (payl_mtu seqnb : ℕ) : ℕ → ℕ → Datum → Option (List Datum)
  | _, _, [] => some []
  | 0, _, _ :: _ => none
  | rounds + 1, frag_offset, orig_pkt =>
    let more_bit : Bool := payl_mtu < orig_pkt.length
    let frag_len := if more_bit then toSizeT (fragBaseLen payl_mtu) else orig_pkt.length
    -- `head_consume` throws
    if orig_pkt.length < frag_len then none
    else
      (fragment payl_mtu seqnb rounds ((frag_offset + frag_len) % 2 ^ 32)
        (orig_pkt.drop frag_len)).map fun fraglist =>
          buildFragment seqnb frag_offset more_bit (orig_pkt.take frag_len) :: fraglist

/-- `pkt_from_upper` with a sequence number.  Each round which consumes a byte leaves less of the
packet, and one which consumes none is done again for ever. -/
def pktFromUpperSeqnb (orig_pkt : Datum) (seqnb : ℕ) (s : Pktfrag) : Option (List Datum) :=
  fragment (s.outter_mtu - fragmentHdLen) seqnb orig_pkt.length 0 orig_pkt

def pktFromUpper (orig_pkt : Datum) (s : Pktfrag) : Option (List Datum) × Pktfrag :=
  let s := { s with next_xmit_seqnb := (s.next_xmit_seqnb + 1) % 2 ^ 32 }
  (s.pktFromUpperSeqnb orig_pkt s.next_xmit_seqnb, s)

/-! ### Reassembly -/

/-- The fragment header: the sequence number, the offset, the more bit and what follows, or the
reason of the exception and what is left of the packet then. -/
def readHeader (pkt : Datum) : Except (String × Datum) (ℕ × ℕ × Bool × Datum) :=
  match readUint32 pkt with
  | none => .error ("uint32_t Payload Too Short", pkt)
  | some (recved_seqnb, pkt) =>
    match readUint32 pkt with
    | none => .error ("uint32_t Payload Too Short", pkt)
    | some (recved_offset, pkt) =>
      match pkt with
      | [] => .error ("uint8_t Payload Too Short", [])
      | recved_more_bit :: pkt => .ok (recved_seqnb, recved_offset, recved_more_bit ≠ 0, pkt)

/-- The loop of `pool_drain` goes on. -/
def poolLacks (needed_len : ℕ) (s : Pktfrag) : Prop :=
  s.pool_cur_size ≠ 0 ∧ s.pool_max_size - s.pool_cur_size < needed_len

instance (needed_len : ℕ) (s : Pktfrag) : Decidable (s.poolLacks needed_len) :=
  inferInstanceAs (Decidable (_ ∧ _))

/-- `pool_drain`.  To unlink a datagram leaves `pool_cur_size`, and there is none in an empty
database. -/
def poolDrain (needed_len : ℕ) (s : Pktfrag) :
    List (ℕ × PendingDgram) → Option (List (ℕ × PendingDgram))
  | [] => if s.poolLacks needed_len then none else some []
  | e :: db => if s.poolLacks needed_len then s.poolDrain needed_len db else some (e :: db)

/-- The fragment goes to the pending datagram of its number, which is created if there is none. -/
def store (recved_seqnb recved_offset : ℕ) (recved_more_bit : Bool) (pkt : Datum) (s : Pktfrag) :
    Option (PktfragErr × Datum × Pktfrag) :=
  let pending_dgram := (Omap.find recved_seqnb s.pending_dgram_db).getD PendingDgram.ctor
  match pending_dgram.addFragment recved_offset recved_more_bit pkt with
  | none => none
  | some (true, pending_dgram) =>
    some (.OK, pending_dgram.getCompleteDgram,
      { s with pending_dgram_db := Omap.erase recved_seqnb s.pending_dgram_db })
  | some (false, pending_dgram) =>
    some (.OK, [], { s with
      pending_dgram_db := Omap.assign ltUint32 recved_seqnb pending_dgram s.pending_dgram_db })

/-- `recv_pkt_fragment`. -/
def recvPktFragment (pkt : Datum) (s : Pktfrag) : Option (PktfragErr × Datum × Pktfrag) :=
  match readHeader pkt with
  | .error (reason, pkt) =>
    some (.BOGUS_PKT ("Cant read incoming packet seqnb due to " ++ reason), pkt, s)
  | .ok (recved_seqnb, recved_offset, recved_more_bit, pkt) =>
    if s.pool_max_size = 0 then s.store recved_seqnb recved_offset recved_more_bit pkt
    else
      match s.poolDrain pkt.length s.pending_dgram_db with
      | none => none
      | some pending_dgram_db =>
        let s := { s with pending_dgram_db := pending_dgram_db }
        if s.pool_max_size - s.pool_cur_size < pkt.length then some (.FRAGMENT_TOO_LARGE, pkt, s)
        else s.store recved_seqnb recved_offset recved_more_bit pkt

/-- `pkt_from_lower`.  The packet which comes back is empty if no datagram is complete. -/
def pktFromLower (pkt : Datum) (s : Pktfrag) : Option (PktfragErr × Datum × Pktfrag) :=
  match pkt with
  | [] => some
      (.BOGUS_PKT "Cant read the packet type due to uint8_t Payload Too Short", [], s)
  | pkttype :: pkt =>
    if pkttype = PKT_FRAGMENT then s.recvPktFragment pkt
    else some (.BOGUS_PKT "Unknown packet type", pkt, s)

/-- The `expire_timeout` of a pending datagram deletes it. -/
def expire (seqnb : ℕ) (s : Pktfrag) : Pktfrag :=
  { s with pending_dgram_db := Omap.erase seqnb s.pending_dgram_db }

variable {s : Pktfrag} {seqnb offset : ℕ} {more_bit : Bool} {pkt data : Datum}

/-! ### What a fragment says -/

/-- A packet which is received as a fragment. -/
def toFragment : Datum → Option (ℕ × ℕ × Bool × Datum)
  | [] => none
  | pkttype :: pkt => if pkttype = PKT_FRAGMENT then (readHeader pkt).toOption else none

@[simp] theorem toFragment_buildFragment (hseqnb : seqnb < 2 ^ 32) (hoffset : offset < 2 ^ 32) :
    toFragment (buildFragment seqnb offset more_bit data) =
      some (seqnb, offset, more_bit, data) := by
  rw [buildFragment, toFragment, if_pos rfl, readHeader, List.append_assoc, List.append_assoc,
    readUint32_writeUint32 hseqnb]
  dsimp only
  rw [readUint32_writeUint32 hoffset]
  cases more_bit <;> rfl

/-- The pool size is never changed, so nothing is drained. -/
theorem poolDrain_of_cur_size (hcur : s.pool_cur_size = 0) (needed_len : ℕ)
    (db : List (ℕ × PendingDgram)) : s.poolDrain needed_len db = some db := by
  have hlacks : ¬s.poolLacks needed_len := fun h => h.1 hcur
  cases db with
  | nil => rw [poolDrain, if_neg hlacks]
  | cons e db => rw [poolDrain, if_neg hlacks]

/-- A fragment is stored, unless it is larger than the whole pool. -/
theorem pktFromLower_of_toFragment (hcur : s.pool_cur_size = 0)
    (h : toFragment pkt = some (seqnb, offset, more_bit, data)) :
    s.pktFromLower pkt =
      if s.pool_max_size ≠ 0 ∧ s.pool_max_size < data.length then
        some (.FRAGMENT_TOO_LARGE, data, s)
      else s.store seqnb offset more_bit data := by
  match pkt, h with
  | pkttype :: pkt, h =>
    rw [toFragment] at h
    split_ifs at h with htype
    cases hread : readHeader pkt with
    | error reason =>
      rw [hread] at h
      cases h
    | ok header =>
      rw [hread] at h
      obtain rfl : header = (seqnb, offset, more_bit, data) := Option.some.inj h
      rw [pktFromLower, if_pos htype, recvPktFragment, hread]
      dsimp only
      rw [poolDrain_of_cur_size hcur]
      dsimp only
      have hsub : s.pool_max_size - s.pool_cur_size = s.pool_max_size := by
        rw [hcur, Nat.sub_zero]
      rw [hsub]
      by_cases hmax : s.pool_max_size = 0
      · rw [if_pos hmax, if_neg fun h => h.1 hmax]
      · rw [if_neg hmax]
        by_cases hlen : s.pool_max_size < data.length
        · rw [if_pos hlen, if_pos ⟨hmax, hlen⟩]
        · rw [if_neg hlen, if_neg fun h => hlen h.2]

/-- Anything else changes nothing. -/
theorem pktFromLower_of_bogus (h : toFragment pkt = none) :
    ∃ reason pkt', s.pktFromLower pkt = some (.BOGUS_PKT reason, pkt', s) := by
  match pkt with
  | [] => exact ⟨_, _, rfl⟩
  | pkttype :: pkt =>
    rw [toFragment] at h
    rw [pktFromLower]
    by_cases htype : pkttype = PKT_FRAGMENT
    · rw [if_pos htype] at h ⊢
      rw [recvPktFragment]
      cases hread : readHeader pkt with
      | error reason => exact ⟨_, _, rfl⟩
      | ok header =>
        rw [hread] at h
        cases h
    · rw [if_neg htype]
      exact ⟨_, _, rfl⟩

end Pktfrag

end Neoip
