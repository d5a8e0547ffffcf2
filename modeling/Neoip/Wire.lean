/-
Neoip/Wire.lean

The commands on the wire: `bt_cmd_t`, with `get_datum_len` and `to_datum`, and
the receive loop of `bt_swarm_full_t`, `parse_recved_data`.

A command is a big endian `uint32_t`, the length of what follows, then a byte
for its type and its fields; a keepalive has a length of zero and nothing else.
A `BLOCK_REP` is not built by `to_datum`, which asserts that it is never asked
to: the callback of the block read builds it, with `blockRepDatum`.  There, and
only there, fields are serialized as `size_t`, and how many bytes this writes
depends on the platform (`SizeT`).

The receiver is any `Receiver`: a state, what the connection does when it opens
and for each command, and whether the connection is still there after it
(`tokeep`).  Chunks of the stream are the events of the run.

Main results: how the stream is cut does not matter (`Receiver.run_recv`), the
commands of a stream are delivered one after the other and what is left is what
follows the last whole one (`Receiver.parseCmds_packets`), and both of them
together with the lengths (`Receiver.run_packets`).
-/
import Neoip.BlockReq

namespace Neoip

/-! ### Serial integers -/

theorem readUint32_writeUint32 {n : ℕ} (hn : n < 2 ^ 32) (rest : Datum) :
    readUint32 (writeUint32 n ++ rest) = some (n, rest) := by
  simp only [writeUint32, List.cons_append, List.nil_append, readUint32, Option.some.injEq,
    Prod.mk.injEq, and_true, UInt8.toNat_ofNat']
  omega

@[simp] theorem length_writeUint32 (n : ℕ) : (writeUint32 n).length = 4 := rfl

theorem length_of_readUint32 {pkt rest : Datum} {n : ℕ} (h : readUint32 pkt = some (n, rest)) :
    pkt.length = rest.length + 4 := by
  match pkt, h with
  | a :: b :: c :: d :: tail, h =>
    simp only [readUint32, Option.some.injEq, Prod.mk.injEq] at h
    rw [← h.2]
    rfl

theorem eq_of_readUint32 {pkt rest : Datum} {n : ℕ} (h : readUint32 pkt = some (n, rest)) :
    n < 2 ^ 32 ∧ pkt = writeUint32 n ++ rest := by
  match pkt, h with
  | a :: b :: c :: d :: pkt, h =>
    simp only [readUint32, Option.some.injEq, Prod.mk.injEq] at h
    obtain ⟨rfl, rfl⟩ := h
    have ha := a.toNat_lt
    have hb := b.toNat_lt
    have hc := c.toNat_lt
    have hd := d.toNat_lt
    refine ⟨by omega, ?_⟩
    simp only [writeUint32, List.cons_append, List.nil_append, List.cons.injEq, and_true,
      ← UInt8.toNat_inj, UInt8.toNat_ofNat']
    omega

theorem readUint32_append {pkt rest : Datum} {n : ℕ} (h : readUint32 pkt = some (n, rest))
    (chunk : Datum) : readUint32 (pkt ++ chunk) = some (n, rest ++ chunk) := by
  match pkt, h with
  | a :: b :: c :: d :: tail, h =>
    simp only [readUint32, Option.some.injEq, Prod.mk.injEq] at h
    obtain ⟨rfl, rfl⟩ := h
    rfl

/-- How `serial << size_t` writes: as the `uint32_t`, or as the `uint64_t`, which
`size_t` is on the platform. -/
inductive SizeT
  | uint32
  | uint64
deriving DecidableEq, Repr

def SizeT.write : SizeT → ℕ → Datum
  | .uint32, n => writeUint32 n
  | .uint64, n => writeUint32 (n / 2 ^ 32) ++ writeUint32 n

/-! ### Commands -/

/-- `bt_cmd_t`. -/
inductive WireCmd
  | keepalive
  | unauthReq
  | doauthReq
  | dowantReq
  | unwantReq
  | pieceIsavail (piece_idx : ℕ)
  | pieceBfield
  | blockReq (prange : Prange)
  | blockRep (prange : Prange)
  | blockDel (prange : Prange)
  | utmsgPayl (utmsg_datum : Datum)
deriving DecidableEq, Repr

namespace WireCmd

/-- `bt_cmdtype_t`. -/
def cmdtype : WireCmd → UInt8
  | .unauthReq => 0x0
  | .doauthReq => 0x1
  | .dowantReq => 0x2
  | .unwantReq => 0x3
  | .pieceIsavail _ => 0x4
  | .pieceBfield => 0x5
  | .blockReq _ => 0x6
  | .blockRep _ => 0x7
  | .blockDel _ => 0x8
  | .utmsgPayl _ => 0x14
  | .keepalive => 254

def isBlockRep : WireCmd → Bool
  | .blockRep _ => true
  | _ => false

/-- `get_datum_len`. -/
def getDatumLen (local_pavail : Pieceavail) : WireCmd → ℕ
  | .keepalive => 4
  | .unauthReq => 4 + 1
  | .doauthReq => 4 + 1
  | .dowantReq => 4 + 1
  | .unwantReq => 4 + 1
  | .pieceIsavail _ => 4 + 1 + 4
  | .pieceBfield => 4 + 1 + local_pavail.toDatumSize
  | .blockReq _ => 4 + 1 + 4 + 4 + 4
  | .blockRep prange => 4 + 1 + 4 + 4 + prange.length
  | .blockDel _ => 4 + 1 + 4 + 4 + 4
  | .utmsgPayl utmsg_datum => 4 + 1 + utmsg_datum.length

/-- The three fields of a range, each as a `uint32_t`. -/
def prangeDatum (prange : Prange) : Datum :=
  writeUint32 prange.piece_idx ++ writeUint32 prange.offset ++ writeUint32 prange.length

/-- `to_datum`.  A `BLOCK_REP` trips an assertion; without assertions it falls in the
case of `BLOCK_DEL`. -/
def toDatum (local_pavail : Pieceavail) : WireCmd → Datum
  | .keepalive => writeUint32 0
  | .unauthReq => writeUint32 1 ++ [cmdtype .unauthReq]
  | .doauthReq => writeUint32 1 ++ [cmdtype .doauthReq]
  | .dowantReq => writeUint32 1 ++ [cmdtype .dowantReq]
  | .unwantReq => writeUint32 1 ++ [cmdtype .unwantReq]
  | .pieceIsavail piece_idx =>
    writeUint32 5 ++ cmdtype (.pieceIsavail piece_idx) :: writeUint32 piece_idx
  | .pieceBfield =>
    writeUint32 (1 + local_pavail.toDatumSize) ++ cmdtype .pieceBfield :: local_pavail.toDatum
  | .blockReq prange => writeUint32 13 ++ cmdtype (.blockReq prange) :: prangeDatum prange
  | .blockRep prange => writeUint32 13 ++ cmdtype (.blockRep prange) :: prangeDatum prange
  | .blockDel prange => writeUint32 13 ++ cmdtype (.blockDel prange) :: prangeDatum prange
  | .utmsgPayl utmsg_datum =>
    writeUint32 (1 + utmsg_datum.length) ++ cmdtype (.utmsgPayl utmsg_datum) :: utmsg_datum

/-- The length which is announced is the one which is produced. -/
theorem length_toDatum (local_pavail : Pieceavail) {bt_cmd : WireCmd}
    (h : bt_cmd.isBlockRep = false) :
    (bt_cmd.toDatum local_pavail).length = bt_cmd.getDatumLen local_pavail := by
  cases bt_cmd with
  | pieceBfield =>
    simp only [toDatum, getDatumLen, List.length_append, List.length_cons, length_writeUint32,
      Bitfield.length_toDatum]
    omega
  | utmsgPayl utmsg_datum =>
    simp only [toDatum, getDatumLen, List.length_append, List.length_cons, length_writeUint32]
    omega
  | blockRep prange => exact absurd h (by simp [isBlockRep])
  | _ => rfl

end WireCmd

/-- The header which the callback of the block read builds for a `BLOCK_REP`. -/
def blockRepHeader (size_t : SizeT) (prange : Prange) (read_len : ℕ) : Datum :=
  writeUint32 (9 + read_len) ++ (WireCmd.blockRep prange).cmdtype ::
    (size_t.write prange.piece_idx ++ size_t.write prange.offset)

/-- What it sends: the header, then the data. -/
def blockRepDatum (size_t : SizeT) (prange : Prange) (read_data : Datum) : Datum :=
  blockRepHeader size_t prange read_data.length ++ read_data

theorem length_blockRepDatum_uint32 {prange : Prange} {read_data : Datum}
    (h : read_data.length = prange.length) (local_pavail : Pieceavail) :
    (blockRepDatum .uint32 prange read_data).length =
      (WireCmd.blockRep prange).getDatumLen local_pavail := by
  simp only [blockRepDatum, blockRepHeader, SizeT.write, WireCmd.getDatumLen, List.length_append,
    List.length_cons, length_writeUint32, h]

theorem length_blockRepDatum_uint64 {prange : Prange} {read_data : Datum}
    (h : read_data.length = prange.length) (local_pavail : Pieceavail) :
    (blockRepDatum .uint64 prange read_data).length =
      (WireCmd.blockRep prange).getDatumLen local_pavail + 8 := by
  simp only [blockRepDatum, blockRepHeader, SizeT.write, WireCmd.getDatumLen, List.length_append,
    List.length_cons, length_writeUint32, h]
  omega

/-! ### The receive loop -/

/-- A command as the receiver reads it. -/
inductive RecvedCmd
  | keepalive
  | unauthReq
  | doauthReq
  | dowantReq
  | unwantReq
  | pieceIsavail (piece_idx : ℕ)
  | pieceBfield (remote_pavail : Pieceavail)
  | blockReq (prange : Prange)
  | blockRep (piece_idx data_offset : ℕ) (data : Datum)
  | blockDel (prange : Prange)
  | utmsgPayl (utmsg_datum : Datum)
  | unknown (cmdtype : ℕ)
deriving DecidableEq, Repr

/-- What `parse_recved_cmd` and the `parse_…_cmd` read from a packet; none when the
unserialization fails. -/
def readCmd (nb_piece : ℕ) : Datum → Option RecvedCmd
  | [] => some .keepalive
  | cmdtype :: pkt =>
    match cmdtype.toNat with
    | 0x0 => some .unauthReq
    | 0x1 => some .doauthReq
    | 0x2 => some .dowantReq
    | 0x3 => some .unwantReq
    | 0x4 => (readUint32 pkt).map fun x => .pieceIsavail x.1
    | 0x5 => (Pieceavail.btformatFromPkt pkt nb_piece).map .pieceBfield
    | 0x6 => (Swarm.readBlockReq pkt).map .blockReq
    | 0x7 => do
      let (piece_idx, pkt) ← readUint32 pkt
      let (data_offset, pkt) ← readUint32 pkt
      some (.blockRep piece_idx data_offset pkt)
    | 0x8 => (Swarm.readBlockReq pkt).map .blockDel
    | 0x14 => some (.utmsgPayl pkt)
    | n => some (.unknown n)

theorem readCmd_pieceIsavail (nb_piece : ℕ) (pkt : Datum) :
    readCmd nb_piece (0x4 :: pkt) = (readUint32 pkt).map fun x => .pieceIsavail x.1 := rfl

theorem readCmd_pieceBfield (nb_piece : ℕ) (pkt : Datum) :
    readCmd nb_piece (0x5 :: pkt) =
      (Pieceavail.btformatFromPkt pkt nb_piece).map .pieceBfield := rfl

theorem readCmd_blockReq (nb_piece : ℕ) (pkt : Datum) :
    readCmd nb_piece (0x6 :: pkt) = (Swarm.readBlockReq pkt).map .blockReq := rfl

theorem readCmd_blockRep (nb_piece : ℕ) (pkt : Datum) :
    readCmd nb_piece (0x7 :: pkt) = (readUint32 pkt).bind fun x =>
      (readUint32 x.2).bind fun y => some (.blockRep x.1 y.1 y.2) := rfl

theorem readCmd_blockDel (nb_piece : ℕ) (pkt : Datum) :
    readCmd nb_piece (0x8 :: pkt) = (Swarm.readBlockReq pkt).map .blockDel := rfl

/-- The connection around the receive loop.  The bool is `tokeep`. -/
structure Receiver (σ : Type*) where
  recv_cmd_maxlen : ℕ
  nb_piece : ℕ
  notifyCnxOpen : σ → σ × Bool
  parseCmd : σ → RecvedCmd → σ × Bool

/-- A connection which receives.  It has no `recved_data` once it is deleted. -/
structure RecvState (σ : Type*) where
  notified_as_open : Bool
  recved_data : Option Datum
  st : σ
deriving DecidableEq

namespace Receiver

variable {σ : Type*} (rv : Receiver σ)

/-- The loop of `parse_recved_data`: the connection, and the data it has left. -/
def parseCmds (st : σ) (recved_data : Datum) : σ × Option Datum :=
  match _h : readUint32 recved_data with
  -- there is nothing, or not even a length
  | none => (st, some recved_data)
  | some (cmd_len, rest) =>
    if cmd_len > rv.recv_cmd_maxlen then (st, none)
    else if recved_data.length < 4 + cmd_len then (st, some recved_data)
    else
      match readCmd rv.nb_piece (rest.take cmd_len) with
      | none => (st, none)
      | some cmd =>
        match rv.parseCmd st cmd with
        | (st, false) => (st, none)
        | (st, true) => parseCmds st (rest.drop cmd_len)
termination_by recved_data.length
decreasing_by
  rw [length_of_readUint32 _h, List.length_drop]
  omega

/-- The notification which comes before the first parse. -/
def opened (r : RecvState σ) : σ × Bool :=
  if r.notified_as_open then (r.st, true) else rv.notifyCnxOpen r.st

/-- `RECVED_DATA`: append the chunk, and `parse_recved_data`.  The zero timer of the first
parse comes with an empty chunk. -/
def recv (r : RecvState σ) (chunk : Datum) : RecvState σ :=
  match r.recved_data with
  | none => r
  | some recved_data =>
    match rv.opened r with
    | (st, false) => ⟨true, none, st⟩
    | (st, true) =>
      let (st, recved_data) := rv.parseCmds st (recved_data ++ chunk)
      ⟨true, recved_data, st⟩

/-- The commands, one after the other, until the connection is deleted. -/
def deliver : σ → List RecvedCmd → Datum → σ × Option Datum
  | st, [], rest => (st, some rest)
  | st, cmd :: cmds, rest =>
    match rv.parseCmd st cmd with
    | (st, false) => (st, none)
    | (st, true) => deliver st cmds rest

/-- A connection to which whole commands are delivered, with some bytes left. -/
def delivered (r : RecvState σ) (cmds : List RecvedCmd) (rest : Datum) : RecvState σ :=
  match rv.opened r with
  | (st, false) => ⟨true, none, st⟩
  | (st, true) =>
    let (st, recved_data) := rv.deliver st cmds rest
    ⟨true, recved_data, st⟩

/-! ### One turn of the loop -/

variable {rv} {st : σ} {recved_data rest chunk : Datum} {cmd_len : ℕ}

theorem parseCmds_wait (h : readUint32 recved_data = none) :
    rv.parseCmds st recved_data = (st, some recved_data) := by
  rw [parseCmds]
  split
  · rfl
  · next heq => exact absurd (h.symm.trans heq) nofun

theorem parseCmds_tooLong (h : readUint32 recved_data = some (cmd_len, rest))
    (hmax : rv.recv_cmd_maxlen < cmd_len) : rv.parseCmds st recved_data = (st, none) := by
  rw [parseCmds]
  split
  · next heq => exact absurd (h.symm.trans heq) nofun
  · next heq =>
      rw [h] at heq
      cases heq
      rw [if_pos hmax]

theorem parseCmds_short (h : readUint32 recved_data = some (cmd_len, rest))
    (hmax : cmd_len ≤ rv.recv_cmd_maxlen) (hlen : rest.length < cmd_len) :
    rv.parseCmds st recved_data = (st, some recved_data) := by
  have hdata := length_of_readUint32 h
  rw [parseCmds]
  split
  · next heq => exact absurd (h.symm.trans heq) nofun
  · next heq =>
      rw [h] at heq
      cases heq
      rw [if_neg (by omega), if_pos (by omega)]

theorem parseCmds_pkt (h : readUint32 recved_data = some (cmd_len, rest))
    (hmax : cmd_len ≤ rv.recv_cmd_maxlen) (hlen : cmd_len ≤ rest.length) :
    rv.parseCmds st recved_data =
      match readCmd rv.nb_piece (rest.take cmd_len) with
      | none => (st, none)
      | some cmd =>
        match rv.parseCmd st cmd with
        | (st, false) => (st, none)
        | (st, true) => rv.parseCmds st (rest.drop cmd_len) := by
  have hdata := length_of_readUint32 h
  rw [parseCmds]
  split
  · next heq => exact absurd (h.symm.trans heq) nofun
  · next heq =>
      rw [h] at heq
      cases heq
      rw [if_neg (by omega), if_neg (by omega)]

/-! ### Cutting the stream -/

/-- The loop goes on where it stopped when more data comes. -/
theorem parseCmds_append (st : σ) (recved_data chunk : Datum) :
    rv.parseCmds st (recved_data ++ chunk) =
      match rv.parseCmds st recved_data with
      | (st, none) => (st, none)
      | (st, some recved_data) => rv.parseCmds st (recved_data ++ chunk) := by
  induction hn : recved_data.length using Nat.strong_induction_on generalizing st recved_data with
  | _ n ih =>
    rcases h : readUint32 recved_data with _ | ⟨cmd_len, rest⟩
    · rw [parseCmds_wait h]
    · have happ := readUint32_append h chunk
      have hdata := length_of_readUint32 h
      rcases Nat.lt_or_ge rv.recv_cmd_maxlen cmd_len with hmax | hmax
      · rw [parseCmds_tooLong h hmax, parseCmds_tooLong happ hmax]
      rcases Nat.lt_or_ge rest.length cmd_len with hlen | hlen
      · rw [parseCmds_short h hmax hlen]
      -- the whole packet was there before the chunk
      have hlen' : cmd_len ≤ (rest ++ chunk).length := by
        rw [List.length_append]
        omega
      rw [parseCmds_pkt h hmax hlen, parseCmds_pkt happ hmax hlen',
        List.take_append_of_le_length hlen, List.drop_append_of_le_length hlen]
      rcases readCmd rv.nb_piece (rest.take cmd_len) with _ | cmd
      · rfl
      · rcases hcmd : rv.parseCmd st cmd with ⟨st', tokeep⟩
        cases tokeep with
        | false => simp only [hcmd]
        | true =>
          simp only [hcmd]
          refine ih _ ?_ st' (rest.drop cmd_len) rfl
          rw [List.length_drop]
          omega

theorem recv_deleted {r : RecvState σ} (hdata : r.recved_data = none) : rv.recv r chunk = r := by
  simp only [recv, hdata]

theorem recv_refused {r : RecvState σ} (hdata : r.recved_data = some recved_data)
    (hopen : rv.opened r = (st, false)) : rv.recv r chunk = ⟨true, none, st⟩ := by
  simp only [recv, hdata, hopen]

theorem recv_kept {r : RecvState σ} (hdata : r.recved_data = some recved_data)
    (hopen : rv.opened r = (st, true)) :
    rv.recv r chunk = ⟨true, (rv.parseCmds st (recved_data ++ chunk)).2,
      (rv.parseCmds st (recved_data ++ chunk)).1⟩ := by
  simp only [recv, hdata, hopen]

/-- Two chunks one after the other are one. -/
theorem recv_recv (r : RecvState σ) (chunk chunk' : Datum) :
    rv.recv (rv.recv r chunk) chunk' = rv.recv r (chunk ++ chunk') := by
  rcases hdata : r.recved_data with _ | recved_data
  · rw [recv_deleted hdata, recv_deleted hdata, recv_deleted hdata]
  rcases hopen : rv.opened r with ⟨st, _ | _⟩
  · rw [recv_refused hdata hopen, recv_refused hdata hopen, recv_deleted rfl]
  · rw [recv_kept hdata hopen, recv_kept hdata hopen, ← List.append_assoc,
      parseCmds_append st (recved_data ++ chunk)]
    rcases rv.parseCmds st (recved_data ++ chunk) with ⟨st', _ | rest⟩
    · exact recv_deleted rfl
    · exact recv_kept rfl rfl

/-- **How the stream is cut does not matter.** -/
theorem run_recv (r : RecvState σ) (chunk : Datum) (chunks : List Datum) :
    run rv.recv r (chunk :: chunks) = rv.recv r (chunk ++ chunks.flatten) := by
  induction chunks generalizing chunk with
  | nil => rw [List.flatten_nil, List.append_nil, run_cons, run_nil]
  | cons chunk' chunks ih =>
    rw [run_cons, run_cons, recv_recv, ← run_cons, ih, List.flatten_cons, List.append_assoc]

end Receiver

/-! ### Packets -/

theorem Pieceavail.btformatFromPkt_toDatum (pa : Pieceavail) :
    Pieceavail.btformatFromPkt pa.toDatum pa.length = some pa := by
  have hsize : pa.toDatum.length = (Bitfield.ofSize pa.length).toDatumSize := by
    rw [Bitfield.length_toDatum, Bitfield.toDatumSize, Bitfield.toDatumSize,
      Bitfield.length_ofSize]
  have hround := Bitfield.fromDatum_toDatum pa
  rw [Bitfield.fromDatum, if_neg (by simpa using hsize)] at hround
  rw [btformatFromPkt, if_neg (by omega), hround]

/-- A command on the wire, with all that its bytes depend on: `to_datum` builds it, or the
callback of the block read which has the data of the range. -/
inductive Packet (nb_piece : ℕ)
  | cmd (local_pavail : Pieceavail) (bt_cmd : WireCmd) (size : local_pavail.length = nb_piece)
      (not_block_rep : bt_cmd.isBlockRep = false)
  | blockRep (prange : Prange) (read_data : Datum) (length : read_data.length = prange.length)

namespace Packet

variable {nb_piece : ℕ}

/-- The bytes, where `size_t` has the width of a `uint32_t`. -/
def toDatum : Packet nb_piece → Datum
  | .cmd local_pavail bt_cmd _ _ => bt_cmd.toDatum local_pavail
  | .blockRep prange read_data _ => blockRepDatum .uint32 prange read_data

/-- The command of the packet. -/
def toCmd : Packet nb_piece → WireCmd
  | .cmd _ bt_cmd _ _ => bt_cmd
  | .blockRep prange _ _ => .blockRep prange

/-- The length announced. -/
def getDatumLen : Packet nb_piece → ℕ
  | .cmd local_pavail bt_cmd _ _ => bt_cmd.getDatumLen local_pavail
  | .blockRep prange _ _ => (WireCmd.blockRep prange).getDatumLen []

/-- The command and its fields, as the receiver should read them. -/
def received : Packet nb_piece → RecvedCmd
  | .cmd _ .keepalive _ _ => .keepalive
  | .cmd _ .unauthReq _ _ => .unauthReq
  | .cmd _ .doauthReq _ _ => .doauthReq
  | .cmd _ .dowantReq _ _ => .dowantReq
  | .cmd _ .unwantReq _ _ => .unwantReq
  | .cmd _ (.pieceIsavail piece_idx) _ _ => .pieceIsavail piece_idx
  | .cmd local_pavail .pieceBfield _ _ => .pieceBfield local_pavail
  | .cmd _ (.blockReq prange) _ _ => .blockReq prange
  | .cmd _ (.blockRep _) _ not_block_rep => absurd not_block_rep Bool.noConfusion
  | .cmd _ (.blockDel prange) _ _ => .blockDel prange
  | .cmd _ (.utmsgPayl utmsg_datum) _ _ => .utmsgPayl utmsg_datum
  | .blockRep prange read_data _ => .blockRep prange.piece_idx prange.offset read_data

/-- The fields which are written as a `uint32_t` fit in one. -/
def FieldsFit : Packet nb_piece → Prop
  | .cmd _ (.pieceIsavail piece_idx) _ _ => piece_idx < 2 ^ 32
  | .cmd _ (.blockReq prange) _ _ | .cmd _ (.blockDel prange) _ _ | .blockRep prange _ _ =>
    prange.piece_idx < 2 ^ 32 ∧ prange.offset < 2 ^ 32 ∧ prange.length < 2 ^ 32
  | _ => True

/-- The receiver takes the packet: its fields and its length fit, and it is not longer than
the receiver's profile allows. -/
structure Sendable (recv_cmd_maxlen : ℕ) (packet : Packet nb_piece) : Prop where
  fields : packet.FieldsFit
  len : packet.getDatumLen < 4 + 2 ^ 32
  maxlen : packet.getDatumLen ≤ 4 + recv_cmd_maxlen

variable {packet : Packet nb_piece} {recv_cmd_maxlen : ℕ}

theorem length_toDatum (packet : Packet nb_piece) :
    packet.toDatum.length = packet.getDatumLen := by
  cases packet with
  | cmd local_pavail bt_cmd size h => exact WireCmd.length_toDatum local_pavail h
  | blockRep prange read_data h => exact length_blockRepDatum_uint32 h []

theorem readBlockReq_prangeDatum {prange : Prange}
    (h : prange.piece_idx < 2 ^ 32 ∧ prange.offset < 2 ^ 32 ∧ prange.length < 2 ^ 32) :
    Swarm.readBlockReq (WireCmd.prangeDatum prange) = some prange := by
  have hlen := readUint32_writeUint32 h.2.2 []
  rw [List.append_nil] at hlen
  rw [Swarm.readBlockReq, WireCmd.prangeDatum, List.append_assoc, readUint32_writeUint32 h.1]
  simp only [Option.bind_eq_bind, Option.bind_some, readUint32_writeUint32 h.2.1, hlen]

/-- The bytes are a length and a payload of that length, in which the receiver reads the
command. -/
theorem exists_payload (packet : Packet nb_piece) (hfits : packet.FieldsFit) :
    ∃ payload, packet.toDatum = writeUint32 payload.length ++ payload ∧
      readCmd nb_piece payload = some packet.received := by
  cases packet with
  | cmd local_pavail bt_cmd size h =>
    cases bt_cmd with
    | keepalive => exact ⟨[], rfl, rfl⟩
    | unauthReq => exact ⟨[0x0], rfl, rfl⟩
    | doauthReq => exact ⟨[0x1], rfl, rfl⟩
    | dowantReq => exact ⟨[0x2], rfl, rfl⟩
    | unwantReq => exact ⟨[0x3], rfl, rfl⟩
    | pieceIsavail piece_idx =>
      refine ⟨0x4 :: writeUint32 piece_idx, rfl, ?_⟩
      have hread := readUint32_writeUint32 hfits []
      rw [List.append_nil] at hread
      rw [readCmd_pieceIsavail, hread]
      rfl
    | pieceBfield =>
      refine ⟨0x5 :: local_pavail.toDatum, ?_, ?_⟩
      · rw [List.length_cons, Bitfield.length_toDatum, Nat.add_comm]
        rfl
      · have hbfield := Pieceavail.btformatFromPkt_toDatum local_pavail
        rw [size] at hbfield
        rw [readCmd_pieceBfield, hbfield]
        rfl
    | blockReq prange =>
      refine ⟨0x6 :: WireCmd.prangeDatum prange, rfl, ?_⟩
      rw [readCmd_blockReq, readBlockReq_prangeDatum hfits]
      rfl
    | blockRep prange => exact absurd h (by simp [WireCmd.isBlockRep])
    | blockDel prange =>
      refine ⟨0x8 :: WireCmd.prangeDatum prange, rfl, ?_⟩
      rw [readCmd_blockDel, readBlockReq_prangeDatum hfits]
      rfl
    | utmsgPayl utmsg_datum =>
      refine ⟨0x14 :: utmsg_datum, ?_, rfl⟩
      rw [List.length_cons, Nat.add_comm]
      rfl
  | blockRep prange read_data h =>
    -- the header is queued, and the data behind it when the io has read it
    refine ⟨0x7 :: (writeUint32 prange.piece_idx ++ (writeUint32 prange.offset ++ read_data)),
      ?_, ?_⟩
    · simp only [toDatum, blockRepDatum, blockRepHeader, SizeT.write, List.length_cons,
        List.length_append, length_writeUint32, List.append_assoc, List.cons_append, WireCmd.cmdtype]
      congr 2
      omega
    · rw [readCmd_blockRep, readUint32_writeUint32 hfits.1, Option.bind_some,
        readUint32_writeUint32 hfits.2.1]
      rfl

end Packet

namespace Receiver

variable {σ : Type*} {rv : Receiver σ} {st : σ} {rest : Datum} {packets : List (Packet rv.nb_piece)}

/-- One whole packet is delivered, and the loop goes on behind it. -/
theorem parseCmds_packet {packet : Packet rv.nb_piece} (h : packet.Sendable rv.recv_cmd_maxlen) :
    rv.parseCmds st (packet.toDatum ++ rest) =
      match rv.parseCmd st packet.received with
      | (st, false) => (st, none)
      | (st, true) => rv.parseCmds st rest := by
  obtain ⟨payload, hdatum, hread⟩ := packet.exists_payload h.fields
  have hlen : packet.getDatumLen = 4 + payload.length := by
    rw [← packet.length_toDatum, hdatum, List.length_append, length_writeUint32]
  have h32 := h.len
  have hmax := h.maxlen
  have hhead : readUint32 (packet.toDatum ++ rest) = some (payload.length, payload ++ rest) := by
    rw [hdatum, List.append_assoc]
    exact readUint32_writeUint32 (by omega) _
  rw [parseCmds_pkt hhead (by omega) (by rw [List.length_append]; omega), List.take_left,
    List.drop_left, hread]

/-- `rest` is the beginning of a packet which is not there as a whole. -/
def Incomplete (rv : Receiver σ) (rest : Datum) : Prop :=
  ∃ packet : Packet rv.nb_piece, packet.Sendable rv.recv_cmd_maxlen ∧
    ∃ tail ≠ [], packet.toDatum = rest ++ tail

/-- Incomplete trailing bytes are left untouched. -/
theorem parseCmds_incomplete (h : rv.Incomplete rest) : rv.parseCmds st rest = (st, some rest) := by
  obtain ⟨packet, hsend, tail, htail, heq⟩ := h
  obtain ⟨payload, hdatum, -⟩ := packet.exists_payload hsend.fields
  have hlen : packet.getDatumLen = 4 + payload.length := by
    rw [← packet.length_toDatum, hdatum, List.length_append, length_writeUint32]
  have h32 := hsend.len
  have hmax := hsend.maxlen
  rcases hhead : readUint32 rest with _ | ⟨cmd_len, rest'⟩
  · exact parseCmds_wait hhead
  · -- the length is there: it is the packet's, and the payload is not all there
    have hwhole : readUint32 packet.toDatum = some (payload.length, payload) := by
      rw [hdatum]
      exact readUint32_writeUint32 (by omega) _
    rw [heq, readUint32_append hhead tail] at hwhole
    obtain ⟨rfl, hpayload⟩ := Prod.mk.inj (Option.some.inj hwhole)
    have hshort : rest'.length < payload.length := by
      rw [← hpayload, List.length_append]
      have := List.length_pos_iff.2 htail
      omega
    exact parseCmds_short hhead (by omega) hshort

/-- The packets of a stream are delivered in their order. -/
theorem parseCmds_packets (hsend : ∀ packet ∈ packets, packet.Sendable rv.recv_cmd_maxlen)
    (hrest : rv.Incomplete rest) (st : σ) :
    rv.parseCmds st (packets.flatMap Packet.toDatum ++ rest) =
      rv.deliver st (packets.map Packet.received) rest := by
  induction packets generalizing st with
  | nil => exact parseCmds_incomplete hrest
  | cons packet packets ih =>
    have ih := ih fun p hp => hsend p (List.mem_cons_of_mem packet hp)
    rw [List.flatMap_cons, List.append_assoc,
      parseCmds_packet (hsend packet (List.mem_cons_self ..)), List.map_cons, deliver]
    rcases rv.parseCmd st packet.received with ⟨st', _ | _⟩
    · rfl
    · exact ih st'

/-- **Wire framing**: the length announced is the one produced, and however the stream of the
packets is cut, they are delivered with their fields, one after the other, and what follows
the last whole one is kept. -/
theorem run_packets (rv : Receiver σ) (packets : List (Packet rv.nb_piece)) (rest : Datum)
    (hsend : ∀ packet ∈ packets, packet.Sendable rv.recv_cmd_maxlen) (hrest : rv.Incomplete rest)
    (r : RecvState σ) (recved_data : Datum) (hdata : r.recved_data = some recved_data)
    (chunks : List Datum) (hchunks : chunks ≠ [])
    (hstream : recved_data ++ chunks.flatten = packets.flatMap Packet.toDatum ++ rest) :
    (∀ packet : Packet rv.nb_piece, packet.toDatum.length = packet.getDatumLen) ∧
      run rv.recv r chunks = rv.delivered r (packets.map Packet.received) rest := by
  refine ⟨Packet.length_toDatum, ?_⟩
  obtain ⟨chunk, chunks, rfl⟩ := List.exists_cons_of_ne_nil hchunks
  rw [List.flatten_cons] at hstream
  rw [run_recv, delivered]
  rcases hopen : rv.opened r with ⟨st, _ | _⟩
  · exact recv_refused hdata hopen
  · rw [recv_kept hdata hopen, hstream, parseCmds_packets hsend hrest]

end Receiver

/-- A receiver which only notes the commands. -/
def noteCmds (recv_cmd_maxlen nb_piece : ℕ) : Receiver (List RecvedCmd) where
  recv_cmd_maxlen
  nb_piece
  notifyCnxOpen cmds := (cmds, true)
  parseCmd cmds cmd := (cmds ++ [cmd], true)
/-- Two pieces, one of them available, a block of two bytes, and an extension message. -/
def samplePackets : List (Packet 2) :=
  [.cmd [true, false] .pieceBfield rfl rfl, .blockRep ⟨1, 0, 2⟩ [7, 8] rfl,
    .cmd [true, false] (.utmsgPayl [9]) rfl rfl]

theorem samplePackets_sendable : ∀ packet ∈ samplePackets, packet.Sendable 64 := by
  intro packet hpacket
  simp only [samplePackets, List.mem_cons, List.not_mem_nil, or_false] at hpacket
  rcases hpacket with rfl | rfl | rfl
  · exact ⟨trivial, by decide, by decide⟩
  · exact ⟨⟨by decide, by decide, by decide⟩, by decide, by decide⟩
  · exact ⟨trivial, by decide, by decide⟩

theorem Receiver.run_packets_sample :
    run (noteCmds 64 2).recv ⟨false, some [], []⟩
      [[0, 0], [0, 2, 5, 0x80, 0, 0, 0], [11, 7, 0, 0, 0, 1, 0, 0, 0],
        [0, 7, 8, 0, 0, 0, 2, 0x14, 9, 0], [], [0, 0]] =
      ⟨true, some [0, 0, 0],
        [.pieceBfield [true, false], .blockRep 1 0 [7, 8], .utmsgPayl [9]]⟩ :=
  (run_packets (noteCmds 64 2) samplePackets [0, 0, 0] samplePackets_sendable
    ⟨.cmd [true, false] .keepalive rfl rfl, ⟨trivial, by decide, by decide⟩, [0], by decide, rfl⟩
    ⟨false, some [], []⟩ [] rfl _ (by decide) rfl).2

/-- `to_datum` does not have the length of a `BLOCK_REP`, and a command which is longer than
`recv_cmd_maxlen`, here the default of the profile, is not delivered. -/
theorem Receiver.not_run_packets :
    ((WireCmd.blockRep ⟨0, 0, 1⟩).toDatum []).length ≠
        (WireCmd.blockRep ⟨0, 0, 1⟩).getDatumLen [] ∧
      run (noteCmds (129 * 1024) 0).recv ⟨true, some [], []⟩
        [(WireCmd.utmsgPayl (List.replicate (129 * 1024) 0)).toDatum []] = ⟨true, none, []⟩ := by
  refine ⟨by decide, ?_⟩
  have hread : readUint32 ([] ++ (WireCmd.utmsgPayl (List.replicate (129 * 1024) 0)).toDatum []) =
      some (1 + 129 * 1024, 0x14 :: List.replicate (129 * 1024) 0) := by
    rw [WireCmd.toDatum, List.nil_append, List.length_replicate]
    exact readUint32_writeUint32 (by decide) _
  rw [run_cons, run_nil, recv_kept rfl rfl, parseCmds_tooLong hread (by decide)]

end Neoip
