/-
Neoip/Swarm.lean

The bittorrent swarm (`bt_swarm_t`): its connections to peers
(`bt_swarm_full_t`), its external connections (`bt_ecnx_vapi_t`), the counters
which `bt_pselect_vapi_t` keeps about what the connections have and wish, and
the scheduler.

`Swarm.step` handles one event.  The handlers are the source's, in its order of
effects: a command is parsed by the connection (`parse_…_cmd`), which updates
itself and then notifies the scheduler.  The bool `tokeep` which the source
passes around is whether the connection is still linked.

A received command is one event, with its bytes.  A `UTMSG_PAYL` command is
seen through what its parsers call: `utmsgSupport` when a handshake adds or
removes an extension, `utmsgPunavail`, and `pwishDoindex`, `pwishNoindex`,
`pwishDofield`, one event for each call.  These calls are only made for an
extension which is supported.

What is decided elsewhere comes with an event as a `SwarmEnv`.  The commands of
requests go to `Sched.sent`; `cmd_queue` has the other ones, and `sendFront`
takes the first one out.
-/
import Neoip.KeyedDb
import Neoip.Sched

namespace Neoip

/-! ### Commands -/

/-- The extensions of `bt_utmsgtype_t` which the connection itself looks at. -/
inductive UtmsgType
  | piecewish
  | punavail
deriving DecidableEq, Repr

/-- `bt_cmd_t`, less the commands of requests. -/
inductive BtCmd
  | keepalive
  | unauthReq
  | doauthReq
  | dowantReq
  | pieceIsavail (piece_idx : ℕ)
  | pieceBfield
  | blockRep (prange : Prange)
  | utmsgPayl (utmsgtype : UtmsgType) (piece_idx : ℕ)
deriving DecidableEq, Repr

def BtCmd.isBlockRep : BtCmd → Bool
  | .blockRep _ => true
  | _ => false

/-- Unserialize a big endian `uint32_t`. -/
def readUint32 : Datum → Option (ℕ × Datum)
  | a :: b :: c :: d :: rest =>
    some (((a.toNat * 256 + b.toNat) * 256 + c.toNat) * 256 + d.toNat, rest)
  | _ => none

/-- Serialize a `uint32_t`, big endian. -/
def writeUint32 (n : ℕ) : Datum :=
  [UInt8.ofNat (n / 2 ^ 24), UInt8.ofNat (n / 2 ^ 16), UInt8.ofNat (n / 2 ^ 8), UInt8.ofNat n]

/-! ### Connections -/

/-- `bt_reqauth_type_t`. -/
inductive ReqauthType
  | none
  | deny
  | coop
  | hope
  | give
  | fstart
  | idle
deriving DecidableEq, Repr

/-- `bt_swarm_full_t`, with its send queue and its `bt_swarm_full_sched_t`, less the
requests. -/
structure SwarmFull where
  local_doauth_req : Bool
  other_doauth_req : Bool
  local_dowant_req : Bool
  other_dowant_req : Bool
  remote_pavail : Pieceavail
  remote_pwish : Bitfield
  notified_as_open : Bool
  /-- The extensions which both ends support, those with a `bt_utmsg_cnx_vapi_t`. -/
  cnx_vapi_db : List UtmsgType
  reqauth_type : ReqauthType
  cmd_queue : List BtCmd

namespace SwarmFull

/-- The state after `bt_swarm_full_t::start`. -/
def start (m : Mfile) : SwarmFull where
  local_doauth_req := false
  other_doauth_req := false
  local_dowant_req := false
  other_dowant_req := false
  remote_pavail := Bitfield.ofSize m.nb_piece
  remote_pwish := (Bitfield.ofSize m.nb_piece).compl
  notified_as_open := false
  cnx_vapi_db := []
  reqauth_type := .deny
  cmd_queue := []

/-- `do_support`. -/
def doSupport (w : SwarmFull) (utmsgtype : UtmsgType) : Bool := w.cnx_vapi_db.contains utmsgtype

/-- `no_support`. -/
def noSupport (w : SwarmFull) (utmsgtype : UtmsgType) : Bool := !w.doSupport utmsgtype

/-- `send_cmd`. -/
def sendCmd (w : SwarmFull) (bt_cmd : BtCmd) : SwarmFull :=
  { w with cmd_queue := w.cmd_queue ++ [bt_cmd] }

/-- `remove_all_block_rep`. -/
def removeAllBlockRep (w : SwarmFull) : SwarmFull :=
  { w with cmd_queue := w.cmd_queue.filter fun bt_cmd => !bt_cmd.isBlockRep }

/-- `set_doauth_req`. -/
def setDoauthReq (w : SwarmFull) (new_value : Bool) : SwarmFull :=
  if w.local_doauth_req = new_value then w
  else
    let w := { w with local_doauth_req := new_value }
    let w := w.sendCmd (if new_value then .doauthReq else .unauthReq)
    if !w.local_doauth_req then w.removeAllBlockRep else w

/-- `sync_doauth_req_cmd`. -/
def syncDoauthReqCmd (w : SwarmFull) : SwarmFull :=
  match w.reqauth_type with
  | .deny => w.setDoauthReq false
  | _ => w.setDoauthReq true

/-- `declare_piece_newly_avail`. -/
def declarePieceNewlyAvail (cfg : SwarmCfg) (piece_idx : ℕ) (w : SwarmFull) : SwarmFull :=
  if cfg.no_redundant_have && w.remote_pavail.isAvail piece_idx then w
  else w.sendCmd (.pieceIsavail piece_idx)

/-- The start of a supported extension: `bt_utmsg_piecewish_cnx_t` sends the local wish. -/
def cnxVapiCtor (utmsgtype : UtmsgType) (w : SwarmFull) : SwarmFull :=
  if w.doSupport utmsgtype then w
  else
    let w := { w with cnx_vapi_db := utmsgtype :: w.cnx_vapi_db }
    if utmsgtype = .piecewish then w.sendCmd (.utmsgPayl .piecewish 0) else w

/-- The extension is disabled by a handshake. -/
def cnxVapiDtor (utmsgtype : UtmsgType) (w : SwarmFull) : SwarmFull :=
  { w with cnx_vapi_db := w.cnx_vapi_db.filter fun u => u ≠ utmsgtype }

end SwarmFull

/-! ### The swarm -/

/-- What is decided outside of the swarm while it handles one event. -/
structure SwarmEnv (cfg : SwarmCfg) extends SelectEnv cfg where
  /-- `peerpick_update`: the authorisation each connection gets, if it is changed. -/
  peerpick : ℕ → Option ReqauthType

/-- `bt_swarm_t`. -/
structure Swarm where
  full_db : KeyedDb ℕ SwarmFull
  /-- The external connections by slot id, with their `remote_pavail`. -/
  ecnx_vapi_db : KeyedDb ℕ Pieceavail
  /-- For each piece, the connections which have it: `bt_pselect_vapi_t::remote_pfreq`. -/
  remote_pfreq : Bitcount
  /-- For each piece, the peers which wish it. -/
  remote_pwish : Bitcount
  sched : Sched

namespace Swarm

/-- `bt_swarm_t::start`. -/
def start (cfg : SwarmCfg) (pieceavail_local : Pieceavail)
    (partavail_piece_inval : FileSizeInval) : Swarm where
  full_db := .empty
  ecnx_vapi_db := .empty
  remote_pfreq := Bitcount.ofSize cfg.mfile.nb_piece
  remote_pwish := Bitcount.ofSize cfg.mfile.nb_piece
  sched := Sched.start cfg pieceavail_local partavail_piece_inval

variable {cfg : SwarmCfg} (env : SwarmEnv cfg)

abbrev local_pavail (s : Swarm) : Pieceavail := s.sched.local_pavail

/-- `is_seed`. -/
def isSeed (s : Swarm) : Bool := s.local_pavail.isFullyAvail

def updateFull (s : Swarm) (id : ℕ) (f : SwarmFull → SwarmFull) : Swarm :=
  { s with full_db := s.full_db.modify id f }

def updateSched (s : Swarm) (f : Sched → Sched) : Swarm := { s with sched := f s.sched }

/-- How the scheduler sees a connection. -/
def fullView (id : ℕ) (w : SwarmFull) : CnxView := ⟨.full id, w.other_doauth_req, w.remote_pavail⟩

def ecnxView (slot : ℕ) (remote_pavail : Pieceavail) : CnxView := ⟨.ecnx slot, true, remote_pavail⟩

/-- The order of the walk of `try_send_request_on_idle_cnx`. -/
def cnxViews (s : Swarm) : List CnxView :=
  s.ecnx_vapi_db.item.map (fun x => ecnxView x.1 x.2) ++
    s.full_db.item.map fun x => fullView x.1 x.2

/-- `try_send_request` on a peer. -/
def trySendRequest (s : Swarm) (id : ℕ) : Swarm :=
  match s.full_db.get id with
  | none => s
  | some w => s.updateSched fun sched => sched.trySendRequest env.toSelectEnv (fullView id w)

/-- `peer_select_update`. -/
def peerSelectUpdate (s : Swarm) : Swarm :=
  { s with
    full_db := s.full_db.mapAll fun id w =>
      match env.peerpick id with
      | none => w
      | some reqauth_type => { w with reqauth_type }.syncDoauthReqCmd }

/-- `parse_cnx_closed`.  The connection is still linked. -/
def parseCnxClosed (s : Swarm) (id : ℕ) (w : SwarmFull) : Swarm :=
  let s := { s with
    remote_pfreq := s.remote_pfreq.decField w.remote_pavail
    remote_pwish := s.remote_pwish.decField w.remote_pwish }
  let s := s.updateSched fun sched =>
    sched.redistribute env.toSelectEnv (.full id) s.cnxViews
  if w.reqauth_type ≠ .deny then
    let s := s.updateFull id fun w => { w with reqauth_type := .none }
    (s.peerSelectUpdate env).updateFull id SwarmFull.syncDoauthReqCmd
  else s

/-- `autodelete`: the destructor of the connection. -/
def autodelete (s : Swarm) (id : ℕ) : Swarm :=
  match s.full_db.get id with
  | none => s
  | some w =>
    let s := if w.notified_as_open then s.parseCnxClosed env id w else s
    let s := { s with full_db := s.full_db.erase id }
    s.updateSched fun sched => sched.deleteRequests (.full id)

/-- The end of `parse_piece_isavail_cmd` and `parse_piece_bfield_cmd`: two seeds close. -/
def closeIfSeeds (s : Swarm) (id : ℕ) : Swarm :=
  if s.isSeed && (s.full_db.get id).any fun w => w.remote_pavail.isFullyAvail then
    s.autodelete env id
  else s

/-- `notify_cnx_open`, and the scheduler's `parse_cnx_opened`. -/
def notifyCnxOpen (s : Swarm) (id : ℕ) : Swarm :=
  match s.full_db.get id with
  | none => s
  | some w =>
    if w.notified_as_open then s
    else
      let s := s.updateFull id fun w => { w.sendCmd .pieceBfield with notified_as_open := true }
      { s with remote_pwish := s.remote_pwish.incField w.remote_pwish }

/-! ### Notifications of the extensions -/

/-- `notify_utmsg_dowish_index`. -/
def notifyUtmsgDowishIndex (s : Swarm) (id pieceidx : ℕ) : Swarm :=
  match s.full_db.get id with
  | none => s
  | some w =>
    if w.remote_pavail.isAvail pieceidx then s.autodelete env id
    else
      let s := s.updateFull id fun w => { w with remote_pwish := w.remote_pwish.set pieceidx }
      { s with remote_pwish := s.remote_pwish.inc pieceidx }

/-- `notify_utmsg_nowish_index`. -/
def notifyUtmsgNowishIndex (s : Swarm) (id pieceidx : ℕ) : Swarm :=
  match s.full_db.get id with
  | none => s
  | some _ =>
    let s := s.updateFull id fun w => { w with remote_pwish := w.remote_pwish.clear pieceidx }
    { s with remote_pwish := s.remote_pwish.dec pieceidx }

/-- `notify_utmsg_dowish_field`. -/
def notifyUtmsgDowishField (s : Swarm) (id : ℕ) (new_remote_pwish : Bitfield) : Swarm :=
  match s.full_db.get id with
  | none => s
  | some w =>
    if (Bitfield.and w.remote_pavail new_remote_pwish).isAnySet then s.autodelete env id
    else
      let s := s.updateFull id fun w => { w with remote_pwish := new_remote_pwish }
      { s with
        remote_pwish := (s.remote_pwish.decField w.remote_pwish).incField new_remote_pwish }

/-- `bt_utmsg_piecewish_cnx_t::parse_dowish_field`. -/
def parseDowishField (s : Swarm) (id : ℕ) (field_datum : Datum) : Swarm :=
  let remote_pwish := Bitfield.fromDatum field_datum cfg.mfile.nb_piece
  if remote_pwish = [] then s else s.notifyUtmsgDowishField env id remote_pwish

/-- `notify_utmsg_punavail`, and the scheduler's `parse_piece_unavail`. -/
def notifyUtmsgPunavail (s : Swarm) (id pieceidx : ℕ) : Swarm :=
  match s.full_db.get id with
  | none => s
  | some w =>
    if pieceidx ≥ w.remote_pavail.nb_piece then s.autodelete env id
    else if w.remote_pavail.isUnavail pieceidx then s
    else
      let w := { w with remote_pavail := w.remote_pavail.markUnavail pieceidx }
      let s := s.updateFull id fun _ => w
      let s := { s with remote_pfreq := s.remote_pfreq.dec pieceidx }
      let s := s.updateSched fun sched =>
        sched.parsePieceUnavail env.toSelectEnv (fullView id w) pieceidx
      if w.noSupport .piecewish then s.notifyUtmsgDowishIndex env id pieceidx else s

/-! ### Commands received -/

/-- `parse_doauth_req_cmd`. -/
def parseDoauthReqCmd (s : Swarm) (id : ℕ) : Swarm :=
  let s := s.updateFull id fun w => { w with other_doauth_req := true }
  s.trySendRequest env id

/-- `parse_unauth_req_cmd`. -/
def parseUnauthReqCmd (s : Swarm) (id : ℕ) : Swarm :=
  match s.full_db.get id with
  | none => s
  | some _ =>
    let s := s.updateFull id fun w => { w with other_doauth_req := false }
    s.updateSched fun sched => sched.redistribute env.toSelectEnv (.full id) s.cnxViews

/-- `parse_dowant_req_cmd`. -/
def parseDowantReqCmd (s : Swarm) (id : ℕ) : Swarm :=
  match s.full_db.get id with
  | none => s
  | some _ =>
    let s := s.updateFull id fun w => { w with other_dowant_req := true }
    s.peerSelectUpdate env

/-- `parse_unwant_req_cmd`. -/
def parseUnwantReqCmd (s : Swarm) (id : ℕ) : Swarm :=
  s.updateFull id fun w => { w with other_dowant_req := false }

/-- The local peer gets interested, if it was not and the connection has something new. -/
def becomeInterested (s : Swarm) (id : ℕ) (something_new : Bool) : Swarm :=
  s.updateFull id fun w =>
    if something_new && !w.local_dowant_req then
      { w with local_dowant_req := true }.sendCmd .dowantReq
    else w

/-- `parse_piece_isavail_cmd`. -/
def parsePieceIsavailCmd (s : Swarm) (id : ℕ) (pkt : Datum) : Swarm :=
  match s.full_db.get id with
  | none => s
  | some w =>
    match readUint32 pkt with
    | none => s.autodelete env id
    | some (piece_idx, _) =>
      if piece_idx ≥ w.remote_pavail.nb_piece then s.autodelete env id
      else if w.remote_pavail.isAvail piece_idx then s
      else
        let s := s.becomeInterested id (s.local_pavail.isUnavail piece_idx)
        let s := if w.noSupport .piecewish then s.notifyUtmsgNowishIndex id piece_idx else s
        let s := s.updateFull id fun w =>
          { w with remote_pavail := w.remote_pavail.markIsavail piece_idx }
        let s := { s with remote_pfreq := s.remote_pfreq.inc piece_idx }
        (s.trySendRequest env id).closeIfSeeds env id

/-- `parse_piece_bfield_cmd`. -/
def parsePieceBfieldCmd (s : Swarm) (id : ℕ) (pkt : Datum) : Swarm :=
  match s.full_db.get id with
  | none => s
  | some w =>
    match Pieceavail.btformatFromPkt pkt cfg.mfile.nb_piece with
    | none => s.autodelete env id
    | some remote_pavail =>
      let s := s.updateFull id fun w => { w with remote_pavail := remote_pavail }
      let s := s.becomeInterested id (!Bitfield.fullyContain s.local_pavail remote_pavail)
      let s := { s with remote_pfreq := s.remote_pfreq.incField remote_pavail }
      let s := s.trySendRequest env id
      let s := if w.noSupport .piecewish then
        s.notifyUtmsgDowishField env id (Bitfield.compl remote_pavail) else s
      s.closeIfSeeds env id

/-- `parse_block_req`.  The sum is made on two `uint32_t`. -/
def parseBlockReq (s : Swarm) (id : ℕ) (pkt : Datum) : Swarm :=
  match s.full_db.get id with
  | none => s
  | some w =>
    match (do
      let (piece_idx, pkt) ← readUint32 pkt
      let (data_offset, pkt) ← readUint32 pkt
      let (data_len, _) ← readUint32 pkt
      some (Prange.mk piece_idx data_offset data_len)) with
    | none => s.autodelete env id
    | some ⟨piece_idx, data_offset, data_len⟩ =>
      if piece_idx ≥ cfg.mfile.nb_piece then s.autodelete env id
      else if (data_offset + data_len) % 2 ^ 32 > cfg.mfile.piecelen then s.autodelete env id
      else if data_len > cfg.recv_req_maxlen then s.autodelete env id
      else if s.local_pavail.isUnavail piece_idx then s.autodelete env id
      else if !w.local_doauth_req then s
      else s.updateFull id fun w => w.sendCmd (.blockRep ⟨piece_idx, data_offset, data_len⟩)

/-- `parse_block_rep`: the data is what remains of the packet. -/
def parseBlockRep (s : Swarm) (id : ℕ) (pkt : Datum) : Swarm :=
  match s.full_db.get id with
  | none => s
  | some w =>
    match (do
      let (piece_idx, pkt) ← readUint32 pkt
      let (data_offset, pkt) ← readUint32 pkt
      some (Prange.mk piece_idx data_offset pkt.length)) with
    | none => s.autodelete env id
    | some prange =>
      if prange.piece_idx ≥ cfg.mfile.nb_piece then s.autodelete env id
      else if prange.offset + prange.length > cfg.mfile.piecelen then s.autodelete env id
      else
        match prange.toTotfileRange cfg.mfile with
        | none => s.autodelete env id
        | some totfile_range =>
          if !s.sched.hasMatchingRequest (.full id) totfile_range then s
          else s.updateSched fun sched => sched.parseBlockRep env.toSelectEnv
            (fullView id w) prange.piece_idx totfile_range.beg

/-- `parse_block_del`. -/
def parseBlockDel (s : Swarm) (id : ℕ) (pkt : Datum) : Swarm :=
  match (do
    let (piece_idx, pkt) ← readUint32 pkt
    let (data_offset, pkt) ← readUint32 pkt
    let (data_len, _) ← readUint32 pkt
    some (Prange.mk piece_idx data_offset data_len)) with
  | none => s.autodelete env id
  | some prange =>
    s.updateFull id fun w => { w with cmd_queue := w.cmd_queue.erase (.blockRep prange) }

/-- `parse_recved_cmd`: a keepalive has no byte; unknown commands are ignored. -/
def parseRecvedCmd (s : Swarm) (id : ℕ) : Datum → Swarm
  | [] => s
  | cmdtype :: pkt =>
    match cmdtype.toNat with
    | 0x0 => s.parseUnauthReqCmd env id
    | 0x1 => s.parseDoauthReqCmd env id
    | 0x2 => s.parseDowantReqCmd env id
    | 0x3 => s.parseUnwantReqCmd id
    | 0x4 => s.parsePieceIsavailCmd env id pkt
    | 0x5 => s.parsePieceBfieldCmd env id pkt
    | 0x6 => s.parseBlockReq env id pkt
    | 0x7 => s.parseBlockRep env id pkt
    | 0x8 => s.parseBlockDel env id pkt
    | _ => s

/-! ### The local pieces -/

/-- `declare_piece_newly_avail`. -/
def declarePieceNewlyAvail (cfg : SwarmCfg) (s : Swarm) (piece_idx : ℕ) : Swarm :=
  let s := s.updateSched fun sched =>
    { sched with local_pavail := sched.local_pavail.markIsavail piece_idx }
  { s with full_db := s.full_db.mapAll fun _ w => w.declarePieceNewlyAvail cfg piece_idx }

/-- `bt_swarm_full_t::declare_piece_nomore_avail`: the connection is closed if it waits
for data of the piece. -/
def fullDeclarePieceNomoreAvail (piece_idx : ℕ) (s : Swarm) (id : ℕ) : Swarm :=
  match s.full_db.get id with
  | none => s
  | some w =>
    let pending := w.cmd_queue.any fun bt_cmd =>
      match bt_cmd with
      | .blockRep prange => prange.piece_idx == piece_idx
      | _ => false
    if pending then s.autodelete env id
    else if w.doSupport .punavail then
      s.updateFull id fun w => w.sendCmd (.utmsgPayl .punavail piece_idx)
    else s

/-- `declare_piece_nomore_avail`. -/
def declarePieceNomoreAvail (s : Swarm) (piece_idx : ℕ) : Swarm :=
  let s := s.updateSched fun sched =>
    { sched with local_pavail := sched.local_pavail.markUnavail piece_idx }
  (s.full_db.item.map Prod.fst).foldl (fullDeclarePieceNomoreAvail env piece_idx) s

/-- The end of the check of a downloaded piece. -/
def pieceChecked (cfg : SwarmCfg) (s : Swarm) (piece_idx : ℕ) (hash_ok : Bool) : Swarm :=
  if (s.sched.piece.obj piece_idx).any SchedPiece.post_process then
    let s := s.updateSched fun sched => sched.pieceChecked piece_idx
    if hash_ok || !cfg.mfile.do_piecehash then s.declarePieceNewlyAvail cfg piece_idx else s
  else s

/-! ### External connections -/

def parseEcnxOpened (s : Swarm) (slot : ℕ) (remote_pavail : Pieceavail) : Swarm :=
  match s.ecnx_vapi_db.get slot with
  | some _ => s
  | none =>
    let s := { s with
      ecnx_vapi_db := s.ecnx_vapi_db.link (fun k => k < slot) slot remote_pavail
      remote_pfreq := s.remote_pfreq.incField remote_pavail }
    s.updateSched fun sched => sched.trySendRequest env.toSelectEnv (ecnxView slot remote_pavail)

/-- The destructor of an external connection deletes its requests first; the
scheduler then unlinks it before it tries the others. -/
def parseEcnxClosed (s : Swarm) (slot : ℕ) : Swarm :=
  match s.ecnx_vapi_db.get slot with
  | none => s
  | some remote_pavail =>
    let s := s.updateSched fun sched => sched.deleteRequests (.ecnx slot)
    let s := { s with
      ecnx_vapi_db := s.ecnx_vapi_db.erase slot
      remote_pfreq := s.remote_pfreq.decField remote_pavail }
    s.updateSched fun sched => sched.trySendRequestOnIdleCnx env.toSelectEnv s.cnxViews

/-- `parse_block_rep`: the data of a request, or none for an empty notification. -/
def parseEcnxBlockRep (s : Swarm) (slot : ℕ) (sched_req : Option (ℕ × ℕ)) : Swarm :=
  match s.ecnx_vapi_db.get slot with
  | none => s
  | some remote_pavail =>
    match sched_req with
    | some req =>
      if req ∈ s.sched.request_db (.ecnx slot) then
        s.updateSched fun sched => sched.blockNotifyComplete (.ecnx slot) req.1 req.2
      else s
    | none => s.updateSched fun sched =>
      sched.trySendRequest env.toSelectEnv (ecnxView slot remote_pavail)

/-! ### Events -/

/-- `REQAUTH_TIMEDOUT`. -/
def parseReqauthTimedout (s : Swarm) (id : ℕ) : Swarm :=
  match s.full_db.get id with
  | none => s
  | some _ =>
    let s := s.updateFull id fun w => { w with reqauth_type := .deny }
    (s.peerSelectUpdate env).updateFull id SwarmFull.syncDoauthReqCmd

end Swarm

/-- The messages of the peers, the calls of the user and the timers. -/
inductive SwarmEvent (cfg : SwarmCfg)
  /-- A connection starts, after the handshake of the protocol. -/
  | fullStart (id : ℕ)
  /-- `first_parse_zerotimer`. -/
  | firstParse (id : ℕ)
  /-- One whole command was received. -/
  | recvedCmd (env : SwarmEnv cfg) (id : ℕ) (pkt : Datum)
  /-- The socket is closed, or `idle_timeout` expires. -/
  | fullClosed (env : SwarmEnv cfg) (id : ℕ)
  | reqauthTimedout (env : SwarmEnv cfg) (id : ℕ)
  | utmsgSupport (id : ℕ) (utmsgtype : UtmsgType) (support : Bool)
  | utmsgPunavail (env : SwarmEnv cfg) (id pieceidx : ℕ)
  | pwishDoindex (env : SwarmEnv cfg) (id pieceidx : ℕ)
  | pwishNoindex (id pieceidx : ℕ)
  | pwishDofield (env : SwarmEnv cfg) (id : ℕ) (field_datum : Datum)
  | sendFront (id : ℕ)
  | requestTimeout (cnx : CnxId) (piece_idx totfile_beg : ℕ)
  | ioWriteDone (piece_idx totfile_beg : ℕ)
  | pieceChecked (piece_idx : ℕ) (hash_ok : Bool)
  | declarePieceNewlyAvail (piece_idx : ℕ)
  | declarePieceNomoreAvail (env : SwarmEnv cfg) (piece_idx : ℕ)
  | notifyPieceprecChange (env : SwarmEnv cfg)
  /-- An external connection opens; it has a bit for each piece. -/
  | ecnxOpened (env : SwarmEnv cfg) (slot : ℕ) (remote_pavail : Pieceavail)
      (size : List.length remote_pavail = cfg.mfile.nb_piece)
  | ecnxClosed (env : SwarmEnv cfg) (slot : ℕ)
  | ecnxBlockRep (env : SwarmEnv cfg) (slot : ℕ) (sched_req : Option (ℕ × ℕ))

namespace Swarm

variable {cfg : SwarmCfg}

/-- A `UTMSG_PAYL` command: `f`, when the connection supports the extension. -/
def whenSupported (s : Swarm) (id : ℕ) (utmsgtype : UtmsgType) (f : Swarm → Swarm) : Swarm :=
  let s := s.notifyCnxOpen id
  if (s.full_db.get id).any fun w => w.doSupport utmsgtype then f s else s

/-- Handle one event.  A connection notifies that it is open before it parses anything. -/
def step (s : Swarm) : SwarmEvent cfg → Swarm
  | .fullStart id => { s with full_db := s.full_db.push id (SwarmFull.start cfg.mfile) }
  | .firstParse id => s.notifyCnxOpen id
  | .recvedCmd env id pkt =>
    let s := s.notifyCnxOpen id
    if pkt.length > cfg.recv_cmd_maxlen then s.autodelete env id
    else s.parseRecvedCmd env id pkt
  | .fullClosed env id => s.autodelete env id
  | .reqauthTimedout env id => s.parseReqauthTimedout env id
  | .utmsgSupport id utmsgtype support =>
    (s.notifyCnxOpen id).updateFull id <|
      if support then SwarmFull.cnxVapiCtor utmsgtype else SwarmFull.cnxVapiDtor utmsgtype
  | .utmsgPunavail env id pieceidx =>
    s.whenSupported id .punavail fun s => s.notifyUtmsgPunavail env id pieceidx
  | .pwishDoindex env id pieceidx =>
    s.whenSupported id .piecewish fun s => s.notifyUtmsgDowishIndex env id pieceidx
  | .pwishNoindex id pieceidx =>
    s.whenSupported id .piecewish fun s => s.notifyUtmsgNowishIndex id pieceidx
  | .pwishDofield env id field_datum =>
    s.whenSupported id .piecewish fun s => s.parseDowishField env id field_datum
  | .sendFront id => s.updateFull id fun w => { w with cmd_queue := w.cmd_queue.tail }
  | .requestTimeout cnx piece_idx totfile_beg =>
    s.updateSched fun sched => sched.requestExpire cnx piece_idx totfile_beg
  | .ioWriteDone piece_idx totfile_beg =>
    s.updateSched fun sched => sched.ioWriteDone piece_idx totfile_beg
  | .pieceChecked piece_idx hash_ok => s.pieceChecked cfg piece_idx hash_ok
  | .declarePieceNewlyAvail piece_idx => s.declarePieceNewlyAvail cfg piece_idx
  | .declarePieceNomoreAvail env piece_idx => s.declarePieceNomoreAvail env piece_idx
  | .notifyPieceprecChange env =>
    s.updateSched fun sched => sched.notifyPieceprecChange env.toSelectEnv s.cnxViews
  | .ecnxOpened env slot remote_pavail _ => s.parseEcnxOpened env slot remote_pavail
  | .ecnxClosed env slot => s.parseEcnxClosed env slot
  | .ecnxBlockRep env slot sched_req => s.parseEcnxBlockRep env slot sched_req

end Swarm

/-! ### A small swarm -/

/-- A file of seven bytes, in a piece of four and one of three. -/
def sampleCfg : SwarmCfg where
  mfile := ⟨7, 4, true, by decide⟩
  xmit_req_maxlen := 2
  recv_req_maxlen := 4
  recv_cmd_maxlen := 64
  seq_pselect_ifequ := false
  no_redundant_have := false
  xmit_req_maxlen_pos := Nat.two_pos

/-- The first piece which may be selected, two requests on each connection, and no change
of the authorisations. -/
def sampleEnv : SwarmEnv sampleCfg where
  pieceprec _ := 1
  next_piece_to_select pdling pavail remote _ := (List.range sampleCfg.mfile.nb_piece).find?
    fun idx => !pdling.get idx && pavail.isUnavail idx && remote.isAvail idx
  req_queue_maxlen _ := 4
  sound h := by
    have hlt := List.mem_of_find?_eq_some h
    have hall := List.find?_some h
    simp only [Bool.and_eq_true, Bool.not_eq_true'] at hall
    exact ⟨List.mem_range.1 hlt, hall.1.1, hall.1.2, hall.2⟩
  peerpick _ := none

end Neoip
