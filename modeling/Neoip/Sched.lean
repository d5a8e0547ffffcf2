/-
Neoip/Sched.lean

The bittorrent scheduler (`bt_swarm_sched_t`, with its `bt_swarm_sched_full_t`
and `bt_swarm_sched_ecnx_t`) and its requests (`bt_swarm_sched_request_t`).

A request links a connection and a block.  It is known by the connection, the
index of its piece and the first byte of its block: `request_db` is what each
connection holds, and a block holds the connections of its requests.  The
source keeps requests in sets ordered by address; they are listed in the order
of creation here, and nothing depends on the order.

`piece` holds the scheduled pieces, with `piece_do_needreq_db` and
`piece_no_needreq_db`.  `local_pdling` and `local_pavail` are the part of
`bt_pselect_vapi_t` that the scheduler writes.

What is decided elsewhere comes with each event as a `SelectEnv`: the pieces
which `bt_pselect_vapi_t` selects (its source only selects a piece that is
neither being downloaded nor available, and that the connection has), their
precedence, and the length of the request queue of each connection, which the
source computes from its measured rate.  Timeout delays and statistics are
left out.
-/
import Neoip.Bitfield
import Neoip.SchedPiece

namespace Neoip

/-! ### Parameters -/

/-- The shared file and the part of the profiles that the swarm reads. -/
structure SwarmCfg where
  mfile : Mfile
  xmit_req_maxlen : ℕ
  recv_req_maxlen : ℕ
  recv_cmd_maxlen : ℕ
  seq_pselect_ifequ : Bool
  no_redundant_have : Bool
  xmit_req_maxlen_pos : 0 < xmit_req_maxlen

/-- `bt_pieceprec_t::NOTNEEDED`. -/
def pieceprecNotneeded : ℕ := 0

/-- What the scheduler asks `bt_pselect_vapi_t` and the rate of the connections for,
while it handles one event. -/
structure SelectEnv (cfg : SwarmCfg) where
  pieceprec : ℕ → ℕ
  /-- `next_piece_to_select`, given `local_pdling`, `local_pavail`, the pieces of the connection
  and the hint. -/
  next_piece_to_select : Bitfield → Pieceavail → Pieceavail → Option ℕ → Option ℕ
  /-- `req_queue_maxlen()` of each connection. -/
  req_queue_maxlen : CnxId → ℕ
  sound : ∀ {pdling pavail remote hint idx},
    next_piece_to_select pdling pavail remote hint = some idx →
      idx < cfg.mfile.nb_piece ∧ pdling.get idx = false ∧ pavail.isUnavail idx = true ∧
        remote.isAvail idx = true

/-- What the scheduler reads of a connection.  `other_doauth_req` is true for a
`bt_ecnx_vapi_t`, which needs no authorisation. -/
structure CnxView where
  cnx : CnxId
  other_doauth_req : Bool
  remote_pavail : Pieceavail

/-- What a request makes its connection send. -/
inductive ReqCmd
  | blockReq (piece_idx totfile_beg : ℕ)
  | blockDel (piece_idx totfile_beg : ℕ)
deriving DecidableEq, Repr

/-- `bt_swarm_sched_full_t`. -/
structure Sched where
  piece : StateDb ℕ SchedPiece.state_cur
  next_pidx_hint : Option ℕ
  /-- The requests of each connection: index of the piece, first byte of the block. -/
  request_db : CnxId → List (ℕ × ℕ)
  local_pdling : Bitfield
  local_pavail : Pieceavail
  /-- What was sent for the requests, the last at the end. -/
  sent : List (CnxId × ReqCmd)

namespace Sched

variable (cfg : SwarmCfg)

abbrev piece_do_needreq_db (s : Sched) : List ℕ := s.piece.db .doNeedreq

abbrev piece_no_needreq_db (s : Sched) : List ℕ := s.piece.db .noNeedreq

/-- The block of the piece `idx` under `beg`. -/
def blk (s : Sched) (idx beg : ℕ) : Option SchedBlock :=
  (s.piece.obj idx).bind fun p => p.block.obj beg

def nbPendingRequest (s : Sched) (cnx : CnxId) : ℕ := (s.request_db cnx).length

/-- Do `f` to the piece `idx`; the scheduler lists it again by its state. -/
def updatePiece (s : Sched) (idx : ℕ) (f : SchedPiece → SchedPiece) : Sched :=
  { s with piece := s.piece.update idx f }

def updateBlock (s : Sched) (idx beg : ℕ) (f : SchedBlock → SchedBlock) : Sched :=
  s.updatePiece idx fun p => p.updateBlock beg f

def send (s : Sched) (cnx : CnxId) (cmd : ReqCmd) : Sched := { s with sent := s.sent ++ [(cnx, cmd)] }

def setRequestDb (s : Sched) (cnx : CnxId) (l : List (ℕ × ℕ)) : Sched :=
  { s with request_db := fun c => if c = cnx then l else s.request_db c }

/-! ### `bt_swarm_sched_request_t` -/

/-- The constructor: the request is pending, and sent. -/
def requestCtor (s : Sched) (cnx : CnxId) (idx beg : ℕ) : Sched :=
  let s := s.updateBlock idx beg fun b => b.pendingReqDolink cnx
  let s := s.setRequestDb cnx (s.request_db cnx ++ [(idx, beg)])
  s.send cnx (.blockReq idx beg)

/-- The destructor: the request leaves its block, then its connection (`sched_req_unlink`). -/
def requestDtor (s : Sched) (cnx : CnxId) (idx beg : ℕ) : Sched :=
  let s := s.updateBlock idx beg fun b => b.reqUnlink cnx
  s.setRequestDb cnx ((s.request_db cnx).erase (idx, beg))

/-- `neoip_timeout_expire_cb`: only a pending request has its timeout running. -/
def requestExpire (s : Sched) (cnx : CnxId) (idx beg : ℕ) : Sched :=
  if (s.blk idx beg).any fun b => b.pending_req_db.contains cnx then
    let s := s.updateBlock idx beg fun b => b.pendingReqUnlink cnx
    s.updateBlock idx beg fun b => b.expiredReqDolink cnx
  else s

/-- `notify_complete_from`: a request of another connection is cancelled first. -/
def requestNotifyComplete (s : Sched) (from_cnx cnx : CnxId) (idx beg : ℕ) : Sched :=
  let s := if cnx ≠ from_cnx then s.send cnx (.blockDel idx beg) else s
  s.requestDtor cnx idx beg

/-- `while( !request_db.empty() ) nipmem_delete *request_db.begin();` -/
def deleteRequests (s : Sched) (cnx : CnxId) : Sched :=
  (s.request_db cnx).foldl (fun s r => s.requestDtor cnx r.1 r.2) s

/-- The loop of `parse_piece_unavail` over `request_by_pieceidx`. -/
def deleteRequestsOfPiece (s : Sched) (cnx : CnxId) (idx : ℕ) : Sched :=
  ((s.request_db cnx).filter fun r => r.1 = idx).foldl (fun s r => s.requestDtor cnx r.1 r.2) s

/-- `has_matching_request`: the connection holds a request of exactly this range. -/
def hasMatchingRequest (s : Sched) (cnx : CnxId) (totfile_range : FileRange) : Bool :=
  (s.request_db cnx).any fun r => (s.blk r.1 r.2).any fun b => b.totfile_range = totfile_range

/-! ### Blocks and pieces in the scheduler -/

/-- `bt_swarm_sched_block_t::notify_complete_from`. -/
def blockNotifyComplete (s : Sched) (from_cnx : CnxId) (idx beg : ℕ) : Sched :=
  match s.blk idx beg with
  | none => s
  | some b =>
    let s := b.pending_req_db.foldl (fun s c => s.requestNotifyComplete from_cnx c idx beg) s
    let s := b.expired_req_db.foldl (fun s c => s.requestNotifyComplete from_cnx c idx beg) s
    s.updateBlock idx beg SchedBlock.launchIoWrite

/-- The destructor of a block. -/
def blockDtor (s : Sched) (idx beg : ℕ) : Sched :=
  match s.blk idx beg with
  | none => s
  | some b =>
    let s := b.pending_req_db.foldl (fun s c => s.requestDtor c idx beg) s
    let s := b.expired_req_db.foldl (fun s c => s.requestDtor c idx beg) s
    s.updatePiece idx fun p => p.eraseBlock beg

/-- `neoip_bt_io_write_cb` of a write which succeeded. -/
def ioWriteDone (s : Sched) (idx beg : ℕ) : Sched :=
  if (s.blk idx beg).any SchedBlock.bt_io_write then
    let s := s.updatePiece idx fun p => p.blockWritten beg
    s.blockDtor idx beg
  else s

/-- The constructor of a piece. -/
def pieceCtor (s : Sched) (idx : ℕ) (isavail_inval : FileSizeInval) : Sched :=
  { s with
    local_pdling := s.local_pdling.set idx
    piece := s.piece.set idx (SchedPiece.ctor cfg.mfile idx isavail_inval) }

/-- The blocks of the piece `idx` which are in the state `q`. -/
def blockDb (s : Sched) (idx : ℕ) (q : ReqState) : List ℕ :=
  ((s.piece.obj idx).map fun p => p.block.db q).getD []

/-- The destructor of a piece. -/
def pieceDtor (s : Sched) (idx : ℕ) : Sched :=
  let s := { s with local_pdling := s.local_pdling.clear idx }
  let s := (s.blockDb idx .doNeedreq).foldl (fun s beg => s.blockDtor idx beg) s
  let s := (s.blockDb idx .noNeedreq).foldl (fun s beg => s.blockDtor idx beg) s
  { s with piece := s.piece.erase idx }

/-- `partavail_piece_ctor`: one piece for each piece index that `current_inval` meets. -/
def partavailPieceCtor : ℕ → Sched → FileSizeInval → Sched
  | 0, s, _ => s
  | fuel + 1, s, current_inval =>
    match current_inval.first? with
    | none => s
    | some item =>
      let piece_idx := totfileToPieceidx cfg.mfile item.min_val
      let piece_range := pieceidxToTotfileRange cfg.mfile piece_idx
      let whole := FileSizeInval.ofItem piece_range.toInvalItem
      let piece_unavail_inval := whole.sub current_inval
      let piece_isavail_inval := whole.sub piece_unavail_inval
      let s := s.pieceCtor cfg piece_idx piece_isavail_inval
      partavailPieceCtor fuel s (current_inval.sub piece_isavail_inval)

/-- The pieces of the source's `start()`: none, or those which the resume data says
are partially available.  Each turn of the loop takes a whole piece out of it. -/
def start (local_pavail : Pieceavail) (partavail_piece_inval : FileSizeInval) : Sched :=
  partavailPieceCtor cfg cfg.mfile.nb_piece
    { piece := .empty
      next_pidx_hint := none
      request_db := fun _ => []
      local_pdling := Bitfield.ofSize cfg.mfile.nb_piece
      local_pavail := local_pavail
      sent := [] }
    partavail_piece_inval

/-- `get_partavail_piece_inval`: what the incomplete pieces have on disk, for the resume data. -/
def getPartavailPieceInval (s : Sched) : FileSizeInval :=
  (s.piece_do_needreq_db ++ s.piece_no_needreq_db).foldl
    (fun acc idx => acc.add (((s.piece.obj idx).map SchedPiece.isavail_inval).getD .null)) .null

/-! ### Piece selection -/

variable {cfg} (env : SelectEnv cfg)

def mayRequestPieceThru (s : Sched) (idx : ℕ) (cnx : CnxId) : Bool :=
  (s.piece.obj idx).any fun p => p.mayRequestBlockThru cnx

/-- `select_piece_in_piece_db`, in `piece_do_needreq_db`. -/
def selectPieceInPieceDb (s : Sched) (v : CnxView) : Option ℕ :=
  lastGreatest env.pieceprec <| s.piece_do_needreq_db.filter fun idx =>
    v.remote_pavail.isAvail idx && s.mayRequestPieceThru idx v.cnx

/-- The first loop of `select_piece_to_request`: the hint, when it is worth it. -/
def selectPieceHint (s : Sched) (v : CnxView) (pieceidx_hint : Option ℕ) : Option ℕ :=
  pieceidx_hint.filter fun idx =>
    v.remote_pavail.isAvail idx && (idx ∈ s.piece_do_needreq_db : Bool) &&
      s.mayRequestPieceThru idx v.cnx

/-- `select_piece_to_request`: a scheduled piece, else a new one. -/
def selectPieceToRequest (s : Sched) (v : CnxView) (pieceidx_hint : Option ℕ) :
    Option (Sched × ℕ) :=
  match s.selectPieceHint v pieceidx_hint with
  | some idx => some (s, idx)
  | none =>
    match s.selectPieceInPieceDb env v with
    | some idx => some (s, idx)
    | none =>
      let pieceidx_hint := if cfg.seq_pselect_ifequ then pieceidx_hint else none
      match env.next_piece_to_select s.local_pdling s.local_pavail v.remote_pavail
          pieceidx_hint with
      | some idx => some (s.pieceCtor cfg idx .null, idx)
      | none => none

/-! ### `try_send_request` -/

variable (cfg) in
/-- `get_block_to_request` of the piece `idx`. -/
def getBlockToRequest (s : Sched) (idx : ℕ) (cnx : CnxId) : Option (Sched × ℕ) :=
  match (s.piece.obj idx).bind fun p =>
      p.getBlockToRequest cnx cfg.xmit_req_maxlen cfg.xmit_req_maxlen_pos with
  | some (p, beg) => some ({ s with piece := s.piece.set idx p }, beg)
  | none => none

variable (cfg) in
/-- The inner loop: as many requests as possible on the piece `idx`.  Each turn adds
one, so `request_nb_max` turns are enough. -/
def requestLoop (idx : ℕ) (cnx : CnxId) (request_nb_max : ℕ) : ℕ → Sched → Sched
  | 0, s => s
  | fuel + 1, s =>
    if s.nbPendingRequest cnx < request_nb_max then
      match s.getBlockToRequest cfg idx cnx with
      | none => s
      | some (s, beg) => requestLoop idx cnx request_nb_max fuel (s.requestCtor cnx idx beg)
    else s

variable (cfg) in
/-- The hint which the outer loop leaves: the same piece, or the next one. -/
def nextHint (s : Sched) (idx : ℕ) (cnx : CnxId) : ℕ :=
  if s.mayRequestPieceThru idx cnx then idx else (idx + 1) % cfg.mfile.nb_piece

/-- The outer loop: select a piece, and request on it. -/
def trySendLoop (v : CnxView) (request_nb_max : ℕ) : ℕ → Option ℕ → Sched → Sched
  | 0, _, s => s
  | fuel + 1, pieceidx_hint, s =>
    if s.nbPendingRequest v.cnx < request_nb_max then
      match s.selectPieceToRequest env v pieceidx_hint with
      | none => s
      | some (s, idx) =>
        let s := requestLoop cfg idx v.cnx request_nb_max request_nb_max s
        let hint := some (s.nextHint cfg idx v.cnx)
        trySendLoop v request_nb_max fuel hint { s with next_pidx_hint := hint }
    else s

def requestNbMax (cnx : CnxId) : ℕ := env.req_queue_maxlen cnx / cfg.xmit_req_maxlen

/-- `try_send_request` on one connection. -/
def trySendRequest (s : Sched) (v : CnxView) : Sched :=
  if !v.other_doauth_req then s
  else
    let request_nb_max := requestNbMax env v.cnx
    trySendLoop env v request_nb_max request_nb_max s.next_pidx_hint s

/-- `try_send_request_on_idle_cnx`, the connections given in the order of the walk. -/
def trySendRequestOnIdleCnx (s : Sched) (cnxs : List CnxView) : Sched :=
  cnxs.foldl (fun s v => if s.nbPendingRequest v.cnx ≠ 0 then s else s.trySendRequest env v) s

/-! ### Events of the scheduler -/

/-- `remove_notneeded_pieceprec_sched_piece`. -/
def removeNotneededPiece (s : Sched) : Sched :=
  let todel db := db.filter fun idx => env.pieceprec idx = pieceprecNotneeded
  (todel s.piece_do_needreq_db ++ todel s.piece_no_needreq_db).foldl
    (fun s idx => s.pieceDtor idx) s

/-- `notify_pieceprec_change`. -/
def notifyPieceprecChange (s : Sched) (cnxs : List CnxView) : Sched :=
  (s.removeNotneededPiece env).trySendRequestOnIdleCnx env cnxs

/-- The part about requests of `parse_cnx_closed` and `parse_unauth_req`. -/
def redistribute (s : Sched) (cnx : CnxId) (cnxs : List CnxView) : Sched :=
  (s.deleteRequests cnx).trySendRequestOnIdleCnx env cnxs

/-- The part about requests of `parse_piece_unavail`. -/
def parsePieceUnavail (s : Sched) (v : CnxView) (idx : ℕ) : Sched :=
  (s.deleteRequestsOfPiece v.cnx idx).trySendRequest env v

/-- `bt_swarm_sched_full_t::parse_block_rep`. -/
def parseBlockRep (s : Sched) (v : CnxView) (idx beg : ℕ) : Sched :=
  (s.blockNotifyComplete v.cnx idx beg).trySendRequest env v

/-- The end of the check of a fully downloaded piece, up to its deletion. -/
def pieceChecked (s : Sched) (idx : ℕ) : Sched :=
  if (s.piece.obj idx).any SchedPiece.post_process then s.pieceDtor idx else s

end Sched

end Neoip
