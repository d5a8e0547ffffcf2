/-
Neoip/SchedRun.lean

The scheduler as an event machine of its own.

`SchedEvent` has the calls which the swarm makes to its scheduler: the events
of `bt_swarm_full_event_t` and `bt_ecnx_event_t` in what they do to the pieces
and to the requests, the timeouts, and the end of the writes.  The walk of
`try_send_request_on_idle_cnx` comes as the list of the connections which are
linked at that time, each one once.

`Sched.inv_step` is the invariant of `SchedInv` for one event.  That the swarm
does nothing else to its scheduler is proved in `SwarmSched`.
-/
import Neoip.Run
import Neoip.SchedLoop

namespace Neoip

/-- The linked connections, in the order of the walk. -/
structure CnxDb where
  item : List CnxView
  nodup : (item.map CnxView.cnx).Nodup

/-- What the swarm tells the scheduler, and the answers of the io. -/
inductive SchedEvent (cfg : SwarmCfg)
  /-- A connection opens, gets an authorisation or has something new. -/
  | trySendRequest (env : SelectEnv cfg) (v : CnxView)
  /-- `CNX_CLOSED`: raised by the destructor of the connection, which is still linked. -/
  | cnxClosed (env : SelectEnv cfg) (v : CnxView) (cnxs : CnxDb) (linked : v ∈ cnxs.item)
  /-- `UNAUTH_REQ`: raised once the connection knows that it has no authorisation. -/
  | unauthReq (env : SelectEnv cfg) (v : CnxView) (cnxs : CnxDb) (linked : v ∈ cnxs.item)
      (unauth : v.other_doauth_req = false)
  /-- The end of an external connection, which is not linked any more. -/
  | ecnxClosed (env : SelectEnv cfg) (cnx : CnxId) (cnxs : CnxDb)
      (unlinked : cnx ∉ cnxs.item.map CnxView.cnx)
  /-- The destructor of `bt_swarm_full_sched_t`. -/
  | fullSchedDtor (cnx : CnxId)
  | pieceUnavail (env : SelectEnv cfg) (v : CnxView) (piece_idx : ℕ)
  | blockRep (env : SelectEnv cfg) (v : CnxView) (piece_idx totfile_beg : ℕ)
  | ecnxBlockRep (cnx : CnxId) (piece_idx totfile_beg : ℕ)
  | requestTimeout (cnx : CnxId) (piece_idx totfile_beg : ℕ)
  | ioWriteDone (piece_idx totfile_beg : ℕ)
  | pieceChecked (piece_idx : ℕ)
  | notifyPieceprecChange (env : SelectEnv cfg) (cnxs : CnxDb)
  /-- A local piece becomes available, or is no more. -/
  | localPavail (local_pavail : Pieceavail)

namespace Sched

variable {cfg : SwarmCfg} {allowed : Prop} {s : Sched}

/-- Handle one event. -/
def step (s : Sched) : SchedEvent cfg → Sched
  | .trySendRequest env v => s.trySendRequest env v
  | .cnxClosed env v cnxs _ => s.redistribute env v.cnx cnxs.item
  | .unauthReq env v cnxs _ _ => s.redistribute env v.cnx cnxs.item
  | .ecnxClosed env cnx cnxs _ => s.redistribute env cnx cnxs.item
  | .fullSchedDtor cnx => s.deleteRequests cnx
  | .pieceUnavail env v piece_idx => s.parsePieceUnavail env v piece_idx
  | .blockRep env v piece_idx totfile_beg => s.parseBlockRep env v piece_idx totfile_beg
  | .ecnxBlockRep cnx piece_idx totfile_beg => s.blockNotifyComplete cnx piece_idx totfile_beg
  | .requestTimeout cnx piece_idx totfile_beg => s.requestExpire cnx piece_idx totfile_beg
  | .ioWriteDone piece_idx totfile_beg => s.ioWriteDone piece_idx totfile_beg
  | .pieceChecked piece_idx => s.pieceChecked piece_idx
  | .notifyPieceprecChange env cnxs => s.notifyPieceprecChange env cnxs.item
  | .localPavail local_pavail => { s with local_pavail }

/-- The invariant does not read `local_pavail`. -/
theorem ok_local_pavail (h : s.Ok cfg allowed) (local_pavail : Pieceavail) :
    ({ s with local_pavail } : Sched).Ok cfg allowed :=
  ⟨h.pieces.congr (fun _ => rfl) rfl, h.reqs.congr (fun _ _ => rfl) rfl⟩

/-- Every event keeps the invariant of the scheduler. -/
theorem inv_step (h : s.Ok cfg allowed) (e : SchedEvent cfg) : (s.step e).Ok cfg allowed := by
  cases e with
  | trySendRequest env v => exact (inv_trySendRequest env h).1
  | cnxClosed env v cnxs linked => exact inv_redistribute env h v.cnx cnxs.item
  | unauthReq env v cnxs linked unauth => exact inv_redistribute env h v.cnx cnxs.item
  | ecnxClosed env cnx cnxs unlinked => exact inv_redistribute env h cnx cnxs.item
  | fullSchedDtor cnx => exact (inv_deleteRequests h cnx).1
  | pieceUnavail env v piece_idx => exact inv_parsePieceUnavail env h piece_idx
  | blockRep env v piece_idx totfile_beg => exact inv_parseBlockRep env h piece_idx totfile_beg
  | ecnxBlockRep cnx piece_idx totfile_beg => exact inv_blockNotifyComplete h
  | requestTimeout cnx piece_idx totfile_beg => exact inv_requestExpire h
  | ioWriteDone piece_idx totfile_beg => exact inv_ioWriteDone h
  | pieceChecked piece_idx => exact inv_pieceChecked h piece_idx
  | notifyPieceprecChange env cnxs => exact inv_notifyPieceprecChange env h cnxs.item
  | localPavail local_pavail => exact ok_local_pavail h local_pavail

theorem inv_run (h : s.Ok cfg allowed) (evs : List (SchedEvent cfg)) :
    (run step s evs).Ok cfg allowed :=
  run_invariant (P := fun s : Sched => s.Ok cfg allowed) (fun _ e h => inv_step h e) h evs

end Sched

end Neoip
