/-
Neoip/SwarmCount.lean

The handlers of the swarm, seen by what the swarm counts.

`Swarm.remote` reads a swarm as a `Remote`.  Each handler of `Neoip.Swarm` is
there nothing at all, a close, or one or two of the operations of
`Neoip.Remote`; there is one lemma for each handler which says which.
-/
import Neoip.Remote
import Neoip.Swarm

namespace Neoip

open Remote (Closes)

/-- What is counted of a connection. -/
def SwarmFull.remote (w : SwarmFull) : RemoteFull :=
  ⟨w.remote_pavail, w.remote_pwish, w.notified_as_open⟩

namespace SwarmFull

variable (w : SwarmFull)

@[simp] theorem remote_remote_pavail : w.remote.remote_pavail = w.remote_pavail := rfl

@[simp] theorem remote_remote_pwish : w.remote.remote_pwish = w.remote_pwish := rfl

theorem remote_setDoauthReq (new_value : Bool) : (w.setDoauthReq new_value).remote = w.remote := by
  simp only [setDoauthReq]
  split_ifs <;> rfl

theorem remote_syncDoauthReqCmd : w.syncDoauthReqCmd.remote = w.remote := by
  rw [syncDoauthReqCmd]
  split
  · exact w.remote_setDoauthReq false
  · exact w.remote_setDoauthReq true

theorem remote_declarePieceNewlyAvail (cfg : SwarmCfg) (piece_idx : ℕ) :
    (w.declarePieceNewlyAvail cfg piece_idx).remote = w.remote := by
  rw [declarePieceNewlyAvail]
  split_ifs <;> rfl

theorem remote_cnxVapiCtor (utmsgtype : UtmsgType) : (w.cnxVapiCtor utmsgtype).remote = w.remote := by
  simp only [cnxVapiCtor]
  split_ifs <;> rfl

end SwarmFull

namespace Swarm

def remote (s : Swarm) : Remote :=
  ⟨s.full_db.map SwarmFull.remote, s.ecnx_vapi_db, s.remote_pfreq, s.remote_pwish⟩

variable {cfg : SwarmCfg} {env : SwarmEnv cfg} {s : Swarm} {id idx slot : ℕ} {w : SwarmFull}
  {v : RemoteFull}

theorem get_remote (h : s.full_db.get id = some w) : s.remote.full_db.get id = some w.remote := by
  rw [remote, KeyedDb.get_map, h, Option.map_some]

theorem of_get_remote (h : s.remote.full_db.get id = some v) :
    ∃ w, s.full_db.get id = some w ∧ w.remote = v := by
  rw [remote, KeyedDb.get_map] at h
  exact Option.map_eq_some_iff.1 h

/-! ### What changes nothing that is counted -/

@[simp] theorem remote_updateSched (f : Sched → Sched) : (s.updateSched f).remote = s.remote := rfl

/-- One connection changes. -/
theorem remote_updateFull {f : SwarmFull → SwarmFull} {g : RemoteFull → RemoteFull}
    (hg : ∀ w, (f w).remote = g w.remote) (h : s.remote.full_db.get id = some v) :
    (s.updateFull id f).remote = s.remote.setFull id (g v) := by
  have hmod : s.remote.full_db.modify id g = s.remote.full_db.modify id fun _ => g v :=
    KeyedDb.modify_congr h rfl
  show Remote.mk ((s.full_db.modify id f).map SwarmFull.remote) _ _ _ = _
  rw [Remote.setFull, ← hmod, KeyedDb.map_modify hg]
  rfl

theorem remote_updateFull_self {f : SwarmFull → SwarmFull} (hf : ∀ w, (f w).remote = w.remote) :
    (s.updateFull id f).remote = s.remote := by
  show Remote.mk ((s.full_db.modify id f).map SwarmFull.remote) _ _ _ = _
  rw [KeyedDb.map_modify_self hf]
  rfl

theorem remote_mapAll {f : ℕ → SwarmFull → SwarmFull} (hf : ∀ id w, (f id w).remote = w.remote) :
    ({ s with full_db := s.full_db.mapAll f } : Swarm).remote = s.remote := by
  show Remote.mk ((s.full_db.mapAll f).map SwarmFull.remote) _ _ _ = _
  rw [KeyedDb.map_mapAll hf]
  rfl

theorem remote_trySendRequest : (s.trySendRequest env id).remote = s.remote := by
  rw [trySendRequest]
  split <;> rfl

theorem remote_peerSelectUpdate : (s.peerSelectUpdate env).remote = s.remote := by
  refine remote_mapAll fun id w => ?_
  split
  · rfl
  · exact SwarmFull.remote_syncDoauthReqCmd _

theorem remote_becomeInterested (something_new : Bool) :
    (s.becomeInterested id something_new).remote = s.remote := by
  refine remote_updateFull_self fun w => ?_
  split_ifs <;> rfl

theorem remote_parseDoauthReqCmd : (s.parseDoauthReqCmd env id).remote = s.remote :=
  remote_trySendRequest.trans (remote_updateFull_self fun _ => rfl)

theorem remote_parseUnauthReqCmd : (s.parseUnauthReqCmd env id).remote = s.remote := by
  rw [parseUnauthReqCmd]
  split
  · rfl
  · exact remote_updateFull_self fun _ => rfl

theorem remote_parseDowantReqCmd : (s.parseDowantReqCmd env id).remote = s.remote := by
  rw [parseDowantReqCmd]
  split
  · rfl
  · exact remote_peerSelectUpdate.trans (remote_updateFull_self fun _ => rfl)

theorem remote_parseUnwantReqCmd : (s.parseUnwantReqCmd id).remote = s.remote :=
  remote_updateFull_self fun _ => rfl

theorem remote_declarePieceNewlyAvail :
    (s.declarePieceNewlyAvail cfg idx).remote = s.remote :=
  remote_mapAll fun _ w => w.remote_declarePieceNewlyAvail cfg idx

theorem remote_pieceChecked (hash_ok : Bool) :
    (s.pieceChecked cfg idx hash_ok).remote = s.remote := by
  rw [pieceChecked]
  split_ifs
  · exact remote_declarePieceNewlyAvail
  · rfl
  · rfl

theorem remote_parseEcnxBlockRep (sched_req : Option (ℕ × ℕ)) :
    (s.parseEcnxBlockRep env slot sched_req).remote = s.remote := by
  rw [parseEcnxBlockRep]
  split
  · rfl
  · split
    · split_ifs <;> rfl
    · rfl

theorem remote_parseReqauthTimedout : (s.parseReqauthTimedout env id).remote = s.remote := by
  rw [parseReqauthTimedout]
  split
  · rfl
  · exact (remote_updateFull_self SwarmFull.remote_syncDoauthReqCmd).trans
      (remote_peerSelectUpdate.trans (remote_updateFull_self fun _ => rfl))

/-! ### Open and close -/

theorem remote_fullStart :
    (s.step (.fullStart id : SwarmEvent cfg)).remote = s.remote.fullStart id cfg.mfile.nb_piece := by
  show Remote.mk ((s.full_db.link _ id _).map SwarmFull.remote) _ _ _ = _
  rw [KeyedDb.map_link]
  rfl

/-- `parse_cnx_closed` takes out of the counters what the connection was counted for. -/
theorem remote_parseCnxClosed : (s.parseCnxClosed env id w).remote =
    { s.remote with
      remote_pfreq := s.remote_pfreq.decField w.remote_pavail
      remote_pwish := s.remote_pwish.decField w.remote_pwish } := by
  simp only [parseCnxClosed]
  split_ifs
  · refine (remote_updateFull_self SwarmFull.remote_syncDoauthReqCmd).trans ?_
    refine remote_peerSelectUpdate.trans ?_
    exact remote_updateFull_self fun _ => rfl
  · rfl

theorem remote_erase (s : Swarm) : ({ s with full_db := s.full_db.erase id } : Swarm).remote =
    { s.remote with full_db := s.remote.full_db.erase id } := by
  show Remote.mk ((s.full_db.erase id).map SwarmFull.remote) _ _ _ = _
  rw [KeyedDb.map_erase]
  rfl

theorem remote_autodelete (h : s.remote.full_db.get id = some v) :
    (s.autodelete env id).remote = s.remote.closed id v := by
  obtain ⟨w, hw, rfl⟩ := of_get_remote h
  have ho : w.remote.notified_as_open = w.notified_as_open := rfl
  simp only [autodelete, hw, remote_updateSched, remote_erase, Remote.closed, ho]
  split_ifs
  · rw [remote_parseCnxClosed]
    rfl
  · rfl

theorem autodelete_of_none (h : s.full_db.get id = none) : s.autodelete env id = s := by
  simp only [autodelete, h]

theorem closes_autodelete : Closes s.remote (s.autodelete env id).remote := by
  cases h : s.full_db.get id with
  | none => exact .of_eq (by rw [autodelete_of_none h])
  | some w =>
    rw [remote_autodelete (get_remote h)]
    exact .one (get_remote h)

theorem closes_closeIfSeeds : Closes s.remote (s.closeIfSeeds env id).remote := by
  rw [closeIfSeeds]
  split_ifs
  · exact closes_autodelete
  · exact .refl _

theorem closes_parseBlockReq (pkt : Datum) : Closes s.remote (s.parseBlockReq env id pkt).remote := by
  rw [parseBlockReq]
  split
  · exact .refl _
  · split
    · exact closes_autodelete
    · split_ifs
      · exact closes_autodelete
      · exact closes_autodelete
      · exact closes_autodelete
      · exact closes_autodelete
      · exact .refl _
      · exact .of_eq (remote_updateFull_self fun _ => rfl)

theorem closes_parseBlockRep (pkt : Datum) : Closes s.remote (s.parseBlockRep env id pkt).remote := by
  rw [parseBlockRep]
  split
  · exact .refl _
  · split
    · exact closes_autodelete
    · split_ifs
      · exact closes_autodelete
      · exact closes_autodelete
      · split
        · exact closes_autodelete
        · split_ifs
          · exact .refl _
          · exact .refl _

theorem closes_parseBlockDel (pkt : Datum) : Closes s.remote (s.parseBlockDel env id pkt).remote := by
  rw [parseBlockDel]
  split
  · exact closes_autodelete
  · exact .of_eq (remote_updateFull_self fun _ => rfl)

theorem closes_fullDeclarePieceNomoreAvail :
    Closes s.remote (s.fullDeclarePieceNomoreAvail env idx id).remote := by
  simp only [fullDeclarePieceNomoreAvail]
  split
  · exact .refl _
  · split_ifs
    · exact closes_autodelete
    · exact .of_eq (remote_updateFull_self fun _ => rfl)
    · exact .refl _

theorem closes_declarePieceNomoreAvail :
    Closes s.remote (s.declarePieceNomoreAvail env idx).remote := by
  have hfold : ∀ (ids : List ℕ) (s : Swarm),
      Closes s.remote (ids.foldl (fullDeclarePieceNomoreAvail env idx) s).remote := by
    intro ids
    induction ids with
    | nil => exact fun s => .refl _
    | cons id ids ih => exact fun s => closes_fullDeclarePieceNomoreAvail.trans (ih _)
  exact hfold (s.full_db.item.map Prod.fst) (s.updateSched fun sched =>
    { sched with local_pavail := sched.local_pavail.markUnavail idx })

/-! ### Open -/

theorem notifyCnxOpen_of_none (h : s.full_db.get id = none) : s.notifyCnxOpen id = s := by
  simp only [notifyCnxOpen, h]

theorem notifyCnxOpen_of_open (h : s.full_db.get id = some w) (ho : w.notified_as_open = true) :
    s.notifyCnxOpen id = s := by
  simp only [notifyCnxOpen, h, ho, if_true]

theorem remote_notifyCnxOpen (h : s.full_db.get id = some w) (ho : w.notified_as_open = false) :
    (s.notifyCnxOpen id).remote = s.remote.opened id w.remote := by
  simp only [notifyCnxOpen, h, ho, if_neg Bool.false_ne_true]
  show Remote.mk ((s.updateFull id _).remote).full_db _ _ _ = _
  rw [remote_updateFull (g := fun v => { v with notified_as_open := true }) (fun _ => rfl)
    (get_remote h)]
  rfl

theorem sched_notifyCnxOpen : (s.notifyCnxOpen id).sched = s.sched := by
  rw [notifyCnxOpen]
  split
  · rfl
  · split_ifs <;> rfl

/-- The connection is open then, and it is otherwise what it was. -/
theorem get_notifyCnxOpen (h : s.full_db.get id = some w) :
    ∃ w', (s.notifyCnxOpen id).full_db.get id = some w' ∧
      w'.remote = { w.remote with notified_as_open := true } ∧ w'.cnx_vapi_db = w.cnx_vapi_db := by
  cases ho : w.notified_as_open with
  | true =>
    refine ⟨w, (notifyCnxOpen_of_open h ho).symm ▸ h, ?_, rfl⟩
    rw [SwarmFull.remote, ho]
  | false =>
    refine ⟨{ w.sendCmd .pieceBfield with notified_as_open := true }, ?_, rfl, rfl⟩
    simp only [notifyCnxOpen, h, ho, if_neg Bool.false_ne_true]
    exact KeyedDb.get_modify_self.trans (by rw [h]; rfl)

/-! ### The extensions -/

theorem remote_notifyUtmsgDowishIndex (h : s.remote.full_db.get id = some v) :
    (s.notifyUtmsgDowishIndex env id idx).remote =
      if v.remote_pavail.isAvail idx then s.remote.closed id v else s.remote.doindex id v idx := by
  obtain ⟨w, hw, rfl⟩ := of_get_remote h
  have hav : w.remote.remote_pavail = w.remote_pavail := rfl
  simp only [notifyUtmsgDowishIndex, hw, hav]
  split_ifs
  · exact remote_autodelete h
  · show Remote.mk ((s.updateFull id _).remote).full_db _ _ _ = _
    rw [remote_updateFull (g := fun v => { v with remote_pwish := v.remote_pwish.set idx })
      (fun _ => rfl) h]
    rfl

theorem remote_notifyUtmsgNowishIndex (h : s.remote.full_db.get id = some v) (idx : ℕ) :
    (s.notifyUtmsgNowishIndex id idx).remote = s.remote.noindex id v idx := by
  obtain ⟨w, hw, rfl⟩ := of_get_remote h
  simp only [notifyUtmsgNowishIndex, hw]
  show Remote.mk ((s.updateFull id _).remote).full_db _ _ _ = _
  rw [remote_updateFull (g := fun v => { v with remote_pwish := v.remote_pwish.clear idx })
    (fun _ => rfl) h]
  rfl

theorem remote_notifyUtmsgDowishField (h : s.remote.full_db.get id = some v) (bf : Bitfield) :
    (s.notifyUtmsgDowishField env id bf).remote =
      if (Bitfield.and v.remote_pavail bf).isAnySet then s.remote.closed id v
      else s.remote.dofield id v bf := by
  obtain ⟨w, hw, rfl⟩ := of_get_remote h
  have hav : w.remote.remote_pavail = w.remote_pavail := rfl
  simp only [notifyUtmsgDowishField, hw, hav]
  split_ifs
  · exact remote_autodelete h
  · show Remote.mk ((s.updateFull id _).remote).full_db _ _ _ = _
    rw [remote_updateFull (g := fun v => { v with remote_pwish := bf }) (fun _ => rfl) h]
    rfl

/-- The piece is taken out of the connection; without the extension for wishes, it is wished
then. -/
theorem remote_notifyUtmsgPunavail (h : s.full_db.get id = some w)
    (hav : w.remote_pavail.isAvail idx = true) :
    (s.notifyUtmsgPunavail env id idx).remote =
      if w.noSupport .piecewish then
        (s.remote.unavail id w.remote idx).doindex id
          { w.remote with remote_pavail := w.remote_pavail.markUnavail idx } idx
      else s.remote.unavail id w.remote idx := by
  have hlt : ¬ idx ≥ w.remote_pavail.nb_piece := Nat.not_le.2 (Bitfield.lt_of_get hav)
  have hun : ¬ w.remote_pavail.isUnavail idx = true := by
    rw [Pieceavail.isUnavail, hav]
    exact Bool.false_ne_true
  have hsup : ∀ pa, { w with remote_pavail := pa }.noSupport .piecewish = w.noSupport .piecewish :=
    fun _ => rfl
  simp only [notifyUtmsgPunavail, h, if_neg hlt, if_neg hun, hsup]
  generalize hs' : updateSched _ _ = s'
  have hr : s'.remote = s.remote.unavail id w.remote idx := by
    rw [← hs']
    show Remote.mk ((s.updateFull id _).remote).full_db _ _ _ = _
    rw [remote_updateFull (g := fun _ => { w.remote with
      remote_pavail := w.remote_pavail.markUnavail idx }) (fun _ => rfl) (get_remote h)]
    rfl
  have hget : s'.remote.full_db.get id =
      some { w.remote with remote_pavail := w.remote_pavail.markUnavail idx } := by
    rw [hr]
    exact (Remote.get_setFull (get_remote h)).trans (if_pos rfl)
  have hav' : (w.remote_pavail.markUnavail idx).isAvail idx = false := by
    rw [Pieceavail.isAvail_markUnavail, if_pos rfl]
  split_ifs
  · rw [remote_notifyUtmsgDowishIndex hget, if_neg (by rw [hav']; exact Bool.false_ne_true), hr]
  · exact hr

/-! ### The pieces of a peer -/

theorem local_pavail_requestLoop (cnx : CnxId) (n fuel : ℕ) (sched : Sched) :
    (Sched.requestLoop cfg idx cnx n fuel sched).local_pavail = sched.local_pavail := by
  induction fuel generalizing sched with
  | zero => rfl
  | succ fuel ih =>
    rw [Sched.requestLoop]
    split_ifs
    · split
      · rfl
      · rename_i sched' beg hblk
        rw [ih]
        show sched'.local_pavail = _
        rw [Sched.getBlockToRequest] at hblk
        split at hblk
        · rw [← (Prod.mk.inj (Option.some.inj hblk)).1]
        · cases hblk
    · rfl

theorem local_pavail_trySendLoop (v : CnxView) (n fuel : ℕ) (hint : Option ℕ) (sched : Sched) :
    (Sched.trySendLoop env.toSelectEnv v n fuel hint sched).local_pavail = sched.local_pavail := by
  induction fuel generalizing hint sched with
  | zero => rfl
  | succ fuel ih =>
    rw [Sched.trySendLoop]
    split_ifs
    · split
      · rfl
      · rename_i sched' idx hsel
        rw [ih]
        show (Sched.requestLoop cfg idx v.cnx n n sched').local_pavail = _
        rw [local_pavail_requestLoop]
        simp only [Sched.selectPieceToRequest] at hsel
        split at hsel
        · rw [(Prod.mk.inj (Option.some.inj hsel)).1]
        · split at hsel
          · rw [(Prod.mk.inj (Option.some.inj hsel)).1]
          · split at hsel
            · rw [← (Prod.mk.inj (Option.some.inj hsel)).1]
              rfl
            · cases hsel
    · rfl

theorem local_pavail_trySendRequest :
    (s.trySendRequest env id).local_pavail = s.local_pavail := by
  rw [trySendRequest]
  split
  · rfl
  · show (Sched.trySendRequest env.toSelectEnv s.sched _).local_pavail = _
    rw [Sched.trySendRequest]
    split_ifs
    · rfl
    · exact local_pavail_trySendLoop _ _ _ _ _

/-- `closeIfSeeds` by what it looks at. -/
theorem remote_closeIfSeeds (h : s.remote.full_db.get id = some v) :
    (s.closeIfSeeds env id).remote =
      if s.local_pavail.isFullyAvail && v.remote_pavail.isFullyAvail then s.remote.closed id v
      else s.remote := by
  obtain ⟨w, hw, rfl⟩ := of_get_remote h
  rw [closeIfSeeds, hw]
  show (if s.local_pavail.isFullyAvail && w.remote_pavail.isFullyAvail then _ else _ : Swarm).remote = _
  have hav : w.remote.remote_pavail = w.remote_pavail := rfl
  rw [hav]
  split_ifs
  · exact remote_autodelete h
  · rfl

/-- The end of `parse_piece_isavail_cmd`, once the wish is taken back. -/
def isavailEnd (env : SwarmEnv cfg) (s : Swarm) (id piece_idx : ℕ) : Swarm :=
  let s := s.updateFull id fun w =>
    { w with remote_pavail := w.remote_pavail.markIsavail piece_idx }
  let s := { s with remote_pfreq := s.remote_pfreq.inc piece_idx }
  (s.trySendRequest env id).closeIfSeeds env id

theorem parsePieceIsavailCmd_eq {pkt rest : Datum} (h : s.full_db.get id = some w)
    (hpkt : readUint32 pkt = some (idx, rest)) (hlt : idx < w.remote_pavail.nb_piece)
    (hav : w.remote_pavail.isAvail idx = false) :
    s.parsePieceIsavailCmd env id pkt =
      (let s := s.becomeInterested id (s.local_pavail.isUnavail idx)
        if w.noSupport .piecewish then s.notifyUtmsgNowishIndex id idx
        else s).isavailEnd env id idx := by
  simp only [parsePieceIsavailCmd, h, hpkt, hav, if_neg (Nat.not_le.2 hlt),
    if_neg Bool.false_ne_true]
  rfl

theorem remote_isavailEnd (h : s.remote.full_db.get id = some v) :
    (s.isavailEnd env id idx).remote =
      if s.local_pavail.isFullyAvail && (v.remote_pavail.markIsavail idx).isFullyAvail then
        (s.remote.isavail id v idx).closed id
          { v with remote_pavail := v.remote_pavail.markIsavail idx }
      else s.remote.isavail id v idx := by
  simp only [isavailEnd]
  generalize hs' : Swarm.mk _ _ _ _ _ = s'
  have hr : s'.remote = s.remote.isavail id v idx := by
    rw [← hs']
    show Remote.mk ((s.updateFull id _).remote).full_db _ _ _ = _
    rw [remote_updateFull (g := fun v => { v with
      remote_pavail := v.remote_pavail.markIsavail idx }) (fun _ => rfl) h]
    rfl
  have hloc : s'.local_pavail = s.local_pavail := by
    rw [← hs']
    rfl
  have hget : s'.remote.full_db.get id =
      some { v with remote_pavail := v.remote_pavail.markIsavail idx } := by
    rw [hr]
    exact (Remote.get_setFull h).trans (if_pos rfl)
  rw [remote_closeIfSeeds (remote_trySendRequest ▸ hget), remote_trySendRequest,
    local_pavail_trySendRequest, hr, hloc]

theorem remote_parsePieceIsavailCmd_doSupport {pkt rest : Datum} (h : s.full_db.get id = some w)
    (hpkt : readUint32 pkt = some (idx, rest)) (hlt : idx < w.remote_pavail.nb_piece)
    (hav : w.remote_pavail.isAvail idx = false) (hsup : w.noSupport .piecewish = false) :
    (s.parsePieceIsavailCmd env id pkt).remote =
      if s.local_pavail.isFullyAvail && (w.remote_pavail.markIsavail idx).isFullyAvail then
        (s.remote.isavail id w.remote idx).closed id
          { w.remote with remote_pavail := w.remote_pavail.markIsavail idx }
      else s.remote.isavail id w.remote idx := by
  have hr : (s.becomeInterested id (s.local_pavail.isUnavail idx)).remote = s.remote :=
    remote_becomeInterested _
  rw [parsePieceIsavailCmd_eq h hpkt hlt hav, hsup, if_neg Bool.false_ne_true,
    remote_isavailEnd (hr ▸ get_remote h), hr]
  rfl

theorem closes_parsePieceIsavailCmd_noSupport {pkt rest : Datum} (h : s.full_db.get id = some w)
    (hpkt : readUint32 pkt = some (idx, rest)) (hlt : idx < w.remote_pavail.nb_piece)
    (hav : w.remote_pavail.isAvail idx = false) (hsup : w.noSupport .piecewish = true) :
    Closes ((s.remote.noindex id w.remote idx).isavail id
      { w.remote with remote_pwish := w.remote_pwish.clear idx } idx)
      (s.parsePieceIsavailCmd env id pkt).remote := by
  have hr : (s.becomeInterested id (s.local_pavail.isUnavail idx)).remote = s.remote :=
    remote_becomeInterested _
  have hno := remote_notifyUtmsgNowishIndex (hr ▸ get_remote h) idx
  have hget : (s.remote.noindex id w.remote idx).full_db.get id =
      some { w.remote with remote_pwish := w.remote_pwish.clear idx } :=
    (Remote.get_setFull (get_remote h)).trans (if_pos rfl)
  rw [hr] at hno
  rw [parsePieceIsavailCmd_eq h hpkt hlt hav, hsup, if_pos rfl, remote_isavailEnd (hno ▸ hget), hno]
  split_ifs
  · exact .one ((Remote.get_setFull hget).trans (if_pos rfl))
  · exact .refl _

/-- The beginning of `parse_piece_bfield_cmd`: the pieces are counted. -/
def bfieldBegin (s : Swarm) (id : ℕ) (remote_pavail : Pieceavail) : Swarm :=
  let s := s.updateFull id fun w => { w with remote_pavail := remote_pavail }
  let s := s.becomeInterested id (!Bitfield.fullyContain s.local_pavail remote_pavail)
  { s with remote_pfreq := s.remote_pfreq.incField remote_pavail }

/-- The end of `parse_piece_bfield_cmd`. -/
def bfieldEnd (env : SwarmEnv cfg) (s : Swarm) (id : ℕ) (no_support : Bool)
    (remote_pavail : Pieceavail) : Swarm :=
  let s := s.trySendRequest env id
  let s := if no_support then s.notifyUtmsgDowishField env id (Bitfield.compl remote_pavail) else s
  s.closeIfSeeds env id

theorem parsePieceBfieldCmd_eq {pkt : Datum} {pa : Pieceavail} (h : s.full_db.get id = some w)
    (hpkt : Pieceavail.btformatFromPkt pkt cfg.mfile.nb_piece = some pa) :
    s.parsePieceBfieldCmd env id pkt =
      (s.bfieldBegin id pa).bfieldEnd env id (w.noSupport .piecewish) pa := by
  simp only [parsePieceBfieldCmd, h, hpkt]
  rfl

theorem remote_bfieldBegin {pa : Pieceavail} (h : s.remote.full_db.get id = some v) :
    (s.bfieldBegin id pa).remote = s.remote.bfield id v pa := by
  show Remote.mk ((becomeInterested _ id _).remote).full_db _ _ _ = _
  rw [remote_becomeInterested,
    remote_updateFull (g := fun v => { v with remote_pavail := pa }) (fun _ => rfl) h]
  rfl

theorem get_remote_bfieldBegin (h : s.remote.full_db.get id = some v) (pa : Pieceavail) :
    (s.bfieldBegin id pa).remote.full_db.get id = some { v with remote_pavail := pa } := by
  rw [remote_bfieldBegin h]
  exact (Remote.get_setFull h).trans (if_pos rfl)

theorem remote_parsePieceBfieldCmd_doSupport {pkt : Datum} {pa : Pieceavail}
    (h : s.full_db.get id = some w)
    (hpkt : Pieceavail.btformatFromPkt pkt cfg.mfile.nb_piece = some pa)
    (hsup : w.noSupport .piecewish = false) :
    (s.parsePieceBfieldCmd env id pkt).remote =
      if s.local_pavail.isFullyAvail && pa.isFullyAvail then
        (s.remote.bfield id w.remote pa).closed id { w.remote with remote_pavail := pa }
      else s.remote.bfield id w.remote pa := by
  have hget := get_remote_bfieldBegin (get_remote h) pa
  rw [parsePieceBfieldCmd_eq h hpkt, bfieldEnd, hsup, if_neg Bool.false_ne_true,
    remote_closeIfSeeds (remote_trySendRequest ▸ hget), remote_trySendRequest,
    local_pavail_trySendRequest, remote_bfieldBegin (get_remote h)]
  rfl

/-- Without the extension for wishes, the peer wishes what it has not. -/
theorem closes_parsePieceBfieldCmd_noSupport {pkt : Datum} {pa : Pieceavail}
    (h : s.full_db.get id = some w)
    (hpkt : Pieceavail.btformatFromPkt pkt cfg.mfile.nb_piece = some pa)
    (hsup : w.noSupport .piecewish = true) :
    Closes ((s.remote.bfield id w.remote pa).dofield id
      { w.remote with remote_pavail := pa } (Bitfield.compl pa))
      (s.parsePieceBfieldCmd env id pkt).remote := by
  have hget := get_remote_bfieldBegin (get_remote h) pa
  have hsend : ((s.bfieldBegin id pa).trySendRequest env id).remote = _ := remote_trySendRequest
  have hdo : (((s.bfieldBegin id pa).trySendRequest env id).notifyUtmsgDowishField env id
      (Bitfield.compl pa)).remote = _ :=
    remote_notifyUtmsgDowishField (hsend ▸ hget) (Bitfield.compl pa)
  rw [if_neg Bitfield.isAnySet_and_compl, hsend, remote_bfieldBegin (get_remote h)] at hdo
  rw [parsePieceBfieldCmd_eq h hpkt, bfieldEnd, hsup, if_pos rfl, ← hdo]
  exact closes_closeIfSeeds

end Swarm

end Neoip
