/-
Neoip/SwarmSched.lean

The scheduler of a running swarm.

`Raises s s'` says that `s'` is what the swarm `s` becomes when it raises some
events for its scheduler, that nothing else changes the scheduler, and that no
open connection leaves without the event which says so.  Every handler is such
a change (`raises_step`), so that the invariant of the scheduler holds over
every run of the swarm (`always_ok`).  It gives, in every state of every run:

* the byte partition of the scheduled pieces (`always_partition`);
* the classification of pieces and blocks, when no piece is fully covered by
  the resume data, and only then (`always_needreqExact_iff`).
-/
import Neoip.SchedRun
import Neoip.Swarm

namespace Neoip

/-- The event says that the connection `id` closes. -/
def SchedEvent.Closes {cfg : SwarmCfg} (id : ℕ) : SchedEvent cfg → Prop
  | .cnxClosed _ v _ _ => v.cnx = .full id
  | _ => False

theorem SwarmFull.open_syncDoauthReqCmd (w : SwarmFull) :
    w.syncDoauthReqCmd.notified_as_open = w.notified_as_open := by
  have hset : ∀ new_value, (w.setDoauthReq new_value).notified_as_open = w.notified_as_open := by
    intro new_value
    simp only [setDoauthReq]
    split_ifs <;> rfl
  rw [syncDoauthReqCmd]
  split
  · exact hset false
  · exact hset true

namespace Swarm

variable {cfg : SwarmCfg} {env : SwarmEnv cfg} {s s' s'' : Swarm} {id j idx slot : ℕ}
  {w : SwarmFull}

/-! ### What the handlers do to the scheduler -/

/-- The scheduler knows the connection. -/
def isOpen (s : Swarm) (id : ℕ) : Bool := (s.full_db.get id).any SwarmFull.notified_as_open

theorem isOpen_updateFull {f : SwarmFull → SwarmFull}
    (hf : ∀ w, w.notified_as_open = true → (f w).notified_as_open = true)
    (h : s.isOpen j = true) : (s.updateFull id f).isOpen j = true := by
  rw [isOpen, updateFull, KeyedDb.get_modify]
  split_ifs with hj
  · rw [isOpen, hj, Option.any_eq_true] at h
    obtain ⟨w, hw, ho⟩ := h
    rw [hw]
    exact hf w ho
  · exact h

theorem isOpen_mapAll {f : ℕ → SwarmFull → SwarmFull}
    (hf : ∀ k w, (f k w).notified_as_open = w.notified_as_open) :
    ({ s with full_db := s.full_db.mapAll f } : Swarm).isOpen j = s.isOpen j := by
  show ((s.full_db.mapAll f).get j).any _ = (s.full_db.get j).any _
  rw [KeyedDb.get_mapAll, Option.any_map]
  congr 1
  funext w
  exact hf j w

variable (cfg) in
/-- `s'` is `s` after some events of its scheduler; an open connection stays open, or one of
the events says that it closes. -/
def Raises (s s' : Swarm) : Prop :=
  ∃ es : List (SchedEvent cfg), s'.sched = run Sched.step s.sched es ∧
    ∀ id, s.isOpen id = true → s'.isOpen id = true ∨ ∃ e ∈ es, e.Closes id

namespace Raises

theorem keep (hs : s'.sched = s.sched) (ho : ∀ j, s.isOpen j = true → s'.isOpen j = true) :
    Raises cfg s s' := ⟨[], hs, fun j hj => .inl (ho j hj)⟩

theorem refl (s : Swarm) : Raises cfg s s := .keep rfl fun _ => id

theorem trans (h : Raises cfg s s') (h' : Raises cfg s' s'') : Raises cfg s s'' := by
  obtain ⟨es, hs, ho⟩ := h
  obtain ⟨es', hs', ho'⟩ := h'
  refine ⟨es ++ es', by rw [run_append, ← hs, hs'], fun j hj => ?_⟩
  rcases ho j hj with hj | ⟨e, he, hc⟩
  · rcases ho' j hj with hj | ⟨e, he, hc⟩
    · exact .inl hj
    · exact .inr ⟨e, List.mem_append_right _ he, hc⟩
  · exact .inr ⟨e, List.mem_append_left _ he, hc⟩

theorem sched (e : SchedEvent cfg) : Raises cfg s (s.updateSched fun sched => sched.step e) :=
  ⟨[e], rfl, fun _ hj => .inl hj⟩

theorem updateFull {f : SwarmFull → SwarmFull}
    (hf : ∀ w, w.notified_as_open = true → (f w).notified_as_open = true) :
    Raises cfg s (s.updateFull id f) := .keep rfl fun _ => isOpen_updateFull hf

end Raises

/-- The connections of the walk, each one once. -/
def cnxDb (s : Swarm) : CnxDb where
  item := s.cnxViews
  nodup := by
    have hecnx : ∀ l : List (ℕ × Pieceavail), (l.map Prod.fst).Nodup →
        ((l.map fun x => ecnxView x.1 x.2).map CnxView.cnx).Nodup := by
      intro l hl
      rw [List.map_map]
      exact (List.nodup_map_iff_inj_on hl.of_map).2 fun x hx y hy hxy =>
        List.inj_on_of_nodup_map hl hx hy (CnxId.ecnx.inj hxy)
    have hfull : ∀ l : List (ℕ × SwarmFull), (l.map Prod.fst).Nodup →
        ((l.map fun x => fullView x.1 x.2).map CnxView.cnx).Nodup := by
      intro l hl
      rw [List.map_map]
      exact (List.nodup_map_iff_inj_on hl.of_map).2 fun x hx y hy hxy =>
        List.inj_on_of_nodup_map hl hx hy (CnxId.full.inj hxy)
    rw [cnxViews, List.map_append]
    refine List.Nodup.append (hecnx _ s.ecnx_vapi_db.nodup) (hfull _ s.full_db.nodup) ?_
    intro c hc hc'
    simp only [List.map_map, List.mem_map, Function.comp_apply, ecnxView, fullView] at hc hc'
    obtain ⟨x, -, rfl⟩ := hc
    obtain ⟨y, -, hy⟩ := hc'
    cases hy

theorem mem_cnxDb_full (h : s.full_db.get id = some w) : fullView id w ∈ s.cnxDb.item :=
  List.mem_append_right _ (List.mem_map.2 ⟨(id, w), KeyedDb.mem_item_iff.2 h, rfl⟩)

theorem ecnx_not_mem_cnxDb (h : s.ecnx_vapi_db.get slot = none) :
    CnxId.ecnx slot ∉ s.cnxDb.item.map CnxView.cnx := by
  show _ ∉ s.cnxViews.map CnxView.cnx
  rw [cnxViews, List.map_append, List.map_map, List.map_map, List.mem_append, List.mem_map,
    List.mem_map]
  rintro (⟨x, hx, hc⟩ | ⟨x, -, hc⟩)
  · rw [KeyedDb.get_eq_none] at h
    exact h (CnxId.ecnx.inj hc ▸ List.mem_map_of_mem hx)
  · cases hc

theorem raises_trySendRequest : Raises cfg s (s.trySendRequest env id) := by
  rw [trySendRequest]
  split
  · exact .refl s
  · rename_i w _
    exact .sched (.trySendRequest env.toSelectEnv (fullView id w))

theorem raises_peerSelectUpdate : Raises cfg s (s.peerSelectUpdate env) := by
  refine .keep rfl fun j hj => ?_
  rw [peerSelectUpdate, isOpen_mapAll]
  · exact hj
  · intro k w
    split
    · rfl
    · exact SwarmFull.open_syncDoauthReqCmd _

theorem raises_syncDoauthReqCmd :
    Raises cfg s (s.updateFull id SwarmFull.syncDoauthReqCmd) := by
  apply Raises.updateFull
  intro w hw
  rw [SwarmFull.open_syncDoauthReqCmd, hw]

/-- The end of a connection says that it closes, if the scheduler knows it. -/
theorem raises_parseCnxClosed (hw : s.full_db.get id = some w) :
    ∃ e : SchedEvent cfg, e.Closes id ∧
      (s.parseCnxClosed env id w).sched = s.sched.step e ∧
      ∀ j, s.isOpen j = true → (s.parseCnxClosed env id w).isOpen j = true := by
  refine ⟨.cnxClosed env.toSelectEnv (fullView id w) s.cnxDb (mem_cnxDb_full hw), rfl, ?_, ?_⟩
  · simp only [parseCnxClosed]
    split_ifs <;> rfl
  · intro j hj
    simp only [parseCnxClosed]
    split_ifs
    · apply isOpen_updateFull
      · intro w hw
        rw [SwarmFull.open_syncDoauthReqCmd, hw]
      · rw [peerSelectUpdate, isOpen_mapAll]
        · apply isOpen_updateFull
          · exact fun _ hw => hw
          · exact hj
        · intro k w
          split
          · rfl
          · exact SwarmFull.open_syncDoauthReqCmd _
    · exact hj

theorem raises_autodelete : Raises cfg s (s.autodelete env id) := by
  rw [autodelete]
  rcases hw : s.full_db.get id with - | w
  · exact .refl s
  · simp only []
    have herase : ∀ {s' : Swarm} {j}, j ≠ id → s'.isOpen j = true →
        (({ s' with full_db := s'.full_db.erase id } : Swarm).updateSched fun sched =>
          sched.deleteRequests (.full id)).isOpen j = true := by
      intro s' j hj ho
      show ((s'.full_db.erase id).get j).any _ = true
      rw [KeyedDb.get_erase, if_neg hj]
      exact ho
    split_ifs with ho
    · obtain ⟨e, he, hs, hkeep⟩ := raises_parseCnxClosed hw
      refine ⟨[e, .fullSchedDtor (.full id)], ?_, fun j hj => ?_⟩
      · rw [run_cons, run_cons, run_nil, ← hs]
        rfl
      · by_cases hjid : j = id
        · exact .inr ⟨e, List.mem_cons_self, hjid ▸ he⟩
        · exact .inl (herase hjid (hkeep j hj))
    · refine ⟨[.fullSchedDtor (.full id)], rfl, fun j hj => .inl (herase ?_ hj)⟩
      rintro rfl
      rw [isOpen, hw] at hj
      exact ho hj

theorem raises_closeIfSeeds : Raises cfg s (s.closeIfSeeds env id) := by
  rw [closeIfSeeds]
  split_ifs
  · exact raises_autodelete
  · exact .refl s

theorem raises_notifyCnxOpen : Raises cfg s (s.notifyCnxOpen id) := by
  rw [notifyCnxOpen]
  split
  · exact .refl s
  · split_ifs
    · exact .refl s
    · exact .keep rfl fun _ => isOpen_updateFull fun _ _ => rfl

theorem raises_notifyUtmsgDowishIndex :
    Raises cfg s (s.notifyUtmsgDowishIndex env id idx) := by
  rw [notifyUtmsgDowishIndex]
  split
  · exact .refl s
  · split_ifs
    · exact raises_autodelete
    · exact .keep rfl fun _ => isOpen_updateFull fun _ hw => hw

theorem raises_notifyUtmsgNowishIndex : Raises cfg s (s.notifyUtmsgNowishIndex id idx) := by
  rw [notifyUtmsgNowishIndex]
  split
  · exact .refl s
  · exact .keep rfl fun _ => isOpen_updateFull fun _ hw => hw

theorem raises_notifyUtmsgDowishField (bf : Bitfield) :
    Raises cfg s (s.notifyUtmsgDowishField env id bf) := by
  rw [notifyUtmsgDowishField]
  split
  · exact .refl s
  · split_ifs
    · exact raises_autodelete
    · exact .keep rfl fun _ => isOpen_updateFull fun _ hw => hw

theorem raises_parseDowishField (field_datum : Datum) :
    Raises cfg s (s.parseDowishField env id field_datum) := by
  simp only [parseDowishField]
  split_ifs
  · exact .refl s
  · exact raises_notifyUtmsgDowishField _

theorem raises_notifyUtmsgPunavail : Raises cfg s (s.notifyUtmsgPunavail env id idx) := by
  simp only [notifyUtmsgPunavail]
  rcases hw : s.full_db.get id with - | w
  · exact .refl s
  · simp only []
    have hset : Raises cfg s (s.updateFull id fun _ =>
        { w with remote_pavail := w.remote_pavail.markUnavail idx }) := by
      refine .keep rfl fun j hj => ?_
      rw [isOpen, updateFull, KeyedDb.get_modify]
      split_ifs with hjid
      · rw [hw]
        rwa [isOpen, hjid, hw] at hj
      · exact hj
    split_ifs
    · exact raises_autodelete
    · exact .refl s
    · refine .trans (hset.trans ?_) raises_notifyUtmsgDowishIndex
      exact ⟨[.pieceUnavail env.toSelectEnv (fullView id
        { w with remote_pavail := w.remote_pavail.markUnavail idx }) idx], rfl, fun _ hj => .inl hj⟩
    · refine hset.trans ?_
      exact ⟨[.pieceUnavail env.toSelectEnv (fullView id
        { w with remote_pavail := w.remote_pavail.markUnavail idx }) idx], rfl, fun _ hj => .inl hj⟩

theorem raises_becomeInterested (something_new : Bool) :
    Raises cfg s (s.becomeInterested id something_new) := by
  apply Raises.updateFull
  intro w hw
  split_ifs <;> exact hw

theorem raises_parsePieceIsavailCmd (pkt : Datum) :
    Raises cfg s (s.parsePieceIsavailCmd env id pkt) := by
  simp only [parsePieceIsavailCmd]
  split
  · exact .refl s
  · split
    · exact raises_autodelete
    · rename_i piece_idx _ _
      have hmark : ∀ {s : Swarm}, Raises cfg s { s.updateFull id fun w =>
          { w with remote_pavail := w.remote_pavail.markIsavail piece_idx } with
            remote_pfreq := s.remote_pfreq.inc piece_idx } :=
        .keep rfl fun _ => isOpen_updateFull fun _ hw => hw
      split_ifs
      · exact raises_autodelete
      · exact .refl s
      · refine .trans (.trans ?_ raises_trySendRequest) raises_closeIfSeeds
        exact (raises_becomeInterested (s.local_pavail.isUnavail piece_idx)).trans
          ((raises_notifyUtmsgNowishIndex).trans hmark)
      · refine .trans (.trans ?_ raises_trySendRequest) raises_closeIfSeeds
        exact (raises_becomeInterested (s.local_pavail.isUnavail piece_idx)).trans hmark

theorem raises_parsePieceBfieldCmd (pkt : Datum) :
    Raises cfg s (s.parsePieceBfieldCmd env id pkt) := by
  simp only [parsePieceBfieldCmd]
  split
  · exact .refl s
  · split
    · exact raises_autodelete
    · rename_i remote_pavail _
      have hpavail : Raises cfg s (s.updateFull id fun w =>
          { w with remote_pavail := remote_pavail }) := .updateFull fun _ hw => hw
      have hcount : ∀ {s : Swarm} {pfreq : Bitcount},
          Raises cfg s { s with remote_pfreq := pfreq } := .keep rfl fun _ hj => hj
      refine .trans ?_ raises_closeIfSeeds
      split_ifs
      · exact hpavail.trans ((raises_becomeInterested _).trans (hcount.trans
          (raises_trySendRequest.trans (raises_notifyUtmsgDowishField _))))
      · exact hpavail.trans ((raises_becomeInterested _).trans (hcount.trans
          raises_trySendRequest))

theorem raises_parseBlockReq (pkt : Datum) : Raises cfg s (s.parseBlockReq env id pkt) := by
  rw [parseBlockReq]
  split
  · exact .refl s
  · split
    · exact raises_autodelete
    · split_ifs
      · exact raises_autodelete
      · exact raises_autodelete
      · exact raises_autodelete
      · exact raises_autodelete
      · exact .refl s
      · exact .updateFull fun _ hw => hw

theorem raises_parseBlockRep (pkt : Datum) : Raises cfg s (s.parseBlockRep env id pkt) := by
  rw [parseBlockRep]
  split
  · exact .refl s
  · rename_i w _
    split
    · exact raises_autodelete
    · rename_i prange _
      split_ifs
      · exact raises_autodelete
      · exact raises_autodelete
      · split
        · exact raises_autodelete
        · rename_i totfile_range _
          split_ifs
          · exact .refl s
          · exact .sched (.blockRep env.toSelectEnv (fullView id w) prange.piece_idx
              totfile_range.beg)

theorem raises_parseUnauthReqCmd : Raises cfg s (s.parseUnauthReqCmd env id) := by
  rw [parseUnauthReqCmd]
  rcases hw : s.full_db.get id with - | w
  · exact .refl s
  · have hset : Raises cfg s (s.updateFull id fun w => { w with other_doauth_req := false }) :=
      .updateFull fun _ hw => hw
    refine hset.trans ?_
    have hget : (s.updateFull id fun w => { w with other_doauth_req := false }).full_db.get id =
        some { w with other_doauth_req := false } := by
      rw [updateFull, KeyedDb.get_modify_self, hw]
      rfl
    exact .sched (.unauthReq env.toSelectEnv _ (cnxDb _) (mem_cnxDb_full hget) rfl)

theorem raises_parseRecvedCmd (pkt : Datum) : Raises cfg s (s.parseRecvedCmd env id pkt) := by
  cases pkt with
  | nil => exact .refl s
  | cons cmdtype pkt =>
    rw [parseRecvedCmd]
    split
    · exact raises_parseUnauthReqCmd
    · have hset : Raises cfg s (s.updateFull id fun w => { w with other_doauth_req := true }) :=
        .updateFull fun _ hw => hw
      exact hset.trans raises_trySendRequest
    · rw [parseDowantReqCmd]
      split
      · exact .refl s
      · have hset : Raises cfg s
            (s.updateFull id fun w => { w with other_dowant_req := true }) :=
          .updateFull fun _ hw => hw
        exact hset.trans raises_peerSelectUpdate
    · exact .updateFull fun _ hw => hw
    · exact raises_parsePieceIsavailCmd pkt
    · exact raises_parsePieceBfieldCmd pkt
    · exact raises_parseBlockReq pkt
    · exact raises_parseBlockRep pkt
    · rw [parseBlockDel]
      split
      · exact raises_autodelete
      · exact .updateFull fun _ hw => hw
    · exact .refl s

theorem raises_declarePieceNewlyAvail : Raises cfg s (s.declarePieceNewlyAvail cfg idx) := by
  refine ⟨[.localPavail (s.local_pavail.markIsavail idx)], rfl, fun j hj => .inl ?_⟩
  rw [declarePieceNewlyAvail, isOpen_mapAll]
  · exact hj
  · intro k w
    rw [SwarmFull.declarePieceNewlyAvail]
    split_ifs <;> rfl

theorem raises_fullDeclarePieceNomoreAvail :
    Raises cfg s (s.fullDeclarePieceNomoreAvail env idx id) := by
  rw [fullDeclarePieceNomoreAvail]
  split
  · exact .refl s
  · simp only []
    split_ifs
    · exact raises_autodelete
    · exact .updateFull fun _ hw => hw
    · exact .refl s

theorem raises_declarePieceNomoreAvail :
    Raises cfg s (s.declarePieceNomoreAvail env idx) := by
  have hfold : ∀ (ids : List ℕ) (s : Swarm),
      Raises cfg s (ids.foldl (fullDeclarePieceNomoreAvail env idx) s) := by
    intro ids
    induction ids with
    | nil => exact Raises.refl
    | cons id ids ih => exact fun s => raises_fullDeclarePieceNomoreAvail.trans (ih _)
  exact .trans (.sched (.localPavail (s.local_pavail.markUnavail idx))) (hfold _ _)

theorem raises_pieceChecked (hash_ok : Bool) :
    Raises cfg s (s.pieceChecked cfg idx hash_ok) := by
  simp only [pieceChecked]
  split_ifs
  · exact .trans (.sched (.pieceChecked idx)) raises_declarePieceNewlyAvail
  · exact .sched (.pieceChecked idx)
  · exact .refl s

theorem raises_parseEcnxOpened (remote_pavail : Pieceavail) :
    Raises cfg s (s.parseEcnxOpened env slot remote_pavail) := by
  rw [parseEcnxOpened]
  split
  · exact .refl s
  · exact ⟨[.trySendRequest env.toSelectEnv (ecnxView slot remote_pavail)], rfl,
      fun _ hj => .inl hj⟩

theorem raises_parseEcnxClosed : Raises cfg s (s.parseEcnxClosed env slot) := by
  rw [parseEcnxClosed]
  split
  · exact .refl s
  · rename_i remote_pavail _
    have hnone : (s.ecnx_vapi_db.erase slot).get slot = none := by
      rw [KeyedDb.get_erase, if_pos rfl]
    exact ⟨[.ecnxClosed env.toSelectEnv (.ecnx slot) _ (ecnx_not_mem_cnxDb (s :=
      { s with ecnx_vapi_db := s.ecnx_vapi_db.erase slot }) hnone)], rfl, fun _ hj => .inl hj⟩

theorem raises_parseEcnxBlockRep (sched_req : Option (ℕ × ℕ)) :
    Raises cfg s (s.parseEcnxBlockRep env slot sched_req) := by
  rw [parseEcnxBlockRep]
  split
  · exact .refl s
  · rename_i remote_pavail _
    split
    · rename_i req
      split_ifs
      · exact .sched (.ecnxBlockRep (.ecnx slot) req.1 req.2)
      · exact .refl s
    · exact .sched (.trySendRequest env.toSelectEnv (ecnxView slot remote_pavail))

theorem raises_fullStart :
    Raises cfg s { s with full_db := s.full_db.push id (SwarmFull.start cfg.mfile) } := by
  refine .keep rfl fun j hj => ?_
  rcases hid : s.full_db.get id with - | w
  · show ((s.full_db.push id _).get j).any _ = true
    rw [KeyedDb.push, KeyedDb.get_link hid]
    split_ifs with hjid
    · rw [isOpen, hjid, hid] at hj
      cases hj
    · exact hj
  · rwa [KeyedDb.push, KeyedDb.link_of_some hid]

/-- **The swarm drives the scheduler by its events only**, and an open connection leaves with
the event which says that it closes. -/
theorem raises_step (s : Swarm) (e : SwarmEvent cfg) : Raises cfg s (s.step e) := by
  -- each message may open the connection for the scheduler first
  have hsup : ∀ (utmsgtype : UtmsgType) (f : Swarm → Swarm) (id : ℕ),
      (∀ s : Swarm, Raises cfg s (f s)) → Raises cfg s (s.whenSupported id utmsgtype f) := by
    intro utmsgtype f id hf
    simp only [whenSupported]
    split_ifs
    · exact raises_notifyCnxOpen.trans (hf _)
    · exact raises_notifyCnxOpen
  cases e with
  | fullStart id => exact raises_fullStart
  | firstParse id => exact raises_notifyCnxOpen
  | recvedCmd env id pkt =>
    simp only [step]
    split_ifs
    · exact raises_notifyCnxOpen.trans raises_autodelete
    · exact raises_notifyCnxOpen.trans (raises_parseRecvedCmd pkt)
  | fullClosed env id => exact raises_autodelete
  | reqauthTimedout env id =>
    rw [step, parseReqauthTimedout]
    split
    · exact .refl s
    · have hset : Raises cfg s (s.updateFull id fun w => { w with reqauth_type := .deny }) :=
        .updateFull fun _ hw => hw
      exact hset.trans (raises_peerSelectUpdate.trans raises_syncDoauthReqCmd)
  | utmsgSupport id utmsgtype support =>
    refine raises_notifyCnxOpen.trans (.updateFull fun w hw => ?_)
    cases support
    · exact hw
    · show (w.cnxVapiCtor utmsgtype).notified_as_open = true
      rw [SwarmFull.cnxVapiCtor]
      simp only []
      split_ifs <;> exact hw
  | utmsgPunavail env id pieceidx => exact hsup _ _ _ fun _ => raises_notifyUtmsgPunavail
  | pwishDoindex env id pieceidx => exact hsup _ _ _ fun _ => raises_notifyUtmsgDowishIndex
  | pwishNoindex id pieceidx => exact hsup _ _ _ fun _ => raises_notifyUtmsgNowishIndex
  | pwishDofield env id field_datum => exact hsup _ _ _ fun _ => raises_parseDowishField field_datum
  | sendFront id => exact .updateFull fun _ hw => hw
  | requestTimeout cnx piece_idx totfile_beg =>
    exact .sched (.requestTimeout cnx piece_idx totfile_beg)
  | ioWriteDone piece_idx totfile_beg => exact .sched (.ioWriteDone piece_idx totfile_beg)
  | pieceChecked piece_idx hash_ok => exact raises_pieceChecked hash_ok
  | declarePieceNewlyAvail piece_idx => exact raises_declarePieceNewlyAvail
  | declarePieceNomoreAvail env piece_idx => exact raises_declarePieceNomoreAvail
  | notifyPieceprecChange env => exact .sched (.notifyPieceprecChange env.toSelectEnv s.cnxDb)
  | ecnxOpened env slot remote_pavail size => exact raises_parseEcnxOpened remote_pavail
  | ecnxClosed env slot => exact raises_parseEcnxClosed
  | ecnxBlockRep env slot sched_req => exact raises_parseEcnxBlockRep sched_req

/-! ### Over a run -/

section Run

variable {pieceavail_local : Pieceavail} {partavail_piece_inval : FileSizeInval}

theorem ok_step {allowed : Prop} (h : s.sched.Ok cfg allowed) (e : SwarmEvent cfg) :
    (s.step e).sched.Ok cfg allowed := by
  obtain ⟨es, hs, -⟩ := raises_step s e
  rw [hs]
  exact Sched.inv_run h es

/-- The invariant of the scheduler over a run.  The resume data is within the file: what a
swarm saves is (`Sched.getPartavailPieceInval_lt`). -/
theorem always_ok (hlt : ∀ x, x ∈ partavail_piece_inval → x < cfg.mfile.totfile_size)
    (evs : List (SwarmEvent cfg)) :
    Always step (fun s => s.sched.Ok cfg (Sched.FullyResumed cfg partavail_piece_inval))
      (start cfg pieceavail_local partavail_piece_inval) evs :=
  always_invariant (fun _ e h => ok_step h e) (Sched.inv_start hlt) evs

end Run

variable (cfg) in
/-- The bytes of every scheduled piece are partitioned, and they are the bytes which the
piece has in the file. -/
def PiecesPartitioned (s : Swarm) : Prop :=
  ∀ i p, s.sched.piece.obj i = some p →
    p.Partition ∧ p.totfile_range = pieceidxToTotfileRange cfg.mfile i

/-- **Piece byte partition**: in every state of every run, from whatever resume data within
the file. -/
theorem always_partition (pieceavail_local : Pieceavail) {partavail_piece_inval : FileSizeInval}
    (hlt : ∀ x, x ∈ partavail_piece_inval → x < cfg.mfile.totfile_size)
    (evs : List (SwarmEvent cfg)) :
    Always step (PiecesPartitioned cfg)
      (start cfg pieceavail_local partavail_piece_inval) evs :=
  (always_ok hlt evs).mono fun _ h _ _ hp =>
    ⟨h.pieces.partition hp trivial, h.pieces.range hp⟩

/-- The first byte of the file, on disk already. -/
def sampleResume : FileSizeInval := .ofItem (FileRange.toInvalItem ⟨0, 0, Nat.le_refl 0⟩)

theorem lt_of_mem_sampleResume : ∀ x, x ∈ sampleResume → x < sampleCfg.mfile.totfile_size := by
  intro x hx
  have hx' : 0 ≤ x ∧ x ≤ 0 := FileSizeInval.mem_ofItem.1 hx
  exact lt_of_le_of_lt hx'.2 (by decide)

/-- A run with a request, its timeout, its reply and the end of the write. -/
theorem always_partition_sample :
    Always step (PiecesPartitioned sampleCfg) (start sampleCfg [false, false] sampleResume)
      [.fullStart 0, .recvedCmd sampleEnv 0 [0x5, 0x80], .recvedCmd sampleEnv 0 [0x1],
        .requestTimeout (.full 0) 0 1,
        .recvedCmd sampleEnv 0 [0x7, 0, 0, 0, 0, 0, 0, 0, 1, 65, 66], .ioWriteDone 0 1,
        .fullClosed sampleEnv 0] :=
  always_partition [false, false] lt_of_mem_sampleResume _

/-- The queue of the connection is full, or there is nothing to request on it: no scheduled piece of
the peer has anything for it, and no other piece is selected. -/
def Saturated (env : SelectEnv cfg) (v : CnxView) (s : Sched) : Prop :=
  Sched.requestNbMax env v.cnx ≤ s.nbPendingRequest v.cnx ∨
    (∀ i, v.remote_pavail.isAvail i = true → s.mayRequestPieceThru i v.cnx = false) ∧
      ∃ hint, env.next_piece_to_select s.local_pdling s.local_pavail v.remote_pavail hint = none

/-- **Saturation**: in every state of every run, an authorised connection which is tried ends
with its request queue full, or with nothing left to request on it. -/
theorem always_saturates (pieceavail_local : Pieceavail) {partavail_piece_inval : FileSizeInval}
    (hlt : ∀ x, x ∈ partavail_piece_inval → x < cfg.mfile.totfile_size)
    (evs : List (SwarmEvent cfg)) :
    Always step (fun s => ∀ (env : SelectEnv cfg) (v : CnxView), v.other_doauth_req = true →
        Saturated env v (s.sched.trySendRequest env v))
      (start cfg pieceavail_local partavail_piece_inval) evs := by
  refine (always_ok hlt evs).mono fun s h env v hauth => ?_
  have hok := (Sched.inv_trySendRequest (v := v) env h).1
  rcases Sched.trySendRequest_saturates env h hauth with hfull | ⟨hint, hnone⟩
  · exact .inl hfull
  · exact .inr (Sched.selectPieceToRequest_eq_none env hok hnone)

/-- A peer which has the first piece, and authorises. -/
theorem always_saturates_sample :
    Saturated sampleEnv.toSelectEnv ⟨.full 0, true, [true, false]⟩
      ((run step (start sampleCfg [false, false] sampleResume) [.fullStart 0,
        .recvedCmd sampleEnv 0 [0x5, 0x80]]).sched.trySendRequest sampleEnv.toSelectEnv
          ⟨.full 0, true, [true, false]⟩) :=
  (always_saturates [false, false] lt_of_mem_sampleResume _).run _ _ rfl

/-! ### The classification over a run -/

/-- Every scheduled piece is listed once, in `do_needreq` exactly when it has a block in
`do_needreq` or a byte never requested; every block is in the `do_needreq` of its piece
exactly when no data of it is being written and it has no pending request. -/
def NeedreqExact (s : Swarm) : Prop :=
  ∀ i p, s.sched.piece.obj i = some p →
    (i ∈ s.sched.piece_do_needreq_db ↔ i ∉ s.sched.piece_no_needreq_db) ∧
    (i ∈ s.sched.piece_do_needreq_db ↔
      p.block_do_needreq_db ≠ [] ∨ p.nevereq_inval.isEmpty = false) ∧
    ∀ k b, p.block.obj k = some b →
      (k ∈ p.block_do_needreq_db ↔ b.bt_io_write = false ∧ b.pending_req_db = [])

theorem needreqExact_of_ok {allowed : Prop} (h : s.sched.Ok cfg allowed) (hno : ¬ allowed) :
    s.NeedreqExact := by
  intro i p hp
  have hc := h.pieces.classified hp
  have hstate : p.state_cur = some p.stateCpu := hc.piece.resolve_right fun hr => hno hr.1
  refine ⟨?_, ?_, fun k b hb => ?_⟩
  · rw [StateDb.mem_db_of_obj hp, StateDb.mem_db_of_obj hp, hstate]
    rcases p.stateCpu with - | - <;> simp
  · rw [StateDb.mem_db_of_obj hp, hstate, Option.some.injEq, SchedPiece.stateCpu_eq_doNeedreq]
  · rw [StateDb.mem_db_of_obj hb, hc.block hb, Option.some.injEq,
      SchedBlock.stateCpu_eq_doNeedreq]

/-- A piece which the resume data covers is listed in `do_needreq` with nothing to request. -/
theorem not_needreqExact_start {pieceavail_local : Pieceavail}
    {partavail_piece_inval : FileSizeInval}
    (hlt : ∀ x, x ∈ partavail_piece_inval → x < cfg.mfile.totfile_size)
    (hfull : Sched.FullyResumed cfg partavail_piece_inval) :
    ¬ (start cfg pieceavail_local partavail_piece_inval).NeedreqExact := by
  intro hexact
  obtain ⟨i, hi, hcover⟩ := hfull
  have hbeg := (pieceidxToTotfileRange cfg.mfile i).beg_mem
  obtain ⟨inval, hobj, hinval⟩ := ((Sched.start_spec hlt).2 i).2
    ⟨_, hcover _ hbeg, ((mem_pieceidxToTotfileRange hi).1 hbeg).2⟩
  -- the constructor links every piece in `do_needreq`
  have hdo : i ∈ (start cfg pieceavail_local partavail_piece_inval).sched.piece_do_needreq_db :=
    (StateDb.mem_db_of_obj hobj).2 rfl
  have hcpu := (hexact i _ hobj).2.1.1 hdo
  rw [← SchedPiece.stateCpu_eq_doNeedreq, SchedPiece.stateCpu_ctor_eq_doNeedreq] at hcpu
  obtain ⟨x, hx, hxinval⟩ := hcpu
  exact hxinval ((hinval x).2 ⟨hx, hcover x hx⟩)

/-- **Need-request classification**: in every state of every run, if no piece is fully
covered by the resume data; if one is, it is wrong from the start. -/
theorem always_needreqExact_iff (pieceavail_local : Pieceavail)
    {partavail_piece_inval : FileSizeInval}
    (hlt : ∀ x, x ∈ partavail_piece_inval → x < cfg.mfile.totfile_size)
    (evs : List (SwarmEvent cfg)) :
    Always step NeedreqExact (start cfg pieceavail_local partavail_piece_inval) evs ↔
      ¬ Sched.FullyResumed cfg partavail_piece_inval := by
  constructor
  · exact fun h hfull => not_needreqExact_start hlt hfull h.head
  · exact fun hno => (always_ok hlt evs).mono fun _ h => needreqExact_of_ok h hno

theorem always_needreqExact_iff_sample :
    Always step NeedreqExact (start sampleCfg [false, false] sampleResume)
      [.fullStart 0, .recvedCmd sampleEnv 0 [0x5, 0x80], .recvedCmd sampleEnv 0 [0x1]] ↔
    ¬ Sched.FullyResumed sampleCfg sampleResume :=
  always_needreqExact_iff [false, false] lt_of_mem_sampleResume _

/-- The four bytes of the first piece are on disk already. -/
theorem not_always_needreqExact :
    ¬ Always step NeedreqExact (start sampleCfg [false, false]
      (.ofItem (FileRange.toInvalItem ⟨0, 3, by decide⟩))) ([] : List (SwarmEvent sampleCfg)) := by
  intro h
  obtain ⟨-, hdo, -⟩ := h 0 _ rfl
  exact absurd (hdo.1 (by decide)) (by decide)

end Swarm

end Neoip
