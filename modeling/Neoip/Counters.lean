/-
Neoip/Counters.lean

The counters of the swarm over whole runs.

`remote_pfreq` should hold, for each piece, how many open connections have it,
and `remote_pwish` how many peers wish it.  Both are moved beside the
connections, and both can be made wrong by a peer:

* a second `PIECE_BFIELD` forgets the pieces of the first one without taking
  them out of `remote_pfreq`;
* a wish for a piece which is wished already is counted again in
  `remote_pwish`, a wish taken back twice is taken out twice, and a peer which
  gets a piece may keep the wish for it.

Main results: `always_pfreqExact_iff` and `always_pwishExact_iff` say which runs
keep the counters right, event by event.
-/
import Neoip.Run
import Neoip.SwarmCount

namespace Neoip

open Remote (Closes)

/-! ### Operations which keep everything -/

/-- What holds of `r` holds of `q`. -/
structure Remote.Kept (nb_piece : ℕ) (r q : Remote) : Prop where
  sane : r.Sane nb_piece → q.Sane nb_piece
  pfreqOk : r.Sane nb_piece → r.PfreqOk nb_piece → q.PfreqOk nb_piece
  pwishOk : r.Sane nb_piece → r.PwishOk nb_piece → q.PwishOk nb_piece
  disjoint : r.Sane nb_piece → r.Disjoint → q.Disjoint

namespace Remote

variable {nb_piece : ℕ} {p r q : Remote} {id slot : ℕ} {w : RemoteFull} {pa : Pieceavail}

theorem Kept.refl (r : Remote) : Kept nb_piece r r :=
  ⟨fun h => h, fun _ h => h, fun _ h => h, fun _ h => h⟩

theorem Kept.of_eq (h : q = r) : Kept nb_piece r q := by
  rw [h]
  exact Kept.refl r

theorem Kept.trans (h : Kept nb_piece p r) (h' : Kept nb_piece r q) : Kept nb_piece p q where
  sane hs := h'.sane (h.sane hs)
  pfreqOk hs hp := h'.pfreqOk (h.sane hs) (h.pfreqOk hs hp)
  pwishOk hs hp := h'.pwishOk (h.sane hs) (h.pwishOk hs hp)
  disjoint hs hd := h'.disjoint (h.sane hs) (h.disjoint hs hd)

theorem Closes.kept (h : Closes r q) : Kept nb_piece r q where
  sane := h.sane
  pfreqOk := h.pfreqOk
  pwishOk := h.pwishOk
  disjoint _ hd := h.disjoint hd

theorem kept_fullStart : Kept nb_piece r (r.fullStart id nb_piece) where
  sane := sane_fullStart
  pfreqOk _ := pfreqOk_fullStart
  pwishOk _ := pwishOk_fullStart
  disjoint _ := disjoint_fullStart

theorem kept_opened (h : r.full_db.get id = some w) (ho : w.notified_as_open = false) :
    Kept nb_piece r (r.opened id w) where
  sane hs := sane_opened hs h
  pfreqOk hs := pfreqOk_opened hs h ho
  pwishOk hs := pwishOk_opened hs h ho
  disjoint _ := disjoint_opened h

theorem kept_ecnxOpened (h : r.ecnx_vapi_db.get slot = none) (hpa : List.length pa = nb_piece) :
    Kept nb_piece r (r.ecnxOpened slot pa) where
  sane hs := sane_ecnxOpened hs h hpa
  pfreqOk hs := pfreqOk_ecnxOpened hs h hpa
  pwishOk _ hp := ⟨hp.faults, hp.drift⟩
  disjoint _ hd := hd

theorem kept_ecnxClosed (h : r.ecnx_vapi_db.get slot = some pa) :
    Kept nb_piece r (r.ecnxClosed slot pa) where
  sane hs := sane_ecnxClosed hs
  pfreqOk hs := pfreqOk_ecnxClosed hs h
  pwishOk _ hp := ⟨hp.faults, hp.drift⟩
  disjoint _ hd := hd

end Remote

open Remote (Kept)

/-- The events by which a peer says what it has and what it wishes. -/
def SwarmEvent.tells {cfg : SwarmCfg} : SwarmEvent cfg → Bool
  | .recvedCmd _ _ (cmdtype :: _) => cmdtype.toNat == 0x4 || cmdtype.toNat == 0x5
  | .utmsgPunavail .. => true
  | .pwishDoindex .. => true
  | .pwishNoindex .. => true
  | .pwishDofield .. => true
  | _ => false

namespace Swarm

variable {cfg : SwarmCfg} {env : SwarmEnv cfg} {s : Swarm} {id idx slot : ℕ} {w : SwarmFull}
  {nb_piece : ℕ}

theorem kept_notifyCnxOpen : Kept nb_piece s.remote (s.notifyCnxOpen id).remote := by
  cases h : s.full_db.get id with
  | none => exact .of_eq (by rw [notifyCnxOpen_of_none h])
  | some w =>
    cases ho : w.notified_as_open with
    | true => exact .of_eq (by rw [notifyCnxOpen_of_open h ho])
    | false =>
      rw [remote_notifyCnxOpen h ho]
      exact Remote.kept_opened (get_remote h) ho

theorem kept_autodelete : Kept nb_piece s.remote (s.autodelete env id).remote :=
  closes_autodelete.kept

theorem kept_parseRecvedCmd {cmdtype : UInt8} {pkt : Datum} (h4 : cmdtype.toNat ≠ 0x4)
    (h5 : cmdtype.toNat ≠ 0x5) :
    Kept nb_piece s.remote (s.parseRecvedCmd env id (cmdtype :: pkt)).remote := by
  rw [parseRecvedCmd]
  split
  · exact .of_eq remote_parseUnauthReqCmd
  · exact .of_eq remote_parseDoauthReqCmd
  · exact .of_eq remote_parseDowantReqCmd
  · exact .of_eq remote_parseUnwantReqCmd
  · rename_i h
    exact absurd h h4
  · rename_i h
    exact absurd h h5
  · exact (closes_parseBlockReq pkt).kept
  · exact (closes_parseBlockRep pkt).kept
  · exact (closes_parseBlockDel pkt).kept
  · exact .refl _

theorem kept_parseEcnxOpened {pa : Pieceavail} (hpa : List.length pa = nb_piece) :
    Kept nb_piece s.remote (s.parseEcnxOpened env slot pa).remote := by
  rw [parseEcnxOpened]
  split
  · exact .refl _
  · rename_i h
    exact Remote.kept_ecnxOpened h hpa

theorem kept_parseEcnxClosed : Kept nb_piece s.remote (s.parseEcnxClosed env slot).remote := by
  rw [parseEcnxClosed]
  split
  · exact .refl _
  · rename_i h
    exact Remote.kept_ecnxClosed h

/-- An event by which no peer tells anything keeps the counters right. -/
theorem kept_step {e : SwarmEvent cfg} (he : e.tells = false) :
    Kept cfg.mfile.nb_piece s.remote (s.step e).remote := by
  cases e with
  | fullStart id =>
    rw [remote_fullStart]
    exact Remote.kept_fullStart
  | firstParse id => exact kept_notifyCnxOpen
  | recvedCmd env id pkt =>
    simp only [step]
    split_ifs
    · exact kept_notifyCnxOpen.trans kept_autodelete
    · cases pkt with
      | nil => exact kept_notifyCnxOpen
      | cons cmdtype pkt =>
        rw [SwarmEvent.tells, Bool.or_eq_false_iff, beq_eq_false_iff_ne,
          beq_eq_false_iff_ne] at he
        exact kept_notifyCnxOpen.trans (kept_parseRecvedCmd he.1 he.2)
  | fullClosed env id => exact kept_autodelete
  | reqauthTimedout env id => exact .of_eq remote_parseReqauthTimedout
  | utmsgSupport id utmsgtype support =>
    refine kept_notifyCnxOpen.trans (.of_eq (remote_updateFull_self fun w => ?_))
    cases support with
    | true => exact w.remote_cnxVapiCtor utmsgtype
    | false => rfl
  | utmsgPunavail env id pieceidx => cases he
  | pwishDoindex env id pieceidx => cases he
  | pwishNoindex id pieceidx => cases he
  | pwishDofield env id field_datum => cases he
  | sendFront id => exact .of_eq (remote_updateFull_self fun _ => rfl)
  | requestTimeout cnx piece_idx totfile_beg => exact .refl _
  | ioWriteDone piece_idx totfile_beg => exact .refl _
  | pieceChecked piece_idx hash_ok => exact .of_eq (remote_pieceChecked hash_ok)
  | declarePieceNewlyAvail piece_idx => exact .of_eq remote_declarePieceNewlyAvail
  | declarePieceNomoreAvail env piece_idx => exact closes_declarePieceNomoreAvail.kept
  | notifyPieceprecChange env => exact .refl _
  | ecnxOpened env slot remote_pavail size => exact kept_parseEcnxOpened size
  | ecnxClosed env slot => exact kept_parseEcnxClosed
  | ecnxBlockRep env slot sched_req => exact .of_eq (remote_parseEcnxBlockRep sched_req)

/-! ### What a peer tells of its pieces -/

/-- The packet of a `PIECE_ISAVAIL` tells a piece which the connection had not. -/
def IsavailNew (w : SwarmFull) (pkt : Datum) (idx : ℕ) : Prop :=
  ∃ rest, readUint32 pkt = some (idx, rest) ∧ idx < w.remote_pavail.nb_piece ∧
    w.remote_pavail.isAvail idx = false

theorem kept_parsePieceIsavailCmd {pkt : Datum} (h : s.full_db.get id = some w)
    (hold : ∀ idx, ¬ IsavailNew w pkt idx) :
    Kept nb_piece s.remote (s.parsePieceIsavailCmd env id pkt).remote := by
  simp only [parsePieceIsavailCmd, h]
  split
  · exact kept_autodelete
  · rename_i idx rest hpkt
    by_cases hlt : idx ≥ w.remote_pavail.nb_piece
    · rw [if_pos hlt]
      exact kept_autodelete
    · rw [if_neg hlt, if_pos]
      · exact .refl _
      · rw [← Bool.not_eq_false]
        exact fun hav => hold idx ⟨rest, hpkt, Nat.not_le.1 hlt, hav⟩

theorem kept_parsePieceBfieldCmd {pkt : Datum} (h : s.full_db.get id = some w)
    (hpkt : Pieceavail.btformatFromPkt pkt cfg.mfile.nb_piece = none) :
    Kept nb_piece s.remote (s.parsePieceBfieldCmd env id pkt).remote := by
  simp only [parsePieceBfieldCmd, h, hpkt]
  exact kept_autodelete

theorem kept_notifyUtmsgPunavail (h : s.full_db.get id = some w)
    (hav : w.remote_pavail.isAvail idx = false) :
    Kept nb_piece s.remote (s.notifyUtmsgPunavail env id idx).remote := by
  have hun : w.remote_pavail.isUnavail idx = true := by
    rw [Pieceavail.isUnavail, hav]
    rfl
  simp only [notifyUtmsgPunavail, h, if_pos hun]
  split_ifs
  · exact kept_autodelete
  · exact .refl _

/-- A `PIECE_ISAVAIL` is one or two operations, and maybe a close. -/
theorem isavail_cases (h : s.full_db.get id = some w) (env : SwarmEnv cfg) (pkt : Datum) :
    ((∀ idx, ¬ IsavailNew w pkt idx) ∧
      Kept cfg.mfile.nb_piece s.remote (s.parsePieceIsavailCmd env id pkt).remote) ∨
    ∃ idx, IsavailNew w pkt idx ∧
      ((w.noSupport .piecewish = true ∧
          Closes ((s.remote.noindex id w.remote idx).isavail id
            { w.remote with remote_pwish := w.remote_pwish.clear idx } idx)
            (s.parsePieceIsavailCmd env id pkt).remote) ∨
        (w.noSupport .piecewish = false ∧
          (s.parsePieceIsavailCmd env id pkt).remote =
            if s.local_pavail.isFullyAvail && (w.remote_pavail.markIsavail idx).isFullyAvail then
              (s.remote.isavail id w.remote idx).closed id
                { w.remote with remote_pavail := w.remote_pavail.markIsavail idx }
            else s.remote.isavail id w.remote idx)) := by
  by_cases hnew : ∃ idx, IsavailNew w pkt idx
  · obtain ⟨idx, rest, hpkt, hlt, hav⟩ := hnew
    refine .inr ⟨idx, ⟨rest, hpkt, hlt, hav⟩, ?_⟩
    cases hsup : w.noSupport .piecewish with
    | true => exact .inl ⟨rfl, closes_parsePieceIsavailCmd_noSupport h hpkt hlt hav hsup⟩
    | false => exact .inr ⟨rfl, remote_parsePieceIsavailCmd_doSupport h hpkt hlt hav hsup⟩
  · have hold := not_exists.1 hnew
    exact .inl ⟨hold, kept_parsePieceIsavailCmd h hold⟩

/-- Who cannot tell its wishes must wish the new piece; who can must not, unless two seeds
close. -/
def IsavailFits (s : Swarm) (w : SwarmFull) (pkt : Datum) : Prop :=
  ∀ idx, IsavailNew w pkt idx →
    if w.noSupport .piecewish then w.remote_pwish.get idx = true
    else w.remote_pwish.get idx = false ∨
      (s.isSeed && (w.remote_pavail.markIsavail idx).isFullyAvail) = true

theorem isavailFits_iff {pkt : Datum} (hnew : IsavailNew w pkt idx) : IsavailFits s w pkt ↔
    if w.noSupport .piecewish then w.remote_pwish.get idx = true
    else w.remote_pwish.get idx = false ∨
      (s.isSeed && (w.remote_pavail.markIsavail idx).isFullyAvail) = true := by
  constructor
  · exact fun hfits => hfits idx hnew
  · rintro hidx idx' ⟨rest', hpkt', -⟩
    obtain ⟨rest, hpkt, -⟩ := hnew
    rw [hpkt, Option.some.injEq, Prod.mk.injEq] at hpkt'
    rwa [← hpkt'.1]

section Open

/-! The connection is there, and open. -/

variable (hs : s.remote.Sane cfg.mfile.nb_piece) (h : s.full_db.get id = some w)
  (ho : w.notified_as_open = true)
include hs h ho

theorem sane_parsePieceIsavailCmd (pkt : Datum) :
    (s.parsePieceIsavailCmd env id pkt).remote.Sane cfg.mfile.nb_piece := by
  have hget := get_remote h
  obtain ⟨-, hkept⟩ | ⟨idx, -, ⟨-, hcl⟩ | ⟨-, hr⟩⟩ := isavail_cases h env pkt
  · exact hkept.sane hs
  · refine hcl.sane (Remote.sane_isavail (Remote.sane_noindex hs hget) ?_ ho)
    exact (Remote.get_setFull hget).trans (if_pos rfl)
  · rw [hr]
    split_ifs
    · exact Remote.sane_closed (Remote.sane_isavail hs hget ho)
    · exact Remote.sane_isavail hs hget ho

theorem pfreqOk_parsePieceIsavailCmd (pkt : Datum) (hp : s.remote.PfreqOk cfg.mfile.nb_piece) :
    (s.parsePieceIsavailCmd env id pkt).remote.PfreqOk cfg.mfile.nb_piece := by
  have hget := get_remote h
  have hnb := hs.nb_piece hget
  obtain ⟨-, hkept⟩ | ⟨idx, ⟨rest, -, hlt, hav⟩, hcase⟩ := isavail_cases h env pkt
  · exact hkept.pfreqOk hs hp
  replace hlt : idx < cfg.mfile.nb_piece := hnb ▸ hlt
  obtain ⟨-, hcl⟩ | ⟨-, hr⟩ := hcase
  · have hget' : (s.remote.noindex id w.remote idx).full_db.get id =
        some { w.remote with remote_pwish := w.remote_pwish.clear idx } :=
      (Remote.get_setFull hget).trans (if_pos rfl)
    have hs' : (s.remote.noindex id w.remote idx).Sane _ := Remote.sane_noindex hs hget
    refine hcl.pfreqOk (Remote.sane_isavail hs' hget' ho) ?_
    exact Remote.pfreqOk_isavail hs' hget' ho (Remote.pfreqOk_noindex hget hp) hlt hav
  · have hs' : (s.remote.isavail id w.remote idx).Sane _ := Remote.sane_isavail hs hget ho
    have hp' := Remote.pfreqOk_isavail hs hget ho hp hlt hav
    rw [hr]
    split_ifs
    · exact Remote.pfreqOk_closed hs' ((Remote.get_setFull hget).trans (if_pos rfl)) hp'
    · exact hp'

theorem pwish_parsePieceIsavailCmd (pkt : Datum) (hp : s.remote.PwishOk cfg.mfile.nb_piece)
    (hd : s.remote.Disjoint) :
    (s.parsePieceIsavailCmd env id pkt).remote.PwishOk cfg.mfile.nb_piece ∧
      (s.parsePieceIsavailCmd env id pkt).remote.Disjoint ↔ IsavailFits s w pkt := by
  have hget := get_remote h
  have hnb := hs.nb_piece hget
  obtain ⟨hold, hkept⟩ | ⟨idx, hnew, hcase⟩ := isavail_cases h env pkt
  · exact iff_of_true ⟨hkept.pwishOk hs hp, hkept.disjoint hs hd⟩
      fun idx hnew => absurd hnew (hold idx)
  rw [isavailFits_iff hnew]
  have hlt : idx < cfg.mfile.nb_piece := hnb ▸ hnew.choose_spec.2.1
  obtain ⟨hsup, hcl⟩ | ⟨hsup, hr⟩ := hcase
  · -- the wish is taken back first
    have hget' : (s.remote.noindex id w.remote idx).full_db.get id =
        some { w.remote with remote_pwish := w.remote_pwish.clear idx } :=
      (Remote.get_setFull hget).trans (if_pos rfl)
    have hs' : (s.remote.noindex id w.remote idx).Sane _ := Remote.sane_noindex hs hget
    have hsane : Remote.Sane _ (Remote.isavail _ id _ idx) := Remote.sane_isavail hs' hget' ho
    rw [hsup, if_pos rfl]
    constructor
    · rintro ⟨hp', -⟩
      have hdr := hp'.drift idx hlt
      rw [hcl.pwishDrift hsane hlt, Remote.pwishDrift_isavail hget',
        Remote.pwishDrift_noindex hs hget ho hlt, hp.drift idx hlt] at hdr
      simpa using hdr
    · intro hyes
      have hp' := (Remote.pwishOk_noindex hs hget ho hp).2 ⟨hlt, hyes⟩
      have hd' : (s.remote.noindex id w.remote idx).Disjoint := Remote.disjoint_noindex hget hd
      refine ⟨hcl.pwishOk hsane (Remote.pwishOk_isavail hget' hp'), hcl.disjoint ?_⟩
      rw [Remote.disjoint_isavail hs' hget' hd' hlt, Bitfield.get_clear, if_pos rfl]
  · have hsane : (s.remote.isavail id w.remote idx).Sane _ := Remote.sane_isavail hs hget ho
    have hp' : (s.remote.isavail id w.remote idx).PwishOk _ := Remote.pwishOk_isavail hget hp
    have hget' : (s.remote.isavail id w.remote idx).full_db.get id =
        some { w.remote with remote_pavail := w.remote_pavail.markIsavail idx } :=
      (Remote.get_setFull hget).trans (if_pos rfl)
    have hbut : (s.remote.isavail id w.remote idx).DisjointBut id :=
      (Remote.disjointBut_isavail hget).2 ((Remote.disjoint_iff hget).1 hd).1
    rw [hr, hsup, if_neg Bool.false_ne_true]
    show _ ↔ _ ∨ (s.local_pavail.isFullyAvail && _) = true
    split_ifs with hseeds
    · exact iff_of_true ⟨Remote.pwishOk_closed hsane hget' hp', Remote.disjoint_closed hbut⟩
        (.inr hseeds)
    · rw [or_iff_left hseeds, Remote.disjoint_isavail hs hget hd hlt]
      exact and_iff_right hp'

theorem sane_parsePieceBfieldCmd (pkt : Datum) :
    (s.parsePieceBfieldCmd env id pkt).remote.Sane cfg.mfile.nb_piece := by
  have hget := get_remote h
  cases hpkt : Pieceavail.btformatFromPkt pkt cfg.mfile.nb_piece with
  | none => exact (kept_parsePieceBfieldCmd h hpkt).sane hs
  | some pa =>
    have hpa := Pieceavail.btformatFromPkt_length hpkt
    have hsane := Remote.sane_bfield hs hget hpa ho
    cases hsup : w.noSupport .piecewish with
    | true =>
      refine (closes_parsePieceBfieldCmd_noSupport h hpkt hsup).sane ?_
      refine Remote.sane_dofield hsane ((Remote.get_setFull hget).trans (if_pos rfl)) ?_
      exact Bitfield.length_compl.trans hpa
    | false =>
      rw [remote_parsePieceBfieldCmd_doSupport h hpkt hsup]
      split_ifs
      · exact Remote.sane_closed hsane
      · exact hsane

/-- What the connection had before is counted for ever. -/
theorem pfreqOk_parsePieceBfieldCmd (pkt : Datum) (hp : s.remote.PfreqOk cfg.mfile.nb_piece) :
    (s.parsePieceBfieldCmd env id pkt).remote.PfreqOk cfg.mfile.nb_piece ↔
      ∀ pa, Pieceavail.btformatFromPkt pkt cfg.mfile.nb_piece = some pa →
        w.remote_pavail.isAnySet = false := by
  have hget := get_remote h
  cases hpkt : Pieceavail.btformatFromPkt pkt cfg.mfile.nb_piece with
  | none => exact iff_of_true ((kept_parsePieceBfieldCmd h hpkt).pfreqOk hs hp) nofun
  | some pa =>
    have hpa := Pieceavail.btformatFromPkt_length hpkt
    have hsane := Remote.sane_bfield hs hget hpa ho
    have hget' : (s.remote.bfield id w.remote pa).full_db.get id =
        some { w.remote with remote_pavail := pa } :=
      (Remote.get_setFull hget).trans (if_pos rfl)
    -- after the bitfield is counted, the drift does not move any more
    have hend : ∃ r, Closes r (s.parsePieceBfieldCmd env id pkt).remote ∧
        r.Sane cfg.mfile.nb_piece ∧
        (∀ i, r.pfreqDrift i = (s.remote.bfield id w.remote pa).pfreqDrift i) ∧
        r.remote_pfreq = (s.remote.bfield id w.remote pa).remote_pfreq := by
      cases hsup : w.noSupport .piecewish with
      | true =>
        refine ⟨_, closes_parsePieceBfieldCmd_noSupport h hpkt hsup, ?_, fun i => ?_, rfl⟩
        · exact Remote.sane_dofield hsane hget' (Bitfield.length_compl.trans hpa)
        · exact Remote.pfreqDrift_dofield hget'
      | false =>
        refine ⟨_, ?_, hsane, fun i => rfl, rfl⟩
        rw [remote_parsePieceBfieldCmd_doSupport h hpkt hsup]
        split_ifs
        · exact .one hget'
        · exact .refl _
    obtain ⟨r, hcl, hr, hdrift, hcount⟩ := hend
    have hiff : (s.parsePieceBfieldCmd env id pkt).remote.PfreqOk cfg.mfile.nb_piece ↔
        (s.remote.bfield id w.remote pa).PfreqOk cfg.mfile.nb_piece := by
      constructor
      · intro hp'
        refine ⟨Bitcount.faults_incField.2 ⟨hp.faults, hs.size_pfreq.trans hpa.symm⟩, ?_⟩
        intro i hi
        rw [← hdrift, ← hcl.pfreqDrift hr hi]
        exact hp'.drift i hi
      · intro hp'
        exact hcl.pfreqOk hr ⟨hcount ▸ hp'.faults, fun i hi => (hdrift i).trans (hp'.drift i hi)⟩
    rw [hiff, Remote.pfreqOk_bfield hs hget hpa ho hp, Bitfield.isAnySet_eq_false_iff]
    exact ⟨fun hnone _ _ => hnone, fun hall => hall pa rfl⟩

/-- The new pieces of who can tell its wishes are not wished, unless two seeds close. -/
def BfieldFits (cfg : SwarmCfg) (s : Swarm) (w : SwarmFull) (pkt : Datum) : Prop :=
  ∀ pa, Pieceavail.btformatFromPkt pkt cfg.mfile.nb_piece = some pa →
    w.noSupport .piecewish = true ∨ (s.isSeed && pa.isFullyAvail) = true ∨
      ∀ i < cfg.mfile.nb_piece, pa.isAvail i = true → w.remote_pwish.get i = false

theorem pwish_parsePieceBfieldCmd (pkt : Datum) (hp : s.remote.PwishOk cfg.mfile.nb_piece)
    (hd : s.remote.Disjoint) :
    (s.parsePieceBfieldCmd env id pkt).remote.PwishOk cfg.mfile.nb_piece ∧
      (s.parsePieceBfieldCmd env id pkt).remote.Disjoint ↔ BfieldFits cfg s w pkt := by
  have hget := get_remote h
  cases hpkt : Pieceavail.btformatFromPkt pkt cfg.mfile.nb_piece with
  | none =>
    have hkept : Kept cfg.mfile.nb_piece s.remote (s.parsePieceBfieldCmd env id pkt).remote :=
      kept_parsePieceBfieldCmd h hpkt
    refine iff_of_true ⟨hkept.pwishOk hs hp, hkept.disjoint hs hd⟩ fun pa hpa => ?_
    exact absurd (hpkt.symm.trans hpa) nofun
  | some pa =>
    have hpa := Pieceavail.btformatFromPkt_length hpkt
    have hfits : BfieldFits cfg s w pkt ↔
        w.noSupport .piecewish = true ∨ (s.isSeed && pa.isFullyAvail) = true ∨
          ∀ i < cfg.mfile.nb_piece, pa.isAvail i = true → w.remote_pwish.get i = false := by
      constructor
      · exact fun hfits => hfits pa hpkt
      · intro hpa' pa' hpkt'
        rwa [← Option.some.inj (hpkt.symm.trans hpkt')]
    have hsane := Remote.sane_bfield hs hget hpa ho
    have hp' : (s.remote.bfield id w.remote pa).PwishOk _ := Remote.pwishOk_bfield hget hp
    have hbut := ((Remote.disjoint_iff hget).1 hd).1
    have hbut' : (s.remote.bfield id w.remote pa).DisjointBut id :=
      (Remote.disjointBut_bfield hget).2 hbut
    have hget' : (s.remote.bfield id w.remote pa).full_db.get id =
        some { w.remote with remote_pavail := pa } :=
      (Remote.get_setFull hget).trans (if_pos rfl)
    rw [hfits]
    cases hsup : w.noSupport .piecewish with
    | true =>
      -- a peer without piecewish is said to want what it has not
      have hlen := Bitfield.length_compl.trans hpa
      have hcl : Closes _ (s.parsePieceBfieldCmd env id pkt).remote :=
        closes_parsePieceBfieldCmd_noSupport h hpkt hsup
      refine iff_of_true ⟨hcl.pwishOk (Remote.sane_dofield hsane hget' hlen)
        (Remote.pwishOk_dofield hsane hget' ho hlen hp'), hcl.disjoint ?_⟩ (.inl rfl)
      refine Remote.disjoint_dofield hget' hbut' fun i hi => ?_
      rw [Bitfield.get_compl, show Bitfield.get pa i = true from hi, Bool.not_true,
        Bool.and_false]
    | false =>
      rw [remote_parsePieceBfieldCmd_doSupport h hpkt hsup]
      show _ ↔ false = true ∨ (s.local_pavail.isFullyAvail && _) = true ∨ _
      split_ifs with hseeds
      -- two seeds: the connection is closed
      · exact iff_of_true ⟨Remote.pwishOk_closed hsane hget' hp',
          Remote.disjoint_closed hbut'⟩ (.inr (.inl hseeds))
      · rw [false_or, or_iff_right hseeds,
          Remote.disjoint_bfield hget hbut, and_iff_right hp']
        constructor
        · exact fun hno i _ => hno i
        · exact fun hno i hi => hno i (hpa ▸ Bitfield.lt_of_get hi) hi

omit ho in
/-- `notify_utmsg_punavail`: a piece which the connection has is not wished, so that its wish
can be counted. -/
theorem sane_notifyUtmsgPunavail (idx : ℕ) :
    (s.notifyUtmsgPunavail env id idx).remote.Sane cfg.mfile.nb_piece := by
  have hget := get_remote h
  cases hav : w.remote_pavail.isAvail idx with
  | false => exact (kept_notifyUtmsgPunavail h hav).sane hs
  | true =>
    have hsane : (s.remote.unavail id w.remote idx).Sane _ := Remote.sane_unavail hs hget
    rw [remote_notifyUtmsgPunavail h hav]
    split_ifs
    · exact Remote.sane_doindex hsane ((Remote.get_setFull hget).trans (if_pos rfl))
    · exact hsane

theorem pfreqOk_notifyUtmsgPunavail (idx : ℕ) (hp : s.remote.PfreqOk cfg.mfile.nb_piece) :
    (s.notifyUtmsgPunavail env id idx).remote.PfreqOk cfg.mfile.nb_piece := by
  have hget := get_remote h
  cases hav : w.remote_pavail.isAvail idx with
  | false => exact (kept_notifyUtmsgPunavail h hav).pfreqOk hs hp
  | true =>
    have hp' : (s.remote.unavail id w.remote idx).PfreqOk _ :=
      Remote.pfreqOk_unavail hs hget ho hp hav
    rw [remote_notifyUtmsgPunavail h hav]
    split_ifs
    · exact Remote.pfreqOk_doindex ((Remote.get_setFull hget).trans (if_pos rfl)) hp'
    · exact hp'

theorem pwish_notifyUtmsgPunavail (idx : ℕ) (hp : s.remote.PwishOk cfg.mfile.nb_piece)
    (hd : s.remote.Disjoint) :
    (s.notifyUtmsgPunavail env id idx).remote.PwishOk cfg.mfile.nb_piece ∧
      (s.notifyUtmsgPunavail env id idx).remote.Disjoint := by
  have hget := get_remote h
  cases hav : w.remote_pavail.isAvail idx with
  | false =>
    have hkept : Kept cfg.mfile.nb_piece s.remote (s.notifyUtmsgPunavail env id idx).remote :=
      kept_notifyUtmsgPunavail h hav
    exact ⟨hkept.pwishOk hs hp, hkept.disjoint hs hd⟩
  | true =>
    have hidx : idx < cfg.mfile.nb_piece := hs.pavail hget ▸ Bitfield.lt_of_get hav
    have hsane : (s.remote.unavail id w.remote idx).Sane _ := Remote.sane_unavail hs hget
    have hp' : (s.remote.unavail id w.remote idx).PwishOk _ := Remote.pwishOk_unavail hget hp
    have hd' : (s.remote.unavail id w.remote idx).Disjoint := Remote.disjoint_unavail hget hd
    have hget' : (s.remote.unavail id w.remote idx).full_db.get id =
        some { w.remote with remote_pavail := w.remote_pavail.markUnavail idx } :=
      (Remote.get_setFull hget).trans (if_pos rfl)
    rw [remote_notifyUtmsgPunavail h hav]
    split_ifs
    · refine ⟨(Remote.pwishOk_doindex hsane hget' ho hp').2 ⟨hidx, hd hget idx hav⟩, ?_⟩
      refine Remote.disjoint_doindex hsane hget' hd' hidx ?_
      rw [Pieceavail.isAvail_markUnavail, if_pos rfl]
    · exact ⟨hp', hd'⟩

/-! ### What a peer tells of its wishes -/

omit ho in
theorem sane_notifyUtmsgDowishIndex (idx : ℕ) :
    (s.notifyUtmsgDowishIndex env id idx).remote.Sane cfg.mfile.nb_piece := by
  rw [remote_notifyUtmsgDowishIndex (get_remote h)]
  split_ifs
  · exact Remote.sane_closed hs
  · exact Remote.sane_doindex hs (get_remote h)

omit ho in
theorem pfreqOk_notifyUtmsgDowishIndex (idx : ℕ) (hp : s.remote.PfreqOk cfg.mfile.nb_piece) :
    (s.notifyUtmsgDowishIndex env id idx).remote.PfreqOk cfg.mfile.nb_piece := by
  rw [remote_notifyUtmsgDowishIndex (get_remote h)]
  split_ifs
  · exact Remote.pfreqOk_closed hs (get_remote h) hp
  · exact Remote.pfreqOk_doindex (get_remote h) hp

theorem pwish_notifyUtmsgDowishIndex (idx : ℕ) (hp : s.remote.PwishOk cfg.mfile.nb_piece)
    (hd : s.remote.Disjoint) :
    (s.notifyUtmsgDowishIndex env id idx).remote.PwishOk cfg.mfile.nb_piece ∧
      (s.notifyUtmsgDowishIndex env id idx).remote.Disjoint ↔
    w.remote_pavail.isAvail idx = true ∨
      (idx < cfg.mfile.nb_piece ∧ w.remote_pwish.get idx = false) := by
  have hget := get_remote h
  rw [remote_notifyUtmsgDowishIndex hget, SwarmFull.remote_remote_pavail]
  cases hav : w.remote_pavail.isAvail idx with
  | true =>
    have hcl := Remote.Closes.one hget
    rw [if_pos rfl]
    exact iff_of_true ⟨hcl.pwishOk hs hp, hcl.disjoint hd⟩ (.inl rfl)
  | false =>
    rw [if_neg Bool.false_ne_true, or_iff_right Bool.false_ne_true,
      Remote.pwishOk_doindex hs hget ho hp]
    exact and_iff_left_of_imp fun ⟨hidx, _⟩ => Remote.disjoint_doindex hs hget hd hidx hav

omit ho in
theorem sane_notifyUtmsgNowishIndex (idx : ℕ) :
    (s.notifyUtmsgNowishIndex id idx).remote.Sane cfg.mfile.nb_piece := by
  rw [remote_notifyUtmsgNowishIndex (get_remote h)]
  exact Remote.sane_noindex hs (get_remote h)

omit hs ho in
theorem pfreqOk_notifyUtmsgNowishIndex (idx : ℕ) (hp : s.remote.PfreqOk cfg.mfile.nb_piece) :
    (s.notifyUtmsgNowishIndex id idx).remote.PfreqOk cfg.mfile.nb_piece := by
  rw [remote_notifyUtmsgNowishIndex (get_remote h)]
  exact Remote.pfreqOk_noindex (get_remote h) hp

theorem pwish_notifyUtmsgNowishIndex (idx : ℕ) (hp : s.remote.PwishOk cfg.mfile.nb_piece)
    (hd : s.remote.Disjoint) :
    (s.notifyUtmsgNowishIndex id idx).remote.PwishOk cfg.mfile.nb_piece ∧
      (s.notifyUtmsgNowishIndex id idx).remote.Disjoint ↔
    idx < cfg.mfile.nb_piece ∧ w.remote_pwish.get idx = true := by
  rw [remote_notifyUtmsgNowishIndex (get_remote h),
    and_iff_left (Remote.disjoint_noindex (get_remote h) hd),
    Remote.pwishOk_noindex hs (get_remote h) ho hp]
  rfl

omit hs ho in
/-- A field of wishes is a close, or it replaces the old one. -/
theorem dofield_cases (field_datum : Datum) :
    Closes s.remote (s.parseDowishField env id field_datum).remote ∨
    ∃ bf : Bitfield, bf.length = cfg.mfile.nb_piece ∧ Remote.Apart { w.remote with remote_pwish := bf } ∧
      (s.parseDowishField env id field_datum).remote = s.remote.dofield id w.remote bf := by
  have hget := get_remote h
  simp only [parseDowishField]
  split_ifs with hnull
  · exact .inl (.refl _)
  · rw [remote_notifyUtmsgDowishField hget]
    split_ifs with hand
    · exact .inl (.one hget)
    · have hlen : (Bitfield.fromDatum field_datum cfg.mfile.nb_piece).length = cfg.mfile.nb_piece := by
        rw [Bitfield.fromDatum] at hnull ⊢
        split_ifs at hnull ⊢
        · exact absurd rfl hnull
        · exact Bitfield.length_bitsOfDatum _ _
      refine .inr ⟨_, hlen, fun i hi => ?_, rfl⟩
      rw [Bitfield.isAnySet_and] at hand
      rw [← Bool.not_eq_true]
      exact fun hyes => hand ⟨i, hi, .inl hyes⟩

omit ho in
theorem sane_parseDowishField (field_datum : Datum) :
    (s.parseDowishField env id field_datum).remote.Sane cfg.mfile.nb_piece := by
  obtain hcl | ⟨bf, hlen, -, hr⟩ := dofield_cases h field_datum
  · exact hcl.sane hs
  · rw [hr]
    exact Remote.sane_dofield hs (get_remote h) hlen

omit ho in
theorem pfreqOk_parseDowishField (field_datum : Datum)
    (hp : s.remote.PfreqOk cfg.mfile.nb_piece) :
    (s.parseDowishField env id field_datum).remote.PfreqOk cfg.mfile.nb_piece := by
  obtain hcl | ⟨bf, -, -, hr⟩ := dofield_cases h field_datum
  · exact hcl.pfreqOk hs hp
  · rw [hr]
    exact Remote.pfreqOk_dofield (get_remote h) hp

theorem pwish_parseDowishField (field_datum : Datum) (hp : s.remote.PwishOk cfg.mfile.nb_piece)
    (hd : s.remote.Disjoint) :
    (s.parseDowishField env id field_datum).remote.PwishOk cfg.mfile.nb_piece ∧
      (s.parseDowishField env id field_datum).remote.Disjoint := by
  have hget := get_remote h
  obtain hcl | ⟨bf, hlen, hapart, hr⟩ := dofield_cases h field_datum
  · exact ⟨hcl.pwishOk hs hp, hcl.disjoint hd⟩
  · rw [hr]
    exact ⟨Remote.pwishOk_dofield hs hget ho hlen hp,
      Remote.disjoint_dofield hget ((Remote.disjoint_iff hget).1 hd).1 hapart⟩

end Open

/-! ### The steps of the swarm -/

/-- A connection which is there is open when it parses. -/
theorem open_cases (s : Swarm) (id : ℕ) :
    (s.full_db.get id = none ∧ s.notifyCnxOpen id = s) ∨
    ∃ w w', s.full_db.get id = some w ∧ (s.notifyCnxOpen id).full_db.get id = some w' ∧
      w'.notified_as_open = true ∧ w'.remote_pavail = w.remote_pavail ∧
      w'.remote_pwish = w.remote_pwish ∧ w'.cnx_vapi_db = w.cnx_vapi_db := by
  cases h : s.full_db.get id with
  | none => exact .inl ⟨rfl, notifyCnxOpen_of_none h⟩
  | some w =>
    obtain ⟨w', hw', hr, hdb⟩ := get_notifyCnxOpen h
    refine .inr ⟨w, w', rfl, hw', ?_, ?_, ?_, hdb⟩
    · exact congrArg RemoteFull.notified_as_open hr
    · exact congrArg RemoteFull.remote_pavail hr
    · exact congrArg RemoteFull.remote_pwish hr

section Recved

variable {cmdtype : UInt8} {pkt : Datum}

theorem step_isavail (hcmd : cmdtype.toNat = 0x4)
    (hlen : ¬ (cmdtype :: pkt).length > cfg.recv_cmd_maxlen) :
    s.step (.recvedCmd env id (cmdtype :: pkt)) =
      (s.notifyCnxOpen id).parsePieceIsavailCmd env id pkt := by
  simp only [step, if_neg hlen, parseRecvedCmd, hcmd]

theorem step_bfield (hcmd : cmdtype.toNat = 0x5)
    (hlen : ¬ (cmdtype :: pkt).length > cfg.recv_cmd_maxlen) :
    s.step (.recvedCmd env id (cmdtype :: pkt)) =
      (s.notifyCnxOpen id).parsePieceBfieldCmd env id pkt := by
  simp only [step, if_neg hlen, parseRecvedCmd, hcmd]

/-- A command which is too long closes the connection. -/
theorem kept_step_tooLong (hlen : (cmdtype :: pkt).length > cfg.recv_cmd_maxlen) :
    Kept nb_piece s.remote (s.step (.recvedCmd env id (cmdtype :: pkt))).remote := by
  simp only [step, if_pos hlen]
  exact kept_notifyCnxOpen.trans kept_autodelete

theorem tells_recvedCmd (he : (SwarmEvent.recvedCmd env id (cmdtype :: pkt)).tells = true) :
    cmdtype.toNat = 0x4 ∨ cmdtype.toNat = 0x5 := by
  rwa [SwarmEvent.tells, Bool.or_eq_true, beq_iff_eq, beq_iff_eq] at he

end Recved

/-- What has to be shown for a message of an extension. -/
theorem whenSupported_cases (s : Swarm) (id : ℕ) (utmsgtype : UtmsgType) (f : Swarm → Swarm) :
    (s.whenSupported id utmsgtype f = s.notifyCnxOpen id ∧
      ∀ w, s.full_db.get id = some w → w.doSupport utmsgtype = false) ∨
    ∃ w w', s.full_db.get id = some w ∧ (s.notifyCnxOpen id).full_db.get id = some w' ∧
      w'.notified_as_open = true ∧ w'.remote_pavail = w.remote_pavail ∧
      w'.remote_pwish = w.remote_pwish ∧ w.doSupport utmsgtype = true ∧
      s.whenSupported id utmsgtype f = f (s.notifyCnxOpen id) := by
  obtain ⟨hnone, hs⟩ | ⟨w, w', hw, hw', ho, hav, hwish, hdb⟩ := open_cases s id
  · refine .inl ⟨?_, fun w hw => absurd (hnone.symm.trans hw) nofun⟩
    simp only [whenSupported, hs, hnone, Option.any_none, if_neg Bool.false_ne_true]
  · have hsup : w'.doSupport utmsgtype = w.doSupport utmsgtype := by
      rw [SwarmFull.doSupport, hdb]
      rfl
    cases hdo : w.doSupport utmsgtype with
    | false =>
      refine .inl ⟨?_, fun v hv => ?_⟩
      · simp only [whenSupported, hw', Option.any_some, hsup, hdo, if_neg Bool.false_ne_true]
      · rw [hw, Option.some.injEq] at hv
        rwa [← hv]
    | true =>
      refine .inr ⟨w, w', hw, hw', ho, hav, hwish, hdo, ?_⟩
      simp only [whenSupported, hw', Option.any_some, hsup, hdo, if_true]

theorem parsePieceIsavailCmd_of_none (h : s.full_db.get id = none) (pkt : Datum) :
    s.parsePieceIsavailCmd env id pkt = s := by
  simp only [parsePieceIsavailCmd, h]

theorem parsePieceBfieldCmd_of_none (h : s.full_db.get id = none) (pkt : Datum) :
    s.parsePieceBfieldCmd env id pkt = s := by
  simp only [parsePieceBfieldCmd, h]

theorem sane_step (hs : s.remote.Sane cfg.mfile.nb_piece) (e : SwarmEvent cfg) :
    (s.step e).remote.Sane cfg.mfile.nb_piece := by
  cases he : e.tells with
  | false => exact (kept_step he).sane hs
  | true =>
    have hopen : ∀ id, (s.notifyCnxOpen id).remote.Sane cfg.mfile.nb_piece :=
      fun id => kept_notifyCnxOpen.sane hs
    cases e with
    | recvedCmd env id pkt =>
      cases pkt with
      | nil => cases he
      | cons cmdtype pkt =>
        by_cases hlen : (cmdtype :: pkt).length > cfg.recv_cmd_maxlen
        · exact (kept_step_tooLong hlen).sane hs
        obtain ⟨hnone, heq⟩ | ⟨-, w, -, h, ho, -⟩ := open_cases s id
        · obtain hcmd | hcmd := tells_recvedCmd he
          · rwa [step_isavail hcmd hlen, heq, parsePieceIsavailCmd_of_none hnone]
          · rwa [step_bfield hcmd hlen, heq, parsePieceBfieldCmd_of_none hnone]
        · obtain hcmd | hcmd := tells_recvedCmd he
          · rw [step_isavail hcmd hlen]
            exact sane_parsePieceIsavailCmd (hopen id) h ho pkt
          · rw [step_bfield hcmd hlen]
            exact sane_parsePieceBfieldCmd (hopen id) h ho pkt
    | utmsgPunavail env id pieceidx =>
      obtain ⟨heq, -⟩ | ⟨-, w, -, h, -, -, -, -, heq⟩ := whenSupported_cases s id .punavail
        fun s => s.notifyUtmsgPunavail env id pieceidx
      · rw [step, heq]
        exact hopen id
      · rw [step, heq]
        exact sane_notifyUtmsgPunavail (hopen id) h pieceidx
    | pwishDoindex env id pieceidx =>
      obtain ⟨heq, -⟩ | ⟨-, w, -, h, -, -, -, -, heq⟩ := whenSupported_cases s id .piecewish
        fun s => s.notifyUtmsgDowishIndex env id pieceidx
      · rw [step, heq]
        exact hopen id
      · rw [step, heq]
        exact sane_notifyUtmsgDowishIndex (hopen id) h pieceidx
    | pwishNoindex id pieceidx =>
      obtain ⟨heq, -⟩ | ⟨-, w, -, h, -, -, -, -, heq⟩ := whenSupported_cases s id .piecewish
        fun s => s.notifyUtmsgNowishIndex id pieceidx
      · rw [step, heq]
        exact hopen id
      · rw [step, heq]
        exact sane_notifyUtmsgNowishIndex (hopen id) h pieceidx
    | pwishDofield env id field_datum =>
      obtain ⟨heq, -⟩ | ⟨-, w, -, h, -, -, -, -, heq⟩ := whenSupported_cases s id .piecewish
        fun s => s.parseDowishField env id field_datum
      · rw [step, heq]
        exact hopen id
      · rw [step, heq]
        exact sane_parseDowishField (hopen id) h field_datum
    | _ => cases he

/-! ### The pieces over a run -/

/-- The open connections which have the piece. -/
def nbAvail (s : Swarm) (i : ℕ) : ℕ :=
  s.full_db.count (fun w => w.notified_as_open && w.remote_pavail.isAvail i) +
    s.ecnx_vapi_db.count fun remote_pavail => remote_pavail.isAvail i

variable (cfg) in
/-- For each piece, `remote_pfreq` holds how many open connections have it, and no
operation on it went wrong: no index out of it, no decrement of a zero. -/
def PfreqExact (s : Swarm) : Prop :=
  s.remote_pfreq.faults = [] ∧
    ∀ i < cfg.mfile.nb_piece, s.remote_pfreq.get i = s.nbAvail i

instance : DecidablePred (PfreqExact cfg) := fun s =>
  inferInstanceAs (Decidable (s.remote_pfreq.faults = [] ∧
    ∀ i < cfg.mfile.nb_piece, s.remote_pfreq.get i = s.nbAvail i))

theorem pfreqExact_iff : PfreqExact cfg s ↔ s.remote.PfreqOk cfg.mfile.nb_piece := by
  have hnb : ∀ i, s.remote.nbAvail i = s.nbAvail i := by
    intro i
    rw [Remote.nbAvail, remote, KeyedDb.count_map]
    rfl
  constructor
  · rintro ⟨hf, hcount⟩
    refine ⟨hf, fun i hi => ?_⟩
    rw [Remote.pfreqDrift, hnb]
    exact sub_eq_zero.2 (hcount i hi)
  · rintro ⟨hf, hdrift⟩
    refine ⟨hf, fun i hi => ?_⟩
    have hd := hdrift i hi
    rw [Remote.pfreqDrift, hnb] at hd
    exact sub_eq_zero.1 hd

/-- A `PIECE_BFIELD` which is accepted comes before the connection told any piece. -/
def BfieldFirst (s : Swarm) : SwarmEvent cfg → Prop
  | .recvedCmd _ id (cmdtype :: pkt) =>
    cmdtype.toNat = 0x5 → (cmdtype :: pkt).length ≤ cfg.recv_cmd_maxlen →
      (Bitfield.ofSize cfg.mfile.nb_piece).toDatumSize ≤ pkt.length →
        ∀ w, s.full_db.get id = some w → w.remote_pavail.isAnySet = false
  | _ => True

theorem pfreqOk_step_recvedCmd {cmdtype : UInt8} {pkt : Datum}
    (hs : s.remote.Sane cfg.mfile.nb_piece) (hp : s.remote.PfreqOk cfg.mfile.nb_piece)
    (he : (SwarmEvent.recvedCmd env id (cmdtype :: pkt)).tells = true) :
    (s.step (.recvedCmd env id (cmdtype :: pkt))).remote.PfreqOk cfg.mfile.nb_piece ↔
      BfieldFirst s (.recvedCmd env id (cmdtype :: pkt)) := by
  by_cases hlen : (cmdtype :: pkt).length > cfg.recv_cmd_maxlen
  · exact iff_of_true ((kept_step_tooLong hlen).pfreqOk hs hp)
      fun _ hle => absurd hle (Nat.not_le.2 hlen)
  have hkept : Kept cfg.mfile.nb_piece s.remote (s.notifyCnxOpen id).remote := kept_notifyCnxOpen
  obtain ⟨hnone, heq⟩ | ⟨w, w', hw, hw', ho, hav, -, -⟩ := open_cases s id
  · have hvac : BfieldFirst s (.recvedCmd env id (cmdtype :: pkt)) :=
      fun _ _ _ w hw => absurd (hnone.symm.trans hw) nofun
    obtain hcmd | hcmd := tells_recvedCmd he
    · rw [step_isavail hcmd hlen, heq, parsePieceIsavailCmd_of_none hnone]
      exact iff_of_true hp hvac
    · rw [step_bfield hcmd hlen, heq, parsePieceBfieldCmd_of_none hnone]
      exact iff_of_true hp hvac
  · obtain hcmd | hcmd := tells_recvedCmd he
    · rw [step_isavail hcmd hlen]
      refine iff_of_true (pfreqOk_parsePieceIsavailCmd (hkept.sane hs) hw' ho pkt
        (hkept.pfreqOk hs hp)) fun h5 => ?_
      exact absurd (hcmd.symm.trans h5) (by decide)
    · rw [step_bfield hcmd hlen,
        pfreqOk_parsePieceBfieldCmd (hkept.sane hs) hw' ho pkt (hkept.pfreqOk hs hp), hav]
      constructor
      · intro hfirst _ _ hsize v hv
        rw [← Option.some.inj (hw.symm.trans hv)]
        exact hfirst _ (if_neg (Nat.not_lt.2 hsize))
      · intro hfirst pa hpa
        refine hfirst hcmd (Nat.not_lt.1 hlen) ?_ w hw
        by_contra hsize
        rw [Pieceavail.btformatFromPkt, if_pos (Nat.not_le.1 hsize)] at hpa
        cases hpa

theorem pfreqOk_step (hs : s.remote.Sane cfg.mfile.nb_piece)
    (hp : s.remote.PfreqOk cfg.mfile.nb_piece) (e : SwarmEvent cfg) :
    (s.step e).remote.PfreqOk cfg.mfile.nb_piece ↔ BfieldFirst s e := by
  cases he : e.tells with
  | false =>
    refine iff_of_true ((kept_step he).pfreqOk hs hp) ?_
    cases e with
    | recvedCmd env id pkt =>
      cases pkt with
      | nil => trivial
      | cons cmdtype pkt =>
        rw [SwarmEvent.tells, Bool.or_eq_false_iff, beq_eq_false_iff_ne,
          beq_eq_false_iff_ne] at he
        exact fun h5 => absurd h5 he.2
    | _ => trivial
  | true =>
    have hs' : ∀ id, (s.notifyCnxOpen id).remote.Sane cfg.mfile.nb_piece :=
      fun id => kept_notifyCnxOpen.sane hs
    have hp' : ∀ id, (s.notifyCnxOpen id).remote.PfreqOk cfg.mfile.nb_piece :=
      fun id => kept_notifyCnxOpen.pfreqOk hs hp
    cases e with
    -- only a bitfield which is not the first message may count twice
    | recvedCmd env id pkt =>
      cases pkt with
      | nil => cases he
      | cons cmdtype pkt => exact pfreqOk_step_recvedCmd hs hp he
    | utmsgPunavail env id pieceidx =>
      refine iff_of_true ?_ trivial
      obtain ⟨heq, -⟩ | ⟨-, w, -, h, ho, -, -, -, heq⟩ := whenSupported_cases s id .punavail
        fun s => s.notifyUtmsgPunavail env id pieceidx
      · rw [step, heq]
        exact hp' id
      · rw [step, heq]
        exact pfreqOk_notifyUtmsgPunavail (hs' id) h ho pieceidx (hp' id)
    | pwishDoindex env id pieceidx =>
      refine iff_of_true ?_ trivial
      obtain ⟨heq, -⟩ | ⟨-, w, -, h, -, -, -, -, heq⟩ := whenSupported_cases s id .piecewish
        fun s => s.notifyUtmsgDowishIndex env id pieceidx
      · rw [step, heq]
        exact hp' id
      · rw [step, heq]
        exact pfreqOk_notifyUtmsgDowishIndex (hs' id) h pieceidx (hp' id)
    | pwishNoindex id pieceidx =>
      refine iff_of_true ?_ trivial
      obtain ⟨heq, -⟩ | ⟨-, w, -, h, -, -, -, -, heq⟩ := whenSupported_cases s id .piecewish
        fun s => s.notifyUtmsgNowishIndex id pieceidx
      · rw [step, heq]
        exact hp' id
      · rw [step, heq]
        exact pfreqOk_notifyUtmsgNowishIndex h pieceidx (hp' id)
    | pwishDofield env id field_datum =>
      refine iff_of_true ?_ trivial
      obtain ⟨heq, -⟩ | ⟨-, w, -, h, -, -, -, -, heq⟩ := whenSupported_cases s id .piecewish
        fun s => s.parseDowishField env id field_datum
      · rw [step, heq]
        exact hp' id
      · rw [step, heq]
        exact pfreqOk_parseDowishField (hs' id) h field_datum (hp' id)
    | _ => cases he

theorem sane_start (pieceavail_local : Pieceavail) (partavail : FileSizeInval) :
    (start cfg pieceavail_local partavail).remote.Sane cfg.mfile.nb_piece :=
  ⟨Bitcount.size_ofSize _, Bitcount.size_ofSize _, nofun, nofun, nofun, nofun⟩

/-- **The piece counter over a run** is exact as long as no `PIECE_BFIELD` replaces pieces
which a connection told before, and only so long. -/
theorem always_pfreqExact_iff (cfg : SwarmCfg) (pieceavail_local : Pieceavail)
    (partavail : FileSizeInval) (evs : List (SwarmEvent cfg)) :
    Always step (PfreqExact cfg) (start cfg pieceavail_local partavail) evs ↔
      Guarded step BfieldFirst (start cfg pieceavail_local partavail) evs := by
  apply always_iff_guarded (Q := fun s => s.remote.Sane cfg.mfile.nb_piece)
  · exact fun s e hs _ => sane_step hs e
  · intro s e hs hp
    rw [pfreqExact_iff]
    exact pfreqOk_step hs (pfreqExact_iff.1 hp) e
  · refine pfreqExact_iff.2 ⟨rfl, fun i _ => ?_⟩
    exact sub_eq_zero.2 (Bitcount.get_ofSize _ _)
  · exact sane_start pieceavail_local partavail

/-- A peer which sends its bitfield twice is counted twice. -/
theorem not_always_pfreqExact :
    ¬ Always step (PfreqExact sampleCfg) (start sampleCfg [false, false] .null)
      [.fullStart 0, .recvedCmd sampleEnv 0 [0x5, 0x80], .recvedCmd sampleEnv 0 [0x5, 0x80]] := by
  decide

/-! ### The wishes over a run -/

/-- The open connections whose peer wishes the piece. -/
def nbWish (s : Swarm) (i : ℕ) : ℕ :=
  s.full_db.count fun w => w.notified_as_open && w.remote_pwish.get i

variable (cfg) in
/-- For each piece, `remote_pwish` holds how many peers wish it, no operation on it went
wrong, and no peer wishes what it has. -/
def PwishExact (s : Swarm) : Prop :=
  s.remote_pwish.faults = [] ∧
    (∀ i < cfg.mfile.nb_piece, s.remote_pwish.get i = s.nbWish i) ∧
      ∀ x ∈ s.full_db.item, ∀ i < cfg.mfile.nb_piece,
        ¬ (x.2.remote_pavail.isAvail i = true ∧ x.2.remote_pwish.get i = true)

instance : DecidablePred (PwishExact cfg) := fun s =>
  inferInstanceAs (Decidable (s.remote_pwish.faults = [] ∧
    (∀ i < cfg.mfile.nb_piece, s.remote_pwish.get i = s.nbWish i) ∧
      ∀ x ∈ s.full_db.item, ∀ i < cfg.mfile.nb_piece,
        ¬ (x.2.remote_pavail.isAvail i = true ∧ x.2.remote_pwish.get i = true)))

theorem disjoint_iff_item (hs : s.remote.Sane cfg.mfile.nb_piece) : s.remote.Disjoint ↔
    ∀ x ∈ s.full_db.item, ∀ i < cfg.mfile.nb_piece,
      ¬ (x.2.remote_pavail.isAvail i = true ∧ x.2.remote_pwish.get i = true) := by
  constructor
  · rintro hd x hx i - ⟨hav, hwish⟩
    have hno := hd (get_remote (KeyedDb.mem_item_iff.1 hx)) i hav
    exact absurd (hwish.symm.trans hno) nofun
  · intro hd id v hv i hi
    obtain ⟨w, hw, rfl⟩ := of_get_remote hv
    rw [← Bool.not_eq_true]
    intro hwish
    exact hd (id, w) (KeyedDb.mem_item_iff.2 hw) i (hs.pavail hv ▸ Bitfield.lt_of_get hi)
      ⟨hi, hwish⟩

theorem pwishExact_iff (hs : s.remote.Sane cfg.mfile.nb_piece) :
    PwishExact cfg s ↔ s.remote.PwishOk cfg.mfile.nb_piece ∧ s.remote.Disjoint := by
  have hnb : ∀ i, s.remote.nbWish i = s.nbWish i := by
    intro i
    rw [Remote.nbWish, remote, KeyedDb.count_map]
    rfl
  rw [disjoint_iff_item hs, PwishExact, ← and_assoc]
  refine and_congr_left fun _ => ?_
  constructor
  · rintro ⟨hf, hcount⟩
    refine ⟨hf, fun i hi => ?_⟩
    rw [Remote.pwishDrift, hnb]
    exact sub_eq_zero.2 (hcount i hi)
  · rintro ⟨hf, hdrift⟩
    refine ⟨hf, fun i hi => ?_⟩
    have hd := hdrift i hi
    rw [Remote.pwishDrift, hnb] at hd
    exact sub_eq_zero.1 hd

/-- The messages which fit what the peer told before: it wishes a piece which it does not
wish yet, takes back a wish which it has, and gets pieces which it does not wish any more. -/
def WishFits (s : Swarm) : SwarmEvent cfg → Prop
  | .recvedCmd _ id (cmdtype :: pkt) =>
    (cmdtype :: pkt).length ≤ cfg.recv_cmd_maxlen → ∀ w, s.full_db.get id = some w →
      (cmdtype.toNat = 0x4 → IsavailFits s w pkt) ∧
        (cmdtype.toNat = 0x5 → BfieldFits cfg s w pkt)
  | .pwishDoindex _ id pieceidx => ∀ w, s.full_db.get id = some w →
      w.doSupport .piecewish = true → w.remote_pavail.isAvail pieceidx = true ∨
        (pieceidx < cfg.mfile.nb_piece ∧ w.remote_pwish.get pieceidx = false)
  | .pwishNoindex id pieceidx => ∀ w, s.full_db.get id = some w →
      w.doSupport .piecewish = true →
        pieceidx < cfg.mfile.nb_piece ∧ w.remote_pwish.get pieceidx = true
  | _ => True

section WishStep

variable (hs : s.remote.Sane cfg.mfile.nb_piece) (hp : s.remote.PwishOk cfg.mfile.nb_piece)
  (hd : s.remote.Disjoint)
include hs hp hd

theorem pwish_step_recvedCmd {cmdtype : UInt8} {pkt : Datum}
    (he : (SwarmEvent.recvedCmd env id (cmdtype :: pkt)).tells = true) :
    (s.step (.recvedCmd env id (cmdtype :: pkt))).remote.PwishOk cfg.mfile.nb_piece ∧
      (s.step (.recvedCmd env id (cmdtype :: pkt))).remote.Disjoint ↔
    WishFits s (.recvedCmd env id (cmdtype :: pkt)) := by
  by_cases hlen : (cmdtype :: pkt).length > cfg.recv_cmd_maxlen
  · have hkept : Kept cfg.mfile.nb_piece s.remote
        (s.step (.recvedCmd env id (cmdtype :: pkt))).remote := kept_step_tooLong hlen
    exact iff_of_true ⟨hkept.pwishOk hs hp, hkept.disjoint hs hd⟩
      fun hle => absurd hle (Nat.not_le.2 hlen)
  have hkept : Kept cfg.mfile.nb_piece s.remote (s.notifyCnxOpen id).remote := kept_notifyCnxOpen
  obtain ⟨hnone, heq⟩ | ⟨w, w', hw, hw', ho, hav, hwish, hdb⟩ := open_cases s id
  · have hvac : WishFits s (.recvedCmd env id (cmdtype :: pkt)) :=
      fun _ w hw => absurd (hnone.symm.trans hw) nofun
    obtain hcmd | hcmd := tells_recvedCmd he
    · rw [step_isavail hcmd hlen, heq, parsePieceIsavailCmd_of_none hnone]
      exact iff_of_true ⟨hp, hd⟩ hvac
    · rw [step_bfield hcmd hlen, heq, parsePieceBfieldCmd_of_none hnone]
      exact iff_of_true ⟨hp, hd⟩ hvac
  -- what the connection told is not changed by its opening
  have hseed : (s.notifyCnxOpen id).isSeed = s.isSeed := by
    rw [isSeed, local_pavail, sched_notifyCnxOpen]
    rfl
  have hsup : w'.noSupport .piecewish = w.noSupport .piecewish := by
    rw [SwarmFull.noSupport, SwarmFull.doSupport, hdb]
    rfl
  have hfits : WishFits s (.recvedCmd env id (cmdtype :: pkt)) ↔
      (cmdtype.toNat = 0x4 → IsavailFits s w pkt) ∧
        (cmdtype.toNat = 0x5 → BfieldFits cfg s w pkt) := by
    constructor
    · exact fun hfits => hfits (Nat.not_lt.1 hlen) w hw
    · intro hfits _ v hv
      rwa [← Option.some.inj (hw.symm.trans hv)]
  rw [hfits]
  obtain hcmd | hcmd := tells_recvedCmd he
  · rw [step_isavail hcmd hlen, pwish_parsePieceIsavailCmd (hkept.sane hs) hw' ho pkt
      (hkept.pwishOk hs hp) (hkept.disjoint hs hd), hcmd]
    simp only [IsavailFits, IsavailNew, hav, hwish, hsup, hseed, forall_const,
      Nat.reduceEqDiff, false_imp_iff, and_true]
  · rw [step_bfield hcmd hlen, pwish_parsePieceBfieldCmd (hkept.sane hs) hw' ho pkt
      (hkept.pwishOk hs hp) (hkept.disjoint hs hd), hcmd]
    simp only [BfieldFits, hwish, hsup, hseed, forall_const, Nat.reduceEqDiff, false_imp_iff,
      true_and]

theorem pwish_step (e : SwarmEvent cfg) :
    (s.step e).remote.PwishOk cfg.mfile.nb_piece ∧ (s.step e).remote.Disjoint ↔ WishFits s e := by
  cases he : e.tells with
  | false =>
    -- an event which says nothing of the wishes keeps the counters
    have hkept : Kept cfg.mfile.nb_piece s.remote (s.step e).remote := kept_step he
    refine iff_of_true ⟨hkept.pwishOk hs hp, hkept.disjoint hs hd⟩ ?_
    cases e with
    | recvedCmd env id pkt =>
      cases pkt with
      | nil => trivial
      | cons cmdtype pkt =>
        rw [SwarmEvent.tells, Bool.or_eq_false_iff, beq_eq_false_iff_ne,
          beq_eq_false_iff_ne] at he
        exact fun _ _ _ => ⟨fun h4 => absurd h4 he.1, fun h5 => absurd h5 he.2⟩
    | pwishDoindex env id pieceidx => cases he
    | pwishNoindex id pieceidx => cases he
    | _ => trivial
  | true =>
    have hs' : ∀ id, (s.notifyCnxOpen id).remote.Sane cfg.mfile.nb_piece :=
      fun id => kept_notifyCnxOpen.sane hs
    have hp' : ∀ id, (s.notifyCnxOpen id).remote.PwishOk cfg.mfile.nb_piece :=
      fun id => kept_notifyCnxOpen.pwishOk hs hp
    have hd' : ∀ id, (s.notifyCnxOpen id).remote.Disjoint :=
      fun id => kept_notifyCnxOpen.disjoint hs hd
    cases e with
    | recvedCmd env id pkt =>
      cases pkt with
      | nil => cases he
      | cons cmdtype pkt => exact pwish_step_recvedCmd hs hp hd he
    | utmsgPunavail env id pieceidx =>
      refine iff_of_true ?_ trivial
      obtain ⟨heq, -⟩ | ⟨-, w, -, h, ho, -, -, -, heq⟩ := whenSupported_cases s id .punavail
        fun s => s.notifyUtmsgPunavail env id pieceidx
      · rw [step, heq]
        exact ⟨hp' id, hd' id⟩
      · rw [step, heq]
        exact pwish_notifyUtmsgPunavail (hs' id) h ho pieceidx (hp' id) (hd' id)
    | pwishDoindex env id pieceidx =>
      obtain ⟨heq, hno⟩ | ⟨w, w', hw, h, ho, hav, hwish, hsup, heq⟩ :=
        whenSupported_cases s id .piecewish fun s => s.notifyUtmsgDowishIndex env id pieceidx
      -- a connection which does not support the message is left as it is
      · rw [step, heq]
        refine iff_of_true ⟨hp' id, hd' id⟩ fun w hw hsup => ?_
        exact absurd (hsup.symm.trans (hno w hw)) nofun
      · rw [step, heq,
          pwish_notifyUtmsgDowishIndex (hs' id) h ho pieceidx (hp' id) (hd' id), hav, hwish]
        constructor
        · intro hfits v hv _
          rwa [← Option.some.inj (hw.symm.trans hv)]
        · exact fun hfits => hfits w hw hsup
    | pwishNoindex id pieceidx =>
      obtain ⟨heq, hno⟩ | ⟨w, w', hw, h, ho, hav, hwish, hsup, heq⟩ :=
        whenSupported_cases s id .piecewish fun s => s.notifyUtmsgNowishIndex id pieceidx
      · rw [step, heq]
        refine iff_of_true ⟨hp' id, hd' id⟩ fun w hw hsup => ?_
        exact absurd (hsup.symm.trans (hno w hw)) nofun
      · rw [step, heq,
          pwish_notifyUtmsgNowishIndex (hs' id) h ho pieceidx (hp' id) (hd' id), hwish]
        constructor
        · intro hfits v hv _
          rwa [← Option.some.inj (hw.symm.trans hv)]
        · exact fun hfits => hfits w hw hsup
    | pwishDofield env id field_datum =>
      refine iff_of_true ?_ trivial
      obtain ⟨heq, -⟩ | ⟨-, w, -, h, ho, -, -, -, heq⟩ := whenSupported_cases s id .piecewish
        fun s => s.parseDowishField env id field_datum
      · rw [step, heq]
        exact ⟨hp' id, hd' id⟩
      · rw [step, heq]
        exact pwish_parseDowishField (hs' id) h ho field_datum (hp' id) (hd' id)
    | _ => cases he

end WishStep

/-- **The wish counter over a run** is exact, with the wishes apart from the pieces, as long
as every message fits what its peer told before, and only so long. -/
theorem always_pwishExact_iff (cfg : SwarmCfg) (pieceavail_local : Pieceavail)
    (partavail : FileSizeInval) (evs : List (SwarmEvent cfg)) :
    Always step (PwishExact cfg) (start cfg pieceavail_local partavail) evs ↔
      Guarded step WishFits (start cfg pieceavail_local partavail) evs := by
  apply always_iff_guarded (Q := fun s => s.remote.Sane cfg.mfile.nb_piece)
  · exact fun s e hs _ => sane_step hs e
  · intro s e hs hp
    obtain ⟨hp, hd⟩ := (pwishExact_iff hs).1 hp
    rw [pwishExact_iff (sane_step hs e)]
    exact pwish_step hs hp hd e
  · refine (pwishExact_iff (sane_start pieceavail_local partavail)).2 ⟨⟨rfl, fun i _ => ?_⟩, nofun⟩
    exact sub_eq_zero.2 (Bitcount.get_ofSize _ _)
  · exact sane_start pieceavail_local partavail

/-- A peer wishes everything when it starts; a wish which it tells then is counted twice. -/
theorem not_always_pwishExact :
    ¬ Always step (PwishExact sampleCfg) (start sampleCfg [false, false] .null)
      [.fullStart 0, .utmsgSupport 0 .piecewish true, .pwishDoindex sampleEnv 0 1] := by
  decide

end Swarm

end Neoip
