/-
Neoip/PiecewishRun.lean

A sender of wishes, what it has in flight, and its receiver.

The messages of one connection are received in the order they were sent, and a
receiver which closes the connection has no record any more.  Each message
*carries* the record from one field to another; the invariant of a run is that
there is a record, and that what is in flight leads from it to the local wish, so
that both ends agree once everything was received.  `Fits` says what a step needs
for this.  Besides what closes the connection, a change of the precedences which
adds and removes wishes breaks it (`not_piecewish_agrees`).
-/
import Neoip.Piecewish
import Neoip.Run
import Neoip.SwarmCount
import Neoip.Wire

namespace Neoip

namespace Piecewish

/-! ### The sender, and what is in flight -/

/-- What the sender queues for the receiver, as far as wishes go. -/
inductive WishMsg
  | pieceIsavail (pieceidx : ℕ)
  | punavail (pieceidx : ℕ)
  | piecewish (pkt : Datum)

/-- What is recorded as available once the message was received; `punavail` tells whether the
receiver supports the extension which takes pieces back. -/
def WishMsg.availAfter (punavail : Bool) (remote_pavail : Pieceavail) : WishMsg → Pieceavail
  | .pieceIsavail pieceidx => remote_pavail.markIsavail pieceidx
  | .punavail pieceidx =>
    if punavail then remote_pavail.markUnavail pieceidx else remote_pavail
  | .piecewish _ => remote_pavail

/-- A sender with one connection, up to the swarm of the receiver. -/
structure WishLink where
  local_pavail : Pieceavail
  pieceprec : ℕ → ℕ
  local_pwish : Bitfield
  /-- What was sent and is not received yet, in order. -/
  inflight : List WishMsg
  peer : Swarm

/-- What may happen at the two ends of the link. -/
inductive WishEvent (cfg : SwarmCfg)
  /-- The precedences change. -/
  | notifyPieceprecChange (pieceprec : ℕ → ℕ)
  /-- A piece becomes available; `redundant` is what `no_redundant_have` looks for. -/
  | declarePieceNewlyAvail (pieceidx : ℕ) (redundant : Bool)
  /-- A piece is no more available; `punavail` tells whether the connection supports that. -/
  | declarePieceNomoreAvail (pieceidx : ℕ) (punavail : Bool)
  /-- The receiver gets the next message. -/
  | deliver (env : SwarmEnv cfg)

namespace WishLink

variable {cfg : SwarmCfg}

variable (cfg) in
/-- `generate_local_pwish`. -/
def generateLocalPwish (pieceprec : ℕ → ℕ) (local_pavail : Pieceavail) : Bitfield :=
  (List.range cfg.mfile.nb_piece).map fun pieceidx =>
    pieceprec pieceidx ≠ pieceprecNotneeded && !local_pavail.isAvail pieceidx

/-- The message is queued. -/
def send (s : WishLink) (msg : WishMsg) : WishLink := { s with inflight := s.inflight ++ [msg] }

variable (cfg) in
/-- The connection starts to support the extension: the whole field is sent. -/
def start (pieceprec : ℕ → ℕ) (local_pavail : Pieceavail) (peer : Swarm) : WishLink :=
  let local_pwish := generateLocalPwish cfg pieceprec local_pavail
  { local_pavail, pieceprec, local_pwish, peer
    inflight := [.piecewish (buildCmdDowishField local_pwish)] }

variable (cfg) in
/-- `notify_pieceprec_change`: what changed is sent in one packet. -/
def notifyPieceprecChange (s : WishLink) (pieceprec : ℕ → ℕ) : WishLink :=
  let new_local_pwish := generateLocalPwish cfg pieceprec s.local_pavail
  let bt_cmd := buildCmdDeltaBitfield s.local_pwish new_local_pwish
  { s with pieceprec, local_pwish := new_local_pwish }.send (.piecewish bt_cmd)

/-- `declare_piece_newly_avail`: what is wished is no more wished once it is there. -/
def declarePieceNewlyAvail (s : WishLink) (pieceidx : ℕ) (redundant : Bool) : WishLink :=
  let s := { s with local_pavail := s.local_pavail.markIsavail pieceidx }
  let s := if redundant then s else s.send (.pieceIsavail pieceidx)
  if s.local_pwish.get pieceidx then
    { s with local_pwish := s.local_pwish.clear pieceidx }.send
      (.piecewish (buildCmdNowishPieceidx pieceidx))
  else s

/-- `declare_piece_nomore_avail`: what is needed is wished again. -/
def declarePieceNomoreAvail (s : WishLink) (pieceidx : ℕ) (punavail : Bool) : WishLink :=
  let s := { s with local_pavail := s.local_pavail.markUnavail pieceidx }
  let s := if punavail then s.send (.punavail pieceidx) else s
  if s.pieceprec pieceidx = pieceprecNotneeded then s
  else if s.local_pavail.isAvail pieceidx then s
  else { s with local_pwish := s.local_pwish.set pieceidx }.send
    (.piecewish (buildCmdDowishPieceidx pieceidx))

variable (id : ℕ)

/-- The receiver gets one message on its connection `id`.  A packet follows two bytes of its
command, the length of which `parse_recved_data` checks. -/
def receive (env : SwarmEnv cfg) (peer : Swarm) : WishMsg → Swarm
  | .pieceIsavail pieceidx => peer.step (.recvedCmd env id (0x4 :: writeUint32 pieceidx))
  | .punavail pieceidx => peer.step (.utmsgPunavail env id pieceidx)
  | .piecewish pkt =>
    if 2 + pkt.length > cfg.recv_cmd_maxlen then (peer.notifyCnxOpen id).autodelete env id
    else peer.whenSupported id .piecewish (parsePkt env id pkt)

/-- Handle one event. -/
def step (s : WishLink) : WishEvent cfg → WishLink
  | .notifyPieceprecChange pieceprec => s.notifyPieceprecChange cfg pieceprec
  | .declarePieceNewlyAvail pieceidx redundant => s.declarePieceNewlyAvail pieceidx redundant
  | .declarePieceNomoreAvail pieceidx punavail => s.declarePieceNomoreAvail pieceidx punavail
  | .deliver env =>
    match s.inflight with
    | [] => s
    | msg :: inflight => { s with inflight, peer := receive id env s.peer msg }

/-- When everything was received, the receiver has the wish of the sender on record. -/
def Agrees (s : WishLink) : Prop :=
  s.inflight = [] → (s.peer.full_db.get id).map SwarmFull.remote_pwish = some s.local_pwish

/-- What the receiver will record as available once it has what is in flight. -/
def availAfter (s : WishLink) : Pieceavail :=
  match s.peer.full_db.get id with
  | none => []
  | some w => s.inflight.foldl (WishMsg.availAfter (w.doSupport .punavail)) w.remote_pavail

variable (cfg) in
/-- The command is no longer than `recv_cmd_maxlen`, and the piece which it makes available does
not make seeds of both ends, which close then. -/
def Admits (peer : Swarm) : WishMsg → Prop
  | .pieceIsavail pieceidx => 5 ≤ cfg.recv_cmd_maxlen ∧
    ∀ w, peer.full_db.get id = some w → w.remote_pavail.isAvail pieceidx = false →
      ¬(peer.isSeed = true ∧ (w.remote_pavail.markIsavail pieceidx).isFullyAvail = true)
  | .punavail _ => True
  | .piecewish pkt => 2 + pkt.length ≤ cfg.recv_cmd_maxlen

/-- What an event needs to keep both ends equal.  A change of the precedences only adds or only
removes wishes, its indexes are `uint32_t`s, and it adds none which the receiver will record as
available; neither does a piece which is wished again.  The pieces are pieces of the file. -/
def Fits (s : WishLink) : WishEvent cfg → Prop
  | .notifyPieceprecChange pieceprec =>
    DeltaFits s.local_pwish (generateLocalPwish cfg pieceprec s.local_pavail) (s.availAfter id)
  | .declarePieceNewlyAvail pieceidx _ => pieceidx < cfg.mfile.nb_piece ∧ pieceidx < 2 ^ 32
  | .declarePieceNomoreAvail pieceidx punavail =>
    pieceidx < cfg.mfile.nb_piece ∧ pieceidx < 2 ^ 32 ∧
      (s.pieceprec pieceidx ≠ pieceprecNotneeded →
        ((if punavail then s.send (.punavail pieceidx) else s).availAfter id).isAvail pieceidx =
          false)
  | .deliver _ => ∀ msg ∈ s.inflight.head?, Admits cfg id s.peer msg

/-! ### What the receiver keeps of its peer -/

section Record

variable {env : SwarmEnv cfg} {id pieceidx : ℕ} {s : Swarm} {w : SwarmFull}

/-- What counts of a connection here. -/
structure WishRecord where
  remote_pwish : Bitfield
  remote_pavail : Pieceavail
  cnx_vapi_db : List UtmsgType

/-- The record which a connection holds. -/
def WishRecord.ofFull (w : SwarmFull) : WishRecord :=
  ⟨w.remote_pwish, w.remote_pavail, w.cnx_vapi_db⟩

/-- The record of the receiver, if the connection is there. -/
def record (id : ℕ) (s : Swarm) : Option WishRecord := (s.full_db.get id).map WishRecord.ofFull

theorem record_eq_some_iff {pwish : Bitfield} {pavail : Pieceavail} {cnx : List UtmsgType} :
    record id s = some ⟨pwish, pavail, cnx⟩ ↔ ∃ w, s.full_db.get id = some w ∧
      w.remote_pwish = pwish ∧ w.remote_pavail = pavail ∧ w.cnx_vapi_db = cnx := by
  rw [record, Option.map_eq_some_iff]
  simp only [WishRecord.ofFull, WishRecord.mk.injEq]

theorem record_updateFull {f : SwarmFull → SwarmFull} {g : WishRecord → WishRecord}
    (hg : ∀ w, WishRecord.ofFull (f w) = g (WishRecord.ofFull w)) :
    record id (s.updateFull id f) = (record id s).map g := by
  rw [record, record, Swarm.updateFull, KeyedDb.get_modify_self, Option.map_map, Option.map_map]
  exact congrArg (fun f => Option.map f (s.full_db.get id)) (funext hg)

theorem record_notifyCnxOpen : record id (s.notifyCnxOpen id) = record id s := by
  rcases h : s.full_db.get id with - | w
  · rw [Swarm.notifyCnxOpen_of_none h]
  · obtain ⟨w', hw', hrem, hcnx⟩ := Swarm.get_notifyCnxOpen h
    have hwish : w'.remote_pwish = w.remote_pwish := congrArg RemoteFull.remote_pwish hrem
    have hav : w'.remote_pavail = w.remote_pavail := congrArg RemoteFull.remote_pavail hrem
    rw [record, record, h, hw', Option.map_some, Option.map_some, WishRecord.ofFull, hwish, hav,
      hcnx]
    rfl

theorem isSeed_notifyCnxOpen : (s.notifyCnxOpen id).isSeed = s.isSeed :=
  congrArg (fun sched : Sched => sched.local_pavail.isFullyAvail) Swarm.sched_notifyCnxOpen

theorem record_trySendRequest : record id (s.trySendRequest env id) = record id s := by
  rw [Swarm.trySendRequest]
  split <;> rfl

theorem closeIfSeeds_eq_self (h : ∀ w, s.full_db.get id = some w →
    ¬(s.isSeed = true ∧ w.remote_pavail.isFullyAvail = true)) : s.closeIfSeeds env id = s := by
  rw [Swarm.closeIfSeeds, if_neg]
  rw [Bool.and_eq_true, Option.any_eq_true]
  rintro ⟨hseed, w, hw, hfull⟩
  exact h w hw ⟨hseed, hfull⟩

theorem markIsavail_of_isAvail {pavail : Pieceavail} (h : pavail.isAvail pieceidx = true) :
    pavail.markIsavail pieceidx = pavail := by
  refine Bitfield.ext_get (Bitfield.length_set _) fun i _ => ?_
  rw [Pieceavail.markIsavail, Bitfield.get_set]
  split_ifs with hi
  · rw [hi.1]
    exact h.symm
  · rfl

theorem markUnavail_of_isUnavail {pavail : Pieceavail} (h : pavail.isUnavail pieceidx = true) :
    pavail.markUnavail pieceidx = pavail := by
  refine Bitfield.ext_get Bitfield.length_clear fun i _ => ?_
  rw [Pieceavail.markUnavail, Bitfield.get_clear]
  split_ifs with hi
  · rw [Pieceavail.isUnavail, Bool.not_eq_true'] at h
    rw [hi]
    exact h.symm
  · rfl

/-- The end of `parse_piece_isavail_cmd`, where the piece does not make two seeds. -/
theorem record_isavailEnd {r : WishRecord} (hrec : record id s = some r) (hseeds :
      ¬(s.isSeed = true ∧ (r.remote_pavail.markIsavail pieceidx).isFullyAvail = true)) :
    record id (s.isavailEnd env id pieceidx) =
      some { r with remote_pavail := r.remote_pavail.markIsavail pieceidx } := by
  simp only [Swarm.isavailEnd]
  generalize hs' : Swarm.mk _ _ _ _ _ = s'
  have hmark : record id s' =
      some { r with remote_pavail := r.remote_pavail.markIsavail pieceidx } := by
    rw [← hs']
    show record id (s.updateFull id _) = _
    rw [record_updateFull (g := fun r =>
      { r with remote_pavail := r.remote_pavail.markIsavail pieceidx }) fun _ => rfl, hrec]
    rfl
  have htry : record id (s'.trySendRequest env id) = _ := record_trySendRequest.trans hmark
  have hseed : (s'.trySendRequest env id).isSeed = s.isSeed := by
    rw [Swarm.isSeed, Swarm.local_pavail_trySendRequest, ← hs']
    rfl
  rw [closeIfSeeds_eq_self, htry]
  intro v hv
  rw [record, hv, Option.map_some, Option.some.injEq] at htry
  have hav := congrArg WishRecord.remote_pavail htry
  show ¬(_ ∧ (WishRecord.ofFull v).remote_pavail.isFullyAvail = true)
  rw [hseed, hav]
  exact hseeds

/-- A piece of the peer is marked. -/
theorem record_parsePieceIsavailCmd (hw : s.full_db.get id = some w)
    (hsup : w.doSupport .piecewish = true) (hlt : pieceidx < w.remote_pavail.length)
    (huint : pieceidx < 2 ^ 32) (hseeds : w.remote_pavail.isAvail pieceidx = false →
      ¬(s.isSeed = true ∧ (w.remote_pavail.markIsavail pieceidx).isFullyAvail = true)) :
    record id (s.parsePieceIsavailCmd env id (writeUint32 pieceidx)) =
      some { WishRecord.ofFull w with
        remote_pavail := w.remote_pavail.markIsavail pieceidx } := by
  have hpkt : readUint32 (writeUint32 pieceidx) = some (pieceidx, []) := by
    have h := readUint32_writeUint32 huint []
    rwa [List.append_nil] at h
  cases hav : w.remote_pavail.isAvail pieceidx with
  | true =>
    have hge : ¬ pieceidx ≥ w.remote_pavail.nb_piece := Nat.not_le.2 hlt
    simp only [Swarm.parsePieceIsavailCmd, hw, hpkt, if_neg hge, hav, if_true]
    rw [markIsavail_of_isAvail hav, record, hw]
    rfl
  | false =>
    have hno : w.noSupport .piecewish = false := by rw [SwarmFull.noSupport, hsup]; rfl
    rw [Swarm.parsePieceIsavailCmd_eq hw hpkt hlt hav, hno, if_neg Bool.false_ne_true]
    refine record_isavailEnd ?_ (hseeds hav)
    rw [Swarm.becomeInterested, record_updateFull (g := fun r => r), record, hw]
    · rfl
    · intro w
      split_ifs <;> rfl

/-- A piece of the peer is taken back. -/
theorem record_notifyUtmsgPunavail (hw : s.full_db.get id = some w)
    (hsup : w.doSupport .piecewish = true) (hlt : pieceidx < w.remote_pavail.length) :
    record id (s.notifyUtmsgPunavail env id pieceidx) =
      some { WishRecord.ofFull w with
        remote_pavail := w.remote_pavail.markUnavail pieceidx } := by
  have hge : ¬ pieceidx ≥ w.remote_pavail.nb_piece := Nat.not_le.2 hlt
  have hno : ∀ pavail, { w with remote_pavail := pavail }.noSupport .piecewish = false := by
    intro pavail
    show (!w.doSupport .piecewish) = false
    rw [hsup]
    rfl
  simp only [Swarm.notifyUtmsgPunavail, hw, if_neg hge, hno, Bool.false_eq_true, if_false]
  split_ifs with hun
  · rw [markUnavail_of_isUnavail hun, record, hw]
    rfl
  · show ((s.full_db.modify id _).get id).map _ = _
    rw [KeyedDb.get_modify_self, hw]
    rfl

end Record

/-! ### What a message carries -/

section Carries

variable {id pieceidx : ℕ} {cnx_vapi_db : List UtmsgType} {remote_pavail : Pieceavail}
  {old new last : Bitfield} {msg : WishMsg} {inflight : List WishMsg}

variable (cfg id cnx_vapi_db) in
/-- The message, when it is admitted, brings the record of the receiver from `old` to `new`, and
what is recorded as available to what it says. -/
def Carries (remote_pavail : Pieceavail) (old : Bitfield) (msg : WishMsg) (new : Bitfield) : Prop :=
  ∀ (env : SwarmEnv cfg) (s : Swarm), Admits cfg id s msg →
    record id s = some ⟨old, remote_pavail, cnx_vapi_db⟩ →
      record id (receive id env s msg) = some ⟨new,
        msg.availAfter (cnx_vapi_db.contains .punavail) remote_pavail, cnx_vapi_db⟩

theorem carries_pieceIsavail (hsup : cnx_vapi_db.contains .piecewish = true)
    (hlt : pieceidx < remote_pavail.length) (huint : pieceidx < 2 ^ 32) :
    Carries cfg id cnx_vapi_db remote_pavail old (.pieceIsavail pieceidx) old := by
  rintro env s ⟨hmax, hseeds⟩ hrec
  obtain ⟨w₀, hw₀, -, hav₀, -⟩ := record_eq_some_iff.1 hrec
  obtain ⟨w, hw, rfl, rfl, rfl⟩ := record_eq_some_iff.1 (record_notifyCnxOpen.trans hrec)
  have hlen : ¬ (0x4 :: writeUint32 pieceidx).length > cfg.recv_cmd_maxlen := Nat.not_lt.2 hmax
  show record id (Swarm.step s (.recvedCmd env id _)) = _
  simp only [Swarm.step, if_neg hlen]
  refine record_parsePieceIsavailCmd hw hsup hlt huint ?_
  rw [isSeed_notifyCnxOpen, ← hav₀]
  exact hseeds w₀ hw₀

theorem carries_punavail (hsup : cnx_vapi_db.contains .piecewish = true)
    (hlt : pieceidx < remote_pavail.length) :
    Carries cfg id cnx_vapi_db remote_pavail old (.punavail pieceidx) old := by
  rintro env s - hrec
  rw [← record_notifyCnxOpen] at hrec
  obtain ⟨w, hw, rfl, rfl, rfl⟩ := record_eq_some_iff.1 hrec
  show record id (Swarm.step s (.utmsgPunavail env id pieceidx)) = _
  simp only [Swarm.step, Swarm.whenSupported, hw, Option.any_some, WishMsg.availAfter]
  cases hpun : w.doSupport .punavail with
  | true =>
    have hpun' : w.cnx_vapi_db.contains .punavail = true := hpun
    rw [if_pos rfl, record_notifyUtmsgPunavail hw hsup hlt, hpun', if_pos rfl]
    rfl
  | false =>
    have hnot : w.cnx_vapi_db.contains .punavail = false := hpun
    rw [if_neg Bool.false_ne_true, hrec, hnot, if_neg Bool.false_ne_true]

/-- A packet, which `parse_pkt` records. -/
theorem carries_of_parsePkt {pkt : Datum} (hsup : cnx_vapi_db.contains .piecewish = true)
    (h : ∀ (env : SwarmEnv cfg) (s : Swarm) (w : SwarmFull), s.full_db.get id = some w →
      w.remote_pwish = old → w.remote_pavail = remote_pavail →
        (parsePkt env id pkt s).full_db.get id = some { w with remote_pwish := new }) :
    Carries cfg id cnx_vapi_db remote_pavail old (.piecewish pkt) new := by
  intro env s hlen hrec
  obtain ⟨w, hw, rfl, rfl, rfl⟩ := record_eq_some_iff.1 (record_notifyCnxOpen.trans hrec)
  have hany : (some w).any (fun w => w.doSupport .piecewish) = true := hsup
  rw [receive, if_neg (Nat.not_lt.2 hlen), Swarm.whenSupported]
  simp only [hw, hany, if_true]
  rw [record, h env _ w hw rfl rfl]
  rfl

theorem carries_dowishField (hsup : cnx_vapi_db.contains .piecewish = true)
    (hlen : old.length = cfg.mfile.nb_piece) (hnew : new.length = cfg.mfile.nb_piece)
    (hav : remote_pavail.length = cfg.mfile.nb_piece) (hsize : new.toDatumSize < 2 ^ 31)
    (hunavail : ∀ i, new.get i = true → remote_pavail.isAvail i = false) :
    Carries cfg id cnx_vapi_db remote_pavail old (.piecewish (buildCmdDowishField new)) new := by
  apply carries_of_parsePkt hsup
  rintro env s w hw hold rfl
  have hkey : keyDowishField.length < 2 ^ 31 := by decide
  have hok : (Dvar.map [(keyDowishField, .string new.toDatum)]).Ok :=
    ⟨List.pairwise_singleton _ _, hkey, by rwa [Dvar.Ok, Bitfield.length_toDatum], trivial⟩
  rw [parsePkt, buildCmdDowishField, Dvar.mapInsert, Bencode.toDvar_fromDvar hok]
  show (s.parseDowishField env id new.toDatum).full_db.get id = _
  simp only [Swarm.parseDowishField, ← hnew, Bitfield.fromDatum_toDatum]
  split_ifs with hnil
  · -- no piece at all
    have hold' : old = [] := List.eq_nil_of_length_eq_zero (by rw [hlen, ← hnew, hnil]; rfl)
    rw [hw, hnil, ← hold', ← hold]
  · have hnone : ¬ (Bitfield.and w.remote_pavail new).isAnySet = true := by
      rw [Bitfield.isAnySet_and]
      rintro ⟨i, hi, hwish | hge⟩
      · exact Bool.false_ne_true ((hunavail i hwish).symm.trans hi)
      · exact Nat.not_le.2 (hav ▸ Bitfield.lt_of_get hi) (hnew ▸ hge)
    simp only [Swarm.notifyUtmsgDowishField, hw, if_neg hnone]
    exact KeyedDb.get_modify_self.trans (by rw [hw]; rfl)

theorem carries_delta (hsup : cnx_vapi_db.contains .piecewish = true)
    (hlen : new.length = old.length) (hsize : old.length < 2 ^ 63)
    (hfits : DeltaFits old new remote_pavail) :
    Carries cfg id cnx_vapi_db remote_pavail old (.piecewish (buildCmdDeltaBitfield old new))
      new := by
  apply carries_of_parsePkt hsup
  rintro env s w hw rfl rfl
  rcases get_parsePkt_oneWay hw hlen hsize hfits.oneWay hfits.uint32 with
    ⟨⟨i, hold, hi, hav⟩, -⟩ | hsome
  · rw [hfits.unavail i hold hi] at hav
    cases hav
  · exact hsome

theorem toDvar_buildCmdPieceidx {key : Datum} (hkey : key.length < 2 ^ 31)
    (hidx : pieceidx < 2 ^ 32) :
    Bencode.toDvar (buildCmdPieceidx key pieceidx) =
      some (.map [(key, .array (dvarIndexes [pieceidx]))]) := by
  have hidx' : ∀ i ∈ [pieceidx], i < 2 ^ 63 := by
    intro i hi
    rw [List.mem_singleton.1 hi]
    omega
  have hok : (Dvar.map [(key, .array (dvarIndexes [pieceidx]))]).Ok :=
    ⟨List.pairwise_singleton _ _, hkey, okArr_dvarIndexes hidx', trivial⟩
  rw [buildCmdPieceidx, Dvar.mapInsert, Bencode.toDvar_fromDvar hok]

theorem carries_nowish (hsup : cnx_vapi_db.contains .piecewish = true)
    (huint : pieceidx < 2 ^ 32) : Carries cfg id cnx_vapi_db remote_pavail old
      (.piecewish (buildCmdNowishPieceidx pieceidx)) (old.clear pieceidx) := by
  apply carries_of_parsePkt hsup
  rintro env s w hw rfl rfl
  rw [parsePkt, buildCmdNowishPieceidx, toDvar_buildCmdPieceidx (by decide) huint]
  rcases @parseIndexes_uint32 _ _ _ _ Bitfield.clear (fun _ _ => false)
    (fun h => get_notifyUtmsgNowishIndex h) hw [pieceidx] (by simpa using huint) with
    ⟨⟨i, -, hstop⟩, -⟩ | hsome
  · cases hstop
  · exact hsome

theorem carries_dowish (hsup : cnx_vapi_db.contains .piecewish = true)
    (huint : pieceidx < 2 ^ 32) (hav : remote_pavail.isAvail pieceidx = false) :
    Carries cfg id cnx_vapi_db remote_pavail old
      (.piecewish (buildCmdDowishPieceidx pieceidx)) (old.set pieceidx) := by
  apply carries_of_parsePkt hsup
  rintro env s w hw rfl rfl
  rw [parsePkt, buildCmdDowishPieceidx, toDvar_buildCmdPieceidx (by decide) huint]
  rcases @parseIndexes_uint32 _ _ _ _ (fun bf i => bf.set i) _
    (fun h => get_notifyUtmsgDowishIndex h) hw [pieceidx] (by simpa using huint) with
    ⟨⟨i, hi, hstop⟩, -⟩ | hsome
  · rw [List.mem_singleton.1 hi, hav] at hstop
    cases hstop
  · exact hsome

variable (cfg id cnx_vapi_db) in
/-- The messages in flight, when they are admitted, bring the record from `old` to `new`. -/
inductive Path : Pieceavail → Bitfield → List WishMsg → Bitfield → Prop
  | nil (remote_pavail : Pieceavail) (old : Bitfield) : Path remote_pavail old [] old
  | cons {remote_pavail : Pieceavail} {old new last : Bitfield} {msg : WishMsg}
      {inflight : List WishMsg} : Carries cfg id cnx_vapi_db remote_pavail old msg new →
      Path (msg.availAfter (cnx_vapi_db.contains .punavail) remote_pavail) new inflight last →
      Path remote_pavail old (msg :: inflight) last

theorem Path.eq_of_nil (h : Path cfg id cnx_vapi_db remote_pavail old [] new) : old = new := by
  cases h
  rfl

theorem Path.snoc (h : Path cfg id cnx_vapi_db remote_pavail old inflight new)
    (hmsg : Carries cfg id cnx_vapi_db
      (inflight.foldl (WishMsg.availAfter (cnx_vapi_db.contains .punavail)) remote_pavail)
      new msg last) :
    Path cfg id cnx_vapi_db remote_pavail old (inflight ++ [msg]) last := by
  induction h with
  | nil pavail old => exact .cons hmsg (.nil _ last)
  | cons hfirst _ ih => exact .cons hfirst (ih hmsg)

theorem length_availAfter (punavail : Bool) (msg : WishMsg) :
    (msg.availAfter punavail remote_pavail).length = remote_pavail.length := by
  cases msg with
  | pieceIsavail pieceidx => exact Bitfield.length_set _
  | punavail pieceidx =>
    rw [WishMsg.availAfter]
    split_ifs
    · exact Bitfield.length_clear
    · rfl
  | piecewish pkt => rfl

theorem length_foldl_availAfter (punavail : Bool) (inflight : List WishMsg) :
    (inflight.foldl (WishMsg.availAfter punavail) remote_pavail).length =
      remote_pavail.length := by
  induction inflight generalizing remote_pavail with
  | nil => rfl
  | cons msg inflight ih => rw [List.foldl_cons, ih, length_availAfter]

end Carries

/-! ### Over a run -/

section Run

variable {env : SwarmEnv cfg} {id pieceidx : ℕ} {s : WishLink} {msg : WishMsg} {r : WishRecord}

variable (cfg id) in
/-- **The invariant**: the receiver has a record, and what is in flight leads from it to the
local wish. -/
structure Inv (s : WishLink) (r : WishRecord) : Prop where
  record_eq : record id s.peer = some r
  supports : r.cnx_vapi_db.contains .piecewish = true
  avail : r.remote_pavail.length = cfg.mfile.nb_piece
  size : s.local_pwish.length = cfg.mfile.nb_piece
  path : Path cfg id r.cnx_vapi_db r.remote_pavail r.remote_pwish s.inflight s.local_pwish

theorem Inv.availAfter_eq (h : Inv cfg id s r) : s.availAfter id = s.inflight.foldl
    (WishMsg.availAfter (r.cnx_vapi_db.contains .punavail)) r.remote_pavail := by
  obtain ⟨w, hw, rfl⟩ := Option.map_eq_some_iff.1 h.record_eq
  rw [availAfter, hw]
  rfl

theorem Inv.length_availAfter (h : Inv cfg id s r) :
    (s.availAfter id).length = cfg.mfile.nb_piece := by
  rw [h.availAfter_eq, length_foldl_availAfter, h.avail]

theorem Inv.send {local_pwish : Bitfield} (h : Inv cfg id s r)
    (hmsg : Carries cfg id r.cnx_vapi_db (s.availAfter id) s.local_pwish msg local_pwish)
    (hsize : local_pwish.length = s.local_pwish.length) :
    Inv cfg id ({ s with local_pwish }.send msg) r :=
  ⟨h.record_eq, h.supports, h.avail, hsize.trans h.size,
    h.path.snoc (h.availAfter_eq ▸ hmsg)⟩

/-- The invariant does not read the precedences, nor which pieces are available. -/
theorem Inv.congr {s' : WishLink} (h : Inv cfg id s r) (hpeer : s'.peer = s.peer)
    (hinflight : s'.inflight = s.inflight) (hpwish : s'.local_pwish = s.local_pwish) :
    Inv cfg id s' r := by
  refine ⟨hpeer ▸ h.record_eq, h.supports, h.avail, hpwish ▸ h.size, ?_⟩
  rw [hinflight, hpwish]
  exact h.path

theorem length_generateLocalPwish (pieceprec : ℕ → ℕ) (local_pavail : Pieceavail) :
    (generateLocalPwish cfg pieceprec local_pavail).length = cfg.mfile.nb_piece := by
  rw [generateLocalPwish, List.length_map, List.length_range]

/-- What is wished no more, or wished again. -/
theorem Inv.declarePieceNewlyAvail (h : Inv cfg id s r) (hlt : pieceidx < cfg.mfile.nb_piece)
    (huint : pieceidx < 2 ^ 32) (redundant : Bool) :
    Inv cfg id (s.declarePieceNewlyAvail pieceidx redundant) r := by
  have h₁ : Inv cfg id { s with local_pavail := s.local_pavail.markIsavail pieceidx } r :=
    h.congr rfl rfl rfl
  have hlt' : pieceidx < List.length (availAfter id
      { s with local_pavail := s.local_pavail.markIsavail pieceidx }) :=
    h₁.length_availAfter ▸ hlt
  have h₂ := h₁.send (carries_pieceIsavail h.supports hlt' huint) rfl
  cases redundant with
  | true =>
    simp only [WishLink.declarePieceNewlyAvail, if_true]
    split_ifs with hwish
    · exact h₁.send (carries_nowish h.supports huint) Bitfield.length_clear
    · exact h₁
  | false =>
    simp only [WishLink.declarePieceNewlyAvail, Bool.false_eq_true, if_false]
    split_ifs with hwish
    · exact h₂.send (carries_nowish h.supports huint) Bitfield.length_clear
    · exact h₂

theorem Inv.declarePieceNomoreAvail (h : Inv cfg id s r) {punavail : Bool}
    (hlt : pieceidx < cfg.mfile.nb_piece) (huint : pieceidx < 2 ^ 32)
    (hav : s.pieceprec pieceidx ≠ pieceprecNotneeded →
      ((if punavail then s.send (.punavail pieceidx) else s).availAfter id).isAvail pieceidx =
        false) : Inv cfg id (s.declarePieceNomoreAvail pieceidx punavail) r := by
  have h₁ : Inv cfg id { s with local_pavail := s.local_pavail.markUnavail pieceidx } r :=
    h.congr rfl rfl rfl
  have hlt' : pieceidx < List.length (availAfter id
      { s with local_pavail := s.local_pavail.markUnavail pieceidx }) :=
    h₁.length_availAfter ▸ hlt
  have h₂ := h₁.send (carries_punavail h.supports hlt') rfl
  cases punavail with
  | true =>
    simp only [WishLink.declarePieceNomoreAvail, if_true]
    split_ifs with hnot
    · exact h₂
    · exact h₂
    · exact h₂.send (carries_dowish h.supports huint (hav hnot)) (Bitfield.length_set _)
  | false =>
    simp only [WishLink.declarePieceNomoreAvail, Bool.false_eq_true, if_false]
    split_ifs with hnot
    · exact h₁
    · exact h₁
    · exact h₁.send (carries_dowish h.supports huint (hav hnot)) (Bitfield.length_set _)

/-- **A step** keeps the invariant, if it fits. -/
theorem inv_step (hsize : cfg.mfile.nb_piece < 2 ^ 63) (h : ∃ r, Inv cfg id s r)
    {e : WishEvent cfg} (hfits : s.Fits id e) : ∃ r, Inv cfg id (s.step id e) r := by
  obtain ⟨r, h⟩ := h
  cases e with
  | notifyPieceprecChange pieceprec =>
    have hlen : (generateLocalPwish cfg pieceprec s.local_pavail).length = s.local_pwish.length :=
      (length_generateLocalPwish _ _).trans h.size.symm
    have hlt : s.local_pwish.length < 2 ^ 63 := h.size ▸ hsize
    exact ⟨r, Inv.congr (h.send (carries_delta h.supports hlen hlt hfits) hlen) rfl rfl rfl⟩
  | declarePieceNewlyAvail pieceidx redundant =>
    exact ⟨r, h.declarePieceNewlyAvail hfits.1 hfits.2 redundant⟩
  | declarePieceNomoreAvail pieceidx punavail =>
    exact ⟨r, h.declarePieceNomoreAvail hfits.1 hfits.2.1 hfits.2.2⟩
  | deliver env =>
    have hpath := h.path
    simp only [Fits] at hfits
    simp only [step]
    rcases hin : s.inflight with - | ⟨msg, inflight⟩
    · exact ⟨r, h⟩
    · -- the path goes on from the record after the message
      rw [hin] at hpath hfits
      cases hpath with
      | @cons _ _ new _ _ _ hfirst hrest =>
        have hrec := hfirst env s.peer (hfits msg rfl) h.record_eq
        exact ⟨_, hrec, h.supports, (WishLink.length_availAfter _ _).trans h.avail, h.size, hrest⟩

/-- The connection starts to support the extension, with no wish for what the receiver has on
record. -/
theorem inv_start (hsize : ceilDiv cfg.mfile.nb_piece 8 < 2 ^ 31) {pieceprec : ℕ → ℕ}
    {local_pavail : Pieceavail} {peer : Swarm} {w : SwarmFull}
    (hw : peer.full_db.get id = some w) (hsup : w.doSupport .piecewish = true)
    (hwish : w.remote_pwish.length = cfg.mfile.nb_piece)
    (hav : w.remote_pavail.length = cfg.mfile.nb_piece)
    (hunavail : ∀ i, (generateLocalPwish cfg pieceprec local_pavail).get i = true →
      w.remote_pavail.isAvail i = false) :
    ∃ r, Inv cfg id (start cfg pieceprec local_pavail peer) r := by
  have hlen : (generateLocalPwish cfg pieceprec local_pavail).length = cfg.mfile.nb_piece :=
    length_generateLocalPwish pieceprec local_pavail
  have hrec : record id peer = some (WishRecord.ofFull w) := by rw [record, hw]; rfl
  refine ⟨_, hrec, hsup, hav, hlen, .cons (carries_dowishField hsup hwish hlen hav ?_ hunavail)
    (.nil _ _)⟩
  rw [Bitfield.toDatumSize, hlen]
  exact hsize

/-- What is delivered is the first message in flight. -/
theorem fits_deliver (hin : s.inflight.head? = some msg) (hadm : Admits cfg id s.peer msg) :
    s.Fits id (.deliver env) := by
  intro first hfirst
  rw [hin, Option.mem_some_iff] at hfirst
  exact hfirst ▸ hadm

theorem Inv.agrees (h : Inv cfg id s r) : s.Agrees id := by
  intro hin
  have hpath := h.path
  rw [hin] at hpath
  rw [← hpath.eq_of_nil]
  obtain ⟨w, hw, rfl⟩ := Option.map_eq_some_iff.1 h.record_eq
  rw [hw]
  rfl

end Run

end WishLink

/-- **The protocol of the wishes.**  A packet brings the record of the receiver from `old` to
`new` exactly when it has one key at most and fits; and in every run whose steps fit, the
receiver has the wish of the sender on record whenever all the messages were received. -/
theorem piecewish_agrees (cfg : SwarmCfg) :
    (∀ (env : SwarmEnv cfg) (id : ℕ) (s : Swarm) (w : SwarmFull) (new : Bitfield),
      s.full_db.get id = some w → new.length = w.remote_pwish.length →
      w.remote_pwish.length < 2 ^ 63 →
        (((parsePkt env id (buildCmdDeltaBitfield w.remote_pwish new) s).full_db.get id).map
          SwarmFull.remote_pwish = some new ↔ DeltaFits w.remote_pwish new w.remote_pavail)) ∧
    ∀ (id : ℕ) (pieceprec : ℕ → ℕ) (local_pavail : Pieceavail) (peer : Swarm) (w : SwarmFull)
      (evs : List (WishEvent cfg)), ceilDiv cfg.mfile.nb_piece 8 < 2 ^ 31 →
      peer.full_db.get id = some w → w.doSupport .piecewish = true →
      w.remote_pwish.length = cfg.mfile.nb_piece → w.remote_pavail.length = cfg.mfile.nb_piece →
      (∀ i, (WishLink.generateLocalPwish cfg pieceprec local_pavail).get i = true →
        w.remote_pavail.isAvail i = false) →
      Guarded (WishLink.step id) (WishLink.Fits id)
        (WishLink.start cfg pieceprec local_pavail peer) evs →
        Always (WishLink.step id) (WishLink.Agrees id)
          (WishLink.start cfg pieceprec local_pavail peer) evs := by
  refine ⟨fun env id s w new hw hlen hsize => remote_pwish_parsePkt_iff hw hlen hsize, ?_⟩
  intro id pieceprec local_pavail peer w evs hsize hw hsup hwish hav hunavail hfits
  have hsize' : cfg.mfile.nb_piece < 2 ^ 63 := by
    rw [ceilDiv] at hsize
    omega
  have hinv : Always (WishLink.step id) (fun s => ∃ r, WishLink.Inv cfg id s r)
      (WishLink.start cfg pieceprec local_pavail peer) evs :=
    hfits.always (fun _ _ h hfit => WishLink.inv_step hsize' h hfit)
      (WishLink.inv_start hsize hw hsup hwish hav hunavail)
  exact hinv.mono fun _ h => h.elim fun _ h => h.agrees

/-- A receiver whose peer supports both extensions, and wishes the first piece only. -/
def samplePeer : Swarm :=
  run Swarm.step (Swarm.start sampleCfg [false, false] .null)
    [.fullStart 0, .utmsgSupport 0 .punavail true, .utmsgSupport 0 .piecewish true,
      .pwishDofield sampleEnv 0 [0x80]]

/-- Both pieces get wished; the first one becomes available, and is taken back. -/
def sampleWishes : List (WishEvent sampleCfg) :=
  [.deliver sampleEnv, .notifyPieceprecChange fun _ => 1, .deliver sampleEnv,
    .declarePieceNewlyAvail 0 false, .deliver sampleEnv, .deliver sampleEnv,
    .declarePieceNomoreAvail 0 true, .deliver sampleEnv, .deliver sampleEnv]

theorem piecewish_agrees_sample :
    (((parsePkt sampleEnv 0 (buildCmdDeltaBitfield [true, false] [true, true])
        samplePeer).full_db.get 0).map SwarmFull.remote_pwish = some [true, true] ↔
      DeltaFits [true, false] [true, true] [false, false]) ∧
    Always (WishLink.step 0) (WishLink.Agrees 0)
      (WishLink.start sampleCfg (fun _ => 0) [false, false] samplePeer) sampleWishes := by
  have hget : ∃ w, samplePeer.full_db.get 0 = some w ∧ w.remote_pwish = [true, false] ∧
      w.remote_pavail = [false, false] ∧ w.doSupport .piecewish = true := ⟨_, rfl, rfl, rfl, rfl⟩
  obtain ⟨w, hw, hpwish, hpavail, hsup⟩ := hget
  have hnone : ∀ i, Bitfield.get [false, false] i = false := Bitfield.get_ofSize (n := 2)
  have hge : ∀ {i : ℕ} {bf bf' : Bitfield}, bf.length ≤ 2 → bf'.length ≤ 2 →
      bf.get i ≠ bf'.get i → i < 2 ^ 32 := by
    intro i bf bf' hlen hlen' hne
    by_contra hge
    rw [Bitfield.get_of_le (by omega), Bitfield.get_of_le (by omega)] at hne
    exact hne rfl
  constructor
  · have h := (piecewish_agrees sampleCfg).1 sampleEnv 0 samplePeer w [true, true] hw
      (by rw [hpwish]; rfl) (by rw [hpwish]; decide)
    rwa [hpwish, hpavail] at h
  · refine (piecewish_agrees sampleCfg).2 0 (fun _ => 0) [false, false] samplePeer w _ (by decide)
      hw hsup (by rw [hpwish]; rfl) (by rw [hpavail]; rfl) (fun i _ => ?_) ?_
    · rw [hpavail]
      exact hnone i
    · refine ⟨?_, ⟨.inl fun i hi => ?_, fun i => hge (by decide) (by decide), fun i _ _ => hnone i⟩,
        ?_, ⟨by decide, by decide⟩, ?_, ?_, ⟨by decide, by decide, fun _ => by decide⟩, ?_, ?_,
        trivial⟩
      · exact WishLink.fits_deliver rfl (Nat.le_of_ble_eq_true rfl)
      · exact absurd ((hnone i).symm.trans hi) Bool.false_ne_true
      · exact WishLink.fits_deliver rfl (Nat.le_of_ble_eq_true rfl)
      · exact WishLink.fits_deliver rfl ⟨by decide, fun w _ _ h => absurd h.1 (by decide)⟩
      · exact WishLink.fits_deliver rfl (Nat.le_of_ble_eq_true rfl)
      · exact WishLink.fits_deliver rfl trivial
      · exact WishLink.fits_deliver rfl (Nat.le_of_ble_eq_true rfl)

/-- The peer wishes the second piece instead of the first one: the parser returns after the
first key, and the first piece is still recorded. -/
theorem not_piecewish_agrees :
    (((parsePkt sampleEnv 0 (buildCmdDeltaBitfield [true, false] [false, true])
        samplePeer).full_db.get 0).map SwarmFull.remote_pwish = some [true, true]) ∧
    ¬ Always (WishLink.step 0) (WishLink.Agrees 0)
      (WishLink.start sampleCfg (fun i => 1 - i) [false, false] samplePeer)
      [.deliver sampleEnv, .notifyPieceprecChange fun i => i, .deliver sampleEnv] := by
  refine ⟨by decide, fun h => ?_⟩
  exact absurd (h.run rfl) (by decide)

end Piecewish

end Neoip
