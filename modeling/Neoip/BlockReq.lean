/-
Neoip/BlockReq.lean

What a peer can make the local peer queue by a `BLOCK_REQ`.

`parse_block_req` checks the packet, and queues a `BLOCK_REP` whose data is read
from the disk later.  Its check of the range is made on two `uint32_t` and
against the length of the other pieces, and it takes a request of no byte: so
the range it queues is in its piece exactly when the request is none of these
three kinds (`parseBlockReq_sound_iff`).
-/
import Neoip.Run
import Neoip.Swarm

namespace Neoip

namespace SwarmFull

/-- The `BLOCK_REP` commands which are queued. -/
def blockReps (w : SwarmFull) : List BtCmd := w.cmd_queue.filter BtCmd.isBlockRep

variable (w : SwarmFull)

theorem blockReps_sendCmd {bt_cmd : BtCmd} (h : bt_cmd.isBlockRep = false) :
    (w.sendCmd bt_cmd).blockReps = w.blockReps := by
  show (w.cmd_queue ++ [bt_cmd]).filter BtCmd.isBlockRep = _
  rw [List.filter_append, List.filter_cons_of_neg (by rw [h]; nofun)]
  exact List.append_nil _

theorem blockReps_removeAllBlockRep : w.removeAllBlockRep.blockReps = [] := by
  rw [blockReps, List.filter_eq_nil_iff]
  intro bt_cmd hmem
  rw [Bool.not_eq_true, ← Bool.not_eq_true']
  exact (List.mem_filter.1 hmem).2

/-- The authorisation of a connection only drops replies. -/
theorem blockReps_setDoauthReq (new_value : Bool) :
    (w.setDoauthReq new_value).blockReps.Sublist w.blockReps := by
  simp only [setDoauthReq]
  split_ifs
  · exact List.Sublist.refl _
  · rw [blockReps_removeAllBlockRep]
    exact List.nil_sublist _
  · rw [blockReps_sendCmd _ rfl]
    exact List.Sublist.refl _
  · rw [blockReps_removeAllBlockRep]
    exact List.nil_sublist _
  · rw [blockReps_sendCmd _ rfl]
    exact List.Sublist.refl _

theorem blockReps_syncDoauthReqCmd : w.syncDoauthReqCmd.blockReps.Sublist w.blockReps := by
  rw [syncDoauthReqCmd]
  split
  · exact w.blockReps_setDoauthReq false
  · exact w.blockReps_setDoauthReq true

end SwarmFull

namespace Swarm

/-- No reply is queued on any connection from `s` to `s'`. -/
def QueuesNothing (s s' : Swarm) : Prop :=
  ∀ j w', s'.full_db.get j = some w' →
    ∃ w, s.full_db.get j = some w ∧ w'.blockReps.Sublist w.blockReps

namespace QueuesNothing

variable {s s' s'' : Swarm} {id : ℕ}

theorem refl (s : Swarm) : QueuesNothing s s := fun _ w' h => ⟨w', h, List.Sublist.refl _⟩

theorem trans (h : QueuesNothing s s') (h' : QueuesNothing s' s'') : QueuesNothing s s'' := by
  intro j w'' hw''
  obtain ⟨w', hw', hsub'⟩ := h' j w'' hw''
  obtain ⟨w, hw, hsub⟩ := h j w' hw'
  exact ⟨w, hw, hsub'.trans hsub⟩

theorem updateFull {f : SwarmFull → SwarmFull}
    (hf : ∀ w, (f w).blockReps.Sublist w.blockReps) : QueuesNothing s (s.updateFull id f) := by
  intro j w' hw'
  rw [Swarm.updateFull, KeyedDb.get_modify] at hw'
  split_ifs at hw' with hj
  · obtain ⟨w, hw, rfl⟩ := Option.map_eq_some_iff.1 hw'
    exact ⟨w, hj ▸ hw, hf w⟩
  · exact ⟨w', hw', List.Sublist.refl _⟩

theorem erase (hdb : s'.full_db = s.full_db.erase id) : QueuesNothing s s' := by
  intro j w' hw'
  rw [hdb, KeyedDb.get_erase] at hw'
  split_ifs at hw'
  exact ⟨w', hw', List.Sublist.refl _⟩

end QueuesNothing

variable {cfg : SwarmCfg} {env : SwarmEnv cfg} {s : Swarm} {id : ℕ} {w : SwarmFull}

theorem queuesNothing_peerSelectUpdate : QueuesNothing s (s.peerSelectUpdate env) := by
  intro j w' hw'
  rw [peerSelectUpdate, KeyedDb.get_mapAll] at hw'
  obtain ⟨w, hw, rfl⟩ := Option.map_eq_some_iff.1 hw'
  refine ⟨w, hw, ?_⟩
  split
  · exact List.Sublist.refl _
  · exact SwarmFull.blockReps_syncDoauthReqCmd _

theorem queuesNothing_parseCnxClosed : QueuesNothing s (s.parseCnxClosed env id w) := by
  simp only [parseCnxClosed]
  split_ifs
  · refine QueuesNothing.trans ?_ (.updateFull SwarmFull.blockReps_syncDoauthReqCmd)
    refine QueuesNothing.trans ?_ queuesNothing_peerSelectUpdate
    exact QueuesNothing.updateFull (s := s) fun _ => List.Sublist.refl _
  · exact .refl s

theorem queuesNothing_autodelete : QueuesNothing s (s.autodelete env id) := by
  simp only [autodelete]
  split
  · exact .refl s
  · split_ifs
    · exact queuesNothing_parseCnxClosed.trans (.erase rfl)
    · exact .erase rfl

/-! ### `parse_block_req` -/

/-- The range of a `BLOCK_REQ`. -/
def readBlockReq (pkt : Datum) : Option Prange := do
  let (piece_idx, pkt) ← readUint32 pkt
  let (data_offset, pkt) ← readUint32 pkt
  let (data_len, _) ← readUint32 pkt
  some (Prange.mk piece_idx data_offset data_len)

/-- The checks of `parse_block_req`. -/
def BlockReqChecked (cfg : SwarmCfg) (s : Swarm) (w : SwarmFull) (prange : Prange) : Prop :=
  prange.piece_idx < cfg.mfile.nb_piece ∧
    (prange.offset + prange.length) % 2 ^ 32 ≤ cfg.mfile.piecelen ∧
      prange.length ≤ cfg.recv_req_maxlen ∧ s.local_pavail.isAvail prange.piece_idx = true ∧
        w.local_doauth_req = true

/-- The request is accepted exactly when it passes the checks; a reply is queued then, and
only then. -/
theorem parseBlockReq_cases (env : SwarmEnv cfg) (h : s.full_db.get id = some w) (pkt : Datum) :
    (∃ prange, readBlockReq pkt = some prange ∧ BlockReqChecked cfg s w prange ∧
      s.parseBlockReq env id pkt = s.updateFull id fun w => w.sendCmd (.blockRep prange)) ∨
    ((∀ prange, readBlockReq pkt = some prange → ¬ BlockReqChecked cfg s w prange) ∧
      QueuesNothing s (s.parseBlockReq env id pkt)) := by
  rw [parseBlockReq, h]
  dsimp only
  cases hpkt : readBlockReq pkt with
  | none =>
    have hread := hpkt
    dsimp only [readBlockReq] at hread
    rw [hread]
    exact .inr ⟨by simp, queuesNothing_autodelete⟩
  | some prange =>
    have hread := hpkt
    dsimp only [readBlockReq] at hread
    rw [hread]
    have hone : ∀ {P : Prange → Prop}, P prange → ∀ r, some prange = some r → P r := by
      intro P hP r hr
      rwa [← Option.some.inj hr]
    simp only []
    split_ifs with hidx hsum hmax hav hauth
    · exact .inr ⟨hone fun hc => absurd hc.1 (Nat.not_lt.2 hidx), queuesNothing_autodelete⟩
    · exact .inr ⟨hone fun hc => absurd hc.2.1 (Nat.not_le.2 hsum), queuesNothing_autodelete⟩
    · exact .inr ⟨hone fun hc => absurd hc.2.2.1 (Nat.not_le.2 hmax), queuesNothing_autodelete⟩
    · refine .inr ⟨hone fun hc => ?_, queuesNothing_autodelete⟩
      rw [Pieceavail.isUnavail, hc.2.2.2.1] at hav
      cases hav
    · refine .inr ⟨hone fun hc => ?_, .refl s⟩
      rw [hc.2.2.2.2] at hauth
      cases hauth
    · refine .inl ⟨prange, rfl, ⟨Nat.not_le.1 hidx, Nat.not_lt.1 hsum, Nat.not_lt.1 hmax, ?_, ?_⟩,
        rfl⟩
      · simpa [Pieceavail.isUnavail] using hav
      · simpa using hauth

/-- The range is not empty, and it is inside its piece and inside the file once it is
turned into a file range; the piece is available. -/
def ReplySound (cfg : SwarmCfg) (s : Swarm) (prange : Prange) : Prop :=
  prange.piece_idx < cfg.mfile.nb_piece ∧ s.local_pavail.isAvail prange.piece_idx = true ∧
    ∃ r, prange.toTotfileRange cfg.mfile = some r ∧ r.len = prange.length ∧
      (pieceidxToTotfileRange cfg.mfile prange.piece_idx).fullyInclude r = true ∧
        r.last < cfg.mfile.totfile_size

/-- What a `BLOCK_REQ` may do to the queues: nothing, or one sound reply on its connection. -/
def BlockReqSound (cfg : SwarmCfg) (s : Swarm) (id : ℕ) (s' : Swarm) : Prop :=
  ∀ j w', s'.full_db.get j = some w' → ∃ w, s.full_db.get j = some w ∧
    (w'.blockReps.Sublist w.blockReps ∨
      j = id ∧ ∃ prange, w'.blockReps = w.blockReps ++ [.blockRep prange] ∧
        ReplySound cfg s prange)

/-- The requests which the checks are good for: of some byte, whose end does not overflow a
`uint32_t`, and before the end of the file when the piece is the last one. -/
def BlockReqFits (cfg : SwarmCfg) (prange : Prange) : Prop :=
  prange.length ≠ 0 ∧
    (prange.offset + prange.length < 2 ^ 32 ∨
      prange.offset + prange.length ≤ cfg.mfile.piecelen) ∧
    (prange.piece_idx + 1 = cfg.mfile.nb_piece →
      prange.piece_idx * cfg.mfile.piecelen + prange.offset + prange.length ≤
        cfg.mfile.totfile_size)

theorem replySound_iff {prange : Prange} (hidx : prange.piece_idx < cfg.mfile.nb_piece)
    (hav : s.local_pavail.isAvail prange.piece_idx = true) : ReplySound cfg s prange ↔
      prange.length ≠ 0 ∧ prange.offset + prange.length ≤ cfg.mfile.piecelen ∧
        (prange.piece_idx + 1 = cfg.mfile.nb_piece →
          prange.piece_idx * cfg.mfile.piecelen + prange.offset + prange.length ≤
            cfg.mfile.totfile_size) := by
  have hpos := cfg.mfile.piecelen_pos
  have hnext := cfg.mfile.lt_nb_piece_iff (prange.piece_idx + 1)
  have hbeg : (pieceidxToTotfileRange cfg.mfile prange.piece_idx).beg =
      prange.piece_idx * cfg.mfile.piecelen := Nat.mul_comm _ _
  have hlast : (pieceidxToTotfileRange cfg.mfile prange.piece_idx).last =
      if prange.piece_idx + 1 = cfg.mfile.nb_piece then cfg.mfile.totfile_size - 1
      else prange.piece_idx * cfg.mfile.piecelen + cfg.mfile.piecelen - 1 := by
    show pieceidxToPieceend cfg.mfile prange.piece_idx = _
    rw [pieceidxToPieceend, Nat.mul_succ, Nat.mul_comm]
  rw [Nat.succ_mul] at hnext
  rw [ReplySound, and_iff_right hidx, and_iff_right hav]
  constructor
  · rintro ⟨r, hr, hlen, hincl, hfile⟩
    simp only [Prange.toTotfileRange] at hr
    split_ifs at hr with hsane
    rw [← Option.some.inj hr] at hincl hfile
    rw [FileRange.fullyInclude_bounds, hbeg, hlast] at hincl
    simp only [] at hincl hfile
    refine ⟨by omega, ?_, fun hl => by omega⟩
    split_ifs at hincl with hl
    · -- the last piece ends where the file does
      have hle : ¬ (prange.piece_idx * cfg.mfile.piecelen + cfg.mfile.piecelen <
          cfg.mfile.totfile_size) := by
        rw [← hnext]
        omega
      omega
    · omega
  · rintro ⟨hne, hle, hl⟩
    refine ⟨⟨prange.piece_idx * cfg.mfile.piecelen + prange.offset,
      prange.piece_idx * cfg.mfile.piecelen + prange.offset + prange.length - 1, by omega⟩,
      ?_, ?_, ?_, ?_⟩
    · simp only [Prange.toTotfileRange]
      rw [dif_pos (by omega)]
    · simp only [FileRange.len]
      omega
    · rw [FileRange.fullyInclude_bounds, hbeg, hlast]
      simp only []
      split_ifs with hl'
      · have := hl hl'
        omega
      · omega
    · simp only []
      by_cases hl' : prange.piece_idx + 1 = cfg.mfile.nb_piece
      · have := hl hl'
        omega
      · have := hnext.1 (by omega)
        omega

/-- **A `BLOCK_REQ` is sound** exactly when it fails one of the checks, or fits them. -/
theorem parseBlockReq_sound_iff (env : SwarmEnv cfg) (s : Swarm) (id : ℕ) (pkt : Datum) :
    BlockReqSound cfg s id (s.parseBlockReq env id pkt) ↔
      ∀ w prange, s.full_db.get id = some w → readBlockReq pkt = some prange →
        BlockReqChecked cfg s w prange → BlockReqFits cfg prange := by
  cases h : s.full_db.get id with
  | none =>
    have heq : s.parseBlockReq env id pkt = s := by rw [parseBlockReq, h]
    rw [heq]
    exact iff_of_true (fun j w' hw' => ⟨w', hw', .inl (List.Sublist.refl _)⟩) nofun
  | some w =>
    obtain ⟨prange, hpkt, hcheck, heq⟩ | ⟨hno, hqueue⟩ := parseBlockReq_cases env h pkt
    · have hcheck' := hcheck
      obtain ⟨hidx, hsum, -, hav, -⟩ := hcheck'
      have hreps : (w.sendCmd (.blockRep prange)).blockReps =
          w.blockReps ++ [.blockRep prange] := List.filter_append ..
      have hsound : BlockReqSound cfg s id (s.parseBlockReq env id pkt) ↔
          ReplySound cfg s prange := by
        rw [heq]
        constructor
        · intro hs
          have hget : (s.updateFull id fun w => w.sendCmd (.blockRep prange)).full_db.get id =
              some (w.sendCmd (.blockRep prange)) := KeyedDb.get_modify_self.trans (by rw [h]; rfl)
          obtain ⟨v, hv, hsub | ⟨-, prange', hreps', hs'⟩⟩ := hs id _ hget
          · rw [← Option.some.inj (h.symm.trans hv), hreps] at hsub
            have hlen := hsub.length_le
            rw [List.length_append, List.length_singleton] at hlen
            omega
          · rw [← Option.some.inj (h.symm.trans hv), hreps] at hreps'
            have hcmd := List.append_cancel_left hreps'
            rw [List.cons.injEq, BtCmd.blockRep.injEq] at hcmd
            rwa [hcmd.1]
        · intro hs j w' hw'
          rw [updateFull, KeyedDb.get_modify, h] at hw'
          split_ifs at hw' with hj
          · rw [← Option.some.inj hw', hj]
            exact ⟨w, h, .inr ⟨rfl, prange, hreps, hs⟩⟩
          · exact ⟨w', hw', .inl (List.Sublist.refl _)⟩
      rw [hsound, replySound_iff hidx hav]
      constructor
      · rintro ⟨hlen, hle, hlast⟩ v prange' - hpkt' -
        rw [← Option.some.inj (hpkt.symm.trans hpkt')]
        exact ⟨hlen, .inr hle, hlast⟩
      · intro hfits
        obtain ⟨hlen, hover, hlast⟩ := hfits w prange rfl hpkt hcheck
        refine ⟨hlen, ?_, hlast⟩
        -- the sum which is checked is the real one, when it does not overflow
        obtain hlt | hle := hover
        · rwa [Nat.mod_eq_of_lt hlt] at hsum
        · exact hle
    · refine iff_of_true (fun j w' hw' => ?_) fun v prange hv hpkt hcheck => ?_
      · obtain ⟨v, hv, hsub⟩ := hqueue j w' hw'
        exact ⟨v, hv, .inl hsub⟩
      · rw [← Option.some.inj hv] at hcheck
        exact absurd hcheck (hno prange hpkt)

/-- A seed which authorises the requests of its only peer. -/
def sampleUpload : Swarm :=
  run step (start sampleCfg [true, true] .null)
    [.fullStart 0, .recvedCmd { sampleEnv with peerpick := fun _ => some .coop } 0 [0x2]]

/-- Two bytes at the offset two of the last piece, which has three: the second one is past
the end of the file. -/
theorem not_blockReqSound :
    ¬ BlockReqSound sampleCfg sampleUpload 0
      (sampleUpload.parseBlockReq sampleEnv 0 [0, 0, 0, 1, 0, 0, 0, 2, 0, 0, 0, 2]) := by
  have hnew : ((sampleUpload.parseBlockReq sampleEnv 0
      [0, 0, 0, 1, 0, 0, 0, 2, 0, 0, 0, 2]).full_db.get 0).map SwarmFull.blockReps =
        some [.blockRep ⟨1, 2, 2⟩] := by decide
  have hold : (sampleUpload.full_db.get 0).map SwarmFull.blockReps = some [] := by decide
  intro h
  obtain ⟨w', hw', hreps'⟩ := Option.map_eq_some_iff.1 hnew
  obtain ⟨w, hw, hqueue⟩ := h 0 w' hw'
  have hreps : w.blockReps = [] := by
    rw [hw] at hold
    exact Option.some.inj hold
  rw [hreps', hreps] at hqueue
  obtain hsub | ⟨-, prange, hqueued, -, -, r, hr, -, -, hlast⟩ := hqueue
  · exact absurd hsub.length_le (by decide)
  · cases hqueued
    cases hr
    exact absurd hlast (by decide)

end Swarm

end Neoip
