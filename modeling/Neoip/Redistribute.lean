/-
Neoip/Redistribute.lean

What the close of a connection leaves to the other ones.

The scheduler handles the close of a peer, the loss of its authorisation and
the close of an external connection in the same way: the requests of the
connection are deleted, then all the idle connections are tried.  `Redistributed`
says what this is for.

An external connection is unlinked before the walk, and a peer which took its
authorisation back is skipped by it.  But a closing peer is still linked, idle
and authorised when the walk comes to it.  So the redistribution is right
exactly when `try_send_request` has nothing to send there
(`guarded_closeSound_iff`).
-/
import Mathlib.Data.List.TakeWhile
import Neoip.SwarmSched

namespace Neoip

namespace Sched

variable {cfg : SwarmCfg} {allowed : Prop} {s s' : Sched} {c : CnxId} {i k : ℕ} {b : SchedBlock}
  {v : CnxView}

/-- The block `k` of the piece `i` is one that the connection can request. -/
def Requestable (s : Sched) (cnx : CnxId) (i k : ℕ) : Prop :=
  i ∈ s.piece_do_needreq_db ∧ ∃ p, s.piece.obj i = some p ∧ k ∈ p.doNeedreqCand cnx

/-- The requests of the connection `c` are redistributed between `s` and `s'`. -/
structure Redistributed (c : CnxId) (cnxs : List CnxView) (s s' : Sched) : Prop where
  /-- No request is attached to the connection. -/
  detached : s'.request_db c = []
  /-- Nothing was sent on it. -/
  unsent : ∃ l : List (CnxId × ReqCmd), s'.sent = s.sent ++ l ∧ ∀ e ∈ l, e.1 ≠ c
  /-- A block which it alone was about to get is requested by another one, or the other idle
  connections which have the piece can request it. -/
  requestable : ∀ {i k b}, s.blk i k = some b → b.pending_req_db = [c] →
    ∃ b', s'.blk i k = some b' ∧ b'.totfile_range = b.totfile_range ∧
      ((∃ d ∈ b'.pending_req_db, d ≠ c) ∨
        ∀ v ∈ cnxs, v.cnx ≠ c → s'.nbPendingRequest v.cnx = 0 → v.remote_pavail.isAvail i = true →
          s'.Requestable v.cnx i k)

/-! ### The requests are deleted -/

theorem sent_deleteRequests (s : Sched) (c : CnxId) : (s.deleteRequests c).sent = s.sent := by
  have hfold : ∀ (l : List (ℕ × ℕ)) (s : Sched),
      (l.foldl (fun s r => s.requestDtor c r.1 r.2) s).sent = s.sent := by
    intro l
    induction l with
    | nil => exact fun _ => rfl
    | cons r l ih => exact fun s => ih _
  exact hfold _ s

theorem request_db_deleteRequests (h : s.Ok cfg allowed) (c : CnxId) :
    (s.deleteRequests c).request_db c = [] := by
  apply List.eq_nil_iff_forall_not_mem.2
  rintro ⟨i, k⟩ hr
  exact ((inv_deleteRequests h c).2.req.1 hr).2 rfl

theorem not_isReqedBy_of_idle (h : s.Ok cfg allowed) (hb : s.blk i k = some b)
    (hc : s.request_db c = []) : b.isReqedBy c = false := by
  rw [← Bool.not_eq_true]
  intro hreq
  have hmem : (i, k) ∈ s.request_db c := h.reqs.mem.2 ⟨b, hb, hreq⟩
  rw [hc] at hmem
  cases hmem

/-- A block without a pending request can be requested by every idle connection. -/
theorem requestable_of_idle (h : s.Ok cfg allowed) (hb : s.blk i k = some b)
    (hp : b.pending_req_db = []) (hw : b.bt_io_write = false) (hc : s.request_db c = []) :
    s.Requestable c i k := by
  obtain ⟨p, hpi, hk⟩ := blk_eq_some.1 hb
  have hdo : b.state_cur = some .doNeedreq := by
    rw [h.pieces.settled hb, SchedBlock.stateCpu_eq_doNeedreq.2 ⟨hw, hp⟩]
  have hmem : k ∈ p.block_do_needreq_db := (StateDb.mem_db_of_obj hk).2 hdo
  refine ⟨?_, p, hpi, ?_⟩
  · -- a piece with a block is not one which the resume data covers
    rw [StateDb.mem_db_of_obj hpi]
    rw [(h.pieces.classified hpi).settled hk, Option.some.injEq,
      SchedPiece.stateCpu_eq_doNeedreq]
    exact .inl fun hnil => absurd (hnil ▸ hmem) List.not_mem_nil
  · exact SchedPiece.mem_doNeedreqCand.2 ⟨b, hk, hdo, not_isReqedBy_of_idle h hb hc⟩

/-! ### The idle connections are tried -/

section Walk

variable (env : SelectEnv cfg)

/-- `try_send_request` has nothing to send: no authorisation, no room for one request in the
queue, or no piece to select. -/
def NothingToSend (s : Sched) (v : CnxView) : Prop :=
  v.other_doauth_req = false ∨ requestNbMax env v.cnx = 0 ∨
    s.selectPieceToRequest env v s.next_pidx_hint = none

variable {env}

theorem NothingToSend.trySendRequest_eq (h : s.NothingToSend env v) :
    s.trySendRequest env v = s := by
  rw [trySendRequest]
  rcases h with hauth | hmax | hsel
  · rw [if_pos (by rw [hauth]; rfl)]
  · simp only [hmax, trySendLoop, ite_self]
  · split_ifs
    · rfl
    · simp only []
      rcases requestNbMax env v.cnx with - | n
      · rfl
      · rw [trySendLoop, hsel, ite_self]

/-- An idle connection which has something to send gets a request. -/
theorem nbPendingRequest_trySendRequest_pos (h : s.Ok cfg allowed)
    (hidle : s.request_db v.cnx = []) (hsend : ¬ s.NothingToSend env v) :
    0 < (s.trySendRequest env v).nbPendingRequest v.cnx := by
  simp only [NothingToSend, not_or, Bool.not_eq_false] at hsend
  obtain ⟨hauth, hmax, hsel⟩ := hsend
  obtain ⟨n, hn⟩ := Nat.exists_eq_succ_of_ne_zero hmax
  have hzero : s.nbPendingRequest v.cnx = 0 := by
    rw [nbPendingRequest, hidle]
    rfl
  rw [trySendRequest, if_neg (by simp [hauth])]
  simp only [hn]
  have hprog := trySendLoop_progress (n := n + 1) (f := n) env h
    (by rw [hzero]; exact n.succ_pos) hsel
  rwa [hzero] at hprog

/-- The walk when it comes to a connection: the connections before it were tried. -/
theorem trySendRequestOnIdleCnx_append (s : Sched) (before after : List CnxView) (v : CnxView) :
    s.trySendRequestOnIdleCnx env (before ++ v :: after) =
      (if (s.trySendRequestOnIdleCnx env before).nbPendingRequest v.cnx ≠ 0
        then s.trySendRequestOnIdleCnx env before
        else (s.trySendRequestOnIdleCnx env before).trySendRequest env v).trySendRequestOnIdleCnx
          env after := by
  rw [trySendRequestOnIdleCnx, List.foldl_append]
  rfl

variable (env) in
/-- The scheduler when the walk of the redistribution comes to the connection `c`. -/
def beforeCnx (s : Sched) (c : CnxId) (cnxs : List CnxView) : Sched :=
  (s.deleteRequests c).trySendRequestOnIdleCnx env (cnxs.takeWhile fun v => v.cnx ≠ c)

theorem request_db_beforeCnx (h : s.Ok cfg allowed) (c : CnxId) (cnxs : List CnxView) :
    (s.beforeCnx env c cnxs).Ok cfg allowed ∧ (s.beforeCnx env c cnxs).request_db c = [] := by
  obtain ⟨h', hg⟩ := inv_trySendRequestOnIdleCnx env (inv_deleteRequests h c).1
    (cnxs.takeWhile fun v => v.cnx ≠ c)
  refine ⟨h', ?_⟩
  rw [beforeCnx, hg.other, request_db_deleteRequests h]
  rintro ⟨v, hv, hc⟩
  have hne := List.mem_takeWhile_imp hv
  simp only [decide_eq_true_eq] at hne
  exact hne hc.symm

/-- A connection comes once in the walk. -/
theorem redistribute_eq (h : s.Ok cfg allowed) (cnxs : CnxDb) (hv : v ∈ cnxs.item) :
    ∃ after : List CnxView, (∀ w ∈ after, w.cnx ≠ v.cnx) ∧
      s.redistribute env v.cnx cnxs.item =
        ((s.beforeCnx env v.cnx cnxs.item).trySendRequest env v).trySendRequestOnIdleCnx
          env after := by
  obtain ⟨before, after, hitem, hbefore⟩ : ∃ before after : List CnxView,
      cnxs.item = before ++ v :: after ∧ ∀ w ∈ before, w.cnx ≠ v.cnx := by
    obtain ⟨before, after, hitem⟩ := List.append_of_mem hv
    refine ⟨before, after, hitem, fun w hw hc => ?_⟩
    have hnd := cnxs.nodup
    rw [hitem, List.map_append, List.nodup_append] at hnd
    exact hnd.2.2 _ (List.mem_map_of_mem hw) _ (List.mem_cons_self) hc
  have hafter : ∀ w ∈ after, w.cnx ≠ v.cnx := by
    intro w hw hc
    have hnd := cnxs.nodup
    rw [hitem, List.map_append, List.nodup_append, List.map_cons, List.nodup_cons] at hnd
    exact hnd.2.1.1 (hc ▸ List.mem_map_of_mem hw)
  have htake : (cnxs.item.takeWhile fun w => w.cnx ≠ v.cnx) = before := by
    rw [hitem, List.takeWhile_append_of_pos]
    · simp
    · simpa using hbefore
  obtain ⟨-, hdb⟩ := request_db_beforeCnx h v.cnx cnxs.item
  have hidle : (s.beforeCnx env v.cnx cnxs.item).nbPendingRequest v.cnx = 0 := by
    rw [nbPendingRequest, hdb]
    rfl
  refine ⟨after, hafter, ?_⟩
  rw [beforeCnx, htake] at hidle
  rw [beforeCnx, htake, redistribute, hitem, trySendRequestOnIdleCnx_append, if_neg (by simp [hidle])]

/-- Once no request is left on the connection, its blocks went to others, or wait for them. -/
theorem requestable_redistribute (h : s.Ok cfg allowed) {cnxs walk : List CnxView}
    (hc : (s.redistribute env c walk).request_db c = []) (hb : s.blk i k = some b)
    (hp : b.pending_req_db = [c]) :
    ∃ b', (s.redistribute env c walk).blk i k = some b' ∧ b'.totfile_range = b.totfile_range ∧
      ((∃ d ∈ b'.pending_req_db, d ≠ c) ∨
        ∀ v ∈ cnxs, v.cnx ≠ c → (s.redistribute env c walk).nbPendingRequest v.cnx = 0 →
          v.remote_pavail.isAvail i = true →
          (s.redistribute env c walk).Requestable v.cnx i k) := by
  have hok := inv_redistribute env h c walk
  obtain ⟨h₁, hrem⟩ := inv_deleteRequests h c
  obtain ⟨b₁, hb₁, hr₁, hw₁, -⟩ := hrem.blk_some hb
  obtain ⟨b', hb', hr', hw'⟩ := (inv_trySendRequestOnIdleCnx env h₁ walk).2.blk hb₁
  have hw : b'.bt_io_write = false := by
    rw [hw', hw₁, ← Bool.not_eq_true]
    intro hw
    have := (h.pieces.writing hb hw).1
    rw [hp] at this
    cases this
  refine ⟨b', hb', hr'.trans hr₁, ?_⟩
  rcases hpend : b'.pending_req_db with - | ⟨d, l⟩
  · right
    intro v _ _ hidle _
    exact requestable_of_idle hok hb' hpend hw (List.eq_nil_of_length_eq_zero hidle)
  · left
    refine ⟨d, List.mem_cons_self, ?_⟩
    rintro rfl
    have hreq := not_isReqedBy_of_idle hok hb' hc
    rw [SchedBlock.not_isReqedBy_iff, hpend] at hreq
    exact hreq.1 List.mem_cons_self

/-- What the walk sends goes to the connections of the walk. -/
theorem unsent_redistribute (h : s.Ok cfg allowed) {before after : List CnxView}
    (hbefore : ∀ v ∈ before, v.cnx ≠ c) (hafter : ∀ v ∈ after, v.cnx ≠ c) :
    ∃ l : List (CnxId × ReqCmd),
      (((s.deleteRequests c).trySendRequestOnIdleCnx env before).trySendRequestOnIdleCnx env
        after).sent = s.sent ++ l ∧ ∀ e ∈ l, e.1 ≠ c := by
  obtain ⟨h₁, hg₁⟩ := inv_trySendRequestOnIdleCnx env (inv_deleteRequests h c).1 before
  obtain ⟨-, hg₂⟩ := inv_trySendRequestOnIdleCnx env h₁ after
  have hne : ∀ {cnxs : List CnxView}, (∀ v ∈ cnxs, v.cnx ≠ c) →
      ∀ d, (∃ v ∈ cnxs, d = v.cnx) → d ≠ c := by
    rintro cnxs hcnxs d ⟨v, hv, rfl⟩
    exact hcnxs v hv
  obtain ⟨l, hl, hle⟩ := ((hg₁.mono (hne hbefore)).trans (hg₂.mono (hne hafter))).sent
  rw [sent_deleteRequests] at hl
  exact ⟨l, hl, hle⟩

/-- Without the connection in the walk. -/
theorem redistributed_of_unlinked (h : s.Ok cfg allowed) {cnxs : List CnxView}
    (hc : c ∉ cnxs.map CnxView.cnx) : Redistributed c cnxs s (s.redistribute env c cnxs) := by
  have hne : ∀ v ∈ cnxs, v.cnx ≠ c := fun v hv hvc => hc (hvc ▸ List.mem_map_of_mem hv)
  have hdetached : (s.redistribute env c cnxs).request_db c = [] := by
    rw [redistribute, (inv_trySendRequestOnIdleCnx env (inv_deleteRequests h c).1 cnxs).2.other,
      request_db_deleteRequests h]
    rintro ⟨v, hv, rfl⟩
    exact hne v hv rfl
  exact ⟨hdetached, @unsent_redistribute _ _ _ _ _ h _ [] hne (by simp),
    fun hb hp => requestable_redistribute h hdetached hb hp⟩

/-- **One close**: the redistribution does what it is for exactly when the walk has nothing
to send on the connection itself. -/
theorem redistributed_iff (h : s.Ok cfg allowed) {cnxs : CnxDb} (hv : v ∈ cnxs.item) :
    Redistributed v.cnx cnxs.item s (s.redistribute env v.cnx cnxs.item) ↔
      (s.beforeCnx env v.cnx cnxs.item).NothingToSend env v := by
  obtain ⟨after, hafter, heq⟩ := redistribute_eq h cnxs hv
  obtain ⟨h₁, hdb⟩ := request_db_beforeCnx h v.cnx cnxs.item
  obtain ⟨h₂, -⟩ := inv_trySendRequest (v := v) env h₁
  have hother := (inv_trySendRequestOnIdleCnx env h₂ after).2.other (d := v.cnx) (by
    rintro ⟨w, hw, hc⟩
    exact hafter w hw hc.symm)
  constructor
  · intro hred
    by_contra hsend
    have hpos := nbPendingRequest_trySendRequest_pos h₁ hdb hsend
    have hnil := hred.detached
    rw [heq, hother] at hnil
    rw [nbPendingRequest, hnil] at hpos
    exact lt_irrefl 0 hpos
  · intro hsend
    rw [hsend.trySendRequest_eq] at heq hother
    have hdetached : (s.redistribute env v.cnx cnxs.item).request_db v.cnx = [] := by
      rw [heq, hother, hdb]
    refine ⟨hdetached, ?_, fun hb hp => requestable_redistribute h hdetached hb hp⟩
    rw [heq]
    refine unsent_redistribute h (fun w hw => ?_) hafter
    simpa using List.mem_takeWhile_imp hw

end Walk

/-! ### Over a run -/

/-- The event redistributes the requests of the connection which it is about. -/
def CloseSound (s : Sched) : SchedEvent cfg → Prop
  | .cnxClosed env v cnxs linked =>
    Redistributed v.cnx cnxs.item s (s.step (.cnxClosed env v cnxs linked))
  | .unauthReq env v cnxs linked unauth =>
    Redistributed v.cnx cnxs.item s (s.step (.unauthReq env v cnxs linked unauth))
  | .ecnxClosed env cnx cnxs unlinked =>
    Redistributed cnx cnxs.item s (s.step (.ecnxClosed env cnx cnxs unlinked))
  | _ => True

/-- When the walk comes to the closing peer, there is nothing to send on it. -/
def CloseFits (s : Sched) : SchedEvent cfg → Prop
  | .cnxClosed env v cnxs _ => (s.beforeCnx env v.cnx cnxs.item).NothingToSend env v
  | _ => True

theorem closeSound_iff (h : s.Ok cfg allowed) (e : SchedEvent cfg) :
    s.CloseSound e ↔ s.CloseFits e := by
  cases e with
  | cnxClosed env v cnxs linked => exact redistributed_iff h linked
  | unauthReq env v cnxs linked unauth =>
    exact iff_of_true ((redistributed_iff h linked).2 (.inl unauth)) trivial
  | ecnxClosed env cnx cnxs unlinked =>
    exact iff_of_true (redistributed_of_unlinked h unlinked) trivial
  | _ => exact Iff.rfl

/-- **Redistribution**: in every run of the scheduler, all the closes and losses of
authorisation redistribute the requests exactly when, at each close, the walk has nothing
to send on the closing peer. -/
theorem guarded_closeSound_iff (local_pavail : Pieceavail) {partavail_piece_inval : FileSizeInval}
    (hlt : ∀ x, x ∈ partavail_piece_inval → x < cfg.mfile.totfile_size)
    (evs : List (SchedEvent cfg)) :
    Guarded step CloseSound (start cfg local_pavail partavail_piece_inval) evs ↔
      Guarded step CloseFits (start cfg local_pavail partavail_piece_inval) evs :=
  guarded_congr (Q := fun s : Sched => s.Ok cfg (FullyResumed cfg partavail_piece_inval))
    (fun _ e h => inv_step h e) (fun _ e h => closeSound_iff h e) (inv_start hlt) evs

/-- A peer with the first piece gets two requests, then takes its authorisation back. -/
theorem guarded_closeSound_iff_sample :
    Guarded step CloseSound (start sampleCfg [false, false] Swarm.sampleResume)
        [.trySendRequest sampleEnv.toSelectEnv ⟨.full 0, true, [true, false]⟩,
          .unauthReq sampleEnv.toSelectEnv ⟨.full 0, false, [true, false]⟩
            ⟨[⟨.full 0, false, [true, false]⟩], List.nodup_singleton _⟩ List.mem_cons_self rfl] ↔
      Guarded step CloseFits (start sampleCfg [false, false] Swarm.sampleResume)
        [.trySendRequest sampleEnv.toSelectEnv ⟨.full 0, true, [true, false]⟩,
          .unauthReq sampleEnv.toSelectEnv ⟨.full 0, false, [true, false]⟩
            ⟨[⟨.full 0, false, [true, false]⟩], List.nodup_singleton _⟩ List.mem_cons_self rfl] :=
  guarded_closeSound_iff [false, false] Swarm.lt_of_mem_sampleResume _

end Sched

/-! ### The failing close -/

namespace Swarm

/-- A peer which has the first piece and authorises the requests. -/
def sampleDownload : Swarm :=
  run step (start sampleCfg [false, false] .null)
    [.fullStart 0, .recvedCmd sampleEnv 0 [0x5, 0x80], .recvedCmd sampleEnv 0 [0x1]]

/-- It closes: the walk comes to it, and it gets the requests back which were just deleted. -/
theorem not_closeSound : ∃ w, ∃ hw : sampleDownload.full_db.get 0 = some w,
    w.notified_as_open = true ∧
      ¬ sampleDownload.sched.CloseSound (.cnxClosed sampleEnv.toSelectEnv (fullView 0 w)
        sampleDownload.cnxDb (mem_cnxDb_full hw)) := by
  refine ⟨_, rfl, rfl, fun h => ?_⟩
  exact absurd h.detached (by decide)

end Swarm

end Neoip
