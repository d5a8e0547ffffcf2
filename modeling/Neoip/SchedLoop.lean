/-
Neoip/SchedLoop.lean

The loops of the bittorrent scheduler: `try_send_request`, the walk over the
idle connections, and the events.

`Grown C s s'` says that `s'` is `s` with more requests, all of them on the
connections of `C`: what every request sending loop does.  Each lemma about a
loop gives the invariant and the growth together.

Main results:

* `trySendRequest_saturates`: the fuel of the loops is enough, they end by
  their own conditions;
* `Sched.inv_start`, and `inv_…` for each event of the scheduler;
* `obj_start`: which pieces the resume data makes, and with which bytes.
-/
import Mathlib.Data.List.Perm.Subperm
import Neoip.SchedInv

namespace Neoip

namespace Sched

variable {cfg : SwarmCfg} {allowed : Prop}

/-- The invariant, between the events. -/
abbrev Ok (cfg : SwarmCfg) (allowed : Prop) (s : Sched) : Prop := s.Inv cfg allowed fun _ => True

/-! ### More requests -/

/-- `s'` is `s` with more requests, all of them on the connections of `C`. -/
structure Grown (C : CnxId → Prop) (s s' : Sched) : Prop where
  req : ∀ {d r}, r ∈ s.request_db d → r ∈ s'.request_db d
  other : ∀ {d}, ¬ C d → s'.request_db d = s.request_db d
  blk : ∀ {i k b}, s.blk i k = some b → ∃ b', s'.blk i k = some b' ∧
    b'.totfile_range = b.totfile_range ∧ b'.bt_io_write = b.bt_io_write
  sent : ∃ l : List (CnxId × ReqCmd), s'.sent = s.sent ++ l ∧ ∀ e ∈ l, C e.1

namespace Grown

variable {C D : CnxId → Prop} {s s' s'' : Sched}

theorem refl (s : Sched) : Grown C s s :=
  ⟨id, fun _ => rfl, fun hb => ⟨_, hb, rfl, rfl⟩, [], by simp⟩

theorem trans (h : Grown C s s') (h' : Grown C s' s'') : Grown C s s'' := by
  refine ⟨fun hr => h'.req (h.req hr), fun hd => (h'.other hd).trans (h.other hd), ?_, ?_⟩
  · intro i k b hb
    obtain ⟨b', hb', hr, hw⟩ := h.blk hb
    obtain ⟨b'', hb'', hr', hw'⟩ := h'.blk hb'
    exact ⟨b'', hb'', hr'.trans hr, hw'.trans hw⟩
  · obtain ⟨l, hl, hC⟩ := h.sent
    obtain ⟨l', hl', hC'⟩ := h'.sent
    refine ⟨l ++ l', by rw [hl', hl, List.append_assoc], fun e he => ?_⟩
    rcases List.mem_append.1 he with he | he
    · exact hC e he
    · exact hC' e he

theorem mono (hCD : ∀ d, C d → D d) (h : Grown C s s') : Grown D s s' := by
  obtain ⟨l, hl, hC⟩ := h.sent
  exact ⟨h.req, fun hd => h.other fun hc => hd (hCD _ hc), h.blk, l, hl, fun e he => hCD _ (hC e he)⟩

end Grown

variable {s s' : Sched} {c d : CnxId} {i k : ℕ} {b : SchedBlock}

theorem Grown.nbPendingRequest_le {C : CnxId → Prop} (h : s.Ok cfg allowed) (hg : Grown C s s') :
    s.nbPendingRequest d ≤ s'.nbPendingRequest d :=
  (List.Nodup.subperm (h.reqs.nodup d) fun _ hr => hg.req hr).length_le

theorem grown_requestCtor (hb : s.blk i k = some b) :
    Grown (· = c) s (s.requestCtor c i k) := by
  refine ⟨?_, ?_, ?_, [(c, .blockReq i k)], rfl, ?_⟩
  · intro d r hr
    show r ∈ if d = c then _ else _
    split_ifs with hd
    · exact List.mem_append_left _ (hd ▸ hr)
    · exact hr
  · intro d hd
    exact if_neg hd
  · intro j k' b' hb'
    have hblk : (s.requestCtor c i k).blk j k' =
        if j = i ∧ k' = k then (s.blk i k).map (fun b => b.pendingReqDolink c) else s.blk j k' :=
      blk_updateBlock
    rw [hblk]
    split_ifs with hjk
    · rw [hjk.1, hjk.2, hb, Option.some.injEq] at hb'
      refine ⟨b.pendingReqDolink c, by rw [hb, Option.map_some], ?_⟩
      rw [SchedBlock.pendingReqDolink, SchedBlock.stateChangeIfNeeded_eq, ← hb']
      exact ⟨rfl, rfl⟩
    · exact ⟨b', hb', rfl, rfl⟩
  · intro e he
    rw [List.mem_singleton.1 he]

theorem grown_getBlockToRequest (h : s.Ok cfg allowed)
    (hs : s.getBlockToRequest cfg i c = some (s', k)) :
    Grown (fun _ => False) s s' := by
  have hblk := blk_getBlockToRequest h trivial hs
  obtain ⟨p, p', -, -, rfl⟩ := getBlockToRequest_cases hs
  refine ⟨id, fun _ => rfl, ?_, [], by simp⟩
  intro j k' b hb
  refine ⟨b, ?_, rfl, rfl⟩
  rcases hblk j k' with he | ⟨he, -⟩
  · rw [he, hb]
  · rw [hb] at he
    cases he

/-! ### `try_send_request` -/

variable (cfg) in
theorem getBlockToRequest_isSome :
    (s.getBlockToRequest cfg i c).isSome = s.mayRequestPieceThru i c := by
  unfold getBlockToRequest mayRequestPieceThru
  rcases s.piece.obj i with - | p
  · rfl
  · rw [Option.bind_some, Option.any_some,
      ← SchedPiece.getBlockToRequest_isSome cfg.xmit_req_maxlen_pos]
    rcases p.getBlockToRequest c cfg.xmit_req_maxlen cfg.xmit_req_maxlen_pos with - | ⟨p', k'⟩
    · rfl
    · rfl

theorem nbPendingRequest_requestCtor :
    (s.requestCtor c i k).nbPendingRequest c = s.nbPendingRequest c + 1 := by
  have hdb : (s.requestCtor c i k).request_db c = s.request_db c ++ [(i, k)] := if_pos rfl
  rw [nbPendingRequest, hdb, List.length_append]
  rfl

theorem request_db_getBlockToRequest (hs : s.getBlockToRequest cfg i c = some (s', k)) :
    s'.request_db = s.request_db := by
  obtain ⟨p, p', -, -, rfl⟩ := getBlockToRequest_cases hs
  rfl

/-- One turn of the inner loop. -/
theorem requestTurn (h : s.Ok cfg allowed)
    (hs : s.getBlockToRequest cfg i c = some (s', k)) :
    (s'.requestCtor c i k).Ok cfg allowed ∧ Grown (· = c) s (s'.requestCtor c i k) ∧
      (s'.requestCtor c i k).nbPendingRequest c = s.nbPendingRequest c + 1 := by
  obtain ⟨h', b, hb, hreq, hw, -⟩ := inv_getBlockToRequest h trivial hs
  refine ⟨inv_requestCtor h' hb hreq hw, ?_, ?_⟩
  · exact ((grown_getBlockToRequest h hs).mono fun _ => False.elim).trans (grown_requestCtor hb)
  · rw [nbPendingRequest_requestCtor, nbPendingRequest, request_db_getBlockToRequest hs]
    rfl

variable {v : CnxView} {n f : ℕ}

theorem inv_requestLoop (h : s.Ok cfg allowed) :
    (requestLoop cfg i c n f s).Ok cfg allowed ∧
      Grown (· = c) s (requestLoop cfg i c n f s) := by
  induction f generalizing s with
  | zero => exact ⟨h, Grown.refl s⟩
  | succ f ih =>
    rw [requestLoop]
    split_ifs with hn
    · rcases hs : s.getBlockToRequest cfg i c with - | ⟨s₁, beg⟩
      · exact ⟨h, Grown.refl s⟩
      · obtain ⟨h₁, hg₁, -⟩ := requestTurn h hs
        obtain ⟨h₂, hg₂⟩ := ih h₁
        exact ⟨h₂, hg₁.trans hg₂⟩
    · exact ⟨h, Grown.refl s⟩

/-- The inner loop sends a request when it can. -/
theorem requestLoop_progress (h : s.Ok cfg allowed) (hn : s.nbPendingRequest c < n)
    (hmay : s.mayRequestPieceThru i c = true) :
    s.nbPendingRequest c < (requestLoop cfg i c n (f + 1) s).nbPendingRequest c := by
  rw [requestLoop, if_pos hn]
  rcases hs : s.getBlockToRequest cfg i c with - | ⟨s₁, beg⟩
  · rw [← getBlockToRequest_isSome cfg, hs] at hmay
    cases hmay
  · obtain ⟨h₁, -, hlen⟩ := requestTurn h hs
    have := (inv_requestLoop (i := i) (c := c) (n := n) (f := f) h₁).2.nbPendingRequest_le
      (d := c) h₁
    simp only []
    omega

variable (env : SelectEnv cfg) {hint : Option ℕ}

theorem mayRequestPieceThru_pieceCtor :
    (s.pieceCtor cfg i .null).mayRequestPieceThru i c = true := by
  have hobj : (s.pieceCtor cfg i .null).piece.obj i =
      some (SchedPiece.ctor cfg.mfile i .null) := StateDb.obj_set_self
  have hne : (SchedPiece.ctor cfg.mfile i .null).nevereq_inval.isEmpty = false := by
    rw [← Bool.not_eq_true, FileSizeInval.isEmpty_iff, SchedPiece.nevereq_inval_ctor]
    intro hall
    apply hall (pieceidxToTotfileRange cfg.mfile i).beg
    rw [FileSizeInval.mem_sub]
    exact ⟨FileSizeInval.mem_ofItem.2 (pieceidxToTotfileRange cfg.mfile i).beg_mem,
      FileSizeInval.not_mem_null⟩
  rw [mayRequestPieceThru, hobj, Option.any_some, SchedPiece.mayRequestBlockThru, hne]
  simp

/-- What `select_piece_to_request` returns: a piece which is scheduled and can be requested,
or a new one. -/
theorem selectPieceToRequest_cases (h : s.Ok cfg allowed)
    (hs : s.selectPieceToRequest env v hint = some (s', i)) :
    (s' = s ∧ s.mayRequestPieceThru i v.cnx = true) ∨
      (s' = s.pieceCtor cfg i .null ∧ i < cfg.mfile.nb_piece ∧ s.piece.obj i = none) := by
  unfold selectPieceToRequest at hs
  rcases hh : s.selectPieceHint v hint with - | idx
  · rcases hd : s.selectPieceInPieceDb env v with - | idx
    · rw [hh, hd] at hs
      simp only [] at hs
      split at hs
      · rename_i idx hnext
        simp only [Option.some.injEq, Prod.mk.injEq] at hs
        obtain ⟨rfl, rfl⟩ := hs
        obtain ⟨hlt, hpd, -⟩ := env.sound hnext
        refine .inr ⟨rfl, hlt, ?_⟩
        by_contra hne
        obtain ⟨p, hp⟩ := Option.ne_none_iff_exists'.1 hne
        rw [h.pieces.pdling hp trivial] at hpd
        cases hpd
      · cases hs
    · rw [hh, hd] at hs
      simp only [Option.some.injEq, Prod.mk.injEq] at hs
      obtain ⟨rfl, rfl⟩ := hs
      have hmem := mem_of_lastGreatest hd
      rw [List.mem_filter, Bool.and_eq_true] at hmem
      exact .inl ⟨rfl, hmem.2.2⟩
  · rw [hh] at hs
    simp only [Option.some.injEq, Prod.mk.injEq] at hs
    obtain ⟨rfl, rfl⟩ := hs
    obtain ⟨-, hmay⟩ := (Option.filter_eq_some_iff).1 hh
    rw [Bool.and_eq_true] at hmay
    exact .inl ⟨rfl, hmay.2⟩

theorem selectPieceToRequest_spec (h : s.Ok cfg allowed)
    (hs : s.selectPieceToRequest env v hint = some (s', i)) :
    s'.Ok cfg allowed ∧ Grown (fun _ => False) s s' ∧ s'.mayRequestPieceThru i v.cnx = true := by
  rcases selectPieceToRequest_cases env h hs with ⟨rfl, hmay⟩ | ⟨rfl, hlt, hnone⟩
  · exact ⟨h, Grown.refl _, hmay⟩
  · refine ⟨inv_pieceCtor h hlt hnone ?_ (.inr ?_),
      ⟨id, fun _ => rfl, ?_, [], (List.append_nil _).symm, by simp⟩,
      mayRequestPieceThru_pieceCtor⟩
    · exact fun x hx => absurd hx FileSizeInval.not_mem_null
    · exact ⟨_, FileRange.beg_mem _, FileSizeInval.not_mem_null⟩
    · intro j k b hb
      exact ⟨b, (blk_pieceCtor hnone j k).trans hb, rfl, rfl⟩

theorem ok_nextHint (h : s.Ok cfg allowed) (hint : Option ℕ) :
    ({ s with next_pidx_hint := hint } : Sched).Ok cfg allowed :=
  ⟨h.pieces.congr (fun _ => rfl) rfl, h.reqs.congr (fun _ _ => rfl) rfl⟩

theorem grown_nextHint {C : CnxId → Prop} (hint : Option ℕ) :
    Grown C s { s with next_pidx_hint := hint } :=
  ⟨id, fun _ => rfl, fun hb => ⟨_, hb, rfl, rfl⟩, [], by simp⟩

theorem inv_trySendLoop (h : s.Ok cfg allowed) :
    (trySendLoop env v n f hint s).Ok cfg allowed ∧
      Grown (· = v.cnx) s (trySendLoop env v n f hint s) := by
  induction f generalizing s hint with
  | zero => exact ⟨h, Grown.refl s⟩
  | succ f ih =>
    rw [trySendLoop]
    split_ifs with hn
    · rcases hs : s.selectPieceToRequest env v hint with - | ⟨s₁, idx⟩
      · exact ⟨h, Grown.refl s⟩
      · obtain ⟨h₁, hg₁, -⟩ := selectPieceToRequest_spec env h hs
        obtain ⟨h₂, hg₂⟩ := inv_requestLoop (i := idx) (c := v.cnx) (n := n) (f := n) h₁
        obtain ⟨h₃, hg₃⟩ := ih (ok_nextHint h₂ _)
        refine ⟨h₃, ?_⟩
        exact (hg₁.mono fun _ => False.elim).trans (hg₂.trans ((grown_nextHint _).trans hg₃))
    · exact ⟨h, Grown.refl s⟩

/-- One turn of the outer loop sends a request. -/
theorem trySendTurn (h : s.Ok cfg allowed) (hn : s.nbPendingRequest v.cnx < n)
    (hs : s.selectPieceToRequest env v hint = some (s', i)) :
    (requestLoop cfg i v.cnx n n s').Ok cfg allowed ∧
      s.nbPendingRequest v.cnx < (requestLoop cfg i v.cnx n n s').nbPendingRequest v.cnx := by
  obtain ⟨h', hg, hmay⟩ := selectPieceToRequest_spec env h hs
  have hsame : s'.nbPendingRequest v.cnx = s.nbPendingRequest v.cnx := by
    rw [nbPendingRequest, nbPendingRequest, hg.other id]
  obtain ⟨m, rfl⟩ : ∃ m, n = m + 1 := ⟨n - 1, by omega⟩
  refine ⟨(inv_requestLoop h').1, ?_⟩
  rw [← hsame] at hn ⊢
  exact requestLoop_progress h' hn hmay

/-- The outer loop ends by its own condition: the fuel is enough. -/
theorem trySendLoop_exit (h : s.Ok cfg allowed) (hfuel : n ≤ f + s.nbPendingRequest v.cnx) :
    n ≤ (trySendLoop env v n f hint s).nbPendingRequest v.cnx ∨
      ∃ hint', (trySendLoop env v n f hint s).selectPieceToRequest env v hint' = none := by
  induction f generalizing s hint with
  | zero =>
    rw [trySendLoop]
    exact .inl (by omega)
  | succ f ih =>
    rw [trySendLoop]
    split_ifs with hn
    · rcases hs : s.selectPieceToRequest env v hint with - | ⟨s₁, idx⟩
      · exact .inr ⟨hint, hs⟩
      · obtain ⟨h₁, hprog⟩ := trySendTurn env h hn hs
        refine ih (ok_nextHint h₁ _) ?_
        show n ≤ f + (requestLoop cfg idx v.cnx n n s₁).nbPendingRequest v.cnx
        omega
    · exact .inl (by omega)

/-- The outer loop sends a request when it can. -/
theorem trySendLoop_progress (h : s.Ok cfg allowed) (hn : s.nbPendingRequest v.cnx < n)
    (hs : s.selectPieceToRequest env v hint ≠ none) :
    s.nbPendingRequest v.cnx < (trySendLoop env v n (f + 1) hint s).nbPendingRequest v.cnx := by
  obtain ⟨⟨s₁, idx⟩, hs⟩ := Option.ne_none_iff_exists'.1 hs
  obtain ⟨h₁, hprog⟩ := trySendTurn env h hn hs
  rw [trySendLoop, if_pos hn, hs]
  exact hprog.trans_le (Grown.nbPendingRequest_le h₁
    ((grown_nextHint _).trans (inv_trySendLoop env (ok_nextHint h₁ _)).2))

theorem inv_trySendRequest (h : s.Ok cfg allowed) :
    (s.trySendRequest env v).Ok cfg allowed ∧ Grown (· = v.cnx) s (s.trySendRequest env v) := by
  unfold trySendRequest
  split_ifs
  · exact ⟨h, Grown.refl s⟩
  · exact inv_trySendLoop env h

/-- A piece with something to request on a connection is listed as one. -/
theorem mem_doNeedreq_of_mayRequest (h : s.Ok cfg allowed)
    (hmay : s.mayRequestPieceThru i c = true) : i ∈ s.piece_do_needreq_db := by
  obtain ⟨p, hp, hmay⟩ := (Option.any_eq_true _ _).1 hmay
  rcases (h.pieces.classified hp).piece with hstate | ⟨-, hreplete⟩
  · rw [StateDb.mem_db_of_obj hp, hstate, Option.some.injEq, SchedPiece.stateCpu_eq_doNeedreq]
    rw [SchedPiece.mayRequestBlockThru] at hmay
    split_ifs at hmay with hcand hnever
    · obtain ⟨k, hk⟩ := Option.isSome_iff_exists.1 hcand
      exact .inl (List.ne_nil_of_mem (List.mem_of_mem_filter (mem_of_firstLeast hk)))
    · exact .inr (Bool.not_eq_true' _ ▸ hnever)
  · exact (StateDb.mem_db_of_obj hp).2 hreplete.state

/-- Where nothing is selected, there is nothing to request. -/
theorem selectPieceToRequest_eq_none (h : s.Ok cfg allowed)
    (hs : s.selectPieceToRequest env v hint = none) :
    (∀ i, v.remote_pavail.isAvail i = true → s.mayRequestPieceThru i v.cnx = false) ∧
      ∃ hint, env.next_piece_to_select s.local_pdling s.local_pavail v.remote_pavail hint =
        none := by
  rw [selectPieceToRequest] at hs
  split at hs
  · cases hs
  split at hs
  · cases hs
  next hdb =>
    refine ⟨fun i hi => ?_, ?_⟩
    · by_contra hmay
      rw [Bool.not_eq_false] at hmay
      have hmem : i ∈ s.piece_do_needreq_db.filter fun idx =>
          v.remote_pavail.isAvail idx && s.mayRequestPieceThru idx v.cnx :=
        List.mem_filter.2 ⟨mem_doNeedreq_of_mayRequest h hmay, Bool.and_eq_true_iff.2 ⟨hi, hmay⟩⟩
      rw [lastGreatest_eq_none hdb] at hmem
      cases hmem
    · dsimp only at hs
      split at hs
      · cases hs
      · exact ⟨_, ‹_›⟩

/-- **Saturation**: an authorised connection ends with its request queue full, or with
no piece left to request on it. -/
theorem trySendRequest_saturates (h : s.Ok cfg allowed) (hauth : v.other_doauth_req = true) :
    requestNbMax env v.cnx ≤ (s.trySendRequest env v).nbPendingRequest v.cnx ∨
      ∃ hint, (s.trySendRequest env v).selectPieceToRequest env v hint = none := by
  rw [trySendRequest, if_neg (by simp [hauth])]
  exact trySendLoop_exit env h (by omega)

/-! ### Events -/

theorem inv_trySendRequestOnIdleCnx (h : s.Ok cfg allowed) (cnxs : List CnxView) :
    (s.trySendRequestOnIdleCnx env cnxs).Ok cfg allowed ∧
      Grown (fun d => ∃ v ∈ cnxs, d = v.cnx) s (s.trySendRequestOnIdleCnx env cnxs) := by
  unfold trySendRequestOnIdleCnx
  induction cnxs generalizing s with
  | nil => exact ⟨h, Grown.refl s⟩
  | cons v cnxs ih =>
    have hstep : (if s.nbPendingRequest v.cnx ≠ 0 then s else s.trySendRequest env v).Ok cfg
        allowed ∧ Grown (· = v.cnx) s
          (if s.nbPendingRequest v.cnx ≠ 0 then s else s.trySendRequest env v) := by
      split_ifs
      · exact ⟨h, Grown.refl s⟩
      · exact inv_trySendRequest env h
    obtain ⟨h', hg'⟩ := ih hstep.1
    refine ⟨h', (hstep.2.mono ?_).trans (hg'.mono ?_)⟩
    · exact fun d hd => ⟨v, List.mem_cons_self, hd⟩
    · rintro d ⟨w, hw, hd⟩
      exact ⟨w, List.mem_cons_of_mem _ hw, hd⟩

theorem inv_deleteRequests (h : s.Ok cfg allowed) (c : CnxId) :
    (s.deleteRequests c).Ok cfg allowed ∧
      Removed (fun d _ _ => d = c) s (s.deleteRequests c) := by
  obtain ⟨h', hrem⟩ := removed_foldl (f := fun s (r : ℕ × ℕ) => s.requestDtor c r.1 r.2)
    (fun _ _ hs => ⟨inv_requestDtor hs, removed_requestDtor hs.reqs⟩) (s.request_db c) h
  refine ⟨h', hrem.congr h.reqs fun {d j k} hm => ⟨?_, ?_⟩⟩
  · rintro ⟨-, -, hd, -⟩
    exact hd
  · rintro rfl
    exact ⟨(j, k), hm, rfl, rfl, rfl⟩

theorem inv_deleteRequestsOfPiece (h : s.Ok cfg allowed) (c : CnxId) (i : ℕ) :
    (s.deleteRequestsOfPiece c i).Ok cfg allowed :=
  (removed_foldl (f := fun s (r : ℕ × ℕ) => s.requestDtor c r.1 r.2)
    (fun _ _ hs => ⟨inv_requestDtor hs, removed_requestDtor hs.reqs⟩) _ h).1

theorem inv_redistribute (h : s.Ok cfg allowed) (c : CnxId) (cnxs : List CnxView) :
    (s.redistribute env c cnxs).Ok cfg allowed :=
  (inv_trySendRequestOnIdleCnx env (inv_deleteRequests h c).1 cnxs).1

theorem inv_parsePieceUnavail (h : s.Ok cfg allowed) (i : ℕ) :
    (s.parsePieceUnavail env v i).Ok cfg allowed :=
  (inv_trySendRequest env (inv_deleteRequestsOfPiece h v.cnx i)).1

theorem inv_parseBlockRep (h : s.Ok cfg allowed) (i k : ℕ) :
    (s.parseBlockRep env v i k).Ok cfg allowed :=
  (inv_trySendRequest env (inv_blockNotifyComplete h)).1

theorem inv_pieceDtor_foldl (h : s.Ok cfg allowed) (l : List ℕ) :
    (l.foldl (fun s idx => s.pieceDtor idx) s).Ok cfg allowed := by
  induction l generalizing s with
  | nil => exact h
  | cons idx l ih => exact ih (inv_pieceDtor (fun _ => trivial) h)

theorem inv_notifyPieceprecChange (h : s.Ok cfg allowed) (cnxs : List CnxView) :
    (s.notifyPieceprecChange env cnxs).Ok cfg allowed :=
  (inv_trySendRequestOnIdleCnx env (inv_pieceDtor_foldl h _) cnxs).1

theorem inv_pieceChecked (h : s.Ok cfg allowed) (i : ℕ) : (s.pieceChecked i).Ok cfg allowed := by
  unfold pieceChecked
  split_ifs
  · exact inv_pieceDtor (fun _ => trivial) h
  · exact h

/-! ### Resume data -/

/-- What one turn of `partavail_piece_ctor` takes out of `current_inval`: the bytes of the
first piece it meets. -/
theorem mem_piece_isavail {cur : FileSizeInval} {x : ℕ} :
    x ∈ (FileSizeInval.ofItem (pieceidxToTotfileRange cfg.mfile i).toInvalItem).sub
        ((FileSizeInval.ofItem (pieceidxToTotfileRange cfg.mfile i).toInvalItem).sub cur) ↔
      x ∈ pieceidxToTotfileRange cfg.mfile i ∧ x ∈ cur := by
  simp only [FileSizeInval.mem_sub, FileSizeInval.mem_ofItem, FileRange.toInvalItem_min,
    FileRange.toInvalItem_max, FileRange.mem_def]
  tauto

section Turn

variable {cur : FileSizeInval} {item : FileSizeInval.Item} {fuel x : ℕ}

/-- What one turn of `partavail_piece_ctor` leaves in `current_inval`: the bytes of the
other pieces. -/
theorem mem_sub_turn (hi : i < cfg.mfile.nb_piece)
    (hlt : ∀ x, x ∈ cur → x < cfg.mfile.totfile_size) :
    x ∈ cur.sub ((FileSizeInval.ofItem (pieceidxToTotfileRange cfg.mfile i).toInvalItem).sub
        ((FileSizeInval.ofItem (pieceidxToTotfileRange cfg.mfile i).toInvalItem).sub cur)) ↔
      x ∈ cur ∧ totfileToPieceidx cfg.mfile x ≠ i := by
  rw [FileSizeInval.mem_sub, mem_piece_isavail, mem_pieceidxToTotfileRange hi]
  refine and_congr_right fun hx => ?_
  have := hlt x hx
  tauto

/-- The first byte of `current_inval` is in its first piece, and what a turn leaves is in
later pieces: one turn less is enough for it. -/
theorem nb_piece_le_turn (hf : cur.first? = some item)
    (hfuel : ∀ x, x ∈ cur → cfg.mfile.nb_piece ≤ fuel + 1 + totfileToPieceidx cfg.mfile x)
    (hx : x ∈ cur)
    (hne : totfileToPieceidx cfg.mfile x ≠ totfileToPieceidx cfg.mfile item.min_val) :
    cfg.mfile.nb_piece ≤ fuel + totfileToPieceidx cfg.mfile x := by
  have hmin : item.min_val ∈ cur := FileSizeInval.mem_of_first? hf ⟨le_refl _, item.le⟩
  have hle : totfileToPieceidx cfg.mfile item.min_val ≤ totfileToPieceidx cfg.mfile x :=
    Nat.div_le_div_right (FileSizeInval.first?_le hf hx)
  have := hfuel _ hmin
  omega

end Turn

/-- **The pieces of the resume data**: each piece which `cur` meets is built, with the bytes
of `cur` which are its own, and the others are left as they are.  One turn takes a whole
piece, so the fuel is enough. -/
theorem partavailPieceCtor_spec {cur : FileSizeInval} {fuel : ℕ} (h : s.Ok cfg allowed)
    (hlt : ∀ x, x ∈ cur → x < cfg.mfile.totfile_size)
    (hfuel : ∀ x, x ∈ cur → cfg.mfile.nb_piece ≤ fuel + totfileToPieceidx cfg.mfile x)
    (hnone : ∀ x, x ∈ cur → s.piece.obj (totfileToPieceidx cfg.mfile x) = none)
    (hall : allowed ∨ ∀ i < cfg.mfile.nb_piece, ∃ x ∈ pieceidxToTotfileRange cfg.mfile i, x ∉ cur) :
    (partavailPieceCtor cfg fuel s cur).Ok cfg allowed ∧ ∀ i,
      ((∀ x, x ∈ cur → totfileToPieceidx cfg.mfile x ≠ i) →
        (partavailPieceCtor cfg fuel s cur).piece.obj i = s.piece.obj i) ∧
      ((∃ x, x ∈ cur ∧ totfileToPieceidx cfg.mfile x = i) →
        ∃ inval, (partavailPieceCtor cfg fuel s cur).piece.obj i =
            some (SchedPiece.ctor cfg.mfile i inval) ∧
          ∀ x, x ∈ inval ↔ x ∈ pieceidxToTotfileRange cfg.mfile i ∧ x ∈ cur) := by
  induction fuel generalizing s cur with
  | zero =>
    -- no byte is left
    rw [partavailPieceCtor]
    refine ⟨h, fun i => ⟨fun _ => rfl, ?_⟩⟩
    rintro ⟨x, hx, -⟩
    have := hfuel x hx
    have := (mem_range_totfileToPieceidx (hlt x hx)).1
    omega
  | succ fuel ih =>
    rw [partavailPieceCtor]
    rcases hf : cur.first? with - | item
    · have hempty := FileSizeInval.isEmpty_iff.1 (FileSizeInval.isEmpty_of_first? hf)
      refine ⟨h, fun i => ⟨fun _ => rfl, ?_⟩⟩
      rintro ⟨x, hx, -⟩
      exact absurd hx (hempty x)
    · simp only []
      have hmin : item.min_val ∈ cur :=
        FileSizeInval.mem_of_first? hf ⟨le_refl _, item.le⟩
      generalize hidx : totfileToPieceidx cfg.mfile item.min_val = idx
      obtain ⟨hidxlt, -⟩ := mem_range_totfileToPieceidx (hlt _ hmin)
      rw [hidx] at hidxlt
      generalize hav : (FileSizeInval.ofItem (pieceidxToTotfileRange cfg.mfile idx).toInvalItem).sub
        ((FileSizeInval.ofItem (pieceidxToTotfileRange cfg.mfile idx).toInvalItem).sub cur) = isavail
      have hmem : ∀ x, x ∈ isavail ↔ x ∈ pieceidxToTotfileRange cfg.mfile idx ∧ x ∈ cur := by
        intro x
        rw [← hav, mem_piece_isavail]
      have hmem' : ∀ x, x ∈ cur.sub isavail ↔
          x ∈ cur ∧ totfileToPieceidx cfg.mfile x ≠ idx := by
        intro x
        rw [← hav]
        exact mem_sub_turn hidxlt hlt
      have hinone : s.piece.obj idx = none := hidx ▸ hnone _ hmin
      have hobj : ∀ j, (s.pieceCtor cfg idx isavail).piece.obj j =
          if j = idx then some (SchedPiece.ctor cfg.mfile idx isavail) else s.piece.obj j :=
        fun j => StateDb.obj_set
      have h' : (s.pieceCtor cfg idx isavail).Ok cfg allowed := by
        refine inv_pieceCtor h hidxlt hinone (fun x hx => ((hmem x).1 hx).1) ?_
        refine hall.imp_right fun hall => ?_
        obtain ⟨x, hx, hxc⟩ := hall idx hidxlt
        exact ⟨x, hx, fun hx' => hxc ((hmem x).1 hx').2⟩
      obtain ⟨hok, hspec⟩ := @ih (s.pieceCtor cfg idx isavail) (cur.sub isavail) h'
        (fun x hx => hlt x ((hmem' x).1 hx).1)
        (by
          -- what is left is in later pieces
          intro x hx
          obtain ⟨hxc, hne⟩ := (hmem' x).1 hx
          exact nb_piece_le_turn hf hfuel hxc (hidx ▸ hne))
        (by
          intro x hx
          obtain ⟨hxc, hne⟩ := (hmem' x).1 hx
          rw [hobj, if_neg hne]
          exact hnone x hxc)
        (hall.imp_right fun hall j hj => by
          obtain ⟨x, hx, hxc⟩ := hall j hj
          exact ⟨x, hx, fun hx' => hxc ((hmem' x).1 hx').1⟩)
      refine ⟨hok, fun j => ?_⟩
      obtain ⟨hkeep, hnew⟩ := hspec j
      by_cases hj : j = idx
      · have hkept := hkeep fun x hx => hj ▸ ((hmem' x).1 hx).2
        rw [hobj, if_pos hj] at hkept
        refine ⟨fun hno => absurd (hidx.trans hj.symm) (hno _ hmin), fun _ => ?_⟩
        rw [hj] at hkept ⊢
        exact ⟨isavail, hkept, hmem⟩
      · refine ⟨fun hno => ?_, ?_⟩
        · rw [hkeep fun x hx => hno x ((hmem' x).1 hx).1, hobj, if_neg hj]
        · rintro ⟨x, hx, hxj⟩
          obtain ⟨inval, hinval, hm⟩ := hnew ⟨x, (hmem' x).2 ⟨hx, hxj.trans_ne hj⟩, hxj⟩
          refine ⟨inval, hinval, fun y => (hm y).trans (and_congr_right fun hy => ?_)⟩
          rw [hmem', and_iff_left]
          have hjlt : j < cfg.mfile.nb_piece := by
            rw [← hxj]
            exact (mem_range_totfileToPieceidx (hlt x hx)).1
          rw [((mem_pieceidxToTotfileRange hjlt).1 hy).2]
          exact hj

/-- The piece `i` is fully covered by the resume data. -/
def FullyResumed (cfg : SwarmCfg) (partavail_piece_inval : FileSizeInval) : Prop :=
  ∃ i < cfg.mfile.nb_piece, ∀ x ∈ pieceidxToTotfileRange cfg.mfile i, x ∈ partavail_piece_inval

section Start

variable {pavail : Pieceavail} {resume : FileSizeInval}

theorem start_spec (hlt : ∀ x, x ∈ resume → x < cfg.mfile.totfile_size) :
    (start cfg pavail resume).Ok cfg (FullyResumed cfg resume) ∧ ∀ i,
      ((∀ x, x ∈ resume → totfileToPieceidx cfg.mfile x ≠ i) →
        (start cfg pavail resume).piece.obj i = none) ∧
      ((∃ x, x ∈ resume ∧ totfileToPieceidx cfg.mfile x = i) →
        ∃ inval, (start cfg pavail resume).piece.obj i =
            some (SchedPiece.ctor cfg.mfile i inval) ∧
          ∀ x, x ∈ inval ↔ x ∈ pieceidxToTotfileRange cfg.mfile i ∧ x ∈ resume) := by
  have hnone : ∀ {i p}, (StateDb.empty : StateDb ℕ SchedPiece.state_cur).obj i ≠ some p := by
    intro i p hp
    cases hp
  unfold start
  refine partavailPieceCtor_spec ⟨⟨?_, ?_, ?_, ?_, ?_, ?_, Bitfield.length_ofSize _⟩,
    ⟨?_, fun _ => List.nodup_nil, ?_⟩⟩ hlt (by simp) (fun _ _ => rfl) ?_
  · exact fun hp => absurd hp hnone
  · exact fun hp => absurd hp hnone
  · exact fun hp => absurd hp hnone
  · exact fun hp => absurd hp hnone
  · exact fun hp => absurd hp hnone
  · exact fun hp => absurd hp hnone
  · intro c i k
    simp [blk]
  · intro i k b hb
    cases hb
  · by_cases hfull : FullyResumed cfg resume
    · exact .inl hfull
    · right
      simpa [FullyResumed] using hfull

theorem inv_start (hlt : ∀ x, x ∈ resume → x < cfg.mfile.totfile_size) :
    (start cfg pavail resume).Ok cfg (FullyResumed cfg resume) :=
  (start_spec hlt).1

end Start

/-! ### The resume data of a running scheduler -/

theorem mem_foldl_add {f : ℕ → FileSizeInval} {l : List ℕ} {acc : FileSizeInval} {x : ℕ} :
    x ∈ l.foldl (fun acc i => acc.add (f i)) acc ↔ x ∈ acc ∨ ∃ i ∈ l, x ∈ f i := by
  induction l generalizing acc with
  | nil => simp
  | cons i l ih =>
    rw [List.foldl_cons, ih, FileSizeInval.mem_add, or_assoc]
    simp only [List.mem_cons, exists_eq_or_imp]

/-- The pieces which the scheduler lists. -/
theorem mem_piece_db {allowed : Prop} (h : s.Ok cfg allowed) :
    i ∈ s.piece_do_needreq_db ++ s.piece_no_needreq_db ↔ ∃ p, s.piece.obj i = some p := by
  rw [List.mem_append]
  constructor
  · rintro (hi | hi)
    · obtain ⟨p, hp, -⟩ := StateDb.obj_of_mem_db hi
      exact ⟨p, hp⟩
    · obtain ⟨p, hp, -⟩ := StateDb.obj_of_mem_db hi
      exact ⟨p, hp⟩
  · rintro ⟨p, hp⟩
    obtain ⟨q, hq⟩ := (h.pieces.classified hp).state_isSome
    rw [StateDb.mem_db_of_obj hp, StateDb.mem_db_of_obj hp, hq]
    rcases q with - | -
    · exact .inl rfl
    · exact .inr rfl

/-- A piece is listed once. -/
theorem nodup_piece_db : (s.piece_do_needreq_db ++ s.piece_no_needreq_db).Nodup := by
  rw [List.nodup_append]
  refine ⟨StateDb.nodup_db, StateDb.nodup_db, ?_⟩
  rintro a ha b hb rfl
  cases StateDb.db_unique ha hb

/-- What is saved is what the scheduled pieces have. -/
theorem mem_getPartavailPieceInval (h : s.Ok cfg allowed) {x : ℕ} :
    x ∈ s.getPartavailPieceInval ↔ ∃ i p, s.piece.obj i = some p ∧ x ∈ p.isavail_inval := by
  rw [getPartavailPieceInval, mem_foldl_add, or_iff_right FileSizeInval.not_mem_null]
  constructor
  · rintro ⟨i, hi, hx⟩
    obtain ⟨p, hp⟩ := (mem_piece_db h).1 hi
    rw [hp, Option.map_some, Option.getD_some] at hx
    exact ⟨i, p, hp, hx⟩
  · rintro ⟨i, p, hp, hx⟩
    refine ⟨i, (mem_piece_db h).2 ⟨p, hp⟩, ?_⟩
    rw [hp, Option.map_some, Option.getD_some]
    exact hx

/-- **What is saved can be resumed**: it is within the file. -/
theorem getPartavailPieceInval_lt (h : s.Ok cfg allowed) {x : ℕ}
    (hx : x ∈ s.getPartavailPieceInval) : x < cfg.mfile.totfile_size := by
  obtain ⟨i, p, hp, hx⟩ := (mem_getPartavailPieceInval h).1 hx
  have hrange := ((h.pieces.partition hp trivial).union x).2 (.inl hx)
  rw [h.pieces.range hp] at hrange
  exact ((mem_pieceidxToTotfileRange (h.pieces.lt_nb_piece hp)).1 hrange).1

end Sched

end Neoip
