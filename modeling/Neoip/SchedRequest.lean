/-
Neoip/SchedRequest.lean

The requests of a block, over a run of the scheduler.

A request is issued by selection, expires by its timer, is answered late, is
cancelled when another connection answers, and vanishes with its connection.
The handler of each event does this in two parts: it first takes requests away
(`Sched.beforeSend`), then it may send new ones.  `Shrunk` is what the first
part can do, `Issued` what the second can.  So a block has at most one request
which is not expired, a request is issued only for a block all of whose
requests are expired (`MayIssue`), and none for a block whose data is being
written.

A `bt_http_ecnx_cnx_t` has nothing to send in `sched_req_cancel`, so only a
peer is sent a `BLOCK_DEL` (`sentSince`).  And a piece which is no more needed
is deleted with the blocks which are being written: these can be requested
again before their write completes (`EndsWrite`).
-/
import Mathlib.Data.List.Nodup
import Neoip.SwarmSched

namespace Neoip

/-! ### Pieces which are being checked -/

namespace SchedPiece

/-- A piece whose check is launched is whole: nothing is left to request in it. -/
def Whole (p : SchedPiece) : Prop :=
  p.post_process = true → p.nevereq_inval.isEmpty = true ∧ ∀ k, p.block.obj k = none

variable {p p' : SchedPiece} {k : ℕ} {b : SchedBlock} {allowed : Prop}

theorem Whole.post_process_eq_false (h : p.Whole) (hb : p.block.obj k = some b) :
    p.post_process = false := by
  by_contra hp
  rw [Bool.not_eq_false] at hp
  rw [(h hp).2 k] at hb
  cases hb

@[simp] theorem post_process_setBlock : (p.setBlock k b).post_process = p.post_process := by
  obtain ⟨q, hq⟩ := setBlock_eq p k b
  rw [hq]

theorem Whole.updateBlock (h : p.Whole) (f : SchedBlock → SchedBlock) :
    (p.updateBlock k f).Whole := by
  rcases hb : p.block.obj k with - | b
  · rw [updateBlock_of_none hb]
    exact h
  · intro hp
    rw [updateBlock_of_some hb, post_process_setBlock, h.post_process_eq_false hb] at hp
    cases hp

theorem Whole.eraseBlock (h : p.Whole) : (p.eraseBlock k).Whole := by
  have hun : (p.unlinkBlock k).Whole := h.updateBlock _
  intro hp
  refine ⟨(hun hp).1, fun j => ?_⟩
  show ((p.unlinkBlock k).block.erase k).obj j = none
  rw [StateDb.obj_erase, (hun hp).2 j, ite_self]

theorem isFullyDloaded_iff : p.isFullyDloaded = true ↔ p.block_do_needreq_db = [] ∧
    p.block_no_needreq_db = [] ∧ p.nevereq_inval.isEmpty = true := by
  unfold isFullyDloaded
  split_ifs with h₁ h₂ h₃ <;> simp_all

/-- A piece without a listed block has no block but those which are unlinked. -/
theorem obj_eq_none_of_fullyDloaded (h : p.isFullyDloaded = true)
    (hb : ∀ b, p.block.obj k = some b → b.Settled) : p.block.obj k = none := by
  obtain ⟨hdo, hno, -⟩ := isFullyDloaded_iff.1 h
  by_contra hne
  obtain ⟨b, hk⟩ := Option.ne_none_iff_exists'.1 hne
  have hst : b.state_cur = some b.stateCpu := hb b hk
  rcases b.stateCpu_ne with hq | hq
  · exact StateDb.db_eq_nil.1 hdo k b hk (hst.trans (congrArg some hq))
  · exact StateDb.db_eq_nil.1 hno k b hk (hst.trans (congrArg some hq))

/-- The check is launched when the last block is written. -/
theorem Whole.written (h : p.Whole) (hC : p.Classified allowed) (hb : p.block.obj k = some b) :
    ((p.blockWritten k).eraseBlock k).Whole := by
  have hpp : ∀ q : SchedPiece, (q.eraseBlock k).post_process = (q.unlinkBlock k).post_process :=
    fun _ => rfl
  have hfalse : (p.unlinkBlock k).post_process = false := by
    rw [unlinkBlock_of_some hb, post_process_setBlock]
    exact h.post_process_eq_false hb
  obtain ⟨-, -, hnev, -⟩ := written_fields hb
  intro hp
  obtain ⟨blk, he⟩ := eraseBlock_of_unlinked (obj_blockWritten_self hb) rfl
  have hw : p.blockWritten k = (p.unlinkBlock k).notifyBlockCompletion b.totfile_range := by
    rw [blockWritten, hb]
  rw [he] at hp
  have hp' : (p.blockWritten k).post_process = true := hp
  rw [hw, notifyBlockCompletion] at hp'
  split_ifs at hp' with hfull
  · refine ⟨?_, fun j => ?_⟩
    · rw [hnev]
      have hempty := (isFullyDloaded_iff.1 hfull).2.2
      rw [unlinkBlock_of_some hb] at hempty
      simpa using hempty
    · rw [obj_written hb]
      split_ifs with hj
      · rfl
      · have hsame : (p.unlinkBlock k).block.obj j = p.block.obj j := by
          rw [obj_unlinkBlock, if_neg hj]
        rw [← hsame]
        apply obj_eq_none_of_fullyDloaded hfull
        intro b' hb'
        have hb'' : (p.unlinkBlock k).block.obj j = some b' := hb'
        rw [hsame] at hb''
        exact hC.block hb''
  · rw [show (_ : SchedPiece).post_process = (p.unlinkBlock k).post_process from rfl, hfalse] at hp'
    cases hp'

/-- Nothing is found to request in a piece which is being checked. -/
theorem Whole.getBlockToRequest {cnx : CnxId} {maxlen : ℕ} {hpos : 0 < maxlen} (h : p.Whole)
    (hg : p.getBlockToRequest cnx maxlen hpos = some (p', k)) : p'.Whole := by
  rcases getBlockToRequest_cases hg with ⟨rfl, -⟩ | ⟨r, -, hr, rfl⟩
  · exact h
  · intro hp
    rw [post_process_setBlock] at hp
    have hempty := FileSizeInval.isEmpty_iff.1 (h hp).1
    exact absurd (hr _ r.beg_mem) (hempty _)

theorem whole_ctor {m : Mfile} {idx : ℕ} {isavail : FileSizeInval} :
    (SchedPiece.ctor m idx isavail).Whole := by
  unfold ctor
  simp only []
  split_ifs with hfull
  · exact fun _ => ⟨(isFullyDloaded_iff.1 hfull).2.2, fun _ => rfl⟩
  · exact fun hp => nomatch hp

end SchedPiece

namespace Sched

variable {cfg : SwarmCfg} {allowed : Prop} {part : ℕ → Prop} {s s' s'' : Sched} {c : CnxId}
  {i j k k' : ℕ} {b : SchedBlock}

/-! ### The claim on one state -/

/-- The data of the block is being written. -/
def Writing (s : Sched) (i k : ℕ) : Prop := ∃ b, s.blk i k = some b ∧ b.bt_io_write = true

/-- The requests of every block: each connection has at most one, at most one is not expired,
and none is left once the data is being written.  The two ends of each request know it. -/
structure Unique (s : Sched) : Prop where
  request_db : ∀ c, (s.request_db c).Nodup
  mem : ∀ {c i k}, (i, k) ∈ s.request_db c ↔ ∃ b, s.blk i k = some b ∧ b.isReqedBy c = true
  nodup : ∀ {i k b}, s.blk i k = some b → b.ReqNodup
  pending : ∀ {i k b}, s.blk i k = some b → b.pending_req_db.length ≤ 1
  writing : ∀ {c i k}, s.Writing i k → (i, k) ∉ s.request_db c

/-- A request of the connection for the block may be issued: the block is new, or all its
requests are expired, none of them is of this connection, and its data is not being written. -/
def MayIssue (s : Sched) (c : CnxId) (i k : ℕ) : Prop :=
  ∀ b, s.blk i k = some b →
    b.pending_req_db = [] ∧ c ∉ b.expired_req_db ∧ b.bt_io_write = false

/-- Every piece which is being checked is whole. -/
def Whole (s : Sched) : Prop := ∀ i p, s.piece.obj i = some p → p.Whole

/-- A block which is being written is in a piece which is not checked yet. -/
theorem Whole.not_writing (h : s.Whole) (hp : (s.piece.obj i).any SchedPiece.post_process = true) :
    ¬ s.Writing i k := by
  obtain ⟨p, hpi, hpp⟩ := (Option.any_eq_true _ _).1 hp
  rintro ⟨b, hb, -⟩
  rw [blk_of_obj hpi, (h i p hpi hpp).2] at hb
  cases hb

theorem whole_updatePiece {f : SchedPiece → SchedPiece} (h : s.Whole)
    (hf : ∀ p, s.piece.obj i = some p → p.Whole → (f p).Whole) : (s.updatePiece i f).Whole := by
  intro j q hj
  rw [obj_updatePiece] at hj
  split_ifs at hj
  · obtain ⟨p, hp, rfl⟩ := Option.map_eq_some_iff.1 hj
    exact hf p hp (h i p hp)
  · exact h j q hj

theorem blk_updatePiece {f : SchedPiece → SchedPiece} : (s.updatePiece i f).blk j k =
    if j = i then (s.piece.obj i).bind fun p => (f p).block.obj k else s.blk j k := by
  rw [blk, obj_updatePiece]
  split_ifs with hj
  · rw [Option.bind_map]
    rfl
  · rfl

/-! ### Requests which are taken away -/

/-- From `s` to `s'` no request was issued, and no block got new ones; only the blocks of `D`
are not written any more. -/
structure Shrunk (D : ℕ → ℕ → Prop) (s s' : Sched) : Prop where
  blk : ∀ {i k b'}, s'.blk i k = some b' →
    ∃ b, s.blk i k = some b ∧ b'.pending_req_db.length ≤ b.pending_req_db.length
  writing : ∀ {i k}, ¬ D i k → s.Writing i k → s'.Writing i k
  whole : s.Whole → s'.Whole
  sent : ∃ l, s'.sent = s.sent ++ l ∧ ∀ c i k, (c, ReqCmd.blockReq i k) ∉ l

namespace Shrunk

variable {D E : ℕ → ℕ → Prop}

theorem refl (s : Sched) : Shrunk D s s :=
  ⟨fun hb => ⟨_, hb, le_refl _⟩, fun _ hw => hw, id, [], by simp⟩

theorem trans (h : Shrunk D s s') (h' : Shrunk D s' s'') : Shrunk D s s'' := by
  refine ⟨fun hb => ?_, fun hD hw => h'.writing hD (h.writing hD hw),
    fun hw => h'.whole (h.whole hw), ?_⟩
  · obtain ⟨b', hb', hle'⟩ := h'.blk hb
    obtain ⟨b, hb, hle⟩ := h.blk hb'
    exact ⟨b, hb, hle'.trans hle⟩
  · obtain ⟨l, hl, hreq⟩ := h.sent
    obtain ⟨l', hl', hreq'⟩ := h'.sent
    refine ⟨l ++ l', by rw [hl', hl, List.append_assoc], fun c i k hmem => ?_⟩
    rcases List.mem_append.1 hmem with hmem | hmem
    · exact hreq c i k hmem
    · exact hreq' c i k hmem

theorem foldl {α : Type*} {f : Sched → α → Sched} (hf : ∀ s a, Shrunk D s (f s a)) (l : List α)
    (s : Sched) : Shrunk D s (l.foldl f s) := by
  induction l generalizing s with
  | nil => exact refl s
  | cons a l ih => exact (hf s a).trans (ih (f s a))

end Shrunk

variable {D : ℕ → ℕ → Prop}

/-- An update of one block which adds no request. -/
theorem shrunk_updateBlock {g : SchedBlock → SchedBlock}
    (hp : ∀ b, (g b).pending_req_db.length ≤ b.pending_req_db.length)
    (hw : ∀ b, b.bt_io_write = true → (g b).bt_io_write = true) :
    Shrunk D s (s.updateBlock i k g) := by
  refine ⟨fun {j k' b'} hb => ?_, ?_, fun h => ?_, [], by simp [updateBlock, updatePiece]⟩
  · rw [blk_updateBlock] at hb
    split_ifs at hb with hjk
    · obtain ⟨b, hb', rfl⟩ := Option.map_eq_some_iff.1 hb
      rw [hjk.1, hjk.2]
      exact ⟨b, hb', hp b⟩
    · exact ⟨b', hb, le_refl _⟩
  · rintro j k' - ⟨b, hb, hbw⟩
    by_cases hjk : j = i ∧ k' = k
    · refine ⟨g b, ?_, hw b hbw⟩
      rw [blk_updateBlock, if_pos hjk, ← hjk.1, ← hjk.2, hb, Option.map_some]
    · exact ⟨b, by rw [blk_updateBlock, if_neg hjk, hb], hbw⟩
  · exact whole_updatePiece h fun p _ hp => hp.updateBlock g

theorem shrunk_requestDtor : Shrunk D s (s.requestDtor c i k) := by
  have h : Shrunk D s (s.updateBlock i k fun b => b.reqUnlink c) := by
    apply shrunk_updateBlock
    · intro b
      unfold SchedBlock.reqUnlink SchedBlock.pendingReqUnlink SchedBlock.expiredReqUnlink
      split_ifs
      · rw [SchedBlock.stateChangeIfNeeded_eq]
        exact List.length_erase_le
      · rw [SchedBlock.stateChangeIfNeeded_eq]
    · intro b hb
      rw [(b.reqUnlink_fields c).2.1, hb]
  exact ⟨h.blk, h.writing, h.whole, h.sent⟩

theorem shrunk_requestExpire : Shrunk D s (s.requestExpire c i k) := by
  unfold requestExpire
  split_ifs
  · apply (shrunk_updateBlock (g := fun b => b.pendingReqUnlink c) ?_ ?_).trans
      (shrunk_updateBlock (g := fun b => b.expiredReqDolink c) ?_ ?_)
    · intro b
      rw [SchedBlock.pendingReqUnlink, SchedBlock.stateChangeIfNeeded_eq]
      exact List.length_erase_le
    · intro b hb
      rw [SchedBlock.pendingReqUnlink, SchedBlock.stateChangeIfNeeded_eq]
      exact hb
    · intro b
      rw [SchedBlock.expiredReqDolink, SchedBlock.stateChangeIfNeeded_eq]
    · intro b hb
      rw [SchedBlock.expiredReqDolink, SchedBlock.stateChangeIfNeeded_eq]
      exact hb
  · exact Shrunk.refl s

theorem shrunk_send_blockDel : Shrunk D s (s.send c (.blockDel i k)) :=
  ⟨fun hb => ⟨_, hb, le_refl _⟩, fun _ hw => hw, id, [(c, .blockDel i k)], rfl, by simp⟩

theorem shrunk_requestNotifyComplete {from_cnx : CnxId} :
    Shrunk D s (s.requestNotifyComplete from_cnx c i k) := by
  unfold requestNotifyComplete
  split_ifs
  · exact shrunk_send_blockDel.trans shrunk_requestDtor
  · exact shrunk_requestDtor

theorem shrunk_blockNotifyComplete {from_cnx : CnxId} :
    Shrunk D s (s.blockNotifyComplete from_cnx i k) := by
  unfold blockNotifyComplete
  rcases s.blk i k with - | b
  · exact Shrunk.refl s
  · refine ((Shrunk.foldl (fun _ _ => shrunk_requestNotifyComplete) _ s).trans
      (Shrunk.foldl (fun _ _ => shrunk_requestNotifyComplete) _ _)).trans
        (shrunk_updateBlock ?_ ?_)
    · intro b
      rw [SchedBlock.launchIoWrite, SchedBlock.stateChangeIfNeeded_eq]
    · intro b _
      rw [SchedBlock.launchIoWrite, SchedBlock.stateChangeIfNeeded_eq]

/-- The block `k` of the piece `i` goes. -/
theorem shrunk_eraseBlock (hD : D i k) :
    Shrunk D s (s.updatePiece i fun p => p.eraseBlock k) := by
  have hblk : ∀ j k', (s.updatePiece i fun p => p.eraseBlock k).blk j k' =
      if j = i ∧ k' = k then none else s.blk j k' := by
    intro j k'
    rw [blk_updatePiece]
    by_cases hj : j = i
    · rw [if_pos hj, hj, blk]
      rcases s.piece.obj i with - | p
      · simp
      · simp only [Option.bind_some, SchedPiece.obj_eraseBlock, true_and]
    · rw [if_neg hj, if_neg fun h => hj h.1]
  refine ⟨fun {j k' b'} hb => ?_, ?_, fun h => whole_updatePiece h fun _ _ hp => hp.eraseBlock,
    [], by simp [updatePiece]⟩
  · rw [hblk] at hb
    split_ifs at hb
    exact ⟨b', hb, le_refl _⟩
  · rintro j k' hjk ⟨b, hb, hw⟩
    refine ⟨b, ?_, hw⟩
    rw [hblk, if_neg, hb]
    rintro ⟨rfl, rfl⟩
    exact hjk hD

theorem shrunk_blockDtor (hD : D i k) : Shrunk D s (s.blockDtor i k) := by
  unfold blockDtor
  rcases s.blk i k with - | b
  · exact Shrunk.refl s
  · exact ((Shrunk.foldl (fun _ _ => shrunk_requestDtor) _ s).trans
      (Shrunk.foldl (fun _ _ => shrunk_requestDtor) _ _)).trans (shrunk_eraseBlock hD)

theorem shrunk_pieceDtor (hD : ∀ k, D i k) : Shrunk D s (s.pieceDtor i) := by
  have hclear : Shrunk D s { s with local_pdling := s.local_pdling.clear i } :=
    ⟨fun hb => ⟨_, hb, le_refl _⟩, fun _ hw => hw, id, [], by simp⟩
  have herase : ∀ s : Sched, Shrunk D s { s with piece := s.piece.erase i } := by
    intro s
    have hblk : ∀ j k', ({ s with piece := s.piece.erase i } : Sched).blk j k' =
        if j = i then none else s.blk j k' := by
      intro j k'
      show ((s.piece.erase i).obj j).bind _ = _
      rw [StateDb.obj_erase]
      split_ifs
      · rfl
      · rfl
    refine ⟨fun {j k' b'} hb => ?_, ?_, fun h j p hp => ?_, [], by simp⟩
    · rw [hblk] at hb
      split_ifs at hb
      exact ⟨b', hb, le_refl _⟩
    · rintro j k' hjk ⟨b, hb, hw⟩
      refine ⟨b, ?_, hw⟩
      rw [hblk, if_neg, hb]
      rintro rfl
      exact hjk (hD k')
    · have hp' : (s.piece.erase i).obj j = some p := hp
      rw [StateDb.obj_erase] at hp'
      split_ifs at hp'
      exact h j p hp'
  have hdtor : ∀ (l : List ℕ) (s : Sched),
      Shrunk D s (l.foldl (fun s beg => s.blockDtor i beg) s) := fun l s =>
    Shrunk.foldl (fun s beg => shrunk_blockDtor (hD beg)) l s
  exact ((hclear.trans (hdtor _ _)).trans (hdtor _ _)).trans (herase _)

/-- The end of a write takes its block away. -/
theorem shrunk_ioWriteDone (h : s.Inv cfg allowed part) (hD : D i k) :
    Shrunk D s (s.ioWriteDone i k) := by
  by_cases hw : (s.blk i k).any SchedBlock.bt_io_write = true
  · obtain ⟨b, hb, hw⟩ := (Option.any_eq_true _ _).1 hw
    have hobj := obj_ioWriteDone h hb hw
    have hblk : ∀ j k', (s.ioWriteDone i k).blk j k' =
        if j = i ∧ k' = k then none else s.blk j k' := by
      intro j k'
      rw [blk, hobj]
      exact blk_dropBlock hb fun p _ hp => SchedPiece.obj_written hp
    refine ⟨fun {j k' b'} hb' => ?_, ?_, fun hwhole j p hp => ?_, [], ?_, by simp⟩
    · rw [hblk] at hb'
      split_ifs at hb'
      exact ⟨b', hb', le_refl _⟩
    · rintro j k' hjk ⟨b', hb', hw'⟩
      refine ⟨b', ?_, hw'⟩
      rw [hblk, if_neg, hb']
      rintro ⟨rfl, rfl⟩
      exact hjk hD
    · rw [hobj] at hp
      refine whole_updatePiece (f := fun p => (p.blockWritten k).eraseBlock k) hwhole
        (fun q hq hwq => ?_) j p hp
      rw [blk_of_obj hq] at hb
      exact hwq.written (h.pieces.classified hq) hb
    · rw [ioWriteDone_eq h hb hw, List.append_nil]
      rfl
  · rw [ioWriteDone, if_neg hw]
    exact Shrunk.refl s

theorem shrunk_deleteRequests : Shrunk D s (s.deleteRequests c) :=
  Shrunk.foldl (fun _ _ => shrunk_requestDtor) _ s

theorem shrunk_deleteRequestsOfPiece : Shrunk D s (s.deleteRequestsOfPiece c i) :=
  Shrunk.foldl (fun _ _ => shrunk_requestDtor) _ s

theorem shrunk_removeNotneededPiece (env : SelectEnv cfg) :
    Shrunk (fun i _ => env.pieceprec i = pieceprecNotneeded) s (s.removeNotneededPiece env) := by
  have hfold : ∀ (l : List ℕ) (s : Sched), (∀ i ∈ l, env.pieceprec i = pieceprecNotneeded) →
      Shrunk (fun i _ => env.pieceprec i = pieceprecNotneeded) s
        (l.foldl (fun s idx => s.pieceDtor idx) s) := by
    intro l
    induction l with
    | nil => exact fun s _ => Shrunk.refl s
    | cons i l ih =>
      intro s hl
      apply (shrunk_pieceDtor fun _ => hl i List.mem_cons_self).trans
      exact ih _ fun j hj => hl j (List.mem_cons_of_mem _ hj)
  apply hfold
  intro i hi
  rcases List.mem_append.1 hi with hi | hi
  · simpa using (List.mem_filter.1 hi).2
  · simpa using (List.mem_filter.1 hi).2

/-! ### Requests which are issued -/

/-- From `s` to `s'` requests were issued: each one for another block, which it could be
issued for in `s`, and of which it is in `s'` the request that is not expired. -/
structure Issued (s s' : Sched) : Prop where
  blk : ∀ {i k b}, s.blk i k = some b → ∃ b', s'.blk i k = some b' ∧
    b'.bt_io_write = b.bt_io_write ∧ b'.expired_req_db = b.expired_req_db ∧
      (b.pending_req_db ≠ [] → b'.pending_req_db = b.pending_req_db)
  pending : (∀ {i k b}, s.blk i k = some b → b.pending_req_db.length ≤ 1) →
    ∀ {i k b'}, s'.blk i k = some b' → b'.pending_req_db.length ≤ 1
  whole : s.Whole → s'.Whole
  sent : ∃ l, s'.sent = s.sent ++ l ∧ (l.map Prod.snd).Nodup ∧ ∀ x ∈ l, ∃ i k,
    x.2 = ReqCmd.blockReq i k ∧ s.MayIssue x.1 i k ∧
      ∃ b', s'.blk i k = some b' ∧ b'.pending_req_db = [x.1]

namespace Issued

theorem refl (s : Sched) : Issued s s :=
  ⟨fun hb => ⟨_, hb, rfl, rfl, fun _ => rfl⟩, fun h => h, id, [], by simp⟩

theorem mayIssue (h : Issued s s') (hm : s'.MayIssue c i k) : s.MayIssue c i k := by
  intro b hb
  obtain ⟨b', hb', hw, he, hp⟩ := h.blk hb
  obtain ⟨hpend, hexp, hwrite⟩ := hm b' hb'
  refine ⟨?_, he ▸ hexp, hw ▸ hwrite⟩
  by_contra hne
  exact hne ((hp hne).symm.trans hpend)

theorem trans (h : Issued s s') (h' : Issued s' s'') : Issued s s'' := by
  refine ⟨fun hb => ?_, fun hp => h'.pending (h.pending hp), fun hw => h'.whole (h.whole hw), ?_⟩
  · obtain ⟨b', hb', hw, he, hp⟩ := h.blk hb
    obtain ⟨b'', hb'', hw', he', hp'⟩ := h'.blk hb'
    refine ⟨b'', hb'', hw'.trans hw, he'.trans he, fun hne => ?_⟩
    have heq := hp hne
    exact (hp' (heq ▸ hne)).trans heq
  · obtain ⟨l, hl, hnd, hiss⟩ := h.sent
    obtain ⟨l', hl', hnd', hiss'⟩ := h'.sent
    refine ⟨l ++ l', by rw [hl', hl, List.append_assoc], ?_, fun x hx => ?_⟩
    · rw [List.map_append, List.nodup_append]
      refine ⟨hnd, hnd', ?_⟩
      -- a block which got a request is not one for which another may be issued
      rintro cmd hcmd cmd' hcmd' rfl
      obtain ⟨x, hx, hxc⟩ := List.mem_map.1 hcmd
      obtain ⟨y, hy, hyc⟩ := List.mem_map.1 hcmd'
      obtain ⟨i, k, heq, -, b', hb', hpend⟩ := hiss x hx
      obtain ⟨i', k', heq', hmay, -⟩ := hiss' y hy
      rw [hxc.trans hyc.symm, heq', ReqCmd.blockReq.injEq] at heq
      obtain ⟨rfl, rfl⟩ := heq
      have hnil := (hmay b' hb').1
      rw [hpend] at hnil
      cases hnil
    · rcases List.mem_append.1 hx with hx | hx
      · obtain ⟨i, k, heq, hmay, b', hb', hpend⟩ := hiss x hx
        obtain ⟨b'', hb'', -, -, hp'⟩ := h'.blk hb'
        exact ⟨i, k, heq, hmay, b'', hb'', (hp' (by simp [hpend])).trans hpend⟩
      · obtain ⟨i, k, heq, hmay, hlast⟩ := hiss' x hx
        exact ⟨i, k, heq, h.mayIssue hmay, hlast⟩

end Issued

/-- One turn of the inner loop of `try_send_request`. -/
theorem issued_requestTurn (h : s.Ok cfg allowed)
    (hs : s.getBlockToRequest cfg i c = some (s', k)) : Issued s (s'.requestCtor c i k) := by
  obtain ⟨h', b, hb, hreq, hw, hp⟩ := inv_getBlockToRequest h trivial hs
  have hget := blk_getBlockToRequest h trivial hs
  -- what `get_block_to_request` may make is a new block, the others stay
  have hold : ∀ {j k' b₀}, s.blk j k' = some b₀ → s'.blk j k' = some b₀ := by
    intro j k' b₀ hb₀
    rcases hget j k' with he | ⟨he, -⟩
    · rw [he, hb₀]
    · rw [hb₀] at he
      cases he
  have hblk : ∀ {j k'}, (s'.requestCtor c i k).blk j k' =
      if j = i ∧ k' = k then some (b.pendingReqDolink c) else s'.blk j k' := by
    intro j k'
    show (s'.updateBlock i k _).blk j k' = _
    rw [blk_updateBlock, hb, Option.map_some]
  have hfields : (b.pendingReqDolink c).pending_req_db = [c] ∧
      (b.pendingReqDolink c).expired_req_db = b.expired_req_db ∧
        (b.pendingReqDolink c).bt_io_write = b.bt_io_write := by
    rw [SchedBlock.pendingReqDolink, SchedBlock.stateChangeIfNeeded_eq, hp]
    exact ⟨rfl, rfl, rfl⟩
  refine ⟨fun {j k' b₀} hb₀ => ?_, fun hpend {j k' b'} hb' => ?_, fun hwhole => ?_,
    [(c, .blockReq i k)], ?_, List.nodup_singleton _, fun x hx => ?_⟩
  · rw [hblk]
    split_ifs with hjk
    · have heq := hold hb₀
      rw [hjk.1, hjk.2, hb, Option.some.injEq] at heq
      exact ⟨_, rfl, heq ▸ hfields.2.2, heq ▸ hfields.2.1, fun hne => absurd (heq ▸ hp) hne⟩
    · exact ⟨b₀, hold hb₀, rfl, rfl, fun _ => rfl⟩
  · rw [hblk] at hb'
    split_ifs at hb'
    · rw [← Option.some.inj hb', hfields.1]
      exact le_refl 1
    · rcases hget j k' with he | ⟨-, r, he⟩
      · exact hpend (he ▸ hb')
      · rw [he, Option.some.injEq] at hb'
        rw [← hb']
        exact Nat.zero_le 1
  · obtain ⟨p, p', hpi, hg, rfl⟩ := getBlockToRequest_cases hs
    apply whole_updatePiece
    · intro j q hj
      rw [StateDb.obj_set] at hj
      split_ifs at hj
      · rw [← Option.some.inj hj]
        exact (hwhole i p hpi).getBlockToRequest hg
      · exact hwhole j q hj
    · exact fun q _ hq => hq.updateBlock _
  · obtain ⟨p, p', -, -, rfl⟩ := getBlockToRequest_cases hs
    rfl
  · rw [List.mem_singleton.1 hx]
    refine ⟨i, k, rfl, fun b₀ hb₀ => ?_, _, hblk.trans (if_pos ⟨rfl, rfl⟩), hfields.1⟩
    have heq := hold hb₀
    rw [hb, Option.some.injEq] at heq
    rw [← heq]
    exact ⟨hp, (SchedBlock.not_isReqedBy_iff.1 hreq).2, hw⟩

theorem issued_nextHint (hint : Option ℕ) : Issued s { s with next_pidx_hint := hint } :=
  ⟨fun hb => ⟨_, hb, rfl, rfl, fun _ => rfl⟩, fun h => h, id, [], by simp⟩

variable {v : CnxView} {n f : ℕ} {hint : Option ℕ}

theorem issued_requestLoop (h : s.Ok cfg allowed) : Issued s (requestLoop cfg i c n f s) := by
  induction f generalizing s with
  | zero => exact Issued.refl s
  | succ f ih =>
    rw [requestLoop]
    split_ifs
    · rcases hs : s.getBlockToRequest cfg i c with - | ⟨s₁, beg⟩
      · exact Issued.refl s
      · exact (issued_requestTurn h hs).trans (ih (requestTurn h hs).1)
    · exact Issued.refl s

variable (env : SelectEnv cfg)

theorem issued_selectPieceToRequest (h : s.Ok cfg allowed)
    (hs : s.selectPieceToRequest env v hint = some (s', i)) : Issued s s' := by
  rcases selectPieceToRequest_cases env h hs with ⟨rfl, -⟩ | ⟨rfl, -, hnone⟩
  · exact Issued.refl _
  · refine ⟨fun hb => ⟨_, (blk_pieceCtor hnone _ _).trans hb, rfl, rfl, fun _ => rfl⟩,
      fun hp {j k' b'} hb' => hp ((blk_pieceCtor hnone _ _).symm.trans hb'),
      fun hwhole j q hj => ?_, [], (List.append_nil _).symm, by simp, by simp⟩
    have hj' : (s.piece.set i _).obj j = some q := hj
    rw [StateDb.obj_set] at hj'
    split_ifs at hj'
    · rw [← Option.some.inj hj']
      exact SchedPiece.whole_ctor
    · exact hwhole j q hj'

theorem issued_trySendLoop (h : s.Ok cfg allowed) :
    Issued s (trySendLoop env v n f hint s) := by
  induction f generalizing s hint with
  | zero => exact Issued.refl s
  | succ f ih =>
    rw [trySendLoop]
    split_ifs
    · rcases hs : s.selectPieceToRequest env v hint with - | ⟨s₁, idx⟩
      · exact Issued.refl s
      · have h₁ := (selectPieceToRequest_spec env h hs).1
        have h₂ := (inv_requestLoop (i := idx) (c := v.cnx) (n := n) (f := n) h₁).1
        exact ((issued_selectPieceToRequest env h hs).trans (issued_requestLoop h₁)).trans
          ((issued_nextHint _).trans (ih (ok_nextHint h₂ _)))
    · exact Issued.refl s

theorem issued_trySendRequest (h : s.Ok cfg allowed) : Issued s (s.trySendRequest env v) := by
  unfold trySendRequest
  split_ifs
  · exact Issued.refl s
  · exact issued_trySendLoop env h

theorem issued_trySendRequestOnIdleCnx (h : s.Ok cfg allowed) (cnxs : List CnxView) :
    Issued s (s.trySendRequestOnIdleCnx env cnxs) := by
  unfold trySendRequestOnIdleCnx
  induction cnxs generalizing s with
  | nil => exact Issued.refl s
  | cons v cnxs ih =>
    rw [List.foldl_cons]
    split_ifs
    · exact ih h
    · exact (issued_trySendRequest env h).trans (ih (inv_trySendRequest env h).1)

/-! ### One event -/

/-- The state in which the handler of the event begins to send requests. -/
def beforeSend (s : Sched) : SchedEvent cfg → Sched
  | .trySendRequest _ _ => s
  | .cnxClosed _ v _ _ => s.deleteRequests v.cnx
  | .unauthReq _ v _ _ _ => s.deleteRequests v.cnx
  | .ecnxClosed _ cnx _ _ => s.deleteRequests cnx
  | .pieceUnavail _ v piece_idx => s.deleteRequestsOfPiece v.cnx piece_idx
  | .blockRep _ v piece_idx totfile_beg => s.blockNotifyComplete v.cnx piece_idx totfile_beg
  | .notifyPieceprecChange env _ => s.removeNotneededPiece env
  | e => s.step e

/-- The event ends the write of the block: the write completes, or the piece is deleted as
no more needed. -/
def EndsWrite : SchedEvent cfg → ℕ → ℕ → Prop
  | .ioWriteDone piece_idx totfile_beg, i, k => i = piece_idx ∧ k = totfile_beg
  | .notifyPieceprecChange env _, i, _ => env.pieceprec i = pieceprecNotneeded
  | _, _, _ => False

theorem shrunk_beforeSend (h : s.Ok cfg allowed) (hw : s.Whole) (e : SchedEvent cfg) :
    Shrunk (EndsWrite e) s (s.beforeSend e) := by
  cases e with
  | trySendRequest env v => exact Shrunk.refl s
  | cnxClosed env v cnxs linked => exact shrunk_deleteRequests
  | unauthReq env v cnxs linked unauth => exact shrunk_deleteRequests
  | ecnxClosed env cnx cnxs unlinked => exact shrunk_deleteRequests
  | fullSchedDtor cnx => exact shrunk_deleteRequests
  | pieceUnavail env v piece_idx => exact shrunk_deleteRequestsOfPiece
  | blockRep env v piece_idx totfile_beg => exact shrunk_blockNotifyComplete
  | ecnxBlockRep cnx piece_idx totfile_beg => exact shrunk_blockNotifyComplete
  | requestTimeout cnx piece_idx totfile_beg => exact shrunk_requestExpire
  | ioWriteDone piece_idx totfile_beg => exact shrunk_ioWriteDone h ⟨rfl, rfl⟩
  | pieceChecked piece_idx =>
    show Shrunk _ s (s.pieceChecked piece_idx)
    unfold pieceChecked
    split_ifs with hp
    · -- no block of a piece which is checked is being written
      have hshrunk := shrunk_pieceDtor (D := fun j _ => j = piece_idx) (s := s)
        (i := piece_idx) fun _ => rfl
      refine ⟨hshrunk.blk, fun {i k} _ hwrite => hshrunk.writing ?_ hwrite, hshrunk.whole,
        hshrunk.sent⟩
      rintro rfl
      exact hw.not_writing hp hwrite
    · exact Shrunk.refl s
  | notifyPieceprecChange env cnxs => exact shrunk_removeNotneededPiece env
  | localPavail local_pavail => exact ⟨fun hb => ⟨_, hb, le_refl _⟩, fun _ h => h, id, [], by
      show s.sent = s.sent ++ [] ∧ _
      simp⟩

/-- The second part of the handler only issues requests. -/
theorem issued_step (h : s.Ok cfg allowed) (e : SchedEvent cfg) :
    Issued (s.beforeSend e) (s.step e) := by
  cases e with
  | trySendRequest env v => exact issued_trySendRequest env h
  | cnxClosed env v cnxs linked =>
    exact issued_trySendRequestOnIdleCnx env (inv_deleteRequests h v.cnx).1 cnxs.item
  | unauthReq env v cnxs linked unauth =>
    exact issued_trySendRequestOnIdleCnx env (inv_deleteRequests h v.cnx).1 cnxs.item
  | ecnxClosed env cnx cnxs unlinked =>
    exact issued_trySendRequestOnIdleCnx env (inv_deleteRequests h cnx).1 cnxs.item
  | pieceUnavail env v piece_idx =>
    exact issued_trySendRequest env (inv_deleteRequestsOfPiece h v.cnx piece_idx)
  | blockRep env v piece_idx totfile_beg =>
    exact issued_trySendRequest env (inv_blockNotifyComplete h)
  | notifyPieceprecChange env cnxs =>
    exact issued_trySendRequestOnIdleCnx env (inv_pieceDtor_foldl h _) cnxs.item
  | _ => exact Issued.refl _

/-! ### A reply -/

section Reply

variable {from_cnx : CnxId}

/-- Everyone who has a request but the one who answered is told to cancel it. -/
theorem sent_blockNotifyComplete (hb : s.blk i k = some b) :
    (s.blockNotifyComplete from_cnx i k).sent = s.sent ++
      ((b.pending_req_db ++ b.expired_req_db).filter fun c => c ≠ from_cnx).map
        fun c => (c, .blockDel i k) := by
  have hfold : ∀ (l : List CnxId) (s : Sched),
      (l.foldl (fun s c => s.requestNotifyComplete from_cnx c i k) s).sent =
        s.sent ++ (l.filter fun c => c ≠ from_cnx).map fun c => (c, .blockDel i k) := by
    intro l
    induction l with
    | nil => simp
    | cons c l ih =>
      intro s
      rw [List.foldl_cons, ih, requestNotifyComplete]
      by_cases hc : c = from_cnx
      · rw [if_neg (not_not.2 hc), List.filter_cons_of_neg (by simpa using hc)]
        rfl
      · rw [if_pos hc, List.filter_cons_of_pos (by simpa using hc), List.map_cons,
          List.append_cons]
        rfl
  simp only [blockNotifyComplete, hb]
  show Sched.sent (List.foldl _ _ _) = _
  rw [hfold, hfold, List.filter_append, List.map_append, List.append_assoc]

/-- The data of a block which is answered is being written. -/
theorem writing_blockNotifyComplete (h : s.Ok cfg allowed) (hb : s.blk i k = some b) :
    (s.blockNotifyComplete from_cnx i k).Writing i k := by
  obtain ⟨-, hrem⟩ := removed_block (f := fun s c => s.requestNotifyComplete from_cnx c i k)
    (fun _ _ => inv_requestNotifyComplete) h hb
  obtain ⟨b', hb', -⟩ := hrem.lists_eq_nil hb
  simp only [blockNotifyComplete, hb]
  refine ⟨b'.launchIoWrite, ?_, ?_⟩
  · rw [blk_updateBlock_self, hb', Option.map_some]
  · rw [SchedBlock.launchIoWrite, SchedBlock.stateChangeIfNeeded_eq]

end Reply

/-! ### The claim over a run -/

/-- The connection sends the command: `sched_req_cancel` of an external one does nothing. -/
def isSentOn : CnxId → ReqCmd → Bool
  | .ecnx _, .blockDel _ _ => false
  | _, _ => true

/-- What the connections sent between `s` and `s'`. -/
def sentSince (s s' : Sched) : List (CnxId × ReqCmd) :=
  (s'.sent.drop s.sent.length).filter fun x => isSentOn x.1 x.2

theorem mem_sentSince {l : List (CnxId × ReqCmd)} (hl : s'.sent = s.sent ++ l)
    {x : CnxId × ReqCmd} : x ∈ sentSince s s' ↔ x ∈ l ∧ isSentOn x.1 x.2 = true := by
  rw [sentSince, hl, List.drop_left, List.mem_filter]

/-- The event is a `BLOCK_REP` of the connection for the block. -/
def Replies : SchedEvent cfg → CnxId → ℕ → ℕ → Prop
  | .blockRep _ v piece_idx totfile_beg, c, i, k => c = v.cnx ∧ i = piece_idx ∧ k = totfile_beg
  | .ecnxBlockRep cnx piece_idx totfile_beg, c, i, k => c = cnx ∧ i = piece_idx ∧ k = totfile_beg
  | _, _, _, _ => False

/-- The requests which the event issues, all at its end, are for different blocks, and each
one may be issued. -/
structure IssueSound (s : Sched) (e : SchedEvent cfg) : Prop where
  before : ∃ l, (s.beforeSend e).sent = s.sent ++ l ∧ ∀ c i k, (c, ReqCmd.blockReq i k) ∉ l
  issued : ∃ l, (s.step e).sent = (s.beforeSend e).sent ++ l ∧ (l.map Prod.snd).Nodup ∧
    ∀ x ∈ l, ∃ i k, x.2 = ReqCmd.blockReq i k ∧ (s.beforeSend e).MayIssue x.1 i k

/-- A reply for a block makes the other connections of `P` which have a request for it send a
`BLOCK_DEL`, removes all its requests, and launches the write of its data. -/
def CancelSound (P : CnxId → Prop) (s : Sched) (e : SchedEvent cfg) : Prop :=
  ∀ c i k, Replies e c i k → (∃ b, s.blk i k = some b) →
    (∀ d, P d → d ≠ c → (i, k) ∈ s.request_db d →
      (d, .blockDel i k) ∈ sentSince s (s.step e)) ∧
    (∀ d, (i, k) ∉ (s.step e).request_db d) ∧ (s.step e).Writing i k

/-- Once a block is answered, no request for it is issued until an event of `ends`. -/
def HeldUntil (ends : SchedEvent cfg → ℕ → ℕ → Prop) (s : Sched) (evs : List (SchedEvent cfg)) :
    Prop :=
  ∀ before e after c i k, evs = before ++ e :: after → Replies e c i k →
    (∃ b, (run step s before).blk i k = some b) → (∀ e' ∈ after, ¬ ends e' i k) →
      ∀ d, (d, .blockReq i k) ∉ sentSince (run step s before) (run step s evs)

/-- **Request uniqueness and cancellation**, where the connections of `P` can send a
`BLOCK_DEL`, and the events of `ends` end the write of a block. -/
structure RequestsSound (P : CnxId → Prop) (ends : SchedEvent cfg → ℕ → ℕ → Prop) (s : Sched)
    (evs : List (SchedEvent cfg)) : Prop where
  unique : Always step Unique s evs
  issued : Guarded step IssueSound s evs
  cancelled : Guarded step (CancelSound P) s evs
  held : HeldUntil ends s evs

/-- The connection is one of the swarm, not an external one. -/
def IsFull (c : CnxId) : Prop := ∃ id, c = .full id

/-! ### Its proof -/

/-- The invariant of `SchedInv`, with what the requests of one block need. -/
structure Good (cfg : SwarmCfg) (allowed : Prop) (s : Sched) : Prop where
  ok : s.Ok cfg allowed
  whole : s.Whole
  pending : ∀ {i k b}, s.blk i k = some b → b.pending_req_db.length ≤ 1

namespace Good

theorem step (h : s.Good cfg allowed) (e : SchedEvent cfg) : (s.step e).Good cfg allowed := by
  have hshrunk := shrunk_beforeSend h.ok h.whole e
  have hissued := issued_step h.ok e
  refine ⟨inv_step h.ok e, hissued.whole (hshrunk.whole h.whole), hissued.pending ?_⟩
  intro i k b' hb'
  obtain ⟨b, hb, hle⟩ := hshrunk.blk hb'
  exact hle.trans (h.pending hb)

theorem unique (h : s.Good cfg allowed) : s.Unique := by
  refine ⟨h.ok.reqs.nodup, h.ok.reqs.mem, h.ok.reqs.block, h.pending, ?_⟩
  rintro c i k ⟨b, hb, hw⟩ hmem
  obtain ⟨b', hb', hreq⟩ := h.ok.reqs.mem.1 hmem
  rw [hb, Option.some.injEq] at hb'
  obtain ⟨hp, he⟩ := h.ok.pieces.writing hb hw
  rw [← hb', SchedBlock.isReqedBy_iff, hp, he] at hreq
  simp at hreq

theorem issueSound (h : s.Good cfg allowed) (e : SchedEvent cfg) : s.IssueSound e := by
  obtain ⟨l, hl, hnd, hiss⟩ := (issued_step h.ok e).sent
  refine ⟨(shrunk_beforeSend h.ok h.whole e).sent, l, hl, hnd, fun x hx => ?_⟩
  obtain ⟨i, k, heq, hmay, -⟩ := hiss x hx
  exact ⟨i, k, heq, hmay⟩

/-- An event which finds the block being written, when it begins to send, leaves it so and
issues no request for it. -/
theorem held_step (h : s.Good cfg allowed) {e : SchedEvent cfg}
    (hw : (s.beforeSend e).Writing i k) : (s.step e).Writing i k ∧
      ∃ l, (s.step e).sent = s.sent ++ l ∧ ∀ c, (c, ReqCmd.blockReq i k) ∉ l := by
  obtain ⟨b, hb, hbw⟩ := hw
  obtain ⟨⟨l, hl, hnone⟩, l', hl', -, hiss⟩ := h.issueSound e
  constructor
  · obtain ⟨b', hb', hw', -⟩ := (issued_step h.ok e).blk hb
    exact ⟨b', hb', hw'.trans hbw⟩
  · refine ⟨l ++ l', by rw [hl', hl, List.append_assoc], fun c hmem => ?_⟩
    rcases List.mem_append.1 hmem with hmem | hmem
    · exact hnone c i k hmem
    · obtain ⟨i', k', heq, hmay⟩ := hiss _ hmem
      rw [ReqCmd.blockReq.injEq] at heq
      obtain ⟨rfl, rfl⟩ := heq
      rw [(hmay b hb).2.2] at hbw
      cases hbw

theorem held_run (h : s.Good cfg allowed) (hw : s.Writing i k) {evs : List (SchedEvent cfg)}
    (hends : ∀ e ∈ evs, ¬ EndsWrite e i k) :
    ∃ l, (run Sched.step s evs).sent = s.sent ++ l ∧ ∀ c, (c, ReqCmd.blockReq i k) ∉ l := by
  induction evs generalizing s with
  | nil => exact ⟨[], by simp⟩
  | cons e evs ih =>
    have hbefore := (shrunk_beforeSend h.ok h.whole e).writing (hends e List.mem_cons_self) hw
    obtain ⟨hw', l, hl, hnone⟩ := h.held_step hbefore
    obtain ⟨l', hl', hnone'⟩ := ih (h.step e) hw' fun e' he' => hends e' (List.mem_cons_of_mem _ he')
    refine ⟨l ++ l', by rw [run_cons, hl', hl, List.append_assoc], fun c hmem => ?_⟩
    rcases List.mem_append.1 hmem with hmem | hmem
    · exact hnone c hmem
    · exact hnone' c hmem

/-- When it begins to send, the handler of a reply has done what a reply does. -/
theorem beforeSend_reply (h : s.Good cfg allowed) {e : SchedEvent cfg} (hr : Replies e c i k)
    (hb : s.blk i k = some b) : (s.beforeSend e).Writing i k ∧
      (s.beforeSend e).sent = s.sent ++
        ((b.pending_req_db ++ b.expired_req_db).filter fun d => d ≠ c).map
          fun d => (d, .blockDel i k) := by
  cases e with
  | blockRep env v piece_idx totfile_beg =>
    obtain ⟨rfl, rfl, rfl⟩ := hr
    exact ⟨writing_blockNotifyComplete h.ok hb, sent_blockNotifyComplete hb⟩
  | ecnxBlockRep cnx piece_idx totfile_beg =>
    obtain ⟨rfl, rfl, rfl⟩ := hr
    exact ⟨writing_blockNotifyComplete h.ok hb, sent_blockNotifyComplete hb⟩
  | _ => exact hr.elim

theorem cancelSound (h : s.Good cfg allowed) (e : SchedEvent cfg) : s.CancelSound IsFull e := by
  rintro c i k hr ⟨b, hb⟩
  obtain ⟨hw, hsent⟩ := h.beforeSend_reply hr hb
  have hw' := (h.held_step hw).1
  refine ⟨?_, fun d => (h.step e).unique.writing hw', hw'⟩
  rintro d ⟨id, rfl⟩ hd hmem
  obtain ⟨l, hl, -⟩ := (issued_step h.ok e).sent
  rw [hsent, List.append_assoc] at hl
  rw [mem_sentSince hl]
  refine ⟨List.mem_append_left _ ?_, rfl⟩
  obtain ⟨b', hb', hreq⟩ := h.ok.reqs.mem.1 hmem
  rw [hb, Option.some.injEq] at hb'
  rw [← hb', SchedBlock.isReqedBy_iff, ← List.mem_append] at hreq
  exact List.mem_map.2 ⟨.full id, List.mem_filter.2 ⟨hreq, by simpa using hd⟩, rfl⟩

theorem heldUntil (h : s.Good cfg allowed) (evs : List (SchedEvent cfg)) :
    HeldUntil EndsWrite s evs := by
  rintro before e after c i k rfl hr ⟨b, hb⟩ hends d
  have h₁ : (run Sched.step s before).Good cfg allowed :=
    run_invariant (P := fun s : Sched => s.Good cfg allowed) (fun _ e h => h.step e) h before
  obtain ⟨hw, l, hl, hnone⟩ := h₁.held_step (h₁.beforeSend_reply hr hb).1
  obtain ⟨l', hl', hnone'⟩ := (h₁.step e).held_run hw hends
  rw [run_append, run_cons, mem_sentSince (l := l ++ l') (by rw [hl', hl, List.append_assoc])]
  rintro ⟨hmem, -⟩
  rcases List.mem_append.1 hmem with hmem | hmem
  · exact hnone d hmem
  · exact hnone' d hmem

end Good

section Start

variable {resume : FileSizeInval}

theorem good_start (local_pavail : Pieceavail)
    (hlt : ∀ x, x ∈ resume → x < cfg.mfile.totfile_size) :
    (start cfg local_pavail resume).Good cfg (FullyResumed cfg resume) := by
  obtain ⟨hok, hspec⟩ := @start_spec cfg local_pavail resume hlt
  -- every piece is one that the constructor has just built
  have hctor : ∀ i p, (start cfg local_pavail resume).piece.obj i = some p →
      ∃ inval, p = SchedPiece.ctor cfg.mfile i inval := by
    intro i p hp
    by_cases hx : ∃ x, x ∈ resume ∧ totfileToPieceidx cfg.mfile x = i
    · obtain ⟨inval, hinval, -⟩ := (hspec i).2 hx
      rw [hp, Option.some.injEq] at hinval
      exact ⟨inval, hinval⟩
    · rw [(hspec i).1 fun x hx' heq => hx ⟨x, hx', heq⟩] at hp
      cases hp
  refine ⟨hok, fun i p hp => ?_, fun {i k b} hb => ?_⟩
  · obtain ⟨inval, rfl⟩ := hctor i p hp
    exact SchedPiece.whole_ctor
  · obtain ⟨p, hp, hk⟩ := blk_eq_some.1 hb
    obtain ⟨inval, rfl⟩ := hctor i p hp
    rw [SchedPiece.block_ctor] at hk
    cases hk

/-- **Request uniqueness and cancellation**, in every run of the scheduler. -/
theorem requests_sound (local_pavail : Pieceavail)
    (hlt : ∀ x, x ∈ resume → x < cfg.mfile.totfile_size) (evs : List (SchedEvent cfg)) :
    RequestsSound IsFull EndsWrite (start cfg local_pavail resume) evs := by
  have hgood := good_start local_pavail hlt
  have halways : Always step (Good cfg (FullyResumed cfg resume))
      (start cfg local_pavail resume) evs :=
    always_invariant (fun _ e h => h.step e) hgood evs
  have hguarded : ∀ {G : Sched → SchedEvent cfg → Prop},
      (∀ s e, s.Good cfg (FullyResumed cfg resume) → G s e) →
        Guarded step G (start cfg local_pavail resume) evs := by
    intro G hG
    have hiff := guarded_congr (fun _ e h => Good.step h e)
      (fun s e h => iff_true_intro (hG s e h)) hgood evs
    exact hiff.2 guarded_true
  exact ⟨halways.mono fun _ h => h.unique, hguarded fun _ e h => h.issueSound e,
    hguarded fun _ e h => h.cancelSound e, hgood.heldUntil evs⟩

end Start

/-- A peer and an external connection, with the first piece. -/
def samplePeer : CnxView := ⟨.full 0, true, [true, false]⟩

def sampleEcnx : CnxView := ⟨.ecnx 0, true, [true, false]⟩

/-- The external connection asks for both blocks of the piece, the first request expires, the
peer asks for that block and answers. -/
def sampleLate : List (SchedEvent sampleCfg) :=
  [.trySendRequest sampleEnv.toSelectEnv sampleEcnx, .requestTimeout (.ecnx 0) 0 0,
    .trySendRequest sampleEnv.toSelectEnv samplePeer,
    .blockRep sampleEnv.toSelectEnv samplePeer 0 0]

theorem requests_sound_sampleLate :
    RequestsSound IsFull EndsWrite (start sampleCfg [false, false] Swarm.sampleResume) sampleLate :=
  requests_sound [false, false] Swarm.lt_of_mem_sampleResume sampleLate

/-- While the data of a block is being written, its piece is no more needed, then it is again. -/
def sampleDropped : List (SchedEvent sampleCfg) :=
  [.trySendRequest sampleEnv.toSelectEnv samplePeer,
    .blockRep sampleEnv.toSelectEnv samplePeer 0 0,
    .notifyPieceprecChange { sampleEnv.toSelectEnv with pieceprec := fun _ => 0 }
      ⟨[], List.nodup_nil⟩,
    .trySendRequest sampleEnv.toSelectEnv samplePeer]

/-- The external connection is not sent a `BLOCK_DEL`, and the block of the dropped piece is
requested again although its write did not complete. -/
theorem not_requests_sound :
    ¬ RequestsSound (fun _ => True) (fun e i k => e = .ioWriteDone i k)
        (start sampleCfg [false, false] .null) sampleLate ∧
      ¬ RequestsSound (fun _ => True) (fun e i k => e = .ioWriteDone i k)
        (start sampleCfg [false, false] .null) sampleDropped := by
  constructor
  · intro h
    obtain ⟨-, -, -, hcancel, -⟩ := h.cancelled
    obtain ⟨hsent, -⟩ := hcancel (.full 0) 0 0 ⟨rfl, rfl, rfl⟩ ⟨_, rfl⟩
    exact absurd (hsent (.ecnx 0) trivial (by decide) (by decide)) (by decide)
  · intro h
    refine h.held [_] _ [_, _] (.full 0) 0 0 rfl ⟨rfl, rfl, rfl⟩ ⟨_, rfl⟩ ?_ (.full 0) (by decide)
    intro e he
    simp only [List.mem_cons, List.not_mem_nil, or_false] at he
    rcases he with rfl | rfl
    · exact fun h => nomatch h
    · exact fun h => nomatch h

end Sched

end Neoip
