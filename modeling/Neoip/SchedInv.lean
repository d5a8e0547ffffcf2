/-
Neoip/SchedInv.lean

The invariant of the bittorrent scheduler.

`Sched.Inv` has two halves.  The first is about pieces: each one is under its
own index, its bytes are partitioned (`SchedPiece.Partition`), it and its
blocks are in the state they call for (`SchedPiece.Classified`), and its index
is marked in `local_pdling`.  The second is about requests: what a connection
holds in `request_db` is what the blocks hold for it, each request once.

The destructor of a piece takes its blocks away one by one, without giving
their bytes back; meanwhile that piece is not partitioned.  So `part` says
which pieces are to be partitioned: all of them, except inside that destructor.

There is one lemma for each operation, from the request up
(`inv_requestDtor`, `inv_blockDtor`, `inv_pieceDtor`, …), each with its frame
lemmas, and one for each event.
-/
import Mathlib.Data.List.Nodup
import Neoip.Run
import Neoip.Sched

namespace Neoip

/-! ### The requests of one block -/

namespace SchedBlock

/-- A connection has at most one request on the block. -/
def ReqNodup (b : SchedBlock) : Prop := (b.pending_req_db ++ b.expired_req_db).Nodup

variable {b : SchedBlock} {c d : CnxId}

theorem isReqedBy_iff : b.isReqedBy c = true ↔ c ∈ b.pending_req_db ∨ c ∈ b.expired_req_db := by
  simp [isReqedBy]

theorem not_isReqedBy_iff :
    b.isReqedBy c = false ↔ c ∉ b.pending_req_db ∧ c ∉ b.expired_req_db := by
  rw [← Bool.not_eq_true, isReqedBy_iff, not_or]

theorem ReqNodup.not_mem_expired (h : b.ReqNodup) (hc : c ∈ b.pending_req_db) :
    c ∉ b.expired_req_db := fun he =>
  (List.nodup_append.1 h).2.2 c hc c he rfl

/-- `reqUnlink` touches the requests and the state, nothing else. -/
theorem reqUnlink_fields (b : SchedBlock) (c : CnxId) :
    (b.reqUnlink c).totfile_range = b.totfile_range ∧
      (b.reqUnlink c).bt_io_write = b.bt_io_write ∧ (b.reqUnlink c).Settled := by
  unfold reqUnlink pendingReqUnlink expiredReqUnlink
  split_ifs
  · rw [stateChangeIfNeeded_eq]
    exact ⟨rfl, rfl, rfl⟩
  · rw [stateChangeIfNeeded_eq]
    exact ⟨rfl, rfl, rfl⟩

/-- A request which is unlinked is gone, from whichever list it was in. -/
theorem reqUnlink_lists (h : b.ReqNodup) :
    (b.reqUnlink c).pending_req_db = b.pending_req_db.erase c ∧
      (b.reqUnlink c).expired_req_db = b.expired_req_db.erase c := by
  unfold reqUnlink
  split_ifs with hc
  · rw [List.contains_iff_mem] at hc
    rw [pendingReqUnlink, stateChangeIfNeeded_eq]
    exact ⟨rfl, (List.erase_of_not_mem (h.not_mem_expired hc)).symm⟩
  · rw [List.contains_iff_mem] at hc
    rw [expiredReqUnlink, stateChangeIfNeeded_eq]
    exact ⟨(List.erase_of_not_mem hc).symm, rfl⟩

theorem isReqedBy_reqUnlink (h : b.ReqNodup) :
    (b.reqUnlink c).isReqedBy d = true ↔ d ≠ c ∧ b.isReqedBy d = true := by
  obtain ⟨hp, he, -⟩ := List.nodup_append.1 h
  rw [isReqedBy_iff, (reqUnlink_lists h).1, (reqUnlink_lists h).2, hp.mem_erase_iff,
    he.mem_erase_iff, isReqedBy_iff, and_or_left]

theorem reqNodup_reqUnlink (h : b.ReqNodup) : (b.reqUnlink c).ReqNodup := by
  rw [ReqNodup, (reqUnlink_lists h).1, (reqUnlink_lists h).2]
  exact h.sublist (List.erase_sublist.append List.erase_sublist)

theorem isReqedBy_pendingReqDolink :
    (b.pendingReqDolink c).isReqedBy d = true ↔ d = c ∨ b.isReqedBy d = true := by
  rw [pendingReqDolink, stateChangeIfNeeded_eq, isReqedBy_iff, isReqedBy_iff]
  simp only [List.mem_append, List.mem_singleton]
  tauto

theorem reqNodup_pendingReqDolink (h : b.ReqNodup) (hc : b.isReqedBy c = false) :
    (b.pendingReqDolink c).ReqNodup := by
  obtain ⟨hp, he⟩ := not_isReqedBy_iff.1 hc
  rw [pendingReqDolink, stateChangeIfNeeded_eq]
  show ((b.pending_req_db ++ [c]) ++ b.expired_req_db).Nodup
  rw [List.append_assoc, List.singleton_append, List.nodup_middle, List.nodup_cons,
    List.mem_append, not_or]
  exact ⟨⟨hp, he⟩, h⟩

/-- The request of `c` times out. -/
def reqExpire (b : SchedBlock) (c : CnxId) : SchedBlock :=
  (b.pendingReqUnlink c).expiredReqDolink c

theorem reqExpire_lists :
    (b.reqExpire c).pending_req_db = b.pending_req_db.erase c ∧
      (b.reqExpire c).expired_req_db = b.expired_req_db ++ [c] := by
  rw [reqExpire, expiredReqDolink, stateChangeIfNeeded_eq, pendingReqUnlink,
    stateChangeIfNeeded_eq]
  exact ⟨rfl, rfl⟩

theorem reqExpire_fields (b : SchedBlock) (c : CnxId) :
    (b.reqExpire c).totfile_range = b.totfile_range ∧
      (b.reqExpire c).bt_io_write = b.bt_io_write ∧ (b.reqExpire c).Settled := by
  rw [reqExpire, expiredReqDolink, stateChangeIfNeeded_eq, pendingReqUnlink,
    stateChangeIfNeeded_eq]
  exact ⟨rfl, rfl, rfl⟩

theorem isReqedBy_reqExpire (h : b.ReqNodup) (hc : c ∈ b.pending_req_db) :
    (b.reqExpire c).isReqedBy d = b.isReqedBy d := by
  have hp := (List.nodup_append.1 h).1
  rw [Bool.eq_iff_iff, isReqedBy_iff, isReqedBy_iff, reqExpire_lists.1, reqExpire_lists.2,
    hp.mem_erase_iff, List.mem_append, List.mem_singleton]
  by_cases hd : d = c
  · simp [hd, hc]
  · simp [hd]

theorem reqNodup_reqExpire (h : b.ReqNodup) (hc : c ∈ b.pending_req_db) :
    (b.reqExpire c).ReqNodup := by
  have hperm : (b.pending_req_db.erase c ++ (b.expired_req_db ++ [c])).Perm
      (b.pending_req_db ++ b.expired_req_db) := by
    have h1 : (b.expired_req_db ++ [c]).Perm (c :: b.expired_req_db) := List.perm_append_singleton _ _
    have h2 := (List.perm_cons_erase hc).symm
    exact (h1.append_left _).trans (List.perm_middle.trans (h2.append_right _))
  rw [ReqNodup, reqExpire_lists.1, reqExpire_lists.2]
  exact hperm.nodup_iff.2 h

end SchedBlock

/-! ### What the primitive updates touch -/

namespace Sched

variable {cfg : SwarmCfg} {s : Sched} {c d : CnxId} {i j k k' : ℕ} {b : SchedBlock}

section Frames

variable {f : SchedPiece → SchedPiece} {g : SchedBlock → SchedBlock}

theorem blk_eq_some : s.blk i k = some b ↔ ∃ p, s.piece.obj i = some p ∧ p.block.obj k = some b := by
  simp [blk, Option.bind_eq_some_iff]

theorem blk_of_obj {p : SchedPiece} (h : s.piece.obj i = some p) : s.blk i k = p.block.obj k := by
  rw [blk, h, Option.bind_some]

theorem obj_updatePiece : (s.updatePiece i f).piece.obj j =
    if j = i then (s.piece.obj i).map f else s.piece.obj j :=
  StateDb.obj_update

theorem blk_updateBlock : (s.updateBlock i k g).blk j k' =
    if j = i ∧ k' = k then (s.blk i k).map g else s.blk j k' := by
  rw [blk, updateBlock, obj_updatePiece]
  by_cases hj : j = i
  · subst hj
    rcases hp : s.piece.obj j with - | p
    · simp [blk, hp]
    · rw [blk_of_obj hp, blk_of_obj hp, if_pos rfl, Option.map_some, Option.bind_some,
        SchedPiece.obj_updateBlock]
      simp only [true_and]
  · rw [if_neg hj, if_neg fun h => hj h.1]
    rfl

theorem blk_updateBlock_self : (s.updateBlock i k g).blk i k = (s.blk i k).map g := by
  rw [blk_updateBlock, if_pos ⟨rfl, rfl⟩]

@[simp] theorem request_db_updateBlock : (s.updateBlock i k g).request_db = s.request_db := rfl

theorem blk_requestDtor : (s.requestDtor c i k).blk j k' =
    if j = i ∧ k' = k then (s.blk i k).map (fun b => b.reqUnlink c) else s.blk j k' :=
  blk_updateBlock

theorem request_db_requestDtor : (s.requestDtor c i k).request_db d =
    if d = c then (s.request_db c).erase (i, k) else s.request_db d := rfl

end Frames

/-! ### The invariant -/

section Invariant

variable (cfg) (allowed : Prop) (part : ℕ → Prop)

/-- The half about pieces. -/
structure PieceInv (s : Sched) : Prop where
  pieceidx : ∀ {i p}, s.piece.obj i = some p → p.pieceidx = i
  range : ∀ {i p}, s.piece.obj i = some p → p.totfile_range = pieceidxToTotfileRange cfg.mfile i
  lt_nb_piece : ∀ {i p}, s.piece.obj i = some p → i < cfg.mfile.nb_piece
  partition : ∀ {i p}, s.piece.obj i = some p → part i → p.Partition
  classified : ∀ {i p}, s.piece.obj i = some p → p.Classified allowed
  pdling : ∀ {i p}, s.piece.obj i = some p → part i → s.local_pdling.get i = true
  length_pdling : s.local_pdling.length = cfg.mfile.nb_piece

/-- The half about requests: the two ends of each request know each other. -/
structure ReqInv (s : Sched) : Prop where
  mem : ∀ {c i k}, (i, k) ∈ s.request_db c ↔ ∃ b, s.blk i k = some b ∧ b.isReqedBy c = true
  nodup : ∀ c, (s.request_db c).Nodup
  block : ∀ {i k b}, s.blk i k = some b → b.ReqNodup

/-- **The invariant of the scheduler.** -/
structure Inv (s : Sched) : Prop where
  pieces : s.PieceInv cfg allowed part
  reqs : s.ReqInv

end Invariant

variable {allowed : Prop} {part : ℕ → Prop}

/-- The first half reads the pieces and `local_pdling` only. -/
theorem PieceInv.congr {s' : Sched} (h : s.PieceInv cfg allowed part)
    (hp : ∀ j, s'.piece.obj j = s.piece.obj j) (hl : s'.local_pdling = s.local_pdling) :
    s'.PieceInv cfg allowed part := by
  refine ⟨?_, ?_, ?_, ?_, ?_, ?_, hl ▸ h.length_pdling⟩ <;> intro j p hj <;> rw [hp] at hj
  · exact h.pieceidx hj
  · exact h.range hj
  · exact h.lt_nb_piece hj
  · exact h.partition hj
  · exact h.classified hj
  · rw [hl]
    exact h.pdling hj

/-- The second half reads the blocks and `request_db` only. -/
theorem ReqInv.congr {s' : Sched} (h : s.ReqInv) (hb : ∀ j k, s'.blk j k = s.blk j k)
    (hr : s'.request_db = s.request_db) : s'.ReqInv := by
  refine ⟨?_, ?_, ?_⟩
  · intro c j k
    rw [hb, hr]
    exact h.mem
  · rw [hr]
    exact h.nodup
  · intro j k b hj
    rw [hb] at hj
    exact h.block hj

section Steps

variable {f : SchedPiece → SchedPiece} {g : SchedBlock → SchedBlock}

/-- What an update of one piece must keep. -/
theorem pieceInv_updatePiece (h : s.PieceInv cfg allowed part)
    (hf : ∀ p, s.piece.obj i = some p → (f p).pieceidx = p.pieceidx ∧
      (f p).totfile_range = p.totfile_range ∧ (part i → (f p).Partition) ∧
        (f p).Classified allowed) :
    (s.updatePiece i f).PieceInv cfg allowed part := by
  have hobj : ∀ {j q}, (s.updatePiece i f).piece.obj j = some q →
      (j = i ∧ ∃ p, s.piece.obj i = some p ∧ q = f p) ∨ s.piece.obj j = some q := by
    intro j q hj
    rw [obj_updatePiece] at hj
    split_ifs at hj with hji
    · obtain ⟨p, hp, hq⟩ := Option.map_eq_some_iff.1 hj
      exact .inl ⟨hji, p, hp, hq.symm⟩
    · exact .inr hj
  refine ⟨?_, ?_, ?_, ?_, ?_, ?_, h.length_pdling⟩
  · intro j q hj
    obtain ⟨rfl, p, hp, rfl⟩ | hj := hobj hj
    · rw [(hf p hp).1, h.pieceidx hp]
    · exact h.pieceidx hj
  · intro j q hj
    obtain ⟨rfl, p, hp, rfl⟩ | hj := hobj hj
    · rw [(hf p hp).2.1, h.range hp]
    · exact h.range hj
  · intro j q hj
    obtain ⟨rfl, p, hp, rfl⟩ | hj := hobj hj
    · exact h.lt_nb_piece hp
    · exact h.lt_nb_piece hj
  · intro j q hj hpart
    obtain ⟨rfl, p, hp, rfl⟩ | hj := hobj hj
    · exact (hf p hp).2.2.1 hpart
    · exact h.partition hj hpart
  · intro j q hj
    obtain ⟨rfl, p, hp, rfl⟩ | hj := hobj hj
    · exact (hf p hp).2.2.2
    · exact h.classified hj
  · intro j q hj hpart
    obtain ⟨rfl, p, hp, rfl⟩ | hj := hobj hj
    · exact h.pdling hp hpart
    · exact h.pdling hj hpart

/-- What an update of one block must keep. -/
theorem pieceInv_updateBlock (h : s.PieceInv cfg allowed part)
    (hg : ∀ b, s.blk i k = some b → (g b).totfile_range = b.totfile_range ∧ (g b).Settled ∧
      ((g b).bt_io_write = true → (g b).pending_req_db = [] ∧ (g b).expired_req_db = [])) :
    (s.updateBlock i k g).PieceInv cfg allowed part := by
  refine pieceInv_updatePiece h fun p hp => ?_
  rcases hb : p.block.obj k with - | b
  · rw [SchedPiece.updateBlock_of_none hb]
    exact ⟨rfl, rfl, h.partition hp, h.classified hp⟩
  · obtain ⟨hr, hs, hw⟩ := hg b (by rw [blk_of_obj hp, hb])
    rw [SchedPiece.updateBlock_of_some hb]
    exact ⟨SchedPiece.pieceidx_setBlock, SchedPiece.totfile_range_setBlock,
      fun hpart => SchedPiece.partition_setBlock (h.partition hp hpart) hb hr,
      SchedPiece.classified_setBlock (h.classified hp) hb hs hw⟩

/-- A block which is being written has no request. -/
theorem PieceInv.writing (h : s.PieceInv cfg allowed part) (hb : s.blk i k = some b)
    (hw : b.bt_io_write = true) : b.pending_req_db = [] ∧ b.expired_req_db = [] := by
  obtain ⟨p, hp, hk⟩ := blk_eq_some.1 hb
  exact (h.classified hp).writing hk hw

theorem PieceInv.settled (h : s.PieceInv cfg allowed part) (hb : s.blk i k = some b) :
    b.Settled := by
  obtain ⟨p, hp, hk⟩ := blk_eq_some.1 hb
  exact (h.classified hp).block hk

/-! ### Requests -/

/-- A new request, on a block which the connection did not request yet and which is
not being written. -/
theorem inv_requestCtor (h : s.Inv cfg allowed part) (hb : s.blk i k = some b)
    (hreq : b.isReqedBy c = false) (hw : b.bt_io_write = false) :
    (s.requestCtor c i k).Inv cfg allowed part := by
  -- the requests of a connection and those of the blocks are the same
  have hnot : (i, k) ∉ s.request_db c := by
    rw [h.reqs.mem]
    rintro ⟨b', hb', hreq'⟩
    rw [hb, Option.some.injEq] at hb'
    rw [← hb', hreq] at hreq'
    cases hreq'
  have hblk : ∀ {j k'}, (s.requestCtor c i k).blk j k' =
      if j = i ∧ k' = k then some (b.pendingReqDolink c) else s.blk j k' := by
    intro j k'
    show (s.updateBlock i k _).blk j k' = _
    rw [blk_updateBlock, hb, Option.map_some]
  have hdb : ∀ {d}, (s.requestCtor c i k).request_db d =
      if d = c then s.request_db c ++ [(i, k)] else s.request_db d := fun {d} => rfl
  refine ⟨?_, ?_, ?_, ?_⟩
  · refine (pieceInv_updateBlock (k := k) h.pieces fun b' hb' => ?_).congr (fun _ => rfl) rfl
    rw [hb, Option.some.injEq] at hb'
    rw [← hb', SchedBlock.pendingReqDolink, SchedBlock.stateChangeIfNeeded_eq]
    refine ⟨rfl, rfl, fun hw' => ?_⟩
    rw [hw] at hw'
    cases hw'
  · intro d j k'
    by_cases hjk : j = i ∧ k' = k
    · obtain ⟨rfl, rfl⟩ := hjk
      rw [hblk, if_pos ⟨rfl, rfl⟩, hdb]
      simp only [Option.some.injEq, exists_eq_left', SchedBlock.isReqedBy_pendingReqDolink]
      split_ifs with hd
      · simp [hd]
      · rw [h.reqs.mem, hb]
        simp [hd]
    · rw [hblk, if_neg hjk, hdb]
      split_ifs with hd
      · have hne : (j, k') ≠ (i, k) := fun he => hjk (Prod.mk.inj he)
        rw [hd, List.mem_append, List.mem_singleton, or_iff_left hne, h.reqs.mem]
      · exact h.reqs.mem
  · intro d
    rw [hdb]
    split_ifs
    · exact List.nodup_append.2 ⟨h.reqs.nodup c, List.nodup_singleton _, fun a ha e he hae =>
        hnot (List.mem_singleton.1 he ▸ hae ▸ ha)⟩
    · exact h.reqs.nodup d
  · intro j k' b' hb'
    rw [hblk] at hb'
    split_ifs at hb'
    · rw [← Option.some.inj hb']
      exact SchedBlock.reqNodup_pendingReqDolink (h.reqs.block hb) hreq
    · exact h.reqs.block hb'

theorem inv_requestDtor (h : s.Inv cfg allowed part) :
    (s.requestDtor c i k).Inv cfg allowed part := by
  refine ⟨?_, ?_, ?_, ?_⟩
  · refine (pieceInv_updateBlock (k := k) h.pieces fun b hb => ?_).congr (fun _ => rfl) rfl
    obtain ⟨hr, hw, hs⟩ := b.reqUnlink_fields c
    obtain ⟨hp, he⟩ := SchedBlock.reqUnlink_lists (c := c) (h.reqs.block hb)
    refine ⟨hr, hs, fun hw' => ?_⟩
    obtain ⟨hp', he'⟩ := h.pieces.writing hb (hw ▸ hw')
    rw [hp, he, hp', he']
    exact ⟨rfl, rfl⟩
  · intro d j k'
    by_cases hjk : j = i ∧ k' = k
    · obtain ⟨rfl, rfl⟩ := hjk
      rw [blk_requestDtor, if_pos ⟨rfl, rfl⟩, request_db_requestDtor]
      rcases hb : s.blk j k' with - | b
      · have hnot : ∀ e, (j, k') ∉ s.request_db e := by
          intro e
          rw [h.reqs.mem, hb]
          simp
        simp only [Option.map_none, reduceCtorEq, false_and, exists_false, iff_false]
        split_ifs
        · exact fun hm => hnot c (List.mem_of_mem_erase hm)
        · exact hnot d
      · simp only [Option.map_some, Option.some.injEq, exists_eq_left',
          SchedBlock.isReqedBy_reqUnlink (h.reqs.block hb)]
        split_ifs with hd
        · simp [hd, (h.reqs.nodup c).mem_erase_iff]
        · rw [h.reqs.mem, hb]
          simp [hd]
    · rw [blk_requestDtor, if_neg hjk, ← h.reqs.mem, request_db_requestDtor]
      split_ifs with hd
      · have hne : (j, k') ≠ (i, k) := fun he => hjk (Prod.mk.inj he)
        rw [hd, (h.reqs.nodup c).mem_erase_iff]
        exact and_iff_right hne
      · exact Iff.rfl
  · intro d
    rw [request_db_requestDtor]
    split_ifs
    · exact (h.reqs.nodup c).erase _
    · exact h.reqs.nodup d
  · intro j k' b' hb'
    rw [blk_requestDtor] at hb'
    split_ifs at hb'
    · obtain ⟨b, hb, rfl⟩ := Option.map_eq_some_iff.1 hb'
      exact SchedBlock.reqNodup_reqUnlink (h.reqs.block hb)
    · exact h.reqs.block hb'

theorem inv_requestExpire (h : s.Inv cfg allowed part) :
    (s.requestExpire c i k).Inv cfg allowed part := by
  unfold requestExpire
  split_ifs with hp
  · obtain ⟨b, hb, hc⟩ := (Option.any_eq_true _ _).1 hp
    rw [List.contains_iff_mem] at hc
    have hb' : (s.updateBlock i k fun b => b.pendingReqUnlink c).blk i k =
        some (b.pendingReqUnlink c) := by
      rw [blk_updateBlock_self, hb, Option.map_some]
    have hblk : ∀ {j k'}, ((s.updateBlock i k fun b => b.pendingReqUnlink c).updateBlock i k
        fun b => b.expiredReqDolink c).blk j k' =
          if j = i ∧ k' = k then some (b.reqExpire c) else s.blk j k' := by
      intro j k'
      rw [blk_updateBlock, hb', Option.map_some]
      split_ifs with hjk
      · rfl
      · rw [blk_updateBlock, if_neg hjk]
    -- the block has a request, so nothing is being written for it
    have hw : b.bt_io_write = false := by
      by_contra hw
      rw [Bool.not_eq_false] at hw
      rw [(h.pieces.writing hb hw).1] at hc
      cases hc
    have hnd := h.reqs.block hb
    refine ⟨?_, ?_, h.reqs.nodup, ?_⟩
    · refine pieceInv_updateBlock (pieceInv_updateBlock h.pieces fun b₁ h₁ => ?_) fun b₁ h₁ => ?_
      · rw [hb, Option.some.injEq] at h₁
        rw [← h₁, SchedBlock.pendingReqUnlink, SchedBlock.stateChangeIfNeeded_eq]
        exact ⟨rfl, rfl, fun hw' => absurd hw' (by simp [hw])⟩
      · rw [hb', Option.some.injEq] at h₁
        rw [← h₁]
        obtain ⟨-, hw', hs⟩ := b.reqExpire_fields c
        refine ⟨?_, hs, fun hw'' => ?_⟩
        · rw [SchedBlock.expiredReqDolink, SchedBlock.stateChangeIfNeeded_eq]
        · rw [show ((b.pendingReqUnlink c).expiredReqDolink c).bt_io_write = b.bt_io_write from hw',
            hw] at hw''
          cases hw''
    · intro d j k'
      rw [hblk, request_db_updateBlock, request_db_updateBlock, h.reqs.mem]
      split_ifs with hjk
      · rw [hjk.1, hjk.2, hb]
        simp only [Option.some.injEq, exists_eq_left', SchedBlock.isReqedBy_reqExpire hnd hc]
      · exact Iff.rfl
    · intro j k' b₁ h₁
      rw [hblk] at h₁
      split_ifs at h₁
      · rw [← Option.some.inj h₁]
        exact SchedBlock.reqNodup_reqExpire hnd hc
      · exact h.reqs.block h₁
  · exact h

end Steps

/-! ### Requests which are taken away -/

/-- `s'` is `s` without the requests of `P`. -/
structure Removed (P : CnxId → ℕ → ℕ → Prop) (s s' : Sched) : Prop where
  req : ∀ {d i k}, (i, k) ∈ s'.request_db d ↔ (i, k) ∈ s.request_db d ∧ ¬ P d i k
  blk_none : ∀ {i k}, s.blk i k = none → s'.blk i k = none
  blk_some : ∀ {i k b}, s.blk i k = some b → ∃ b', s'.blk i k = some b' ∧
    b'.totfile_range = b.totfile_range ∧ b'.bt_io_write = b.bt_io_write ∧
      (∀ d, d ∈ b'.pending_req_db ↔ d ∈ b.pending_req_db ∧ ¬ P d i k) ∧
        ∀ d, d ∈ b'.expired_req_db ↔ d ∈ b.expired_req_db ∧ ¬ P d i k
  local_pavail : s'.local_pavail = s.local_pavail
  next_pidx_hint : s'.next_pidx_hint = s.next_pidx_hint

namespace Removed

variable {P Q : CnxId → ℕ → ℕ → Prop} {s' s'' : Sched}

theorem refl (hP : ∀ d i k, ¬ P d i k) (s : Sched) : Removed P s s := by
  refine ⟨?_, id, fun {i k b} hb => ⟨b, hb, rfl, rfl, ?_, ?_⟩, rfl, rfl⟩ <;> simp [hP]

theorem trans (h : Removed P s s') (h' : Removed Q s' s'') :
    Removed (fun d i k => P d i k ∨ Q d i k) s s'' := by
  refine ⟨?_, fun hb => h'.blk_none (h.blk_none hb), ?_, h'.local_pavail.trans h.local_pavail,
    h'.next_pidx_hint.trans h.next_pidx_hint⟩
  · intro d i k
    rw [h'.req, h.req, not_or, and_assoc]
  · intro i k b hb
    obtain ⟨b', hb', hr, hw, hp, he⟩ := h.blk_some hb
    obtain ⟨b'', hb'', hr', hw', hp', he'⟩ := h'.blk_some hb'
    refine ⟨b'', hb'', hr'.trans hr, hw'.trans hw, fun d => ?_, fun d => ?_⟩
    · rw [hp', hp, not_or, and_assoc]
    · rw [he', he, not_or, and_assoc]

/-- Only the requests there were matter. -/
theorem congr (h : Removed P s s') (hs : s.ReqInv)
    (hPQ : ∀ {d i k}, (i, k) ∈ s.request_db d → (P d i k ↔ Q d i k)) : Removed Q s s' := by
  refine ⟨?_, h.blk_none, ?_, h.local_pavail, h.next_pidx_hint⟩
  · intro d i k
    rw [h.req]
    exact and_congr_right fun hm => not_congr (hPQ hm)
  · intro i k b hb
    obtain ⟨b', hb', hr, hw, hp, he⟩ := h.blk_some hb
    refine ⟨b', hb', hr, hw, fun d => ?_, fun d => ?_⟩
    · rw [hp]
      refine and_congr_right fun hd => not_congr (hPQ ?_)
      exact hs.mem.2 ⟨b, hb, SchedBlock.isReqedBy_iff.2 (.inl hd)⟩
    · rw [he]
      refine and_congr_right fun hd => not_congr (hPQ ?_)
      exact hs.mem.2 ⟨b, hb, SchedBlock.isReqedBy_iff.2 (.inr hd)⟩

end Removed

theorem removed_requestDtor (h : s.ReqInv) :
    Removed (fun d j k' => d = c ∧ j = i ∧ k' = k) s (s.requestDtor c i k) := by
  refine ⟨?_, ?_, ?_, rfl, rfl⟩
  · intro d j k'
    rw [request_db_requestDtor]
    split_ifs with hd
    · rw [hd, (h.nodup c).mem_erase_iff, and_comm, Ne, Prod.mk.injEq]
      simp
    · simp [hd]
  · intro j k' hb
    rw [blk_requestDtor]
    split_ifs with hjk
    · rw [← hjk.1, ← hjk.2, hb]
      rfl
    · exact hb
  · intro j k' b hb
    rw [blk_requestDtor]
    split_ifs with hjk
    · obtain ⟨rfl, rfl⟩ := hjk
      obtain ⟨hr, hw, -⟩ := b.reqUnlink_fields c
      obtain ⟨hp, he⟩ := SchedBlock.reqUnlink_lists (c := c) (h.block hb)
      obtain ⟨hpn, hen, -⟩ := List.nodup_append.1 (h.block hb)
      refine ⟨b.reqUnlink c, by rw [hb, Option.map_some], hr, hw, fun d => ?_, fun d => ?_⟩
      · rw [hp, hpn.mem_erase_iff, and_comm]
        simp
      · rw [he, hen.mem_erase_iff, and_comm]
        simp
    · exact ⟨b, hb, rfl, rfl, fun d => by simp [hjk], fun d => by simp [hjk]⟩

/-- Taking requests away one after the other. -/
theorem removed_foldl {α : Type*} {f : Sched → α → Sched} {P : α → CnxId → ℕ → ℕ → Prop}
    (hf : ∀ s a, s.Inv cfg allowed part →
      (f s a).Inv cfg allowed part ∧ Removed (P a) s (f s a)) (l : List α)
    (h : s.Inv cfg allowed part) :
    (l.foldl f s).Inv cfg allowed part ∧
      Removed (fun d i k => ∃ a ∈ l, P a d i k) s (l.foldl f s) := by
  induction l generalizing s with
  | nil => exact ⟨h, Removed.refl (by simp) s⟩
  | cons a l ih =>
    obtain ⟨hinv, hrem⟩ := hf s a h
    obtain ⟨hinv', hrem'⟩ := ih hinv
    refine ⟨hinv', (hrem.trans hrem').congr h.reqs fun _ => ?_⟩
    simp only [List.mem_cons, exists_eq_or_imp]

theorem inv_send (h : s.Inv cfg allowed part) (cmd : ReqCmd) :
    (s.send c cmd).Inv cfg allowed part :=
  ⟨h.pieces.congr (fun _ => rfl) rfl, h.reqs.congr (fun _ _ => rfl) rfl⟩

theorem inv_requestNotifyComplete {from_cnx : CnxId} (h : s.Inv cfg allowed part) :
    (s.requestNotifyComplete from_cnx c i k).Inv cfg allowed part ∧
      Removed (fun d j k' => d = c ∧ j = i ∧ k' = k) s (s.requestNotifyComplete from_cnx c i k) := by
  unfold requestNotifyComplete
  split_ifs
  · have hrem := removed_requestDtor (c := c) (i := i) (k := k)
      (inv_send (c := c) h (.blockDel i k)).reqs
    exact ⟨inv_requestDtor (inv_send h _),
      ⟨hrem.req, hrem.blk_none, hrem.blk_some, hrem.local_pavail, hrem.next_pidx_hint⟩⟩
  · exact ⟨inv_requestDtor h, removed_requestDtor h.reqs⟩

/-- Both lists of a block emptied, whatever else is done with each request. -/
theorem removed_block {f : Sched → CnxId → Sched}
    (hf : ∀ s c, s.Inv cfg allowed part → (f s c).Inv cfg allowed part ∧
      Removed (fun d j k' => d = c ∧ j = i ∧ k' = k) s (f s c))
    (h : s.Inv cfg allowed part) (hb : s.blk i k = some b) :
    let s' := b.expired_req_db.foldl f (b.pending_req_db.foldl f s)
    s'.Inv cfg allowed part ∧ Removed (fun _ j k' => j = i ∧ k' = k) s s' := by
  obtain ⟨h₁, hrem₁⟩ := removed_foldl hf b.pending_req_db h
  obtain ⟨h₂, hrem₂⟩ := removed_foldl hf b.expired_req_db h₁
  refine ⟨h₂, (hrem₁.trans hrem₂).congr h.reqs fun {d j k'} hm => ⟨?_, ?_⟩⟩
  · rintro (⟨-, -, -, h⟩ | ⟨-, -, -, h⟩)
    · exact h
    · exact h
  · rintro ⟨rfl, rfl⟩
    obtain ⟨b', hb', hreq⟩ := h.reqs.mem.1 hm
    rw [hb, Option.some.injEq] at hb'
    rw [← hb', SchedBlock.isReqedBy_iff] at hreq
    rcases hreq with hd | hd
    · exact .inl ⟨d, hd, rfl, rfl, rfl⟩
    · exact .inr ⟨d, hd, rfl, rfl, rfl⟩

/-- The block whose requests are all removed has none. -/
theorem Removed.lists_eq_nil {s' : Sched} (h : Removed (fun _ j k' => j = i ∧ k' = k) s s')
    (hb : s.blk i k = some b) :
    ∃ b', s'.blk i k = some b' ∧ b'.totfile_range = b.totfile_range ∧
      b'.pending_req_db = [] ∧ b'.expired_req_db = [] := by
  obtain ⟨b', hb', hr, -, hp, he⟩ := h.blk_some hb
  refine ⟨b', hb', hr, List.eq_nil_iff_forall_not_mem.2 fun d hd => ?_,
    List.eq_nil_iff_forall_not_mem.2 fun d hd => ?_⟩
  · exact ((hp d).1 hd).2 ⟨rfl, rfl⟩
  · exact ((he d).1 hd).2 ⟨rfl, rfl⟩

/-! ### Blocks -/

theorem inv_launchIoWrite (h : s.Inv cfg allowed part) (hb : s.blk i k = some b)
    (hp : b.pending_req_db = []) (he : b.expired_req_db = []) :
    (s.updateBlock i k SchedBlock.launchIoWrite).Inv cfg allowed part := by
  have hlists : b.launchIoWrite.pending_req_db = [] ∧ b.launchIoWrite.expired_req_db = [] := by
    rw [SchedBlock.launchIoWrite, SchedBlock.stateChangeIfNeeded_eq]
    exact ⟨hp, he⟩
  have hreq : ∀ b', s.blk i k = some b' → ∀ c, b'.launchIoWrite.isReqedBy c = b'.isReqedBy c := by
    intro b' _ c
    rw [SchedBlock.launchIoWrite, SchedBlock.stateChangeIfNeeded_eq]
    rfl
  refine ⟨pieceInv_updateBlock h.pieces fun b' hb' => ?_, ?_, h.reqs.nodup, ?_⟩
  · rw [hb, Option.some.injEq] at hb'
    rw [← hb']
    refine ⟨?_, b.settled_launchIoWrite, fun _ => hlists⟩
    rw [SchedBlock.launchIoWrite, SchedBlock.stateChangeIfNeeded_eq]
  · intro c j k'
    rw [request_db_updateBlock, h.reqs.mem, blk_updateBlock]
    split_ifs with hjk
    · rw [hjk.1, hjk.2, hb]
      simp only [Option.map_some, Option.some.injEq, exists_eq_left', hreq b hb]
    · exact Iff.rfl
  · intro j k' b' hb'
    rw [blk_updateBlock] at hb'
    split_ifs at hb'
    · rw [hb, Option.map_some, Option.some.injEq] at hb'
      rw [← hb', SchedBlock.ReqNodup, hlists.1, hlists.2]
      exact List.nodup_nil
    · exact h.reqs.block hb'

theorem inv_blockNotifyComplete {from_cnx : CnxId} (h : s.Inv cfg allowed part) :
    (s.blockNotifyComplete from_cnx i k).Inv cfg allowed part := by
  unfold blockNotifyComplete
  rcases hb : s.blk i k with - | b
  · exact h
  · obtain ⟨hinv, hrem⟩ := removed_block
      (f := fun s c => s.requestNotifyComplete from_cnx c i k)
      (fun _ _ => inv_requestNotifyComplete) h hb
    obtain ⟨b', hb', -, hp, he⟩ := hrem.lists_eq_nil hb
    exact inv_launchIoWrite hinv hb' hp he

/-- The piece `i` loses its block `k`. -/
theorem blk_dropBlock {f : SchedPiece → SchedPiece} (hb : s.blk i k = some b)
    (hf : ∀ p, s.piece.obj i = some p → p.block.obj k = some b →
      ∀ k', (f p).block.obj k' = if k' = k then none else p.block.obj k') :
    (s.updatePiece i f).blk j k' = if j = i ∧ k' = k then none else s.blk j k' := by
  obtain ⟨p, hpi, hpb⟩ := blk_eq_some.1 hb
  rw [blk, obj_updatePiece]
  by_cases hj : j = i
  · rw [if_pos hj, hj, hpi, Option.map_some, Option.bind_some, hf p hpi hpb, blk_of_obj hpi]
    simp only [true_and]
  · rw [if_neg hj, if_neg fun h => hj h.1]
    rfl

/-- When the block has no request, the requests are untouched. -/
theorem reqInv_dropBlock {s' : Sched} (h : s.ReqInv) (hb : s.blk i k = some b)
    (hp : b.pending_req_db = []) (he : b.expired_req_db = [])
    (hblk : ∀ j k', s'.blk j k' = if j = i ∧ k' = k then none else s.blk j k')
    (hdb : s'.request_db = s.request_db) : s'.ReqInv := by
  have hreq : ∀ c, b.isReqedBy c = false := by
    intro c
    rw [SchedBlock.not_isReqedBy_iff, hp, he]
    simp
  refine ⟨?_, hdb ▸ h.nodup, ?_⟩
  · intro c j k'
    rw [hdb, h.mem, hblk]
    split_ifs with hjk
    · rw [hjk.1, hjk.2, hb]
      simp [hreq]
    · exact Iff.rfl
  · intro j k' b' hb'
    rw [hblk] at hb'
    split_ifs at hb'
    exact h.block hb'

/-- What the destructor of the block `k` of the piece `i` leaves: no such block, and
the others in the state they were in. -/
structure Dropped (i : ℕ) (ks : List ℕ) (s s' : Sched) : Prop where
  blk_self : ∀ {k}, k ∈ ks → s'.blk i k = none
  blk_some : ∀ {j k b'}, s'.blk j k = some b' → ∃ b, s.blk j k = some b ∧ b.stateCpu = b'.stateCpu

/-- The destructor of a block, in a piece whose bytes do not matter any more. -/
theorem inv_blockDtor (h : s.Inv cfg allowed part) (hi : ¬ part i) :
    (s.blockDtor i k).Inv cfg allowed part ∧ Dropped i [k] s (s.blockDtor i k) := by
  unfold blockDtor
  rcases hb : s.blk i k with - | b
  · refine ⟨h, fun hk => ?_, fun {j k' b'} hb' => ⟨b', hb', rfl⟩⟩
    rw [List.mem_singleton.1 hk]
    exact hb
  · obtain ⟨hinv, hrem⟩ := removed_block (f := fun s c => s.requestDtor c i k)
      (fun _ _ hs => ⟨inv_requestDtor hs, removed_requestDtor hs.reqs⟩) h hb
    obtain ⟨b', hb', -, hp, he⟩ := hrem.lists_eq_nil hb
    simp only []
    generalize b.expired_req_db.foldl _ _ = s' at *
    have hblk : ∀ j k', (s'.updatePiece i fun p => p.eraseBlock k).blk j k' =
        if j = i ∧ k' = k then none else s'.blk j k' := fun j k' =>
      blk_dropBlock hb' fun p _ _ => SchedPiece.obj_eraseBlock
    refine ⟨⟨pieceInv_updatePiece hinv.pieces fun p hpi => ?_,
      reqInv_dropBlock hinv.reqs hb' hp he hblk rfl⟩, fun hk => ?_, fun {j k' b₁} hb₁ => ?_⟩
    · rw [blk_of_obj hpi] at hb'
      obtain ⟨hpidx, hrange, -⟩ := SchedPiece.eraseBlock_fields hb'
      exact ⟨hpidx, hrange, fun hpart => absurd hpart hi,
        SchedPiece.classified_eraseBlock hb' (hinv.pieces.classified hpi)⟩
    · rw [hblk, if_pos ⟨rfl, List.mem_singleton.1 hk⟩]
    · rw [hblk] at hb₁
      split_ifs at hb₁ with hjk
      rcases hb₀ : s.blk j k' with - | b₀
      · rw [hrem.blk_none hb₀] at hb₁
        cases hb₁
      · obtain ⟨b₂, hb₂, -, hw, hp₂, -⟩ := hrem.blk_some hb₀
        rw [hb₁, Option.some.injEq] at hb₂
        refine ⟨b₀, rfl, SchedBlock.stateCpu_congr (by rw [hb₂, hw]) ?_⟩
        rw [List.eq_nil_iff_forall_not_mem, List.eq_nil_iff_forall_not_mem]
        refine forall_congr' fun d => not_congr ?_
        rw [hb₂, hp₂, and_iff_left hjk]

/-- A block which is written has no request, so that its end only changes its piece. -/
theorem ioWriteDone_eq (h : s.Inv cfg allowed part) (hb : s.blk i k = some b)
    (hw : b.bt_io_write = true) :
    s.ioWriteDone i k =
      (s.updatePiece i fun p => p.blockWritten k).updatePiece i fun p => p.eraseBlock k := by
  obtain ⟨hp, he⟩ := h.pieces.writing hb hw
  obtain ⟨p, hpi, hpk⟩ := blk_eq_some.1 hb
  have hb' : (s.updatePiece i fun p => p.blockWritten k).blk i k =
      some { b with state_cur := none } := by
    rw [blk, obj_updatePiece, if_pos rfl, hpi, Option.map_some, Option.bind_some]
    exact SchedPiece.obj_blockWritten_self hpk
  rw [ioWriteDone, if_pos (by rw [hb]; exact hw)]
  simp only [blockDtor, hb', hp, he, List.foldl_nil]

theorem obj_ioWriteDone (h : s.Inv cfg allowed part) (hb : s.blk i k = some b)
    (hw : b.bt_io_write = true) (j : ℕ) : (s.ioWriteDone i k).piece.obj j =
      (s.updatePiece i fun p => (p.blockWritten k).eraseBlock k).piece.obj j := by
  rw [ioWriteDone_eq h hb hw]
  simp only [obj_updatePiece, if_true, Option.map_map]
  split_ifs <;> rfl

/-- The data of a block is on disk: the block goes, its bytes become available. -/
theorem inv_ioWriteDone (h : s.Inv cfg allowed part) : (s.ioWriteDone i k).Inv cfg allowed part := by
  by_cases hw : (s.blk i k).any SchedBlock.bt_io_write = true
  · obtain ⟨b, hb, hw⟩ := (Option.any_eq_true _ _).1 hw
    obtain ⟨hp, he⟩ := h.pieces.writing hb hw
    obtain ⟨p, hpi, hpk⟩ := blk_eq_some.1 hb
    have hobj := obj_ioWriteDone h hb hw
    have hblk : ∀ j k', (s.ioWriteDone i k).blk j k' =
        if j = i ∧ k' = k then none else s.blk j k' := by
      intro j k'
      rw [blk, hobj]
      exact blk_dropBlock hb fun p _ hp => SchedPiece.obj_written hp
    refine ⟨(pieceInv_updatePiece h.pieces fun p' hp' => ?_).congr hobj ?_,
      reqInv_dropBlock h.reqs hb hp he hblk ?_⟩
    · rw [hpi, Option.some.injEq] at hp'
      rw [← hp']
      obtain ⟨hrange, hpidx, -⟩ := SchedPiece.written_fields hpk
      exact ⟨hpidx, hrange,
        fun hpart => SchedPiece.partition_written hpk (h.pieces.partition hpi hpart),
        SchedPiece.classified_written hpk (h.pieces.classified hpi)⟩
    · rw [ioWriteDone_eq h hb hw]
      rfl
    · rw [ioWriteDone_eq h hb hw]
      rfl
  · rw [ioWriteDone, if_neg hw]
    exact h

/-! ### Pieces -/

/-- What `get_block_to_request` stores in its piece. -/
theorem getBlockToRequest_cases {s' : Sched} (hs : s.getBlockToRequest cfg i c = some (s', k)) :
    ∃ p p', s.piece.obj i = some p ∧
      p.getBlockToRequest c cfg.xmit_req_maxlen cfg.xmit_req_maxlen_pos = some (p', k) ∧
      s' = { s with piece := s.piece.set i p' } := by
  unfold getBlockToRequest at hs
  rcases hpi : s.piece.obj i with - | p
  · rw [hpi] at hs
    cases hs
  · rw [hpi, Option.bind_some] at hs
    rcases hg : p.getBlockToRequest c cfg.xmit_req_maxlen cfg.xmit_req_maxlen_pos with - | ⟨p', k₀⟩
    · rw [hg] at hs
      cases hs
    · rw [hg] at hs
      obtain ⟨rfl, rfl⟩ : { s with piece := s.piece.set i p' } = s' ∧ k₀ = k := by simpa using hs
      exact ⟨p, p', rfl, hg, rfl⟩

/-- The blocks there were are untouched; a new one has no request. -/
theorem blk_getBlockToRequest {s' : Sched} (h : s.Inv cfg allowed part) (hi : part i)
    (hs : s.getBlockToRequest cfg i c = some (s', k)) (j k' : ℕ) :
    s'.blk j k' = s.blk j k' ∨
      (s.blk j k' = none ∧ ∃ r, s'.blk j k' = some (SchedBlock.ctor r)) := by
  obtain ⟨p, p', hpi, hg, rfl⟩ := getBlockToRequest_cases hs
  simp only [blk, StateDb.obj_set]
  split_ifs with hj
  · rw [hj, hpi, Option.bind_some, Option.bind_some]
    exact SchedPiece.obj_getBlockToRequest (h.pieces.partition hpi hi) hg k'
  · exact .inl rfl

/-- `get_block_to_request`: the block found can be requested by the connection. -/
theorem inv_getBlockToRequest {s' : Sched} (h : s.Inv cfg allowed part) (hi : part i)
    (hs : s.getBlockToRequest cfg i c = some (s', k)) :
    s'.Inv cfg allowed part ∧ ∃ b, s'.blk i k = some b ∧ b.isReqedBy c = false ∧
      b.bt_io_write = false ∧ b.pending_req_db = [] := by
  have hblk := blk_getBlockToRequest h hi hs
  obtain ⟨p, p', hpi, hg, rfl⟩ := getBlockToRequest_cases hs
  have hP := h.pieces.partition hpi hi
  obtain ⟨hpidx, hrange⟩ := SchedPiece.pieceidx_getBlockToRequest hg
  have hC' := SchedPiece.classified_getBlockToRequest hP (h.pieces.classified hpi) hg
  have hobj : ∀ j, (s.piece.set i p').obj j = (s.updatePiece i fun _ => p').piece.obj j := by
    intro j
    rw [obj_updatePiece, StateDb.obj_set, hpi, Option.map_some]
  obtain ⟨b, hb, hst, hreq⟩ := SchedPiece.block_getBlockToRequest hg
  have hset := hC'.block hb
  rw [SchedBlock.Settled, hst, Option.some.injEq] at hset
  refine ⟨⟨(pieceInv_updatePiece h.pieces fun p₀ hp₀ => ?_).congr hobj rfl, ?_, h.reqs.nodup, ?_⟩,
    b, ?_, hreq, SchedBlock.stateCpu_eq_doNeedreq.1 hset.symm⟩
  · rw [hpi, Option.some.injEq] at hp₀
    rw [← hp₀]
    exact ⟨hpidx, hrange, fun hpart => SchedPiece.partition_getBlockToRequest hP hg, hC'⟩
  · intro d j k'
    rw [h.reqs.mem]
    rcases hblk j k' with he | ⟨hn, r, he⟩
    · rw [he]
    · rw [he, hn]
      simp [SchedBlock.ctor, SchedBlock.isReqedBy]
  · intro j k' b' hb'
    rcases hblk j k' with he | ⟨-, r, he⟩
    · exact h.reqs.block (he ▸ hb')
    · rw [he, Option.some.injEq] at hb'
      rw [← hb']
      exact List.nodup_nil
  · show ((s.piece.set i p').obj i).bind _ = _
    rw [StateDb.obj_set_self, Option.bind_some, hb]

/-- A new piece has no block yet. -/
theorem blk_pieceCtor {isavail : FileSizeInval} (hnone : s.piece.obj i = none) (j k : ℕ) :
    (s.pieceCtor cfg i isavail).blk j k = s.blk j k := by
  show ((s.piece.set i _).obj j).bind _ = _
  rw [StateDb.obj_set]
  split_ifs with hj
  · rw [Option.bind_some, SchedPiece.block_ctor, hj, blk, hnone]
    rfl
  · rfl

/-- A new piece, at an index where there is none. -/
theorem inv_pieceCtor {isavail : FileSizeInval} (h : s.Inv cfg allowed part)
    (hlt : i < cfg.mfile.nb_piece) (hnone : s.piece.obj i = none)
    (hsub : ∀ x, x ∈ isavail → x ∈ pieceidxToTotfileRange cfg.mfile i)
    (hall : allowed ∨ ∃ x ∈ pieceidxToTotfileRange cfg.mfile i, x ∉ isavail) :
    (s.pieceCtor cfg i isavail).Inv cfg allowed part := by
  have hobj : ∀ {j p}, (s.pieceCtor cfg i isavail).piece.obj j = some p →
      (j = i ∧ p = SchedPiece.ctor cfg.mfile i isavail) ∨ (j ≠ i ∧ s.piece.obj j = some p) := by
    intro j p hj
    have hj' : (s.piece.set i _).obj j = some p := hj
    rw [StateDb.obj_set] at hj'
    split_ifs at hj' with hji
    · exact .inl ⟨hji, (Option.some.inj hj').symm⟩
    · exact .inr ⟨hji, hj'⟩
  -- the bit of the new piece is set, and within the length of the field
  have hpd : ∀ j, (s.pieceCtor cfg i isavail).local_pdling.get j =
      if j = i then true else s.local_pdling.get j := by
    intro j
    show (s.local_pdling.set i).get j = _
    rw [Bitfield.get_set, h.pieces.length_pdling]
    simp [hlt]
  refine ⟨⟨?_, ?_, ?_, ?_, ?_, ?_, ?_⟩, h.reqs.congr (blk_pieceCtor hnone) rfl⟩
  · intro j p hj
    obtain ⟨rfl, rfl⟩ | ⟨-, hj⟩ := hobj hj
    · exact SchedPiece.pieceidx_ctor
    · exact h.pieces.pieceidx hj
  · intro j p hj
    obtain ⟨rfl, rfl⟩ | ⟨-, hj⟩ := hobj hj
    · exact SchedPiece.totfile_range_ctor
    · exact h.pieces.range hj
  · intro j p hj
    obtain ⟨rfl, rfl⟩ | ⟨-, hj⟩ := hobj hj
    · exact hlt
    · exact h.pieces.lt_nb_piece hj
  · intro j p hj hpart
    obtain ⟨rfl, rfl⟩ | ⟨-, hj⟩ := hobj hj
    · exact SchedPiece.partition_ctor hsub
    · exact h.pieces.partition hj hpart
  · intro j p hj
    obtain ⟨rfl, rfl⟩ | ⟨-, hj⟩ := hobj hj
    · exact SchedPiece.classified_ctor_iff.2 hall
    · exact h.pieces.classified hj
  · intro j p hj hpart
    rw [hpd]
    obtain ⟨rfl, -⟩ | ⟨hji, hj⟩ := hobj hj
    · exact if_pos rfl
    · rw [if_neg hji]
      exact h.pieces.pdling hj hpart
  · exact (Bitfield.length_set _).trans h.pieces.length_pdling

/-- The invariant does not look at `local_pdling` of a piece which is not to be partitioned. -/
theorem inv_weaken {part' : ℕ → Prop} {s' : Sched} (h : s.Inv cfg allowed part)
    (hpart : ∀ j, part' j → part j) (hp : s'.piece = s.piece) (hr : s'.request_db = s.request_db)
    (hl : ∀ j, part' j → s'.local_pdling.get j = s.local_pdling.get j)
    (hlen : s'.local_pdling.length = s.local_pdling.length) : s'.Inv cfg allowed part' := by
  have hblk : ∀ j k, s'.blk j k = s.blk j k := by
    intro j k
    rw [blk, hp, blk]
  refine ⟨⟨?_, ?_, ?_, ?_, ?_, ?_, hlen.trans h.pieces.length_pdling⟩, h.reqs.congr hblk hr⟩ <;>
    intro j p hj <;> rw [hp] at hj
  · exact h.pieces.pieceidx hj
  · exact h.pieces.range hj
  · exact h.pieces.lt_nb_piece hj
  · exact fun hj' => h.pieces.partition hj (hpart j hj')
  · exact h.pieces.classified hj
  · intro hj'
    rw [hl j hj']
    exact h.pieces.pdling hj (hpart j hj')

theorem inv_blockDtor_foldl (h : s.Inv cfg allowed part) (hi : ¬ part i) (l : List ℕ) :
    (l.foldl (fun s beg => s.blockDtor i beg) s).Inv cfg allowed part ∧
      Dropped i l s (l.foldl (fun s beg => s.blockDtor i beg) s) := by
  induction l generalizing s with
  | nil => exact ⟨h, by simp, fun {j k b'} hb' => ⟨b', hb', rfl⟩⟩
  | cons a l ih =>
    obtain ⟨hinv, hdrop⟩ := inv_blockDtor (k := a) h hi
    obtain ⟨hinv', hdrop'⟩ := ih hinv
    have hsome : ∀ {j k b'}, (l.foldl (fun s beg => s.blockDtor i beg)
        (s.blockDtor i a)).blk j k = some b' →
          ∃ b, s.blk j k = some b ∧ b.stateCpu = b'.stateCpu := by
      intro j k b' hb'
      obtain ⟨b₁, hb₁, hq₁⟩ := hdrop'.blk_some hb'
      obtain ⟨b₀, hb₀, hq₀⟩ := hdrop.blk_some hb₁
      exact ⟨b₀, hb₀, hq₀.trans hq₁⟩
    refine ⟨hinv', fun {k} hk => ?_, hsome⟩
    rcases List.mem_cons.1 hk with rfl | hk
    · by_contra hne
      obtain ⟨b', hb'⟩ := Option.ne_none_iff_exists'.1 hne
      obtain ⟨b₁, hb₁, -⟩ := hdrop'.blk_some hb'
      rw [hdrop.blk_self (List.mem_singleton.2 rfl)] at hb₁
      cases hb₁
    · exact hdrop'.blk_self hk

theorem mem_blockDb (h : s.PieceInv cfg allowed part) (hb : s.blk i k = some b) {q : ReqState} :
    k ∈ s.blockDb i q ↔ b.stateCpu = q := by
  obtain ⟨p, hp, hk⟩ := blk_eq_some.1 hb
  have hset : b.state_cur = some b.stateCpu := h.settled hb
  rw [blockDb, hp, Option.map_some, Option.getD_some, StateDb.mem_db_of_obj hk, hset,
    Option.some.injEq]

/-- Both databases of the piece `i` emptied. -/
theorem inv_blocksDtor (h : s.Inv cfg allowed part) (hi : ¬ part i) :
    let s₁ := (s.blockDb i .doNeedreq).foldl (fun s beg => s.blockDtor i beg) s
    let s₂ := (s₁.blockDb i .noNeedreq).foldl (fun s beg => s.blockDtor i beg) s₁
    s₂.Inv cfg allowed part ∧ ∀ k, s₂.blk i k = none := by
  intro s₁ s₂
  obtain ⟨h₁, hd₁⟩ := inv_blockDtor_foldl h hi (s.blockDb i .doNeedreq)
  obtain ⟨h₂, hd₂⟩ := inv_blockDtor_foldl h₁ hi (s₁.blockDb i .noNeedreq)
  refine ⟨h₂, fun k => ?_⟩
  by_contra hne
  obtain ⟨b₂, hb₂⟩ := Option.ne_none_iff_exists'.1 hne
  obtain ⟨b₁, hb₁, hq₁⟩ := hd₂.blk_some hb₂
  obtain ⟨b₀, hb₀, hq₀⟩ := hd₁.blk_some hb₁
  -- the block was in one of the two databases, and stayed there until its turn came
  rcases b₁.stateCpu_ne with hq | hq
  · have hk : k ∈ s.blockDb i .doNeedreq := (mem_blockDb h.pieces hb₀).2 (hq₀.trans hq)
    have : s₁.blk i k = none := hd₁.blk_self hk
    rw [this] at hb₁
    cases hb₁
  · have hk : k ∈ s₁.blockDb i .noNeedreq := (mem_blockDb h₁.pieces hb₁).2 hq
    exact hne (hd₂.blk_self hk)

/-- The destructor of a piece. -/
theorem inv_pieceDtor {all : ℕ → Prop} (hall : ∀ j, all j) (h : s.Inv cfg allowed all) :
    (s.pieceDtor i).Inv cfg allowed all := by
  have h₀ : ({ s with local_pdling := s.local_pdling.clear i } : Sched).Inv cfg allowed
      (fun j => j ≠ i) := by
    refine inv_weaken h (fun j _ => hall j) rfl rfl (fun j hj => ?_) Bitfield.length_clear
    show (s.local_pdling.clear i).get j = _
    rw [Bitfield.get_clear, if_neg hj]
  obtain ⟨h₂, hblk⟩ := inv_blocksDtor h₀ (fun hi => hi rfl)
  unfold pieceDtor
  simp only []
  generalize List.foldl _ _ (Sched.blockDb _ i .noNeedreq) = s₂ at *
  have hobj : ∀ {j p}, (s₂.piece.erase i).obj j = some p → j ≠ i ∧ s₂.piece.obj j = some p := by
    intro j p hj
    rw [StateDb.obj_erase] at hj
    split_ifs at hj with hji
    exact ⟨hji, hj⟩
  have hblk' : ∀ j k, ({ s₂ with piece := s₂.piece.erase i } : Sched).blk j k = s₂.blk j k := by
    intro j k
    show ((s₂.piece.erase i).obj j).bind _ = _
    rw [StateDb.obj_erase]
    split_ifs with hj
    · rw [hj, hblk]
      rfl
    · rfl
  refine ⟨⟨?_, ?_, ?_, ?_, ?_, ?_, h₂.pieces.length_pdling⟩, h₂.reqs.congr hblk' rfl⟩ <;>
    intro j p hj <;> obtain ⟨hji, hj⟩ := hobj hj
  · exact h₂.pieces.pieceidx hj
  · exact h₂.pieces.range hj
  · exact h₂.pieces.lt_nb_piece hj
  · exact fun _ => h₂.pieces.partition hj hji
  · exact h₂.pieces.classified hj
  · exact fun _ => h₂.pieces.pdling hj hji

end Sched

end Neoip
