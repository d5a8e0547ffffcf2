/-
Neoip/SchedPiece.lean

The blocks and the pieces of the bittorrent scheduler
(`bt_swarm_sched_block_t`, `bt_swarm_sched_piece_t`).

A scheduled piece is a piece which is being downloaded.  Each of its bytes is
in `isavail_inval` (on disk already), in `nevereq_inval` (no block was made for
it yet), or in one of its blocks; a block goes from its first request to the
end of the disk write of its data.  Blocks and pieces are in one of two states,
`do_needreq` (worth a new request) and `no_needreq`, and are listed by state:
the blocks in their piece, the pieces in the scheduler.

The objects of the source update each other: a request which is linked to its
block or unlinked from it makes the block compute its state again, and a block
which changes state is linked again in its piece, which then computes its own
state.  Here a block is a value, and `SchedPiece.updateBlock` stores it back,
links it again under its new state, and does what the piece does then.  A
request is known by its connection (see `Sched.lean`): a block holds at most
one request for each.

Main results: what each operation on a piece keeps
(`SchedPiece.Partition`: the bytes of the piece; `SchedPiece.Classified`: the
states).
-/
import Neoip.Unit
import Neoip.StateDb

namespace Neoip

/-- The states of a block or a piece.  `STATE_NONE`, when it is linked nowhere, is
`none`. -/
inductive ReqState
  | doNeedreq
  | noNeedreq
deriving DecidableEq, Repr

/-- A connection of the scheduler: a peer, or an external connection (`bt_ecnx_vapi_t`). -/
inductive CnxId
  | full (id : ℕ)
  | ecnx (slot : ℕ)
deriving DecidableEq, Repr

/-! ### Choosing among candidates -/

section Choice

variable {α : Type*} (f : α → ℕ)

/-- The head of a `multimap` filled in the order of the list: the first of those
with the least `f`. -/
def firstLeast : List α → Option α
  | [] => none
  | a :: l =>
    match firstLeast l with
    | none => some a
    | some b => if f b < f a then some b else some a

/-- The tail of such a `multimap`: the last of those with the greatest `f`. -/
def lastGreatest : List α → Option α
  | [] => none
  | a :: l =>
    match lastGreatest l with
    | none => some a
    | some b => if f b < f a then some a else some b

variable {f} {a : α} {l : List α}

theorem mem_of_firstLeast (h : firstLeast f l = some a) : a ∈ l := by
  induction l generalizing a with
  | nil => cases h
  | cons b l ih =>
    rw [firstLeast] at h
    rcases hl : firstLeast f l with - | c
    · simp only [hl, Option.some.injEq] at h
      exact h ▸ List.mem_cons_self
    · simp only [hl] at h
      split_ifs at h <;> cases h
      · exact List.mem_cons_of_mem _ (ih hl)
      · exact List.mem_cons_self

theorem mem_of_lastGreatest (h : lastGreatest f l = some a) : a ∈ l := by
  induction l generalizing a with
  | nil => cases h
  | cons b l ih =>
    rw [lastGreatest] at h
    rcases hl : lastGreatest f l with - | c
    · simp only [hl, Option.some.injEq] at h
      exact h ▸ List.mem_cons_self
    · simp only [hl] at h
      split_ifs at h <;> cases h
      · exact List.mem_cons_self
      · exact List.mem_cons_of_mem _ (ih hl)

theorem lastGreatest_eq_none (h : lastGreatest f l = none) : l = [] := by
  cases l with
  | nil => rfl
  | cons b l =>
    rw [lastGreatest] at h
    split at h
    · cases h
    · split_ifs at h

end Choice

/-! ### `bt_swarm_sched_block_t` -/

/-- `bt_swarm_sched_block_t`. -/
structure SchedBlock where
  totfile_range : FileRange
  /-- A `bt_io_write_t` is writing the data of the block. -/
  bt_io_write : Bool
  /-- The connections of the requests which are not timed out. -/
  pending_req_db : List CnxId
  /-- The connections of the requests which are timed out. -/
  expired_req_db : List CnxId
  state_cur : Option ReqState
deriving DecidableEq, Repr

namespace SchedBlock

/-- `state_cpu`. -/
def stateCpu (b : SchedBlock) : ReqState :=
  if b.bt_io_write then .noNeedreq
  else if b.pending_req_db ≠ [] then .noNeedreq
  else .doNeedreq

/-- `state_change_if_needed`. -/
def stateChangeIfNeeded (b : SchedBlock) : SchedBlock :=
  if b.state_cur ≠ some b.stateCpu then { b with state_cur := some b.stateCpu } else b

/-- The constructor: a block without any request is `do_needreq`. -/
def ctor (totfile_range : FileRange) : SchedBlock where
  totfile_range := totfile_range
  bt_io_write := false
  pending_req_db := []
  expired_req_db := []
  state_cur := some .doNeedreq

/-- `pending_req_dolink`. -/
def pendingReqDolink (b : SchedBlock) (cnx : CnxId) : SchedBlock :=
  { b with pending_req_db := b.pending_req_db ++ [cnx] }.stateChangeIfNeeded

/-- `pending_req_unlink`. -/
def pendingReqUnlink (b : SchedBlock) (cnx : CnxId) : SchedBlock :=
  { b with pending_req_db := b.pending_req_db.erase cnx }.stateChangeIfNeeded

/-- `expired_req_dolink`. -/
def expiredReqDolink (b : SchedBlock) (cnx : CnxId) : SchedBlock :=
  { b with expired_req_db := b.expired_req_db ++ [cnx] }.stateChangeIfNeeded

/-- `expired_req_unlink`. -/
def expiredReqUnlink (b : SchedBlock) (cnx : CnxId) : SchedBlock :=
  { b with expired_req_db := b.expired_req_db.erase cnx }.stateChangeIfNeeded

/-- What the destructor of a request does: `pending_req_unlink` or `expired_req_unlink`. -/
def reqUnlink (b : SchedBlock) (cnx : CnxId) : SchedBlock :=
  if b.pending_req_db.contains cnx then b.pendingReqUnlink cnx else b.expiredReqUnlink cnx

/-- The end of `notify_complete_from`: the disk write of the data is launched. -/
def launchIoWrite (b : SchedBlock) : SchedBlock :=
  { b with bt_io_write := true }.stateChangeIfNeeded

/-- `is_reqed_by`. -/
def isReqedBy (b : SchedBlock) (cnx : CnxId) : Bool :=
  b.pending_req_db.contains cnx || b.expired_req_db.contains cnx

/-- `nb_request`. -/
def nbRequest (b : SchedBlock) : ℕ := b.pending_req_db.length + b.expired_req_db.length

/-- The state of the block is the one its requests and its disk write call for. -/
def Settled (b : SchedBlock) : Prop := b.state_cur = some b.stateCpu

variable {b : SchedBlock} {cnx : CnxId}

theorem stateChangeIfNeeded_eq (b : SchedBlock) :
    b.stateChangeIfNeeded = { b with state_cur := some b.stateCpu } := by
  unfold stateChangeIfNeeded
  split_ifs with h
  · rfl
  · rw [not_not] at h
    rw [← h]

theorem settled_stateChangeIfNeeded (b : SchedBlock) : b.stateChangeIfNeeded.Settled := by
  rw [stateChangeIfNeeded_eq]
  rfl

theorem settled_launchIoWrite (b : SchedBlock) : b.launchIoWrite.Settled :=
  settled_stateChangeIfNeeded _

theorem stateCpu_eq_doNeedreq :
    b.stateCpu = .doNeedreq ↔ b.bt_io_write = false ∧ b.pending_req_db = [] := by
  unfold stateCpu
  split_ifs with h h' <;> simp_all

theorem stateCpu_congr {b' : SchedBlock} (hw : b'.bt_io_write = b.bt_io_write)
    (hp : b.pending_req_db = [] ↔ b'.pending_req_db = []) : b.stateCpu = b'.stateCpu := by
  unfold stateCpu
  simp only [hw, ne_eq, hp]

theorem stateCpu_ne (b : SchedBlock) : b.stateCpu = .doNeedreq ∨ b.stateCpu = .noNeedreq := by
  rcases b.stateCpu <;> simp

end SchedBlock

/-! ### `bt_swarm_sched_piece_t` -/

/-- `bt_swarm_sched_piece_t`. -/
structure SchedPiece where
  pieceidx : ℕ
  totfile_range : FileRange
  isavail_inval : FileSizeInval
  nevereq_inval : FileSizeInval
  /-- The blocks, under their first byte, with `block_do_needreq_db` and `block_no_needreq_db`. -/
  block : StateDb ℕ SchedBlock.state_cur
  /-- The check of the downloaded piece is launched: a `piece_cpuhash`, or the `nohash_zerotimer`. -/
  post_process : Bool
  state_cur : Option ReqState

namespace SchedPiece

abbrev block_do_needreq_db (p : SchedPiece) : List ℕ := p.block.db .doNeedreq

abbrev block_no_needreq_db (p : SchedPiece) : List ℕ := p.block.db .noNeedreq

/-- `state_cpu`. -/
def stateCpu (p : SchedPiece) : ReqState :=
  if p.block_do_needreq_db ≠ [] then .doNeedreq
  else if !p.nevereq_inval.isEmpty then .doNeedreq
  else .noNeedreq

/-- `state_change_if_needed`. -/
def stateChangeIfNeeded (p : SchedPiece) : SchedPiece :=
  if p.state_cur ≠ some p.stateCpu then { p with state_cur := some p.stateCpu } else p

/-- `is_fully_dloaded`. -/
def isFullyDloaded (p : SchedPiece) : Bool :=
  if p.block_do_needreq_db ≠ [] then false
  else if p.block_no_needreq_db ≠ [] then false
  else if !p.nevereq_inval.isEmpty then false
  else true

/-- `fully_dloaded_post_process`. -/
def fullyDloadedPostProcess (p : SchedPiece) : SchedPiece := { p with post_process := true }

/-- The constructor.  It ends with `state_goto( STATE_DO_NEEDREQ )`, also when
everything is available already. -/
def ctor (m : Mfile) (pieceidx : ℕ) (isavail_inval : FileSizeInval) : SchedPiece :=
  let totfile_range := pieceidxToTotfileRange m pieceidx
  let p : SchedPiece :=
    { pieceidx, totfile_range, isavail_inval
      nevereq_inval := (FileSizeInval.ofItem totfile_range.toInvalItem).sub isavail_inval
      block := .empty
      post_process := false
      state_cur := none }
  -- the check of a piece which is fully available is launched before the state is set
  let p := if p.isFullyDloaded then p.fullyDloadedPostProcess else p
  { p with state_cur := some .doNeedreq }

/-- Store the block `b` under its first byte `k`.  When that links it, unlinks it or
moves it to the other database, the piece computes its state again. -/
def setBlock (p : SchedPiece) (k : ℕ) (b : SchedBlock) : SchedPiece :=
  let p' := { p with block := p.block.set k b }
  if b.state_cur = (p.block.obj k).bind SchedBlock.state_cur then p'
  else p'.stateChangeIfNeeded

/-- Do `f` to the block under `k`. -/
def updateBlock (p : SchedPiece) (k : ℕ) (f : SchedBlock → SchedBlock) : SchedPiece :=
  match p.block.obj k with
  | some b => p.setBlock k (f b)
  | none => p

/-- `block_by_totfile_beg`: the block must be linked. -/
def blockByTotfileBeg (p : SchedPiece) (totfile_beg : ℕ) : Option SchedBlock :=
  if totfile_beg ∈ p.block_no_needreq_db then p.block.obj totfile_beg
  else if totfile_beg ∈ p.block_do_needreq_db then p.block.obj totfile_beg
  else none

/-- The blocks of `block_do_needreq_db` which the connection did not request yet. -/
def doNeedreqCand (p : SchedPiece) (cnx : CnxId) : List ℕ :=
  p.block_do_needreq_db.filter fun k => (p.block.obj k).any fun b => !b.isReqedBy cnx

/-- `get_block_do_needreq`: the candidate with the least requests. -/
def getBlockDoNeedreq (p : SchedPiece) (cnx : CnxId) : Option ℕ :=
  firstLeast (fun k => ((p.block.obj k).map SchedBlock.nbRequest).getD 0) (p.doNeedreqCand cnx)

/-- `may_request_block_thru`. -/
def mayRequestBlockThru (p : SchedPiece) (cnx : CnxId) : Bool :=
  if (p.getBlockDoNeedreq cnx).isSome then true
  else if !p.nevereq_inval.isEmpty then true
  else false

end SchedPiece

/-- Clamp the end of a range to at most `maxlen` bytes. -/
def FileRange.clampLen (r : FileRange) (maxlen : ℕ) (h : 0 < maxlen) : FileRange :=
  if r.len > maxlen then ⟨r.beg, r.beg + maxlen - 1, by omega⟩ else r

namespace SchedPiece

/-- `get_block_to_request`: a block of `do_needreq`, else a new block cut from the
head of `nevereq_inval`. -/
def getBlockToRequest (p : SchedPiece) (cnx : CnxId) (xmit_req_maxlen : ℕ)
    (hpos : 0 < xmit_req_maxlen) : Option (SchedPiece × ℕ) :=
  match p.getBlockDoNeedreq cnx with
  | some k => some (p, k)
  | none =>
    match p.nevereq_inval.first? with
    | none => none
    | some item =>
      let range := (FileRange.fromInvalItem item).clampLen xmit_req_maxlen hpos
      let p := { p with nevereq_inval := p.nevereq_inval.subItem range.toInvalItem }
      some (p.setBlock range.beg (SchedBlock.ctor range), range.beg)

/-- `notify_block_completion`. -/
def notifyBlockCompletion (p : SchedPiece) (totfile_range : FileRange) : SchedPiece :=
  let p := { p with isavail_inval := p.isavail_inval.addItem totfile_range.toInvalItem }
  if p.isFullyDloaded then p.fullyDloadedPostProcess else p

/-- The block under `k` goes back to `STATE_NONE`. -/
def unlinkBlock (p : SchedPiece) (k : ℕ) : SchedPiece :=
  p.updateBlock k fun b => { b with state_cur := none }

/-- The end of the destructor of a block: it is unlinked, and gone. -/
def eraseBlock (p : SchedPiece) (k : ℕ) : SchedPiece :=
  let p := p.unlinkBlock k
  { p with block := p.block.erase k }

/-- `neoip_bt_io_write_cb` of a write which succeeded, up to the deletion of the block. -/
def blockWritten (p : SchedPiece) (k : ℕ) : SchedPiece :=
  match p.block.obj k with
  | some b => (p.unlinkBlock k).notifyBlockCompletion b.totfile_range
  | none => p

/-! ### What the operations do to the fields of a piece -/

section Fields

variable {p : SchedPiece} {k : ℕ} {b : SchedBlock} {f : SchedBlock → SchedBlock}

theorem stateChangeIfNeeded_eq (p : SchedPiece) :
    p.stateChangeIfNeeded = { p with state_cur := some p.stateCpu } := by
  unfold stateChangeIfNeeded
  split_ifs with h
  · rfl
  · rw [not_not] at h
    rw [← h]

/-- `setBlock` touches the blocks and the state, nothing else. -/
theorem setBlock_eq (p : SchedPiece) (k : ℕ) (b : SchedBlock) :
    ∃ q, p.setBlock k b = { p with block := p.block.set k b, state_cur := q } := by
  unfold setBlock
  simp only []
  split_ifs
  · exact ⟨p.state_cur, rfl⟩
  · rw [stateChangeIfNeeded_eq]
    exact ⟨_, rfl⟩

@[simp] theorem block_setBlock : (p.setBlock k b).block = p.block.set k b := by
  obtain ⟨q, h⟩ := setBlock_eq p k b
  rw [h]

@[simp] theorem pieceidx_setBlock : (p.setBlock k b).pieceidx = p.pieceidx := by
  obtain ⟨q, h⟩ := setBlock_eq p k b
  rw [h]

@[simp] theorem totfile_range_setBlock : (p.setBlock k b).totfile_range = p.totfile_range := by
  obtain ⟨q, h⟩ := setBlock_eq p k b
  rw [h]

@[simp] theorem isavail_inval_setBlock : (p.setBlock k b).isavail_inval = p.isavail_inval := by
  obtain ⟨q, h⟩ := setBlock_eq p k b
  rw [h]

@[simp] theorem nevereq_inval_setBlock : (p.setBlock k b).nevereq_inval = p.nevereq_inval := by
  obtain ⟨q, h⟩ := setBlock_eq p k b
  rw [h]

theorem updateBlock_of_some (h : p.block.obj k = some b) :
    p.updateBlock k f = p.setBlock k (f b) := by
  rw [updateBlock, h]

theorem updateBlock_of_none (h : p.block.obj k = none) : p.updateBlock k f = p := by
  rw [updateBlock, h]

theorem obj_updateBlock (j : ℕ) : (p.updateBlock k f).block.obj j =
    if j = k then (p.block.obj k).map f else p.block.obj j := by
  rcases h : p.block.obj k with - | b
  · rw [updateBlock_of_none h]
    split_ifs with hj
    · rw [hj, h]
      rfl
    · rfl
  · rw [updateBlock_of_some h, block_setBlock, StateDb.obj_set]
    rfl

end Fields

/-! ### The bytes of a piece -/

/-- The bytes of `range` are partitioned into `isavail`, `nevereq` and the ranges
of the blocks; a block is known by its first byte. -/
structure BytePartition (range : FileRange) (isavail nevereq : FileSizeInval)
    (blk : ℕ → Option FileRange) : Prop where
  beg : ∀ {k r}, blk k = some r → r.beg = k
  isavail_nevereq : ∀ {x}, x ∈ isavail → x ∉ nevereq
  block_isavail : ∀ {k r x}, blk k = some r → x ∈ r → x ∉ isavail
  block_nevereq : ∀ {k r x}, blk k = some r → x ∈ r → x ∉ nevereq
  block_block : ∀ {k k' r r' x}, blk k = some r → blk k' = some r' → k ≠ k' → x ∈ r → x ∉ r'
  union : ∀ x, x ∈ range ↔ x ∈ isavail ∨ x ∈ nevereq ∨ ∃ k r, blk k = some r ∧ x ∈ r

namespace BytePartition

variable {range r : FileRange} {isavail nevereq : FileSizeInval} {blk : ℕ → Option FileRange}
  {k : ℕ}

/-- A piece without any block. -/
theorem init (h : ∀ x, x ∈ isavail → x ∈ range) :
    BytePartition range isavail ((FileSizeInval.ofItem range.toInvalItem).sub isavail)
      fun _ => none where
  beg := by simp
  isavail_nevereq hx hn := (FileSizeInval.mem_sub.1 hn).2 hx
  block_isavail := by simp
  block_nevereq := by simp
  block_block := by simp
  union x := by
    have := h x
    simp only [FileSizeInval.mem_sub, FileSizeInval.mem_ofItem, FileRange.toInvalItem_min,
      FileRange.toInvalItem_max, FileRange.mem_def] at this ⊢
    tauto

/-- A new block is cut out of `nevereq`. -/
theorem cut (h : BytePartition range isavail nevereq blk) (hr : ∀ x, x ∈ r → x ∈ nevereq) :
    BytePartition range isavail (nevereq.subItem r.toInvalItem)
      (fun j => if j = r.beg then some r else blk j) := by
  have hmem : ∀ x, x ∈ nevereq.subItem r.toInvalItem ↔ x ∈ nevereq ∧ x ∉ r := fun x =>
    FileSizeInval.mem_subItem
  -- a block starts with its key, and the first byte of `r` is in no block yet
  have hnone : blk r.beg = none := by
    by_contra hn
    obtain ⟨r', hr'⟩ := Option.ne_none_iff_exists'.1 hn
    refine h.block_nevereq hr' ?_ (hr _ r.beg_mem)
    rw [← h.beg hr']
    exact r'.beg_mem
  refine ⟨?_, ?_, ?_, ?_, ?_, ?_⟩
  · intro j r' hj
    split_ifs at hj with he
    · rw [← Option.some.inj hj, he]
    · exact h.beg hj
  · intro x hx hx'
    exact h.isavail_nevereq hx ((hmem x).1 hx').1
  · intro j r' x hj hx hx'
    split_ifs at hj
    · rw [← Option.some.inj hj] at hx
      exact h.isavail_nevereq hx' (hr x hx)
    · exact h.block_isavail hj hx hx'
  · intro j r' x hj hx hx'
    obtain ⟨hn, hnr⟩ := (hmem x).1 hx'
    split_ifs at hj
    · rw [← Option.some.inj hj] at hx
      exact hnr hx
    · exact h.block_nevereq hj hx hn
  -- two blocks, either of which may be the new one
  · intro j j' r' r'' x hj hj' hne hx hx'
    split_ifs at hj hj' with he he'
    · exact hne (he.trans he'.symm)
    · rw [← Option.some.inj hj] at hx
      exact h.block_nevereq hj' hx' (hr x hx)
    · rw [← Option.some.inj hj'] at hx'
      exact h.block_nevereq hj hx (hr x hx')
    · exact h.block_block hj hj' hne hx hx'
  · intro x
    rw [h.union, hmem]
    constructor
    · rintro (hx | hx | ⟨j, r', hj, hx⟩)
      · exact .inl hx
      · by_cases hxr : x ∈ r
        · exact .inr (.inr ⟨r.beg, r, if_pos rfl, hxr⟩)
        · exact .inr (.inl ⟨hx, hxr⟩)
      · refine .inr (.inr ⟨j, r', ?_, hx⟩)
        rw [if_neg]
        · exact hj
        -- no block is lost: there was none under the key of the new one
        · rintro rfl
          rw [hnone] at hj
          cases hj
    · rintro (hx | hx | ⟨j, r', hj, hx⟩)
      · exact .inl hx
      · exact .inr (.inl hx.1)
      · split_ifs at hj
        · rw [← Option.some.inj hj] at hx
          exact .inr (.inl (hr x hx))
        · exact .inr (.inr ⟨j, r', hj, hx⟩)

/-- A block goes over to `isavail`. -/
theorem complete (h : BytePartition range isavail nevereq blk) (hk : blk k = some r) :
    BytePartition range (isavail.addItem r.toInvalItem) nevereq
      (fun j => if j = k then none else blk j) := by
  have hmem : ∀ x, x ∈ isavail.addItem r.toInvalItem ↔ x ∈ r ∨ x ∈ isavail := fun x =>
    FileSizeInval.mem_addItem
  refine ⟨?_, ?_, ?_, ?_, ?_, ?_⟩
  · intro j r' hj
    split_ifs at hj
    exact h.beg hj
  · intro x hx hx'
    rcases (hmem x).1 hx with hx | hx
    · exact h.block_nevereq hk hx hx'
    · exact h.isavail_nevereq hx hx'
  · intro j r' x hj hx hx'
    split_ifs at hj with he
    rcases (hmem x).1 hx' with hx' | hx'
    · exact h.block_block hj hk he hx hx'
    · exact h.block_isavail hj hx hx'
  · intro j r' x hj hx
    split_ifs at hj
    exact h.block_nevereq hj hx
  · intro j j' r' r'' x hj hj' hne hx
    split_ifs at hj hj'
    exact h.block_block hj hj' hne hx
  · intro x
    rw [h.union, hmem]
    constructor
    -- the bytes of the block are available now
    · rintro (hx | hx | ⟨j, r', hj, hx⟩)
      · exact .inl (.inr hx)
      · exact .inr (.inl hx)
      · by_cases he : j = k
        · rw [he, hk] at hj
          rw [← Option.some.inj hj] at hx
          exact .inl (.inl hx)
        · exact .inr (.inr ⟨j, r', (if_neg he).trans hj, hx⟩)
    · rintro ((hx | hx) | hx | ⟨j, r', hj, hx⟩)
      · exact .inr (.inr ⟨k, r, hk, hx⟩)
      · exact .inl hx
      · exact .inr (.inl hx)
      · split_ifs at hj
        exact .inr (.inr ⟨j, r', hj, hx⟩)

end BytePartition

/-- The range of the block under `k`. -/
def blockRange (p : SchedPiece) (k : ℕ) : Option FileRange :=
  (p.block.obj k).map SchedBlock.totfile_range

/-- **Piece byte partition**: every byte of the piece is available, or was never
requested, or is in exactly one block, and nothing else is. -/
def Partition (p : SchedPiece) : Prop :=
  BytePartition p.totfile_range p.isavail_inval p.nevereq_inval p.blockRange

/-! ### The states of a piece and of its blocks -/

/-- A piece of which every byte was available when it was built: nothing is left to
request, yet it is linked in `do_needreq`. -/
structure Replete (p : SchedPiece) : Prop where
  state : p.state_cur = some .doNeedreq
  nevereq : p.nevereq_inval.isEmpty = true
  block : ∀ k, p.block.obj k = none

/-- Every block, and the piece itself, is in the state that it calls for; and a
block whose data is being written has no request left.  With `allowed`, the piece
may be a replete one. -/
structure Classified (allowed : Prop) (p : SchedPiece) : Prop where
  block : ∀ {k b}, p.block.obj k = some b → b.Settled
  writing : ∀ {k b}, p.block.obj k = some b → b.bt_io_write = true →
    b.pending_req_db = [] ∧ b.expired_req_db = []
  piece : p.state_cur = some p.stateCpu ∨ (allowed ∧ p.Replete)

variable {p : SchedPiece} {k : ℕ} {b b' : SchedBlock} {allowed : Prop}

/-- A piece with a block is in the state it calls for. -/
theorem Classified.settled (h : p.Classified allowed) (hk : p.block.obj k = some b) :
    p.state_cur = some p.stateCpu := by
  rcases h.piece with hp | ⟨-, hr⟩
  · exact hp
  · rw [hr.block k] at hk
    cases hk

theorem Classified.state_isSome (h : p.Classified allowed) : ∃ q, p.state_cur = some q := by
  rcases h.piece with hp | ⟨-, hr⟩
  · exact ⟨_, hp⟩
  · exact ⟨_, hr.state⟩

/-- The state depends on whether there is a block in `do_needreq` and a byte in
`nevereq_inval`. -/
theorem stateCpu_eq_doNeedreq : p.stateCpu = .doNeedreq ↔
    p.block_do_needreq_db ≠ [] ∨ p.nevereq_inval.isEmpty = false := by
  unfold stateCpu
  split_ifs with h h' <;> simp_all

theorem stateCpu_congr {p' : SchedPiece} (hn : p'.nevereq_inval = p.nevereq_inval)
    (hdb : p'.block_do_needreq_db = [] ↔ p.block_do_needreq_db = []) :
    p'.stateCpu = p.stateCpu := by
  unfold stateCpu
  rw [hn]
  simp only [ne_eq, hdb]

theorem state_setBlock (h : p.state_cur = some p.stateCpu ∨
    b.state_cur ≠ (p.block.obj k).bind SchedBlock.state_cur) :
    (p.setBlock k b).state_cur = some (p.setBlock k b).stateCpu := by
  by_cases hq : b.state_cur = (p.block.obj k).bind SchedBlock.state_cur
  · -- the block stays in its database: nothing changes for the piece
    have heq : p.setBlock k b = { p with block := p.block.set k b } := by
      rw [setBlock]
      exact if_pos hq
    have hcpu : SchedPiece.stateCpu { p with block := p.block.set k b } = p.stateCpu := by
      apply stateCpu_congr
      · rfl
      · rw [StateDb.db_eq_nil, StateDb.db_eq_nil]
        constructor
        · intro hall j b₀ hj
          by_cases hjk : j = k
          · have := hall j b (by rw [hjk, StateDb.obj_set_self])
            rwa [hq, ← hjk, hj] at this
          · exact hall j b₀ ((StateDb.obj_set_of_ne hjk).trans hj)
        · intro hall j b₀ hj
          rw [StateDb.obj_set] at hj
          split_ifs at hj with hjk
          · cases hj
            rw [hq]
            rcases ho : p.block.obj k with - | b₁
            · simp
            · exact hall k b₁ ho
          · exact hall j b₀ hj
    rw [heq, hcpu]
    exact h.resolve_right fun hn => hn hq
  · have heq : p.setBlock k b =
        SchedPiece.stateChangeIfNeeded { p with block := p.block.set k b } := by
      rw [setBlock]
      exact if_neg hq
    rw [heq, stateChangeIfNeeded_eq]
    rfl

/-! ### What the operations keep -/

theorem partition_setBlock (h : p.Partition) (hk : p.block.obj k = some b)
    (hr : b'.totfile_range = b.totfile_range) : (p.setBlock k b').Partition := by
  have hblk : (p.setBlock k b').blockRange = p.blockRange := by
    funext j
    rw [blockRange, blockRange, block_setBlock, StateDb.obj_set]
    split_ifs with hj
    · rw [hj, hk, Option.map_some, Option.map_some, hr]
    · rfl
  rw [Partition, hblk, totfile_range_setBlock, isavail_inval_setBlock, nevereq_inval_setBlock]
  exact h

theorem classified_setBlock (h : p.Classified allowed) (hk : p.block.obj k = some b')
    (hs : b.Settled) (hw : b.bt_io_write = true → b.pending_req_db = [] ∧ b.expired_req_db = []) :
    (p.setBlock k b).Classified allowed := by
  refine ⟨?_, ?_, .inl (state_setBlock (.inl (h.settled hk)))⟩
  · intro j b₀ hj
    rw [block_setBlock, StateDb.obj_set] at hj
    split_ifs at hj
    · cases hj
      exact hs
    · exact h.block hj
  · intro j b₀ hj
    rw [block_setBlock, StateDb.obj_set] at hj
    split_ifs at hj
    · cases hj
      exact hw
    · exact h.writing hj

/-- The constructor partitions the bytes of the piece, when the data available is its own. -/
theorem partition_ctor {m : Mfile} {idx : ℕ} {isavail : FileSizeInval}
    (h : ∀ x, x ∈ isavail → x ∈ pieceidxToTotfileRange m idx) :
    (ctor m idx isavail).Partition := by
  have hinit := BytePartition.init h
  unfold Partition ctor
  simp only []
  split_ifs
  · exact hinit
  · exact hinit

@[simp] theorem pieceidx_ctor {m : Mfile} {idx : ℕ} {isavail : FileSizeInval} :
    (ctor m idx isavail).pieceidx = idx := by
  unfold ctor
  simp only []
  split_ifs <;> rfl

@[simp] theorem totfile_range_ctor {m : Mfile} {idx : ℕ} {isavail : FileSizeInval} :
    (ctor m idx isavail).totfile_range = pieceidxToTotfileRange m idx := by
  unfold ctor
  simp only []
  split_ifs <;> rfl

@[simp] theorem block_ctor {m : Mfile} {idx : ℕ} {isavail : FileSizeInval} :
    (ctor m idx isavail).block = .empty := by
  unfold ctor
  simp only []
  split_ifs <;> rfl

@[simp] theorem isavail_inval_ctor {m : Mfile} {idx : ℕ} {isavail : FileSizeInval} :
    (ctor m idx isavail).isavail_inval = isavail := by
  unfold ctor
  simp only []
  split_ifs <;> rfl

@[simp] theorem nevereq_inval_ctor {m : Mfile} {idx : ℕ} {isavail : FileSizeInval} :
    (ctor m idx isavail).nevereq_inval =
      (FileSizeInval.ofItem (pieceidxToTotfileRange m idx).toInvalItem).sub isavail := by
  unfold ctor
  simp only []
  split_ifs <;> rfl

@[simp] theorem state_cur_ctor {m : Mfile} {idx : ℕ} {isavail : FileSizeInval} :
    (ctor m idx isavail).state_cur = some .doNeedreq := rfl

theorem stateCpu_ctor_eq_doNeedreq {m : Mfile} {idx : ℕ} {isavail : FileSizeInval} :
    (ctor m idx isavail).stateCpu = .doNeedreq ↔
      ∃ x ∈ pieceidxToTotfileRange m idx, x ∉ isavail := by
  rw [stateCpu_eq_doNeedreq, block_do_needreq_db, block_ctor, nevereq_inval_ctor,
    StateDb.db_empty, ← Bool.not_eq_true, FileSizeInval.isEmpty_iff]
  simp only [ne_eq, not_true_eq_false, false_or, not_forall, not_not, FileSizeInval.mem_sub,
    FileSizeInval.mem_ofItem, FileRange.toInvalItem_min, FileRange.toInvalItem_max,
    FileRange.mem_def, and_assoc]

/-- The constructor gets the state of the piece right exactly when some byte of it
is not available yet. -/
theorem classified_ctor_iff {m : Mfile} {idx : ℕ} {isavail : FileSizeInval} :
    (ctor m idx isavail).Classified allowed ↔
      allowed ∨ ∃ x ∈ pieceidxToTotfileRange m idx, x ∉ isavail := by
  have hnone : ∀ k b, (ctor m idx isavail).block.obj k ≠ some b := by
    intro k b hk
    rw [block_ctor] at hk
    cases hk
  rw [← stateCpu_ctor_eq_doNeedreq]
  constructor
  · intro h
    rcases h.piece with hp | ⟨ha, -⟩
    · rw [state_cur_ctor] at hp
      exact .inr (Option.some.inj hp).symm
    · exact .inl ha
  · intro h
    refine ⟨fun hk => absurd hk (hnone _ _), fun hk => absurd hk (hnone _ _), ?_⟩
    rw [state_cur_ctor, Option.some.injEq]
    by_cases hcpu : (ctor m idx isavail).stateCpu = .doNeedreq
    · exact .inl hcpu.symm
    · refine .inr ⟨h.resolve_right hcpu, rfl, ?_, ?_⟩
      · rw [stateCpu_eq_doNeedreq, not_or, Bool.not_eq_false] at hcpu
        exact hcpu.2
      · intro k
        rw [block_ctor]
        rfl

theorem clampLen_subset {r : FileRange} {maxlen : ℕ} {hpos : 0 < maxlen} {x : ℕ}
    (hx : x ∈ r.clampLen maxlen hpos) : x ∈ r := by
  unfold FileRange.clampLen at hx
  split_ifs at hx with h
  · rw [FileRange.len] at h
    rw [FileRange.mem_def] at hx ⊢
    simp only [] at hx
    omega
  · exact hx

section GetBlock

variable {cnx : CnxId} {maxlen : ℕ} {hpos : 0 < maxlen} {p' : SchedPiece}

/-- What `get_block_to_request` returns: a candidate of the piece as it is, or a new
block cut out of `nevereq_inval`. -/
theorem getBlockToRequest_cases (h : p.getBlockToRequest cnx maxlen hpos = some (p', k)) :
    (p' = p ∧ k ∈ p.doNeedreqCand cnx) ∨
    (∃ r : FileRange, r.beg = k ∧ (∀ x, x ∈ r → x ∈ p.nevereq_inval) ∧
      p' = SchedPiece.setBlock { p with nevereq_inval := p.nevereq_inval.subItem r.toInvalItem } k
        (SchedBlock.ctor r)) := by
  unfold getBlockToRequest at h
  rcases hc : p.getBlockDoNeedreq cnx with - | k'
  · rw [hc] at h
    rcases hf : p.nevereq_inval.first? with - | item
    · simp only [hf] at h
      cases h
    · simp only [hf, Option.some.injEq, Prod.mk.injEq] at h
      obtain ⟨rfl, rfl⟩ := h
      refine .inr ⟨_, rfl, ?_, rfl⟩
      intro x hx
      exact FileSizeInval.mem_of_first? hf (clampLen_subset hx)
  · simp only [hc, Option.some.injEq, Prod.mk.injEq] at h
    obtain ⟨rfl, rfl⟩ := h
    exact .inl ⟨rfl, mem_of_firstLeast hc⟩

theorem mem_doNeedreqCand : k ∈ p.doNeedreqCand cnx ↔
    ∃ b, p.block.obj k = some b ∧ b.state_cur = some .doNeedreq ∧ b.isReqedBy cnx = false := by
  simp only [doNeedreqCand, List.mem_filter, Option.any_eq_true, Bool.not_eq_true']
  constructor
  · rintro ⟨hk, b, hb, hreq⟩
    exact ⟨b, hb, (StateDb.mem_db_of_obj hb).1 hk, hreq⟩
  · rintro ⟨b, hb, hs, hreq⟩
    exact ⟨(StateDb.mem_db_of_obj hb).2 hs, b, hb, hreq⟩

/-- A new block takes a key which no block had. -/
theorem obj_none_of_nevereq (hP : p.Partition) {r : FileRange}
    (hr : ∀ x, x ∈ r → x ∈ p.nevereq_inval) : p.block.obj r.beg = none := by
  by_contra hn
  obtain ⟨b, hb⟩ := Option.ne_none_iff_exists'.1 hn
  have hk : p.blockRange r.beg = some b.totfile_range := by rw [blockRange, hb, Option.map_some]
  refine hP.block_nevereq hk ?_ (hr _ r.beg_mem)
  rw [← hP.beg hk]
  exact b.totfile_range.beg_mem

theorem partition_getBlockToRequest (hP : p.Partition)
    (h : p.getBlockToRequest cnx maxlen hpos = some (p', k)) : p'.Partition := by
  rcases getBlockToRequest_cases h with ⟨rfl, -⟩ | ⟨r, rfl, hr, rfl⟩
  · exact hP
  · have hcut := BytePartition.cut hP hr
    rw [Partition, totfile_range_setBlock, isavail_inval_setBlock, nevereq_inval_setBlock]
    have hblk : (SchedPiece.setBlock { p with
        nevereq_inval := p.nevereq_inval.subItem r.toInvalItem } r.beg
        (SchedBlock.ctor r)).blockRange = fun j => if j = r.beg then some r else p.blockRange j := by
      funext j
      rw [blockRange, block_setBlock, StateDb.obj_set]
      split_ifs <;> rfl
    rw [hblk]
    exact hcut

theorem classified_getBlockToRequest (hP : p.Partition) (hC : p.Classified allowed)
    (h : p.getBlockToRequest cnx maxlen hpos = some (p', k)) : p'.Classified allowed := by
  rcases getBlockToRequest_cases h with ⟨rfl, -⟩ | ⟨r, rfl, hr, rfl⟩
  · exact hC
  · refine ⟨?_, ?_, ?_⟩
    · intro j b hj
      rw [block_setBlock, StateDb.obj_set] at hj
      split_ifs at hj
      · cases hj
        rfl
      · exact hC.block hj
    · intro j b hj hw
      rw [block_setBlock, StateDb.obj_set] at hj
      split_ifs at hj
      · cases hj
        cases hw
      · exact hC.writing hj hw
    · left
      apply state_setBlock
      right
      rw [obj_none_of_nevereq hP hr]
      simp [SchedBlock.ctor]

/-- The block returned is in `do_needreq`, without a request of the connection. -/
theorem block_getBlockToRequest (h : p.getBlockToRequest cnx maxlen hpos = some (p', k)) :
    ∃ b, p'.block.obj k = some b ∧ b.state_cur = some .doNeedreq ∧ b.isReqedBy cnx = false := by
  rcases getBlockToRequest_cases h with ⟨rfl, hk⟩ | ⟨r, rfl, hr, rfl⟩
  · exact mem_doNeedreqCand.1 hk
  · exact ⟨SchedBlock.ctor r, by rw [block_setBlock, StateDb.obj_set_self], rfl, rfl⟩

/-- The blocks there were are untouched; a new one has no request. -/
theorem obj_getBlockToRequest (hP : p.Partition)
    (h : p.getBlockToRequest cnx maxlen hpos = some (p', k)) (j : ℕ) :
    p'.block.obj j = p.block.obj j ∨
      (p.block.obj j = none ∧ ∃ r, p'.block.obj j = some (SchedBlock.ctor r)) := by
  rcases getBlockToRequest_cases h with ⟨rfl, -⟩ | ⟨r, rfl, hr, rfl⟩
  · exact .inl rfl
  · rw [block_setBlock, StateDb.obj_set]
    split_ifs with hj
    · right
      rw [hj]
      exact ⟨obj_none_of_nevereq hP hr, r, rfl⟩
    · exact .inl rfl

theorem pieceidx_getBlockToRequest (h : p.getBlockToRequest cnx maxlen hpos = some (p', k)) :
    p'.pieceidx = p.pieceidx ∧ p'.totfile_range = p.totfile_range := by
  rcases getBlockToRequest_cases h with ⟨rfl, -⟩ | ⟨r, rfl, hr, rfl⟩
  · exact ⟨rfl, rfl⟩
  · exact ⟨pieceidx_setBlock, totfile_range_setBlock⟩

/-- A piece which may be requested does give a block. -/
theorem getBlockToRequest_isSome (hpos : 0 < maxlen) :
    (p.getBlockToRequest cnx maxlen hpos).isSome = p.mayRequestBlockThru cnx := by
  unfold getBlockToRequest mayRequestBlockThru
  rcases p.getBlockDoNeedreq cnx with - | k'
  · rcases hn : p.nevereq_inval.isEmpty
    · have := FileSizeInval.first?_isSome hn
      rcases hf : p.nevereq_inval.first? with - | item
      · rw [hf] at this
        cases this
      · simp
    · simp [FileSizeInval.first?_eq_none hn]
  · simp

end GetBlock

/-! ### The end of a block -/

@[simp] theorem obj_unlinkBlock (j : ℕ) : (p.unlinkBlock k).block.obj j =
    if j = k then (p.block.obj k).map (fun b => { b with state_cur := none })
    else p.block.obj j :=
  obj_updateBlock j

theorem block_notifyBlockCompletion (r : FileRange) :
    (p.notifyBlockCompletion r).block = p.block := by
  unfold notifyBlockCompletion
  simp only []
  split_ifs <;> rfl

theorem obj_eraseBlock (j : ℕ) : (p.eraseBlock k).block.obj j =
    if j = k then none else p.block.obj j := by
  unfold eraseBlock
  simp only [StateDb.obj_erase, obj_unlinkBlock]
  split_ifs <;> rfl

theorem unlinkBlock_of_some (h : p.block.obj k = some b) :
    p.unlinkBlock k = p.setBlock k { b with state_cur := none } :=
  updateBlock_of_some h

/-- The fields of a piece after `notify_block_completion`. -/
theorem notifyBlockCompletion_eq (p : SchedPiece) (r : FileRange) :
    ∃ pp, p.notifyBlockCompletion r =
      { p with isavail_inval := p.isavail_inval.addItem r.toInvalItem, post_process := pp } := by
  unfold notifyBlockCompletion
  simp only []
  split_ifs
  · exact ⟨true, rfl⟩
  · exact ⟨p.post_process, rfl⟩

/-- Erasing a block which is unlinked already leaves the other fields as they are. -/
theorem eraseBlock_of_unlinked (h : p.block.obj k = some b) (hn : b.state_cur = none) :
    ∃ blk : StateDb ℕ SchedBlock.state_cur, p.eraseBlock k = { p with block := blk } := by
  refine ⟨(p.block.set k { b with state_cur := none }).erase k, ?_⟩
  have hset : p.setBlock k { b with state_cur := none } =
      { p with block := p.block.set k { b with state_cur := none } } := by
    rw [setBlock, if_pos]
    rw [h, Option.bind_some, hn]
  unfold eraseBlock
  simp only [unlinkBlock_of_some h, hset]

section Written

variable (h : p.block.obj k = some b)
include h

theorem obj_blockWritten_self :
    (p.blockWritten k).block.obj k = some { b with state_cur := none } := by
  have hw : p.blockWritten k = (p.unlinkBlock k).notifyBlockCompletion b.totfile_range := by
    rw [blockWritten, h]
  rw [hw, block_notifyBlockCompletion, obj_unlinkBlock, if_pos rfl, h]
  rfl

/-- A block which is written and gone: its bytes are available, the rest is untouched. -/
theorem written_fields :
    ((p.blockWritten k).eraseBlock k).totfile_range = p.totfile_range ∧
      ((p.blockWritten k).eraseBlock k).pieceidx = p.pieceidx ∧
      ((p.blockWritten k).eraseBlock k).nevereq_inval = p.nevereq_inval ∧
      ((p.blockWritten k).eraseBlock k).isavail_inval =
        p.isavail_inval.addItem b.totfile_range.toInvalItem ∧
      ((p.blockWritten k).eraseBlock k).state_cur = (p.unlinkBlock k).state_cur := by
  obtain ⟨pp, hn⟩ := notifyBlockCompletion_eq (p.unlinkBlock k) b.totfile_range
  have hw : p.blockWritten k = (p.unlinkBlock k).notifyBlockCompletion b.totfile_range := by
    rw [blockWritten, h]
  obtain ⟨blk, he⟩ := eraseBlock_of_unlinked (obj_blockWritten_self h) rfl
  rw [he, hw, hn, unlinkBlock_of_some h]
  simp

theorem obj_written (j : ℕ) : ((p.blockWritten k).eraseBlock k).block.obj j =
    if j = k then none else p.block.obj j := by
  have hw : p.blockWritten k = (p.unlinkBlock k).notifyBlockCompletion b.totfile_range := by
    rw [blockWritten, h]
  rw [obj_eraseBlock, hw, block_notifyBlockCompletion, obj_unlinkBlock]
  split_ifs <;> rfl

theorem partition_written (hP : p.Partition) : ((p.blockWritten k).eraseBlock k).Partition := by
  obtain ⟨hrange, -, hnev, hav, -⟩ := written_fields h
  have hk : p.blockRange k = some b.totfile_range := by rw [blockRange, h, Option.map_some]
  have hblk : ((p.blockWritten k).eraseBlock k).blockRange =
      fun j => if j = k then none else p.blockRange j := by
    funext j
    rw [blockRange, obj_written h]
    split_ifs <;> rfl
  rw [Partition, hrange, hnev, hav, hblk]
  exact BytePartition.complete hP hk

/-- What is left of a piece once its block `k` is gone, whatever else was done to it: the
piece computed its state when the block was unlinked. -/
theorem classified_drop {p' : SchedPiece} (hC : p.Classified allowed)
    (hobj : ∀ j, p'.block.obj j = if j = k then none else p.block.obj j)
    (hnev : p'.nevereq_inval = p.nevereq_inval)
    (hst : p'.state_cur = (p.unlinkBlock k).state_cur) : p'.Classified allowed := by
  refine ⟨?_, ?_, ?_⟩
  · intro j b₀ hj
    rw [hobj] at hj
    split_ifs at hj
    exact hC.block hj
  · intro j b₀ hj
    rw [hobj] at hj
    split_ifs at hj
    exact hC.writing hj
  · have hun : (p.unlinkBlock k).state_cur = some (p.unlinkBlock k).stateCpu := by
      rw [unlinkBlock_of_some h]
      exact state_setBlock (.inl (hC.settled h))
    left
    rw [hst, hun, Option.some.injEq]
    symm
    apply stateCpu_congr
    · rw [hnev, unlinkBlock_of_some h, nevereq_inval_setBlock]
    · rw [StateDb.db_eq_nil, StateDb.db_eq_nil]
      constructor
      · intro hall j b₀ hj
        rw [obj_unlinkBlock] at hj
        split_ifs at hj with hjk
        · rw [h] at hj
          cases hj
          simp
        · exact hall j b₀ ((hobj j).trans ((if_neg hjk).trans hj))
      · intro hall j b₀ hj
        rw [hobj] at hj
        split_ifs at hj with hjk
        exact hall j b₀ ((obj_unlinkBlock j).trans ((if_neg hjk).trans hj))

theorem classified_written (hC : p.Classified allowed) :
    ((p.blockWritten k).eraseBlock k).Classified allowed := by
  obtain ⟨-, -, hnev, -, hst⟩ := written_fields h
  exact classified_drop h hC (obj_written h) hnev hst

/-- A block which is gone, its bytes with it. -/
theorem eraseBlock_fields :
    (p.eraseBlock k).pieceidx = p.pieceidx ∧ (p.eraseBlock k).totfile_range = p.totfile_range ∧
      (p.eraseBlock k).nevereq_inval = p.nevereq_inval ∧
      (p.eraseBlock k).state_cur = (p.unlinkBlock k).state_cur := by
  have he : p.eraseBlock k = { p.unlinkBlock k with block := (p.unlinkBlock k).block.erase k } := rfl
  rw [he, unlinkBlock_of_some h]
  simp

theorem classified_eraseBlock (hC : p.Classified allowed) :
    (p.eraseBlock k).Classified allowed := by
  obtain ⟨-, -, hnev, hst⟩ := eraseBlock_fields h
  exact classified_drop h hC obj_eraseBlock hnev hst

end Written

end SchedPiece

end Neoip
