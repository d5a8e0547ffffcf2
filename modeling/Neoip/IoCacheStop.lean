/-
Neoip/IoCacheStop.lean

Stopping an io cache: `bt_io_cache_stopping_t`.

The stopping object waits for the block writes which are on the way, and then
notifies its caller.  It starts none itself, so a block which is dirty when the
last of them is done is still dirty when success is notified.

`StopReady` says that while the handler of the last block write runs, the cache
which is being stopped has no dirty block.

Main result: when no block of a cache is dirty as its last block write is done,
success is notified only when all its blocks are clean and the sub-io holds all
that was written (`stops_clean_run`).
-/
import Neoip.IoCacheRun

namespace Neoip.IoCache

variable {κ : Type} {cfg : Setup κ}

/-- The cache whose stopping object is looked at when the running handler ends. -/
def Ret.notifies : Ret κ → Option κ
  | .notifyBlkwrCompletion c => some c
  | _ => none

def Ctl.notifies : Ctl κ → Option κ
  | .shrinkIfNeeded k => k.notifies
  | .startBlkwr _ _ k => k.notifies
  | .ret k => k.notifies
  | _ => none

namespace Pool

variable [DecidableEq κ] {s s' : Pool cfg} {p w off : ℕ} {b : Block cfg} {c : κ} {k : Ret κ}
  {e : Event cfg}

/-- While a cache is being stopped, its last block write is done only when none of its blocks is
dirty. -/
def Drained (s : Pool cfg) : Event cfg → Prop
  | .subio_write_cb w _ =>
    ∀ wr ∈ s.subio_db.get w, wr.blkwr = true → s.stopping_db wr.io_cache = true →
      (∀ e ∈ s.subio_db.item, e.2.blkwr = true → e.2.io_cache = wr.io_cache → e.1 = w) →
      ∀ p ∈ s.block_lru, ∀ b ∈ s.heap p, b.io_cache = wr.io_cache → b.state ≠ .DIRTY
  | _ => True

instance (s : Pool cfg) : (e : Event cfg) → Decidable (s.Drained e)
  | .subio_write_cb w _ =>
    inferInstanceAs (Decidable (∀ wr ∈ s.subio_db.get w, wr.blkwr = true →
      s.stopping_db wr.io_cache = true →
      (∀ e ∈ s.subio_db.item, e.2.blkwr = true → e.2.io_cache = wr.io_cache → e.1 = w) →
      ∀ p ∈ s.block_lru, ∀ b ∈ s.heap p, b.io_cache = wr.io_cache → b.state ≠ .DIRTY))
  | .read_ctor .. | .write_ctor .. | .zerotimer _ | .subio_read _ | .blkrd_cb ..
  | .subio_write _ | .cleaning_timeout _ | .stopping_ctor _ | .resume => .isTrue trivial

/-- A handler which is about to look at the stopping object leaves no dirty block behind. -/
def StopReady (s : Pool cfg) : Prop :=
  ∀ c, s.ctl.notifies = some c → s.stopping_db c = true → s.blkwrDbEmpty c = true →
    ∀ p b, s.heap p = some b → b.io_cache = c → b.state ≠ .DIRTY

/-- When the step notifies the success of stopping a cache, all blocks of the cache are clean, and
its sub-io has the bytes of all that was written. -/
def StopsClean (s : Pool cfg) : Event cfg → Prop
  | .resume =>
    match s.ctl with
    | .ret (.notifyBlkwrCompletion c) =>
      s.stoppingNotify c = some .OK →
        (∀ p b, s.heap p = some b → b.io_cache = c → b.state = .CLEAN) ∧
          s.disk c = content cfg s.log c ∧ Refines cfg s.log
    | _ => True
  | _ => True

theorem StopReady.of_none (h : s.ctl.notifies = none) : s.StopReady := by
  intro c hc
  rw [h] at hc
  cases hc

theorem stopsClean_resume (h : s.StopsClean .resume) (hctl : s.ctl = .ret (.notifyBlkwrCompletion c))
    (hnotify : s.stoppingNotify c = some .OK) (hb : s.heap p = some b) (hc : b.io_cache = c) :
    b.state = .CLEAN := by
  unfold StopsClean at h
  rw [hctl] at h
  exact (h hnotify).1 p b hb hc

theorem blkwrDbEmpty_iff : s.blkwrDbEmpty c = true ↔
    ∀ w wr, s.subio_db.get w = some wr → wr.blkwr = true → wr.io_cache ≠ c := by
  unfold blkwrDbEmpty
  rw [List.all_eq_true]
  constructor
  · intro hall w wr hw hblkwr hc
    have hno := hall (w, wr) (KeyedDb.mem_item_iff.2 hw)
    simp [hblkwr, hc] at hno
  · rintro hall ⟨w, wr⟩ hmem
    have hno := hall w wr (KeyedDb.mem_item_iff.1 hmem)
    cases hblkwr : wr.blkwr with
    | false => simp
    | true => simp [hno hblkwr]

/-! ### One step -/

/-- Fewer dirty blocks and more block writes do no harm. -/
theorem StopReady.of_fewer (h : s.StopReady) (hctl : s'.ctl.notifies = s.ctl.notifies)
    (hstop : s'.stopping_db = s.stopping_db)
    (hempty : ∀ c, s'.blkwrDbEmpty c = true → s.blkwrDbEmpty c = true)
    (hheap : ∀ p b, s'.heap p = some b → b.state = .DIRTY → s.heap p = some b) :
    s'.StopReady := by
  intro c hc hs he p b hb hbc hdirty
  rw [hctl] at hc
  rw [hstop] at hs
  exact h c hc hs (hempty c he) p b (hheap p b hb hdirty) hbc hdirty

theorem stopReady_shrinkIfNeeded (h : s.StopReady) (hctl : s.ctl = .shrinkIfNeeded k) :
    (s.shrinkIfNeeded k).StopReady := by
  have hk : s.ctl.notifies = k.notifies := by rw [hctl, Ctl.notifies]
  have hleave : ∀ k' : Ctl κ, k'.notifies = k.notifies → StopReady { s with ctl := k' } :=
    fun k' hk' => h.of_fewer (hk'.trans hk.symm) rfl (fun _ he => he) fun _ _ hb _ => hb
  unfold Pool.shrinkIfNeeded
  split_ifs
  · exact hleave (.ret k) rfl
  · split
    next => exact hleave (.ret k) rfl
    next q _ =>
      cases hb : s.heap q with
      | none => exact hleave (.ret k) rfl
      | some b =>
        dsimp only
        cases b.state with
        | DIRTY => exact hleave (.startBlkwr b.io_cache b.range.beg k) rfl
        | CLEANING => exact hleave (.ret k) rfl
        | CLEAN =>
          simp only [blockDtor, hb]
          refine h.of_fewer rfl rfl (fun _ he => he) fun p b' hb' _ => ?_
          have hb' : Function.update s.heap q none p = some b' := hb'
          rw [Function.update_apply] at hb'
          split_ifs at hb'
          exact hb'

theorem stopReady_startBlkwr (hcoh : s.Coherent) (h : s.StopReady)
    (hctl : s.ctl = .startBlkwr c off k) :
    StopReady { s.startBlkwr c off with ctl := .ret k } := by
  have hk : s.ctl.notifies = k.notifies := by rw [hctl, Ctl.notifies]
  unfold Pool.startBlkwr
  split
  · exact h.of_fewer hk.symm rfl (fun _ he => he) fun _ _ hb _ => hb
  · refine h.of_fewer hk.symm rfl (fun c' he => ?_) fun p b hb hdirty => ?_
    · rw [blkwrDbEmpty_iff] at he ⊢
      exact fun w wr hw => he w wr (hcoh.get_push_of_get hw)
    · -- the blocks which are written are not dirty any more
      have hb : (if p ∈ s.blockDirtyContiguous c off then (s.heap p).map Block.notifyCleaning
        else s.heap p) = some b := hb
      split_ifs at hb
      · obtain ⟨b', -, rfl⟩ := Option.map_eq_some_iff.1 hb
        cases hdirty
      · exact hb

theorem stopReady_subioWriteCb (hcoh : s.Coherent) (hctl : s.ctl = .idle) {bt_err : BtErr}
    (hg : s.Drained (.subio_write_cb w bt_err)) : (s.subioWriteCb w bt_err).StopReady := by
  have hidle : s.ctl.notifies = none := by
    rw [hctl]
    rfl
  unfold Pool.subioWriteCb
  cases hw : s.subio_db.get w with
  | none => exact StopReady.of_none hidle
  | some wr =>
    dsimp only
    split_ifs with hearly hblkwr
    · exact StopReady.of_none hidle
    · -- no dirty block when this is the last block write of a cache being stopped
      have hready : ∀ c, some wr.io_cache = some c → s.stopping_db c = true →
          (∀ w' wr', (s.subio_db.erase w).get w' = some wr' → wr'.blkwr = true →
            wr'.io_cache ≠ c) →
          ∀ p b, s.heap p = some b → b.io_cache = c → b.state ≠ .DIRTY := by
        intro c hc hstop hlast p b hb hbc
        obtain rfl := Option.some.inj hc
        refine hg wr hw hblkwr hstop (fun e he hb' hc' => ?_) p ((hcoh.mem_lru p).2 ⟨b, hb⟩) b hb
          hbc
        by_contra hne
        refine hlast e.1 e.2 ?_ hb' hc'
        rw [KeyedDb.get_erase, if_neg hne]
        exact KeyedDb.mem_item_iff.1 he
      cases bt_err with
      | ERROR => exact fun c hc hstop he => hready c hc hstop (blkwrDbEmpty_iff.1 he)
      | OK =>
        intro c hc hstop he p b hb hbc hdirty
        have hb : (if p ∈ s.blockFullyIncludedIn wr.io_cache wr.range then
          (s.heap p).map Block.notifyCleaned else s.heap p) = some b := hb
        split_ifs at hb
        · obtain ⟨b', hb', rfl⟩ := Option.map_eq_some_iff.1 hb
          unfold Block.notifyCleaned at hbc hdirty
          split_ifs at hbc hdirty
          exact hready c hc hstop (blkwrDbEmpty_iff.1 he) p b' hb' hbc hdirty
        · exact hready c hc hstop (blkwrDbEmpty_iff.1 he) p b hb hbc hdirty
    · exact StopReady.of_none hidle

/-- Only the callback of a sub-io write starts a handler which looks at the stopping object. -/
theorem stopReady_handle (hcoh : s.Coherent) (hctl : s.ctl = .idle) (hg : s.Drained e) :
    (s.handle e).StopReady := by
  have hidle : s.ctl.notifies = none := by
    rw [hctl]
    rfl
  -- only the answer of a write can end a stop; no other event notifies one
  cases e with
  | subio_write_cb w bt_err => exact stopReady_subioWriteCb hcoh hctl hg
  | read_ctor c range inside => exact StopReady.of_none hidle
  | write_ctor c range inside data =>
    rw [Pool.handle]
    split_ifs
    · apply StopReady.of_none
      show (s.blockRemoveIncludedIn c range).ctl.notifies = none
      rw [Sound.blockRemoveIncludedIn_ctl, hidle]
    · exact StopReady.of_none hidle
  | zerotimer op =>
    apply StopReady.of_none
    unfold Pool.handle Pool.zerotimer
    dsimp only
    split
    · exact hidle
    · split
      · rfl
      · exact hidle
  | subio_read op =>
    apply StopReady.of_none
    unfold Pool.handle Pool.subioRead
    dsimp only
    split
    · exact hidle
    · split
      · exact hidle
      · exact hidle
  | blkrd_cb op bt_err =>
    apply StopReady.of_none
    unfold Pool.handle Pool.blkrdCb
    dsimp only
    split
    · exact hidle
    · split
      · rfl
      · rfl
      · exact hidle
  | subio_write w =>
    apply StopReady.of_none
    unfold Pool.handle Pool.subioWrite
    dsimp only
    split
    · exact hidle
    · split
      · exact hidle
      · exact hidle
  | cleaning_timeout c => exact StopReady.of_none rfl
  | stopping_ctor c => exact StopReady.of_none hidle
  | resume => exact StopReady.of_none hidle

omit [DecidableEq κ] in
theorem notifies_launchNextChunk (s : Pool cfg) (op : ℕ) :
    (s.launchNextChunk op).ctl.notifies = none := by
  unfold Pool.launchNextChunk
  split
  · rfl
  · split
    · rfl
    · split_ifs
      · rfl
      · rfl

theorem notifies_newBlock (s : Pool cfg) (op : ℕ) (datum : Bytes) :
    (s.newBlock op datum).ctl.notifies = none := by
  unfold Pool.newBlock
  split
  · rfl
  · rfl

omit [DecidableEq κ] in
theorem notifies_chunkPostProcess (s : Pool cfg) (op p : ℕ) :
    (s.chunkPostProcess op p).ctl.notifies = none := by
  unfold Pool.chunkPostProcess
  split
  · rfl
  · split
    · unfold Pool.readChunk
      split
      · rfl
      · dsimp only
        split
        · rfl
        · rfl
    · split_ifs
      · rfl
      · unfold Pool.writeChunk
        split
        · rfl
        · dsimp only
          split
          · rfl
          · rfl

omit [DecidableEq κ] in
theorem notifies_startBlkwrAll (s : Pool cfg) (c : κ) :
    (s.startBlkwrAll c).ctl.notifies = none := by
  unfold Pool.startBlkwrAll
  split
  · rfl
  · rfl

theorem notifies_notifyBlkwrCompletion (s : Pool cfg) (c : κ) :
    (s.notifyBlkwrCompletion c).ctl.notifies = none := by
  unfold Pool.notifyBlkwrCompletion
  split
  · rfl
  · rfl

theorem stopReady_resume (hcoh : s.Coherent) (h : s.StopReady) : s.resume.StopReady := by
  unfold Pool.resume
  cases hctl : s.ctl with
  | idle => exact h
  | launchNextChunk op => exact StopReady.of_none (notifies_launchNextChunk s op)
  | newBlock op datum => exact StopReady.of_none (notifies_newBlock s op datum)
  | shrinkIfNeeded k => exact stopReady_shrinkIfNeeded h hctl
  | startBlkwr c off k => exact stopReady_startBlkwr hcoh h hctl
  | ret k =>
    cases k with
    | chunkPostProcess op p => exact StopReady.of_none (notifies_chunkPostProcess s op p)
    | startBlkwrAll c => exact StopReady.of_none (notifies_startBlkwrAll s c)
    | notifyBlkwrCompletion c => exact StopReady.of_none (notifies_notifyBlkwrCompletion s c)

theorem stopReady_step (hcoh : s.Coherent) (h : s.StopReady) (hg : s.Drained e) :
    (s.step e).StopReady := by
  unfold Pool.step
  split
  next hctl => exact stopReady_handle hcoh hctl hg
  next => exact stopReady_resume hcoh h
  next => exact h

theorem stopsClean_of_coherent (hcoh : s.Coherent) (h : s.StopReady) : s.StopsClean e := by
  cases e with
  | resume =>
    unfold StopsClean
    dsimp only
    split
    next c hctl =>
      intro hnotify
      unfold stoppingNotify at hnotify
      split_ifs at hnotify with hdone
      obtain ⟨hstop, hempty⟩ := Bool.and_eq_true_iff.1 hdone
      have herr := Option.some.inj hnotify
      have hclean : ∀ p b, s.heap p = some b → b.io_cache = c → b.state = .CLEAN := by
        intro p b hb hc
        cases hstate : b.state with
        | CLEAN => rfl
        | DIRTY =>
          refine absurd hstate (h c ?_ hstop hempty p b hb hc)
          rw [hctl]
          rfl
        | CLEANING =>
          -- its block write is on the way, or has failed
          rcases (hcoh.blocks p b hb).cleaning hstate with hfailed | ⟨w, wr, hw, hblkwr, hwc, -⟩
          · rw [hc, herr] at hfailed
            cases hfailed
          · exact absurd (hwc.trans hc) (blkwrDbEmpty_iff.1 hempty w wr hw hblkwr)
      refine ⟨hclean, funext fun x => ?_, hcoh.refines⟩
      by_cases hcovered : ∃ p b, s.heap p = some b ∧ b.io_cache = c ∧ x ∈ b.range
      · obtain ⟨p, b, hb, rfl, hx⟩ := hcovered
        have hnot : ¬s.Filling p := by
          apply not_filling
          rw [hctl]
          rfl
        have hok := hcoh.blocks p b hb
        rw [← hok.clean (hclean p b hb rfl) hnot x hx, hok.stored hnot x hx]
      · refine hcoh.uncovered c x fun p b hb hc hx => ?_
        exact hcovered ⟨p, b, hb, hc, hx⟩
    next => trivial
  | _ => trivial

/-! ### Runs -/

theorem stopsClean_of_guarded {s : Pool cfg} {evs : List (Event cfg)}
    (hfits : ∀ b : Block cfg, b.range.len ≤ cfg.pool_maxlen) (hcoh : s.Coherent)
    (h : s.StopReady) (hg : Guarded Pool.step (fun s e => s.Orderly e ∧ s.Drained e) s evs) :
    Guarded Pool.step StopsClean s evs := by
  induction evs generalizing s with
  | nil => trivial
  | cons e evs ih =>
    obtain ⟨⟨hord, hdrained⟩, hg⟩ := hg
    exact ⟨stopsClean_of_coherent hcoh h,
      ih (hcoh.step hfits hord) (stopReady_step hcoh h hdrained) hg⟩

/-- **Stopping**: in an orderly run in which the caches which are stopped are drained, the success
of stopping a cache is notified only when its blocks are clean and nothing that was written to it
is missing in its sub-io. -/
theorem stops_clean_run (hfits : ∀ c off h,
      (blockRangeFor (cfg.totfile_size c) off h).len ≤ cfg.pool_maxlen) (evs : List (Event cfg))
    (hg : Guarded Pool.step (fun s e => s.Orderly e ∧ s.Drained e) (init cfg) evs) :
    Guarded Pool.step StopsClean (init cfg) evs := by
  refine stopsClean_of_guarded (fun b => ?_) (coherent_init cfg) (StopReady.of_none rfl) hg
  obtain ⟨off, h, hrange⟩ := b.aligned
  rw [hrange]
  exact hfits b.io_cache off h

/-- The cache is stopped once the block write of all its bytes is on the way. -/
theorem stops_clean_writeAndClean :
    Guarded Pool.step StopsClean (init (smallSetup 1 false))
      (writeAndClean ++
        [.stopping_ctor (), .subio_write 2, .subio_write_cb 2 .OK, .resume, .resume]) :=
  stops_clean_run (smallSetup_fits 1 false) _ (by decide)

/-- The cache is stopped while its block, which is written again, is dirty. -/
def dirtyAtStop : List (Event (smallSetup 1 false)) :=
  writeAndClean ++
    [.write_ctor () ⟨0, 0, first_le⟩ Nat.one_pos (fun _ => 2), .zerotimer 3, .resume, .resume,
      .stopping_ctor (), .subio_write 2, .subio_write_cb 2 .OK, .resume]

theorem run_dirtyAtStop : ∃ b, (run Pool.step (init (smallSetup 1 false)) dirtyAtStop).heap 1 =
    some b ∧ b.state = .DIRTY :=
  ⟨_, rfl, rfl⟩

/-- Success is notified, and the block is still dirty. -/
theorem not_stops_clean_dirtyAtStop :
    ¬Guarded Pool.step StopsClean (init (smallSetup 1 false)) (dirtyAtStop ++ [.resume]) := by
  intro h
  obtain ⟨b, hb, hdirty⟩ := run_dirtyAtStop
  have hstate := stopsClean_resume (guarded_append.1 h).2.1 rfl (by decide) hb rfl
  rw [hdirty] at hstate
  cases hstate

end Pool

end Neoip.IoCache
