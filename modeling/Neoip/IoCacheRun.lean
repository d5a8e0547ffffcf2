/-
Neoip/IoCacheRun.lean

Whole runs of the io cache.

Main results: in a run of orderly steps the clean blocks are on disk and dropping
one loses no write (`clean_on_disk`), and what callers are told is what a byte
store would have told them (`refines_run`).  Without orderly steps both fail: a
block which is written again while it is being cleaned is declared clean too
early, and a forwarded write which covers a part of a block leaves the block.
-/
import Neoip.IoCacheSubio

namespace Neoip.IoCache

variable {κ : Type} {cfg : Setup κ}

namespace Pool

variable [DecidableEq κ]
variable {s s' : Pool cfg} {p op w x : ℕ} {b : Block cfg} {o : Op cfg} {wr : SubioWrite κ} {c : κ}
  {k : Ret κ}

namespace Coherent

/-! ### Steps and runs -/

theorem handle (h : s.Coherent) (hctl : s.ctl = .idle) {e : Event cfg} (hg : s.Orderly e) :
    (s.handle e).Coherent := by
  cases e with
  | read_ctor c range inside =>
    exact h.opCtor hctl range inside _ fun _ heq => by cases heq
  | write_ctor c range inside data =>
    rw [Pool.handle]
    split_ifs with hthru
    · have hremoved := h.blockRemoveIncludedIn hctl hthru range
      have hctl' : (s.blockRemoveIncludedIn c range).ctl = .idle := by
        rw [Sound.blockRemoveIncludedIn_ctl, hctl]
      exact hremoved.forward hctl' range data
    · exact h.opCtor hctl range inside _ fun _ _ => Bool.eq_false_iff.2 hthru
  | zerotimer op => exact h.zerotimer hctl op
  | subio_read op => exact h.subioRead hctl op
  | blkrd_cb op bt_err => exact h.blkrdCb hctl op bt_err
  | subio_write w => exact h.subioWrite hctl hg
  | subio_write_cb w bt_err => exact h.subioWriteCb hctl bt_err
  | cleaning_timeout c =>
    exact h.setCtl (h.toSound.handle hctl (.cleaning_timeout c)) (.inl (chunk_of_idle hctl))
      fun _ _ heq => by cases heq
  | stopping_ctor c =>
    refine h.frame (h.toSound.handle hctl (.stopping_ctor c)) rfl rfl rfl rfl
      (List.suffix_refl _) rfl (le_refl _)
      (fun p hf => absurd hf (not_filling (chunk_of_idle hctl)))
      (fun op o ho => (h.ops op o ho).mono (le_refl _) (List.suffix_refl _) fun _ _ _ _ => rfl)
      (fun op datum _ heq => ?_) h.refines
    have heq : s.ctl = .newBlock op datum := heq
    rw [hctl] at heq
    cases heq
  | resume => exact h

theorem resume (h : s.Coherent) (hfits : ∀ b : Block cfg, b.range.len ≤ cfg.pool_maxlen)
    (hg : s.Orderly .resume) : s.resume.Coherent := by
  unfold Pool.resume
  cases hctl : s.ctl with
  | idle => exact h
  | launchNextChunk op => exact h.launchNextChunk hctl hg
  | newBlock op datum =>
    rw [Orderly, hctl] at hg
    exact h.newBlock hctl hg
  | shrinkIfNeeded k => exact h.shrinkIfNeeded hctl hfits
  | startBlkwr c off k => exact h.startBlkwr hctl hg
  | ret k =>
    cases k with
    | chunkPostProcess op p => exact h.chunkPostProcess hctl
    | startBlkwrAll c => exact h.startBlkwrAll hctl
    | notifyBlkwrCompletion c => exact h.notifyBlkwrCompletion hctl

theorem step (h : s.Coherent) (hfits : ∀ b : Block cfg, b.range.len ≤ cfg.pool_maxlen)
    {e : Event cfg} (hg : s.Orderly e) : (s.step e).Coherent := by
  unfold Pool.step
  split
  next hctl => exact h.handle hctl hg
  next => exact h.resume hfits hg
  next => exact h

end Coherent

theorem coherent_init (cfg : Setup κ) : (init cfg).Coherent where
  toSound := sound_init cfg
  blocks _ _ h := by cases h
  blkwrs _ _ h := by cases h
  distinct _ _ _ _ _ h := by cases h
  subio_lt _ _ h := by cases h
  thrus _ _ h := by cases h
  ops _ _ h := by cases h
  pending _ _ _ h := by cases h
  uncovered _ _ _ := rfl
  refines := trivial

/-- Where each block fits in the pool, a run of orderly steps is coherent throughout. -/
theorem coherent_run (hfits : ∀ c off h,
      (blockRangeFor (cfg.totfile_size c) off h).len ≤ cfg.pool_maxlen) {evs : List (Event cfg)}
    (hg : Guarded Pool.step Orderly (init cfg) evs) : Always Pool.step Coherent (init cfg) evs := by
  have hfits : ∀ b : Block cfg, b.range.len ≤ cfg.pool_maxlen := by
    intro b
    obtain ⟨off, h, hrange⟩ := b.aligned
    rw [hrange]
    exact hfits b.io_cache off h
  exact hg.always (fun s e h he => h.step hfits he) (coherent_init cfg)

/-! ### Clean blocks -/

/-- Each clean block has the bytes that the sub-io holds, but for one that the running handler is
about to overwrite. -/
def CleanOnDisk (s : Pool cfg) : Prop :=
  ∀ p b, s.heap p = some b → b.state = .CLEAN → ¬s.Filling p →
    ∀ x ∈ b.range, b.datum x = s.disk b.io_cache x

/-- Where a cache has no block, or no longer has one, the sub-io has what was written. -/
def NothingLost (s : Pool cfg) : Prop :=
  ∀ c x, (∀ p b, s.heap p = some b → b.io_cache = c → x ∉ b.range) →
    s.disk c x = content cfg s.log c x

/-- **Clean blocks are on disk**, and dropping one loses no write, in every state of an orderly
run. -/
theorem clean_on_disk (hfits : ∀ c off h,
      (blockRangeFor (cfg.totfile_size c) off h).len ≤ cfg.pool_maxlen) (evs : List (Event cfg))
    (hg : Guarded Pool.step Orderly (init cfg) evs) :
    Always Pool.step (fun s => s.CleanOnDisk ∧ s.NothingLost) (init cfg) evs := by
  refine (coherent_run hfits hg).mono fun s h => ⟨?_, h.uncovered⟩
  intro p b hb hstate hnot
  exact (h.blocks p b hb).clean hstate hnot

/-- The byte `0` of a file of one byte is written and the block is cleaned. -/
def writeAndClean : List (Event (smallSetup 1 false)) :=
  [.write_ctor () ⟨0, 0, first_le⟩ Nat.one_pos (fun _ => 1), .zerotimer 0, .resume, .resume,
    .resume, .resume, .cleaning_timeout (), .resume, .resume, .resume]

theorem clean_on_disk_writeAndClean :
    Always Pool.step (fun s => s.CleanOnDisk ∧ s.NothingLost) (init (smallSetup 1 false))
      (writeAndClean ++ [.subio_write 2, .subio_write_cb 2 .OK, .resume, .resume]) :=
  clean_on_disk (smallSetup_fits 1 false) _ (by decide)

/-- The block is written and cleaned again while the first block write of it is on the way,
which then is done. -/
def cleanTwice : List (Event (smallSetup 1 false)) :=
  writeAndClean ++
    [.write_ctor () ⟨0, 0, first_le⟩ Nat.one_pos (fun _ => 2), .zerotimer 3, .resume, .resume,
      .cleaning_timeout (), .resume, .resume, .resume, .subio_write 2, .subio_write_cb 2 .OK]

/-- The first block write declares clean what only the second one wrote. -/
theorem not_clean_on_disk_cleanTwice :
    ¬Always Pool.step CleanOnDisk (init (smallSetup 1 false)) cleanTwice := by
  intro h
  have heq := h.run 1 _ rfl rfl (not_filling rfl) 0 (by decide)
  exact absurd heq (by decide)

/-! ### Reads after writes -/

/-- A read which is asked after the last write of a byte returns the byte written. -/
def ReadsLatest (log : List (Entry κ)) : Prop :=
  ∀ op c range data l, .read op c range data .OK :: l <:+ log →
    ∀ x ∈ range, ∀ w range' data' l₁ l₂, l = l₁ ++ .wrote w c range' data' :: l₂ → x ∈ range' →
      (∀ w'' range'' data'', .wrote w'' c range'' data'' ∈ l₁ → x ∉ range'') →
      .asked op ∈ l₁ → .asked op ∉ l₂ → data x = data' x

theorem refines_tail {e : Entry κ} {log : List (Entry κ)} (h : Refines cfg (e :: log)) :
    Refines cfg log := by
  cases e with
  | asked op => exact h
  | wrote op c range data => exact h
  | written op c range data bt_err =>
    cases bt_err with
    | OK => exact h.2
    | ERROR => exact h
  | read op c range data bt_err =>
    cases bt_err with
    | OK => exact h.2
    | ERROR => exact h
  | stopped c bt_err => exact h

theorem refines_suffix {l log : List (Entry κ)} (hl : l <:+ log) (h : Refines cfg log) :
    Refines cfg l := by
  induction log with
  | nil =>
    obtain rfl := List.suffix_nil.1 hl
    exact h
  | cons e log ih =>
    rcases List.suffix_cons_iff.1 hl with rfl | hl
    · exact h
    · exact ih hl (refines_tail h)

/-- Entries which do not write the byte leave it as it was. -/
theorem content_append {l log : List (Entry κ)}
    (hl : ∀ w range data, .wrote w c range data ∈ l → x ∉ range) :
    content cfg (l ++ log) c x = content cfg log c x := by
  induction l with
  | nil => rfl
  | cons e l ih =>
    have ih := ih fun w range data hmem => hl w range data (List.mem_cons_of_mem _ hmem)
    rw [List.cons_append]
    cases e with
    | wrote w c' range data =>
      rw [content_wrote, if_neg, ih]
      rintro ⟨rfl, hx⟩
      exact hl w range data (List.mem_cons_self ..) hx
    | asked op => exact ih
    | written op c range data bt_err => exact ih
    | read op c range data bt_err => exact ih
    | stopped c bt_err => exact ih

theorem readsLatest_of_refines {log : List (Entry κ)} (h : Refines cfg log) :
    ReadsLatest log := by
  intro op c range data l hl x hx w range' data' l₁ l₂ hsplit hx' hlast hasked hbefore
  obtain ⟨l', hl', hasked', hbyte⟩ := (refines_suffix hl h).1 x hx
  have hwrote : .wrote w c range' data' :: l₂ <:+ l := by
    rw [hsplit]
    exact List.suffix_append ..
  rcases List.suffix_or_suffix_of_suffix hl' hwrote with hold | ⟨t, ht⟩
  · -- at that moment the read was asked, so the byte was written
    rcases List.mem_cons.1 (hold.subset hasked') with heq | hmem
    · cases heq
    · exact absurd hmem hbefore
  · obtain ⟨u, hu⟩ := hl'
    have ht₁ : u ++ t = l₁ := by
      rw [← ht, hsplit, ← List.append_assoc] at hu
      exact List.append_cancel_right hu
    rw [← hbyte, ← ht, content_append, content_wrote, if_pos ⟨rfl, hx'⟩]
    intro w'' range'' data'' hmem
    exact hlast w'' range'' data'' (ht₁ ▸ List.mem_append_right u hmem)

/-- **Reads after writes**: in every state of an orderly run, what callers were told is what a
byte store would have told them. -/
theorem refines_run (hfits : ∀ c off h,
      (blockRangeFor (cfg.totfile_size c) off h).len ≤ cfg.pool_maxlen) (evs : List (Event cfg))
    (hg : Guarded Pool.step Orderly (init cfg) evs) :
    Always Pool.step (fun s => Refines cfg s.log ∧ ReadsLatest s.log) (init cfg) evs :=
  (coherent_run hfits hg).mono fun _ h => ⟨h.refines, readsLatest_of_refines h.refines⟩

/-- The byte is read again, before its block write reaches the sub-io. -/
theorem refines_writeAndRead :
    Always Pool.step (fun s => Refines (smallSetup 1 false) s.log ∧ ReadsLatest s.log)
      (init (smallSetup 1 false))
      (writeAndClean ++ [.read_ctor () ⟨0, 0, le_refl 0⟩ Nat.one_pos, .zerotimer 3, .resume,
        .resume, .subio_write 2, .subio_write_cb 2 .OK]) :=
  refines_run (smallSetup_fits 1 false) _ (by decide)

/-- A file of two bytes is read, the byte `0` is written, and read again. -/
def writeThruOnBlock : List (Event (smallSetup 2 true)) :=
  [.read_ctor () ⟨0, 1, first_le_second⟩ (by decide), .zerotimer 0, .resume, .subio_read 0,
    .blkrd_cb 0 .OK, .resume, .resume, .resume,
    .write_ctor () ⟨0, 0, first_le⟩ (by decide) (fun _ => 7), .subio_write 2,
    .subio_write_cb 2 .OK, .read_ctor () ⟨0, 0, first_le⟩ (by decide), .zerotimer 3, .resume,
    .resume]

theorem log_writeThruOnBlock : ∃ data data₀,
    (run Pool.step (init (smallSetup 2 true)) writeThruOnBlock).log =
      [.read 3 () ⟨0, 0, le_refl 0⟩ data .OK, .asked 3,
        .written 2 () ⟨0, 0, le_refl 0⟩ (fun _ => 7) .OK, .wrote 2 () ⟨0, 0, le_refl 0⟩ (fun _ => 7),
        .asked 2, .read 0 () ⟨0, 1, Nat.zero_le 1⟩ data₀ .OK, .asked 0] ∧ data 0 = 0 :=
  ⟨_, _, rfl, by decide⟩

/-- The forwarded write leaves the block, of which it writes a part only. -/
theorem not_refines_writeThruOnBlock :
    ¬Always Pool.step (fun s => Refines (smallSetup 2 true) s.log) (init (smallSetup 2 true))
      writeThruOnBlock := by
  obtain ⟨data, data₀, hlog, hzero⟩ := log_writeThruOnBlock
  apply not_always_of_run
  rw [hlog]
  rintro ⟨hread, -⟩
  obtain ⟨l, hl, hasked, hbyte⟩ := hread 0 (by decide)
  rcases List.suffix_cons_iff.1 hl with rfl | hl
  · -- when the read was asked, the byte in the store was the one written
    rw [hzero] at hbyte
    have hbyte : (7 : UInt8) = 0 := hbyte
    exact absurd hbyte (by decide)
  · have hmem := hl.subset hasked
    simp at hmem

end Pool

end Neoip.IoCache
