/-
Neoip/IoCacheBlocks.lean

The blocks of the io cache stay coherent: they are created and evicted, a block
write takes their bytes, reads and writes go through them chunk by chunk.

* a clean block can be dropped (`Coherent.blockDtor`), and one is created with
  the bytes of the sub-io, or to be overwritten (`Coherent.newBlock`);
* a block write takes dirty blocks, which it marks (`Coherent.startBlkwr`);
* a chunk is read from the store, or written to it
  (`Coherent.chunkPostProcess`).
-/
import Neoip.IoCacheStore

namespace Neoip.IoCache

variable {κ : Type} {cfg : Setup κ}

namespace Pool

variable [DecidableEq κ]
variable {s s' : Pool cfg} {p op w x : ℕ} {b : Block cfg} {o : Op cfg} {wr : SubioWrite κ} {c : κ}
  {k : Ret κ}

namespace Coherent

/-! ### Blocks come and go -/

/-- The handler goes on, with the same block. -/
theorem setCtl (h : s.Coherent) {k : Ctl κ} (hs : Sound { s with ctl := k })
    (hchunk : s.ctl.chunk = none ∨ k.chunk = s.ctl.chunk)
    (hk : ∀ op datum, k ≠ .newBlock op datum) : Coherent { s with ctl := k } := by
  refine h.frame hs rfl rfl rfl rfl (List.suffix_refl _) rfl (le_refl _) (fun p hf => ?_)
    (fun op o ho => (h.ops op o ho).mono (le_refl _) (List.suffix_refl _) fun _ _ _ _ => rfl)
    (fun op datum _ hnew => absurd hnew (hk op datum)) h.refines
  rcases hchunk with hnone | hsame
  · exact absurd hf (not_filling hnone)
  · exact hf.of_eq hsame rfl rfl

/-- A clean block can be dropped, unless it is being filled. -/
theorem blockDtor (h : s.Coherent) (hp : s.heap p = some b) (hclean : b.state = .CLEAN)
    (hnot : ¬s.Filling p) (hs : (s.blockDtor p).Sound) : (s.blockDtor p).Coherent := by
  rw [Pool.blockDtor, hp] at hs ⊢
  dsimp only at hs ⊢
  have hheap : ∀ q b', Function.update s.heap p none q = some b' → q ≠ p ∧ s.heap q = some b' := by
    intro q b' hq
    rw [Function.update_apply] at hq
    split_ifs at hq with heq
    exact ⟨heq, hq⟩
  have hheap' : ∀ q b', q ≠ p → s.heap q = some b' →
      Function.update s.heap p none q = some b' := by
    intro q b' hne hq
    rw [Function.update_of_ne hne, hq]
  constructor
  · exact hs
  · intro q b' hq
    have hok := h.blocks q b' (hheap q b' hq).2
    exact hok.congr (Filling.of_eq rfl rfl rfl) (fun _ _ => rfl) (fun _ _ => rfl) hok.cleaning
  · intro w wr hw hblkwr
    obtain ⟨hover, hcovered, hperformed⟩ := h.blkwrs w wr hw hblkwr
    refine ⟨fun q b' x hq => hover q b' x (hheap q b' hq).2, fun x hx => ?_, hperformed⟩
    obtain ⟨q, b', hq, hc, hin⟩ := hcovered x hx
    refine ⟨q, b', hheap' q b' ?_ hq, hc, hin⟩
    -- a block under a block write is not clean
    rintro rfl
    rw [hp] at hq
    obtain rfl := Option.some.inj hq
    exact (hover q b x hp hc hin hx).2.1 hclean
  · exact h.distinct
  · exact h.subio_lt
  · exact h.thrus
  · exact fun op o ho =>
      (h.ops op o ho).mono (le_refl _) (List.suffix_refl _) fun _ _ _ _ => rfl
  · exact h.pending
  · intro c x hnone
    by_cases hin : b.io_cache = c ∧ x ∈ b.range
    · obtain ⟨rfl, hx⟩ := hin
      have hok := h.blocks p b hp
      exact (hok.clean hclean hnot x hx).symm.trans (hok.stored hnot x hx)
    · refine h.uncovered c x fun q b' hq hc hx => ?_
      by_cases heq : q = p
      · rw [heq, hp] at hq
        obtain rfl := Option.some.inj hq
        exact hin ⟨hc, hx⟩
      · exact hnone q b' (hheap' q b' heq hq) hc hx
  · exact h.refines

theorem shrinkIfNeeded (h : s.Coherent) (hctl : s.ctl = .shrinkIfNeeded k)
    (hfits : ∀ b : Block cfg, b.range.len ≤ cfg.pool_maxlen) : (s.shrinkIfNeeded k).Coherent := by
  have hsound := h.toSound.shrinkIfNeeded hctl hfits
  have hchunk : s.ctl.chunk = k.chunk := by rw [hctl, Ctl.chunk]
  unfold Pool.shrinkIfNeeded at hsound ⊢
  split_ifs at hsound ⊢ with hlen
  · exact h.setCtl hsound (.inr hchunk.symm) fun _ _ heq => by cases heq
  · cases hlast : s.block_lru.getLast? with
    | none =>
      rw [hlast] at hsound
      exact h.setCtl hsound (.inr hchunk.symm) fun _ _ heq => by cases heq
    | some q =>
      cases hb : s.heap q with
      | none =>
        simp only [hlast, hb] at hsound ⊢
        exact h.setCtl hsound (.inr hchunk.symm) fun _ _ heq => by cases heq
      | some b =>
        simp only [hlast, hb] at hsound ⊢
        cases hstate : b.state with
        | DIRTY =>
          rw [hstate] at hsound
          exact h.setCtl hsound (.inr hchunk.symm) fun _ _ heq => by cases heq
        | CLEANING =>
          rw [hstate] at hsound
          exact h.setCtl hsound (.inr hchunk.symm) fun _ _ heq => by cases heq
        | CLEAN =>
          rw [hstate] at hsound
          refine h.blockDtor hb hstate ?_ hsound
          -- the block of the handler is there when the evicted one is gone
          rintro ⟨op, o, hop, ho, -⟩
          rw [Pool.blockDtor, hb] at hsound
          obtain ⟨⟨b', hb', -⟩, -⟩ := hsound.handled op q o hop ho
          have hb' : Function.update s.heap q none q = some b' := hb'
          rw [Function.update_self] at hb'
          cases hb'

theorem startBlkwrAll (h : s.Coherent) (hctl : s.ctl = .ret (.startBlkwrAll c)) :
    (s.startBlkwrAll c).Coherent := by
  have hnone : s.ctl.chunk = none := by
    rw [hctl]
    rfl
  have hsound := h.toSound.startBlkwrAll c
  unfold Pool.startBlkwrAll at hsound ⊢
  split
  next heq =>
    rw [heq] at hsound
    exact h.setCtl hsound (.inl hnone) fun _ _ heq => by cases heq
  next heq =>
    rw [heq] at hsound
    exact h.setCtl hsound (.inl hnone) fun _ _ heq => by cases heq

theorem notifyBlkwrCompletion (h : s.Coherent)
    (hctl : s.ctl = .ret (.notifyBlkwrCompletion c)) : (s.notifyBlkwrCompletion c).Coherent := by
  have hnone : s.ctl.chunk = none := by
    rw [hctl]
    rfl
  have hsound := h.toSound.notifyBlkwrCompletion c
  unfold Pool.notifyBlkwrCompletion at hsound ⊢
  cases hnotify : s.stoppingNotify c with
  | none =>
    rw [hnotify] at hsound
    exact h.setCtl hsound (.inl hnone) fun _ _ heq => by cases heq
  | some bt_err =>
    rw [hnotify] at hsound
    exact h.frame hsound rfl rfl rfl rfl (List.suffix_cons ..) rfl (le_refl _)
      (fun p hf => absurd hf (not_filling hnone))
      (fun op o ho => (h.ops op o ho).mono (le_refl _) (List.suffix_cons ..) fun _ _ _ _ => rfl)
      (fun _ _ _ hnew => by cases hnew) h.refines

/-- Where a block is about to be created, there is none. -/
theorem not_mem_of_free (h : s.Coherent)
    (hfree : (s.block_db o.io_cache)[o.blockRange.last]? = none) (hx : x ∈ o.blockRange)
    (hp : s.heap p = some b) (hc : b.io_cache = o.io_cache) : x ∉ b.range := by
  intro hxb
  obtain ⟨hlt, hb⟩ := b.range_eq hxb
  obtain ⟨hlt', ho⟩ := blockRangeFor_of_mem hx
  have hrange : b.range = o.blockRange := by
    rw [hb, Op.blockRange, ho]
    simp only [hc]
  have hdb := (h.held b.io_cache b.range.last p).2 ⟨b, hp, rfl, rfl⟩
  rw [hc, hrange, hfree] at hdb
  cases hdb

theorem newBlock (h : s.Coherent) {datum : Bytes} (hctl : s.ctl = .newBlock op datum)
    (hfree : ∀ o, s.op_db op = some o → (s.block_db o.io_cache)[o.blockRange.last]? = none) :
    (s.newBlock op datum).Coherent := by
  have hnone : s.ctl.chunk = none := by
    rw [hctl]
    rfl
  have hsound := h.toSound.newBlock hfree datum
  unfold Pool.newBlock at hsound ⊢
  cases ho : s.op_db op with
  | none =>
    simp only [ho] at hsound ⊢
    exact h.setCtl hsound (.inl hnone) fun _ _ heq => by cases heq
  | some o =>
    simp only [ho] at hsound ⊢
    have hfree := hfree o ho
    have hpending := h.pending op datum o hctl ho
    have hheap : ∀ q b', Function.update s.heap s.next (some (o.newBlock datum)) q = some b' →
        (q = s.next ∧ o.newBlock datum = b') ∨ s.heap q = some b' := by
      intro q b' hq
      rw [Function.update_apply] at hq
      split_ifs at hq with heq
      · exact .inl ⟨heq, Option.some.inj hq⟩
      · exact .inr hq
    have hheap' : ∀ q b', s.heap q = some b' →
        Function.update s.heap s.next (some (o.newBlock datum)) q = some b' := by
      intro q b' hq
      rw [Function.update_of_ne (h.heap_lt q b' hq).ne, hq]
    constructor
    · exact hsound
    · intro q b' hq
      rcases hheap q b' hq with ⟨rfl, rfl⟩ | hq
      · -- the new block: it has the bytes of the sub-io, or it is about to be overwritten
        have hdatum : ¬Filling { s.blockCtor (o.newBlock datum) with
            ctl := .shrinkIfNeeded (.chunkPostProcess op s.next) } s.next →
            ∀ x ∈ o.blockRange, datum x = s.disk o.io_cache x := by
          intro hnot
          rcases hpending with hdatum | ⟨hover, hok⟩
          · exact hdatum
          · exact absurd ⟨op, o, rfl, ho, hover, hok⟩ hnot
        refine ⟨fun _ hnot => hdatum hnot, fun hnot x hx => ?_, fun _ => rfl,
          fun hstate => by cases hstate⟩
        refine (hdatum hnot x hx).trans (h.uncovered o.io_cache x fun p b hp hc => ?_)
        exact h.not_mem_of_free hfree hx hp hc
      · have hok := h.blocks q b' hq
        exact hok.congr (fun hf => absurd hf (not_filling hnone)) (fun _ _ => rfl)
          (fun _ _ => rfl) hok.cleaning
    · intro w wr hw hblkwr
      obtain ⟨hover, hcovered, hperformed⟩ := h.blkwrs w wr hw hblkwr
      refine ⟨fun q b' x hq hc hin hx => ?_, fun x hx => ?_, hperformed⟩
      · rcases hheap q b' hq with ⟨rfl, rfl⟩ | hq
        · -- a block write covers blocks which are there
          obtain ⟨p, b, hp, hc', hin'⟩ := hcovered x hx
          exact absurd hin' (h.not_mem_of_free hfree hin hp (hc'.trans hc.symm))
        · exact hover q b' x hq hc hin hx
      · obtain ⟨q, b', hq, hrest⟩ := hcovered x hx
        exact ⟨q, b', hheap' q b' hq, hrest⟩
    · exact h.distinct
    · exact fun w wr hw => (h.subio_lt w wr hw).trans (Nat.lt_succ_self _)
    · exact h.thrus
    · exact fun op o ho =>
        (h.ops op o ho).mono (Nat.le_succ _) (List.suffix_refl _) fun _ _ _ _ => rfl
    · intro _ _ _ hnew
      cases hnew
    · exact fun c x hnot => h.uncovered c x fun q b' hq => hnot q b' (hheap' q b' hq)
    · exact h.refines

/-! ### Block writes -/

theorem get_push_subio (h : s.Coherent) (wr : SubioWrite κ) (w : ℕ) :
    (s.subio_db.push s.next wr).get w = if w = s.next then some wr else s.subio_db.get w := by
  rw [KeyedDb.push]
  apply KeyedDb.get_link
  by_contra hne
  obtain ⟨wr', hw⟩ := Option.ne_none_iff_exists'.1 hne
  exact lt_irrefl _ (h.subio_lt _ wr' hw)

theorem get_push_cases (h : s.Coherent) {wr wr' : SubioWrite κ}
    (hw : (s.subio_db.push s.next wr').get w = some wr) :
    (w = s.next ∧ wr' = wr) ∨ s.subio_db.get w = some wr := by
  rw [h.get_push_subio] at hw
  split_ifs at hw with heq
  · exact .inl ⟨heq, Option.some.inj hw⟩
  · exact .inr hw

theorem get_push_of_get (h : s.Coherent) {wr wr' : SubioWrite κ}
    (hw : s.subio_db.get w = some wr) : (s.subio_db.push s.next wr').get w = some wr := by
  rw [h.get_push_subio, if_neg (h.subio_lt w wr hw).ne, hw]

theorem startBlkwr (h : s.Coherent) {off : ℕ} (hctl : s.ctl = .startBlkwr c off k)
    (hg : s.Orderly .resume) : Coherent { s.startBlkwr c off with ctl := .ret k } := by
  have hsound := h.toSound.startBlkwr hctl
  have hchunk : s.ctl.chunk = k.chunk := by rw [hctl, Ctl.chunk]
  rcases h.held.startBlkwr_cases c off with heq | ⟨range, data, hrange, heq, hrun, hcovered⟩
  · rw [heq] at hsound ⊢
    exact h.setCtl hsound (.inr hchunk.symm) fun _ _ heq => by cases heq
  · rw [heq] at hsound ⊢
    dsimp only at hsound ⊢
    have hdistinct : ∀ w wr, s.subio_db.get w = some wr → wr.blkwr = true → wr.io_cache = c →
        range.isDistinct wr.range = true := by
      intro w wr hw hblkwr hc
      rw [Orderly, hctl] at hg
      exact hg range hrange (w, wr) (KeyedDb.mem_item_iff.2 hw) hblkwr hc
    -- a block is one of those which are written, or as before
    have hheap : ∀ q b', (if q ∈ s.blockDirtyContiguous c off then
          (s.heap q).map Block.notifyCleaning else s.heap q) = some b' →
        (q ∈ s.blockDirtyContiguous c off ∧ ∃ b, s.heap q = some b ∧ b.io_cache = c ∧
          b.state = .DIRTY ∧ range.fullyInclude b.range = true ∧
          (∀ x ∈ b.range, data x = b.datum x) ∧ b' = b.notifyCleaning) ∨
        s.heap q = some b' := by
      intro q b' hq
      split_ifs at hq with hin
      · obtain ⟨b, hb, hc, hdirty, hinc, hdata⟩ := hrun q hin
        rw [hb, Option.map_some] at hq
        exact .inl ⟨hin, b, hb, hc, hdirty, hinc, hdata, (Option.some.inj hq).symm⟩
      · exact .inr hq
    have hheap' : ∀ q b, s.heap q = some b → ∃ b', (if q ∈ s.blockDirtyContiguous c off then
          (s.heap q).map Block.notifyCleaning else s.heap q) = some b' ∧
        b'.io_cache = b.io_cache ∧ b'.range = b.range := by
      intro q b hb
      split_ifs
      · exact ⟨b.notifyCleaning, by rw [hb, Option.map_some], rfl, rfl⟩
      · exact ⟨b, hb, rfl, rfl⟩
    have hfill : ∀ q, s.Filling q → Filling
        { s with
          next := s.next + 1
          heap := fun q => if q ∈ s.blockDirtyContiguous c off then
            (s.heap q).map Block.notifyCleaning else s.heap q
          subio_db := s.subio_db.push s.next ⟨c, range, data, true, false⟩
          ctl := .ret k } q := fun q hf => hf.of_eq hchunk.symm rfl rfl
    constructor
    · exact hsound
    · intro q b' hq
      rcases hheap q b' hq with ⟨-, b, hb, hc, hdirty, hinc, hdata, rfl⟩ | hb
      · have hok := h.blocks q b hb
        refine ⟨(fun hstate => by cases hstate),
          fun hnot => hok.stored fun hf => hnot (hfill q hf), fun hthru => ?_, fun _ => .inr ?_⟩
        · rw [hok.thru hthru] at hdirty
          cases hdirty
        · refine ⟨s.next, ⟨c, range, data, true, false⟩, ?_, rfl, hc.symm, hinc⟩
          rw [h.get_push_subio, if_pos rfl]
      · have hok := h.blocks q b' hb
        refine hok.congr (hfill q) (fun _ _ => rfl) (fun _ _ => rfl) fun hstate => ?_
        rcases hok.cleaning hstate with herr | ⟨w, wr, hw, hrest⟩
        · exact .inl herr
        · exact .inr ⟨w, wr, h.get_push_of_get hw, hrest⟩
    · intro w wr hw hblkwr
      rcases h.get_push_cases hw with ⟨rfl, rfl⟩ | hw
      · refine ⟨fun q b' x hq hc hin hx => ?_, fun x hx => ?_, fun hperf => by cases hperf⟩
        · -- the blocks with offsets of the range are those which are written
          obtain ⟨p, hp, b, hb, hxb⟩ := hcovered x hx
          obtain ⟨b₀, hb₀, hc₀, -⟩ := hrun p hp
          rw [hb] at hb₀
          obtain rfl := Option.some.inj hb₀
          rcases hheap q b' hq with ⟨-, b'', hb'', hc'', hdirty, hinc, hdata, rfl⟩ | hb'
          · exact ⟨hinc, (fun hstate => by cases hstate), fun _ y hy => (hdata y hy).symm⟩
          · obtain rfl := h.held.eq_of_mem hb' hb (hc.trans hc₀.symm) hin hxb
            have hq : (if q ∈ s.blockDirtyContiguous c off then
              (s.heap q).map Block.notifyCleaning else s.heap q) = some b' := hq
            obtain ⟨b₁, hb₁, hc₁, hdirty, hinc, hdata⟩ := hrun q hp
            rw [if_pos hp, hb₁, Option.map_some] at hq
            obtain rfl := Option.some.inj hq
            exact ⟨hinc, (fun hstate => by cases hstate), fun _ y hy => (hdata y hy).symm⟩
        · obtain ⟨p, hp, b, hb, hxb⟩ := hcovered x hx
          obtain ⟨b₀, hb₀, hc₀, -⟩ := hrun p hp
          rw [hb] at hb₀
          obtain rfl := Option.some.inj hb₀
          obtain ⟨b', hb', hc', hr'⟩ := hheap' p b hb
          exact ⟨p, b', hb', hc'.trans hc₀, hr' ▸ hxb⟩
      · obtain ⟨hover, hcov, hperformed⟩ := h.blkwrs w wr hw hblkwr
        refine ⟨fun q b' x hq hc hin hx => ?_, fun x hx => ?_, hperformed⟩
        · rcases hheap q b' hq with ⟨-, b, hb, hbc, hdirty, hinc, hdata, rfl⟩ | hb
          · -- the block writes on the way are apart from the new one
            have hd := hdistinct w wr hw hblkwr (hc.symm.trans hbc)
            exact absurd hx (FileRange.isDistinct_iff.1 hd x
              (FileRange.fullyInclude_iff.1 hinc x hin))
          · exact hover q b' x hb hc hin hx
        · obtain ⟨q, b, hb, hc, hin⟩ := hcov x hx
          obtain ⟨b', hb', hc', hr'⟩ := hheap' q b hb
          exact ⟨q, b', hb', hc'.trans hc, hr' ▸ hin⟩
    · intro w w' wr wr' x hw hw' hblkwr hblkwr' hc hx hx'
      rcases h.get_push_cases hw with ⟨rfl, rfl⟩ | hw <;>
        rcases h.get_push_cases hw' with ⟨rfl, rfl⟩ | hw'
      · rfl
      · exact absurd hx'
          (FileRange.isDistinct_iff.1 (hdistinct w' wr' hw' hblkwr' hc.symm) x hx)
      · exact absurd hx
          (FileRange.isDistinct_iff.1 (hdistinct w wr hw hblkwr hc) x hx')
      · exact h.distinct w w' wr wr' x hw hw' hblkwr hblkwr' hc hx hx'
    · intro w wr hw
      rcases h.get_push_cases hw with ⟨rfl, -⟩ | hw
      · exact Nat.lt_succ_self _
      · exact (h.subio_lt w wr hw).trans (Nat.lt_succ_self _)
    · intro w wr hw hthru
      rcases h.get_push_cases hw with ⟨-, rfl⟩ | hw
      · cases hthru
      · exact h.thrus w wr hw hthru
    · exact fun op o ho =>
        (h.ops op o ho).mono (Nat.le_succ _) (List.suffix_refl _) fun _ _ _ _ => rfl
    · intro _ _ _ hnew
      cases hnew
    · intro c' x hnot
      refine h.uncovered c' x fun q b hb hc hx => ?_
      obtain ⟨b', hb', hc', hr'⟩ := hheap' q b hb
      exact hnot q b' hb' (hc'.trans hc) (hr' ▸ hx)
    · exact h.refines

end Coherent

/-! ### Chunks -/

omit [DecidableEq κ] in
theorem advance_eq_some {o' : Op cfg} {job : Job} {n : ℕ} (h : o.advance job n = some o') :
    ∃ hlt, o' =
      { o with job := job, done_len := o.done_len + n, done_lt := hlt, phase := .handled } := by
  unfold Op.advance at h
  split_ifs at h with hlt
  exact ⟨hlt, (Option.some.inj h).symm⟩

omit [DecidableEq κ] in
theorem advance_eq_none {job : Job} {n : ℕ} (h : o.advance job n = none) :
    o.totfile_range.len ≤ o.done_len + n := by
  unfold Op.advance at h
  split_ifs at h with hlt
  exact Nat.not_lt.1 hlt

theorem memcpy_self {dst src : Bytes} {r : FileRange} :
    memcpy dst r.beg src r.beg r.len x = if x ∈ r then src x else dst x := by
  have hle := r.le
  unfold memcpy
  by_cases hx : x ∈ r
  · obtain ⟨hlo, hhi⟩ := FileRange.mem_def.1 hx
    rw [if_pos hx, if_pos ⟨hlo, by rw [FileRange.len]; omega⟩]
    congr 1
    omega
  · rw [if_neg hx, if_neg]
    rintro ⟨hlo, hhi⟩
    rw [FileRange.len] at hhi
    exact hx ⟨hlo, by omega⟩

omit [DecidableEq κ] in
/-- The bytes of a chunk are those of the block from the chunk on. -/
theorem chunk_bounds {common : FileRange}
    (hgrid : o.done_len = 0 ∨ BLOCK_ALIGN_SIZE ∣ o.chunkBeg) (hin : o.chunkBeg ∈ b.range)
    (hcommon : b.range.clampedBy o.totfile_range = some common) :
    common.beg = o.chunkBeg ∧ common.last = min b.range.last o.totfile_range.last ∧
      ∀ x ∈ common, x ∈ b.range := by
  obtain ⟨hbeg, hlast⟩ := FileRange.clampedBy_eq_some hcommon
  obtain ⟨hlo, hhi⟩ := FileRange.mem_def.1 hin
  obtain ⟨hlo', hhi'⟩ := FileRange.mem_def.1 o.chunkBeg_mem
  refine ⟨?_, hlast, fun x hx => ?_⟩
  · rcases hgrid with hzero | hdvd
    · have heq : o.chunkBeg = o.totfile_range.beg := by rw [Op.chunkBeg, hzero, Nat.add_zero]
      omega
    · -- on the grid, the chunk begins with the block
      obtain ⟨off, hoff, hrange⟩ := b.aligned
      have hdvd' : BLOCK_ALIGN_SIZE ∣ b.range.beg := hrange ▸ dvd_blockRangeFor_beg
      have hlen : b.range.len ≤ BLOCK_MAXLEN := hrange ▸ len_blockRangeFor_le
      rw [FileRange.len] at hlen
      unfold BLOCK_ALIGN_SIZE at hdvd hdvd'
      unfold BLOCK_MAXLEN at hlen
      omega
  · obtain ⟨hxlo, hxhi⟩ := FileRange.mem_def.1 hx
    exact ⟨by omega, by omega⟩

omit [DecidableEq κ] in
/-- An operation which is not done goes on at the next block. -/
theorem grid_of_advance {o' : Op cfg} {job : Job} {common : FileRange}
    (hc : b.io_cache = o.io_cache) (hbeg : common.beg = o.chunkBeg)
    (hlast : common.last = min b.range.last o.totfile_range.last)
    (h : o.advance job common.len = some o') :
    o'.chunkBeg = common.last + 1 ∧ BLOCK_ALIGN_SIZE ∣ o'.chunkBeg := by
  obtain ⟨hlt, rfl⟩ := advance_eq_some h
  have hle := common.le
  have hle' := o.totfile_range.le
  have hcur : o.chunkBeg = o.totfile_range.beg + o.done_len := rfl
  have hnext : o.totfile_range.beg + (o.done_len + common.len) = common.last + 1 := by
    rw [FileRange.len]
    omega
  have hchunk : o.totfile_range.beg + (o.done_len + common.len) ≤ o.totfile_range.last := by
    have hlen : o.totfile_range.len = o.totfile_range.last - o.totfile_range.beg + 1 := rfl
    omega
  have hend : common.last = b.range.last := by omega
  have hinside := o.inside
  refine ⟨hnext, ?_⟩
  show BLOCK_ALIGN_SIZE ∣ o.totfile_range.beg + (o.done_len + common.len)
  obtain ⟨off, hoff, hrange⟩ := b.aligned
  rw [hnext, hend, hrange]
  apply dvd_blockRangeFor_last
  rw [← hrange, hc]
  omega

namespace Coherent

omit [DecidableEq κ] in
theorem eq_of_filling (hctl : s.ctl = .ret (.chunkPostProcess op p)) (ho : s.op_db op = some o)
    {q : ℕ} (hf : s.Filling q) : q = p ∧ o.overwrites = true := by
  obtain ⟨op', o', hchunk, ho', hover, -⟩ := hf
  rw [hctl, Ctl.chunk, Ret.chunk] at hchunk
  obtain ⟨rfl, rfl⟩ := Prod.mk.inj (Option.some.inj hchunk)
  rw [ho] at ho'
  obtain rfl := Option.some.inj ho'
  exact ⟨rfl, hover⟩

theorem readChunk (h : s.Coherent) (hctl : s.ctl = .ret (.chunkPostProcess op p))
    (ho : s.op_db op = some o) {buffer : Bytes} (hjob : o.job = .read buffer)
    (hsound : (s.readChunk op o buffer p).Sound) : (s.readChunk op o buffer p).Coherent := by
  obtain ⟨b, common, hfound, hb, hc, hin, hcommon⟩ := h.commonRange_eq_some hctl ho
  have hok := h.ops op o ho
  obtain ⟨hbeg, hlast, hsub⟩ := chunk_bounds hok.grid hin hcommon
  have hnot : ∀ q, ¬s.Filling q := by
    intro q hf
    have hover := (eq_of_filling hctl ho hf).2
    rw [Op.overwrites, hjob] at hover
    cases hover
  -- the bytes read so far and those of the block were in the store
  have hseen : ∀ x, o.totfile_range.beg ≤ x → x ≤ common.last → Seen cfg s.log op o.io_cache x
      (memcpy buffer o.chunkBeg b.datum common.beg common.len x) := by
    intro x hlo hhi
    rw [← hbeg, memcpy_self]
    split_ifs with hx
    · refine ⟨s.log, List.suffix_refl _, hok.asked, ?_⟩
      rw [(h.blocks p b hb).stored (hnot p) x (hsub x hx), hc]
    · have hdone := hok.done x hlo (by
        rw [← hbeg]
        by_contra hge
        exact hx ⟨Nat.not_lt.1 hge, hhi⟩)
      rw [hjob] at hdone
      exact hdone
  unfold Pool.readChunk at hsound ⊢
  rw [hfound] at hsound ⊢
  dsimp only at hsound ⊢
  cases hadv : o.advance (.read (memcpy buffer o.chunkBeg b.datum common.beg common.len))
      common.len with
  | some o' =>
    rw [hadv] at hsound
    obtain ⟨hnext, hdvd⟩ := grid_of_advance hc hbeg hlast hadv
    refine h.frame hsound rfl rfl rfl rfl (List.suffix_refl _) rfl (le_refl _)
      (fun q hf => absurd hf (hnot q))
      (h.ops_update (le_refl _) (List.suffix_refl _) rfl rfl ?_)
      (fun _ _ _ hnew => by cases hnew) h.refines
    intro o₁ ho₁
    obtain rfl := Option.some.inj ho₁
    obtain ⟨hlt, rfl⟩ := advance_eq_some hadv
    refine ⟨hok.lt, hok.asked, (fun hwrite => by cases hwrite), .inr hdvd, fun x hlo hhi => ?_,
      fun _ hphase => by cases hphase⟩
    exact hseen x hlo (by omega)
  | none =>
    rw [hadv] at hsound
    have hend := advance_eq_none hadv
    refine h.frame hsound rfl rfl rfl rfl (List.suffix_cons ..) rfl (le_refl _)
      (fun q hf => absurd hf (hnot q))
      (h.ops_update (le_refl _) (List.suffix_cons ..) rfl rfl (fun _ hnone => by cases hnone))
      (fun _ _ _ hnew => by cases hnew) ⟨fun x hx => ?_, h.refines⟩
    obtain ⟨hlo, hhi⟩ := FileRange.mem_def.1 hx
    refine hseen x hlo ?_
    have hle := common.le
    have hcur : o.chunkBeg = o.totfile_range.beg + o.done_len := rfl
    rw [FileRange.len, FileRange.len] at hend
    omega

/-- The bytes of a chunk reach the block, and the store. -/
theorem overwrite (h : s.Coherent) (hctl : s.ctl = .ret (.chunkPostProcess op p))
    (ho : s.op_db op = some o) {data : Bytes} (hjob : o.job = .write data) (hb : s.heap p = some b)
    (hc : b.io_cache = o.io_cache) (hin : o.chunkBeg ∈ b.range) {common : FileRange}
    (hcommon : b.range.clampedBy o.totfile_range = some common) :
    Coherent { s.blockLruUpdate p with
      heap := Function.update s.heap p
        (some (b.notifyWrite (memcpy b.datum common.beg data o.chunkBeg common.len)))
      op_db := Function.update s.op_db op none
      ctl := .idle
      log := .wrote op o.io_cache common data :: s.log } := by
  have hok := h.ops op o ho
  obtain ⟨hbeg, hlast, hsub⟩ := chunk_bounds hok.grid hin hcommon
  have hwt : cfg.write_thru o.io_cache = false := hok.thru (by rw [Op.isWrite, hjob])
  rw [← hbeg]
  have hnotFilling : ∀ q, q ≠ p → ¬s.Filling q := fun q hne hf => hne (eq_of_filling hctl ho hf).1
  -- a block which is about to be overwritten is in the range as a whole
  have hwhole : s.Filling p → ∀ x ∈ b.range, x ∈ common := by
    intro hf x hx
    have hover := (eq_of_filling hctl ho hf).2
    rw [Op.overwrites, hjob, ← Block.range_eq_blockRange hc hin] at hover
    obtain ⟨hlo, hhi⟩ := FileRange.mem_def.1 (FileRange.fullyInclude_iff.1 hover x hx)
    obtain ⟨hcbeg, -⟩ := FileRange.clampedBy_eq_some hcommon
    obtain ⟨hblo, hbhi⟩ := FileRange.mem_def.1 hx
    exact ⟨by omega, by omega⟩
  have hother : ∀ q b', q ≠ p → s.heap q = some b' → b'.io_cache = o.io_cache →
      ∀ x ∈ b'.range, x ∉ common := fun q b' hne hq hc' x hx hx' =>
    hne (h.held.eq_of_mem hq hb (hc'.trans hc.symm) hx (hsub x hx'))
  have hheap : ∀ q b', Function.update s.heap p
      (some (b.notifyWrite (memcpy b.datum common.beg data common.beg common.len))) q = some b' →
      (q = p ∧ b' = b.notifyWrite (memcpy b.datum common.beg data common.beg common.len)) ∨
        q ≠ p ∧ s.heap q = some b' := by
    intro q b' hq
    rw [Function.update_apply] at hq
    split_ifs at hq with heq
    · exact .inl ⟨heq, (Option.some.inj hq).symm⟩
    · exact .inr ⟨heq, hq⟩
  have hheap' : ∀ q b', s.heap q = some b' → ∃ b'', Function.update s.heap p
      (some (b.notifyWrite (memcpy b.datum common.beg data common.beg common.len))) q = some b'' ∧
      b''.io_cache = b'.io_cache ∧ b''.range = b'.range := by
    intro q b' hq
    by_cases heq : q = p
    · rw [heq, hb] at hq
      obtain rfl := Option.some.inj hq
      exact ⟨b.notifyWrite _, by rw [heq, Function.update_self], rfl, rfl⟩
    · exact ⟨b', by rw [Function.update_of_ne heq, hq], rfl, rfl⟩
  have hcontent : ∀ c x, content cfg (.wrote op o.io_cache common data :: s.log) c x =
      if o.io_cache = c ∧ x ∈ common then data x else content cfg s.log c x := fun _ _ => rfl
  constructor
  · exact
      { toAccounted := h.congr (Sound.place_notifyWrite hb _) rfl
          (h.toSound.blockLruUpdate_perm hb) rfl (le_refl _)
        handled := Handled.of_none rfl }
  · intro q b' hq
    rcases hheap q b' hq with ⟨rfl, rfl⟩ | ⟨hne, hq⟩
    · refine ⟨(fun hstate => by cases hstate), fun _ x hx => ?_, fun hthru => ?_,
        fun hstate => by cases hstate⟩
      · show memcpy b.datum common.beg data common.beg common.len x =
          content cfg (.wrote op o.io_cache common data :: s.log) b.io_cache x
        rw [hcontent, memcpy_self]
        by_cases hxc : x ∈ common
        · rw [if_pos hxc, if_pos ⟨hc.symm, hxc⟩]
        · rw [if_neg hxc, if_neg fun hand => hxc hand.2]
          exact (h.blocks q b hb).stored (fun hf => hxc (hwhole hf x hx)) x hx
      · have hthru : cfg.write_thru b.io_cache = true := hthru
        rw [hc, hwt] at hthru
        cases hthru
    · have hok' := h.blocks q b' hq
      refine hok'.congr (fun hf => absurd hf (hnotFilling q hne)) (fun _ _ => rfl)
        (fun x hx => ?_) hok'.cleaning
      rw [hcontent, if_neg]
      rintro ⟨hc', hxc⟩
      exact hother q b' hne hq hc'.symm x hx hxc
  · intro w wr hw hblkwr
    obtain ⟨hover, hcovered, hperformed⟩ := h.blkwrs w wr hw hblkwr
    refine ⟨fun q b' x hq hc' hin' hx => ?_, fun x hx => ?_, hperformed⟩
    · rcases hheap q b' hq with ⟨rfl, rfl⟩ | ⟨hne, hq⟩
      · exact ⟨(hover q b x hb hc' hin' hx).1, (fun hstate => by cases hstate),
          fun hstate => by cases hstate⟩
      · exact hover q b' x hq hc' hin' hx
    · obtain ⟨q, b', hq, hc', hin'⟩ := hcovered x hx
      obtain ⟨b'', hq', hc'', hr''⟩ := hheap' q b' hq
      exact ⟨q, b'', hq', hc''.trans hc', hr'' ▸ hin'⟩
  · exact h.distinct
  · exact h.subio_lt
  · intro w wr hw hthru
    obtain ⟨hasked, hlanded⟩ := h.thrus w wr hw hthru
    exact ⟨List.mem_cons_of_mem _ hasked,
      fun hperf x hx => (hlanded hperf x hx).mono (List.suffix_cons ..)⟩
  · exact h.ops_update (le_refl _) (List.suffix_cons ..) rfl rfl fun _ hnone => by cases hnone
  · intro _ _ _ hnew
    cases hnew
  · intro c x hnot
    have hold : ∀ q b', s.heap q = some b' → b'.io_cache = c → x ∉ b'.range := by
      intro q b' hq hc' hx
      obtain ⟨b'', hq', hc'', hr''⟩ := hheap' q b' hq
      exact hnot q b'' hq' (hc''.trans hc') (hr'' ▸ hx)
    show s.disk c x = content cfg (.wrote op o.io_cache common data :: s.log) c x
    rw [hcontent, if_neg]
    · exact h.uncovered c x hold
    · rintro ⟨hc', hxc⟩
      exact hold p b hb (hc.trans hc') (hsub x hxc)
  · exact h.refines

theorem writeChunk (h : s.Coherent) (hctl : s.ctl = .ret (.chunkPostProcess op p))
    (ho : s.op_db op = some o) {data : Bytes} (hjob : o.job = .write data)
    (hsound : (s.writeChunk op o data p).Sound) : (s.writeChunk op o data p).Coherent := by
  obtain ⟨b, common, hfound, hb, hc, hin, hcommon⟩ := h.commonRange_eq_some hctl ho
  have hok := h.ops op o ho
  obtain ⟨hbeg, hlast, -⟩ := chunk_bounds hok.grid hin hcommon
  have hover := h.overwrite hctl ho hjob hb hc hin hcommon
  -- what the operation has written so far is in the store
  have hlanded : ∀ x, o.totfile_range.beg ≤ x → x ≤ common.last →
      Landed (.wrote op o.io_cache common data :: s.log) op o.io_cache x data := by
    intro x hlo hhi
    by_cases hx : x ∈ common
    · exact ⟨s.log, common, List.suffix_refl _, hok.asked, hx⟩
    · have hdone := hok.done x hlo (by
        rw [← hbeg]
        by_contra hge
        exact hx ⟨Nat.not_lt.1 hge, hhi⟩)
      rw [hjob] at hdone
      exact hdone.mono (List.suffix_cons ..)
  unfold Pool.writeChunk at hsound ⊢
  rw [hfound] at hsound ⊢
  dsimp only at hsound ⊢
  cases hadv : o.advance o.job common.len with
  | some o' =>
    rw [hadv] at hsound
    obtain ⟨hnext, hdvd⟩ := grid_of_advance hc hbeg hlast hadv
    refine hover.frame hsound rfl rfl rfl rfl (List.suffix_refl _) rfl (le_refl _)
      (fun q hf => absurd hf (not_filling rfl))
      (h.ops_update (le_refl _) (List.suffix_cons ..) rfl rfl ?_)
      (fun _ _ _ hnew => by cases hnew) hover.refines
    intro o₁ ho₁
    obtain rfl := Option.some.inj ho₁
    obtain ⟨hlt, rfl⟩ := advance_eq_some hadv
    refine ⟨hok.lt, List.mem_cons_of_mem _ hok.asked, hok.thru, .inr hdvd, fun x hlo hhi => ?_,
      fun _ hphase => by cases hphase⟩
    simp only [hjob]
    exact hlanded x hlo (by omega)
  | none =>
    rw [hadv] at hsound
    have hend := advance_eq_none hadv
    refine hover.frame hsound rfl rfl rfl rfl (List.suffix_cons ..) rfl (le_refl _)
      (fun q hf => absurd hf (not_filling rfl))
      (h.ops_update (le_refl _) ((List.suffix_cons ..).trans (List.suffix_cons ..)) rfl rfl
        fun _ hnone => by cases hnone)
      (fun _ _ _ hnew => by cases hnew) ⟨fun x hx => ?_, hover.refines⟩
    obtain ⟨hlo, hhi⟩ := FileRange.mem_def.1 hx
    refine hlanded x hlo ?_
    have hle := common.le
    have hcur : o.chunkBeg = o.totfile_range.beg + o.done_len := rfl
    rw [FileRange.len, FileRange.len] at hend
    omega

theorem chunkPostProcess (h : s.Coherent) (hctl : s.ctl = .ret (.chunkPostProcess op p)) :
    (s.chunkPostProcess op p).Coherent := by
  have hsound := h.toSound.chunkPostProcess hctl
  unfold Pool.chunkPostProcess at hsound ⊢
  cases ho : s.op_db op with
  | none =>
    simp only [ho] at hsound ⊢
    refine h.frame hsound rfl rfl rfl rfl (List.suffix_refl _) rfl (le_refl _) (fun q hf => ?_)
      (fun op o ho => (h.ops op o ho).mono (le_refl _) (List.suffix_refl _) fun _ _ _ _ => rfl)
      (fun _ _ _ hnew => by cases hnew) h.refines
    -- there is no operation, and so nothing to overwrite
    obtain ⟨op', o, hchunk, ho', -⟩ := hf
    rw [hctl, Ctl.chunk, Ret.chunk] at hchunk
    obtain ⟨rfl, rfl⟩ := Prod.mk.inj (Option.some.inj hchunk)
    rw [ho] at ho'
    cases ho'
  | some o =>
    simp only [ho] at hsound ⊢
    cases hjob : o.job with
    | read buffer =>
      rw [hjob] at hsound
      exact h.readChunk hctl ho hjob hsound
    | write data =>
      simp only [hjob] at hsound ⊢
      split_ifs at hsound ⊢ with herr
      · refine h.notifyFailure (fun q hf => ?_) op o
        obtain ⟨op', o', hchunk, ho', -, hnoerr⟩ := hf
        rw [hctl, Ctl.chunk, Ret.chunk] at hchunk
        obtain ⟨rfl, rfl⟩ := Prod.mk.inj (Option.some.inj hchunk)
        rw [ho] at ho'
        obtain rfl := Option.some.inj ho'
        rw [herr] at hnoerr
        cases hnoerr
      · exact h.writeChunk hctl ho hjob hsound

end Coherent

end Pool

end Neoip.IoCache
