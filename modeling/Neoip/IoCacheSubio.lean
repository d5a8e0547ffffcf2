/-
Neoip/IoCacheSubio.lean

The sub-io of the io cache writes its bytes, and reports it.

What a block write puts on the disk are the bytes of blocks which are not clean,
and no other block (`Coherent.subioWrite`); when it is done, the blocks which
were not modified since are clean (`Coherent.blkwrDone`).  A cache in write-thru
removes the blocks inside the range, and forwards the write
(`Coherent.forward`).
-/
import Neoip.IoCacheBlocks

namespace Neoip.IoCache

variable {κ : Type} {cfg : Setup κ}

namespace Pool

variable [DecidableEq κ]
variable {s s' : Pool cfg} {p op w x : ℕ} {b : Block cfg} {o : Op cfg} {wr : SubioWrite κ} {c : κ}
  {k : Ret κ}

namespace Coherent

/-! ### The sub-io writes, and reports it -/

/-- The disk after the bytes of a sub-io write. -/
theorem disk_written (disk : κ → ℕ → UInt8) (wr : SubioWrite κ) (c : κ) (x : ℕ) :
    Function.update disk wr.io_cache (memcpy (disk wr.io_cache) wr.range.beg wr.data2write
      wr.range.beg wr.range.len) c x =
    if c = wr.io_cache ∧ x ∈ wr.range then wr.data2write x else disk c x := by
  rw [Function.update_apply]
  by_cases hc : c = wr.io_cache
  · subst hc
    rw [if_pos rfl, memcpy_self]
    simp
  · rw [if_neg hc, if_neg fun hand => hc hand.1]

/-- The content after the bytes of a sub-io write: only a write-thru is logged. -/
theorem content_wrote (log : List (Entry κ)) (wr : SubioWrite κ) (c : κ) (x : ℕ) :
    content cfg (if wr.blkwr = true then log
      else .wrote w wr.io_cache wr.range wr.data2write :: log) c x =
    if wr.blkwr = false ∧ c = wr.io_cache ∧ x ∈ wr.range then wr.data2write x
    else content cfg log c x := by
  cases wr.blkwr with
  | true => simp
  | false => simp [content, eq_comm]

omit [DecidableEq κ] in
theorem suffix_wrote (log : List (Entry κ)) (wr : SubioWrite κ) :
    log <:+ if wr.blkwr = true then log
      else .wrote w wr.io_cache wr.range wr.data2write :: log := by
  split_ifs
  · exact List.suffix_refl _
  · exact List.suffix_cons ..

omit [DecidableEq κ] in
/-- A sub-io write after the `w`-th performed is that one, or was there before. -/
theorem get_performed {wr' : SubioWrite κ} {w' : ℕ} {db : KeyedDb ℕ (SubioWrite κ)}
    (hw : db.get w = some wr)
    (hw' : (db.modify w fun wr => { wr with performed := true }).get w' = some wr') :
    (w' = w ∧ wr' = { wr with performed := true }) ∨ w' ≠ w ∧ db.get w' = some wr' := by
  rw [KeyedDb.get_modify] at hw'
  split_ifs at hw' with heq
  · rw [hw, Option.map_some] at hw'
    exact .inl ⟨heq, (Option.some.inj hw').symm⟩
  · exact .inr ⟨heq, hw'⟩

omit [DecidableEq κ] in
/-- A sub-io write keeps what it writes when the `w`-th is performed. -/
theorem exists_performed {wr' : SubioWrite κ} {w' : ℕ} {db : KeyedDb ℕ (SubioWrite κ)}
    (hw : db.get w = some wr) (hw' : db.get w' = some wr') :
    ∃ wr'', (db.modify w fun wr => { wr with performed := true }).get w' = some wr'' ∧
      wr''.blkwr = wr'.blkwr ∧ wr''.io_cache = wr'.io_cache ∧ wr''.range = wr'.range := by
  rw [KeyedDb.get_modify]
  split_ifs with heq
  · rw [heq, hw] at hw'
    obtain rfl := Option.some.inj hw'
    exact ⟨{ wr with performed := true }, by rw [hw, Option.map_some], rfl, rfl, rfl⟩
  · exact ⟨wr', hw', rfl, rfl, rfl⟩

theorem subioWrite (h : s.Coherent) (hctl : s.ctl = .idle) (hg : s.Orderly (.subio_write w)) :
    (s.subioWrite w).Coherent := by
  have hidle := chunk_of_idle hctl
  have hsound := h.toSound.subioWrite hctl w
  unfold Pool.subioWrite at hsound ⊢
  cases hw : s.subio_db.get w with
  | none => exact h
  | some wr =>
    simp only [hw] at hsound ⊢
    by_cases hperf : wr.performed = true
    · rw [if_pos hperf]
      exact h
    · rw [if_neg hperf] at hsound ⊢
      obtain ⟨hsampled, hblocks⟩ := hg wr hw (Bool.eq_false_iff.2 hperf)
      have hsuffix := suffix_wrote (w := w) s.log wr
      -- where there is a block, only block writes write
      have hblkwr : ∀ p b x, s.heap p = some b → b.io_cache = wr.io_cache → x ∈ b.range →
          x ∈ wr.range → wr.blkwr = true := by
        intro p b x hp hc hx hxw
        by_contra hthru
        have hd := hblocks (Bool.eq_false_iff.2 hthru) p ((h.mem_lru p).2 ⟨b, hp⟩) b hp hc
        exact FileRange.isDistinct_iff.1 hd x hx hxw
      constructor
      · exact hsound
      · intro p b hp
        have hok := h.blocks p b hp
        refine ⟨fun hstate _ x hx => ?_, fun _ x hx => ?_, hok.thru, fun hstate => ?_⟩
        · show b.datum x = Function.update s.disk wr.io_cache _ b.io_cache x
          rw [disk_written, if_neg]
          · exact hok.clean hstate (not_filling hidle) x hx
          · rintro ⟨hc, hxw⟩
            have hok := h.blkwrs w wr hw (hblkwr p b x hp hc hx hxw)
            exact (hok.overlapping p b x hp hc hx hxw).2.1 hstate
        · show b.datum x = content cfg (if wr.blkwr = true then s.log else _) b.io_cache x
          rw [content_wrote, if_neg]
          · exact hok.stored (not_filling hidle) x hx
          · rintro ⟨hthru, hc, hxw⟩
            rw [hblkwr p b x hp hc hx hxw] at hthru
            cases hthru
        · rcases hok.cleaning hstate with herr | ⟨w', wr', hw', hb', hc', hinc⟩
          · exact .inl herr
          · obtain ⟨wr'', hw'', hb'', hc'', hr''⟩ := exists_performed hw hw'
            exact .inr ⟨w', wr'', hw'', hb''.trans hb', hc''.trans hc', by rw [hr'', hinc]⟩
      · intro w' wr' hw' hb'
        rcases get_performed hw hw' with ⟨rfl, rfl⟩ | ⟨hne, hw'⟩
        · obtain ⟨hover, hcovered, -⟩ := h.blkwrs w' wr hw hb'
          refine ⟨hover, hcovered, fun _ x hx => ?_⟩
          show Function.update s.disk wr.io_cache _ wr.io_cache x = wr.data2write x
          rw [disk_written, if_pos ⟨rfl, hx⟩]
        · obtain ⟨hover, hcovered, hperformed⟩ := h.blkwrs w' wr' hw' hb'
          refine ⟨hover, hcovered, fun hperf x hx => ?_⟩
          show Function.update s.disk wr.io_cache _ wr'.io_cache x = wr'.data2write x
          rw [disk_written, if_neg]
          · exact hperformed hperf x hx
          · rintro ⟨hc, hxw⟩
            obtain ⟨p, b, hp, hcb, hin⟩ := hcovered x hx
            exact hne (h.distinct w' w wr' wr x hw' hw hb'
              (hblkwr p b x hp (hcb.trans hc) hin hxw) hc hx hxw)
      · intro w₁ w₂ wr₁ wr₂ x hw₁ hw₂
        rcases get_performed hw hw₁ with ⟨rfl, rfl⟩ | ⟨-, hold₁⟩ <;>
          rcases get_performed hw hw₂ with ⟨rfl, rfl⟩ | ⟨-, hold₂⟩
        · exact fun _ _ _ _ _ => rfl
        · exact h.distinct _ _ wr wr₂ x hw hold₂
        · exact h.distinct _ _ wr₁ wr x hold₁ hw
        · exact h.distinct _ _ wr₁ wr₂ x hold₁ hold₂
      · intro w' wr' hw'
        rcases get_performed hw hw' with ⟨rfl, -⟩ | ⟨-, hw'⟩
        · exact h.subio_lt w' wr hw
        · exact h.subio_lt w' wr' hw'
      · intro w' wr' hw' hthru
        rcases get_performed hw hw' with ⟨rfl, rfl⟩ | ⟨-, hw'⟩
        · have hthru : wr.blkwr = false := hthru
          obtain ⟨hasked, -⟩ := h.thrus w' wr hw hthru
          refine ⟨hsuffix.subset hasked, fun _ x hx => ?_⟩
          simp only [hthru, Bool.false_eq_true, if_false]
          exact ⟨s.log, wr.range, List.suffix_refl _, hasked, hx⟩
        · obtain ⟨hasked, hlanded⟩ := h.thrus w' wr' hw' hthru
          exact ⟨hsuffix.subset hasked, fun hperf x hx => (hlanded hperf x hx).mono hsuffix⟩
      · intro op o ho
        have hok := h.ops op o ho
        refine hok.mono (le_refl _) hsuffix fun d hd x hx => ?_
        show Function.update s.disk wr.io_cache _ o.io_cache x = s.disk o.io_cache x
        rw [disk_written, if_neg]
        rintro ⟨hc, hxw⟩
        have hd := hsampled op hok.lt o ho (by rw [hd, Phase.sampled]) hc
        exact FileRange.isDistinct_iff.1 hd x hx hxw
      · intro op datum o hnew
        have hnew : s.ctl = .newBlock op datum := hnew
        rw [hctl] at hnew
        cases hnew
      · intro c x hnot
        show Function.update s.disk wr.io_cache _ c x =
          content cfg (if wr.blkwr = true then s.log else _) c x
        rw [disk_written, content_wrote]
        by_cases hin : c = wr.io_cache ∧ x ∈ wr.range
        · cases hb : wr.blkwr with
          | true =>
            -- a block write writes where there are blocks
            obtain ⟨p, b, hp, hc, hx⟩ := (h.blkwrs w wr hw hb).covered x hin.2
            exact absurd hx (hnot p b hp (hc.trans hin.1.symm))
          | false => rw [if_pos hin, if_pos ⟨rfl, hin⟩]
        · rw [if_neg hin, if_neg fun hand => hin hand.2]
          exact h.uncovered c x hnot
      · show Refines cfg (if wr.blkwr = true then s.log else _)
        split_ifs
        · exact h.refines
        · exact h.refines

omit [DecidableEq κ] in
theorem get_erase_cases {wr : SubioWrite κ} {w' : ℕ} {db : KeyedDb ℕ (SubioWrite κ)}
    (hw : (db.erase w).get w' = some wr) : w' ≠ w ∧ db.get w' = some wr := by
  rw [KeyedDb.get_erase] at hw
  split_ifs at hw with heq
  exact ⟨heq, hw⟩

/-- The blocks of a block write are clean when it is done. -/
theorem blkwrDone (h : s.Coherent) (hctl : s.ctl = .idle) (hw : s.subio_db.get w = some wr)
    (hblkwr : wr.blkwr = true) (hperf : wr.performed = true)
    (hsound : Sound { s.notifyCleaned wr with
      subio_db := s.subio_db.erase w
      ctl := .shrinkIfNeeded (.notifyBlkwrCompletion wr.io_cache) }) :
    Coherent { s.notifyCleaned wr with
      subio_db := s.subio_db.erase w
      ctl := .shrinkIfNeeded (.notifyBlkwrCompletion wr.io_cache) } := by
  have hidle := chunk_of_idle hctl
  obtain ⟨hover, -, hperformed⟩ := h.blkwrs w wr hw hblkwr
  have hmem : ∀ p, p ∈ s.blockFullyIncludedIn wr.io_cache wr.range ↔ ∃ b, s.heap p = some b ∧
      b.io_cache = wr.io_cache ∧ wr.range.fullyInclude b.range = true := fun p =>
    h.held.mem_blockFullyIncludedIn
  -- a block is as before, or it was in the write and was not modified since
  have hheap : ∀ q b', (s.notifyCleaned wr).heap q = some b' →
      ∃ b, s.heap q = some b ∧ b'.io_cache = b.io_cache ∧ b'.range = b.range ∧
        b'.datum = b.datum ∧
        (b' = b ∧ (b.state = .CLEANING → ¬(b.io_cache = wr.io_cache ∧
            wr.range.fullyInclude b.range = true)) ∨
          b'.state = .CLEAN ∧ b.state = .CLEANING ∧ b.io_cache = wr.io_cache ∧
            wr.range.fullyInclude b.range = true) := by
    intro q b' hq
    have hq : (if q ∈ s.blockFullyIncludedIn wr.io_cache wr.range then
      (s.heap q).map Block.notifyCleaned else s.heap q) = some b' := hq
    split_ifs at hq with hin
    · obtain ⟨b, hb, hc, hinc⟩ := (hmem q).1 hin
      rw [hb, Option.map_some] at hq
      obtain rfl := Option.some.inj hq
      unfold Block.notifyCleaned
      split_ifs with hstate
      · exact ⟨b, hb, rfl, rfl, rfl, .inr ⟨rfl, hstate, hc, hinc⟩⟩
      · exact ⟨b, hb, rfl, rfl, rfl, .inl ⟨rfl, fun hcleaning => absurd hcleaning hstate⟩⟩
    · exact ⟨b', hq, rfl, rfl, rfl, .inl ⟨rfl, fun _ hand => hin ((hmem q).2 ⟨b', hq, hand⟩)⟩⟩
  have hheap' : ∀ q b, s.heap q = some b → ∃ b', (s.notifyCleaned wr).heap q = some b' ∧
      b'.io_cache = b.io_cache ∧ b'.range = b.range := by
    intro q b hb
    show ∃ b', (if q ∈ s.blockFullyIncludedIn wr.io_cache wr.range then
      (s.heap q).map Block.notifyCleaned else s.heap q) = some b' ∧ _
    split_ifs
    · refine ⟨b.notifyCleaned, by rw [hb, Option.map_some], ?_, ?_⟩ <;>
        · unfold Block.notifyCleaned
          split_ifs <;> rfl
    · exact ⟨b, hb, rfl, rfl⟩
  constructor
  · exact hsound
  · intro q b' hq
    obtain ⟨b, hb, hc, hr, hd, hcase⟩ := hheap q b' hq
    have hok := h.blocks q b hb
    have hnot := not_filling (p := q) hidle
    refine ⟨fun hstate _ x hx => ?_, fun _ x hx => ?_, fun hthru => ?_, fun hstate => ?_⟩
    · rw [hr] at hx
      show b'.datum x = s.disk b'.io_cache x
      rw [hd, hc]
      rcases hcase with ⟨rfl, -⟩ | ⟨-, hcleaning, hbc, hinc⟩
      · exact hok.clean hstate hnot x hx
      · -- its bytes are those of the write, and so the ones of the sub-io
        have hxw := FileRange.fullyInclude_iff.1 hinc x hx
        rw [(hover q b x hb hbc hx hxw).2.2 hcleaning x hx, hbc, hperformed hperf x hxw]
    · rw [hr] at hx
      rw [hd, hc]
      exact hok.stored hnot x hx
    · rw [hc] at hthru
      rcases hcase with ⟨rfl, -⟩ | ⟨hclean, -⟩
      · exact hok.thru hthru
      · exact hclean
    · rcases hcase with ⟨rfl, hno⟩ | ⟨hclean, -⟩
      · rcases hok.cleaning hstate with herr | ⟨w', wr', hw', hb', hc', hinc⟩
        · exact .inl herr
        · refine .inr ⟨w', wr', ?_, hb', hc', hinc⟩
          show (s.subio_db.erase w).get w' = some wr'
          rw [KeyedDb.get_erase, if_neg, hw']
          rintro rfl
          rw [hw] at hw'
          obtain rfl := Option.some.inj hw'
          exact hno hstate ⟨hc'.symm, hinc⟩
      · rw [hclean] at hstate
        cases hstate
  · intro w' wr' hw' hb'
    obtain ⟨hne, hw'⟩ := get_erase_cases hw'
    obtain ⟨hover', hcovered', hperformed'⟩ := h.blkwrs w' wr' hw' hb'
    refine ⟨fun q b' x hq hc hin hx => ?_, fun x hx => ?_, hperformed'⟩
    · obtain ⟨b, hb, hbc, hbr, -, hcase⟩ := hheap q b' hq
      rcases hcase with ⟨rfl, -⟩ | ⟨-, -, hbw, hinc⟩
      · exact hover' q b' x hb hc hin hx
      · -- two block writes have no common block
        have hxw := FileRange.fullyInclude_iff.1 hinc x (hbr ▸ hin)
        exact absurd (h.distinct w' w wr' wr x hw' hw hb' hblkwr
          (hc.symm.trans (hbc.trans hbw)) hx hxw) hne
    · obtain ⟨q, b, hb, hc, hin⟩ := hcovered' x hx
      obtain ⟨b', hq, hbc, hbr⟩ := hheap' q b hb
      exact ⟨q, b', hq, hbc.trans hc, hbr ▸ hin⟩
  · intro w₁ w₂ wr₁ wr₂ x hw₁ hw₂
    exact h.distinct w₁ w₂ wr₁ wr₂ x (get_erase_cases hw₁).2 (get_erase_cases hw₂).2
  · exact fun w' wr' hw' => h.subio_lt w' wr' (get_erase_cases hw').2
  · exact fun w' wr' hw' => h.thrus w' wr' (get_erase_cases hw').2
  · exact fun op o ho =>
      (h.ops op o ho).mono (le_refl _) (List.suffix_refl _) fun _ _ _ _ => rfl
  · intro _ _ _ hnew
    cases hnew
  · intro c x hnot
    refine h.uncovered c x fun q b hb hc hx => ?_
    obtain ⟨b', hq, hbc, hbr⟩ := hheap' q b hb
    exact hnot q b' hq (hbc.trans hc) (hbr ▸ hx)
  · exact h.refines

/-- The write which is gone covers no block which is being cleaned, or its failure is noted. -/
theorem subioGone (h : s.Coherent) (hctl : s.ctl = .idle) (hs : s'.Sound)
    (hheap : s'.heap = s.heap) (hsubio : s'.subio_db = s.subio_db.erase w)
    (hdisk : s'.disk = s.disk) (hop : s'.op_db = s.op_db) (hnext : s'.next = s.next)
    (hlog : s.log <:+ s'.log) (hcontent : content cfg s'.log = content cfg s.log)
    (herr : ∀ c, s.delayed_write_err c = .ERROR → s'.delayed_write_err c = .ERROR)
    (hgone : ∀ wr, s.subio_db.get w = some wr → wr.blkwr = true →
      s'.delayed_write_err wr.io_cache = .ERROR)
    (hnew : ∀ op datum, s'.ctl ≠ .newBlock op datum) (hrefines : Refines cfg s'.log) :
    s'.Coherent where
  toSound := hs
  blocks p b hb := by
    rw [hheap] at hb
    have hok := h.blocks p b hb
    refine hok.congr (fun hf => absurd hf (not_filling (chunk_of_idle hctl)))
      (fun x _ => by rw [hdisk]) (fun x _ => by rw [hcontent]) fun hstate => ?_
    -- a block which waited for this write has an error recorded in its cache
    rcases hok.cleaning hstate with hfailed | ⟨w', wr', hw', hb', hc', hinc⟩
    · exact .inl (herr _ hfailed)
    · by_cases heq : w' = w
      · rw [heq] at hw'
        exact .inl (hc' ▸ hgone wr' hw' hb')
      · refine .inr ⟨w', wr', ?_, hb', hc', hinc⟩
        rw [hsubio, KeyedDb.get_erase, if_neg heq, hw']
  blkwrs w' wr' hw' hb' := by
    rw [hsubio] at hw'
    obtain ⟨hover, hcovered, hperformed⟩ := h.blkwrs w' wr' (get_erase_cases hw').2 hb'
    refine ⟨?_, ?_, ?_⟩
    · rw [hheap]
      exact hover
    · rw [hheap]
      exact hcovered
    · rw [hdisk]
      exact hperformed
  distinct w₁ w₂ wr₁ wr₂ x hw₁ hw₂ := by
    rw [hsubio] at hw₁ hw₂
    exact h.distinct w₁ w₂ wr₁ wr₂ x (get_erase_cases hw₁).2 (get_erase_cases hw₂).2
  subio_lt w' wr' hw' := by
    rw [hsubio] at hw'
    rw [hnext]
    exact h.subio_lt w' wr' (get_erase_cases hw').2
  thrus w' wr' hw' hthru := by
    rw [hsubio] at hw'
    obtain ⟨hasked, hlanded⟩ := h.thrus w' wr' (get_erase_cases hw').2 hthru
    exact ⟨hlog.subset hasked, fun hperf x hx => (hlanded hperf x hx).mono hlog⟩
  ops op o ho := by
    rw [hop] at ho
    exact (h.ops op o ho).mono hnext.ge hlog fun _ _ _ _ => by rw [hdisk]
  pending op datum _ heq := absurd heq (hnew op datum)
  uncovered c x hnot := by
    rw [hheap] at hnot
    rw [hdisk, hcontent]
    exact h.uncovered c x hnot
  refines := hrefines

theorem subioWriteCb (h : s.Coherent) (hctl : s.ctl = .idle) (bt_err : BtErr) :
    (s.subioWriteCb w bt_err).Coherent := by
  have hsound := h.toSound.subioWriteCb hctl w bt_err
  unfold Pool.subioWriteCb at hsound ⊢
  cases hw : s.subio_db.get w with
  | none => exact h
  | some wr =>
    simp only [hw] at hsound ⊢
    split_ifs at hsound ⊢ with hearly hblkwr
    · exact h
    · cases bt_err with
      | OK =>
        have hperf : wr.performed = true := by
          by_contra hnot
          exact hearly (by simp [hnot])
        exact h.blkwrDone hctl hw hblkwr hperf hsound
      | ERROR =>
        refine h.subioGone (w := w) hctl hsound rfl rfl rfl rfl rfl (List.suffix_refl _) rfl
          (fun c hc => ?_) (fun wr' hw' _ => ?_) (fun _ _ heq => by cases heq) h.refines
        · show Function.update s.delayed_write_err wr.io_cache .ERROR c = .ERROR
          rw [Function.update_apply]
          split_ifs
          · rfl
          · exact hc
        · rw [hw] at hw'
          obtain rfl := Option.some.inj hw'
          exact Function.update_self ..
    · have hthru := Bool.eq_false_iff.2 hblkwr
      refine h.subioGone (w := w) hctl hsound rfl rfl rfl rfl rfl (List.suffix_cons ..) rfl
        (fun _ hc => hc) (fun wr' hw' hb' => ?_) (fun op datum heq => ?_) ?_
      · rw [hw] at hw'
        obtain rfl := Option.some.inj hw'
        exact absurd hb' hblkwr
      · have heq : s.ctl = .newBlock op datum := heq
        rw [hctl] at heq
        cases heq
      · cases bt_err with
        | ERROR => exact h.refines
        | OK =>
          have hperf : wr.performed = true := by
            by_contra hnot
            exact hearly (by simp [hnot])
          exact ⟨(h.thrus w wr hw hthru).2 hperf, h.refines⟩

/-- A cache in write-thru has clean blocks only, so each of them can be removed. -/
theorem blockRemoveIncludedIn (h : s.Coherent) (hctl : s.ctl = .idle)
    (hthru : cfg.write_thru c = true) (range : FileRange) :
    (s.blockRemoveIncludedIn c range).Coherent := by
  have hmem : ∀ p ∈ s.blockFullyIncludedIn c range, ∀ b, s.heap p = some b → b.io_cache = c := by
    intro p hp b hb
    obtain ⟨b', hb', hc, -⟩ := h.held.mem_blockFullyIncludedIn.1 hp
    rw [hb] at hb'
    obtain rfl := Option.some.inj hb'
    exact hc
  unfold Pool.blockRemoveIncludedIn
  generalize s.blockFullyIncludedIn c range = l at hmem
  induction l generalizing s with
  | nil => exact h
  | cons p l ih =>
    rw [List.foldl_cons]
    cases hb : s.heap p with
    | none =>
      rw [Pool.blockDtor, hb]
      exact ih h hctl fun q hq => hmem q (List.mem_cons_of_mem _ hq)
    | some b =>
      have hctl' : (s.blockDtor p).ctl = .idle := by
        rw [Pool.blockDtor, hb]
        exact hctl
      have hclean := (h.blocks p b hb).thru (by rw [hmem p (List.mem_cons_self ..) b hb, hthru])
      refine ih (h.blockDtor hb hclean (not_filling (chunk_of_idle hctl))
        { toAccounted := h.toAccounted.blockDtor p
          handled := Handled.of_none (chunk_of_idle hctl') }) hctl' fun q hq b' hb' => ?_
      rw [Pool.blockDtor, hb] at hb'
      have hb' : Function.update s.heap p none q = some b' := hb'
      rw [Function.update_apply] at hb'
      split_ifs at hb'
      exact hmem q (List.mem_cons_of_mem _ hq) b' hb'

/-- A write is forwarded to the sub-io. -/
theorem forward (h : s.Coherent) (hctl : s.ctl = .idle) (range : FileRange) (data : Bytes) :
    Coherent { s with
      next := s.next + 1
      subio_db := s.subio_db.push s.next ⟨c, range, data, false, false⟩
      log := .asked s.next :: s.log } := by
  have hidle := chunk_of_idle hctl
  have hsuffix : s.log <:+ .asked s.next :: s.log := List.suffix_cons ..
  constructor
  · exact
      { toAccounted := h.toAccounted.frame rfl rfl rfl rfl (Nat.le_succ _)
        handled := Handled.of_none hidle }
  · intro p b hb
    have hok := h.blocks p b hb
    refine hok.congr (fun hf => absurd hf (not_filling hidle)) (fun _ _ => rfl) (fun _ _ => rfl)
      fun hstate => ?_
    rcases hok.cleaning hstate with herr | ⟨w, wr, hw, hrest⟩
    · exact .inl herr
    · exact .inr ⟨w, wr, h.get_push_of_get hw, hrest⟩
  · intro w wr hw hblkwr
    rcases h.get_push_cases hw with ⟨-, rfl⟩ | hw
    · cases hblkwr
    · obtain ⟨hover, hcovered, hperformed⟩ := h.blkwrs w wr hw hblkwr
      exact ⟨hover, hcovered, hperformed⟩
  · intro w₁ w₂ wr₁ wr₂ x hw₁ hw₂ hb₁ hb₂
    rcases h.get_push_cases hw₁ with ⟨-, rfl⟩ | hold₁
    · cases hb₁
    · rcases h.get_push_cases hw₂ with ⟨-, rfl⟩ | hold₂
      · cases hb₂
      · exact h.distinct w₁ w₂ wr₁ wr₂ x hold₁ hold₂ hb₁ hb₂
  · intro w wr hw
    rcases h.get_push_cases hw with ⟨rfl, -⟩ | hw
    · exact Nat.lt_succ_self _
    · exact (h.subio_lt w wr hw).trans (Nat.lt_succ_self _)
  · intro w wr hw hthru
    rcases h.get_push_cases hw with ⟨rfl, rfl⟩ | hw
    · exact ⟨List.mem_cons_self .., fun hperf => by cases hperf⟩
    · obtain ⟨hasked, hlanded⟩ := h.thrus w wr hw hthru
      exact ⟨hsuffix.subset hasked, fun hperf x hx => (hlanded hperf x hx).mono hsuffix⟩
  · exact fun op o ho => (h.ops op o ho).mono (Nat.le_succ _) hsuffix fun _ _ _ _ => rfl
  · exact h.pending
  · exact h.uncovered
  · exact h.refines

end Coherent

end Pool

end Neoip.IoCache
