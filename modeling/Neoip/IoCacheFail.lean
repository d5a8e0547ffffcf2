/-
Neoip/IoCacheFail.lean

Failing writes of the io cache.

A write fails when its block read fails, when it is forwarded and the sub-io
says so, or when a block write of the cache failed before
(`delayed_write_err`).  The cache takes nothing back: a chunk which is written
stays written when a later one fails.  A block which is created to be
overwritten stays in the cache when the error is seen only then.  And the blocks
of a block write which fails stay `CLEANING` for good: none of the three who look
at blocks does anything with these, and a write does not reach them any more.

Main result: when a write fails only before it has written anything, a block
write only when its blocks were all modified since, and the steps are orderly
(`Pool.Orderly`, which has it that no missing block is overwritten once there is
a delayed error), then no failed write has any effect, and no block is left
without its bytes or without its block write (`failure_atomic_run`).
-/
import Neoip.IoCacheRun

namespace Neoip.IoCache

variable {κ : Type} {cfg : Setup κ}

namespace Pool

variable [DecidableEq κ]
variable {s s' : Pool cfg} {p op w x : ℕ} {b : Block cfg} {o : Op cfg} {wr : SubioWrite κ} {c : κ}
  {k : Ret κ} {e : Event cfg}

/-! ### What is claimed -/

omit [DecidableEq κ] in
/-- The byte which a read finds. -/
def found (s : Pool cfg) (c : κ) (x : ℕ) : UInt8 :=
  match s.blockFind c x with
  | none => s.disk c x
  | some p => ((s.heap p).map fun b => b.datum x).getD 0

omit [DecidableEq κ] in
/-- A block write is on the way for the block. -/
def BeingCleaned (s : Pool cfg) (b : Block cfg) : Prop :=
  ∃ w wr, s.subio_db.get w = some wr ∧ wr.blkwr = true ∧ wr.io_cache = b.io_cache ∧
    wr.range.fullyInclude b.range = true

omit [DecidableEq κ] in
/-- Each block which is `CLEANING` has its block write on the way. -/
def NoneStuck (s : Pool cfg) : Prop :=
  ∀ p b, s.heap p = some b → b.state = .CLEANING → s.BeingCleaned b

/-- **Failure atomicity.**  Reads and writes are those of a byte store in which no failed write
wrote anything; while no handler runs, that is what a read finds, and what each block holds; and
each block which is `CLEANING` has its block write on the way. -/
structure FailureAtomic (s : Pool cfg) : Prop where
  refines : Refines cfg s.log
  unwritten : ∀ op c range data, .written op c range data .ERROR ∈ s.log →
    ∀ c' range' data', .wrote op c' range' data' ∉ s.log
  found : s.ctl = .idle → ∀ c x, s.found c x = content cfg s.log c x
  defined : s.ctl = .idle → ∀ p b, s.heap p = some b →
    ∀ x ∈ b.range, b.datum x = content cfg s.log b.io_cache x
  cleaning : s.NoneStuck

/-- A write fails before it has written anything, and a block write when all its blocks were
modified since. -/
def FailsClean (s : Pool cfg) : Event cfg → Prop
  | .blkrd_cb op .ERROR => ∀ o ∈ s.op_db op, o.isWrite = true → o.done_len = 0
  | .subio_write_cb w .ERROR =>
    ∀ wr ∈ s.subio_db.get w,
      (wr.blkwr = true → ∀ p ∈ s.block_lru, ∀ b ∈ s.heap p, b.io_cache = wr.io_cache →
        wr.range.fullyInclude b.range = true → b.state ≠ .CLEANING) ∧
      (wr.blkwr = false → wr.performed = false)
  | .resume =>
    match s.ctl with
    | .ret (.chunkPostProcess op _) =>
      ∀ o ∈ s.op_db op, o.isWrite = true → s.delayed_write_err o.io_cache = .ERROR →
        o.done_len = 0
    | _ => True
  | _ => True

instance (s : Pool cfg) : (e : Event cfg) → Decidable (s.FailsClean e)
  | .resume =>
    let dec (ctl : Ctl κ) : Decidable (match ctl with
        | .ret (.chunkPostProcess op _) =>
          ∀ o ∈ s.op_db op, o.isWrite = true → s.delayed_write_err o.io_cache = .ERROR →
            o.done_len = 0
        | _ => True) :=
      match ctl with
      | .ret (.chunkPostProcess ..) => inferInstance
      | .ret (.startBlkwrAll _) | .ret (.notifyBlkwrCompletion _) | .idle | .launchNextChunk _
      | .newBlock .. | .shrinkIfNeeded _ | .startBlkwr .. => .isTrue trivial
    dec s.ctl
  | .blkrd_cb op .ERROR =>
    inferInstanceAs (Decidable (∀ o ∈ s.op_db op, o.isWrite = true → o.done_len = 0))
  | .subio_write_cb w .ERROR => inferInstanceAs (Decidable (∀ wr ∈ s.subio_db.get w,
      (wr.blkwr = true → ∀ p ∈ s.block_lru, ∀ b ∈ s.heap p, b.io_cache = wr.io_cache →
        wr.range.fullyInclude b.range = true → b.state ≠ .CLEANING) ∧
      (wr.blkwr = false → wr.performed = false)))
  | .read_ctor .. | .write_ctor .. | .zerotimer _ | .subio_read _ | .blkrd_cb _ .OK
  | .subio_write _ | .subio_write_cb _ .OK | .cleaning_timeout _ | .stopping_ctor _ =>
    .isTrue trivial

/-! ### Blocks which are cleaned -/

omit [DecidableEq κ] in
/-- From `s` to `s'` no block begins to be cleaned, and no block write is done. -/
structure Calm (s s' : Pool cfg) : Prop where
  heap : ∀ p b, s'.heap p = some b → b.state = .CLEANING → s.heap p = some b
  subio : ∀ w wr, s.subio_db.get w = some wr → ∃ wr', s'.subio_db.get w = some wr' ∧
    wr'.blkwr = wr.blkwr ∧ wr'.io_cache = wr.io_cache ∧ wr'.range = wr.range

omit [DecidableEq κ] in
theorem Calm.of_eq (hheap : s'.heap = s.heap) (hsubio : s'.subio_db = s.subio_db) : Calm s s' where
  heap _ _ hb _ := hheap ▸ hb
  subio w wr hw := ⟨wr, by rw [hsubio, hw], rfl, rfl, rfl⟩

omit [DecidableEq κ] in
theorem NoneStuck.calm (h : s.NoneStuck) (hcalm : Calm s s') : s'.NoneStuck := by
  intro p b hb hstate
  obtain ⟨w, wr, hw, hblkwr, hc, hinc⟩ := h p b (hcalm.heap p b hb hstate) hstate
  obtain ⟨wr', hw', hblkwr', hc', hrange'⟩ := hcalm.subio w wr hw
  exact ⟨w, wr', hw', hblkwr'.trans hblkwr, hc'.trans hc, by rw [hrange', hinc]⟩

theorem heap_blockDtor {q : ℕ} (hb : (s.blockDtor p).heap q = some b) : s.heap q = some b := by
  unfold blockDtor at hb
  split at hb
  · exact hb
  · have hb : Function.update s.heap p none q = some b := hb
    rw [Function.update_apply] at hb
    split_ifs at hb
    exact hb

theorem subio_blockDtor : (s.blockDtor p).subio_db = s.subio_db := by
  unfold blockDtor
  split
  · rfl
  · rfl

theorem blockRemoveIncludedIn_rest (s : Pool cfg) (c : κ) (range : FileRange) :
    (s.blockRemoveIncludedIn c range).subio_db = s.subio_db ∧
      (s.blockRemoveIncludedIn c range).next = s.next ∧
      (s.blockRemoveIncludedIn c range).op_db = s.op_db ∧
      (s.blockRemoveIncludedIn c range).log = s.log := by
  unfold Pool.blockRemoveIncludedIn
  generalize s.blockFullyIncludedIn c range = l
  induction l generalizing s with
  | nil => exact ⟨rfl, rfl, rfl, rfl⟩
  | cons p l ih =>
    obtain ⟨hsubio, hnext, hop, hlog⟩ := ih (s.blockDtor p)
    rw [List.foldl_cons, hsubio, hnext, hop, hlog, blockDtor]
    split
    · exact ⟨rfl, rfl, rfl, rfl⟩
    · exact ⟨rfl, rfl, rfl, rfl⟩

theorem calm_blockDtor : Calm s (s.blockDtor p) where
  heap _ _ hb _ := heap_blockDtor hb
  subio w wr hw := ⟨wr, by rw [subio_blockDtor, hw], rfl, rfl, rfl⟩

theorem calm_blockRemoveIncludedIn (s : Pool cfg) (c : κ) (range : FileRange) :
    Calm s (s.blockRemoveIncludedIn c range) := by
  have htrans : ∀ {s₁ s₂ : Pool cfg}, Calm s s₁ → Calm s₁ s₂ → Calm s s₂ := by
    intro s₁ s₂ h h'
    refine ⟨fun p b hb hstate => h.heap p b (h'.heap p b hb hstate) hstate, fun w wr hw => ?_⟩
    obtain ⟨wr₁, hw₁, hb₁, hc₁, hr₁⟩ := h.subio w wr hw
    obtain ⟨wr₂, hw₂, hb₂, hc₂, hr₂⟩ := h'.subio w wr₁ hw₁
    exact ⟨wr₂, hw₂, hb₂.trans hb₁, hc₂.trans hc₁, hr₂.trans hr₁⟩
  have hfold : ∀ (l : List ℕ) (s₁ : Pool cfg), Calm s s₁ → Calm s (l.foldl blockDtor s₁) := by
    intro l
    induction l with
    | nil => exact fun _ h => h
    | cons p l ih => exact fun s₁ h => ih _ (htrans h calm_blockDtor)
  exact hfold _ s (Calm.of_eq rfl rfl)

/-- A block write begins: its blocks are inside it. -/
theorem noneStuck_startBlkwr (hcoh : s.Coherent) (h : s.NoneStuck) (c : κ) (off : ℕ) (k : Ret κ) :
    NoneStuck { s.startBlkwr c off with ctl := .ret k } := by
  rcases hcoh.held.startBlkwr_cases c off with heq | ⟨range, data, hrange, heq, hrun, -⟩
  · rw [heq]
    exact h.calm (Calm.of_eq rfl rfl)
  · rw [heq]
    intro p b hb hstate
    have hb : (if p ∈ s.blockDirtyContiguous c off then (s.heap p).map Block.notifyCleaning
      else s.heap p) = some b := hb
    split_ifs at hb with hin
    · obtain ⟨b₀, hb₀, hc, -, hinc, -⟩ := hrun p hin
      rw [hb₀, Option.map_some] at hb
      obtain rfl := Option.some.inj hb
      refine ⟨s.next, ⟨c, range, data, true, false⟩, ?_, rfl, hc.symm, hinc⟩
      show (s.subio_db.push s.next _).get s.next = _
      rw [hcoh.get_push_subio, if_pos rfl]
    · obtain ⟨w, wr, hw, hrest⟩ := h p b hb hstate
      exact ⟨w, wr, hcoh.get_push_of_get hw, hrest⟩

omit [DecidableEq κ] in
/-- A block write is done: no block inside it is being cleaned any more. -/
theorem noneStuck_erase (h : s.NoneStuck) (hw : s.subio_db.get w = some wr)
    (hsubio : s'.subio_db = s.subio_db.erase w)
    (hheap : ∀ p b, s'.heap p = some b → b.state = .CLEANING → s.heap p = some b ∧
      ¬(wr.blkwr = true ∧ b.io_cache = wr.io_cache ∧ wr.range.fullyInclude b.range = true)) :
    s'.NoneStuck := by
  intro p b hb hstate
  obtain ⟨hb, hout⟩ := hheap p b hb hstate
  obtain ⟨w', wr', hw', hblkwr, hc, hinc⟩ := h p b hb hstate
  refine ⟨w', wr', ?_, hblkwr, hc, hinc⟩
  rw [hsubio, KeyedDb.get_erase, if_neg, hw']
  rintro rfl
  rw [hw] at hw'
  obtain rfl := Option.some.inj hw'
  exact hout ⟨hblkwr, hc.symm, hinc⟩

theorem noneStuck_subioWriteCb (hcoh : s.Coherent) (h : s.NoneStuck) {bt_err : BtErr}
    (hg : s.FailsClean (.subio_write_cb w bt_err)) : (s.subioWriteCb w bt_err).NoneStuck := by
  unfold Pool.subioWriteCb
  cases hw : s.subio_db.get w with
  | none => exact h
  | some wr =>
    dsimp only
    split_ifs with hearly hblkwr
    · exact h
    · cases bt_err with
      | ERROR =>
        refine noneStuck_erase h hw rfl fun p b hb hstate => ⟨hb, fun hin => ?_⟩
        obtain ⟨hclean, -⟩ := hg wr hw
        exact hclean hblkwr p ((hcoh.mem_lru p).2 ⟨b, hb⟩) b hb hin.2.1 hin.2.2 hstate
      | OK =>
        refine noneStuck_erase h hw rfl fun p b hb hstate => ?_
        have hb : (if p ∈ s.blockFullyIncludedIn wr.io_cache wr.range then
          (s.heap p).map Block.notifyCleaned else s.heap p) = some b := hb
        split_ifs at hb with hin
        · -- it would be clean by now
          obtain ⟨b₀, -, rfl⟩ := Option.map_eq_some_iff.1 hb
          unfold Block.notifyCleaned at hstate
          split_ifs at hstate with hcleaning
          exact absurd hstate hcleaning
        · refine ⟨hb, fun hand => hin ?_⟩
          exact hcoh.held.mem_blockFullyIncludedIn.2 ⟨b, hb, hand.2⟩
    · exact noneStuck_erase h hw rfl fun p b hb _ => ⟨hb, fun hand => hblkwr hand.1⟩

/-- The handlers of the other events let the blocks be, or drop some. -/
theorem noneStuck_handle (hcoh : s.Coherent) (h : s.NoneStuck) (hg : s.FailsClean e) :
    (s.handle e).NoneStuck := by
  -- the answer of a block write is the only event which can leave a block stuck
  cases e with
  | subio_write_cb w bt_err => exact noneStuck_subioWriteCb hcoh h hg
  | read_ctor c range inside => exact h.calm (Calm.of_eq rfl rfl)
  | write_ctor c range inside data =>
    rw [Pool.handle]
    split_ifs
    · have hcalm := calm_blockRemoveIncludedIn s c range
      refine h.calm ⟨hcalm.heap, fun w wr hw => ⟨wr, ?_, rfl, rfl, rfl⟩⟩
      show ((s.blockRemoveIncludedIn c range).subio_db.push
        (s.blockRemoveIncludedIn c range).next _).get w = some wr
      obtain ⟨hsubio, hnext, -⟩ := blockRemoveIncludedIn_rest s c range
      rw [hsubio, hnext]
      exact hcoh.get_push_of_get hw
    · exact h.calm (Calm.of_eq rfl rfl)
  | zerotimer op =>
    unfold Pool.handle Pool.zerotimer
    dsimp only
    split
    · exact h
    · split
      · exact h.calm (Calm.of_eq rfl rfl)
      · exact h
  | subio_read op =>
    unfold Pool.handle Pool.subioRead
    dsimp only
    split
    · exact h
    · split
      · exact h.calm (Calm.of_eq rfl rfl)
      · exact h
  | blkrd_cb op bt_err =>
    unfold Pool.handle Pool.blkrdCb
    dsimp only
    split
    · exact h
    · split
      · exact h.calm (Calm.of_eq rfl rfl)
      · exact h.calm (Calm.of_eq rfl rfl)
      · exact h
  | subio_write w =>
    unfold Pool.handle Pool.subioWrite
    dsimp only
    split
    · exact h
    · split
      · exact h
      · refine h.calm ⟨fun _ _ hb _ => hb, fun w' wr' hw' => ?_⟩
        show ∃ wr'', (s.subio_db.modify w _).get w' = some wr'' ∧ _
        rw [KeyedDb.get_modify]
        split_ifs with heq
        · refine ⟨{ wr' with performed := true }, ?_, rfl, rfl, rfl⟩
          rw [← heq, hw', Option.map_some]
        · exact ⟨wr', hw', rfl, rfl, rfl⟩
  | cleaning_timeout c => exact h.calm (Calm.of_eq rfl rfl)
  | stopping_ctor c => exact h.calm (Calm.of_eq rfl rfl)
  | resume => exact h

omit [DecidableEq κ] in
theorem noneStuck_chunkPostProcess (h : s.NoneStuck) (op p : ℕ) :
    (s.chunkPostProcess op p).NoneStuck := by
  have hwrite : ∀ (b : Block cfg) (datum : Bytes) (q : ℕ) (b' : Block cfg),
      Function.update s.heap p (some (b.notifyWrite datum)) q = some b' → b'.state = .CLEANING →
        s.heap q = some b' := by
    intro b datum q b' hb' hstate
    rw [Function.update_apply] at hb'
    split_ifs at hb'
    · obtain rfl := Option.some.inj hb'
      cases hstate
    · exact hb'
  unfold Pool.chunkPostProcess
  split
  · exact h.calm (Calm.of_eq rfl rfl)
  · split
    · unfold Pool.readChunk
      split
      · exact h.calm (Calm.of_eq rfl rfl)
      · dsimp only
        split
        · exact h.calm (Calm.of_eq rfl rfl)
        · exact h.calm (Calm.of_eq rfl rfl)
    · split_ifs
      · exact h.calm (Calm.of_eq rfl rfl)
      · unfold Pool.writeChunk
        split
        · exact h.calm (Calm.of_eq rfl rfl)
        · dsimp only
          split
          · exact h.calm ⟨hwrite _ _, fun w wr hw => ⟨wr, hw, rfl, rfl, rfl⟩⟩
          · exact h.calm ⟨hwrite _ _, fun w wr hw => ⟨wr, hw, rfl, rfl, rfl⟩⟩

theorem noneStuck_resume (hcoh : s.Coherent) (h : s.NoneStuck) : s.resume.NoneStuck := by
  unfold Pool.resume
  cases hctl : s.ctl with
  | idle => exact h
  | launchNextChunk op =>
    unfold Pool.launchNextChunk
    dsimp only
    split
    · exact h.calm (Calm.of_eq rfl rfl)
    · split
      · exact h.calm (Calm.of_eq rfl rfl)
      · split_ifs
        · exact h.calm (Calm.of_eq rfl rfl)
        · exact h.calm (Calm.of_eq rfl rfl)
  | newBlock op datum =>
    unfold Pool.newBlock
    dsimp only
    split
    · exact h.calm (Calm.of_eq rfl rfl)
    next o _ =>
      -- a new block is not CLEANING, and the others are where they were
      refine h.calm ⟨fun q b hb hstate => ?_, fun w wr hw => ⟨wr, hw, rfl, rfl, rfl⟩⟩
      have hb : Function.update s.heap s.next (some (o.newBlock datum)) q = some b := hb
      rw [Function.update_apply] at hb
      split_ifs at hb
      · obtain rfl := Option.some.inj hb
        cases hstate
      · exact hb
  | shrinkIfNeeded k =>
    unfold Pool.shrinkIfNeeded
    dsimp only
    split_ifs
    · exact h.calm (Calm.of_eq rfl rfl)
    · split
      · exact h.calm (Calm.of_eq rfl rfl)
      · split
        · exact h.calm (Calm.of_eq rfl rfl)
        · split
          · exact h.calm calm_blockDtor
          · exact h.calm (Calm.of_eq rfl rfl)
          · exact h.calm (Calm.of_eq rfl rfl)
  | startBlkwr c off k => exact noneStuck_startBlkwr hcoh h c off k
  | ret k =>
    cases k with
    | chunkPostProcess op p => exact noneStuck_chunkPostProcess h op p
    | startBlkwrAll c =>
      unfold Pool.startBlkwrAll
      dsimp only
      split
      · exact h.calm (Calm.of_eq rfl rfl)
      · exact h.calm (Calm.of_eq rfl rfl)
    | notifyBlkwrCompletion c =>
      unfold Pool.notifyBlkwrCompletion
      dsimp only
      split
      · exact h.calm (Calm.of_eq rfl rfl)
      · exact h.calm (Calm.of_eq rfl rfl)

theorem noneStuck_step (hcoh : s.Coherent) (h : s.NoneStuck) (hg : s.FailsClean e) :
    (s.step e).NoneStuck := by
  unfold Pool.step
  split
  next => exact noneStuck_handle hcoh h hg
  next => exact noneStuck_resume hcoh h
  next => exact h

/-! ### Writes which fail -/

/-- A write which has failed is gone, and wrote nothing; an operation or a write of the sub-io
has written something only if it says so. -/
structure Unwritten (s : Pool cfg) : Prop where
  failed : ∀ op c range data, .written op c range data .ERROR ∈ s.log →
    op < s.next ∧ s.op_db op = none ∧ s.subio_db.get op = none ∧
      ∀ c' range' data', .wrote op c' range' data' ∉ s.log
  op : ∀ op o, s.op_db op = some o → o.done_len = 0 →
    ∀ c range data, .wrote op c range data ∉ s.log
  subio : ∀ w wr, s.subio_db.get w = some wr → wr.performed = false →
    ∀ c range data, .wrote w c range data ∉ s.log
  wrote_lt : ∀ op c range data, .wrote op c range data ∈ s.log → op < s.next
  apart : ∀ op o, s.op_db op = some o → s.subio_db.get op = none

section Quiet

omit [DecidableEq κ]

/-- From the log `l` to `l'` nothing is written and no write fails. -/
structure Quiet (l l' : List (Entry κ)) : Prop where
  written : ∀ op c range data, .written op c range data .ERROR ∈ l' →
    .written op c range data .ERROR ∈ l
  wrote : ∀ op c range data, .wrote op c range data ∈ l' → .wrote op c range data ∈ l

theorem Quiet.refl (l : List (Entry κ)) : Quiet l l := ⟨fun _ _ _ _ => id, fun _ _ _ _ => id⟩

theorem Quiet.cons {a : Entry κ} (hwritten : ∀ op c range data, .written op c range data .ERROR ≠ a)
    (hwrote : ∀ op c range data, .wrote op c range data ≠ a) (l : List (Entry κ)) :
    Quiet l (a :: l) where
  written op c range data hmem := (List.mem_cons.1 hmem).resolve_left (hwritten op c range data)
  wrote op c range data hmem := (List.mem_cons.1 hmem).resolve_left (hwrote op c range data)

theorem Quiet.asked (op : ℕ) (l : List (Entry κ)) : Quiet l (.asked op :: l) :=
  Quiet.cons (fun _ _ _ _ heq => by cases heq) (fun _ _ _ _ heq => by cases heq) l

theorem Quiet.read (op : ℕ) (c : κ) (range : FileRange) (data : Bytes) (bt_err : BtErr)
    (l : List (Entry κ)) : Quiet l (.read op c range data bt_err :: l) :=
  Quiet.cons (fun _ _ _ _ heq => by cases heq) (fun _ _ _ _ heq => by cases heq) l

theorem Quiet.stopped (c : κ) (bt_err : BtErr) (l : List (Entry κ)) :
    Quiet l (.stopped c bt_err :: l) :=
  Quiet.cons (fun _ _ _ _ heq => by cases heq) (fun _ _ _ _ heq => by cases heq) l

end Quiet

namespace Unwritten

omit [DecidableEq κ] in
/-- What writes nothing, asks nothing, and is no failure. -/
theorem frame (h : s.Unwritten) (hnext : s.next ≤ s'.next)
    (hlog : Quiet s.log s'.log)
    (hop : ∀ op o, s'.op_db op = some o →
      ∃ o₀, s.op_db op = some o₀ ∧ (o.done_len = 0 → o₀.done_len = 0))
    (hsubio : ∀ w wr, s'.subio_db.get w = some wr →
      ∃ wr₀, s.subio_db.get w = some wr₀ ∧ (wr.performed = false → wr₀.performed = false)) :
    s'.Unwritten where
  failed op c range data hmem := by
    obtain ⟨hlt, hgone, hgone', hnone⟩ := h.failed op c range data (hlog.written _ _ _ _ hmem)
    refine ⟨hlt.trans_le hnext, ?_, ?_, fun c' range' data' hw =>
      hnone _ _ _ (hlog.wrote _ _ _ _ hw)⟩
    · by_contra hne
      obtain ⟨o, ho⟩ := Option.ne_none_iff_exists'.1 hne
      obtain ⟨o₀, ho₀, -⟩ := hop op o ho
      rw [hgone] at ho₀
      cases ho₀
    · by_contra hne
      obtain ⟨wr, hwr⟩ := Option.ne_none_iff_exists'.1 hne
      obtain ⟨wr₀, hwr₀, -⟩ := hsubio op wr hwr
      rw [hgone'] at hwr₀
      cases hwr₀
  op op o ho hzero c range data hmem := by
    obtain ⟨o₀, ho₀, hzero₀⟩ := hop op o ho
    exact h.op op o₀ ho₀ (hzero₀ hzero) c range data (hlog.wrote _ _ _ _ hmem)
  subio w wr hw hperf c range data hmem := by
    obtain ⟨wr₀, hwr₀, hperf₀⟩ := hsubio w wr hw
    exact h.subio w wr₀ hwr₀ (hperf₀ hperf) c range data (hlog.wrote _ _ _ _ hmem)
  wrote_lt op c range data hmem :=
    (h.wrote_lt op c range data (hlog.wrote _ _ _ _ hmem)).trans_le hnext
  apart op o ho := by
    obtain ⟨o₀, ho₀, -⟩ := hop op o ho
    by_contra hne
    obtain ⟨wr, hwr⟩ := Option.ne_none_iff_exists'.1 hne
    obtain ⟨wr₀, hwr₀, -⟩ := hsubio op wr hwr
    rw [h.apart op o₀ ho₀] at hwr₀
    cases hwr₀

omit [DecidableEq κ] in
/-- Neither the operations nor the sub-io nor the log are touched. -/
theorem frame_eq (h : s.Unwritten) (hnext : s.next ≤ s'.next) (hop : s'.op_db = s.op_db)
    (hsubio : s'.subio_db = s.subio_db) (hlog : s'.log = s.log) : s'.Unwritten :=
  h.frame hnext (hlog ▸ Quiet.refl _)
    (fun op o ho => ⟨o, by rw [← hop, ho], id⟩) fun w wr hw => ⟨wr, by rw [← hsubio, hw], id⟩

omit [DecidableEq κ] in
/-- One operation is changed, but for what it has done, or is gone. -/
theorem frame_op (h : s.Unwritten) {o' : Option (Op cfg)} (ho : s.op_db op = some o)
    (ho' : ∀ o₁, o' = some o₁ → o₁.done_len = 0 → o.done_len = 0) (hnext : s'.next = s.next)
    (hop : s'.op_db = Function.update s.op_db op o') (hsubio : s'.subio_db = s.subio_db)
    (hlog : Quiet s.log s'.log) : s'.Unwritten := by
  refine h.frame hnext.ge hlog (fun op' o₁ ho₁ => ?_)
    fun w wr hw => ⟨wr, by rw [← hsubio, hw], id⟩
  rw [hop, Function.update_apply] at ho₁
  split_ifs at ho₁ with heq
  · exact ⟨o, heq ▸ ho, ho' o₁ ho₁⟩
  · exact ⟨o₁, ho₁, id⟩

/-- A write is given to the sub-io, under a new address. -/
theorem push (hcoh : s.Coherent) (h : s.Unwritten)
    (hnext : s'.next = s.next + 1) (hop : s'.op_db = s.op_db)
    (hsubio : s'.subio_db = s.subio_db.push s.next wr)
    (hlog : Quiet s.log s'.log) : s'.Unwritten where
  failed op c range data hmem := by
    obtain ⟨hlt, hgone, hgone', hnone⟩ := h.failed op c range data (hlog.written _ _ _ _ hmem)
    refine ⟨by omega, by rw [hop, hgone], ?_, fun c' range' data' hw =>
      hnone _ _ _ (hlog.wrote _ _ _ _ hw)⟩
    rw [hsubio, hcoh.get_push_subio, if_neg hlt.ne, hgone']
  op op o ho hzero c range data hmem := by
    rw [hop] at ho
    exact h.op op o ho hzero c range data (hlog.wrote _ _ _ _ hmem)
  subio w wr' hw hperf' c range data hmem := by
    rw [hsubio] at hw
    rcases hcoh.get_push_cases hw with ⟨rfl, -⟩ | hw
    · exact absurd (h.wrote_lt _ c range data (hlog.wrote _ _ _ _ hmem)) (lt_irrefl _)
    · exact h.subio w wr' hw hperf' c range data (hlog.wrote _ _ _ _ hmem)
  wrote_lt op c range data hmem := by
    have := h.wrote_lt op c range data (hlog.wrote _ _ _ _ hmem)
    omega
  apart op o ho := by
    rw [hop] at ho
    rw [hsubio, hcoh.get_push_subio, if_neg (hcoh.ops op o ho).lt.ne, h.apart op o ho]

/-- An operation is asked, under a new address. -/
theorem opCtor (hcoh : s.Coherent) (h : s.Unwritten) (range : FileRange)
    (inside : range.last < cfg.totfile_size c) (job : Job) :
    (s.opCtor c range inside job).Unwritten := by
  obtain ⟨hwritten, hwrote⟩ := Quiet.asked s.next s.log
  refine ⟨fun op c range data hmem => ?_, fun op o ho hzero c range data hmem => ?_,
    fun w wr hw hperf c range data hmem => h.subio w wr hw hperf c range data
      (hwrote _ _ _ _ hmem), fun op c range data hmem =>
      (h.wrote_lt op c range data (hwrote _ _ _ _ hmem)).trans (Nat.lt_succ_self _),
    fun op o ho => ?_⟩
  · obtain ⟨hlt, hgone, hgone', hnone⟩ := h.failed op c range data (hwritten _ _ _ _ hmem)
    refine ⟨hlt.trans (Nat.lt_succ_self _), ?_, hgone', fun c' range' data' hw =>
      hnone _ _ _ (hwrote _ _ _ _ hw)⟩
    show Function.update s.op_db s.next _ op = none
    rw [Function.update_of_ne hlt.ne, hgone]
  · have ho : Function.update s.op_db s.next _ op = some o := ho
    rw [Function.update_apply] at ho
    split_ifs at ho with heq
    · rw [heq] at hmem
      exact lt_irrefl _ (h.wrote_lt _ c range data (hwrote _ _ _ _ hmem))
    · exact h.op op o ho hzero c range data (hwrote _ _ _ _ hmem)
  · have ho : Function.update s.op_db s.next _ op = some o := ho
    rw [Function.update_apply] at ho
    split_ifs at ho with heq
    · show s.subio_db.get op = none
      by_contra hne
      obtain ⟨wr, hw⟩ := Option.ne_none_iff_exists'.1 hne
      exact (hcoh.subio_lt op wr hw).ne heq
    · exact h.apart op o ho

/-- An operation fails, a write before it has written anything. -/
theorem notifyFailure (hcoh : s.Coherent) (h : s.Unwritten) (ho : s.op_db op = some o)
    (hzero : o.isWrite = true → o.done_len = 0) : (s.notifyFailure op o).Unwritten := by
  have hop : ∀ op' o', Function.update s.op_db op none op' = some o' → s.op_db op' = some o' := by
    intro op' o' ho'
    rw [Function.update_apply] at ho'
    split_ifs at ho'
    exact ho'
  cases hjob : o.job with
  | read buffer =>
    have hlog : (s.notifyFailure op o).log =
        .read op o.io_cache o.totfile_range buffer .ERROR :: s.log := by
      rw [Pool.notifyFailure, hjob]
    exact h.frame_op ho (fun _ heq => by cases heq) rfl rfl rfl (hlog ▸ Quiet.read ..)
  | write data2write =>
    have hlog : (s.notifyFailure op o).log =
        .written op o.io_cache o.totfile_range data2write .ERROR :: s.log := by
      rw [Pool.notifyFailure, hjob]
    -- nothing is written when the failure is reported: only the report is new in the log
    have hdone := hzero (by rw [Op.isWrite, hjob])
    have hwrote : ∀ op' c range data, .wrote op' c range data ∈ (s.notifyFailure op o).log →
        .wrote op' c range data ∈ s.log := by
      intro op' c range data hmem
      rw [hlog] at hmem
      exact (List.mem_cons.1 hmem).resolve_left fun heq => by cases heq
    refine ⟨fun op' c range data hmem => ?_, fun op' o' ho' hz c range data hmem =>
        h.op op' o' (hop op' o' ho') hz c range data (hwrote _ _ _ _ hmem),
      fun w wr hw hperf c range data hmem =>
        h.subio w wr hw hperf c range data (hwrote _ _ _ _ hmem),
      fun op' c range data hmem => h.wrote_lt op' c range data (hwrote _ _ _ _ hmem),
      fun op' o' ho' => h.apart op' o' (hop op' o' ho')⟩
    rw [hlog] at hmem
    rcases List.mem_cons.1 hmem with heq | hmem
    · injection heq with heq
      rw [heq]
      exact ⟨(hcoh.ops op o ho).lt, Function.update_self .., h.apart op o ho,
        fun c' range' data' hw => h.op op o ho hdone _ _ _ (hwrote _ _ _ _ hw)⟩
    · obtain ⟨hlt, hgone, hgone', hnone⟩ := h.failed op' c range data hmem
      refine ⟨hlt, ?_, hgone', fun c' range' data' hw => hnone _ _ _ (hwrote _ _ _ _ hw)⟩
      show Function.update s.op_db op none op' = none
      rw [Function.update_apply]
      split_ifs
      · rfl
      · exact hgone

/-- The sub-io performs a write. -/
theorem subioWrite (hcoh : s.Coherent) (h : s.Unwritten) (w : ℕ) : (s.subioWrite w).Unwritten := by
  unfold Pool.subioWrite
  split
  · exact h
  next wr hw =>
    split
    · exact h
    · have hget : ∀ w' wr', (s.subio_db.modify w fun wr => { wr with performed := true }).get w' =
          some wr' → (wr'.performed = false → w' ≠ w ∧ s.subio_db.get w' = some wr') ∧
            s.subio_db.get w' ≠ none := by
        intro w' wr' hw'
        rw [KeyedDb.get_modify] at hw'
        split_ifs at hw' with heq
        · rw [hw, Option.map_some] at hw'
          obtain rfl := Option.some.inj hw'
          rw [heq, hw]
          exact ⟨fun hperf => (by cases hperf), Option.some_ne_none wr⟩
        · rw [hw']
          exact ⟨fun _ => ⟨heq, rfl⟩, Option.some_ne_none wr'⟩
      have hnone : ∀ w', s.subio_db.get w' = none →
          (s.subio_db.modify w fun wr => { wr with performed := true }).get w' = none := by
        intro w' hw'
        by_contra hne
        obtain ⟨wr', hwr'⟩ := Option.ne_none_iff_exists'.1 hne
        exact (hget w' wr' hwr').2 hw'
      have hwrote : ∀ op c range data, .wrote op c range data ∈ (if wr.blkwr = true then s.log
          else .wrote w wr.io_cache wr.range wr.data2write :: s.log) →
            op = w ∨ .wrote op c range data ∈ s.log := by
        intro op c range data hmem
        split_ifs at hmem
        · exact .inr hmem
        · refine (List.mem_cons.1 hmem).imp_left fun heq => ?_
          injection heq
      refine ⟨fun op c range data hmem => ?_, fun op o ho hzero c range data hmem => ?_,
        fun w' wr' hw' hperf c range data hmem => ?_, fun op c range data hmem => ?_,
        fun op o ho => hnone op (h.apart op o ho)⟩
      -- the report is an older one, and the write it is about is not on the way any more
      · have hold : .written op c range data .ERROR ∈ s.log := by
          have hmem : _ ∈ (if wr.blkwr = true then s.log
            else .wrote w wr.io_cache wr.range wr.data2write :: s.log) := hmem
          split_ifs at hmem
          · exact hmem
          · exact (List.mem_cons.1 hmem).resolve_left fun heq => by cases heq
        obtain ⟨hlt, hgone, hgone', hno⟩ := h.failed op c range data hold
        refine ⟨hlt, hgone, hnone op hgone', fun c' range' data' hmem' => ?_⟩
        rcases hwrote _ _ _ _ hmem' with rfl | hmem'
        · rw [hw] at hgone'
          cases hgone'
        · exact hno _ _ _ hmem'
      · rcases hwrote _ _ _ _ hmem with rfl | hmem
        · have hapart := h.apart op o ho
          rw [hw] at hapart
          cases hapart
        · exact h.op op o ho hzero c range data hmem
      · obtain ⟨hne, hold⟩ := (hget w' wr' hw').1 hperf
        rcases hwrote _ _ _ _ hmem with heq | hmem
        · exact hne heq
        · exact h.subio w' wr' hold hperf c range data hmem
      · rcases hwrote _ _ _ _ hmem with rfl | hmem
        · exact hcoh.subio_lt op wr hw
        · exact h.wrote_lt op c range data hmem

/-- A write of the sub-io is reported, a failure of a forwarded one only when it wrote nothing. -/
theorem subioWriteCb (hcoh : s.Coherent) (h : s.Unwritten) {bt_err : BtErr}
    (hg : s.FailsClean (.subio_write_cb w bt_err)) : (s.subioWriteCb w bt_err).Unwritten := by
  have herase : ∀ w' wr', (s.subio_db.erase w).get w' = some wr' →
      ∃ wr₀, s.subio_db.get w' = some wr₀ ∧ (wr'.performed = false → wr₀.performed = false) :=
    fun w' wr' hw' => ⟨wr', (Coherent.get_erase_cases hw').2, id⟩
  unfold Pool.subioWriteCb
  cases hw : s.subio_db.get w with
  | none => exact h
  | some wr =>
    dsimp only
    split_ifs with hearly hblkwr
    · exact h
    · cases bt_err with
      | ERROR =>
        exact h.frame (le_refl _) (Quiet.refl _)
          (fun op o ho => ⟨o, ho, id⟩) herase
      | OK =>
        exact h.frame (le_refl _) (Quiet.refl _)
          (fun op o ho => ⟨o, ho, id⟩) herase
    · have hwrote : ∀ op c range data, .wrote op c range data ∈
          .written w wr.io_cache wr.range wr.data2write bt_err :: s.log →
            .wrote op c range data ∈ s.log := by
        intro op c range data hmem
        exact (List.mem_cons.1 hmem).resolve_left fun heq => by cases heq
      have hbase : Unwritten { s with subio_db := s.subio_db.erase w } :=
        h.frame (le_refl _) (Quiet.refl _)
          (fun op o ho => ⟨o, ho, id⟩) herase
      refine ⟨fun op c range data hmem => ?_, fun op o ho hzero c range data hmem =>
          hbase.op op o ho hzero c range data (hwrote _ _ _ _ hmem),
        fun w' wr' hw' hperf c range data hmem =>
          hbase.subio w' wr' hw' hperf c range data (hwrote _ _ _ _ hmem),
        fun op c range data hmem => hbase.wrote_lt op c range data (hwrote _ _ _ _ hmem),
        hbase.apart⟩
      rcases List.mem_cons.1 hmem with heq | hmem
      · injection heq with hop _ _ _ herr
        rw [← herr] at hg
        have hperf := (hg wr hw).2 (Bool.eq_false_iff.2 hblkwr)
        refine ⟨hop ▸ hcoh.subio_lt w wr hw, ?_, ?_, fun c' range' data' hmem' => ?_⟩
        · -- an address is used once
          by_contra hne
          obtain ⟨o, ho⟩ := Option.ne_none_iff_exists'.1 hne
          have hapart := h.apart op o ho
          rw [hop, hw] at hapart
          cases hapart
        · show (s.subio_db.erase w).get op = none
          rw [KeyedDb.get_erase, if_pos hop]
        · rw [hop] at hmem'
          exact h.subio w wr hw hperf _ _ _ (hwrote _ _ _ _ hmem')
      · obtain ⟨hlt, hgone, hgone', hno⟩ := hbase.failed op c range data hmem
        exact ⟨hlt, hgone, hgone', fun c' range' data' hw' => hno _ _ _ (hwrote _ _ _ _ hw')⟩

/-- A chunk is written. -/
theorem writeChunk (hcoh : s.Coherent) (h : s.Unwritten) (ho : s.op_db op = some o)
    (data2write : Bytes) (p : ℕ) : (s.writeChunk op o data2write p).Unwritten := by
  unfold Pool.writeChunk
  split
  · exact h.frame_eq (le_refl _) rfl rfl rfl
  next b common hcommon =>
    dsimp only
    -- what is common to both ends: the operation is the one that wrote
    have hbase : ∀ (o' : Option (Op cfg)) (log : List (Entry κ)) (s' : Pool cfg),
        (∀ o₁, o' = some o₁ → o₁.done_len ≠ 0) → s'.next = s.next →
        s'.op_db = Function.update s.op_db op o' → s'.subio_db = s.subio_db → s'.log = log →
        (∀ op' c range data, .written op' c range data .ERROR ∈ log →
          .written op' c range data .ERROR ∈ s.log) →
        (∀ op' c range data, .wrote op' c range data ∈ log →
          op' = op ∨ .wrote op' c range data ∈ s.log) → s'.Unwritten := by
      intro o' log s' ho' hnext hop hsubio hlog hwritten hwrote
      refine ⟨fun op' c range data hmem => ?_, fun op' o₁ ho₁ hzero c range data hmem => ?_,
        fun w wr hw hperf c range data hmem => ?_, fun op' c range data hmem => ?_,
        fun op' o₁ ho₁ => ?_⟩
      · rw [hlog] at hmem
        obtain ⟨hlt, hgone, hgone', hno⟩ := h.failed op' c range data (hwritten _ _ _ _ hmem)
        have hne : op' ≠ op := by
          rintro rfl
          rw [ho] at hgone
          cases hgone
        refine ⟨hnext ▸ hlt, ?_, hsubio ▸ hgone', fun c' range' data' hmem' => ?_⟩
        · rw [hop, Function.update_of_ne hne, hgone]
        · rw [hlog] at hmem'
          exact hno _ _ _ ((hwrote _ _ _ _ hmem').resolve_left hne)
      · rw [hlog] at hmem
        rw [hop, Function.update_apply] at ho₁
        split_ifs at ho₁ with heq
        · exact ho' o₁ ho₁ hzero
        · exact h.op op' o₁ ho₁ hzero c range data ((hwrote _ _ _ _ hmem).resolve_left heq)
      · rw [hlog] at hmem
        rw [hsubio] at hw
        rcases hwrote _ _ _ _ hmem with rfl | hmem
        · have hapart := h.apart w o ho
          rw [hw] at hapart
          cases hapart
        · exact h.subio w wr hw hperf c range data hmem
      · rw [hlog] at hmem
        rw [hnext]
        rcases hwrote _ _ _ _ hmem with rfl | hmem
        · exact (hcoh.ops op' o ho).lt
        · exact h.wrote_lt op' c range data hmem
      · rw [hop, Function.update_apply] at ho₁
        rw [hsubio]
        split_ifs at ho₁ with heq
        · rw [heq]
          exact h.apart op o ho
        · exact h.apart op' o₁ ho₁
    split
    next o' hadvance =>
      refine hbase (some o') _ _ (fun o₁ heq => ?_) rfl rfl rfl rfl
        (fun op' c range data hmem => ?_) fun op' c range data hmem => ?_
      · obtain rfl := Option.some.inj heq
        obtain ⟨hlt, rfl⟩ := advance_eq_some hadvance
        exact (Nat.add_pos_right _ (Nat.succ_pos _)).ne'
      · exact (List.mem_cons.1 hmem).resolve_left fun heq => by cases heq
      · refine (List.mem_cons.1 hmem).imp_left fun heq => ?_
        injection heq
    next =>
      refine hbase none _ _ (fun o₁ heq => by cases heq) rfl rfl rfl rfl
        (fun op' c range data hmem => ?_) fun op' c range data hmem => ?_
      · have hmem := (List.mem_cons.1 hmem).resolve_left fun heq => by cases heq
        exact (List.mem_cons.1 hmem).resolve_left fun heq => by cases heq
      · have hmem := (List.mem_cons.1 hmem).resolve_left fun heq => by cases heq
        refine (List.mem_cons.1 hmem).imp_left fun heq => ?_
        injection heq

omit [DecidableEq κ] in
/-- Where an operation stands is no matter. -/
theorem setPhase (h : s.Unwritten) (ho : s.op_db op = some o) {phase : Phase}
    (hnext : s'.next = s.next)
    (hop : s'.op_db = Function.update s.op_db op (some { o with phase := phase }))
    (hsubio : s'.subio_db = s.subio_db) (hlog : s'.log = s.log) : s'.Unwritten := by
  refine h.frame_op ho (fun o₁ heq => ?_) hnext hop hsubio (hlog ▸ Quiet.refl _)
  obtain rfl := Option.some.inj heq
  exact id

theorem writeThru (hcoh : s.Coherent) (hctl : s.ctl = .idle) (hthru : cfg.write_thru c = true)
    (h : s.Unwritten) (range : FileRange) (data : Bytes) :
    (s.writeThru c range data).Unwritten := by
  obtain ⟨hsubio, hnext, hop, hlog⟩ := blockRemoveIncludedIn_rest s c range
  have hremoved : (s.blockRemoveIncludedIn c range).Unwritten :=
    h.frame_eq hnext.ge hop hsubio hlog
  exact hremoved.push (hcoh.blockRemoveIncludedIn hctl hthru range) rfl rfl rfl (Quiet.asked ..)

theorem handle (hcoh : s.Coherent) (hctl : s.ctl = .idle) (h : s.Unwritten)
    (hg : s.FailsClean e) : (s.handle e).Unwritten := by
  cases e with
  | read_ctor c range inside => exact h.opCtor hcoh range inside _
  | write_ctor c range inside data =>
    rw [Pool.handle]
    split_ifs with hthru
    · exact h.writeThru hcoh hctl hthru range data
    · exact h.opCtor hcoh range inside _
  | zerotimer op =>
    unfold Pool.handle Pool.zerotimer
    dsimp only
    split
    · exact h
    next ho =>
      split
      · exact h.setPhase ho rfl rfl rfl rfl
      · exact h
  | subio_read op =>
    unfold Pool.handle Pool.subioRead
    dsimp only
    split
    · exact h
    next ho =>
      split
      · exact h.setPhase ho rfl rfl rfl rfl
      · exact h
  | blkrd_cb op bt_err =>
    unfold Pool.handle Pool.blkrdCb
    dsimp only
    split
    · exact h
    next ho =>
      split
      · exact h.setPhase ho rfl rfl rfl rfl
      · exact h.notifyFailure hcoh ho (hg _ ho)
      · exact h
  | subio_write w => exact h.subioWrite hcoh w
  | subio_write_cb w bt_err => exact h.subioWriteCb hcoh hg
  | cleaning_timeout c => exact h.frame_eq (le_refl _) rfl rfl rfl
  | stopping_ctor c => exact h.frame_eq (le_refl _) rfl rfl rfl
  | resume => exact h

omit [DecidableEq κ] in
theorem readChunk (h : s.Unwritten) (ho : s.op_db op = some o) (buffer : Bytes) (p : ℕ) :
    (s.readChunk op o buffer p).Unwritten := by
  unfold Pool.readChunk
  split
  · exact h.frame_eq (le_refl _) rfl rfl rfl
  next b common hcommon =>
    dsimp only
    split
    next o' hadvance =>
      refine h.frame_op ho (fun o₁ heq hzero => ?_) rfl rfl rfl (Quiet.refl _)
      obtain rfl := Option.some.inj heq
      obtain ⟨hlt, rfl⟩ := advance_eq_some hadvance
      exact (Nat.add_eq_zero_iff.1 hzero).1
    next =>
      exact h.frame_op ho (fun o₁ heq => by cases heq) rfl rfl rfl (Quiet.read ..)

theorem chunkPostProcess (hcoh : s.Coherent) (hctl : s.ctl = .ret (.chunkPostProcess op p))
    (h : s.Unwritten) (hg : s.FailsClean .resume) : (s.chunkPostProcess op p).Unwritten := by
  rw [FailsClean, hctl] at hg
  unfold Pool.chunkPostProcess
  split
  · exact h.frame_eq (le_refl _) rfl rfl rfl
  next o ho =>
    split
    next buffer hjob => exact h.readChunk ho buffer p
    next data2write hjob =>
      split_ifs with herr
      · exact h.notifyFailure hcoh ho fun hwrite => hg o ho hwrite herr
      · exact h.writeChunk hcoh ho data2write p

theorem startBlkwr (hcoh : s.Coherent) (h : s.Unwritten) (c : κ) (off : ℕ) (k : Ret κ) :
    Unwritten { s.startBlkwr c off with ctl := .ret k } := by
  rcases hcoh.held.startBlkwr_cases c off with heq | ⟨range, data, hrange, heq, -⟩
  · rw [heq]
    exact h.frame_eq (le_refl _) rfl rfl rfl
  · rw [heq]
    exact h.push hcoh rfl rfl rfl (Quiet.refl _)

theorem resume (hcoh : s.Coherent) (h : s.Unwritten) (hg : s.FailsClean .resume) :
    s.resume.Unwritten := by
  unfold Pool.resume
  cases hctl : s.ctl with
  | idle => exact h
  | launchNextChunk op =>
    unfold Pool.launchNextChunk
    dsimp only
    split
    · exact h.frame_eq (le_refl _) rfl rfl rfl
    next ho =>
      split
      · exact h.frame_eq (le_refl _) rfl rfl rfl
      · split_ifs
        · exact h.frame_eq (le_refl _) rfl rfl rfl
        · exact h.setPhase ho rfl rfl rfl rfl
  | newBlock op datum =>
    unfold Pool.newBlock
    dsimp only
    split
    · exact h.frame_eq (le_refl _) rfl rfl rfl
    · exact h.frame_eq (Nat.le_succ _) rfl rfl rfl
  | shrinkIfNeeded k =>
    unfold Pool.shrinkIfNeeded
    dsimp only
    split_ifs
    · exact h.frame_eq (le_refl _) rfl rfl rfl
    · split
      · exact h.frame_eq (le_refl _) rfl rfl rfl
      next p _ =>
        split
        · exact h.frame_eq (le_refl _) rfl rfl rfl
        next b hb =>
          split
          · rw [Pool.blockDtor, hb]
            exact h.frame_eq (le_refl _) rfl rfl rfl
          · exact h.frame_eq (le_refl _) rfl rfl rfl
          · exact h.frame_eq (le_refl _) rfl rfl rfl
  | startBlkwr c off k => exact h.startBlkwr hcoh c off k
  | ret k =>
    cases k with
    | chunkPostProcess op p => exact h.chunkPostProcess hcoh hctl hg
    | startBlkwrAll c =>
      unfold Pool.startBlkwrAll
      dsimp only
      split
      · exact h.frame_eq (le_refl _) rfl rfl rfl
      · exact h.frame_eq (le_refl _) rfl rfl rfl
    | notifyBlkwrCompletion c =>
      unfold Pool.notifyBlkwrCompletion
      dsimp only
      split
      · exact h.frame_eq (le_refl _) rfl rfl rfl
      · exact h.frame (le_refl _) (Quiet.stopped ..) (fun _ o ho => ⟨o, ho, id⟩)
          fun _ wr hw => ⟨wr, hw, id⟩

theorem step (hcoh : s.Coherent) (h : s.Unwritten) (hg : s.FailsClean e) :
    (s.step e).Unwritten := by
  unfold Pool.step
  split
  next hctl => exact h.handle hcoh hctl hg
  next => exact h.resume hcoh hg
  next => exact h

end Unwritten

/-! ### Runs -/

/-- While no handler runs, a read finds what was written. -/
theorem found_eq_content (hcoh : s.Coherent) (hctl : s.ctl = .idle) (c : κ) (x : ℕ) :
    s.found c x = content cfg s.log c x := by
  unfold found
  cases hfind : s.blockFind c x with
  | none =>
    refine hcoh.uncovered c x fun p b hb hc hx => ?_
    have hsome := hcoh.held.blockFind_eq_some.2 ⟨b, hb, hc, hx⟩
    rw [hfind] at hsome
    cases hsome
  | some p =>
    obtain ⟨b, hb, rfl, hx⟩ := hcoh.held.blockFind_eq_some.1 hfind
    dsimp only
    rw [hb, Option.map_some, Option.getD_some]
    exact (hcoh.blocks p b hb).stored (not_filling (chunk_of_idle hctl)) x hx

theorem failureAtomic_of_coherent (hcoh : s.Coherent) (hstuck : s.NoneStuck)
    (hunwritten : s.Unwritten) : s.FailureAtomic where
  refines := hcoh.refines
  unwritten op c range data hmem := (hunwritten.failed op c range data hmem).2.2.2
  found hctl := found_eq_content hcoh hctl
  defined hctl p b hb := (hcoh.blocks p b hb).stored (not_filling (chunk_of_idle hctl))
  cleaning := hstuck

omit [DecidableEq κ] in
theorem unwritten_init (cfg : Setup κ) : (init cfg).Unwritten where
  failed _ _ _ _ hmem := nomatch hmem
  op _ _ ho := nomatch ho
  subio _ _ hw := nomatch hw
  wrote_lt _ _ _ _ hmem := nomatch hmem
  apart _ _ ho := nomatch ho

/-- **Failed writes have no effect**: where each block fits in the pool, and the steps are orderly
and fail cleanly, every state of the run is failure atomic. -/
theorem failure_atomic_run (hfits : ∀ c off h,
      (blockRangeFor (cfg.totfile_size c) off h).len ≤ cfg.pool_maxlen) (evs : List (Event cfg))
    (hg : Guarded Pool.step (fun s e => s.Orderly e ∧ s.FailsClean e) (init cfg) evs) :
    Always Pool.step FailureAtomic (init cfg) evs := by
  have hfits : ∀ b : Block cfg, b.range.len ≤ cfg.pool_maxlen := by
    intro b
    obtain ⟨off, h, hrange⟩ := b.aligned
    rw [hrange]
    exact hfits b.io_cache off h
  have hall : Always Pool.step (fun s => s.Coherent ∧ s.NoneStuck ∧ s.Unwritten) (init cfg)
      evs := by
    refine hg.always (fun s e h he => ?_)
      ⟨coherent_init cfg, fun _ _ hb => (nomatch hb), unwritten_init cfg⟩
    obtain ⟨hcoh, hstuck, hunwritten⟩ := h
    exact ⟨hcoh.step hfits he.1, noneStuck_step hcoh hstuck he.2, hunwritten.step hcoh he.2⟩
  exact hall.mono fun s h => failureAtomic_of_coherent h.1 h.2.1 h.2.2

/-- In a file of two bytes, the block read of a write fails.  Then both bytes are written, the
block is cleaned, and written again before its block write fails; the next write is told. -/
def failAtOnce : List (Event (smallSetup 2 false)) :=
  [.write_ctor () ⟨0, 0, first_le⟩ (by decide) (fun _ => 1), .zerotimer 0, .resume,
    .blkrd_cb 0 .ERROR,
    .write_ctor () ⟨0, 1, first_le_second⟩ (by decide) (fun _ => 2), .zerotimer 1, .resume, .resume,
    .resume, .resume, .cleaning_timeout (), .resume, .resume, .resume,
    .write_ctor () ⟨0, 0, first_le⟩ (by decide) (fun _ => 3), .zerotimer 4, .resume, .resume,
    .subio_write_cb 3 .ERROR, .resume, .resume,
    .write_ctor () ⟨0, 0, first_le⟩ (by decide) (fun _ => 4), .zerotimer 5, .resume, .resume]

theorem failure_atomic_failAtOnce :
    Always Pool.step FailureAtomic (init (smallSetup 2 false)) failAtOnce :=
  failure_atomic_run (smallSetup_fits 2 false) _ (by decide)

/-! ### Failures which come late -/

/-- A file of zeros, of one block and two bytes more, over memory which is not zero. -/
def usedMemory : Setup Unit where
  totfile_size _ := BLOCK_MAXLEN + 2
  write_thru _ := false
  pool_maxlen := 2 * BLOCK_MAXLEN
  malloc _ _ := 165
  disk _ _ := 0

/-- The last two bytes, which are a block, are written, and their block write fails.  Then the
whole of the first block is written. -/
def failAfterwards : List (Event usedMemory) :=
  [.write_ctor () ⟨BLOCK_MAXLEN, BLOCK_MAXLEN + 1, Nat.le_succ _⟩ (by decide) (fun _ => 1),
    .zerotimer 0, .resume, .resume, .resume, .resume, .cleaning_timeout (), .resume, .resume,
    .resume, .subio_write_cb 2 .ERROR, .resume, .resume,
    .write_ctor () ⟨0, BLOCK_MAXLEN - 1, by decide⟩ (by decide) (fun _ => 2), .zerotimer 3,
    .resume, .resume, .resume, .resume]

/-- The first block and a byte more are written, and the block read of the second block fails. -/
def failMidway : List (Event usedMemory) :=
  [.write_ctor () ⟨0, BLOCK_MAXLEN, by decide⟩ (by decide) (fun _ => 2), .zerotimer 0, .resume,
    .resume, .resume, .resume, .resume, .blkrd_cb 0 .ERROR]

/-- The write which is told of the error leaves its block, with what the memory held. -/
theorem found_failAfterwards :
    (run Pool.step (init usedMemory) failAfterwards).found () 0 = 165 ∧
      content usedMemory (run Pool.step (init usedMemory) failAfterwards).log () 0 = 0 := by
  decide +kernel

/-- The block whose block write has failed is `CLEANING`, and no block write is on the way. -/
theorem cleaning_failAfterwards :
    ∃ b, (run Pool.step (init usedMemory) failAfterwards).heap 1 = some b ∧ b.state = .CLEANING ∧
      ¬(run Pool.step (init usedMemory) failAfterwards).BeingCleaned b := by
  refine ⟨_, rfl, rfl, ?_⟩
  rintro ⟨w, wr, hw, -⟩
  cases hw

/-- The write which fails at its second block has written the first. -/
theorem log_failMidway : ∃ data range,
    .written 0 () ⟨0, BLOCK_MAXLEN, by decide⟩ data .ERROR ∈
        (run Pool.step (init usedMemory) failMidway).log ∧
      .wrote 0 () range data ∈ (run Pool.step (init usedMemory) failMidway).log :=
  ⟨_, _, List.mem_cons_self .., List.mem_cons_of_mem _ (List.mem_cons_self ..)⟩

theorem not_failure_atomic :
    (¬Always Pool.step FailureAtomic (init usedMemory) failAfterwards) ∧
      (¬Always Pool.step NoneStuck (init usedMemory) failAfterwards) ∧
        ¬Always Pool.step FailureAtomic (init usedMemory) failMidway := by
  refine ⟨fun h => ?_, fun h => ?_, fun h => ?_⟩
  · obtain ⟨hfound, hcontent⟩ := found_failAfterwards
    have heq := h.run.found rfl () 0
    rw [hfound, hcontent] at heq
    exact absurd heq (by decide)
  · obtain ⟨b, hb, hstate, hnot⟩ := cleaning_failAfterwards
    exact hnot (h.run 1 b hb hstate)
  · obtain ⟨data, range, hfailed, hwrote⟩ := log_failMidway
    exact h.run.unwritten _ _ _ _ hfailed _ _ _ hwrote

end Pool

end Neoip.IoCache
