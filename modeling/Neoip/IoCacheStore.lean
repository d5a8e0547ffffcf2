/-
Neoip/IoCacheStore.lean

The io cache over its sub-io against a plain byte store.

The byte store is the `content` of the log: the bytes the sub-io held at the
start, with each write of the log made on them.  `Refines` says of a log what a
byte store promises: each byte that a read returns was in the store at a moment
between the question and the answer, and a write has all its bytes in the store
before it is reported complete.

The cache keeps this up as long as its steps are `Orderly`: no block is created
twice, no block write starts over one on the way, the sub-io changes no byte
that a block read has just read, and a forwarded write meets no cached block.

`Coherent` is the invariant.  A clean block has the bytes of the sub-io; a block
which is being cleaned has those of its block write; each block has the bytes of
the store, and where there is no block the sub-io has them.
-/
import Neoip.IoCachePool

namespace Neoip.IoCache

variable {κ : Type} {cfg : Setup κ}

/-! ### The byte store and what it promises -/

section Log

variable [DecidableEq κ]

/-- What the byte store of each cache holds after the writes of the log. -/
def content (cfg : Setup κ) : List (Entry κ) → κ → Bytes
  | [], c => cfg.disk c
  | .wrote _ c' range data :: log, c =>
    fun x => if c' = c ∧ x ∈ range then data x else content cfg log c x
  | _ :: log, c => content cfg log c

/-- The store had this byte at a moment after the operation was asked. -/
def Seen (cfg : Setup κ) (log : List (Entry κ)) (op : ℕ) (c : κ) (x : ℕ) (byte : UInt8) : Prop :=
  ∃ l, l <:+ log ∧ .asked op ∈ l ∧ content cfg l c x = byte

omit [DecidableEq κ] in
/-- The byte was written to the store after the operation was asked. -/
def Landed (log : List (Entry κ)) (op : ℕ) (c : κ) (x : ℕ) (data : Bytes) : Prop :=
  ∃ l range, .wrote op c range data :: l <:+ log ∧ .asked op ∈ l ∧ x ∈ range

/-- The successful reads and writes are those of a byte store. -/
def Refines (cfg : Setup κ) : List (Entry κ) → Prop
  | [] => True
  | .read op c range data .OK :: log =>
    (∀ x ∈ range, Seen cfg log op c x (data x)) ∧ Refines cfg log
  | .written op c range data .OK :: log =>
    (∀ x ∈ range, Landed log op c x data) ∧ Refines cfg log
  | _ :: log => Refines cfg log

variable {log log' : List (Entry κ)} {op x : ℕ} {c : κ} {byte : UInt8} {data : Bytes}

theorem content_wrote (w : ℕ) (c' : κ) (range : FileRange) :
    content cfg (.wrote w c' range data :: log) c x =
      if c' = c ∧ x ∈ range then data x else content cfg log c x := rfl

theorem Seen.mono (hlog : log <:+ log') (h : Seen cfg log op c x byte) :
    Seen cfg log' op c x byte := by
  obtain ⟨l, hl, hrest⟩ := h
  exact ⟨l, hl.trans hlog, hrest⟩

omit [DecidableEq κ] in
theorem Landed.mono (hlog : log <:+ log') (h : Landed log op c x data) :
    Landed log' op c x data := by
  obtain ⟨l, range, hl, hrest⟩ := h
  exact ⟨l, range, hl.trans hlog, hrest⟩

end Log

/-! ### The invariant -/

/-- Has the sub-io read the bytes of the block read? -/
def Phase.sampled : Phase → Bool
  | .blkrd (some _) => true
  | _ => false

def Op.isWrite (o : Op cfg) : Bool :=
  match o.job with
  | .read _ => false
  | .write _ => true

namespace Pool

variable [DecidableEq κ]

omit [DecidableEq κ] in
/-- The running handler is about to overwrite the whole block. -/
def Filling (s : Pool cfg) (p : ℕ) : Prop :=
  ∃ op o, s.ctl.chunk = some (op, p) ∧ s.op_db op = some o ∧ o.overwrites = true ∧
    s.delayed_write_err o.io_cache = .OK

/-- What a block holds, by its state. -/
structure BlockOk (s : Pool cfg) (p : ℕ) (b : Block cfg) : Prop where
  clean : b.state = .CLEAN → ¬s.Filling p → ∀ x ∈ b.range, b.datum x = s.disk b.io_cache x
  stored : ¬s.Filling p → ∀ x ∈ b.range, b.datum x = content cfg s.log b.io_cache x
  thru : cfg.write_thru b.io_cache = true → b.state = .CLEAN
  cleaning : b.state = .CLEANING → s.delayed_write_err b.io_cache = .ERROR ∨
    ∃ w wr, s.subio_db.get w = some wr ∧ wr.blkwr = true ∧ wr.io_cache = b.io_cache ∧
      wr.range.fullyInclude b.range = true

omit [DecidableEq κ] in
/-- A block write on the way: its range is that of some blocks, which are not clean, and which
have its bytes unless they were modified since. -/
structure BlkwrOk (s : Pool cfg) (wr : SubioWrite κ) : Prop where
  overlapping : ∀ p b x, s.heap p = some b → b.io_cache = wr.io_cache → x ∈ b.range → x ∈ wr.range →
    wr.range.fullyInclude b.range = true ∧ b.state ≠ .CLEAN ∧
      (b.state = .CLEANING → ∀ y ∈ b.range, b.datum y = wr.data2write y)
  covered : ∀ x ∈ wr.range, ∃ p b, s.heap p = some b ∧ b.io_cache = wr.io_cache ∧ x ∈ b.range
  performed : wr.performed = true → ∀ x ∈ wr.range, s.disk wr.io_cache x = wr.data2write x

/-- What an operation has done so far. -/
structure OpOk (s : Pool cfg) (op : ℕ) (o : Op cfg) : Prop where
  lt : op < s.next
  asked : .asked op ∈ s.log
  thru : o.isWrite = true → cfg.write_thru o.io_cache = false
  /-- A chunk begins where the operation or a block does. -/
  grid : o.done_len = 0 ∨ BLOCK_ALIGN_SIZE ∣ o.chunkBeg
  done : ∀ x, o.totfile_range.beg ≤ x → x < o.chunkBeg →
    match o.job with
    | .read buffer => Seen cfg s.log op o.io_cache x (buffer x)
    | .write data2write => Landed s.log op o.io_cache x data2write
  sampled : ∀ d, o.phase = .blkrd (some d) → ∀ x ∈ o.blockRange, d x = s.disk o.io_cache x

/-- The invariant of the pool: the blocks over the disk are the byte store. -/
structure Coherent (s : Pool cfg) : Prop extends s.Sound where
  blocks : ∀ p b, s.heap p = some b → s.BlockOk p b
  blkwrs : ∀ w wr, s.subio_db.get w = some wr → wr.blkwr = true → s.BlkwrOk wr
  distinct : ∀ w w' wr wr' x, s.subio_db.get w = some wr → s.subio_db.get w' = some wr' →
    wr.blkwr = true → wr'.blkwr = true → wr.io_cache = wr'.io_cache → x ∈ wr.range →
    x ∈ wr'.range → w = w'
  subio_lt : ∀ w wr, s.subio_db.get w = some wr → w < s.next
  thrus : ∀ w wr, s.subio_db.get w = some wr → wr.blkwr = false → .asked w ∈ s.log ∧
    (wr.performed = true → ∀ x ∈ wr.range, Landed s.log w wr.io_cache x wr.data2write)
  ops : ∀ op o, s.op_db op = some o → s.OpOk op o
  /-- The bytes of the block which is about to be created. -/
  pending : ∀ op datum o, s.ctl = .newBlock op datum → s.op_db op = some o →
    (∀ x ∈ o.blockRange, datum x = s.disk o.io_cache x) ∨
      o.overwrites = true ∧ s.delayed_write_err o.io_cache = .OK
  uncovered : ∀ c x, (∀ p b, s.heap p = some b → b.io_cache = c → x ∉ b.range) →
    s.disk c x = content cfg s.log c x
  refines : Refines cfg s.log

/-- No block is created twice, nor left without bytes; no block write starts over one on the way;
what the sub-io writes was not just read for a block, and a forwarded write meets no block. -/
def Orderly (s : Pool cfg) : Event cfg → Prop
  | .resume =>
    match s.ctl with
    | .newBlock op _ => ∀ o ∈ s.op_db op, (s.block_db o.io_cache)[o.blockRange.last]? = none
    | .startBlkwr c off _ =>
      ∀ range ∈ s.blkwrRange c off, ∀ e ∈ s.subio_db.item, e.2.blkwr = true → e.2.io_cache = c →
        range.isDistinct e.2.range = true
    | .launchNextChunk op =>
      ∀ o ∈ s.op_db op, o.overwrites = true → s.blockFind o.io_cache o.chunkBeg = none →
        s.delayed_write_err o.io_cache = .OK
    | _ => True
  | .subio_write w =>
    ∀ wr ∈ s.subio_db.get w, wr.performed = false →
      (∀ op < s.next, ∀ o ∈ s.op_db op, o.phase.sampled = true → o.io_cache = wr.io_cache →
        o.blockRange.isDistinct wr.range = true) ∧
      (wr.blkwr = false → ∀ p ∈ s.block_lru, ∀ b ∈ s.heap p, b.io_cache = wr.io_cache →
        b.range.isDistinct wr.range = true)
  | _ => True

instance (s : Pool cfg) : (e : Event cfg) → Decidable (s.Orderly e)
  | .resume =>
    let dec (ctl : Ctl κ) : Decidable (match ctl with
        | .newBlock op _ =>
          ∀ o ∈ s.op_db op, (s.block_db o.io_cache)[o.blockRange.last]? = none
        | .startBlkwr c off _ =>
          ∀ range ∈ s.blkwrRange c off, ∀ e ∈ s.subio_db.item, e.2.blkwr = true →
            e.2.io_cache = c → range.isDistinct e.2.range = true
        | .launchNextChunk op =>
          ∀ o ∈ s.op_db op, o.overwrites = true → s.blockFind o.io_cache o.chunkBeg = none →
            s.delayed_write_err o.io_cache = .OK
        | _ => True) :=
      match ctl with
      | .newBlock .. | .startBlkwr .. | .launchNextChunk _ => inferInstance
      | .idle | .shrinkIfNeeded _ | .ret _ => .isTrue trivial
    dec s.ctl
  | .subio_write w => inferInstanceAs (Decidable (∀ wr ∈ s.subio_db.get w, wr.performed = false →
      (∀ op < s.next, ∀ o ∈ s.op_db op, o.phase.sampled = true → o.io_cache = wr.io_cache →
        o.blockRange.isDistinct wr.range = true) ∧
      (wr.blkwr = false → ∀ p ∈ s.block_lru, ∀ b ∈ s.heap p, b.io_cache = wr.io_cache →
        b.range.isDistinct wr.range = true)))
  | .read_ctor .. | .write_ctor .. | .zerotimer _ | .subio_read _ | .blkrd_cb ..
  | .subio_write_cb .. | .cleaning_timeout _ | .stopping_ctor _ => .isTrue trivial

/-! ### Frames -/

variable {s s' : Pool cfg} {p op w x : ℕ} {b : Block cfg} {o : Op cfg} {wr : SubioWrite κ} {c : κ}
  {k : Ret κ}

omit [DecidableEq κ] in
theorem Filling.of_eq (hchunk : s'.ctl.chunk = s.ctl.chunk) (hop : s'.op_db = s.op_db)
    (herr : s'.delayed_write_err = s.delayed_write_err) (h : s.Filling p) : s'.Filling p := by
  obtain ⟨op, o, hc, ho, hover, hok⟩ := h
  exact ⟨op, o, by rw [hchunk, hc], by rw [hop, ho], hover, by rw [herr, hok]⟩

omit [DecidableEq κ] in
theorem not_filling (h : s.ctl.chunk = none) : ¬s.Filling p := by
  rintro ⟨op, o, hchunk, -⟩
  rw [h] at hchunk
  cases hchunk

theorem BlockOk.congr (h : s.BlockOk p b) (hfill : s.Filling p → s'.Filling p)
    (hdisk : ∀ x ∈ b.range, s'.disk b.io_cache x = s.disk b.io_cache x)
    (hcontent : ∀ x ∈ b.range,
      content cfg s'.log b.io_cache x = content cfg s.log b.io_cache x)
    (hcleaning : b.state = .CLEANING → s'.delayed_write_err b.io_cache = .ERROR ∨
      ∃ w wr, s'.subio_db.get w = some wr ∧ wr.blkwr = true ∧ wr.io_cache = b.io_cache ∧
        wr.range.fullyInclude b.range = true) : s'.BlockOk p b where
  clean hstate hnot x hx := by
    rw [hdisk x hx]
    exact h.clean hstate (fun hf => hnot (hfill hf)) x hx
  stored hnot x hx := by
    rw [hcontent x hx]
    exact h.stored (fun hf => hnot (hfill hf)) x hx
  thru := h.thru
  cleaning := hcleaning

theorem OpOk.mono (h : s.OpOk op o) (hnext : s.next ≤ s'.next) (hlog : s.log <:+ s'.log)
    (hdisk : ∀ d, o.phase = .blkrd (some d) → ∀ x ∈ o.blockRange,
      s'.disk o.io_cache x = s.disk o.io_cache x) : s'.OpOk op o where
  lt := h.lt.trans_le hnext
  asked := hlog.subset h.asked
  thru := h.thru
  grid := h.grid
  done x hlo hhi := by
    have hdone := h.done x hlo hhi
    cases hjob : o.job with
    | read buffer =>
      rw [hjob] at hdone
      exact hdone.mono hlog
    | write data2write =>
      rw [hjob] at hdone
      exact hdone.mono hlog
  sampled d hd x hx := by
    rw [hdisk d hd x hx]
    exact h.sampled d hd x hx

/-- The phase of an operation matters for its block read only. -/
theorem OpOk.setPhase (h : s.OpOk op o) {phase : Phase}
    (hsampled : ∀ d, phase = .blkrd (some d) → ∀ x ∈ o.blockRange, d x = s.disk o.io_cache x) :
    s.OpOk op { o with phase := phase } :=
  ⟨h.lt, h.asked, h.thru, h.grid, h.done, hsampled⟩

/-- What touches neither the blocks nor the sub-io, and writes nothing. -/
theorem Coherent.frame (h : s.Coherent) (hs : s'.Sound) (hheap : s'.heap = s.heap)
    (hsubio : s'.subio_db = s.subio_db) (hdisk : s'.disk = s.disk)
    (herr : s'.delayed_write_err = s.delayed_write_err) (hlog : s.log <:+ s'.log)
    (hcontent : content cfg s'.log = content cfg s.log) (hnext : s.next ≤ s'.next)
    (hfill : ∀ p, s.Filling p → s'.Filling p)
    (hops : ∀ op o, s'.op_db op = some o → s'.OpOk op o)
    (hpending : ∀ op datum o, s'.ctl = .newBlock op datum → s'.op_db op = some o →
      (∀ x ∈ o.blockRange, datum x = s.disk o.io_cache x) ∨
        o.overwrites = true ∧ s.delayed_write_err o.io_cache = .OK)
    (hrefines : Refines cfg s'.log) : s'.Coherent where
  -- only the operations and the control moved
  toSound := hs
  blocks p b hb := by
    rw [hheap] at hb
    have hok := h.blocks p b hb
    exact hok.congr (hfill p) (fun x _ => by rw [hdisk]) (fun x _ => by rw [hcontent])
      fun hstate => by
        rw [herr, hsubio]
        exact hok.cleaning hstate
  blkwrs w wr hw hblkwr := by
    rw [hsubio] at hw
    obtain ⟨hover, hcovered, hperformed⟩ := h.blkwrs w wr hw hblkwr
    refine ⟨?_, ?_, ?_⟩
    · rw [hheap]
      exact hover
    · rw [hheap]
      exact hcovered
    · rw [hdisk]
      exact hperformed
  distinct := by
    rw [hsubio]
    exact h.distinct
  subio_lt w wr hw := by
    rw [hsubio] at hw
    exact (h.subio_lt w wr hw).trans_le hnext
  thrus w wr hw hthru := by
    rw [hsubio] at hw
    obtain ⟨hasked, hlanded⟩ := h.thrus w wr hw hthru
    exact ⟨hlog.subset hasked, fun hperf x hx => (hlanded hperf x hx).mono hlog⟩
  ops := hops
  pending := by
    rw [hdisk, herr]
    exact hpending
  uncovered c x hnot := by
    rw [hheap] at hnot
    rw [hdisk, hcontent]
    exact h.uncovered c x hnot
  refines := hrefines

/-- Of one operation, only this one is changed. -/
theorem Coherent.ops_update (h : s.Coherent) (hnext : s.next ≤ s'.next)
    (hlog : s.log <:+ s'.log) (hdisk : s'.disk = s.disk) {o' : Option (Op cfg)}
    (hop : s'.op_db = Function.update s.op_db op o') (ho' : ∀ o, o' = some o → s'.OpOk op o)
    (op' : ℕ) (o : Op cfg) (ho : s'.op_db op' = some o) : s'.OpOk op' o := by
  rw [hop, Function.update_apply] at ho
  split_ifs at ho with heq
  · rw [heq]
    exact ho' o ho
  · exact (h.ops op' o ho).mono hnext hlog fun _ _ _ _ => by rw [hdisk]

namespace Coherent

/-! ### Asking, launching, and the answers of the sub-io -/

theorem opCtor (h : s.Coherent) (hctl : s.ctl = .idle) (range : FileRange)
    (inside : range.last < cfg.totfile_size c) (job : Job)
    (hjob : ∀ data, job = .write data → cfg.write_thru c = false) :
    (s.opCtor c range inside job).Coherent := by
  have hidle := chunk_of_idle hctl
  refine h.frame (h.toSound.opCtor hctl range inside job) rfl rfl rfl rfl (List.suffix_cons ..)
    rfl (Nat.le_succ _) (fun p hf => absurd hf (not_filling hidle))
    (h.ops_update (Nat.le_succ _) (List.suffix_cons ..) rfl rfl ?_) ?_ h.refines
  · intro o ho
    obtain rfl := Option.some.inj ho
    refine ⟨Nat.lt_succ_self _, List.mem_cons_self .., ?_, .inl rfl, ?_, ?_⟩
    · intro hwrite
      cases job with
      | read buffer => cases hwrite
      | write data => exact hjob data rfl
    · intro x hlo hhi
      -- nothing is done yet
      exact absurd hhi (Nat.not_lt.2 hlo)
    · intro d hd
      cases hd
  · intro op datum o hnew
    have hnew : s.ctl = .newBlock op datum := hnew
    rw [hctl] at hnew
    cases hnew

theorem zerotimer (h : s.Coherent) (hctl : s.ctl = .idle) (op : ℕ) :
    (s.zerotimer op).Coherent := by
  have hsound := h.toSound.zerotimer op
  unfold Pool.zerotimer at hsound ⊢
  cases ho : s.op_db op with
  | none => exact h
  | some o =>
    simp only [ho] at hsound ⊢
    split
    next hphase =>
      rw [hphase] at hsound
      refine h.frame hsound rfl rfl rfl rfl (List.suffix_refl _) rfl (le_refl _)
        (fun p hf => absurd hf (not_filling (chunk_of_idle hctl)))
        (h.ops_update (le_refl _) (List.suffix_refl _) rfl rfl ?_)
        (fun _ _ _ hnew => by cases hnew) h.refines
      intro o' ho'
      obtain rfl := Option.some.inj ho'
      exact ((h.ops op o ho).setPhase fun d hd => by cases hd).mono (le_refl _)
        (List.suffix_refl _) fun _ _ _ _ => rfl
    next => exact h

theorem subioRead (h : s.Coherent) (hctl : s.ctl = .idle) (op : ℕ) :
    (s.subioRead op).Coherent := by
  have hsound := h.toSound.subioRead hctl op
  unfold Pool.subioRead at hsound ⊢
  cases ho : s.op_db op with
  | none => exact h
  | some o =>
    simp only [ho] at hsound ⊢
    split
    next hphase =>
      rw [hphase] at hsound
      refine h.frame hsound rfl rfl rfl rfl (List.suffix_refl _) rfl (le_refl _)
        (fun p hf => absurd hf (not_filling (chunk_of_idle hctl)))
        (h.ops_update (le_refl _) (List.suffix_refl _) rfl rfl ?_)
        (fun op datum o hnew => ?_) h.refines
      · intro o' ho'
        obtain rfl := Option.some.inj ho'
        refine ((h.ops op o ho).setPhase fun d hd x hx => ?_).mono (le_refl _)
          (List.suffix_refl _) fun _ _ _ _ => rfl
        obtain rfl := Option.some.inj (Phase.blkrd.inj hd)
        rfl
      · have hnew : s.ctl = .newBlock op datum := hnew
        rw [hctl] at hnew
        cases hnew
    next => exact h

theorem notifyFailure (h : s.Coherent) (hnot : ∀ p, ¬s.Filling p) (op : ℕ) (o : Op cfg) :
    (s.notifyFailure op o).Coherent := by
  have hops := @ops_update _ _ _ s (s.notifyFailure op o) op h (le_refl _)
    (List.suffix_cons ..) rfl none rfl (fun o ho => by cases ho)
  cases hjob : o.job with
  | read buffer =>
    have hlog : (s.notifyFailure op o).log =
        .read op o.io_cache o.totfile_range buffer .ERROR :: s.log := by
      rw [Pool.notifyFailure, hjob]
    refine h.frame (h.toSound.notifyFailure op o) rfl rfl rfl rfl (List.suffix_cons ..) ?_
      (le_refl _) (fun p hf => absurd hf (hnot p)) hops (fun _ _ _ hnew => by cases hnew) ?_
    · rw [hlog]
      rfl
    · rw [hlog]
      exact h.refines
  | write data =>
    have hlog : (s.notifyFailure op o).log =
        .written op o.io_cache o.totfile_range data .ERROR :: s.log := by
      rw [Pool.notifyFailure, hjob]
    refine h.frame (h.toSound.notifyFailure op o) rfl rfl rfl rfl (List.suffix_cons ..) ?_
      (le_refl _) (fun p hf => absurd hf (hnot p)) hops (fun _ _ _ hnew => by cases hnew) ?_
    · rw [hlog]
      rfl
    · rw [hlog]
      exact h.refines

theorem blkrdCb (h : s.Coherent) (hctl : s.ctl = .idle) (op : ℕ) (bt_err : BtErr) :
    (s.blkrdCb op bt_err).Coherent := by
  have hidle := chunk_of_idle hctl
  have hsound := h.toSound.blkrdCb op bt_err
  unfold Pool.blkrdCb at hsound ⊢
  cases ho : s.op_db op with
  | none => exact h
  | some o =>
    simp only [ho] at hsound ⊢
    cases hphase : o.phase with
    | zerotimer => exact h
    | handled => exact h
    | blkrd data =>
      have hfailure := h.notifyFailure (fun p => not_filling hidle) op o
      cases data with
      | none =>
        cases bt_err with
        | OK => exact h
        | ERROR => exact hfailure
      | some read_data =>
        cases bt_err with
        | ERROR => exact hfailure
        | OK =>
          rw [hphase] at hsound
          have hok := h.ops op o ho
          refine h.frame hsound rfl rfl rfl rfl (List.suffix_refl _) rfl (le_refl _)
            (fun p hf => absurd hf (not_filling hidle))
            (h.ops_update (le_refl _) (List.suffix_refl _) rfl rfl ?_)
            (fun op' datum o' hnew ho' => ?_) h.refines
          · intro o' ho'
            obtain rfl := Option.some.inj ho'
            exact (hok.setPhase fun d hd => by cases hd).mono (le_refl _)
              (List.suffix_refl _) fun _ _ _ _ => rfl
          · -- the block is created with what the sub-io read
            obtain ⟨rfl, rfl⟩ := Ctl.newBlock.inj hnew
            have ho' : Function.update s.op_db op
              (some { o with phase := .handled }) op = some o' := ho'
            rw [Function.update_self] at ho'
            obtain rfl := Option.some.inj ho'
            exact .inl (hok.sampled _ hphase)

theorem launchNextChunk (h : s.Coherent) (hctl : s.ctl = .launchNextChunk op)
    (hg : s.Orderly .resume) : (s.launchNextChunk op).Coherent := by
  have hnone : s.ctl.chunk = none := by
    rw [hctl]
    rfl
  have hfill : ∀ p, ∀ s' : Pool cfg, s.Filling p → s'.Filling p := fun p s' hf =>
    absurd hf (not_filling hnone)
  have hops : ∀ op o, s.op_db op = some o → ∀ k, OpOk { s with ctl := k } op o := fun op o ho k =>
    (h.ops op o ho).mono (le_refl _) (List.suffix_refl _) fun _ _ _ _ => rfl
  have hsound := h.toSound.launchNextChunk op
  unfold Pool.launchNextChunk at hsound ⊢
  cases ho : s.op_db op with
  | none =>
    simp only [ho] at hsound
    exact h.frame hsound rfl rfl rfl rfl (List.suffix_refl _) rfl (le_refl _)
      (fun p => hfill p _) (fun op o ho => hops op o ho _) (fun _ _ _ hnew => by cases hnew)
      h.refines
  | some o =>
    simp only [ho] at hsound ⊢
    cases hfind : s.blockFind o.io_cache o.chunkBeg with
    | some p =>
      simp only [hfind] at hsound
      exact h.frame hsound rfl rfl rfl rfl (List.suffix_refl _) rfl (le_refl _)
        (fun p => hfill p _) (fun op o ho => hops op o ho _) (fun _ _ _ hnew => by cases hnew)
        h.refines
    | none =>
      simp only [hfind] at hsound
      cases hover : o.overwrites with
      | true =>
        rw [hover] at hsound
        -- the block is overwritten whole: it is not read
        refine h.frame hsound rfl rfl rfl rfl (List.suffix_refl _) rfl (le_refl _)
          (fun p => hfill p _) (fun op o ho => hops op o ho _) (fun op' d o' hnew ho' => ?_)
          h.refines
        obtain ⟨rfl, rfl⟩ := Ctl.newBlock.inj hnew
        have ho' : s.op_db op = some o' := ho'
        rw [ho] at ho'
        obtain rfl := Option.some.inj ho'
        rw [Orderly, hctl] at hg
        exact .inr ⟨hover, hg o ho hover hfind⟩
      | false =>
        rw [hover] at hsound
        -- it is read first
        refine h.frame hsound rfl rfl rfl rfl (List.suffix_refl _) rfl (le_refl _)
          (fun p => hfill p _) (h.ops_update (le_refl _) (List.suffix_refl _) rfl rfl ?_)
          (fun _ _ _ hnew => by cases hnew) h.refines
        intro o' ho'
        obtain rfl := Option.some.inj ho'
        exact ((h.ops op o ho).setPhase fun d hd => by cases hd).mono (le_refl _)
          (List.suffix_refl _) fun _ _ _ _ => rfl

end Coherent

end Pool

end Neoip.IoCache
