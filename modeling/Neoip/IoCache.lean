/-
Neoip/IoCache.lean

The io cache: `bt_io_cache_t`, the caches of one `bt_io_cache_pool_t`, with their
blocks, reads, writes, block reads and block writes, over a sub-io which is a
plain byte store.

Bytes are kept by their offset in the file, wherever the source keeps them in a
buffer: the byte at index `i` of a buffer for `range` is the one at
`range.beg + i`.

The program is single-threaded.  A handler runs to its end before the next
event, and calls other functions on its way; what remains to be done of the
running handler is the control `Ctl`, and `resume` does the next piece of it.
An event is looked at only when no handler runs.

* `read_ctor`, `write_ctor` ask for an operation, `zerotimer` launches it;
* `subio_read`, `subio_write`: the sub-io reads, or changes, its bytes, at any
  time between the call and the callback;
* `blkrd_cb`, `subio_write_cb` are the callbacks of the sub-io, with a success
  or an error;
* `cleaning_timeout` and `stopping_ctor` are those of the cache itself.

The `log` is no part of the source: it records what callers ask and are told,
and what is written, the newest entry first.
-/
import Mathlib.Data.List.Basic
import Mathlib.Logic.Function.Basic
import Std.Data.TreeMap.Lemmas
import Neoip.KeyedDb
import Neoip.Unit

namespace Neoip.IoCache

open Std (TreeMap)

/-! ### Bytes and blocks -/

/-- What a file, or a part of it, holds at each offset. -/
abbrev Bytes := ℕ → UInt8

def memcpy (dst : Bytes) (dst_off : ℕ) (src : Bytes) (src_off len : ℕ) : Bytes :=
  fun off => if dst_off ≤ off ∧ off < dst_off + len then src (off - dst_off + src_off) else dst off

/-- `bt_err_t`. -/
inductive BtErr
  | OK
  | ERROR
deriving DecidableEq, Repr

/-- `bt_io_cache_pool_profile_t::BLOCK_ALIGN_SIZE`. -/
def BLOCK_ALIGN_SIZE : ℕ := 16 * 1024

/-- `bt_io_cache_pool_profile_t::BLOCK_MAXLEN`. -/
def BLOCK_MAXLEN : ℕ := 16 * 1024

/-- What the caches of one pool are started with. -/
structure Setup (κ : Type) where
  totfile_size : κ → ℕ
  write_thru : κ → Bool
  pool_maxlen : ℕ
  /-- What the memory at an address holds before it is written. -/
  malloc : ℕ → Bytes
  /-- What the sub-io of each cache holds at the start. -/
  disk : κ → Bytes

/-- `block_range_for`. -/
def blockRangeFor (totfile_size asked_off : ℕ) (h : asked_off < totfile_size) : FileRange where
  beg := asked_off - asked_off % BLOCK_ALIGN_SIZE
  last := min (asked_off - asked_off % BLOCK_ALIGN_SIZE + BLOCK_MAXLEN - 1) (totfile_size - 1)
  le := by
    unfold BLOCK_MAXLEN
    omega

/-- `bt_io_cache_state_t`. -/
inductive CacheState
  | CLEAN
  | DIRTY
  | CLEANING
deriving DecidableEq, Repr

variable {κ : Type}

/-- `bt_io_cache_block_t`. -/
structure Block (cfg : Setup κ) where
  io_cache : κ
  range : FileRange
  aligned : ∃ asked_off h, range = blockRangeFor (cfg.totfile_size io_cache) asked_off h
  datum : Bytes
  state : CacheState

namespace Block

variable {cfg : Setup κ}

/-- `notify_write`. -/
def notifyWrite (b : Block cfg) (datum : Bytes) : Block cfg :=
  { b with datum := datum, state := .DIRTY }

/-- `notify_cleaning`. -/
def notifyCleaning (b : Block cfg) : Block cfg := { b with state := .CLEANING }

/-- `notify_cleaned`. -/
def notifyCleaned (b : Block cfg) : Block cfg :=
  if b.state = .CLEANING then { b with state := .CLEAN } else b

end Block

/-! ### Operations -/

/-- What `bt_io_cache_read_t` and `bt_io_cache_write_t` differ in. -/
inductive Job
  | read (buffer : Bytes)
  | write (data2write : Bytes)

/-- Where an operation stands: its zerotimer is not expired, a handler runs for it, or its
`bt_io_cache_blkrd_t` is on the way, with the bytes once the sub-io has read them. -/
inductive Phase
  | zerotimer
  | handled
  | blkrd (read_data : Option Bytes)

/-- A `bt_io_cache_read_t` or a `bt_io_cache_write_t` which is not completed; `done_len` is
`buffer.length()` or `written_len()`. -/
structure Op (cfg : Setup κ) where
  io_cache : κ
  totfile_range : FileRange
  inside : totfile_range.last < cfg.totfile_size io_cache
  job : Job
  done_len : ℕ
  done_lt : done_len < totfile_range.len
  phase : Phase

namespace Op

variable {cfg : Setup κ}

def chunkBeg (o : Op cfg) : ℕ := o.totfile_range.beg + o.done_len

theorem chunkBeg_mem (o : Op cfg) : o.chunkBeg ∈ o.totfile_range := by
  have h := o.done_lt
  have hle := o.totfile_range.le
  rw [FileRange.mem_def, chunkBeg]
  rw [FileRange.len] at h
  omega

theorem chunkBeg_lt (o : Op cfg) : o.chunkBeg < cfg.totfile_size o.io_cache :=
  lt_of_le_of_lt (FileRange.mem_def.1 o.chunkBeg_mem).2 o.inside

/-- `block_range_for` of the current chunk; also `bt_io_cache_blkrd_t::block_range()`. -/
def blockRange (o : Op cfg) : FileRange :=
  blockRangeFor (cfg.totfile_size o.io_cache) o.chunkBeg o.chunkBeg_lt

/-- The block which is created for the current chunk. -/
def newBlock (o : Op cfg) (datum : Bytes) : Block cfg where
  io_cache := o.io_cache
  range := o.blockRange
  aligned := ⟨o.chunkBeg, o.chunkBeg_lt, rfl⟩
  datum := datum
  state := .CLEAN

/-- A write which covers the whole block of its current chunk does not read it first. -/
def overwrites (o : Op cfg) : Bool :=
  match o.job with
  | .read _ => false
  | .write _ => o.totfile_range.fullyInclude o.blockRange

/-- `datum_len` more bytes are done; none when these were the last ones.  The source tests the
length for equality; the part of a block is clamped to the range, so it does not go past it. -/
def advance (o : Op cfg) (job : Job) (datum_len : ℕ) : Option (Op cfg) :=
  if h : o.done_len + datum_len < o.totfile_range.len then
    some { o with job := job, done_len := o.done_len + datum_len, done_lt := h, phase := .handled }
  else none

end Op

/-- A `bt_io_write_t` of the sub-io: the one of a `bt_io_cache_blkwr_t`, or one that a
write-thru cache forwards. -/
structure SubioWrite (κ : Type) where
  io_cache : κ
  range : FileRange
  data2write : Bytes
  blkwr : Bool
  performed : Bool

/-! ### The state -/

/-- Where the functions below return to. -/
inductive Ret (κ : Type)
  | chunkPostProcess (op p : ℕ)
  | startBlkwrAll (c : κ)
  | notifyBlkwrCompletion (c : κ)

/-- What remains to be done of the handler which runs. -/
inductive Ctl (κ : Type)
  | idle
  | launchNextChunk (op : ℕ)
  /-- `nipmem_new bt_io_cache_block_t`, and `chunk_post_process` on it. -/
  | newBlock (op : ℕ) (datum : Bytes)
  | shrinkIfNeeded (k : Ret κ)
  | startBlkwr (c : κ) (asked_off : ℕ) (k : Ret κ)
  | ret (k : Ret κ)

/-- What happened to the operations and to the bytes. -/
inductive Entry (κ : Type)
  | asked (op : ℕ)
  /-- The bytes of `range` are written, by the operation `op`. -/
  | wrote (op : ℕ) (c : κ) (range : FileRange) (data : Bytes)
  | written (op : ℕ) (c : κ) (range : FileRange) (data2write : Bytes) (bt_err : BtErr)
  | read (op : ℕ) (c : κ) (range : FileRange) (data : Bytes) (bt_err : BtErr)
  | stopped (c : κ) (bt_err : BtErr)

/-- The caches of a `bt_io_cache_pool_t`, their operations and their sub-ios.  An object is
known by its address, and no address is used twice. -/
structure Pool (cfg : Setup κ) where
  next : ℕ
  heap : ℕ → Option (Block cfg)
  block_lru : List ℕ
  pool_curlen : ℕ
  /-- The blocks of each cache, under their end. -/
  block_db : κ → TreeMap ℕ ℕ
  /-- `read_db` and `write_db`. -/
  op_db : ℕ → Option (Op cfg)
  /-- `blkwr_db`, and the writes forwarded to the sub-io. -/
  subio_db : KeyedDb ℕ (SubioWrite κ)
  delayed_write_err : κ → BtErr
  stopping_db : κ → Bool
  disk : κ → Bytes
  ctl : Ctl κ
  log : List (Entry κ)

namespace Pool

variable {cfg : Setup κ}

def init (cfg : Setup κ) : Pool cfg where
  next := 0
  heap := fun _ => none
  block_lru := []
  pool_curlen := 0
  block_db := fun _ => ∅
  op_db := fun _ => none
  subio_db := KeyedDb.empty
  delayed_write_err := fun _ => .OK
  stopping_db := fun _ => false
  disk := cfg.disk
  ctl := .idle
  log := []

/-! ### `block_db` -/

/-- The blocks from `lower_bound(asked_off)` on. -/
def lowerBound (s : Pool cfg) (c : κ) (asked_off : ℕ) : List ℕ :=
  ((s.block_db c).toList.dropWhile fun e => e.1 < asked_off).map Prod.snd

/-- The blocks before `lower_bound(asked_off)`, the nearest one first. -/
def beforeBound (s : Pool cfg) (c : κ) (asked_off : ℕ) : List ℕ :=
  (((s.block_db c).toList.takeWhile fun e => e.1 < asked_off).map Prod.snd).reverse

/-- `block_find`. -/
def blockFind (s : Pool cfg) (c : κ) (asked_off : ℕ) : Option ℕ :=
  match s.lowerBound c asked_off with
  | [] => none
  | p :: _ =>
    match s.heap p with
    | none => none
    | some b => if asked_off ∈ b.range then some p else none

/-- `block_fully_included_in`. -/
def blockFullyIncludedIn (s : Pool cfg) (c : κ) (totfile_range : FileRange) : List ℕ :=
  go (s.lowerBound c totfile_range.beg)
where
  go : List ℕ → List ℕ
    | [] => []
    | p :: rest =>
      match s.heap p with
      | none => go rest
      | some b =>
        let result := if totfile_range.fullyInclude b.range then [p] else []
        -- the first block after the range ends the loop
        if b.range.fullyAfter totfile_range then result else result ++ go rest

/-- From a block on, the ones which are dirty and contiguous to the one before them. -/
def contiguousRun (s : Pool cfg) (prev : FileRange) : List ℕ → List ℕ
  | [] => []
  | p :: rest =>
    match s.heap p with
    | none => []
    | some b =>
      if b.range.isContiguous prev && b.state = .DIRTY then p :: s.contiguousRun b.range rest
      else []

/-- `block_dirty_contiguous`. -/
def blockDirtyContiguous (s : Pool cfg) (c : κ) (asked_off : ℕ) : List ℕ :=
  match s.lowerBound c asked_off with
  | [] => []
  | p :: rest =>
    match s.heap p with
    | none => []
    | some b =>
      if asked_off ∈ b.range ∧ b.state = .DIRTY then
        (s.contiguousRun b.range (s.beforeBound c asked_off)).reverse ++
          p :: s.contiguousRun b.range rest
      else []

variable [DecidableEq κ]

/-- The constructor of a block. -/
def blockCtor (s : Pool cfg) (b : Block cfg) : Pool cfg :=
  { s with
    next := s.next + 1
    heap := Function.update s.heap s.next (some b)
    -- an insertion under a key which is there already does nothing
    block_db := Function.update s.block_db b.io_cache
      ((s.block_db b.io_cache).insertIfNew b.range.last s.next)
    block_lru := s.next :: s.block_lru
    pool_curlen := s.pool_curlen + b.range.len }

/-- The destructor of a block. -/
def blockDtor (s : Pool cfg) (p : ℕ) : Pool cfg :=
  match s.heap p with
  | none => s
  | some b =>
    { s with
      heap := Function.update s.heap p none
      block_db := Function.update s.block_db b.io_cache
        ((s.block_db b.io_cache).erase b.range.last)
      block_lru := s.block_lru.erase p
      pool_curlen := s.pool_curlen - b.range.len }

/-- `block_remove_included_in`. -/
def blockRemoveIncludedIn (s : Pool cfg) (c : κ) (totfile_range : FileRange) : Pool cfg :=
  (s.blockFullyIncludedIn c totfile_range).foldl blockDtor s

omit [DecidableEq κ] in
def blockLruUpdate (s : Pool cfg) (p : ℕ) : Pool cfg :=
  { s with block_lru := p :: s.block_lru.erase p }

/-! ### Block writes -/

omit [DecidableEq κ] in
/-- The bytes of the blocks, one after the other. -/
def copyBlocks (data : Bytes) (ptr : ℕ) : List (Block cfg) → Bytes
  | [] => data
  | b :: rest => copyBlocks (memcpy data ptr b.datum b.range.beg b.range.len) (ptr + b.range.len) rest

omit [DecidableEq κ] in
/-- `blkwr_range` of a `bt_io_cache_blkwr_t` started on an offset. -/
def blkwrRange (s : Pool cfg) (c : κ) (asked_off : ℕ) : Option FileRange :=
  match (s.blockDirtyContiguous c asked_off).filterMap s.heap with
  | [] => none
  | b :: rest => some (rest.foldl (fun r b => r.span b.range) b.range)

omit [DecidableEq κ] in
/-- `bt_io_cache_t::start_blkwr`, and `bt_io_cache_blkwr_t::start`. -/
def startBlkwr (s : Pool cfg) (c : κ) (asked_off : ℕ) : Pool cfg :=
  match s.blkwrRange c asked_off with
  | none => s
  | some range =>
    { s with
      next := s.next + 1
      heap := fun p =>
        if p ∈ s.blockDirtyContiguous c asked_off then (s.heap p).map Block.notifyCleaning
        else s.heap p
      subio_db := s.subio_db.push s.next
        { io_cache := c
          range := range
          data2write := copyBlocks (cfg.malloc s.next) range.beg
            ((s.blockDirtyContiguous c asked_off).filterMap s.heap)
          blkwr := true
          performed := false } }

omit [DecidableEq κ] in
/-- One round of the loop of `start_blkwr_all`. -/
def startBlkwrAll (s : Pool cfg) (c : κ) : Pool cfg :=
  match (s.lowerBound c 0).findSome? fun p =>
      (s.heap p).bind fun b => if b.state = .DIRTY then some b.range.beg else none with
  | none => { s with ctl := .idle }
  | some beg => { s with ctl := .startBlkwr c beg (.startBlkwrAll c) }

/-- One round of the loop of `shrink_if_needed`. -/
def shrinkIfNeeded (s : Pool cfg) (k : Ret κ) : Pool cfg :=
  if s.pool_curlen ≤ cfg.pool_maxlen then { s with ctl := .ret k }
  else
    match s.block_lru.getLast? with
    | none => { s with ctl := .ret k }
    | some p =>
      match s.heap p with
      | none => { s with ctl := .ret k }
      | some b =>
        match b.state with
        | .CLEAN => s.blockDtor p
        | .DIRTY => { s with ctl := .startBlkwr b.io_cache b.range.beg k }
        | .CLEANING => { s with ctl := .ret k }

omit [DecidableEq κ] in
/-- `bt_io_cache_blkwr_t::neoip_bt_io_write_cb` on success: the blocks it wrote are clean, but
for those which were modified since. -/
def notifyCleaned (s : Pool cfg) (wr : SubioWrite κ) : Pool cfg :=
  { s with
    heap := fun p =>
      if p ∈ s.blockFullyIncludedIn wr.io_cache wr.range then (s.heap p).map Block.notifyCleaned
      else s.heap p }

/-- Is `blkwr_db` of the cache empty? -/
def blkwrDbEmpty (s : Pool cfg) (c : κ) : Bool :=
  s.subio_db.item.all fun e => !(e.2.blkwr && e.2.io_cache = c)

/-- What `bt_io_cache_stopping_t::notify_blkwr_completion` notifies its caller of: nothing when
there is no stopping object, or as long as block writes are on the way. -/
def stoppingNotify (s : Pool cfg) (c : κ) : Option BtErr :=
  if s.stopping_db c && s.blkwrDbEmpty c then some (s.delayed_write_err c) else none

/-- `notify_blkwr_completion`. -/
def notifyBlkwrCompletion (s : Pool cfg) (c : κ) : Pool cfg :=
  match s.stoppingNotify c with
  | none => { s with ctl := .idle }
  | some bt_err =>
    { s with
      stopping_db := Function.update s.stopping_db c false
      ctl := .idle
      log := .stopped c bt_err :: s.log }

/-! ### Reads and writes -/

section Chunks

omit [DecidableEq κ]

/-- `notify_failure`. -/
def notifyFailure (s : Pool cfg) (op : ℕ) (o : Op cfg) : Pool cfg :=
  { s with
    op_db := Function.update s.op_db op none
    ctl := .idle
    log :=
      (match o.job with
        | .read buffer => .read op o.io_cache o.totfile_range buffer .ERROR
        | .write data2write => .written op o.io_cache o.totfile_range data2write .ERROR) :: s.log }

/-- `launch_next_chunk`. -/
def launchNextChunk (s : Pool cfg) (op : ℕ) : Pool cfg :=
  match s.op_db op with
  | none => { s with ctl := .idle }
  | some o =>
    match s.blockFind o.io_cache o.chunkBeg with
    | some p => { s with ctl := .ret (.chunkPostProcess op p) }
    | none =>
      if o.overwrites then { s with ctl := .newBlock op (cfg.malloc s.next) }
      else
        { s with
          op_db := Function.update s.op_db op (some { o with phase := .blkrd none })
          ctl := .idle }

/-- The block and its common range with an operation. -/
def commonRange (s : Pool cfg) (p : ℕ) (o : Op cfg) : Option (Block cfg × FileRange) :=
  (s.heap p).bind fun b => (b.range.clampedBy o.totfile_range).map fun common => (b, common)

/-- `bt_io_cache_read_t::chunk_post_process`. -/
def readChunk (s : Pool cfg) (op : ℕ) (o : Op cfg) (buffer : Bytes) (p : ℕ) : Pool cfg :=
  match s.commonRange p o with
  -- the block is deleted, or another one: the source goes on with what it finds there
  | none => { s.blockLruUpdate p with ctl := .idle }
  | some (b, common) =>
    let buffer := memcpy buffer o.chunkBeg b.datum common.beg common.len
    match o.advance (.read buffer) common.len with
    | some o =>
      { s.blockLruUpdate p with
        op_db := Function.update s.op_db op (some o)
        ctl := .launchNextChunk op }
    | none =>
      { s.blockLruUpdate p with
        op_db := Function.update s.op_db op none
        ctl := .idle
        log := .read op o.io_cache o.totfile_range buffer .OK :: s.log }

/-- `bt_io_cache_write_t::chunk_post_process`, behind its test of `delayed_write_err`. -/
def writeChunk (s : Pool cfg) (op : ℕ) (o : Op cfg) (data2write : Bytes) (p : ℕ) : Pool cfg :=
  match s.commonRange p o with
  | none => { s.blockLruUpdate p with ctl := .idle }
  | some (b, common) =>
    let datum := memcpy b.datum common.beg data2write o.chunkBeg common.len
    let log := .wrote op o.io_cache common data2write :: s.log
    match o.advance o.job common.len with
    | some o =>
      { s.blockLruUpdate p with
        heap := Function.update s.heap p (some (b.notifyWrite datum))
        op_db := Function.update s.op_db op (some o)
        ctl := .launchNextChunk op
        log := log }
    | none =>
      { s.blockLruUpdate p with
        heap := Function.update s.heap p (some (b.notifyWrite datum))
        op_db := Function.update s.op_db op none
        ctl := .idle
        log := .written op o.io_cache o.totfile_range data2write .OK :: log }

/-- `chunk_post_process`. -/
def chunkPostProcess (s : Pool cfg) (op p : ℕ) : Pool cfg :=
  match s.op_db op with
  | none => { s with ctl := .idle }
  | some o =>
    match o.job with
    | .read buffer => s.readChunk op o buffer p
    | .write data2write =>
      if s.delayed_write_err o.io_cache = .ERROR then s.notifyFailure op o
      else s.writeChunk op o data2write p

/-- `read_ctor`, and `write_ctor` of a cache which is not in write-thru. -/
def opCtor (s : Pool cfg) (c : κ) (totfile_range : FileRange)
    (inside : totfile_range.last < cfg.totfile_size c) (job : Job) : Pool cfg :=
  { s with
    next := s.next + 1
    op_db := Function.update s.op_db s.next <| some
      { io_cache := c
        totfile_range := totfile_range
        inside := inside
        job := job
        done_len := 0
        done_lt := Nat.succ_pos _
        phase := .zerotimer }
    log := .asked s.next :: s.log }

end Chunks

def newBlock (s : Pool cfg) (op : ℕ) (datum : Bytes) : Pool cfg :=
  match s.op_db op with
  | none => { s with ctl := .idle }
  | some o =>
    { s.blockCtor (o.newBlock datum) with ctl := .shrinkIfNeeded (.chunkPostProcess op s.next) }

/-- `write_ctor` of a cache in write-thru. -/
def writeThru (s : Pool cfg) (c : κ) (totfile_range : FileRange) (data2write : Bytes) : Pool cfg :=
  let s := s.blockRemoveIncludedIn c totfile_range
  { s with
    next := s.next + 1
    subio_db := s.subio_db.push s.next
      { io_cache := c
        range := totfile_range
        data2write := data2write
        blkwr := false
        performed := false }
    log := .asked s.next :: s.log }

/-! ### The sub-io -/

omit [DecidableEq κ] in
/-- The sub-io reads the bytes for the `bt_io_cache_blkrd_t` of an operation. -/
def subioRead (s : Pool cfg) (op : ℕ) : Pool cfg :=
  match s.op_db op with
  | none => s
  | some o =>
    match o.phase with
    | .blkrd none =>
      { s with
        op_db := Function.update s.op_db op
          (some { o with phase := .blkrd (some (s.disk o.io_cache)) }) }
    | _ => s

omit [DecidableEq κ] in
/-- `neoip_bt_io_cache_blkrd_cb` of a read or a write. -/
def blkrdCb (s : Pool cfg) (op : ℕ) (bt_err : BtErr) : Pool cfg :=
  match s.op_db op with
  | none => s
  | some o =>
    match o.phase, bt_err with
    | .blkrd (some read_data), .OK =>
      { s with
        op_db := Function.update s.op_db op (some { o with phase := .handled })
        ctl := .newBlock op read_data }
    | .blkrd _, .ERROR => s.notifyFailure op o
    | _, _ => s

/-- The sub-io writes the bytes. -/
def subioWrite (s : Pool cfg) (w : ℕ) : Pool cfg :=
  match s.subio_db.get w with
  | none => s
  | some wr =>
    if wr.performed then s
    else
      { s with
        disk := Function.update s.disk wr.io_cache
          (memcpy (s.disk wr.io_cache) wr.range.beg wr.data2write wr.range.beg wr.range.len)
        subio_db := s.subio_db.modify w fun wr => { wr with performed := true }
        log := if wr.blkwr then s.log
          else .wrote w wr.io_cache wr.range wr.data2write :: s.log }

/-- The callback of a sub-io write, which is successful only once it is performed. -/
def subioWriteCb (s : Pool cfg) (w : ℕ) (bt_err : BtErr) : Pool cfg :=
  match s.subio_db.get w with
  | none => s
  | some wr =>
    if bt_err = .OK && !wr.performed then s
    else if wr.blkwr then
      match bt_err with
      | .OK =>
        { s.notifyCleaned wr with
          subio_db := s.subio_db.erase w
          ctl := .shrinkIfNeeded (.notifyBlkwrCompletion wr.io_cache) }
      | .ERROR =>
        { s with
          subio_db := s.subio_db.erase w
          delayed_write_err := Function.update s.delayed_write_err wr.io_cache .ERROR
          ctl := .shrinkIfNeeded (.notifyBlkwrCompletion wr.io_cache) }
    else
      { s with
        subio_db := s.subio_db.erase w
        log := .written w wr.io_cache wr.range wr.data2write bt_err :: s.log }

end Pool

/-! ### The machine -/

/-- The calls of the users, the answers of the lower io and the timers. -/
inductive Event (cfg : Setup κ)
  | read_ctor (c : κ) (totfile_range : FileRange)
      (inside : totfile_range.last < cfg.totfile_size c)
  | write_ctor (c : κ) (totfile_range : FileRange)
      (inside : totfile_range.last < cfg.totfile_size c) (data2write : Bytes)
  | zerotimer (op : ℕ)
  | subio_read (op : ℕ)
  | blkrd_cb (op : ℕ) (bt_err : BtErr)
  | subio_write (w : ℕ)
  | subio_write_cb (w : ℕ) (bt_err : BtErr)
  | cleaning_timeout (c : κ)
  | stopping_ctor (c : κ)
  | resume

namespace Pool

variable {cfg : Setup κ} [DecidableEq κ]

/-- The next piece of the handler which runs. -/
def resume (s : Pool cfg) : Pool cfg :=
  match s.ctl with
  | .idle => s
  | .launchNextChunk op => s.launchNextChunk op
  | .newBlock op datum => s.newBlock op datum
  | .shrinkIfNeeded k => s.shrinkIfNeeded k
  | .startBlkwr c asked_off k => { s.startBlkwr c asked_off with ctl := .ret k }
  | .ret (.chunkPostProcess op p) => s.chunkPostProcess op p
  | .ret (.startBlkwrAll c) => s.startBlkwrAll c
  | .ret (.notifyBlkwrCompletion c) => s.notifyBlkwrCompletion c

omit [DecidableEq κ] in
/-- The zerotimer of an operation expires. -/
def zerotimer (s : Pool cfg) (op : ℕ) : Pool cfg :=
  match s.op_db op with
  | none => s
  | some o =>
    match o.phase with
    | .zerotimer =>
      { s with
        op_db := Function.update s.op_db op (some { o with phase := .handled })
        ctl := .launchNextChunk op }
    | _ => s

/-- An event which comes while no handler runs. -/
def handle (s : Pool cfg) : Event cfg → Pool cfg
  | .read_ctor c totfile_range inside => s.opCtor c totfile_range inside (.read (cfg.malloc s.next))
  | .write_ctor c totfile_range inside data2write =>
    if cfg.write_thru c then s.writeThru c totfile_range data2write
    else s.opCtor c totfile_range inside (.write data2write)
  | .zerotimer op => s.zerotimer op
  | .subio_read op => s.subioRead op
  | .blkrd_cb op bt_err => s.blkrdCb op bt_err
  | .subio_write w => s.subioWrite w
  | .subio_write_cb w bt_err => s.subioWriteCb w bt_err
  | .cleaning_timeout c => { s with ctl := .ret (.startBlkwrAll c) }
  | .stopping_ctor c => { s with stopping_db := Function.update s.stopping_db c true }
  | .resume => s

def step (s : Pool cfg) (e : Event cfg) : Pool cfg :=
  match s.ctl, e with
  | .idle, e => s.handle e
  | _, .resume => s.resume
  | _, _ => s

end Pool

end Neoip.IoCache
