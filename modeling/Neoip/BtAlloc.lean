/-
Neoip/BtAlloc.lean

The allocation of the files of a torrent: `bt_alloc_t`.

The subfiles are made one after the other: the directories of its local path which are
not there, then the file, which must not be there, then zeros up to its length.  What is
made is queued, and removed from the last path to the first when anything fails.

The filesystem is a `FileTree`; where a pathname leads is a parameter.  Every creation
and every write takes effect or fails, as the event of its turn says: a write which
fails, or its `lseek`, may have written a part of the data.  Nobody else changes the
filesystem, and a removal is not made to fail.

A turn is one call of `launch_next_file`, of `launch_next_write` or of the timer of the
write; each ends with the next one, so the run goes from turn to turn.  An assertion
which fails is `none`, and the process is gone: it notifies nothing.  Only the system
calls of unix are modelled, and not the texts of the errors.

What is expected of an allocation is `BtAlloc.Atomic`.
-/
import Mathlib.Data.UInt
import Neoip.FilePath
import Neoip.FileTree
import Neoip.Run

namespace Neoip

/-! ### Parameters -/

/-- `bt_alloc_policy_t`. -/
inductive AllocPolicy
  | FULL
  | HOLE
  deriving DecidableEq, Repr

/-- What `bt_alloc_t` reads of a `bt_mfile_subfile_t`. -/
structure AllocSubfile where
  local_path : FilePath
  len : UInt64

/-- `bt_alloc_profile_t::WRITE_CHUNK_MAXLEN`. -/
def WRITE_CHUNK_MAXLEN : UInt64 := 512 * 1024

/-- `file_aio_profile_t::AWRITE_ITERLEN`. -/
def AWRITE_ITERLEN : UInt64 := 512 * 1024

/-- What an allocation is started with, and where a pathname leads. -/
structure AllocCfg (κ : Type) where
  subfile_arr : List AllocSubfile
  alloc_policy : AllocPolicy
  write_chunk_maxlen : UInt64
  locate : Datum → κ

/-- A path which `to_unxpath_string` takes: it has no drive letter. -/
abbrev UnxPath := {file_path : FilePath // file_path.drvletter = []}

/-- The assertion of `to_unxpath_string`. -/
def FilePath.toUnx (p : FilePath) : Option UnxPath :=
  if h : p.drvletter = [] then some ⟨p, h⟩ else none

/-- The location of the path. -/
def AllocCfg.key {κ : Type} (cfg : AllocCfg κ) (path : UnxPath) : κ := cfg.locate path.1.toString

/-- The errors which are notified. -/
inductive AllocErr
  /-- The error of a system call. -/
  | file
  | notDirectory (subpath : FilePath)
  | alreadyExists (file_path : FilePath)

/-- The call which comes next; `notified none` is a success. -/
inductive AllocCall
  | launchNextFile
  | launchNextWrite
  | awriteExpire
  | notified (bt_err : Option AllocErr)
  | aborted

/-- Which system calls of a turn take effect: the creation of the directory of each
level, that of the file, and the write, or else how much of it was written. -/
structure Outcomes where
  mkdir : ℕ → Bool
  openCreate : Bool
  write : Option ℕ

/-- `file_awrite_t`. -/
structure FileAwrite where
  file_offset : UInt64
  data2write : Datum
  writtenlen : UInt64

/-- `bt_alloc_t`, and the filesystem. -/
structure BtAlloc {κ : Type} [DecidableEq κ] (parent : κ → Option κ) where
  fs : FileTree UInt8 parent
  cur_file_idx : ℕ
  cur_file_off : UInt64
  file_aio : Option UnxPath
  file_awrite : Option FileAwrite
  created_paths : List UnxPath
  call : AllocCall

namespace BtAlloc

variable {κ : Type} [DecidableEq κ] {parent : κ → Option κ} (cfg : AllocCfg κ)

/-! ### Notification -/

/-- One turn of the loop of `created_paths_cleanup`: a failure is logged only. -/
def removePath (path : UnxPath) (fs : FileTree UInt8 parent) : FileTree UInt8 parent :=
  match fs.stat (cfg.key path) with
  | none => fs
  | some .dir => (fs.rmdir (cfg.key path)).getD fs
  | some (.file _) => (fs.unlink (cfg.key path)).getD fs

/-- `created_paths_cleanup`: from the back of the queue. -/
def createdPathsCleanup (s : BtAlloc parent) : BtAlloc parent :=
  { s with fs := s.created_paths.foldr (removePath cfg) s.fs, created_paths := [] }

def notifyCallback (bt_err : Option AllocErr) (s : BtAlloc parent) : BtAlloc parent :=
  { s with call := .notified bt_err }

def notifyCallbackFailed (bt_err : AllocErr) (s : BtAlloc parent) : BtAlloc parent :=
  notifyCallback (some bt_err) (createdPathsCleanup cfg s)

/-! ### Creation -/

/-- The loop of `create_dir_if_needed` from the level `i`, and its error. -/
def createDirLoop (dir_path : FilePath) (outcomes : Outcomes) (i : ℕ) :
    ℕ → BtAlloc parent → Option (Option AllocErr × BtAlloc parent)
  | 0, s => some (none, s)
  | n + 1, s => do
    let subpath ← dir_path.subpath i
    let path ← subpath.toUnx
    match s.fs.stat (cfg.key path) with
    | none =>
      -- this level is not there: it is made, and queued
      match if outcomes.mkdir i then s.fs.mkdir (cfg.key path) else none with
      | none => some (some .file, s)
      | some fs =>
        createDirLoop dir_path outcomes (i + 1) n
          { s with fs, created_paths := s.created_paths ++ [path] }
    | some .dir => createDirLoop dir_path outcomes (i + 1) n s
    | some (.file _) => some (some (.notDirectory subpath), s)

def createDirIfNeeded (dir_path : FilePath) (outcomes : Outcomes) (s : BtAlloc parent) :
    Option (Option AllocErr × BtAlloc parent) :=
  createDirLoop cfg dir_path outcomes 0 dir_path.size s

/-- The first `cur_file_off` of a file. -/
def firstOff (len : UInt64) : UInt64 :=
  match cfg.alloc_policy with
  | .FULL => 0
  | .HOLE => if len = 0 then 0 else len - 1

/-- The part of `launch_next_file` which makes the file, in a directory which is there. -/
def createFile (outcomes : Outcomes) (mfile_subfile : AllocSubfile) (file_path : UnxPath)
    (s : BtAlloc parent) : BtAlloc parent :=
  if (s.fs.stat (cfg.key file_path)).isSome then
    notifyCallbackFailed cfg (.alreadyExists file_path) s
  else
    -- without `file_mode_t::TRUNCATE`, to stay non destructive
    match if outcomes.openCreate then s.fs.openCreate (cfg.key file_path) else none with
    | none => notifyCallbackFailed cfg .file s
    | some fs =>
      { s with
        fs
        file_aio := some file_path
        created_paths := s.created_paths ++ [file_path]
        cur_file_off := firstOff cfg mfile_subfile.len
        call := .launchNextWrite }

def launchNextFile (outcomes : Outcomes) (s : BtAlloc parent) : Option (BtAlloc parent) :=
  if s.cur_file_idx = cfg.subfile_arr.length then some (notifyCallback none s)
  else do
    let s := { s with file_aio := none }
    let mfile_subfile ← cfg.subfile_arr[s.cur_file_idx]?
    let dir_path ← mfile_subfile.local_path.dirname
    match ← createDirIfNeeded cfg dir_path outcomes s with
    | (some bt_err, s) => some (notifyCallbackFailed cfg bt_err s)
    | (none, s) => (mfile_subfile.local_path.toUnx).map (createFile cfg outcomes mfile_subfile · s)

/-! ### Writes -/

/-- The part of `launch_next_write` which starts the `file_awrite_t`: this waits for its timer. -/
def launchAwrite (mfile_subfile : AllocSubfile) (s : BtAlloc parent) : BtAlloc parent :=
  let datalen := min (mfile_subfile.len - s.cur_file_off) cfg.write_chunk_maxlen
  { s with
    file_awrite := some ⟨s.cur_file_off, List.replicate datalen.toNat 0, 0⟩
    cur_file_off := s.cur_file_off + datalen
    call := .awriteExpire }

def launchNextWrite (s : BtAlloc parent) : Option (BtAlloc parent) := do
  let mfile_subfile ← cfg.subfile_arr[s.cur_file_idx]?
  if mfile_subfile.len ≤ s.cur_file_off then
    some { s with cur_file_idx := s.cur_file_idx + 1, call := .launchNextFile }
  else if s.file_awrite.isSome ∨ s.file_aio.isNone then none
  else some (launchAwrite cfg mfile_subfile s)

def neoipFileAwriteCb (file_err : Bool) (s : BtAlloc parent) : BtAlloc parent :=
  if file_err then notifyCallbackFailed cfg .file s
  else { s with file_awrite := none, call := .launchNextWrite }

/-- An iteration of the `file_awrite_t`, at an offset which is an `off_t`. -/
def awriteIter (outcomes : Outcomes) (file_awrite : FileAwrite) (file_aio : UnxPath)
    (s : BtAlloc parent) : BtAlloc parent :=
  let offset := file_awrite.file_offset + file_awrite.writtenlen
  let iterlen := min (UInt64.ofNat file_awrite.data2write.length - file_awrite.writtenlen)
    AWRITE_ITERLEN
  let buf := (file_awrite.data2write.drop file_awrite.writtenlen.toNat).take iterlen.toNat
  match outcomes.write with
  | some writeres =>
    -- `writeres` bytes at most were written, and there is no second try
    let fs := (s.fs.write (cfg.key file_aio) offset.toNat (buf.take writeres)).getD s.fs
    neoipFileAwriteCb cfg true { s with fs }
  | none =>
    match s.fs.write (cfg.key file_aio) offset.toNat buf with
    | none => neoipFileAwriteCb cfg true s
    | some fs =>
      let writtenlen := file_awrite.writtenlen + iterlen
      let s := { s with fs, file_awrite := some { file_awrite with writtenlen } }
      if writtenlen.toNat = file_awrite.data2write.length then neoipFileAwriteCb cfg false s
      else s

/-- The timer of the `file_awrite_t`. -/
def awriteExpire (outcomes : Outcomes) (s : BtAlloc parent) : Option (BtAlloc parent) := do
  let file_awrite ← s.file_awrite
  let file_aio ← s.file_aio
  if (file_awrite.file_offset + file_awrite.writtenlen).toNat < 2 ^ 63 then
    some (awriteIter cfg outcomes file_awrite file_aio s)
  else none

/-! ### Runs -/

def turn (s : BtAlloc parent) (outcomes : Outcomes) : Option (BtAlloc parent) :=
  match s.call with
  | .launchNextFile => launchNextFile cfg outcomes s
  | .launchNextWrite => launchNextWrite cfg s
  | .awriteExpire => awriteExpire cfg outcomes s
  | _ => some s

def step (s : BtAlloc parent) (outcomes : Outcomes) : BtAlloc parent :=
  (turn cfg s outcomes).getD { s with call := .aborted }

/-- `start`. -/
def start (fs : FileTree UInt8 parent) : BtAlloc parent where
  fs
  cur_file_idx := 0
  cur_file_off := 0
  file_aio := none
  file_awrite := none
  created_paths := []
  call := .launchNextFile

/-! ### What is expected of it -/

/-- The file of the subfile exists, with the length which was announced. -/
def Allocated (fs : FileTree UInt8 parent) (mfile_subfile : AllocSubfile) : Prop :=
  ∃ path, mfile_subfile.local_path.toUnx = some path ∧
    ∃ data, fs.stat (cfg.key path) = some (.file data) ∧ data.length = mfile_subfile.len.toNat

/-- Whatever takes effect, there is a notification after some number of turns. -/
def Terminates (s : BtAlloc parent) : Prop :=
  ∃ n, ∀ evs : List Outcomes, n ≤ evs.length →
    ∃ bt_err, (run (step cfg) s evs).call = .notified bt_err

/-- From the filesystem `fs₀`, the allocation ends in a notification; all is as it was when it
notifies a failure, and when it notifies a success the files exist and what existed before
is as it was. -/
structure Atomic (fs₀ : FileTree UInt8 parent) : Prop where
  terminates : Terminates cfg (start fs₀)
  failed : ∀ (evs : List Outcomes) (bt_err : AllocErr),
    (run (step cfg) (start fs₀) evs).call = .notified (some bt_err) →
      (run (step cfg) (start fs₀) evs).fs = fs₀
  succeeded : ∀ evs : List Outcomes,
    (run (step cfg) (start fs₀) evs).call = .notified none →
      (∀ mfile_subfile ∈ cfg.subfile_arr,
        Allocated cfg (run (step cfg) (start fs₀) evs).fs mfile_subfile) ∧
      ∀ k e, fs₀.stat k = some e → (run (step cfg) (start fs₀) evs).fs.stat k = some e

/-- The turn meets no assertion, and no write of no length: the subfile has a local path, and
one without drive letter; what is written is not limited to nothing; the offset of the write
is an `off_t`. -/
def Proceeds (s : BtAlloc parent) : Prop :=
  match s.call with
  | .launchNextFile => ∀ mfile_subfile, cfg.subfile_arr[s.cur_file_idx]? = some mfile_subfile →
      mfile_subfile.local_path.isNull = false ∧ mfile_subfile.local_path.drvletter = []
  | .launchNextWrite => ∀ mfile_subfile, cfg.subfile_arr[s.cur_file_idx]? = some mfile_subfile →
      s.cur_file_off < mfile_subfile.len → cfg.write_chunk_maxlen ≠ 0
  | .awriteExpire => ∀ file_awrite, s.file_awrite = some file_awrite →
      (file_awrite.file_offset + file_awrite.writtenlen).toNat < 2 ^ 63
  | _ => True

end BtAlloc

end Neoip
