/-
Neoip/FileIo.lean

The ios which have the total file in files: what `bt_io_sfile_t` and
`bt_io_pfile_t` share.

A `bt_io_read_t` or a `bt_io_write_t` of them cuts its range into parts, one in
each file, and goes through them: it opens the file, reads or writes the part by a
`file_aread_t` or a `file_awrite_t`, which takes a timer for each few bytes of it,
and closes the file.  So between the question and the answer any number of other
operations take their turns.

What differs is in a `FileLayout`: the files, where the bytes are in them and how a
range is cut, with the proof that the parts of a range are its bytes in order.  The
step relation and the log of what is answered are here, and the byte store they are
compared with.
-/
import Mathlib.Data.UInt
import Neoip.FileSys
import Neoip.IoCache
import Neoip.Run

namespace Neoip

open IoCache (BtErr)

/-! ### Where the bytes are -/

/-- Consecutive bytes of one file: a `bt_iov_t`, or a `bt_prange_t`. -/
structure FilePart where
  idx : ℕ
  offset : ℕ
  length : ℕ
deriving DecidableEq, Repr

/-- The bytes of a part: their file, and where they are in it. -/
def FilePart.places (part : FilePart) : List (ℕ × ℕ) :=
  (List.range part.length).map fun i => (part.idx, part.offset + i)

/-- The files of an io, and the parts of a range. -/
structure FileLayout (π : Type) where
  totfile_size : ℕ
  size_pos : 0 < totfile_size
  nb_file : ℕ
  filepath : ℕ → π
  filepath_inj : ∀ i < nb_file, ∀ j < nb_file, filepath i = filepath j → i = j
  /-- Where a byte of the total file is. -/
  place : ℕ → ℕ × ℕ
  place_lt : ∀ x < totfile_size, (place x).1 < nb_file
  place_inj : ∀ x < totfile_size, ∀ y < totfile_size, place x = place y → x = y
  /-- A write creates its files, and `remove` unlinks them. -/
  creates : Bool
  /-- The ranges whose parts are computed without a failed assertion, and which do not come back to
  their first byte. -/
  accepts : FileRange → Bool
  part_arr : FileRange → List FilePart
  len_le : ∀ r, accepts r = true → r.len ≤ totfile_size
  part_pos : ∀ r, accepts r = true → ∀ part ∈ part_arr r, 0 < part.length
  /-- The parts are the bytes of the range, in order; past the end it goes on at the beginning. -/
  places : ∀ r, accepts r = true → (part_arr r).flatMap FilePart.places =
    (List.range r.len).map fun i => place ((r.beg + i) % totfile_size)
  /-- The files which `remove` is about, if they are whole ones. -/
  removes : FileRange → Option (List ℕ)
  removes_lt : ∀ r l, removes r = some l → ∀ idx ∈ l, idx < nb_file
  removes_whole : ∀ r l, removes r = some l → ∀ idx ∈ l, ∀ x < totfile_size,
    (place x).1 = idx → ∃ i < r.len, (r.beg + i) % totfile_size = x

/-- `file_aio_profile_t`. -/
structure FileAioProfile where
  aread_iterlen : ℕ
  awrite_iterlen : ℕ
deriving DecidableEq, Repr

/-! ### `file_awrite_t` and `file_aread_t` -/

/-- A `file_awrite_t`, with the file that its `file_aio_t` has open. -/
structure AioWrite where
  ino : ℕ
  file_offset : ℕ
  data2write : List UInt8
  writtenlen : ℕ
deriving DecidableEq, Repr

/-- A `file_aread_t`, with the file that its `file_aio_t` has open. -/
structure AioRead where
  ino : ℕ
  file_offset : ℕ
  aread_len : ℕ
  recved_data : List UInt8
deriving DecidableEq, Repr

/-- What a timer of them comes to. -/
inductive Turn (β γ : Type)
  | failed
  | again (a : β)
  | done (res : γ)

variable {π : Type}

namespace AioWrite

variable (profile : FileAioProfile) (a : AioWrite)

def iterlen : ℕ := min (a.data2write.length - a.writtenlen) profile.awrite_iterlen

/-- The bytes which `write(2)` takes: all of them, or less when it fails, `none` when it
returns an error or when `lseek(2)` does. -/
def taken (os : Option ℕ) : List UInt8 :=
  (a.data2write.drop a.writtenlen).take (min (os.getD 0) (a.iterlen profile))

/-- `neoip_zerotimer_expire_cb`. -/
def expire (fs : FileSys π UInt8) (os : Option ℕ) : FileSys π UInt8 × Turn AioWrite Unit :=
  let fs := fs.pwrite a.ino (a.file_offset + a.writtenlen) (a.taken profile os)
  if os = none ∨ (a.taken profile os).length ≠ a.iterlen profile then (fs, .failed)
  else if a.writtenlen + a.iterlen profile = a.data2write.length then (fs, .done ())
  else (fs, .again { a with writtenlen := a.writtenlen + a.iterlen profile })

end AioWrite

namespace AioRead

variable (profile : FileAioProfile) (a : AioRead)

def iterlen : ℕ := min (a.aread_len - a.recved_data.length) profile.aread_iterlen

/-- `neoip_zerotimer_expire_cb`; a `read(2)` which gets less than it was asked for fails. -/
def expire (fs : FileSys π UInt8) (os : Option ℕ) : Turn AioRead (List UInt8) :=
  match os with
  | none => .failed
  | some n =>
    let buf := fs.pread a.ino (a.file_offset + a.recved_data.length) (min n (a.iterlen profile))
    if buf.length ≠ a.iterlen profile then .failed
    else if a.recved_data.length + buf.length = a.aread_len then .done (a.recved_data ++ buf)
    else .again { a with recved_data := a.recved_data ++ buf }

end AioRead

/-! ### The operations -/

/-- What an io is about. -/
inductive BtIoJob
  | read (data_queue : List UInt8) (file_aread : Option AioRead)
  | write (data2write : List UInt8) (written_len : ℕ) (file_awrite : Option AioWrite)
deriving DecidableEq, Repr

/-- A `bt_io_read_t` or a `bt_io_write_t`.  One whose constructor failed has no file open, and a
timer which is about to say so. -/
structure BtIo where
  totfile_range : FileRange
  part_arr : List FilePart
  part_idx : ℕ
  job : BtIoJob
deriving DecidableEq, Repr

/-- What was answered, and what was done to the files without an answer: a write which was
deleted, a file which was removed. -/
inductive IoEntry
  | read (id : ℕ) (totfile_range : FileRange) (bt_err : BtErr) (data : List UInt8)
  /-- The first `len` bytes were written. -/
  | written (id : ℕ) (totfile_range : FileRange) (data2write : List UInt8) (len : ℕ)
      (bt_err : BtErr)
  | dropped (totfile_range : FileRange) (data2write : List UInt8) (len : ℕ)
  | removed (idx : ℕ)
deriving DecidableEq, Repr

/-- The operations of an io are known by their address, and none is used twice. -/
structure FileIo (π : Type) where
  fs : FileSys π UInt8
  /-- `m_file_exist`. -/
  file_exist : ℕ → Bool
  /-- `read_db` and `write_db`. -/
  db : ℕ → Option BtIo
  next : ℕ
  log : List IoEntry

/-- In `os_open` and `os_unlink`, the system calls which do not fail for a reason of their own. -/
inductive IoEvent
  | read_ctor (totfile_range : FileRange) (os_open : Bool)
  | write_ctor (totfile_range : FileRange) (data2write : List UInt8) (os_open : Bool)
  | zerotimer (id : ℕ) (os : Option ℕ) (os_open : Bool)
  | dtor (id : ℕ)
  | remove (totfile_range : FileRange) (os_unlink : ℕ → Bool)

namespace BtIo

def isWrite (o : BtIo) : Bool :=
  match o.job with
  | .read .. => false
  | .write .. => true

/-- The bytes which were read or written so far. -/
def pos (o : BtIo) : ℕ :=
  match o.job with
  | .read data_queue a => data_queue.length + (a.map fun a => a.recved_data.length).getD 0
  | .write _ written_len a => written_len + (a.map AioWrite.writtenlen).getD 0

end BtIo

namespace FileIo

variable (L : FileLayout π) (profile : FileAioProfile)

/-- The state after `start`. -/
def init (fs : FileSys π UInt8) : FileIo π := ⟨fs, fun _ => false, fun _ => none, 0, []⟩

variable (s : FileIo π)

def update (id : ℕ) (o : BtIo) : FileIo π :=
  { s with db := Function.update s.db id (some o) }

/-- The callback is notified, and deletes the operation. -/
def notify (id : ℕ) (entry : IoEntry) : FileIo π :=
  { s with db := Function.update s.db id none, log := entry :: s.log }

/-- The `launch_next_iov` or `launch_next_prange` of a read. -/
def launchRead (part : FilePart) (os_open : Bool) : Option AioRead :=
  if os_open then
    (s.fs.openFile (L.filepath part.idx)).map fun ino => ⟨ino, part.offset, part.length, []⟩
  else none

variable [DecidableEq π]

/-- The `launch_next_iov` or `launch_next_prange` of a write. -/
def launchWrite (data2write : List UInt8) (written_len : ℕ) (part : FilePart) (os_open : Bool) :
    FileIo π × Option AioWrite :=
  let a ino : AioWrite :=
    ⟨ino, part.offset, (data2write.drop written_len).take part.length, 0⟩
  if L.creates then
    let s := { s with file_exist := Function.update s.file_exist part.idx true }
    if os_open then
      let (fs, ino) := s.fs.openCreate (L.filepath part.idx)
      ({ s with fs := fs }, some (a ino))
    else (s, none)
  else if os_open then (s, (s.fs.openFile (L.filepath part.idx)).map a)
  else (s, none)

def readCtor (r : FileRange) (os_open : Bool) : FileIo π :=
  match L.accepts r, L.part_arr r with
  | true, part :: rest =>
    let file_aread := s.launchRead L part os_open
    { s.update s.next ⟨r, part :: rest, 0, .read [] file_aread⟩ with next := s.next + 1 }
  | _, _ => s

def writeCtor (r : FileRange) (data2write : List UInt8) (os_open : Bool) : FileIo π :=
  match L.accepts r && r.len == data2write.length, L.part_arr r with
  | true, part :: rest =>
    let (s, file_awrite) := s.launchWrite L data2write 0 part os_open
    { s.update s.next ⟨r, part :: rest, 0, .write data2write 0 file_awrite⟩ with
      next := s.next + 1 }
  | _, _ => s

/-- `neoip_file_aread_cb`, when the part was read. -/
def areadCb (id : ℕ) (o : BtIo) (data_queue aread_data : List UInt8) (os_open : Bool) : FileIo π :=
  let data_queue := data_queue ++ aread_data
  match o.part_arr[o.part_idx + 1]? with
  | none => s.notify id (.read id o.totfile_range .OK data_queue)
  | some part =>
    match s.launchRead L part os_open with
    | none => s.notify id (.read id o.totfile_range .ERROR [])
    | some a =>
      s.update id { o with part_idx := o.part_idx + 1, job := .read data_queue (some a) }

/-- `neoip_file_awrite_cb`, when the part was written. -/
def awriteCb (id : ℕ) (o : BtIo) (data2write : List UInt8) (written_len : ℕ) (os_open : Bool) :
    FileIo π :=
  let written_len := written_len + (o.part_arr[o.part_idx]?.map FilePart.length).getD 0
  match o.part_arr[o.part_idx + 1]? with
  | none => s.notify id (.written id o.totfile_range data2write written_len .OK)
  | some part =>
    match s.launchWrite L data2write written_len part os_open with
    | (s, none) => s.notify id (.written id o.totfile_range data2write written_len .ERROR)
    | (s, some a) => s.update id
        { o with part_idx := o.part_idx + 1, job := .write data2write written_len (some a) }

/-- The timer of an operation: of its `file_aread_t` or `file_awrite_t`, or `zerotimer_err`. -/
def expire (id : ℕ) (os : Option ℕ) (os_open : Bool) : FileIo π :=
  match s.db id with
  | none => s
  | some o =>
    match o.job with
    | .read _ none => s.notify id (.read id o.totfile_range .ERROR [])
    | .write data2write written_len none =>
      s.notify id (.written id o.totfile_range data2write written_len .ERROR)
    | .read data_queue (some a) =>
      match a.expire profile s.fs os with
      | .failed => s.notify id (.read id o.totfile_range .ERROR [])
      | .again a => s.update id { o with job := .read data_queue (some a) }
      | .done aread_data => s.areadCb L id o data_queue aread_data os_open
    | .write data2write written_len (some a) =>
      match a.expire profile s.fs os with
      | (fs, .failed) => { s with fs := fs }.notify id (.written id o.totfile_range data2write
          (written_len + a.writtenlen + (a.taken profile os).length) .ERROR)
      | (fs, .again a) =>
        { s with fs := fs }.update id { o with job := .write data2write written_len (some a) }
      | (fs, .done _) => { s with fs := fs }.awriteCb L id o data2write written_len os_open

/-- The destructor of an operation which was not answered. -/
def dtor (id : ℕ) : FileIo π :=
  match s.db id with
  | none => s
  | some o =>
    match o.job with
    | .read .. => { s with db := Function.update s.db id none }
    | .write data2write _ _ => s.notify id (.dropped o.totfile_range data2write o.pos)

/-- The loop of `bt_io_pfile_t::remove`, which the first error ends. -/
def removeLoop (os_unlink : ℕ → Bool) : FileIo π → List ℕ → FileIo π × BtErr
  | s, [] => (s, .OK)
  | s, idx :: rest =>
    if s.file_exist idx then
      match (if os_unlink idx then s.fs.unlink (L.filepath idx) else none) with
      | none => (s, .ERROR)
      | some fs => removeLoop os_unlink { s with fs := fs, log := .removed idx :: s.log } rest
    else removeLoop os_unlink s rest

def remove (r : FileRange) (os_unlink : ℕ → Bool) : FileIo π × BtErr :=
  match L.removes r with
  | none => (s, .ERROR)
  | some idx_arr => s.removeLoop L os_unlink idx_arr

def step : FileIo π → IoEvent → FileIo π
  | s, .read_ctor r os_open => s.readCtor L r os_open
  | s, .write_ctor r data2write os_open => s.writeCtor L r data2write os_open
  | s, .zerotimer id os os_open => s.expire L profile id os os_open
  | s, .dtor id => s.dtor id
  | s, .remove r os_unlink => (s.remove L r os_unlink).1

end FileIo

/-! ### The byte store -/

namespace FileLayout

variable (L : FileLayout π)

/-- Where a byte comes in a range which begins at `r.beg`. -/
def index (r : FileRange) (x : ℕ) : ℕ :=
  (x + (L.totfile_size - r.beg % L.totfile_size)) % L.totfile_size

/-- The byte is in the range. -/
def Has (r : FileRange) (x : ℕ) : Prop := L.index r x < r.len

instance (r : FileRange) (x : ℕ) : Decidable (L.Has r x) := Nat.decLt _ _

/-- The ranges have no byte in common. -/
def Distinct (r r' : FileRange) : Prop := ∀ x < L.totfile_size, L.Has r x → ¬ L.Has r' x

instance (r r' : FileRange) : Decidable (L.Distinct r r') :=
  inferInstanceAs (Decidable (∀ x < L.totfile_size, L.Has r x → ¬ L.Has r' x))

/-- The byte which the files have. -/
def byte (fs : FileSys π UInt8) (x : ℕ) : UInt8 :=
  fs.byte (L.filepath (L.place x).1) (L.place x).2

/-- The store `store` after the first `len` bytes of `data` are written from `r.beg` on. -/
def put (r : FileRange) (data : List UInt8) (len : ℕ) (store : ℕ → UInt8) (x : ℕ) : UInt8 :=
  if L.index r x < len then data.getD (L.index r x) 0 else store x

/-- What a byte store which begins with `store` holds after what is in the log. -/
def content (store : ℕ → UInt8) : List IoEntry → ℕ → UInt8
  | [] => store
  | .read .. :: log => content store log
  | .written _ r data2write len _ :: log => L.put r data2write len (content store log)
  | .dropped r data2write len :: log => L.put r data2write len (content store log)
  | .removed idx :: log => fun x => if (L.place x).1 = idx then 0 else content store log x

/-- The log is one of a byte store, whose operations are done at once when they are answered:
a read which succeeds has the bytes of its range, and a write which does has all of them
written; one which fails or is deleted has written a prefix of its data. -/
def Atomic (store : ℕ → UInt8) : List IoEntry → Prop
  | [] => True
  | .read _ r .OK data :: log =>
    data = ((List.range r.len).map fun i => L.content store log ((r.beg + i) % L.totfile_size)) ∧
      Atomic store log
  | .written _ r data2write len .OK :: log =>
    data2write.length = r.len ∧ len = r.len ∧ Atomic store log
  | .written _ r data2write len .ERROR :: log =>
    data2write.length = r.len ∧ len ≤ r.len ∧ Atomic store log
  | .dropped r data2write len :: log => data2write.length = r.len ∧ len ≤ r.len ∧ Atomic store log
  | _ :: log => Atomic store log

end FileLayout

namespace FileIo

variable (L : FileLayout π)

/-- No operation begins on the bytes of another one which is not over, unless both are reads. -/
def NoOverlap (s : FileIo π) : IoEvent → Prop
  | .read_ctor r _ => ∀ id < s.next, ∀ o ∈ s.db id, o.isWrite = true → L.Distinct r o.totfile_range
  | .write_ctor r _ _ => ∀ id < s.next, ∀ o ∈ s.db id, L.Distinct r o.totfile_range
  | .remove r _ => ∀ id < s.next, ∀ o ∈ s.db id, L.Distinct r o.totfile_range
  | .zerotimer .. => True
  | .dtor _ => True

instance (s : FileIo π) : (e : IoEvent) → Decidable (s.NoOverlap L e)
  | .read_ctor r _ => inferInstanceAs (Decidable
      (∀ id < s.next, ∀ o ∈ s.db id, o.isWrite = true → L.Distinct r o.totfile_range))
  | .write_ctor r _ _ => inferInstanceAs (Decidable
      (∀ id < s.next, ∀ o ∈ s.db id, L.Distinct r o.totfile_range))
  | .remove r _ => inferInstanceAs (Decidable
      (∀ id < s.next, ∀ o ∈ s.db id, L.Distinct r o.totfile_range))
  | .zerotimer .. => .isTrue trivial
  | .dtor _ => .isTrue trivial

end FileIo

end Neoip
