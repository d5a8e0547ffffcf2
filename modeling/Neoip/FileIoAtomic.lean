/-
Neoip/FileIoAtomic.lean

The file ios against a byte store.

An operation goes through the files part after part, a few bytes at a time, while
others do the same.  As long as no operation begins on the bytes of another one
which is not over, this cannot be told from a byte store whose operations are done
at once: what the files hold is the store, with the bytes already written of the
writes which are not over, and what was read so far is what the store has
(`FileIo.Inv`).

Main result: `FileIo.inv_run`, over all layouts.
-/
import Mathlib.Data.List.GetD
import Neoip.FileIo

namespace Neoip

open IoCache (BtErr)

variable {π : Type} {L : FileLayout π} {r r' : FileRange} {x i : ℕ}

/-! ### Positions in a range -/

/-- A place in lists which are put together. -/
theorem getElem?_flatMap_add {α β : Type} (f : α → List β) {l : List α} {k i : ℕ} {a : α}
    (hk : l[k]? = some a) (hi : i < (f a).length) :
    (l.flatMap f)[((l.take k).map fun b => (f b).length).sum + i]? = (f a)[i]? := by
  induction l generalizing k with
  | nil => cases hk
  | cons b l ih =>
    rw [List.flatMap_cons]
    cases k with
    | zero =>
      obtain rfl := Option.some.inj hk
      rw [List.take_zero, List.map_nil, List.sum_nil, Nat.zero_add,
        List.getElem?_append_left hi]
    | succ k =>
      rw [List.take_succ_cons, List.map_cons, List.sum_cons, Nat.add_assoc,
        List.getElem?_append_right (Nat.le_add_right _ _), Nat.add_sub_cancel_left]
      exact ih hk

namespace FileLayout

theorem index_lt : L.index r x < L.totfile_size := Nat.mod_lt _ L.size_pos

theorem index_add (hi : i < L.totfile_size) :
    L.index r ((r.beg + i) % L.totfile_size) = i := by
  have hbeg : r.beg % L.totfile_size < L.totfile_size := Nat.mod_lt _ L.size_pos
  have hsum : r.beg + i + (L.totfile_size - r.beg % L.totfile_size) =
      i + L.totfile_size + L.totfile_size * (r.beg / L.totfile_size) := by
    have hdiv := Nat.div_add_mod r.beg L.totfile_size
    omega
  rw [index, Nat.mod_add_mod, hsum, Nat.add_mul_mod_self_left, Nat.add_mod_right,
    Nat.mod_eq_of_lt hi]

theorem add_index (hx : x < L.totfile_size) : (r.beg + L.index r x) % L.totfile_size = x := by
  have h := index_add (L := L) (r := r) hx
  rwa [index, Nat.mod_add_mod, Nat.add_assoc, ← Nat.add_mod_mod] at h

theorem has_add (hr : L.accepts r = true) (hi : i < r.len) :
    L.Has r ((r.beg + i) % L.totfile_size) := by
  rw [Has, index_add (Nat.lt_of_lt_of_le hi (L.len_le r hr))]
  exact hi

/-- The bytes before the part `k` of a range. -/
def before (L : FileLayout π) (r : FileRange) (k : ℕ) : ℕ :=
  (((L.part_arr r).take k).map FilePart.length).sum

variable {k : ℕ} {part : FilePart}

theorem before_succ (hk : (L.part_arr r)[k]? = some part) :
    L.before r (k + 1) = L.before r k + part.length := by
  rw [before, before, List.take_add_one, hk, List.map_append, List.sum_append]
  rfl

theorem length_flatMap_places (l : List FilePart) :
    (l.flatMap FilePart.places).length = (l.map FilePart.length).sum := by
  induction l with
  | nil => rfl
  | cons part l ih =>
    rw [List.flatMap_cons, List.length_append, ih, List.map_cons, List.sum_cons, FilePart.places,
      List.length_map, List.length_range]

/-- All the parts are all the range. -/
theorem before_of_le (hr : L.accepts r = true) (hk : (L.part_arr r)[k]? = none) :
    L.before r k = r.len := by
  have hlen := congrArg List.length (L.places r hr)
  rw [length_flatMap_places, List.length_map, List.length_range] at hlen
  rw [before, List.take_of_length_le (List.getElem?_eq_none_iff.1 hk), hlen]

/-- Where the bytes of a part are. -/
theorem place_part (hr : L.accepts r = true) (hk : (L.part_arr r)[k]? = some part)
    (hi : i < part.length) : L.before r k + i < r.len ∧
      L.place ((r.beg + (L.before r k + i)) % L.totfile_size) = (part.idx, part.offset + i) := by
  have hplaces := getElem?_flatMap_add FilePart.places hk
    (by rw [FilePart.places, List.length_map, List.length_range]; exact hi)
  have hsum : (((L.part_arr r).take k).map fun b => b.places.length).sum = L.before r k := by
    rw [before]
    congr 2
    funext b
    rw [FilePart.places, List.length_map, List.length_range]
  rw [hsum, L.places r hr, FilePart.places, List.getElem?_map, List.getElem?_map,
    List.getElem?_range hi] at hplaces
  rcases Nat.lt_or_ge (L.before r k + i) r.len with hlt | hge
  · rw [List.getElem?_range hlt] at hplaces
    exact ⟨hlt, Option.some.inj hplaces⟩
  · rw [List.getElem?_eq_none (by rw [List.length_range]; exact hge)] at hplaces
    cases hplaces

/-- The part ends in the range. -/
theorem end_le (hr : L.accepts r = true) (hk : (L.part_arr r)[k]? = some part) :
    L.before r k + part.length ≤ r.len := by
  have hpos := L.part_pos r hr part (List.mem_of_getElem? hk)
  have hlt := (place_part hr hk (show part.length - 1 < part.length by omega)).1
  omega

theorem part_idx_lt (hr : L.accepts r = true) (hk : (L.part_arr r)[k]? = some part) :
    part.idx < L.nb_file := by
  have hpos := L.part_pos r hr part (List.mem_of_getElem? hk)
  obtain ⟨-, hplace⟩ := place_part hr hk hpos
  have hlt := L.place_lt _ (Nat.mod_lt (r.beg + (L.before r k + 0)) L.size_pos)
  rwa [hplace] at hlt

/-- A byte is in a part when it is at its place. -/
theorem place_eq_iff (hr : L.accepts r = true) (hk : (L.part_arr r)[k]? = some part)
    (hx : x < L.totfile_size) {off len : ℕ} (hlen : off + len ≤ part.length) :
    (L.filepath (L.place x).1 = L.filepath part.idx ∧ part.offset + off ≤ (L.place x).2 ∧
        (L.place x).2 < part.offset + off + len) ↔
      L.before r k + off ≤ L.index r x ∧ L.index r x < L.before r k + off + len := by
  constructor
  · rintro ⟨hpath, hle, hlt⟩
    have hidx := L.filepath_inj _ (L.place_lt x hx) _ (part_idx_lt hr hk) hpath
    obtain ⟨j, hj⟩ := Nat.le.dest (Nat.le_trans (Nat.le_add_right _ off) hle)
    have hjlen : j < part.length := by omega
    obtain ⟨hin, hplace⟩ := place_part hr hk hjlen
    have hsize := L.len_le r hr
    have heq : (r.beg + (L.before r k + j)) % L.totfile_size = x := by
      apply L.place_inj _ (Nat.mod_lt _ L.size_pos) _ hx
      rw [hplace, ← hidx, hj]
    have hindex : L.index r x = L.before r k + j := by
      rw [← heq, index_add (by omega)]
    omega
  · rintro ⟨hle, hlt⟩
    obtain ⟨j, hj⟩ := Nat.le.dest (Nat.le_trans (Nat.le_add_right _ off) hle)
    have hjlen : j < part.length := by omega
    obtain ⟨-, hplace⟩ := place_part hr hk hjlen
    rw [hj, add_index hx] at hplace
    rw [hplace]
    refine ⟨rfl, ?_, ?_⟩ <;> dsimp only <;> omega

/-- What a write to a file does to the bytes of a range. -/
theorem byte_pwrite [DecidableEq π] {fs : FileSys π UInt8} {ino off : ℕ} {buf : List UInt8}
    (hr : L.accepts r = true) (hk : (L.part_arr r)[k]? = some part)
    (hino : fs.dir (L.filepath part.idx) = some ino) (hlen : off + buf.length ≤ part.length)
    (hx : x < L.totfile_size) :
    L.byte (fs.pwrite ino (part.offset + off) buf) x =
      if L.before r k + off ≤ L.index r x ∧ L.index r x < L.before r k + off + buf.length then
        buf.getD (L.index r x - (L.before r k + off)) 0
      else L.byte fs x := by
  rw [byte, FileSys.byte_pwrite hino]
  simp only [place_eq_iff hr hk hx hlen]
  split_ifs with hin
  · obtain ⟨j, hj⟩ := Nat.le.dest (Nat.le_trans (Nat.le_add_right _ off) hin.1)
    obtain ⟨-, hplace⟩ := place_part hr hk (show j < part.length by omega)
    rw [hj, add_index hx] at hplace
    rw [hplace]
    congr 1
    dsimp only
    omega
  · rfl

/-! ### The store -/

variable {store store' : ℕ → UInt8} {data : List UInt8} {len : ℕ}

theorem put_of_not (h : ¬ L.index r x < len) : L.put r data len store x = store x := if_neg h

@[simp] theorem put_zero : L.put r data 0 store = store := by
  funext x
  exact put_of_not (Nat.not_lt_zero _)

end FileLayout

/-! ### Progress of an operation -/

namespace BtIo

/-- The bytes which a read has so far. -/
def got (o : BtIo) : List UInt8 :=
  match o.job with
  | .read data_queue a => data_queue ++ (a.map AioRead.recved_data).getD []
  | .write .. => []

/-- The store, with what the operation has written of it. -/
def pending (L : FileLayout π) (o : BtIo) (store : ℕ → UInt8) : ℕ → UInt8 :=
  match o.job with
  | .read .. => store
  | .write data2write _ _ => L.put o.totfile_range data2write o.pos store

/-- The progress is where the parts and the file which is open say. -/
def JobOk (L : FileLayout π) (fs : FileSys π UInt8) (r : FileRange) (k : ℕ) (part : FilePart) :
    BtIoJob → Prop
  | .read data_queue none => data_queue = []
  | .read data_queue (some a) =>
    data_queue.length = L.before r k ∧ a.file_offset = part.offset ∧ a.aread_len = part.length ∧
      a.recved_data.length ≤ part.length ∧ fs.dir (L.filepath part.idx) = some a.ino
  | .write data2write written_len none => data2write.length = r.len ∧ written_len = 0
  | .write data2write written_len (some a) =>
    data2write.length = r.len ∧ written_len = L.before r k ∧ a.file_offset = part.offset ∧
      a.data2write = (data2write.drop written_len).take part.length ∧
      a.writtenlen ≤ part.length ∧ fs.dir (L.filepath part.idx) = some a.ino

/-- An io in progress, on the files as they are. -/
structure Ok (L : FileLayout π) (fs : FileSys π UInt8) (o : BtIo) : Prop where
  accepts : L.accepts o.totfile_range = true
  part_arr : o.part_arr = L.part_arr o.totfile_range
  job : ∃ part, o.part_arr[o.part_idx]? = some part ∧
    JobOk L fs o.totfile_range o.part_idx part o.job

variable {o : BtIo} {fs fs' : FileSys π UInt8}

theorem JobOk.mono {k : ℕ} {part : FilePart} {job : BtIoJob}
    (hdir : ∀ ino, fs.dir (L.filepath part.idx) = some ino →
      fs'.dir (L.filepath part.idx) = some ino)
    (h : JobOk L fs r k part job) : JobOk L fs' r k part job := by
  rcases job with ⟨data_queue, - | a⟩ | ⟨data2write, written_len, - | a⟩
  · exact h
  · obtain ⟨hq, hoff, hlen, hle, hino⟩ := h
    exact ⟨hq, hoff, hlen, hle, hdir _ hino⟩
  · exact h
  · obtain ⟨hd, hw, hoff, hdata, hle, hino⟩ := h
    exact ⟨hd, hw, hoff, hdata, hle, hdir _ hino⟩

theorem Ok.mono (hdir : ∀ p ino, fs.dir p = some ino → fs'.dir p = some ino) (h : Ok L fs o) :
    Ok L fs' o := by
  obtain ⟨part, hpart, hjob⟩ := h.job
  exact ⟨h.accepts, h.part_arr, part, hpart, hjob.mono fun ino => hdir _ ino⟩

theorem length_got (h : o.isWrite = false) : o.got.length = o.pos := by
  rcases o with ⟨r, part_arr, k, ⟨data_queue, - | a⟩ | ⟨data2write, written_len, a⟩⟩
  · simp [got, pos]
  · simp [got, pos]
  · cases h

theorem pending_read (store : ℕ → UInt8) (h : o.isWrite = false) : o.pending L store = store := by
  rcases o with ⟨r, part_arr, k, ⟨data_queue, a⟩ | ⟨data2write, written_len, a⟩⟩
  · rfl
  · cases h

/-- A byte of it is about the byte of the store alone. -/
theorem pending_congr {store store' : ℕ → UInt8} (h : store x = store' x) :
    o.pending L store x = o.pending L store' x := by
  rcases o with ⟨r, part_arr, k, ⟨data_queue, a⟩ | ⟨data2write, written_len, a⟩⟩
  · exact h
  · show L.put _ _ _ _ x = L.put _ _ _ _ x
    rw [FileLayout.put, FileLayout.put, h]

/-- The data of a write are those of its range. -/
theorem Ok.length_data2write {data2write : List UInt8} {written_len : ℕ} {a : Option AioWrite}
    (h : Ok L fs o) (hjob : o.job = .write data2write written_len a) :
    data2write.length = o.totfile_range.len := by
  obtain ⟨part, -, hj⟩ := h.job
  rw [hjob] at hj
  cases a with
  | none => exact hj.1
  | some a => exact hj.1

/-- The bytes which are done are bytes of the range. -/
theorem Ok.pos_le (h : Ok L fs o) : o.pos ≤ o.totfile_range.len := by
  obtain ⟨part, hpart, hjob⟩ := h.job
  rw [h.part_arr] at hpart
  have hend := FileLayout.end_le h.accepts hpart
  rcases o with ⟨r, part_arr, k, ⟨data_queue, - | a⟩ | ⟨data2write, written_len, - | a⟩⟩
  · obtain rfl : data_queue = [] := hjob
    simp [pos]
  · obtain ⟨hq, -, -, hle, -⟩ := hjob
    dsimp only at hq hend
    show data_queue.length + a.recved_data.length ≤ r.len
    omega
  · obtain ⟨-, rfl⟩ := hjob
    exact Nat.zero_le _
  · obtain ⟨-, hw, -, -, hle, -⟩ := hjob
    dsimp only at hw hend
    show written_len + a.writtenlen ≤ r.len
    omega

/-- Outside its range an operation leaves the store. -/
theorem Ok.pending_of_not (h : Ok L fs o) (store : ℕ → UInt8) (hx : ¬ L.Has o.totfile_range x) :
    o.pending L store x = store x := by
  have hle := h.pos_le
  rcases o with ⟨r, part_arr, k, ⟨data_queue, a⟩ | ⟨data2write, written_len, a⟩⟩
  · rfl
  · exact FileLayout.put_of_not fun hlt => hx (Nat.lt_of_lt_of_le hlt hle)

end BtIo

/-! ### The invariant -/

namespace FileIo

/-- No two operations which are not over overlap, unless both are reads; each is where its
progress says, and the files hold the store with what the writes have done. -/
structure Inv (L : FileLayout π) (store : ℕ → UInt8) (s : FileIo π) : Prop where
  lt : ∀ id o, s.db id = some o → id < s.next
  ok : ∀ id o, s.db id = some o → o.Ok L s.fs
  distinct : ∀ id id' o o', s.db id = some o → s.db id' = some o' → id ≠ id' →
    o.isWrite = true → L.Distinct o.totfile_range o'.totfile_range
  bytes : ∀ x < L.totfile_size,
    (∀ id o, s.db id = some o → o.isWrite = true → ¬ L.Has o.totfile_range x) →
      L.byte s.fs x = L.content store s.log x
  op_bytes : ∀ id o, s.db id = some o → ∀ x < L.totfile_size, L.Has o.totfile_range x →
    L.byte s.fs x = o.pending L (L.content store s.log) x
  got : ∀ id o, s.db id = some o → o.isWrite = false → o.got =
    (List.range o.pos).map fun i =>
      L.content store s.log ((o.totfile_range.beg + i) % L.totfile_size)
  atomic : L.Atomic store s.log

variable {store : ℕ → UInt8} {s s' : FileIo π} {id : ℕ} {o o' : BtIo} {fs : FileSys π UInt8}

theorem db_update_self : (s.update id o).db id = some o := Function.update_self _ _ _

theorem init_inv (fs : FileSys π UInt8) : Inv L (L.byte fs) (init fs) where
  lt := by intro id o h; cases h
  ok := by intro id o h; cases h
  distinct := by intro id id' o o' h; cases h
  bytes := by intro x hx h; rfl
  op_bytes := by intro id o h; cases h
  got := by intro id o h; cases h
  atomic := trivial

/-- What a step may do to the files when it is about the operation `o`. -/
structure Frame (L : FileLayout π) (o : BtIo) (fs fs' : FileSys π UInt8) : Prop where
  dir : ∀ p ino, fs.dir p = some ino → fs'.dir p = some ino
  byte : ∀ x < L.totfile_size, ¬ L.Has o.totfile_range x → L.byte fs' x = L.byte fs x

/-- Of two operations which share a byte, neither writes. -/
theorem Inv.reads {id' : ℕ} (h : s.Inv L store) (ho : s.db id = some o) (ho' : s.db id' = some o')
    (hid : id ≠ id') (hx : x < L.totfile_size) (hin : L.Has o.totfile_range x)
    (hin' : L.Has o'.totfile_range x) : o.isWrite = false := by
  rw [← Bool.not_eq_true]
  exact fun hwrite => h.distinct _ _ _ _ ho ho' hid hwrite x hx hin hin'

/-- A byte which neither an operation nor a write among the others has. -/
theorem Inv.bytes_of (h : s.Inv L store) (ho : s.db id = some o) (hx : x < L.totfile_size)
    (hin : ¬ L.Has o.totfile_range x) (hnone : ∀ id' ≠ id, ∀ o', s.db id' = some o' →
      o'.isWrite = true → ¬ L.Has o'.totfile_range x) :
    L.byte s.fs x = L.content store s.log x := by
  refine h.bytes x hx fun id' o' ho' hwrite => ?_
  rcases eq_or_ne id' id with rfl | hid
  · rw [ho] at ho'
    rwa [← Option.some.inj ho']
  · exact hnone id' hid o' ho' hwrite

/-- What a read has so far is also in a store which has the same in its range. -/
theorem Inv.got_of (h : s.Inv L store) (ho : s.db id = some o) (hread : o.isWrite = false)
    {store' : ℕ → UInt8} (hsame : ∀ x < L.totfile_size, L.Has o.totfile_range x →
      store' x = L.content store s.log x) :
    o.got = (List.range o.pos).map fun i =>
      store' ((o.totfile_range.beg + i) % L.totfile_size) := by
  have hok := h.ok _ _ ho
  rw [h.got _ _ ho hread]
  refine List.map_congr_left fun i hi => (hsame _ (Nat.mod_lt _ L.size_pos) ?_).symm
  exact FileLayout.has_add hok.accepts (Nat.lt_of_lt_of_le (List.mem_range.1 hi) hok.pos_le)

/-- An operation which goes on. -/
theorem Inv.update (h : s.Inv L store) (ho : s.db id = some o) (o' : BtIo) (hf : Frame L o s.fs fs)
    (hrange : o'.totfile_range = o.totfile_range) (hw : o'.isWrite = o.isWrite)
    (hok : o'.Ok L fs)
    (hbytes : ∀ x < L.totfile_size, L.Has o.totfile_range x →
      L.byte fs x = o'.pending L (L.content store s.log) x)
    (hgot : o'.isWrite = false → o'.got = (List.range o'.pos).map fun i =>
      L.content store s.log ((o'.totfile_range.beg + i) % L.totfile_size)) :
    ({ s with fs := fs }.update id o').Inv L store := by
  -- an operation of the new state is `o'`, or another one of the state before
  constructor
  · intro id' o'' h''
    rcases update_eq_some h'' with ⟨rfl, -⟩ | ⟨-, h''⟩
    · exact h.lt _ _ ho
    · exact h.lt _ _ h''
  · intro id' o'' h''
    rcases update_eq_some h'' with ⟨-, ⟨⟩⟩ | ⟨-, h''⟩
    · exact hok
    · exact (h.ok _ _ h'').mono hf.dir
  · intro i j a b ha hb hij hwrite
    rcases update_eq_some ha with ⟨hi, ⟨⟩⟩ | ⟨-, ha'⟩ <;>
      rcases update_eq_some hb with ⟨hj, ⟨⟩⟩ | ⟨-, hb'⟩
    · exact absurd (hi.trans hj.symm) hij
    · rw [hrange]
      exact h.distinct _ _ _ _ ho hb' (hi ▸ hij) (hw ▸ hwrite)
    · rw [hrange]
      exact h.distinct _ _ _ _ ha' ho (hj ▸ hij) hwrite
    · exact h.distinct _ _ _ _ ha' hb' hij hwrite
  · intro x hx hnone
    show L.byte fs x = _
    by_cases hin : L.Has o.totfile_range x
    · rw [hbytes x hx hin]
      -- then it is a read which has the byte
      cases hwrite : o'.isWrite with
      | true => exact absurd (hrange ▸ hin) (hnone id o' (Function.update_self _ _ _) hwrite)
      | false => rw [o'.pending_read _ hwrite]; rfl
    · rw [hf.byte x hx hin]
      exact h.bytes_of ho hx hin fun id' hid o'' h'' =>
        hnone id' o'' ((Function.update_of_ne hid _ _).trans h'')
  · intro id' o'' h'' x hx hin
    rcases update_eq_some h'' with ⟨rfl, ⟨⟩⟩ | ⟨hid, h''⟩
    · exact hbytes x hx (hrange ▸ hin)
    · show L.byte fs x = _
      by_cases hboth : L.Has o.totfile_range x
      · -- both are reads, so the byte is the one of the store
        have hread := h.reads ho h'' hid.symm hx hboth hin
        rw [hbytes x hx hboth, o'.pending_read _ (hw.trans hread),
          o''.pending_read _ (h.reads h'' ho hid hx hin hboth)]
        rfl
      · rw [hf.byte x hx hboth]
        exact h.op_bytes _ _ h'' x hx hin
  · intro id' o'' h'' hread
    rcases update_eq_some h'' with ⟨-, ⟨⟩⟩ | ⟨-, h''⟩
    · exact hgot hread
    · exact h.got _ _ h'' hread
  · exact h.atomic

/-- An operation which is over, with the entry of the log that says so. -/
theorem Inv.notify (h : s.Inv L store) (ho : s.db id = some o) {entry : IoEntry}
    (hcontent : L.content store (entry :: s.log) = o.pending L (L.content store s.log))
    (hatomic : L.Atomic store (entry :: s.log)) : (s.notify id entry).Inv L store := by
  have hdb : ∀ id' o'', (s.notify id entry).db id' = some o'' → id' ≠ id ∧ s.db id' = some o'' := by
    intro id' o'' h''
    obtain ⟨-, ⟨⟩⟩ | h'' := update_eq_some h''
    exact h''
  have hpending := fun x => (h.ok _ _ ho).pending_of_not (x := x) (L.content store s.log)
  -- nor does it change the bytes of another one
  have hother : ∀ id' o'', id' ≠ id → s.db id' = some o'' → ∀ x < L.totfile_size,
      L.Has o''.totfile_range x →
        L.content store (entry :: s.log) x = L.content store s.log x := by
    intro id' o'' hid h'' x hx hin
    rw [hcontent]
    by_cases hin' : L.Has o.totfile_range x
    · rw [o.pending_read _ (h.reads ho h'' hid.symm hx hin' hin)]
    · exact hpending x hin'
  constructor
  · exact fun id' o'' h'' => h.lt _ _ (hdb id' o'' h'').2
  · exact fun id' o'' h'' => h.ok _ _ (hdb id' o'' h'').2
  · intro i j a b ha hb
    exact h.distinct _ _ _ _ (hdb i a ha).2 (hdb j b hb).2
  · intro x hx hnone
    show _ = L.content store (entry :: s.log) x
    rw [hcontent]
    by_cases hin : L.Has o.totfile_range x
    · exact h.op_bytes _ _ ho x hx hin
    · rw [hpending x hin]
      exact h.bytes_of ho hx hin fun id' hid o'' h'' =>
        hnone id' o'' ((Function.update_of_ne hid _ _).trans h'')
  · intro id' o'' h'' x hx hin
    obtain ⟨hid, h''⟩ := hdb id' o'' h''
    exact (h.op_bytes _ _ h'' x hx hin).trans
      (BtIo.pending_congr (hother id' o'' hid h'' x hx hin).symm)
  · intro id' o'' h'' hread
    obtain ⟨hid, h''⟩ := hdb id' o'' h''
    exact h.got_of h'' hread (hother id' o'' hid h'')
  · exact hatomic

/-! ### The files -/

variable [DecidableEq π] {profile : FileAioProfile} {part : FilePart} {os_open : Bool}
  {file_exist : ℕ → Bool} {data2write data_queue : List UInt8} {written_len : ℕ}

omit [DecidableEq π] in
theorem notify_update {entry : IoEntry} : (s.update id o).notify id entry = s.notify id entry := by
  rw [update, notify, notify, Function.update_idem]

omit [DecidableEq π] in
theorem update_update : (s.update id o).update id o' = s.update id o' := by
  rw [update, update, update, Function.update_idem]

omit [DecidableEq π] in
/-- Files which were opened, or created without a byte, change nothing. -/
theorem Inv.files (h : s.Inv L store) (hdir : ∀ p ino, s.fs.dir p = some ino → fs.dir p = some ino)
    (hbyte : ∀ x, L.byte fs x = L.byte s.fs x) :
    ({ s with fs := fs, file_exist := file_exist } : FileIo π).Inv L store where
  lt := h.lt
  ok id o ho := (h.ok id o ho).mono hdir
  distinct := h.distinct
  bytes x hx hnone := (hbyte x).trans (h.bytes x hx hnone)
  op_bytes id o ho x hx hin := (hbyte x).trans (h.op_bytes id o ho x hx hin)
  got := h.got
  atomic := h.atomic

/-- What is launched, and what the files are then. -/
theorem launchWrite_spec {a : Option AioWrite}
    (h : s.launchWrite L data2write written_len part os_open = (s', a)) :
    ∃ fs file_exist, s' = { s with fs := fs, file_exist := file_exist } ∧
      (∀ p ino, s.fs.dir p = some ino → fs.dir p = some ino) ∧
      (∀ x, L.byte fs x = L.byte s.fs x) ∧
      ∀ a', a = some a' → a'.file_offset = part.offset ∧
        a'.data2write = (data2write.drop written_len).take part.length ∧ a'.writtenlen = 0 ∧
          fs.dir (L.filepath part.idx) = some a'.ino := by
  rw [launchWrite] at h
  split_ifs at h
  · obtain ⟨rfl, rfl⟩ := Prod.mk.inj h
    refine ⟨(s.fs.openCreate (L.filepath part.idx)).1, _, rfl,
      fun p ino h => FileSys.dir_openCreate_of_some h, fun x => FileSys.byte_openCreate _, ?_⟩
    rintro a' ⟨⟩
    exact ⟨rfl, rfl, rfl, FileSys.dir_openCreate_self⟩
  · obtain ⟨rfl, rfl⟩ := Prod.mk.inj h
    exact ⟨s.fs, _, rfl, fun _ _ h => h, fun _ => rfl, by rintro a' ⟨⟩⟩
  · obtain ⟨rfl, rfl⟩ := Prod.mk.inj h
    refine ⟨s.fs, s.file_exist, rfl, fun _ _ h => h, fun _ => rfl, fun a' ha => ?_⟩
    obtain ⟨ino, hino, rfl⟩ := Option.map_eq_some_iff.1 ha
    exact ⟨rfl, rfl, rfl, hino⟩
  · obtain ⟨rfl, rfl⟩ := Prod.mk.inj h
    exact ⟨s.fs, s.file_exist, rfl, fun _ _ h => h, fun _ => rfl, by rintro a' ⟨⟩⟩

omit [DecidableEq π] in
theorem launchRead_spec {a : AioRead} (h : s.launchRead L part os_open = some a) :
    a.file_offset = part.offset ∧ a.aread_len = part.length ∧ a.recved_data = [] ∧
      s.fs.dir (L.filepath part.idx) = some a.ino := by
  rw [launchRead] at h
  split_ifs at h
  obtain ⟨ino, hino, rfl⟩ := Option.map_eq_some_iff.1 h
  exact ⟨rfl, rfl, rfl, hino⟩

/-! ### A write goes on -/

/-- The bytes of the timer are written. -/
theorem Inv.wrote {a : AioWrite} (h : s.Inv L store) (ho : s.db id = some o)
    (hjob : o.job = .write data2write written_len (some a)) (profile : FileAioProfile)
    (os : Option ℕ) :
    ({ s with
      fs := s.fs.pwrite a.ino (a.file_offset + a.writtenlen) (a.taken profile os) }.update id
      { o with
        job := .write data2write written_len
          (some { a with writtenlen := a.writtenlen + (a.taken profile os).length }) }).Inv
      L store := by
  have hok := h.ok _ _ ho
  obtain ⟨part, hpart, hj⟩ := hok.job
  have hk := hpart
  rw [hok.part_arr] at hk
  rw [hjob] at hj
  obtain ⟨hd, hw, hoff, hdata, hle, hino⟩ := hj
  set buf := a.taken profile os with hbuf
  -- the bytes are those of the part which come next
  have htaken : buf = (((data2write.drop written_len).take part.length).drop a.writtenlen).take
      buf.length := by
    rw [hbuf, AioWrite.taken, hdata, List.length_take, List.take_eq_take_iff]
    omega
  have hlen : a.writtenlen + buf.length ≤ part.length := by
    have hlength := congrArg List.length htaken
    rw [List.length_take, List.length_drop, List.length_take] at hlength
    omega
  have hpos : o.pos = L.before o.totfile_range o.part_idx + a.writtenlen := by
    rw [BtIo.pos, hjob, ← hw]
    rfl
  have hget : ∀ j, j < buf.length →
      buf.getD j 0 = data2write.getD (o.pos + j) 0 := by
    intro j hlt
    rw [htaken, List.getD_eq_getElem?_getD, List.getD_eq_getElem?_getD, List.getElem?_take,
      if_pos hlt, List.getElem?_drop, List.getElem?_take, if_pos (by omega), List.getElem?_drop,
      hpos, hw]
    congr 2
    omega
  have hbyte : ∀ x < L.totfile_size,
      L.byte (s.fs.pwrite a.ino (a.file_offset + a.writtenlen) buf) x =
        if o.pos ≤ L.index o.totfile_range x ∧ L.index o.totfile_range x < o.pos + buf.length then
          buf.getD (L.index o.totfile_range x - o.pos) 0
        else L.byte s.fs x := by
    intro x hx
    rw [hoff, FileLayout.byte_pwrite hok.accepts hk hino hlen hx, hpos]
  have hend : o.pos + buf.length ≤ o.totfile_range.len := by
    have hend := FileLayout.end_le hok.accepts hk
    omega
  apply h.update ho _
  · constructor
    · intro p ino hp
      exact hp
    · intro x hx hin
      rw [hbyte x hx, if_neg]
      rintro ⟨-, hlt⟩
      exact hin (Nat.lt_of_lt_of_le hlt hend)
  · rfl
  · rw [BtIo.isWrite, BtIo.isWrite, hjob]
  · exact ⟨hok.accepts, hok.part_arr, part, hpart, hd, hw, hoff, hdata, hlen, hino⟩
  · intro x hx hin
    have hold := h.op_bytes _ _ ho x hx hin
    rw [BtIo.pending, hjob] at hold
    rw [hbyte x hx]
    show _ = L.put o.totfile_range data2write (written_len + (a.writtenlen + buf.length)) _ x
    have hsum : written_len + (a.writtenlen + buf.length) = o.pos + buf.length := by
      rw [hpos, ← hw, Nat.add_assoc]
    rw [hsum]
    split_ifs with hnew
    · rw [hget _ (by omega), FileLayout.put, if_pos hnew.2, Nat.add_sub_cancel' hnew.1]
    · rw [hold]
      show L.put _ _ o.pos _ x = _
      rw [FileLayout.put, FileLayout.put]
      by_cases hlt : L.index o.totfile_range x < o.pos
      · rw [if_pos hlt, if_pos (Nat.lt_add_right _ hlt)]
      · rw [if_neg hlt, if_neg fun hlt' => hnew ⟨Nat.not_lt.1 hlt, hlt'⟩]
  · rintro ⟨⟩

omit [DecidableEq π] in
/-- A write which is over, or dropped. -/
theorem Inv.written {a : Option AioWrite} {len : ℕ} (h : s.Inv L store) (ho : s.db id = some o)
    (hjob : o.job = .write data2write written_len a) (bt_err : BtErr) (hlen : len = o.pos)
    (hall : bt_err = .OK → o.pos = o.totfile_range.len) :
    (s.notify id (.written id o.totfile_range data2write len bt_err)).Inv L store := by
  have hd := (h.ok _ _ ho).length_data2write hjob
  apply h.notify ho
  · rw [BtIo.pending, hjob, hlen]
    rfl
  · cases bt_err with
    | OK => exact ⟨hd, hlen.trans (hall rfl), h.atomic⟩
    | ERROR => exact ⟨hd, hlen ▸ (h.ok _ _ ho).pos_le, h.atomic⟩

/-- A part was written: the next one is launched, or the write is over. -/
theorem Inv.awriteCb {a : AioWrite} (ho' : o' = { o with
      job := .write data2write written_len (some { a with writtenlen := part.length }) })
    (h : (s.update id o').Inv L store) (hpart : o.part_arr[o.part_idx]? = some part)
    (os_open : Bool) : (s.awriteCb L id o data2write written_len os_open).Inv L store := by
  have hdb : (s.update id o').db id = some o' := db_update_self
  have hok := h.ok _ _ hdb
  have hr : L.accepts o.totfile_range = true := by
    have := hok.accepts
    rwa [ho'] at this
  have harr : o.part_arr = L.part_arr o.totfile_range := by
    have := hok.part_arr
    rwa [ho'] at this
  have hw : data2write.length = o.totfile_range.len ∧
      written_len = L.before o.totfile_range o.part_idx := by
    obtain ⟨part', -, hj⟩ := hok.job
    rw [ho'] at hj
    exact ⟨hj.1, hj.2.1⟩
  have hpos : o'.pos = written_len + part.length := by rw [ho']; rfl
  have hnext : written_len + part.length = L.before o.totfile_range (o.part_idx + 1) := by
    rw [hw.2, FileLayout.before_succ (harr ▸ hpart)]
  have hjob : o'.job = .write data2write written_len
      (some { a with writtenlen := part.length }) := by rw [ho']
  have hrange : o'.totfile_range = o.totfile_range := by rw [ho']
  rw [FileIo.awriteCb, hpart]
  dsimp only [Option.map_some, Option.getD_some]
  cases hnextpart : o.part_arr[o.part_idx + 1]? with
  | none =>
    have hall := FileLayout.before_of_le hr (harr ▸ hnextpart)
    have := h.written hdb hjob .OK hpos.symm fun _ => by
      rw [hpos, hnext, hall, hrange]
    rwa [notify_update, hrange] at this
  | some next =>
    dsimp only
    rcases hlaunch : s.launchWrite L data2write (written_len + part.length) next os_open with
      ⟨s', a'⟩
    obtain ⟨fs, file_exist, rfl, hdir, hbyte, ha⟩ := launchWrite_spec hlaunch
    have hfiles : ({ s with fs := fs, file_exist := file_exist }.update id o').Inv L store :=
      h.files hdir hbyte
    rcases a' with - | a'
    -- the file of the next part could not be opened: the write ends with an error
    · have := hfiles.written db_update_self hjob .ERROR hpos.symm (by rintro ⟨⟩)
      rwa [notify_update, hrange] at this
    · obtain ⟨hoff, hdata, hzero, hino⟩ := ha a' rfl
      dsimp only
      rw [← update_update (o := o')]
      apply hfiles.update db_update_self
        { o with
          part_idx := o.part_idx + 1
          job := .write data2write (written_len + part.length) (some a') }
        ⟨fun _ _ h => h, fun _ _ _ => rfl⟩ hrange.symm
      · rw [BtIo.isWrite, BtIo.isWrite, hjob]
      · exact ⟨hr, harr, next, hnextpart, hw.1, hnext, hoff, hdata,
          hzero ▸ Nat.zero_le _, hino⟩
      · intro x hx hin
        rw [hfiles.op_bytes _ _ db_update_self x hx hin, BtIo.pending, hjob]
        show L.put _ _ _ _ x = L.put _ _ _ _ x
        rw [hpos, hrange]
        show _ = L.put _ _ (written_len + part.length + a'.writtenlen) _ x
        rw [hzero]
        rfl
      · rintro ⟨⟩

/-! ### A read goes on -/

omit [DecidableEq π] in
/-- The bytes of the timer are read: they are the ones of the store, as no write overlaps. -/
theorem Inv.recved {a : AioRead} (h : s.Inv L store) (ho : s.db id = some o)
    (hjob : o.job = .read data_queue (some a)) (len : ℕ)
    (hlen : a.recved_data.length + len ≤ a.aread_len) :
    (s.update id
      { o with
        job := .read data_queue (some { a with
          recved_data := a.recved_data ++
            s.fs.pread a.ino (a.file_offset + a.recved_data.length) len }) }).Inv L store := by
  have hok := h.ok _ _ ho
  obtain ⟨part, hpart, hj⟩ := hok.job
  have hk := hpart
  rw [hok.part_arr] at hk
  rw [hjob] at hj
  obtain ⟨hq, hoff, haread, hle, hino⟩ := hj
  have hread : o.isWrite = false := by rw [BtIo.isWrite, hjob]
  have hpos : o.pos = L.before o.totfile_range o.part_idx + a.recved_data.length := by
    rw [BtIo.pos, hjob, ← hq]
    rfl
  have hgot : o.got = data_queue ++ a.recved_data := by
    rw [BtIo.got, hjob]
    rfl
  set buf := s.fs.pread a.ino (a.file_offset + a.recved_data.length) len with hbuf
  have hbuflen : buf.length ≤ len := FileSys.length_pread_le
  -- the bytes which are read
  have hbytes : buf = (List.range buf.length).map fun i =>
      L.content store s.log ((o.totfile_range.beg + (o.pos + i)) % L.totfile_size) := by
    refine List.ext_getElem? fun i => ?_
    rcases Nat.lt_or_ge i buf.length with hi | hi
    · obtain ⟨hlt, hplace⟩ := FileLayout.place_part hok.accepts hk
        (show a.recved_data.length + i < part.length by omega)
      have hsum : L.before o.totfile_range o.part_idx + (a.recved_data.length + i) = o.pos + i := by
        omega
      rw [hsum] at hlt hplace
      rw [hbuf, FileSys.getElem?_pread hino hi, List.getElem?_map, List.getElem?_range hi,
        Option.map_some, hoff]
      have hbyte := h.op_bytes _ _ ho _ (Nat.mod_lt _ L.size_pos)
        (FileLayout.has_add hok.accepts hlt)
      rw [o.pending_read _ hread, FileLayout.byte, hplace] at hbyte
      rw [← hbyte, Nat.add_assoc]
    · rw [List.getElem?_eq_none hi, List.getElem?_eq_none
        (by rw [List.length_map, List.length_range]; exact hi)]
  apply h.update ho
    { o with job := .read data_queue (some { a with recved_data := a.recved_data ++ buf }) }
    ⟨fun _ _ h => h, fun _ _ _ => rfl⟩ rfl
  · rw [hread]
    rfl
  · refine ⟨hok.accepts, hok.part_arr, part, hpart, hq, hoff, haread, ?_, hino⟩
    rw [List.length_append]
    omega
  · intro x hx hin
    rw [h.op_bytes _ _ ho x hx hin, o.pending_read _ hread]
    rfl
  · intro _
    show data_queue ++ (a.recved_data ++ buf) = List.map _ (List.range
      (data_queue.length + (a.recved_data ++ buf).length))
    have hold := h.got _ _ ho hread
    rw [hgot] at hold
    rw [← List.append_assoc, hold, List.length_append, ← Nat.add_assoc, hq, ← hpos,
      List.range_add, List.map_append, List.map_map]
    congr 1

omit [DecidableEq π] in
/-- A read which fails says nothing of the store. -/
theorem Inv.readError {a : Option AioRead} (h : s.Inv L store) (ho : s.db id = some o)
    (hjob : o.job = .read data_queue a) :
    (s.notify id (.read id o.totfile_range .ERROR [])).Inv L store := by
  apply h.notify ho
  · rw [BtIo.pending, hjob]
    rfl
  · exact h.atomic

omit [DecidableEq π] in
/-- A part was read: the next one is launched, or the read is over. -/
theorem Inv.areadCb {a : AioRead} (ho' : o' = { o with job := .read data_queue (some a) })
    (h : (s.update id o').Inv L store) (hpart : o.part_arr[o.part_idx]? = some part)
    (hdone : a.recved_data.length = part.length) (os_open : Bool) :
    (s.areadCb L id o data_queue a.recved_data os_open).Inv L store := by
  have hdb : (s.update id o').db id = some o' := db_update_self
  have hok := h.ok _ _ hdb
  have hread : o'.isWrite = false := by rw [ho']; rfl
  have hgot := h.got _ _ hdb hread
  obtain ⟨hr, harr, hq⟩ : L.accepts o.totfile_range = true ∧
      o.part_arr = L.part_arr o.totfile_range ∧
        data_queue.length = L.before o.totfile_range o.part_idx := by
    rw [ho'] at hok
    obtain ⟨part', -, hj⟩ := hok.job
    exact ⟨hok.accepts, hok.part_arr, hj.1⟩
  have hjob : o'.job = .read data_queue (some a) := by rw [ho']
  have hrange : o'.totfile_range = o.totfile_range := by rw [ho']
  have hnext :
      (data_queue ++ a.recved_data).length = L.before o.totfile_range (o.part_idx + 1) := by
    rw [List.length_append, hq, hdone, FileLayout.before_succ (harr ▸ hpart)]
  have hpos : o'.pos = (data_queue ++ a.recved_data).length := by
    rw [ho', List.length_append]
    rfl
  have hgot' : o'.got = data_queue ++ a.recved_data := by rw [ho']; rfl
  rw [hgot', hpos, hrange] at hgot
  rw [FileIo.areadCb]
  cases hnextpart : o.part_arr[o.part_idx + 1]? with
  | none =>
    -- the bytes of the last part are those of the range
    rw [hnext, FileLayout.before_of_le hr (harr ▸ hnextpart)] at hgot
    rw [← notify_update (o := o')]
    apply h.notify hdb
    · rw [BtIo.pending, hjob]
      rfl
    · exact ⟨hgot, h.atomic⟩
  | some next =>
    dsimp only
    cases hlaunch : s.launchRead L next os_open with
    | none =>
      have := h.readError hdb hjob
      rwa [notify_update, hrange] at this
    | some a' =>
      -- the next part begins where the data queue ends
      obtain ⟨hoff, haread, hnil, hino⟩ := launchRead_spec hlaunch
      have hpos' : (data_queue ++ a.recved_data).length + a'.recved_data.length =
          (data_queue ++ a.recved_data).length := by
        rw [hnil]
        rfl
      dsimp only
      rw [← update_update (o := o')]
      apply h.update hdb
        { o with
          part_idx := o.part_idx + 1
          job := .read (data_queue ++ a.recved_data) (some a') }
        ⟨fun _ _ h => h, fun _ _ _ => rfl⟩ hrange.symm
      · rw [hread]
        rfl
      · refine ⟨hr, harr, next, hnextpart, hnext, hoff, haread, ?_, hino⟩
        rw [hnil]
        exact Nat.zero_le _
      · intro x hx hin
        rw [h.op_bytes _ _ hdb x hx hin, o'.pending_read _ hread]
        rfl
      · intro _
        show data_queue ++ a.recved_data ++ a'.recved_data = List.map _ (List.range
          ((data_queue ++ a.recved_data).length + a'.recved_data.length))
        rw [hpos', hnil, List.append_nil]
        exact hgot

/-! ### Constructors -/

omit [DecidableEq π] in
/-- An operation which begins. -/
theorem Inv.ctor (h : s.Inv L store) (hok : o.Ok L s.fs) (hzero : o.pos = 0)
    (hguard : ∀ id o', s.db id = some o' → o.isWrite = true ∨ o'.isWrite = true →
      L.Distinct o.totfile_range o'.totfile_range) :
    ({ s.update s.next o with next := s.next + 1 } : FileIo π).Inv L store := by
  have hkeep : ∀ id' o', s.db id' = some o' → (s.update s.next o).db id' = some o' := by
    intro id' o' h'
    exact (Function.update_of_ne (Nat.ne_of_lt (h.lt _ _ h')) _ _).trans h'
  constructor
  · intro id' o' h'
    rcases update_eq_some h' with ⟨rfl, -⟩ | ⟨-, h'⟩
    · exact Nat.lt_succ_self _
    · exact Nat.lt_succ_of_lt (h.lt _ _ h')
  · intro id' o' h'
    rcases update_eq_some h' with ⟨-, ⟨⟩⟩ | ⟨-, h'⟩
    · exact hok
    · exact h.ok _ _ h'
  · intro i j a b ha hb hij hwrite
    rcases update_eq_some ha with ⟨hi, ⟨⟩⟩ | ⟨-, ha'⟩ <;>
      rcases update_eq_some hb with ⟨hj, ⟨⟩⟩ | ⟨-, hb'⟩
    · exact absurd (hi.trans hj.symm) hij
    · exact hguard _ _ hb' (.inl hwrite)
    · intro x hx hin hin'
      exact hguard _ _ ha' (.inr hwrite) x hx hin' hin
    · exact h.distinct _ _ _ _ ha' hb' hij hwrite
  · intro x hx hnone
    exact h.bytes x hx fun id' o' h' => hnone id' o' (hkeep _ _ h')
  · intro id' o' h' x hx hin
    rcases update_eq_some h' with ⟨-, ⟨⟩⟩ | ⟨-, h'⟩
    · -- no write has the byte, or it is read only
      have hstore : o.pending L (L.content store s.log) x = L.content store s.log x := by
        rcases o with ⟨r, part_arr, k, ⟨data_queue, a⟩ | ⟨data2write, written_len, a⟩⟩
        · rfl
        · show L.put _ _ _ _ x = _
          rw [hzero, FileLayout.put_zero]
      show L.byte s.fs x = _
      refine (h.bytes x hx fun id'' o'' h'' hwrite hin' => ?_).trans hstore.symm
      exact hguard _ _ h'' (.inr hwrite) x hx hin hin'
    · exact h.op_bytes _ _ h' x hx hin
  · intro id' o' h' hread
    rcases update_eq_some h' with ⟨-, ⟨⟩⟩ | ⟨-, h'⟩
    · have hlen := o.length_got hread
      rw [hzero] at hlen ⊢
      exact List.eq_nil_of_length_eq_zero hlen
    · exact h.got _ _ h' hread
  · exact h.atomic

omit [DecidableEq π] in
theorem Inv.readCtor (h : s.Inv L store) (r : FileRange) (os_open : Bool)
    (hguard : s.NoOverlap L (.read_ctor r os_open)) : (s.readCtor L r os_open).Inv L store := by
  rw [FileIo.readCtor]
  split
  · next part rest hr harr =>
      apply h.ctor
      · refine ⟨hr, harr.symm, part, rfl, ?_⟩
        cases hlaunch : s.launchRead L part os_open with
        | none => rfl
        | some a =>
          obtain ⟨hoff, hlen, hnil, hino⟩ := launchRead_spec hlaunch
          refine ⟨rfl, hoff, hlen, ?_, hino⟩
          rw [hnil]
          exact Nat.zero_le _
      · cases hlaunch : s.launchRead L part os_open with
        | none => rfl
        | some a =>
          obtain ⟨-, -, hnil, -⟩ := launchRead_spec hlaunch
          show 0 + a.recved_data.length = 0
          rw [hnil]
          rfl
      · rintro id o' ho' (⟨⟨⟩⟩ | hwrite)
        exact hguard id (h.lt _ _ ho') o' ho' hwrite
  · exact h

theorem Inv.writeCtor (h : s.Inv L store) (r : FileRange) (data2write : List UInt8)
    (os_open : Bool) (hguard : s.NoOverlap L (.write_ctor r data2write os_open)) :
    (s.writeCtor L r data2write os_open).Inv L store := by
  rw [FileIo.writeCtor]
  split
  · next part rest hr harr =>
      obtain ⟨hr, hlen⟩ := Bool.and_eq_true_iff.1 hr
      rcases hlaunch : s.launchWrite L data2write 0 part os_open with ⟨s', a⟩
      obtain ⟨fs, file_exist, rfl, hdir, hbyte, ha⟩ := launchWrite_spec hlaunch
      apply (h.files hdir hbyte).ctor
      · refine ⟨hr, harr.symm, part, rfl, ?_⟩
        have hd : data2write.length = r.len := (beq_iff_eq.1 hlen).symm
        cases a with
        | none => exact ⟨hd, rfl⟩
        | some a =>
          obtain ⟨hoff, hdata, hzero, hino⟩ := ha a rfl
          exact ⟨hd, rfl, hoff, hdata, hzero ▸ Nat.zero_le _, hino⟩
      · cases a with
        | none => rfl
        | some a =>
          obtain ⟨-, -, hzero, -⟩ := ha a rfl
          show 0 + a.writtenlen = 0
          rw [hzero]
      · intro id o' ho' _
        exact hguard id (h.lt _ _ ho') o' ho'
  · exact h

/-! ### Files which are removed -/

theorem Inv.removed {idx : ℕ} (h : s.Inv L store) (hidx : idx < L.nb_file)
    (hunlink : s.fs.unlink (L.filepath idx) = some fs)
    (hnone : ∀ id o, s.db id = some o → ∀ x < L.totfile_size, (L.place x).1 = idx →
      ¬ L.Has o.totfile_range x) :
    ({ s with fs := fs, log := .removed idx :: s.log } : FileIo π).Inv L store := by
  have hbyte : ∀ x < L.totfile_size,
      L.byte fs x = if (L.place x).1 = idx then 0 else L.byte s.fs x := by
    intro x hx
    rw [FileLayout.byte, FileSys.byte_unlink hunlink]
    by_cases hx' : (L.place x).1 = idx
    · rw [if_pos (by rw [hx']), if_pos hx']
    · rw [if_neg hx', if_neg fun hpath => hx' (L.filepath_inj _ (L.place_lt x hx) _ hidx hpath)]
      rfl
  -- the operations are about other files
  have hcontent : ∀ id o, s.db id = some o → ∀ x < L.totfile_size, L.Has o.totfile_range x →
      L.content store (.removed idx :: s.log) x = L.content store s.log x :=
    fun id o ho x hx hin => if_neg fun hx' => hnone id o ho x hx hx' hin
  constructor
  · exact h.lt
  · intro id o ho
    have hok := h.ok _ _ ho
    obtain ⟨part, hpart, hj⟩ := hok.job
    refine ⟨hok.accepts, hok.part_arr, part, hpart, hj.mono fun ino hino => ?_⟩
    rw [hok.part_arr] at hpart
    have hne : part.idx ≠ idx := by
      rintro rfl
      have hpos := L.part_pos _ hok.accepts part (List.mem_of_getElem? hpart)
      obtain ⟨hlt, hplace⟩ := FileLayout.place_part hok.accepts hpart hpos
      exact hnone id o ho _ (Nat.mod_lt _ L.size_pos) (by rw [hplace])
        (FileLayout.has_add hok.accepts hlt)
    show fs.dir _ = _
    rw [(FileSys.unlink_spec hunlink).2]
    refine (Function.update_of_ne ?_ _ _).trans hino
    exact fun hpath =>
      hne (L.filepath_inj _ (FileLayout.part_idx_lt hok.accepts hpart) _ hidx hpath)
  · exact h.distinct
  · intro x hx hfree
    show L.byte fs x = L.content store (.removed idx :: s.log) x
    rw [hbyte x hx, FileLayout.content]
    by_cases hx' : (L.place x).1 = idx
    · rw [if_pos hx']
      exact (if_pos hx').symm
    · rw [if_neg hx', h.bytes x hx hfree]
      exact (if_neg hx').symm
  · intro id o ho x hx hin
    show L.byte fs x = _
    rw [hbyte x hx, if_neg fun hx' => hnone id o ho x hx hx' hin, h.op_bytes _ _ ho x hx hin]
    exact BtIo.pending_congr (hcontent _ _ ho x hx hin).symm
  · exact fun id o ho hread => h.got_of ho hread (hcontent id o ho)
  · exact h.atomic

theorem Inv.removeLoop (os_unlink : ℕ → Bool) (idx_arr : List ℕ) (h : s.Inv L store)
    (hidx : ∀ idx ∈ idx_arr, idx < L.nb_file)
    (hnone : ∀ idx ∈ idx_arr, ∀ id o, s.db id = some o → ∀ x < L.totfile_size,
      (L.place x).1 = idx → ¬ L.Has o.totfile_range x) :
    (FileIo.removeLoop L os_unlink s idx_arr).1.Inv L store := by
  induction idx_arr generalizing s with
  | nil => exact h
  | cons idx rest ih =>
    have hrest := fun i hi => hidx i (List.mem_cons_of_mem idx hi)
    have hnrest := fun i hi => hnone i (List.mem_cons_of_mem idx hi)
    rw [FileIo.removeLoop]
    split_ifs
    · split
      · exact h
      · next fs hunlink =>
          exact ih (h.removed (hidx idx List.mem_cons_self) hunlink
            (hnone idx List.mem_cons_self)) hrest hnrest
    · split
      · exact h
      · next fs hunlink => cases hunlink
    · exact ih h hrest hnrest

theorem Inv.remove (h : s.Inv L store) (r : FileRange) (os_unlink : ℕ → Bool)
    (hguard : s.NoOverlap L (.remove r os_unlink)) : (s.remove L r os_unlink).1.Inv L store := by
  rw [FileIo.remove]
  cases hremoves : L.removes r with
  | none => exact h
  | some idx_arr =>
    refine h.removeLoop os_unlink idx_arr (L.removes_lt _ _ hremoves) ?_
    intro idx hidx id o ho x hx hx'
    obtain ⟨i, hi, rfl⟩ := L.removes_whole _ _ hremoves idx hidx x hx hx'
    refine hguard id (h.lt _ _ ho) o ho _ hx ?_
    have hle := Nat.lt_or_ge i L.totfile_size
    rcases hle with hlt | hge
    · rw [FileLayout.Has, FileLayout.index_add hlt]
      exact hi
    · exact Nat.lt_of_lt_of_le FileLayout.index_lt (Nat.le_trans hge (Nat.le_of_lt hi))

/-! ### Runs -/

omit [DecidableEq π] in
/-- What a timer of a read comes to is what a read of some bytes says. -/
theorem aread_expire (profile : FileAioProfile) (a : AioRead) (fs : FileSys π UInt8)
    (os : Option ℕ) :
    a.expire profile fs os = .failed ∨ ∃ len, a.recved_data.length + len ≤ max a.aread_len
        a.recved_data.length ∧
      (a.expire profile fs os = .again { a with
          recved_data :=
            a.recved_data ++ fs.pread a.ino (a.file_offset + a.recved_data.length) len } ∨
        a.expire profile fs os =
          .done (a.recved_data ++ fs.pread a.ino (a.file_offset + a.recved_data.length) len) ∧
        (a.recved_data ++ fs.pread a.ino (a.file_offset + a.recved_data.length) len).length =
          a.aread_len) := by
  cases os with
  | none => exact .inl rfl
  | some n =>
    rw [AioRead.expire]
    split_ifs with hlen hdone
    · exact .inl rfl
    · refine .inr ⟨min n (a.iterlen profile), ?_, .inr ⟨rfl, ?_⟩⟩
      · rw [AioRead.iterlen]
        omega
      · rw [List.length_append]
        exact hdone
    · refine .inr ⟨min n (a.iterlen profile), ?_, .inl rfl⟩
      rw [AioRead.iterlen]
      omega

omit [DecidableEq π] in
/-- So is a write of some bytes. -/
theorem awrite_expire (profile : FileAioProfile) (a : AioWrite) (fs : FileSys π UInt8)
    (os : Option ℕ) :
    ∃ turn, a.expire profile fs os =
        (fs.pwrite a.ino (a.file_offset + a.writtenlen) (a.taken profile os), turn) ∧
      (turn = .failed ∨
        turn = .again { a with writtenlen := a.writtenlen + (a.taken profile os).length } ∨
          turn = .done () ∧ a.writtenlen + (a.taken profile os).length = a.data2write.length) := by
  rw [AioWrite.expire]
  split_ifs with hfail hdone
  · exact ⟨_, rfl, .inl rfl⟩
  · have hlen := Decidable.not_not.1 fun h => hfail (.inr h)
    exact ⟨_, rfl, .inr (.inr ⟨rfl, hlen ▸ hdone⟩)⟩
  · have hlen := Decidable.not_not.1 fun h => hfail (.inr h)
    exact ⟨_, rfl, .inr (.inl (by rw [hlen]))⟩

theorem Inv.expire (h : s.Inv L store) (id : ℕ) (os : Option ℕ) (os_open : Bool) :
    (s.expire L profile id os os_open).Inv L store := by
  rw [FileIo.expire]
  cases hdb : s.db id with
  | none => exact h
  | some o =>
    have hok := h.ok _ _ hdb
    obtain ⟨part, hpart, hj⟩ := hok.job
    have hk := hpart
    rw [hok.part_arr] at hk
    dsimp only
    cases hjob : o.job with
    | read data_queue file_aread =>
      cases file_aread with
      | none => exact h.readError hdb hjob
      | some a =>
        rw [hjob] at hj
        obtain ⟨-, -, haread, hle, -⟩ := hj
        dsimp only
        rcases aread_expire profile a s.fs os with hturn |
          ⟨len, hlen, hturn | ⟨hturn, hdone⟩⟩
        · rw [hturn]
          exact h.readError hdb hjob
        · rw [hturn]
          exact h.recved hdb hjob len (by omega)
        · rw [hturn]
          exact Inv.areadCb rfl (h.recved hdb hjob len (by omega)) hpart
            (hdone.trans haread) os_open
    | write data2write written_len file_awrite =>
      cases file_awrite with
      | none =>
        have hpos : written_len = o.pos := by rw [BtIo.pos, hjob]; rfl
        exact h.written hdb hjob .ERROR hpos (by rintro ⟨⟩)
      | some a =>
        have hwrote := h.wrote hdb hjob profile os
        rw [hjob] at hj
        obtain ⟨hd, hw, -, hdata, -, -⟩ := hj
        obtain ⟨turn, hturn, rfl | rfl | ⟨rfl, hdone⟩⟩ :=
          awrite_expire profile a s.fs os <;> dsimp only
        · rw [hturn]
          dsimp only
          rw [← notify_update]
          exact hwrote.written db_update_self rfl .ERROR (Nat.add_assoc _ _ _) (by rintro ⟨⟩)
        · rw [hturn]
          exact hwrote
        · rw [hturn]
          dsimp only
          -- the part is all of the data of the `file_awrite_t`
          have hlen : a.data2write.length = part.length := by
            have hend := FileLayout.end_le hok.accepts hk
            rw [hdata, List.length_take, List.length_drop]
            omega
          rw [hdone, hlen] at hwrote
          exact Inv.awriteCb (a := a) rfl hwrote hpart os_open

omit [DecidableEq π] in
/-- A read which is deleted leaves nothing behind, a write what it has written. -/
theorem Inv.dtor (h : s.Inv L store) (id : ℕ) : (s.dtor id).Inv L store := by
  rw [FileIo.dtor]
  cases hdb : s.db id with
  | none => exact h
  | some o =>
    dsimp only
    cases hjob : o.job with
    | read data_queue a =>
      -- as if it had failed, without the entry of the log
      have hnotify := h.readError hdb hjob
      exact ⟨hnotify.lt, hnotify.ok, hnotify.distinct, hnotify.bytes, hnotify.op_bytes,
        hnotify.got, h.atomic⟩
    | write data2write written_len a =>
      have hok := h.ok _ _ hdb
      apply h.notify hdb
      · rw [BtIo.pending, hjob]
        rfl
      · exact ⟨hok.length_data2write hjob, hok.pos_le, h.atomic⟩

theorem Inv.step (h : s.Inv L store) (e : IoEvent) (hguard : s.NoOverlap L e) :
    (s.step L profile e).Inv L store := by
  cases e with
  | read_ctor r os_open => exact h.readCtor r os_open hguard
  | write_ctor r data2write os_open => exact h.writeCtor r data2write os_open hguard
  | zerotimer id os os_open => exact h.expire id os os_open
  | dtor id => exact h.dtor id
  | remove r os_unlink => exact h.remove r os_unlink hguard

/-- **The invariant of the file ios**, in every run whose operations do not overlap. -/
theorem inv_run {fs : FileSys π UInt8} {evs : List IoEvent}
    (hguard : Guarded (step L profile) (NoOverlap L) (init fs) evs) :
    (run (step L profile) (init fs) evs).Inv L (L.byte fs) :=
  (Guarded.always (fun _ e h hg => h.step e hg) (init_inv fs) hguard).run

/-- The log of such a run is one of a byte store, and the files have what the store has where
no write is on its way. -/
def Refines (L : FileLayout π) (store : ℕ → UInt8) (s : FileIo π) : Prop :=
  L.Atomic store s.log ∧ ∀ x < L.totfile_size,
    (∀ id < s.next, ∀ o ∈ s.db id, o.isWrite = true → ¬ L.Has o.totfile_range x) →
      L.byte s.fs x = L.content store s.log x

omit [DecidableEq π] in
theorem Inv.refines (h : s.Inv L store) : s.Refines L store :=
  ⟨h.atomic, fun x hx hnone =>
    h.bytes x hx fun id o ho hwrite => hnone id (h.lt _ _ ho) o ho hwrite⟩

end FileIo

end Neoip
