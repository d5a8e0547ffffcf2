/-
Neoip/FileIoRun.lean

What the file ios leave to the files of others, and when they answer.

These hold in every run, also of operations which overlap.  An operation writes
through a descriptor of a file of the io, or of one which was removed since, so the
other files stay as they are; and a file of the io is there only if a write marked
it in `m_file_exist`, or from the beginning.  Each timer of an operation brings it
nearer to its end (`BtIo.turns`).

Main results: `FileIo.tidy_run` and `FileIo.answers`.
-/
import Neoip.FileIoAtomic

namespace Neoip

open IoCache (BtErr)

variable {π : Type} {L : FileLayout π} {profile : FileAioProfile}

/-! ### The files of the io, and the others -/

namespace BtIo

/-- The file which an operation has open. -/
def openIno (o : BtIo) : Option ℕ :=
  match o.job with
  | .read _ a => a.map AioRead.ino
  | .write _ _ a => a.map AioWrite.ino

end BtIo

namespace FileIo

/-- The paths of the io are the only ones which change, and the only ones which the files that are
open may be at. -/
structure Tidy (L : FileLayout π) (fs₀ : FileSys π UInt8) (s : FileIo π) : Prop where
  others : ∀ q, (∀ i < L.nb_file, q ≠ L.filepath i) → s.fs.dir q = fs₀.dir q ∧
    ∀ ino, fs₀.dir q = some ino → s.fs.node ino = fs₀.node ino
  marked : L.creates = true → ∀ i < L.nb_file, s.fs.dir (L.filepath i) ≠ none →
    s.file_exist i = true ∨ fs₀.dir (L.filepath i) ≠ none
  parts : ∀ id o, s.db id = some o → ∀ part ∈ o.part_arr, part.idx < L.nb_file
  opened : ∀ id o ino, s.db id = some o → o.openIno = some ino → ino < s.fs.next ∧
    ∀ q, s.fs.dir q = some ino → ∃ i < L.nb_file, q = L.filepath i

variable {fs₀ : FileSys π UInt8} {s s' : FileIo π} {id : ℕ} {o : BtIo} {fs : FileSys π UInt8}

theorem tidy_init (fs : FileSys π UInt8) : Tidy L fs (init fs) where
  others _ _ := ⟨rfl, fun _ _ => rfl⟩
  marked _ _ _ h := .inr h
  parts := by rintro id o ⟨⟩
  opened := by rintro id o ino ⟨⟩

/-- An operation whose open file is a file of the io, in a state which has the same files. -/
structure OpTidy (L : FileLayout π) (fs : FileSys π UInt8) (o : BtIo) : Prop where
  parts : ∀ part ∈ o.part_arr, part.idx < L.nb_file
  opened : ∀ ino, o.openIno = some ino → ino < fs.next ∧
    ∀ q, fs.dir q = some ino → ∃ i < L.nb_file, q = L.filepath i

theorem Tidy.op (h : s.Tidy L fs₀) (ho : s.db id = some o) : OpTidy L s.fs o :=
  ⟨h.parts id o ho, fun ino => h.opened id o ino ho⟩

theorem Tidy.update (h : s.Tidy L fs₀) (ho : OpTidy L s.fs o) : (s.update id o).Tidy L fs₀ := by
  refine ⟨h.others, h.marked, ?_, ?_⟩
  · intro id' o' h'
    rcases update_eq_some h' with ⟨-, ⟨⟩⟩ | ⟨-, h'⟩
    · exact ho.parts
    · exact h.parts _ _ h'
  · intro id' o' ino h'
    rcases update_eq_some h' with ⟨-, ⟨⟩⟩ | ⟨-, h'⟩
    · exact ho.opened ino
    · exact h.opened _ _ ino h'

theorem of_update_none {id' : ℕ} {o' : BtIo} (h : Function.update s.db id none id' = some o') :
    id' ≠ id ∧ s.db id' = some o' := by
  obtain ⟨-, ⟨⟩⟩ | h := update_eq_some h
  exact h

/-- An operation which is no more, with another log. -/
theorem Tidy.remove_op (h : s.Tidy L fs₀) (log : List IoEntry) :
    ({ s with db := Function.update s.db id none, log := log } : FileIo π).Tidy L fs₀ := by
  exact ⟨h.others, h.marked, fun id' o' h' => h.parts _ _ (of_update_none h').2,
    fun id' o' ino h' => h.opened _ _ ino (of_update_none h').2⟩

theorem Tidy.notify (h : s.Tidy L fs₀) (entry : IoEntry) : (s.notify id entry).Tidy L fs₀ :=
  h.remove_op _

/-- A write through the file which an operation has open. -/
theorem Tidy.pwrite {ino : ℕ} (h : s.Tidy L fs₀) (off : ℕ) (buf : List UInt8)
    (hino : ∀ q, s.fs.dir q = some ino → ∃ i < L.nb_file, q = L.filepath i) :
    ({ s with fs := s.fs.pwrite ino off buf } : FileIo π).Tidy L fs₀ := by
  refine ⟨fun q hq => ?_, h.marked, h.parts, h.opened⟩
  obtain ⟨hdir, hnode⟩ := h.others q hq
  refine ⟨hdir, fun ino' hino' => ?_⟩
  have hne : ino' ≠ ino := by
    rintro rfl
    obtain ⟨i, hi, rfl⟩ := hino q (hdir.trans hino')
    exact hq i hi rfl
  exact (Function.update_of_ne hne _ _).trans (hnode ino' hino')

variable [DecidableEq π]

/-- A file of the io which is created, once its mark is set. -/
theorem Tidy.openCreate {idx : ℕ} (h : s.Tidy L fs₀) (hidx : idx < L.nb_file)
    (hmark : s.file_exist idx = true) :
    ({ s with fs := (s.fs.openCreate (L.filepath idx)).1 } : FileIo π).Tidy L fs₀ ∧
      (s.fs.openCreate (L.filepath idx)).2 < (s.fs.openCreate (L.filepath idx)).1.next := by
  refine ⟨⟨?_, ?_, h.parts, ?_⟩, FileSys.dir_lt _ FileSys.dir_openCreate_self⟩
  · intro q hq
    obtain ⟨hdir, hnode⟩ := h.others q hq
    refine ⟨(FileSys.dir_openCreate_of_ne (hq idx hidx)).trans hdir, fun ino hino => ?_⟩
    exact (FileSys.node_openCreate (s.fs.dir_lt (hdir.trans hino))).trans (hnode ino hino)
  · intro hcreates i hi hne
    by_cases hpath : L.filepath i = L.filepath idx
    · rw [L.filepath_inj _ hi _ hidx hpath]
      exact .inl hmark
    · rw [FileSys.dir_openCreate_of_ne hpath] at hne
      exact h.marked hcreates i hi hne
  · intro id o ino ho hopen
    obtain ⟨hlt, hpaths⟩ := h.opened id o ino ho hopen
    refine ⟨Nat.lt_of_lt_of_le hlt FileSys.le_next_openCreate, fun q hq => ?_⟩
    by_cases hpath : q = L.filepath idx
    · exact ⟨idx, hidx, hpath⟩
    · rw [FileSys.dir_openCreate_of_ne hpath] at hq
      exact hpaths q hq

omit [DecidableEq π] in
/-- The file at a path of the io may be at no path of others. -/
theorem paths_of_dir {idx ino : ℕ} (hidx : idx < L.nb_file)
    (hdir : fs.dir (L.filepath idx) = some ino) :
    ino < fs.next ∧ ∀ q, fs.dir q = some ino → ∃ i < L.nb_file, q = L.filepath i :=
  ⟨fs.dir_lt hdir, fun _ hq => ⟨idx, hidx, fs.dir_inj hq hdir⟩⟩

/-- What is launched keeps the files tidy, and opens a file of the io. -/
theorem Tidy.launchWrite {data2write : List UInt8} {written_len : ℕ} {part : FilePart}
    {os_open : Bool} {a : Option AioWrite} (h : s.Tidy L fs₀) (hidx : part.idx < L.nb_file)
    (hs : s.launchWrite L data2write written_len part os_open = (s', a)) : s'.Tidy L fs₀ := by
  -- the mark of the file is set, whether it can be opened or not
  have hmark : ({ s with
      file_exist := Function.update s.file_exist part.idx true } : FileIo π).Tidy L fs₀ := by
    refine ⟨h.others, fun hcreates i hi hne => ?_, h.parts, h.opened⟩
    by_cases hi' : i = part.idx
    · rw [hi']
      exact .inl (Function.update_self _ _ _)
    · exact (h.marked hcreates i hi hne).imp_left fun h =>
        (Function.update_of_ne hi' _ _).trans h
  rw [FileIo.launchWrite] at hs
  split_ifs at hs
  · rw [← (Prod.mk.inj hs).1]
    exact (hmark.openCreate hidx (Function.update_self _ _ _)).1
  · rwa [← (Prod.mk.inj hs).1]
  · rwa [← (Prod.mk.inj hs).1]
  · rwa [← (Prod.mk.inj hs).1]

omit [DecidableEq π] in
theorem part_idx_lt_of_mem {r : FileRange} {part : FilePart} (hr : L.accepts r = true)
    (hpart : part ∈ L.part_arr r) : part.idx < L.nb_file := by
  obtain ⟨k, hk⟩ := List.mem_iff_getElem?.1 hpart
  exact FileLayout.part_idx_lt hr hk

omit [DecidableEq π] in
theorem Tidy.ctor (h : s.Tidy L fs₀) (ho : OpTidy L s.fs o) :
    ({ s.update s.next o with next := s.next + 1 } : FileIo π).Tidy L fs₀ := by
  have hnew : (s.update s.next o).Tidy L fs₀ := h.update ho
  exact ⟨hnew.others, hnew.marked, hnew.parts, hnew.opened⟩

omit [DecidableEq π] in
theorem Tidy.areadCb (h : s.Tidy L fs₀) (hparts : ∀ part ∈ o.part_arr, part.idx < L.nb_file)
    (data_queue aread_data : List UInt8) (os_open : Bool) :
    (s.areadCb L id o data_queue aread_data os_open).Tidy L fs₀ := by
  rw [FileIo.areadCb]
  split
  · exact h.notify _
  · next part hpart =>
      split
      · exact h.notify _
      · next a ha =>
          refine h.update ⟨hparts, fun ino hino => ?_⟩
          obtain rfl := Option.some.inj hino
          exact paths_of_dir (hparts part (List.mem_of_getElem? hpart)) (launchRead_spec ha).2.2.2

theorem Tidy.awriteCb (h : s.Tidy L fs₀) (hparts : ∀ part ∈ o.part_arr, part.idx < L.nb_file)
    (data2write : List UInt8) (written_len : ℕ) (os_open : Bool) :
    (s.awriteCb L id o data2write written_len os_open).Tidy L fs₀ := by
  rw [FileIo.awriteCb]
  split
  · exact h.notify _
  · next part hpart =>
      have hidx := hparts part (List.mem_of_getElem? hpart)
      split
      · next s' heq => exact (h.launchWrite hidx heq).notify _
      · next s' a heq =>
          refine (h.launchWrite hidx heq).update ⟨hparts, fun ino hino => ?_⟩
          obtain rfl := Option.some.inj hino
          obtain ⟨fs, file_exist, rfl, -, -, ha⟩ := launchWrite_spec heq
          exact paths_of_dir hidx (ha a rfl).2.2.2

theorem Tidy.expire (h : s.Tidy L fs₀) (id : ℕ) (os : Option ℕ) (os_open : Bool) :
    (s.expire L profile id os os_open).Tidy L fs₀ := by
  rw [FileIo.expire]
  cases hdb : s.db id with
  | none => exact h
  | some o =>
    have ho := h.op hdb
    dsimp only
    cases hjob : o.job with
    | read data_queue file_aread =>
      cases file_aread with
      | none => exact h.notify _
      | some a =>
        have hopen : o.openIno = some a.ino := by rw [BtIo.openIno, hjob]; rfl
        dsimp only
        obtain hturn | ⟨len, -, hturn | ⟨hturn, -⟩⟩ := aread_expire profile a s.fs os
        · rw [hturn]
          exact h.notify _
        · rw [hturn]
          refine h.update ⟨ho.parts, fun ino hino => ?_⟩
          obtain rfl := Option.some.inj hino
          exact ho.opened a.ino hopen
        · rw [hturn]
          exact h.areadCb ho.parts _ _ os_open
    | write data2write written_len file_awrite =>
      cases file_awrite with
      | none => exact h.notify _
      | some a =>
        have hopen : o.openIno = some a.ino := by rw [BtIo.openIno, hjob]; rfl
        -- what is written goes to an open file, whether it still has a path or not
        have hpwrite := h.pwrite (a.file_offset + a.writtenlen) (a.taken profile os)
          (ho.opened a.ino hopen).2
        obtain ⟨turn, hturn, rfl | rfl | ⟨rfl, -⟩⟩ := awrite_expire profile a s.fs os <;>
          dsimp only
        · rw [hturn]
          exact hpwrite.notify _
        · rw [hturn]
          refine hpwrite.update ⟨ho.parts, fun ino hino => ?_⟩
          obtain rfl := Option.some.inj hino
          exact ho.opened a.ino hopen
        · rw [hturn]
          exact hpwrite.awriteCb ho.parts _ _ os_open

theorem Tidy.removeLoop (os_unlink : ℕ → Bool) (idx_arr : List ℕ) (h : s.Tidy L fs₀)
    (hidx : ∀ idx ∈ idx_arr, idx < L.nb_file) :
    (FileIo.removeLoop L os_unlink s idx_arr).1.Tidy L fs₀ := by
  induction idx_arr generalizing s with
  | nil => exact h
  | cons idx rest ih =>
    have hrest := fun i hi => hidx i (List.mem_cons_of_mem idx hi)
    rw [FileIo.removeLoop]
    split_ifs
    · split
      · exact h
      · next fs hunlink =>
          rw [(FileSys.unlink_spec hunlink).2]
          refine ih ⟨?_, ?_, h.parts, ?_⟩ hrest
          · intro q hq
            obtain ⟨hdir, hnode⟩ := h.others q hq
            refine ⟨(Function.update_of_ne (hq idx (hidx idx List.mem_cons_self)) _ _).trans hdir,
              hnode⟩
          · intro hcreates i hi hne
            refine h.marked hcreates i hi fun hnone => hne ?_
            by_cases hpath : L.filepath i = L.filepath idx
            · exact (congrArg _ hpath).trans (Function.update_self _ _ _)
            · exact (Function.update_of_ne hpath _ _).trans hnone
          · intro id o ino ho hopen
            obtain ⟨hlt, hpaths⟩ := h.opened id o ino ho hopen
            refine ⟨hlt, fun q hq => ?_⟩
            by_cases hpath : q = L.filepath idx
            · exact ⟨idx, hidx idx List.mem_cons_self, hpath⟩
            · exact hpaths q ((Function.update_of_ne hpath _ _).symm.trans hq)
    · split
      · exact h
      · next fs hunlink => cases hunlink
    · exact ih h hrest

theorem Tidy.step (h : s.Tidy L fs₀) (e : IoEvent) : (s.step L profile e).Tidy L fs₀ := by
  cases e with
  | read_ctor r os_open =>
    show (s.readCtor L r os_open).Tidy L fs₀
    rw [readCtor]
    split
    · next part rest hr harr =>
        have hparts : ∀ part' ∈ part :: rest, part'.idx < L.nb_file :=
          fun part' hpart' => part_idx_lt_of_mem hr (harr ▸ hpart')
        refine h.ctor ⟨hparts, fun ino hino => ?_⟩
        obtain ⟨a, ha, rfl⟩ := Option.map_eq_some_iff.1 hino
        exact paths_of_dir (hparts part List.mem_cons_self) (launchRead_spec ha).2.2.2
    · exact h
  | write_ctor r data2write os_open =>
    show (s.writeCtor L r data2write os_open).Tidy L fs₀
    rw [writeCtor]
    split
    · next part rest hr harr =>
        have hr' := (Bool.and_eq_true_iff.1 hr).1
        have hparts : ∀ part' ∈ part :: rest, part'.idx < L.nb_file :=
          fun part' hpart' => part_idx_lt_of_mem hr' (harr ▸ hpart')
        have hidx := hparts part List.mem_cons_self
        rcases hlaunch : s.launchWrite L data2write 0 part os_open with ⟨s', a⟩
        refine (h.launchWrite hidx hlaunch).ctor ⟨hparts, fun ino hino => ?_⟩
        obtain ⟨fs, file_exist, rfl, -, -, ha⟩ := launchWrite_spec hlaunch
        obtain ⟨a', ha', rfl⟩ := Option.map_eq_some_iff.1 hino
        exact paths_of_dir hidx (ha a' ha').2.2.2
    · exact h
  | zerotimer id os os_open => exact h.expire id os os_open
  | dtor id =>
    show (s.dtor id).Tidy L fs₀
    rw [dtor]
    split
    · exact h
    · split
      · exact h.remove_op _
      · exact h.notify _
  | remove r os_unlink =>
    show (s.remove L r os_unlink).1.Tidy L fs₀
    rw [remove]
    split
    · exact h
    · next idx_arr hremoves => exact h.removeLoop os_unlink idx_arr (L.removes_lt _ _ hremoves)

theorem tidy_run (profile : FileAioProfile) (fs : FileSys π UInt8) (evs : List IoEvent) :
    (run (step L profile) (init fs) evs).Tidy L fs :=
  run_invariant (fun _ e h => h.step e) (tidy_init fs) evs

end FileIo

/-! ### Timers -/

/-- The timers which `len` bytes take. -/
def timersOf (len iterlen : ℕ) : ℕ := max 1 (ceilDiv len iterlen)

theorem timersOf_pos (len iterlen : ℕ) : 0 < timersOf len iterlen := Nat.le_max_left 1 _

theorem timersOf_again {len iterlen : ℕ} (hpos : 0 < iterlen) (hlt : iterlen < len) :
    timersOf (len - iterlen) iterlen + 1 ≤ timersOf len iterlen := by
  have hsub : len - iterlen + (iterlen - 1) + iterlen = len + (iterlen - 1) := by omega
  have hceil : ceilDiv len iterlen = ceilDiv (len - iterlen) iterlen + 1 := by
    rw [ceilDiv, ceilDiv, ← hsub, Nat.add_div_right _ hpos]
  have hrest : 1 ≤ ceilDiv (len - iterlen) iterlen := by
    rw [ceilDiv, Nat.one_le_div_iff hpos]
    omega
  rw [timersOf, timersOf, hceil]
  omega

theorem timersOf_mono {len len' : ℕ} (iterlen : ℕ) (h : len ≤ len') :
    timersOf len iterlen ≤ timersOf len' iterlen := by
  have hdiv : ceilDiv len iterlen ≤ ceilDiv len' iterlen :=
    Nat.div_le_div_right (Nat.add_le_add_right h _)
  rw [timersOf, timersOf]
  omega

/-- The timers of the parts from `k` on. -/
def partTimers (iterlen : ℕ) (part_arr : List FilePart) (k : ℕ) : ℕ :=
  ((part_arr.drop k).map fun part => timersOf part.length iterlen).sum

theorem partTimers_of_some {iterlen k : ℕ} {part_arr : List FilePart} {part : FilePart}
    (h : part_arr[k]? = some part) :
    partTimers iterlen part_arr k =
      timersOf part.length iterlen + partTimers iterlen part_arr (k + 1) := by
  obtain ⟨hlt, rfl⟩ := List.getElem?_eq_some_iff.1 h
  rw [partTimers, List.drop_eq_getElem_cons hlt, List.map_cons, List.sum_cons]
  rfl

/-- The timers until an operation is over, if none of them fails. -/
def BtIo.turns (profile : FileAioProfile) (o : BtIo) : ℕ :=
  match o.job with
  | .read _ none => 1
  | .write _ _ none => 1
  | .read _ (some a) => timersOf (a.aread_len - a.recved_data.length) profile.aread_iterlen +
      partTimers profile.aread_iterlen o.part_arr (o.part_idx + 1)
  | .write _ _ (some a) => timersOf (a.data2write.length - a.writtenlen) profile.awrite_iterlen +
      partTimers profile.awrite_iterlen o.part_arr (o.part_idx + 1)

/-- No more bytes are done than there are. -/
def BtIo.Within (o : BtIo) : Prop :=
  match o.job with
  | .read _ none => True
  | .write _ _ none => True
  | .read _ (some a) => a.recved_data.length ≤ a.aread_len
  | .write _ _ (some a) => a.writtenlen ≤ a.data2write.length

/-- The entry is the answer to an operation. -/
def IoEntry.answers (id : ℕ) : IoEntry → Bool
  | .read id' .. => id' = id
  | .written id' .. => id' = id
  | .dropped .. => false
  | .removed _ => false

def IoEvent.isTimer (id : ℕ) : IoEvent → Bool
  | .zerotimer id' .. => id' = id
  | .read_ctor .. => false
  | .write_ctor .. => false
  | .dtor _ => false
  | .remove .. => false

namespace FileIo

variable {s s' : FileIo π} {id : ℕ} {o o' : BtIo} {fs : FileSys π UInt8}

/-- The operation is over with its answer, or is nearer to its end. -/
structure Advances (profile : FileAioProfile) (s : FileIo π) (id : ℕ) (o : BtIo) (s' : FileIo π) :
    Prop where
  next : s'.next = s.next
  cases : (∃ entry, IoEntry.answers id entry = true ∧ s'.db = Function.update s.db id none ∧
      s'.log = entry :: s.log) ∨
    ∃ o', s'.db = Function.update s.db id (some o') ∧ s'.log = s.log ∧ o'.Within ∧
      (0 < profile.aread_iterlen → 0 < profile.awrite_iterlen →
        o'.turns profile < o.turns profile)

theorem Advances.of_read {r : FileRange} {bt_err : BtErr} {data : List UInt8}
    (hdb : s'.db = s.db) (hnext : s'.next = s.next) (hlog : s'.log = s.log) :
    Advances profile s id o (s'.notify id (.read id r bt_err data)) :=
  ⟨hnext, .inl ⟨.read id r bt_err data, decide_eq_true rfl, by rw [notify, hdb],
    by rw [← hlog]; rfl⟩⟩

theorem Advances.of_written {r : FileRange} {bt_err : BtErr} {data : List UInt8} {len : ℕ}
    (hdb : s'.db = s.db) (hnext : s'.next = s.next) (hlog : s'.log = s.log) :
    Advances profile s id o (s'.notify id (.written id r data len bt_err)) :=
  ⟨hnext, .inl ⟨.written id r data len bt_err, decide_eq_true rfl, by rw [notify, hdb],
    by rw [← hlog]; rfl⟩⟩

theorem Advances.of_update (hdb : s'.db = s.db) (hnext : s'.next = s.next) (hlog : s'.log = s.log)
    (hwithin : o'.Within) (hturns : 0 < profile.aread_iterlen → 0 < profile.awrite_iterlen →
      o'.turns profile < o.turns profile) : Advances profile s id o (s'.update id o') :=
  ⟨hnext, .inr ⟨o', by rw [update, hdb], hlog, hwithin, hturns⟩⟩

variable [DecidableEq π]

omit [DecidableEq π] in
/-- A read which goes on has read as much as a timer may, and there is more. -/
theorem aread_again {a a' : AioRead} {fs : FileSys π UInt8} {os : Option ℕ}
    (h : a.expire profile fs os = .again a') (hle : a.recved_data.length ≤ a.aread_len) :
    a'.aread_len = a.aread_len ∧
      a'.recved_data.length = a.recved_data.length + profile.aread_iterlen ∧
        a'.recved_data.length < a.aread_len := by
  cases os with
  | none => cases h
  | some n =>
    rw [AioRead.expire] at h
    split_ifs at h with hall hdone
    obtain rfl := Turn.again.inj h
    have hiter : a.iterlen profile =
      min (a.aread_len - a.recved_data.length) profile.aread_iterlen := rfl
    dsimp only
    rw [List.length_append]
    refine ⟨rfl, ?_, ?_⟩ <;> omega

omit [DecidableEq π] in
/-- So has a write. -/
theorem awrite_again {a a' : AioWrite} {fs fs' : FileSys π UInt8} {os : Option ℕ}
    (h : a.expire profile fs os = (fs', .again a')) (hle : a.writtenlen ≤ a.data2write.length) :
    a'.data2write = a.data2write ∧ a'.writtenlen = a.writtenlen + profile.awrite_iterlen ∧
      a'.writtenlen < a.data2write.length := by
  rw [AioWrite.expire] at h
  split_ifs at h with hfail hdone
  · cases h
  · cases h
  · obtain rfl := Turn.again.inj (Prod.mk.inj h).2
    rw [AioWrite.iterlen] at hdone
    refine ⟨rfl, ?_, ?_⟩
    · show a.writtenlen + min _ _ = _
      omega
    · show a.writtenlen + min _ _ < _
      omega

/-- **A timer of an operation** brings it nearer to its end, or to its answer. -/
theorem expire_advances (ho : s.db id = some o) (hwithin : o.Within) (os : Option ℕ)
    (os_open : Bool) : Advances profile s id o (s.expire L profile id os os_open) := by
  rw [FileIo.expire, ho]
  dsimp only
  rw [BtIo.Within] at hwithin
  cases hjob : o.job with
  | read data_queue file_aread =>
    cases file_aread with
    | none => exact .of_read rfl rfl rfl
    | some a =>
      rw [hjob] at hwithin
      have hturns : o.turns profile =
          timersOf (a.aread_len - a.recved_data.length) profile.aread_iterlen +
            partTimers profile.aread_iterlen o.part_arr (o.part_idx + 1) := by
        rw [BtIo.turns, hjob]
      dsimp only at hwithin ⊢
      cases hturn : a.expire profile s.fs os with
      | failed => exact .of_read rfl rfl rfl
      | again a' =>
        obtain ⟨haread, hrecved, hmore⟩ := aread_again hturn hwithin
        have hle : a'.recved_data.length ≤ a'.aread_len := by omega
        -- the transfer of the part was cut short
        refine .of_update rfl rfl rfl hle fun hread _ => ?_
        rw [hturns]
        show timersOf (a'.aread_len - a'.recved_data.length) _ +
          partTimers _ o.part_arr (o.part_idx + 1) < _
        have hagain := timersOf_again hread
          (show profile.aread_iterlen < a.aread_len - a.recved_data.length by omega)
        rw [haread, hrecved, ← Nat.sub_sub]
        omega
      | done aread_data =>
        dsimp only
        rw [FileIo.areadCb]
        -- the part is read: it was the last one, or the next one is launched
        cases hpart : o.part_arr[o.part_idx + 1]? with
        | none => exact .of_read rfl rfl rfl
        | some part =>
          dsimp only
          cases hlaunch : s.launchRead L part os_open with
          | none => exact .of_read rfl rfl rfl
          | some a' =>
            obtain ⟨-, hlen, hnil, -⟩ := launchRead_spec hlaunch
            have hle : a'.recved_data.length ≤ a'.aread_len := by
              rw [hnil]
              exact Nat.zero_le _
            refine .of_update rfl rfl rfl hle fun _ _ => ?_
            rw [hturns, partTimers_of_some hpart]
            show timersOf (a'.aread_len - a'.recved_data.length) _ +
              partTimers _ o.part_arr (o.part_idx + 1 + 1) < _
            rw [hlen, hnil]
            exact Nat.lt_add_of_pos_left (timersOf_pos _ _)
  | write data2write written_len file_awrite =>
    cases file_awrite with
    | none => exact .of_written rfl rfl rfl
    | some a =>
      rw [hjob] at hwithin
      have hturns : o.turns profile = timersOf (a.data2write.length - a.writtenlen)
          profile.awrite_iterlen +
            partTimers profile.awrite_iterlen o.part_arr (o.part_idx + 1) := by
        rw [BtIo.turns, hjob]
      dsimp only at hwithin ⊢
      rcases hturn : a.expire profile s.fs os with ⟨fs, - | a' | -⟩
      · exact .of_written rfl rfl rfl
      · obtain ⟨hdata, hwritten, hmore⟩ := awrite_again hturn hwithin
        have hle : a'.writtenlen ≤ a'.data2write.length := by
          rw [hdata]
          exact Nat.le_of_lt hmore
        refine .of_update rfl rfl rfl hle fun _ hwrite => ?_
        rw [hturns]
        show timersOf (a'.data2write.length - a'.writtenlen) _ +
          partTimers _ o.part_arr (o.part_idx + 1) < _
        have hagain := timersOf_again hwrite
          (show profile.awrite_iterlen < a.data2write.length - a.writtenlen by omega)
        rw [hdata, hwritten, ← Nat.sub_sub]
        omega
      · dsimp only
        rw [FileIo.awriteCb]
        -- the part is written: it was the last one, or the next one is launched
        cases hpart : o.part_arr[o.part_idx + 1]? with
        | none => exact .of_written rfl rfl rfl
        | some part =>
          dsimp only
          split
          · next s' heq =>
              obtain ⟨fs, file_exist, rfl, -⟩ := launchWrite_spec heq
              exact .of_written rfl rfl rfl
          · next s' a' heq =>
              obtain ⟨fs, file_exist, rfl, -, -, ha⟩ := launchWrite_spec heq
              obtain ⟨-, hdata, hzero, -⟩ := ha a' rfl
              have hle : a'.data2write.length ≤ part.length := by
                rw [hdata, List.length_take]
                exact Nat.min_le_left _ _
              have hle' : a'.writtenlen ≤ a'.data2write.length := by
                rw [hzero]
                exact Nat.zero_le _
              refine .of_update rfl rfl rfl hle' fun _ _ => ?_
              rw [hturns, partTimers_of_some hpart]
              show timersOf (a'.data2write.length - a'.writtenlen) _ +
                partTimers _ o.part_arr (o.part_idx + 1 + 1) < _
              have hpos := timersOf_pos (a.data2write.length - a.writtenlen)
                profile.awrite_iterlen
              have hmono := timersOf_mono profile.awrite_iterlen
                (show a'.data2write.length - a'.writtenlen ≤ part.length by omega)
              omega

/-! ### Answers -/

/-- An operation which is not over was not answered, and none is answered twice. -/
structure Counted (s : FileIo π) : Prop where
  lt : ∀ id o, s.db id = some o → id < s.next
  within : ∀ id o, s.db id = some o → o.Within
  fresh : ∀ id, s.next ≤ id → s.log.countP (IoEntry.answers id) = 0
  pending : ∀ id o, s.db id = some o → s.log.countP (IoEntry.answers id) = 0
  once : ∀ id, s.log.countP (IoEntry.answers id) ≤ 1

omit [DecidableEq π] in
theorem counted_init (fs : FileSys π UInt8) : Counted (init fs) where
  lt := by rintro id o ⟨⟩
  within := by rintro id o ⟨⟩
  fresh _ _ := rfl
  pending := by rintro id o ⟨⟩
  once _ := Nat.zero_le _

omit [DecidableEq π] in
theorem countP_answers_cons {entry : IoEntry} {log : List IoEntry}
    (h : IoEntry.answers id entry = true) (id' : ℕ) :
    (entry :: log).countP (IoEntry.answers id') =
      log.countP (IoEntry.answers id') + if id' = id then 1 else 0 := by
  rw [List.countP_cons]
  congr 1
  have hiff : IoEntry.answers id' entry = true ↔ id' = id := by
    cases entry with
    | read i r bt_err data =>
      obtain rfl : i = id := of_decide_eq_true h
      exact decide_eq_true_iff.trans eq_comm
    | written i r data len bt_err =>
      obtain rfl : i = id := of_decide_eq_true h
      exact decide_eq_true_iff.trans eq_comm
    | dropped r data len => cases h
    | removed idx => cases h
  simp only [hiff]

omit [DecidableEq π] in
/-- An operation which begins, or goes on. -/
theorem Counted.put (h : s.Counted) (hwithin : o.Within)
    (hdb : s'.db = Function.update s.db id (some o)) (hid : id < s'.next) (hnext : s.next ≤ s'.next)
    (hlog : s'.log = s.log) (hcount : s.log.countP (IoEntry.answers id) = 0) : s'.Counted := by
  refine ⟨?_, ?_, ?_, ?_, hlog ▸ h.once⟩
  · intro id' o' h'
    rw [hdb] at h'
    rcases update_eq_some h' with ⟨rfl, -⟩ | ⟨-, h'⟩
    · exact hid
    · exact Nat.lt_of_lt_of_le (h.lt _ _ h') hnext
  · intro id' o' h'
    rw [hdb] at h'
    rcases update_eq_some h' with ⟨-, ⟨⟩⟩ | ⟨-, h'⟩
    · exact hwithin
    · exact h.within _ _ h'
  · intro id' hle
    rw [hlog]
    exact h.fresh id' (Nat.le_trans hnext hle)
  · intro id' o' h'
    rw [hdb] at h'
    rw [hlog]
    rcases update_eq_some h' with ⟨rfl, -⟩ | ⟨-, h'⟩
    · exact hcount
    · exact h.pending _ _ h'

omit [DecidableEq π] in
/-- An operation which is answered, or goes on. -/
theorem Counted.advances (h : s.Counted) (ho : s.db id = some o)
    (hadv : Advances profile s id o s') : s'.Counted := by
  have hnext := hadv.next
  have hid := h.lt id o ho
  obtain ⟨entry, hentry, hdb, hlog⟩ | ⟨o', hdb, hlog, hwithin, -⟩ := hadv.cases
  · have hcount := @countP_answers_cons id entry s.log hentry
    have hold : ∀ id' o'', s'.db id' = some o'' → id' ≠ id ∧ s.db id' = some o'' :=
      fun id' o'' h' => of_update_none (hdb ▸ h')
    refine ⟨?_, ?_, ?_, ?_, ?_⟩
    · intro id' o'' h'
      rw [hnext]
      exact h.lt _ _ (hold _ _ h').2
    · intro id' o'' h'
      exact h.within _ _ (hold _ _ h').2
    · intro id' hle
      rw [hlog, hcount, h.fresh id' (hnext ▸ hle), if_neg (by omega)]
    · intro id' o'' h'
      obtain ⟨hne, h'⟩ := hold _ _ h'
      rw [hlog, hcount, h.pending _ _ h', if_neg hne]
    · intro id'
      rw [hlog, hcount]
      split_ifs with hid'
      · rw [hid', h.pending _ _ ho]
      · exact h.once id'
  · exact h.put hwithin hdb (hnext ▸ hid) hnext.ge hlog (h.pending id o ho)

omit [DecidableEq π] in
/-- What is no answer, and an operation which may be deleted. -/
theorem Counted.frame (h : s.Counted) (hdb : ∀ id o, s'.db id = some o → s.db id = some o)
    (hnext : s'.next = s.next)
    (hlog : ∀ id, s'.log.countP (IoEntry.answers id) = s.log.countP (IoEntry.answers id)) :
    s'.Counted where
  lt id o ho := hnext ▸ h.lt id o (hdb id o ho)
  within id o ho := h.within id o (hdb id o ho)
  fresh id hle := (hlog id).trans (h.fresh id (hnext ▸ hle))
  pending id o ho := (hlog id).trans (h.pending id o (hdb id o ho))
  once id := (hlog id).trans_le (h.once id)

theorem removeLoop_frame (os_unlink : ℕ → Bool) (idx_arr : List ℕ) (s : FileIo π) :
    (removeLoop L os_unlink s idx_arr).1.db = s.db ∧
      (removeLoop L os_unlink s idx_arr).1.next = s.next ∧
      ∀ id, (removeLoop L os_unlink s idx_arr).1.log.countP (IoEntry.answers id) =
        s.log.countP (IoEntry.answers id) := by
  induction idx_arr generalizing s with
  | nil => exact ⟨rfl, rfl, fun _ => rfl⟩
  | cons idx rest ih =>
    rw [removeLoop]
    split_ifs
    · split
      · exact ⟨rfl, rfl, fun _ => rfl⟩
      · exact ih _
    · split
      · exact ⟨rfl, rfl, fun _ => rfl⟩
      · exact ih _
    · exact ih s

/-- **What a step does to the operations**: one begins, or one whose timer it is advances, or none
changes but one which is deleted. -/
theorem step_cases (profile : FileAioProfile) (hwithin : ∀ id o, s.db id = some o → o.Within)
    (e : IoEvent) :
    (∃ o : BtIo, (∀ id, e.isTimer id = false) ∧ o.Within ∧
        (s.step L profile e).db = Function.update s.db s.next (some o) ∧
          (s.step L profile e).next = s.next + 1 ∧ (s.step L profile e).log = s.log) ∨
    (∃ id o, (∀ id', e.isTimer id' = true ↔ id' = id) ∧ s.db id = some o ∧
        Advances profile s id o (s.step L profile e)) ∨
    ((∀ id, e.isTimer id = true → s.db id = none) ∧
      (∀ id, e ≠ .dtor id → (s.step L profile e).db id = s.db id) ∧
      (∀ id o, (s.step L profile e).db id = some o → s.db id = some o) ∧
      (s.step L profile e).next = s.next ∧
      ∀ id, (s.step L profile e).log.countP (IoEntry.answers id) =
        s.log.countP (IoEntry.answers id)) := by
  have hrefl : (∀ id, e ≠ .dtor id → s.db id = s.db id) ∧
      (∀ id o, s.db id = some o → s.db id = some o) ∧ s.next = s.next ∧
        ∀ id, s.log.countP (IoEntry.answers id) = s.log.countP (IoEntry.answers id) :=
    ⟨fun _ _ => rfl, fun _ _ h => h, rfl, fun _ => rfl⟩
  cases e with
  | read_ctor r os_open =>
    rw [step, readCtor]
    split
    · next part rest hr harr =>
        -- a read, with its first part launched or not
        refine .inl ⟨⟨r, part :: rest, 0, .read [] (s.launchRead L part os_open)⟩, fun _ => rfl,
          ?_, rfl, rfl, rfl⟩
        rw [BtIo.Within]
        cases hlaunch : s.launchRead L part os_open with
        | none => trivial
        | some a =>
          dsimp only
          rw [(launchRead_spec hlaunch).2.2.1]
          exact Nat.zero_le _
    · exact .inr (.inr ⟨by rintro id ⟨⟩, hrefl⟩)
  | write_ctor r data2write os_open =>
    rw [step, writeCtor]
    split
    · next part rest hr harr =>
        rcases hlaunch : s.launchWrite L data2write 0 part os_open with ⟨s', a⟩
        obtain ⟨fs, file_exist, rfl, -, -, ha⟩ := launchWrite_spec hlaunch
        refine .inl ⟨⟨r, part :: rest, 0, .write data2write 0 a⟩, fun _ => rfl, ?_, rfl, rfl, rfl⟩
        rw [BtIo.Within]
        cases a with
        | none => trivial
        | some a =>
          dsimp only
          rw [(ha a rfl).2.2.1]
          exact Nat.zero_le _
    · exact .inr (.inr ⟨by rintro id ⟨⟩, hrefl⟩)
  | zerotimer id os os_open =>
    rw [step]
    cases ho : s.db id with
    | none =>
      rw [expire, ho]
      refine .inr (.inr ⟨fun id' hid' => ?_, hrefl⟩)
      obtain rfl : id = id' := of_decide_eq_true hid'
      exact ho
    | some o =>
      exact .inr (.inl ⟨id, o, fun id' => decide_eq_true_iff.trans eq_comm, ho,
        expire_advances ho (hwithin id o ho) os os_open⟩)
  | dtor id =>
    have hdb : ∀ id' o', Function.update s.db id none id' = some o' → s.db id' = some o' :=
      fun id' o' h' => (of_update_none h').2
    have hother : ∀ id', IoEvent.dtor id ≠ .dtor id' →
        Function.update s.db id none id' = s.db id' := by
      intro id' hne
      refine Function.update_of_ne ?_ _ _
      rintro rfl
      exact hne rfl
    rw [step, dtor]
    -- no io, or one which is taken out of the database
    split
    · exact .inr (.inr ⟨by rintro id ⟨⟩, hrefl⟩)
    · split
      · exact .inr (.inr ⟨by rintro id ⟨⟩, hother, hdb, rfl, fun _ => rfl⟩)
      · exact .inr (.inr ⟨by rintro id ⟨⟩, hother, hdb, rfl, fun _ => rfl⟩)
  | remove r os_unlink =>
    rw [step, remove]
    split
    · exact .inr (.inr ⟨by rintro id ⟨⟩, hrefl⟩)
    · next idx_arr _ =>
        obtain ⟨hdb, hnext, hlog⟩ := removeLoop_frame (L := L) os_unlink idx_arr s
        exact .inr (.inr ⟨by rintro id ⟨⟩, fun id _ => congrFun hdb id,
          fun id o ho => hdb ▸ ho, hnext, hlog⟩)

theorem Counted.step (h : s.Counted) (e : IoEvent) : (s.step L profile e).Counted := by
  obtain ⟨o, -, hwithin, hdb, hnext, hlog⟩ | ⟨id, o, -, ho, hadv⟩ | ⟨-, -, hdb, hnext, hlog⟩ :=
    step_cases (L := L) profile h.within e
  · exact h.put hwithin hdb (hnext ▸ Nat.lt_succ_self _) (hnext ▸ Nat.le_succ _) hlog
      (h.fresh _ (Nat.le_refl _))
  · exact h.advances ho hadv
  · exact h.frame hdb hnext hlog

theorem counted_run (profile : FileAioProfile) (fs : FileSys π UInt8) (evs : List IoEvent) :
    (run (step L profile) (init fs) evs).Counted :=
  run_invariant (fun _ e h => h.step e) (counted_init fs) evs

/-- The operation is over, with one answer. -/
def Answered (s : FileIo π) (id : ℕ) : Prop :=
  id < s.next ∧ s.db id = none ∧ s.log.countP (IoEntry.answers id) = 1

/-- It stays so. -/
theorem answered_step (h : s.Counted) (ha : s.Answered id) (e : IoEvent) :
    (s.step L profile e).Answered id := by
  obtain ⟨hlt, hnone, hone⟩ := ha
  obtain ⟨o, -, -, hdb, hnext, hlog⟩ | ⟨id', o, -, ho, hadv⟩ | ⟨-, -, hdb, hnext, hlog⟩ :=
    step_cases (L := L) profile h.within e
  · refine ⟨by omega, ?_, by rw [hlog, hone]⟩
    rw [hdb, Function.update_of_ne (by omega), hnone]
  · have hne : id ≠ id' := by
      rintro rfl
      rw [hnone] at ho
      cases ho
    refine ⟨by rw [hadv.next]; exact hlt, ?_⟩
    obtain ⟨entry, hentry, hdb, hlog⟩ | ⟨o', hdb, hlog, -, -⟩ := hadv.cases
    · rw [hdb, hlog, Function.update_of_ne hne, countP_answers_cons hentry, if_neg hne]
      exact ⟨hnone, hone⟩
    · rw [hdb, hlog, Function.update_of_ne hne]
      exact ⟨hnone, hone⟩
  · refine ⟨by omega, ?_, by rw [hlog, hone]⟩
    cases hdb' : (s.step L profile e).db id with
    | none => rfl
    | some o =>
      rw [hdb id o hdb'] at hnone
      cases hnone

/-- A step about other operations leaves an operation alone; a timer of it brings its answer, or
makes it advance. -/
theorem step_turns (h : s.Counted) (ho : s.db id = some o) (hread : 0 < profile.aread_iterlen)
    (hwrite : 0 < profile.awrite_iterlen) {e : IoEvent} (hdtor : e ≠ .dtor id) :
    (s.step L profile e).Answered id ∨
    ∃ o', (s.step L profile e).db id = some o' ∧
      o'.turns profile + (if e.isTimer id then 1 else 0) ≤ o.turns profile := by
  have hlt := h.lt id o ho
  obtain ⟨o', htimer, -, hdb, -, -⟩ | ⟨id', o', htimer, ho', hadv⟩ | ⟨htimer, hdb, -, -, -⟩ :=
    step_cases (L := L) profile h.within e
  · refine .inr ⟨o, ?_, by rw [htimer]; exact Nat.le_refl _⟩
    rw [hdb, Function.update_of_ne (Nat.ne_of_lt hlt), ho]
  · by_cases hid : id = id'
    · subst hid
      obtain rfl := Option.some.inj (ho.symm.trans ho')
      obtain ⟨entry, hentry, hdb, hlog⟩ | ⟨o', hdb, hlog, -, hturns⟩ := hadv.cases
      · refine .inl ⟨by rw [hadv.next]; exact hlt, by rw [hdb, Function.update_self], ?_⟩
        rw [hlog, countP_answers_cons hentry, h.pending id o ho, if_pos rfl]
      · refine .inr ⟨o', by rw [hdb, Function.update_self], ?_⟩
        rw [if_pos ((htimer id).2 rfl)]
        exact hturns hread hwrite
    · have hfalse : ¬ e.isTimer id = true := fun h => hid ((htimer id).1 h)
      refine .inr ⟨o, ?_, by rw [if_neg hfalse]; exact Nat.le_refl _⟩
      obtain ⟨entry, -, hdb, -⟩ | ⟨o'', hdb, -, -, -⟩ := hadv.cases
      · rw [hdb, Function.update_of_ne hid, ho]
      · rw [hdb, Function.update_of_ne hid, ho]
  · have hfalse : ¬ e.isTimer id = true := by
      intro h
      rw [htimer id h] at ho
      cases ho
    exact .inr ⟨o, (hdb id hdtor).trans ho, by rw [if_neg hfalse]; exact Nat.le_refl _⟩

theorem turns_pos (profile : FileAioProfile) (o : BtIo) : 0 < o.turns profile := by
  rw [BtIo.turns]
  split
  · exact Nat.succ_pos 0
  · exact Nat.succ_pos 0
  · exact Nat.add_pos_left (timersOf_pos _ _) _
  · exact Nat.add_pos_left (timersOf_pos _ _) _

theorem answered_run (h : s.Counted) (ha : s.Answered id) (evs : List IoEvent) :
    (run (step L profile) s evs).Answered id :=
  (run_invariant (P := fun s : FileIo π => s.Counted ∧ s.Answered id)
    (fun _ e h => ⟨h.1.step e, answered_step h.1 h.2 e⟩) ⟨h, ha⟩ evs).2

/-- **Every operation is answered once**, however it is mixed with others and whatever the system
calls do, when it has had as many timers as its parts take and was not deleted before. -/
theorem answers (fs : FileSys π UInt8) (hread : 0 < profile.aread_iterlen)
    (hwrite : 0 < profile.awrite_iterlen) {evs evs' : List IoEvent}
    (ho : (run (step L profile) (init fs) evs).db id = some o)
    (hdtor : ∀ e ∈ evs', e ≠ .dtor id)
    (hturns : o.turns profile ≤ evs'.countP fun e => e.isTimer id) :
    (run (step L profile) (init fs) (evs ++ evs')).Answered id := by
  rw [run_append]
  have h := counted_run (L := L) profile fs evs
  generalize run (step L profile) (init fs) evs = s at h ho
  induction evs' generalizing s o with
  | nil => exact absurd (turns_pos profile o) (Nat.not_lt.2 hturns)
  | cons e evs' ih =>
    rw [run_cons]
    rw [List.countP_cons] at hturns
    have hrest := fun e he => hdtor e (List.mem_cons_of_mem _ he)
    obtain ha | ⟨o', ho', hle⟩ := step_turns h ho hread hwrite (hdtor e List.mem_cons_self)
    · exact answered_run (h.step e) ha evs'
    · exact ih hrest (by omega) _ (h.step e) ho'

end FileIo

end Neoip
