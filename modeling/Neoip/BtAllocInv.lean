/-
Neoip/BtAllocInv.lean

What the turns of an allocation keep.

Between two files the filesystem is the initial one with the queued paths built on it
(`Ready`).  While a file is written it is the last path of the queue, and without it
the filesystem is ready still (`Opened`): what happens to the file is undone with it.

Main results: each turn keeps the invariant, and comes nearer to the notification
(`launchNextFile_spec`, `launchNextWrite_spec`, `awriteExpire_spec`).
-/
import Neoip.BtAlloc

namespace Neoip.BtAlloc

variable {κ : Type} [DecidableEq κ] {parent : κ → Option κ} (cfg : AllocCfg κ)
  {fs₀ fs fs' : FileTree UInt8 parent} {s : BtAlloc parent} {outcomes : Outcomes}
  {path : UnxPath} {paths : List UnxPath} {idx : ℕ} {e : Entry UInt8}
  {mfile_subfile : AllocSubfile} {data : Datum}

/-! ### The queue -/

theorem removePath_of_adds (h : fs.Adds (cfg.key path) e fs') : removePath cfg path fs' = fs := by
  rw [removePath, h.stat_self]
  cases e with
  | dir =>
    show (fs'.rmdir (cfg.key path)).getD fs' = fs
    rw [h.rmdir]
    rfl
  | file data =>
    show (fs'.unlink (cfg.key path)).getD fs' = fs
    rw [h.unlink]
    rfl

/-- The filesystem is `fs₀` with the paths built on it, among which the files of the subfiles
before `idx`. -/
structure Ready (fs₀ fs : FileTree UInt8 parent) (idx : ℕ) (paths : List UnxPath) : Prop where
  built : FileTree.Built cfg.key fs₀ paths fs
  allocated : ∀ mfile_subfile ∈ cfg.subfile_arr.take idx, Allocated cfg fs mfile_subfile

/-- The file of the subfile `cur_file_idx` is the last path which was made, with `data`. -/
def Opened (fs₀ : FileTree UInt8 parent) (s : BtAlloc parent) (mfile_subfile : AllocSubfile)
    (data : Datum) : Prop :=
  ∃ path paths fs, mfile_subfile.local_path.toUnx = some path ∧ s.file_aio = some path ∧
    s.created_paths = paths ++ [path] ∧ Ready cfg fs₀ fs s.cur_file_idx paths ∧
    fs.Adds (cfg.key path) (.file data) s.fs

variable {cfg}

theorem Ready.adds (h : Ready cfg fs₀ fs idx paths) (hadds : fs.Adds (cfg.key path) e fs') :
    Ready cfg fs₀ fs' idx (paths ++ [path]) where
  built := .snoc h.built hadds
  allocated := by
    intro mfile_subfile hmem
    obtain ⟨path', hpath', data, hdata, hlen⟩ := h.allocated mfile_subfile hmem
    exact ⟨path', hpath', data, hadds.stat_of_some hdata, hlen⟩

theorem Ready.fs_cleanup (h : Ready cfg fs₀ s.fs idx s.created_paths) :
    (createdPathsCleanup cfg s).fs = fs₀ :=
  h.built.undo (removePath_of_adds cfg)

theorem Opened.ready (h : Opened cfg fs₀ s mfile_subfile data)
    (hidx : cfg.subfile_arr[s.cur_file_idx]? = some mfile_subfile)
    (hlen : data.length = mfile_subfile.len.toNat) :
    Ready cfg fs₀ s.fs (s.cur_file_idx + 1) s.created_paths := by
  obtain ⟨path, paths, fs, hpath, -, hpaths, hready, hadds⟩ := h
  have hready' := hready.adds hadds
  rw [hpaths]
  refine ⟨hready'.built, fun mfile_subfile' hmem => ?_⟩
  rw [List.take_add_one, hidx, List.mem_append, Option.toList_some, List.mem_singleton] at hmem
  rcases hmem with hmem | rfl
  -- the files before it were not touched
  · exact hready'.allocated _ hmem
  · exact ⟨path, hpath, data, hadds.stat_self, hlen⟩

/-- Whatever was written, the file is undone with the rest. -/
theorem Opened.fs_cleanup (h : Opened cfg fs₀ s mfile_subfile data) :
    (createdPathsCleanup cfg s).fs = fs₀ := by
  obtain ⟨path, paths, fs, -, -, hpaths, hready, hadds⟩ := h
  have hready' := hready.adds hadds
  rw [← hpaths] at hready'
  exact hready'.fs_cleanup

/-- A write takes effect, and only the content changes. -/
theorem Opened.write (h : Opened cfg fs₀ s mfile_subfile data) (hpath : s.file_aio = some path)
    (off : ℕ) (buf : Datum) :
    ∃ fs', s.fs.write (cfg.key path) off buf = some fs' ∧
      Opened cfg fs₀ { s with fs := fs' } mfile_subfile (writeAt off buf data) := by
  obtain ⟨path', paths, fs, hunx, hpath', hpaths, hready, hadds⟩ := h
  obtain rfl : path' = path := Option.some.inj (hpath'.symm.trans hpath)
  obtain ⟨fs', hwrite, hadds'⟩ := hadds.write off buf
  exact ⟨fs', hwrite, path', paths, fs, hunx, hpath', hpaths, hready, hadds'⟩

/-! ### The invariant -/

/-- The content of a file of `len` bytes, written up to `cur_file_off`. -/
structure Filled (data : Datum) (cur_file_off len : UInt64) : Prop where
  length_le : data.length ≤ cur_file_off.toNat
  off_le : cur_file_off.toNat ≤ len.toNat
  full : cur_file_off = len → data.length = len.toNat

/-- The content of a file of `len` bytes, which is being written up to `cur_file_off`. -/
structure Pending (data : Datum) (file_awrite : FileAwrite) (cur_file_off len : UInt64) :
    Prop where
  length_le : data.length ≤ file_awrite.file_offset.toNat + file_awrite.writtenlen.toNat
  off_add : file_awrite.file_offset.toNat + file_awrite.data2write.length = cur_file_off.toNat
  off_le : cur_file_off.toNat ≤ len.toNat
  written_lt : file_awrite.writtenlen.toNat < file_awrite.data2write.length

variable (cfg)

def Inv (fs₀ : FileTree UInt8 parent) (s : BtAlloc parent) : Prop :=
  match s.call with
  | .launchNextFile => s.cur_file_idx ≤ cfg.subfile_arr.length ∧ s.file_awrite = none ∧
      Ready cfg fs₀ s.fs s.cur_file_idx s.created_paths
  | .launchNextWrite => s.file_awrite = none ∧ ∃ mfile_subfile data,
      cfg.subfile_arr[s.cur_file_idx]? = some mfile_subfile ∧
      Opened cfg fs₀ s mfile_subfile data ∧ Filled data s.cur_file_off mfile_subfile.len
  | .awriteExpire => ∃ mfile_subfile data file_awrite,
      cfg.subfile_arr[s.cur_file_idx]? = some mfile_subfile ∧
      Opened cfg fs₀ s mfile_subfile data ∧ s.file_awrite = some file_awrite ∧
      Pending data file_awrite s.cur_file_off mfile_subfile.len
  | .notified none => Ready cfg fs₀ s.fs cfg.subfile_arr.length s.created_paths
  | .notified (some _) => s.fs = fs₀
  | .aborted => False

/-- The turns the subfiles from `idx` on may take: one for the file, and two for each byte and
for the end. -/
def turnsFrom (idx : ℕ) : ℕ :=
  ((cfg.subfile_arr.drop idx).map fun mfile_subfile => 2 * mfile_subfile.len.toNat + 2).sum

/-- The turns which are left at most. -/
def turns (s : BtAlloc parent) : ℕ :=
  let len := (cfg.subfile_arr[s.cur_file_idx]?).elim 0 fun mfile_subfile => mfile_subfile.len.toNat
  match s.call with
  | .launchNextFile => turnsFrom cfg s.cur_file_idx + 1
  | .launchNextWrite => 2 * (len - s.cur_file_off.toNat) + turnsFrom cfg (s.cur_file_idx + 1) + 2
  | .awriteExpire =>
    let off := s.file_awrite.elim 0 fun file_awrite =>
      file_awrite.file_offset.toNat + file_awrite.writtenlen.toNat
    2 * (len - off) + turnsFrom cfg (s.cur_file_idx + 1) + 1
  | _ => 0

variable {cfg}

omit [DecidableEq κ] in
theorem turnsFrom_eq (hidx : cfg.subfile_arr[idx]? = some mfile_subfile) :
    turnsFrom cfg idx = 2 * mfile_subfile.len.toNat + 2 + turnsFrom cfg (idx + 1) := by
  obtain ⟨hlt, rfl⟩ := List.getElem?_eq_some_iff.1 hidx
  rw [turnsFrom, List.drop_eq_getElem_cons hlt, List.map_cons, List.sum_cons, turnsFrom]

theorem turns_launchNextWrite (hcall : s.call = .launchNextWrite)
    (hidx : cfg.subfile_arr[s.cur_file_idx]? = some mfile_subfile) :
    turns cfg s = 2 * (mfile_subfile.len.toNat - s.cur_file_off.toNat) +
      turnsFrom cfg (s.cur_file_idx + 1) + 2 := by
  rw [turns, hcall, hidx]
  rfl

theorem turns_awriteExpire {file_awrite : FileAwrite} (hcall : s.call = .awriteExpire)
    (hidx : cfg.subfile_arr[s.cur_file_idx]? = some mfile_subfile)
    (hawrite : s.file_awrite = some file_awrite) :
    turns cfg s = 2 * (mfile_subfile.len.toNat -
        (file_awrite.file_offset.toNat + file_awrite.writtenlen.toNat)) +
      turnsFrom cfg (s.cur_file_idx + 1) + 1 := by
  rw [turns, hcall, hidx, hawrite]
  rfl

theorem inv_awriteExpire {file_awrite : FileAwrite} (hcall : s.call = .awriteExpire)
    (hidx : cfg.subfile_arr[s.cur_file_idx]? = some mfile_subfile)
    (hopened : Opened cfg fs₀ s mfile_subfile data) (hawrite : s.file_awrite = some file_awrite)
    (hpending : Pending data file_awrite s.cur_file_off mfile_subfile.len) : Inv cfg fs₀ s := by
  rw [Inv, hcall]
  exact ⟨mfile_subfile, data, file_awrite, hidx, hopened, hawrite, hpending⟩

theorem inv_start (fs₀ : FileTree UInt8 parent) : Inv cfg fs₀ (start fs₀) :=
  ⟨Nat.zero_le _, rfl, .nil, fun mfile_subfile hmem => by cases hmem⟩

/-! ### The notifications -/

theorem inv_failed {bt_err : AllocErr} (h : (createdPathsCleanup cfg s).fs = fs₀) :
    Inv cfg fs₀ (notifyCallbackFailed cfg bt_err s) := h

/-! ### The next file -/

theorem toUnx_of_drvletter {p : FilePath} (h : p.drvletter = []) : ∃ path, p.toUnx = some path :=
  ⟨⟨p, h⟩, dif_pos h⟩

theorem toUnx_of_not_drvletter {p : FilePath} (h : p.drvletter ≠ []) : p.toUnx = none := dif_neg h

/-- The directories are queued as they are made, whether they all are or not. -/
theorem createDirLoop_spec {dir_path : FilePath} (hdrv : dir_path.drvletter = []) {i n : ℕ}
    (hn : i + n ≤ dir_path.size) (h : Ready cfg fs₀ s.fs idx s.created_paths) :
    ∃ bt_err fs created_paths,
      createDirLoop cfg dir_path outcomes i n s = some (bt_err, { s with fs, created_paths }) ∧
        Ready cfg fs₀ fs idx created_paths := by
  induction n generalizing i s with
  | zero => exact ⟨none, s.fs, s.created_paths, rfl, h⟩
  | succ n ih =>
    obtain ⟨subpath, hsubpath, hsub⟩ := FilePath.subpath_of_lt (show i < dir_path.size by omega)
    obtain ⟨path, hpath⟩ := toUnx_of_drvletter (hsub.trans hdrv)
    rw [createDirLoop, hsubpath, Option.bind_eq_bind, Option.bind_some, hpath,
      Option.bind_eq_bind, Option.bind_some]
    cases hstat : s.fs.stat (cfg.key path) with
    | none =>
      -- it is made where there was nothing, which is what the queue is built of
      cases hmkdir : if outcomes.mkdir i then s.fs.mkdir (cfg.key path) else none with
      | none => exact ⟨some .file, s.fs, s.created_paths, rfl, h⟩
      | some fs =>
        have hadds : s.fs.Adds (cfg.key path) .dir fs := by
          split_ifs at hmkdir
          exact FileTree.adds_mkdir hmkdir
        let s' : BtAlloc parent := { s with fs, created_paths := s.created_paths ++ [path] }
        exact @ih s' (i + 1) (by omega) (h.adds hadds)
    | some e =>
      cases e with
      | dir => exact ih (by omega) h
      | file data => exact ⟨some (.notDirectory subpath), s.fs, s.created_paths, rfl, h⟩

omit [DecidableEq κ] in
theorem toNat_firstOff (len : UInt64) : (firstOff cfg len).toNat =
    match cfg.alloc_policy with
    | .FULL => 0
    | .HOLE => len.toNat - 1 := by
  rw [firstOff]
  cases cfg.alloc_policy with
  | FULL => rfl
  | HOLE =>
    show (if len = 0 then 0 else len - 1 : UInt64).toNat = len.toNat - 1
    split_ifs with hlen
    · rw [hlen]
      rfl
    · have hpos : (1 : UInt64).toNat ≤ len.toNat :=
        Nat.pos_of_ne_zero fun hzero => hlen (UInt64.toNat_inj.1 hzero)
      exact UInt64.toNat_sub_of_le _ _ (UInt64.le_iff_toNat_le.2 hpos)

omit [DecidableEq κ] in
/-- Nothing is written yet, and only an empty file is full of it. -/
theorem filled_firstOff (len : UInt64) : Filled [] (firstOff cfg len) len := by
  have hoff := @toNat_firstOff _ cfg len
  refine ⟨Nat.zero_le _, ?_, fun heq => ?_⟩
  · rw [hoff]
    split <;> omega
  · rw [heq] at hoff
    rw [List.length_nil]
    split at hoff <;> omega

theorem createFile_spec {outcomes : Outcomes} (hawrite : s.file_awrite = none)
    (hidx : cfg.subfile_arr[s.cur_file_idx]? = some mfile_subfile)
    (hpath : mfile_subfile.local_path.toUnx = some path)
    (h : Ready cfg fs₀ s.fs s.cur_file_idx s.created_paths) :
    Inv cfg fs₀ (createFile cfg outcomes mfile_subfile path s) ∧
      turns cfg (createFile cfg outcomes mfile_subfile path s) ≤ turnsFrom cfg s.cur_file_idx := by
  rw [createFile]
  cases hstat : s.fs.stat (cfg.key path) with
  | some e => exact ⟨inv_failed h.fs_cleanup, Nat.zero_le _⟩
  | none =>
    rw [if_neg (by simp)]
    cases hopen : if outcomes.openCreate then s.fs.openCreate (cfg.key path) else none with
    | none => exact ⟨inv_failed h.fs_cleanup, Nat.zero_le _⟩
    | some fs =>
      have hadds : s.fs.Adds (cfg.key path) (.file []) fs := by
        split_ifs at hopen
        exact FileTree.adds_openCreate hstat hopen
      refine ⟨⟨hawrite, mfile_subfile, [], hidx, ?_, filled_firstOff _⟩, ?_⟩
      · exact ⟨path, s.created_paths, s.fs, hpath, rfl, rfl, h, hadds⟩
      · dsimp only
        refine le_of_eq_of_le (turns_launchNextWrite rfl hidx) ?_
        rw [turnsFrom_eq hidx]
        dsimp only
        omega

theorem launchNextFile_eq (hidx : cfg.subfile_arr[s.cur_file_idx]? = some mfile_subfile) :
    launchNextFile cfg outcomes s =
      mfile_subfile.local_path.dirname.bind fun dir_path =>
        (createDirLoop cfg dir_path outcomes 0 dir_path.size { s with file_aio := none }).bind
          fun res => match res with
            | (some bt_err, s) => some (notifyCallbackFailed cfg bt_err s)
            | (none, s) =>
              mfile_subfile.local_path.toUnx.map (createFile cfg outcomes mfile_subfile · s) := by
  obtain ⟨hlt, -⟩ := List.getElem?_eq_some_iff.1 hidx
  rw [launchNextFile, if_neg hlt.ne]
  show (cfg.subfile_arr[s.cur_file_idx]?).bind _ = _
  rw [hidx]
  rfl

theorem launchNextFile_spec (outcomes : Outcomes) (hcall : s.call = .launchNextFile) (h : Inv cfg fs₀ s)
    (hproceeds : Proceeds cfg s) :
    ∃ s', launchNextFile cfg outcomes s = some s' ∧ Inv cfg fs₀ s' ∧ turns cfg s' < turns cfg s := by
  rw [Inv, hcall] at h
  obtain ⟨hle, hawrite, hready⟩ := h
  have hturns : turns cfg s = turnsFrom cfg s.cur_file_idx + 1 := by rw [turns, hcall]
  rw [hturns]
  rcases hle.eq_or_lt with hend | hlt
  · rw [launchNextFile, if_pos hend]
    refine ⟨_, rfl, ?_, Nat.succ_pos _⟩
    rw [hend] at hready
    exact hready
  · have hidx := List.getElem?_eq_getElem hlt
    rw [Proceeds, hcall] at hproceeds
    obtain ⟨hnull, hdrv⟩ := hproceeds _ hidx
    obtain ⟨dir_path, hdir, hdirdrv⟩ := FilePath.dirname_of_not_null hnull
    obtain ⟨path, hpath⟩ := toUnx_of_drvletter hdrv
    let s₁ : BtAlloc parent := { s with file_aio := none }
    obtain ⟨bt_err, fs, created_paths, heq, hready'⟩ :=
      @createDirLoop_spec _ _ _ cfg fs₀ s₁ outcomes _ _ (hdirdrv.trans hdrv) 0 dir_path.size
        (by omega) hready
    rw [launchNextFile_eq hidx, hdir, Option.bind_some, heq, Option.bind_some]
    cases bt_err with
    | some bt_err => exact ⟨_, rfl, inv_failed hready'.fs_cleanup, Nat.succ_pos _⟩
    | none =>
      obtain ⟨hinv, hlt⟩ :=
        @createFile_spec _ _ _ cfg fs₀ { s₁ with fs, created_paths } path _ outcomes
          hawrite hidx hpath hready'
      exact ⟨_, by rw [hpath]; rfl, hinv, Nat.lt_succ_of_le hlt⟩

theorem createDirLoop_eq_none {dir_path : FilePath} (hdrv : dir_path.drvletter ≠ []) {i n : ℕ}
    (hn : i + (n + 1) ≤ dir_path.size) : createDirLoop cfg dir_path outcomes i (n + 1) s = none := by
  obtain ⟨subpath, hsubpath, hsub⟩ := FilePath.subpath_of_lt (show i < dir_path.size by omega)
  rw [createDirLoop, hsubpath]
  show (subpath.toUnx.bind _) = none
  rw [toUnx_of_not_drvletter (by rwa [hsub])]
  rfl

theorem launchNextFile_eq_none (hcall : s.call = .launchNextFile) (hproceeds : ¬Proceeds cfg s) :
    launchNextFile cfg outcomes s = none := by
  rw [Proceeds, hcall] at hproceeds
  push Not at hproceeds
  obtain ⟨mfile_subfile, hidx, hnot⟩ := hproceeds
  rw [launchNextFile_eq hidx]
  cases hnull : mfile_subfile.local_path.isNull with
  | true =>
    rw [FilePath.dirname_of_null hnull]
    rfl
  | false =>
    obtain ⟨dir_path, hdir, hdirdrv⟩ := FilePath.dirname_of_not_null hnull
    have hdrv := hnot hnull
    rw [← hdirdrv] at hdrv
    obtain ⟨n, hn⟩ := Nat.exists_eq_add_one.2 dir_path.size_pos
    rw [hdir, Option.bind_some, hn, createDirLoop_eq_none hdrv (by omega)]
    rfl

/-! ### The next write -/

theorem toNat_min (a b : UInt64) : (min a b).toNat = min a.toNat b.toNat := by
  show (if a ≤ b then a else b : UInt64).toNat = _
  rw [min_def]
  simp only [UInt64.le_iff_toNat_le]
  split_ifs <;> rfl

theorem launchNextWrite_eq (hidx : cfg.subfile_arr[s.cur_file_idx]? = some mfile_subfile)
    (hopened : Opened cfg fs₀ s mfile_subfile data) (hawrite : s.file_awrite = none)
    (hoff : s.cur_file_off < mfile_subfile.len) :
    launchNextWrite cfg s = some (launchAwrite cfg mfile_subfile s) := by
  obtain ⟨path, -, -, -, hfile_aio, -⟩ := hopened
  rw [launchNextWrite, hidx, Option.bind_eq_bind, Option.bind_some, if_neg (UInt64.not_le.2 hoff),
    hawrite, hfile_aio, if_neg (by simp)]

/-- A `file_awrite_t` which was just started. -/
theorem launchAwrite_spec (hidx : cfg.subfile_arr[s.cur_file_idx]? = some mfile_subfile)
    (hopened : Opened cfg fs₀ s mfile_subfile data)
    (hfilled : Filled data s.cur_file_off mfile_subfile.len)
    (hoff : s.cur_file_off < mfile_subfile.len) (hmaxlen : cfg.write_chunk_maxlen ≠ 0) :
    Inv cfg fs₀ (launchAwrite cfg mfile_subfile s) ∧
      turns cfg (launchAwrite cfg mfile_subfile s) + 1 =
        2 * (mfile_subfile.len.toNat - s.cur_file_off.toNat) +
          turnsFrom cfg (s.cur_file_idx + 1) + 2 := by
  have hofflt := UInt64.lt_iff_toNat_lt.1 hoff
  have hlen := mfile_subfile.len.toNat_lt
  have hmax := Nat.pos_of_ne_zero fun hzero => hmaxlen (UInt64.toNat_inj.1 hzero)
  set datalen := min (mfile_subfile.len - s.cur_file_off) cfg.write_chunk_maxlen with hdatalen
  have hdata : datalen.toNat =
      min (mfile_subfile.len.toNat - s.cur_file_off.toNat) cfg.write_chunk_maxlen.toNat := by
    rw [hdatalen, toNat_min, UInt64.toNat_sub_of_le _ _ (UInt64.le_iff_toNat_le.2 hofflt.le)]
  have hadd : (s.cur_file_off + datalen).toNat = s.cur_file_off.toNat + datalen.toNat := by
    rw [UInt64.toNat_add, Nat.mod_eq_of_lt (by omega)]
  refine ⟨⟨mfile_subfile, data, _, hidx, hopened, rfl, hfilled.length_le, ?_, ?_, ?_⟩, ?_⟩
  · rw [List.length_replicate]
    exact hadd.symm
  · show (s.cur_file_off + datalen).toNat ≤ _
    omega
  · rw [List.length_replicate]
    show 0 < datalen.toNat
    omega
  · exact congrArg (· + 1)
      (turns_awriteExpire (s := launchAwrite cfg mfile_subfile s) rfl hidx rfl)

theorem launchNextWrite_spec (hcall : s.call = .launchNextWrite) (h : Inv cfg fs₀ s)
    (hproceeds : Proceeds cfg s) :
    ∃ s', launchNextWrite cfg s = some s' ∧ Inv cfg fs₀ s' ∧ turns cfg s' < turns cfg s := by
  rw [Inv, hcall] at h
  obtain ⟨hawrite, mfile_subfile, data, hidx, hopened, hfilled⟩ := h
  rw [Proceeds, hcall] at hproceeds
  have hturns := turns_launchNextWrite hcall hidx
  by_cases hend : mfile_subfile.len ≤ s.cur_file_off
  · have hfull := hfilled.full <| UInt64.toNat_inj.1 <|
      Nat.le_antisymm hfilled.off_le (UInt64.le_iff_toNat_le.1 hend)
    obtain ⟨hlt, -⟩ := List.getElem?_eq_some_iff.1 hidx
    rw [launchNextWrite, hidx, Option.bind_eq_bind, Option.bind_some, if_pos hend]
    refine ⟨_, rfl, ⟨hlt, hawrite, hopened.ready hidx hfull⟩, ?_⟩
    show turnsFrom cfg (s.cur_file_idx + 1) + 1 < _
    omega
  · have hoff := UInt64.not_le.1 hend
    obtain ⟨hinv, hlt⟩ := launchAwrite_spec hidx hopened hfilled hoff (hproceeds _ hidx hoff)
    exact ⟨_, launchNextWrite_eq hidx hopened hawrite hoff, hinv, by omega⟩

/-! ### The writes -/

/-- The lengths of an iteration. -/
structure Iteration (file_awrite : FileAwrite) (offset iterlen : UInt64) (buf : Datum) : Prop where
  offset_eq : offset.toNat = file_awrite.file_offset.toNat + file_awrite.writtenlen.toNat
  written_eq : (file_awrite.writtenlen + iterlen).toNat =
    file_awrite.writtenlen.toNat + iterlen.toNat
  length_buf : buf.length = iterlen.toNat
  written_le : file_awrite.writtenlen.toNat + iterlen.toNat ≤ file_awrite.data2write.length
  pos : 0 < iterlen.toNat

section Pending

variable {file_awrite : FileAwrite} {cur_file_off len offset iterlen : UInt64} {buf : Datum}

theorem Pending.iteration (h : Pending data file_awrite cur_file_off len) :
    Iteration file_awrite (file_awrite.file_offset + file_awrite.writtenlen)
      (min (UInt64.ofNat file_awrite.data2write.length - file_awrite.writtenlen) AWRITE_ITERLEN)
      ((file_awrite.data2write.drop file_awrite.writtenlen.toNat).take
        (min (UInt64.ofNat file_awrite.data2write.length - file_awrite.writtenlen)
          AWRITE_ITERLEN).toNat) := by
  have hoff := h.off_add
  have hlt := h.written_lt
  have hcur := cur_file_off.toNat_lt
  have hdata : (UInt64.ofNat file_awrite.data2write.length).toNat =
      file_awrite.data2write.length := UInt64.toNat_ofNat_of_lt' (show _ < 2 ^ 64 by omega)
  set iterlen := min (UInt64.ofNat file_awrite.data2write.length - file_awrite.writtenlen)
    AWRITE_ITERLEN with hiter
  have hiterlen : iterlen.toNat =
      min (file_awrite.data2write.length - file_awrite.writtenlen.toNat) AWRITE_ITERLEN.toNat := by
    rw [hiter, toNat_min, UInt64.toNat_sub_of_le _ _ (UInt64.le_iff_toNat_le.2 (by omega)), hdata]
  have hmax : AWRITE_ITERLEN.toNat = 524288 := rfl
  refine ⟨?_, ?_, ?_, by omega, by omega⟩
  · rw [UInt64.toNat_add, Nat.mod_eq_of_lt (by omega)]
  · rw [UInt64.toNat_add, Nat.mod_eq_of_lt (by omega)]
  · rw [List.length_take, List.length_drop]
    omega

/-- The content after an iteration, whether the write is complete or not. -/
theorem Pending.length_writeAt (h : Pending data file_awrite cur_file_off len)
    (hiter : Iteration file_awrite offset iterlen buf) :
    (writeAt offset.toNat buf data).length = offset.toNat + iterlen.toNat := by
  have hbuf : buf ≠ [] := by
    rw [← List.length_pos_iff, hiter.length_buf]
    exact hiter.pos
  have hle := h.length_le
  rw [← hiter.offset_eq] at hle
  rw [Neoip.length_writeAt hbuf hle, hiter.length_buf]

/-- A write which is complete. -/
theorem Pending.filled (h : Pending data file_awrite cur_file_off len)
    (hiter : Iteration file_awrite offset iterlen buf)
    (hend : file_awrite.writtenlen.toNat + iterlen.toNat = file_awrite.data2write.length) :
    Filled (writeAt offset.toNat buf data) cur_file_off len := by
  have hadd := h.off_add
  have hoffset := hiter.offset_eq
  have hlength := h.length_writeAt hiter
  refine ⟨by omega, h.off_le, ?_⟩
  rintro rfl
  omega

/-- A write which goes on. -/
theorem Pending.next (h : Pending data file_awrite cur_file_off len)
    (hiter : Iteration file_awrite offset iterlen buf)
    (hend : file_awrite.writtenlen.toNat + iterlen.toNat ≠ file_awrite.data2write.length) :
    Pending (writeAt offset.toNat buf data)
      { file_awrite with writtenlen := file_awrite.writtenlen + iterlen } cur_file_off len := by
  have hle := hiter.written_le
  have hwritten := hiter.written_eq
  have hoffset := hiter.offset_eq
  have hlength := h.length_writeAt hiter
  refine ⟨?_, h.off_add, h.off_le, ?_⟩
  · show _ ≤ file_awrite.file_offset.toNat + (file_awrite.writtenlen + iterlen).toNat
    omega
  · show (file_awrite.writtenlen + iterlen).toNat < file_awrite.data2write.length
    omega

end Pending

theorem awriteIter_spec {file_awrite : FileAwrite} (outcomes : Outcomes)
    (hcall : s.call = .awriteExpire)
    (hidx : cfg.subfile_arr[s.cur_file_idx]? = some mfile_subfile)
    (hopened : Opened cfg fs₀ s mfile_subfile data) (hawrite : s.file_awrite = some file_awrite)
    (hpending : Pending data file_awrite s.cur_file_off mfile_subfile.len)
    (hfile_aio : s.file_aio = some path) :
    Inv cfg fs₀ (awriteIter cfg outcomes file_awrite path s) ∧
      turns cfg (awriteIter cfg outcomes file_awrite path s) < turns cfg s := by
  have hturns := turns_awriteExpire hcall hidx hawrite
  have hiter := hpending.iteration
  rw [awriteIter]
  set iterlen := min (UInt64.ofNat file_awrite.data2write.length - file_awrite.writtenlen)
    AWRITE_ITERLEN
  set buf := (file_awrite.data2write.drop file_awrite.writtenlen.toNat).take iterlen.toNat
  set offset := file_awrite.file_offset + file_awrite.writtenlen
  cases outcomes.write with
  | some writeres =>
    -- whatever was written, the file is the last one of the queue and goes with it
    obtain ⟨fs', hwrite, hopened'⟩ := hopened.write hfile_aio offset.toNat (buf.take writeres)
    have hclean := hopened'.fs_cleanup
    dsimp only
    rw [hwrite]
    exact ⟨inv_failed hclean, by rw [hturns]; exact Nat.succ_pos _⟩
  | none =>
    obtain ⟨fs', hwrite, hopened'⟩ := hopened.write hfile_aio offset.toNat buf
    have hadd := hpending.off_add
    have hle := hpending.off_le
    have hoffset := hiter.offset_eq
    have hwritten := hiter.written_eq
    have hwrittenle := hiter.written_le
    have hpos := hiter.pos
    let s' : BtAlloc parent :=
      { s with
        fs := fs'
        file_awrite := some { file_awrite with writtenlen := file_awrite.writtenlen + iterlen } }
    dsimp only
    rw [hwrite]
    show Inv cfg fs₀ (if _ then neoipFileAwriteCb cfg false s' else s') ∧
      turns cfg (if _ then neoipFileAwriteCb cfg false s' else s') < _
    -- the turns left: `iterlen` bytes less, and one call of `launch_next_write` at the end
    by_cases hend : file_awrite.writtenlen.toNat + iterlen.toNat = file_awrite.data2write.length
    · rw [if_pos (hwritten.trans hend), hturns,
        turns_launchNextWrite (s := neoipFileAwriteCb cfg false s') rfl hidx]
      refine ⟨⟨rfl, mfile_subfile, _, hidx, hopened', hpending.filled hiter hend⟩, ?_⟩
      show 2 * (mfile_subfile.len.toNat - s.cur_file_off.toNat) +
        turnsFrom cfg (s.cur_file_idx + 1) + 2 < _
      omega
    · rw [if_neg (by omega), hturns, turns_awriteExpire (s := s') hcall hidx rfl]
      refine ⟨inv_awriteExpire (s := s') hcall hidx hopened' rfl (hpending.next hiter hend), ?_⟩
      show 2 * (mfile_subfile.len.toNat - (file_awrite.file_offset.toNat +
        (file_awrite.writtenlen + iterlen).toNat)) + turnsFrom cfg (s.cur_file_idx + 1) + 1 < _
      omega

theorem awriteExpire_eq (cfg : AllocCfg κ) (outcomes : Outcomes) {file_awrite : FileAwrite}
    (hawrite : s.file_awrite = some file_awrite) (hfile_aio : s.file_aio = some path)
    (hoff : (file_awrite.file_offset + file_awrite.writtenlen).toNat < 2 ^ 63) :
    awriteExpire cfg outcomes s = some (awriteIter cfg outcomes file_awrite path s) := by
  rw [awriteExpire, hawrite, hfile_aio]
  exact if_pos hoff

theorem awriteExpire_spec (outcomes : Outcomes) (hcall : s.call = .awriteExpire) (h : Inv cfg fs₀ s)
    (hproceeds : Proceeds cfg s) :
    ∃ s', awriteExpire cfg outcomes s = some s' ∧ Inv cfg fs₀ s' ∧ turns cfg s' < turns cfg s := by
  rw [Inv, hcall] at h
  obtain ⟨mfile_subfile, data, file_awrite, hidx, hopened, hawrite, hpending⟩ := h
  rw [Proceeds, hcall] at hproceeds
  obtain ⟨path, -, -, -, hfile_aio, -⟩ := id hopened
  exact ⟨_, awriteExpire_eq cfg outcomes hawrite hfile_aio (hproceeds _ hawrite),
    awriteIter_spec outcomes hcall hidx hopened hawrite hpending hfile_aio⟩

theorem awriteExpire_eq_none (hcall : s.call = .awriteExpire) (hproceeds : ¬Proceeds cfg s) :
    awriteExpire cfg outcomes s = none := by
  rw [Proceeds, hcall] at hproceeds
  push Not at hproceeds
  obtain ⟨file_awrite, hawrite, hnot⟩ := hproceeds
  rw [awriteExpire, hawrite]
  cases s.file_aio with
  | none => rfl
  | some path => exact if_neg (Nat.not_lt.2 hnot)

end Neoip.BtAlloc
