/-
Neoip/FileIoSfile.lean

`bt_io_sfile_t`: the total file in its subfiles.

The parts of a range are the `bt_iov_t` which `get_iov_arr` returns.  A write opens
the files without creating them, so they must be there, and `remove` is not
possible.

Main result: `Sfile.subfiles_refine`, against a byte store.
-/
import Neoip.FileIoAtomic
import Neoip.Iov

namespace Neoip

open Iov (BtIov Range lens total)

/-! ### Places in a concatenation -/

/-- The list which the item `x` of the concatenation is in, and where. -/
def locate : List ℕ → ℕ → ℕ × ℕ
  | [], x => (0, x)
  | len :: lens, x =>
    if x < len then (0, x) else ((locate lens (x - len)).1 + 1, (locate lens (x - len)).2)

section locate

variable {lens : List ℕ} {x y : ℕ}

theorem locate_lt (hx : x < lens.sum) : (locate lens x).1 < lens.length := by
  induction lens generalizing x with
  | nil => exact absurd hx (Nat.not_lt_zero x)
  | cons len lens ih =>
    rw [locate]
    rw [List.sum_cons] at hx
    split_ifs with h
    · exact Nat.succ_pos _
    · exact Nat.succ_lt_succ (ih (by omega))

theorem locate_inj (hx : x < lens.sum) (hy : y < lens.sum) (h : locate lens x = locate lens y) :
    x = y := by
  induction lens generalizing x y with
  | nil => exact absurd hx (Nat.not_lt_zero x)
  | cons len lens ih =>
    rw [List.sum_cons] at hx hy
    rw [locate, locate] at h
    split_ifs at h with hx' hy' hy'
    · exact (Prod.mk.inj h).2
    · exact absurd (Prod.mk.inj h).1 (by simp)
    · exact absurd (Prod.mk.inj h).1 (by simp)
    · obtain ⟨h1, h2⟩ := Prod.mk.inj h
      have := ih (by omega) (by omega) (Prod.ext (Nat.succ_injective h1) h2)
      omega

/-- The places of each list, from the list `idx` on. -/
def placeLists (idx : ℕ) : List ℕ → List (List (ℕ × ℕ))
  | [] => []
  | len :: lens => ((List.range len).map fun off => (idx, off)) :: placeLists (idx + 1) lens

theorem map_length_placeLists (idx : ℕ) : (placeLists idx lens).map List.length = lens := by
  induction lens generalizing idx with
  | nil => rfl
  | cons len lens ih => rw [placeLists, List.map_cons, List.length_map, List.length_range, ih]

theorem getElem?_placeLists (idx i : ℕ) : (placeLists idx lens)[i]? =
    lens[i]?.map fun len => (List.range len).map fun off => (idx + i, off) := by
  induction lens generalizing idx i with
  | nil => rfl
  | cons len lens ih =>
    cases i with
    | zero => rfl
    | succ i =>
      rw [placeLists, List.getElem?_cons_succ, List.getElem?_cons_succ, ih, Nat.add_right_comm]
      rfl

/-- Together they are the places of the concatenation. -/
theorem flatten_placeLists (idx : ℕ) : (placeLists idx lens).flatten =
    (List.range lens.sum).map fun x => (idx + (locate lens x).1, (locate lens x).2) := by
  induction lens generalizing idx with
  | nil => rfl
  | cons len lens ih =>
    rw [placeLists, List.flatten_cons, ih, List.sum_cons, List.range_add, List.map_append,
      List.map_map]
    congr 1
    · refine List.map_congr_left fun x hx => ?_
      rw [locate, if_pos (List.mem_range.1 hx)]
      rfl
    · refine List.map_congr_left fun x _ => ?_
      show _ = (idx + (locate (len :: lens) (len + x)).1, (locate (len :: lens) (len + x)).2)
      rw [locate, if_neg (by omega), Nat.add_sub_cancel_left, Nat.add_right_comm]
      rfl

end locate

/-! ### The layout -/

/-- What a `bt_io_sfile_t` is started with: `is_sfile_ok()`, the sizes are acceptable, and no two
subfiles have one local path, which nothing checks. -/
structure Sfile where
  subfile_arr : List Subfile
  /-- The string which the `local_path()` of a subfile is opened by. -/
  local_path : ℕ → Datum
  local_path_inj : ∀ i < subfile_arr.length, ∀ j < subfile_arr.length,
    local_path i = local_path j → i = j
  pos : 0 < total subfile_arr
  le_max : total subfile_arr ≤ fileSizeMax.toNat

namespace Sfile

/-- The part of a `bt_iov_t`. -/
def ofIov (iov : BtIov) : FilePart where
  idx := iov.subfile_idx
  offset := iov.subfile_range.beg.toNat
  length := iov.subfile_range.last.toNat - iov.subfile_range.beg.toNat + 1

/-- `get_iov_arr` of the file. -/
def iovArr (subfile_arr : List Subfile) (r : FileRange) : List BtIov :=
  ((Iov.completeInit subfile_arr).bind fun mfile =>
    Iov.getIovArr mfile ⟨UInt64.ofNat r.beg, UInt64.ofNat r.last⟩).getD []

theorem places_ofIov {lens : List ℕ} {iov : BtIov} {len : ℕ}
    (hlen : lens[iov.subfile_idx]? = some len) (hlt : iov.subfile_range.last.toNat < len)
    (hle : iov.subfile_range.beg.toNat ≤ iov.subfile_range.last.toNat) :
    (ofIov iov).places = Extent.slice (placeLists 0 lens) iov.extent := by
  have hlist : (placeLists 0 lens)[iov.extent.idx]?.getD [] =
      (List.range len).map fun off => (iov.subfile_idx, off) := by
    rw [getElem?_placeLists]
    show (Option.map _ lens[iov.subfile_idx]?).getD [] = _
    rw [hlen, Nat.zero_add]
    rfl
  rw [Extent.slice, hlist, FilePart.places]
  refine List.ext_getElem? fun i => ?_
  show _ = (List.drop iov.subfile_range.beg.toNat
    (List.take (iov.subfile_range.last.toNat + 1) _))[i]?
  rw [List.getElem?_drop, List.getElem?_map, List.getElem?_take]
  rcases Nat.lt_or_ge i (ofIov iov).length with hi | hi
  · have hi' : i < iov.subfile_range.last.toNat - iov.subfile_range.beg.toNat + 1 := hi
    rw [List.getElem?_range hi, if_pos (by omega), List.getElem?_map,
      List.getElem?_range (by omega)]
    rfl
  · have hi' : iov.subfile_range.last.toNat - iov.subfile_range.beg.toNat + 1 ≤ i := hi
    rw [List.getElem?_eq_none (by rw [List.length_range]; exact hi), if_neg (by omega)]
    rfl

/-- The parts of a range are its bytes. -/
theorem flatMap_iovArr {subfile_arr : List Subfile} {r : FileRange}
    (hmax : total subfile_arr ≤ fileSizeMax.toNat) (hr : r.last < total subfile_arr) :
    ((iovArr subfile_arr r).map ofIov).flatMap FilePart.places =
      (List.range r.len).map fun i => locate (lens subfile_arr) (r.beg + i) := by
  have hle := r.le
  rw [fileSizeMax_toNat] at hmax
  have hbeg : (UInt64.ofNat r.beg).toNat = r.beg :=
    UInt64.toNat_ofNat_of_lt' (show _ < 2 ^ 64 by omega)
  have hlast : (UInt64.ofNat r.last).toNat = r.last :=
    UInt64.toNat_ofNat_of_lt' (show _ < 2 ^ 64 by omega)
  obtain ⟨⟨mfile, iov_arr, hinit, hget, hdesignates⟩, -⟩ :=
    @Iov.get_iov_arr_designates subfile_arr ⟨UInt64.ofNat r.beg, UInt64.ofNat r.last⟩
      (by rw [fileSizeMax_toNat]; exact hmax)
      (UInt64.le_iff_toNat_le.2 (by rw [hbeg, hlast]; exact hle)) (by rw [hlast]; exact hr)
  have harr : iovArr subfile_arr r = iov_arr := by
    rw [iovArr, hinit, Option.bind_some, hget]
    rfl
  have hcovers := hdesignates.covers
  rw [hbeg, hlast] at hcovers
  rw [harr, List.flatMap_map]
  -- each part is what its extent designates
  have hslice : iov_arr.flatMap (fun iov => (ofIov iov).places) =
      (iov_arr.map BtIov.extent).flatMap (Extent.slice (placeLists 0 (lens subfile_arr))) := by
    rw [List.flatMap_map]
    refine List.flatMap_congr fun iov hiov => ?_
    have hmem := List.mem_map_of_mem (f := BtIov.extent) hiov
    obtain ⟨len, hlen, hlt⟩ := hcovers.within _ hmem
    exact places_ofIov hlen hlt (hcovers.nonempty _ hmem)
  rw [hslice, hcovers.content _ (map_length_placeLists 0), flatten_placeLists]
  refine List.ext_getElem? fun i => ?_
  have hlen : r.len = r.last - r.beg + 1 := rfl
  have hr' : r.last < (lens subfile_arr).sum := hr
  rw [List.getElem?_drop, List.getElem?_take, List.getElem?_map]
  rcases Nat.lt_or_ge i r.len with hi | hi
  · rw [if_pos (by omega), List.getElem?_map, List.getElem?_range (by omega),
      List.getElem?_range hi]
    simp only [Nat.zero_add, Option.map_some]
  · rw [if_neg (by omega), List.getElem?_eq_none
      (by rw [List.length_map, List.length_range]; exact hi)]

variable (c : Sfile) {r : FileRange}

theorem len_le (h : r.last < total c.subfile_arr) : r.len ≤ total c.subfile_arr := by
  have hle := r.le
  rw [FileRange.len]
  omega

theorem places_iovArr (h : r.last < total c.subfile_arr) :
    ((iovArr c.subfile_arr r).map ofIov).flatMap FilePart.places =
      (List.range r.len).map fun i =>
        locate (lens c.subfile_arr) ((r.beg + i) % total c.subfile_arr) := by
  have hle := r.le
  rw [flatMap_iovArr c.le_max h]
  apply List.map_congr_left
  intro i hi
  have hi' : i < r.last - r.beg + 1 := List.mem_range.1 hi
  rw [Nat.mod_eq_of_lt (by omega)]

/-- The files of a `bt_io_sfile_t`. -/
def layout : FileLayout Datum where
  totfile_size := total c.subfile_arr
  size_pos := c.pos
  nb_file := c.subfile_arr.length
  filepath := c.local_path
  filepath_inj := c.local_path_inj
  place := locate (lens c.subfile_arr)
  place_lt x hx := by
    have h := locate_lt hx
    rwa [List.length_map] at h
  place_inj x hx y hy h := locate_inj hx hy h
  creates := false
  accepts r := r.last < total c.subfile_arr
  part_arr r := (iovArr c.subfile_arr r).map ofIov
  len_le _ hr := c.len_le (of_decide_eq_true hr)
  part_pos r hr part hpart := by
    obtain ⟨iov, -, rfl⟩ := List.mem_map.1 hpart
    exact Nat.succ_pos _
  places _ hr := c.places_iovArr (of_decide_eq_true hr)
  -- it is impossible to remove a part of a file
  removes _ := none
  removes_lt := by rintro r l ⟨⟩
  removes_whole := by rintro r l ⟨⟩

/-! ### The run of a store -/

/-- Two subfiles, of two and three bytes. -/
def pair : Sfile where
  subfile_arr := [⟨FilePath.null, 2⟩, ⟨FilePath.null, 3⟩]
  local_path idx := List.replicate idx 97
  local_path_inj _ _ _ _ h := List.replicate_left_injective (97 : UInt8) h
  pos := by decide
  le_max := by decide

/-- The io vectors of a range: nothing is left to sort. -/
theorem iovArr_pair {r : FileRange} {iov_arr : List BtIov}
    (hwalk : Iov.iovLoop (Iov.precpu pair.subfile_arr) ⟨UInt64.ofNat r.beg, UInt64.ofNat r.last⟩ []
      (Iov.startAt (UInt64.ofNat r.beg) (Iov.precpu pair.subfile_arr).subfile_db) = some iov_arr)
    (hnull : ∀ iov ∈ iov_arr, iov.isNull = false)
    (hidx : iov_arr.Pairwise fun a b => a.subfile_idx < b.subfile_idx) :
    iovArr pair.subfile_arr r = iov_arr := by
  have hchecks : Iov.equal (Iov.sort iov_arr) iov_arr = true ∧ Iov.equal iov_arr iov_arr = true := by
    rw [Iov.sort_eq hnull hidx]
    exact ⟨Iov.equal_self, Iov.equal_self⟩
  have hget : Iov.getIovArr (Iov.precpu pair.subfile_arr)
      ⟨UInt64.ofNat r.beg, UInt64.ofNat r.last⟩ = some iov_arr := by
    rw [Iov.getIovArr, if_neg (by decide), hwalk]
    show (Iov.reduce iov_arr >>= _) = _
    rw [Iov.reduce_eq hidx]
    exact if_pos hchecks
  rw [iovArr, Iov.completeInit_eq pair.le_max, Option.bind_some, hget, Option.getD_some]

variable (profile : FileAioProfile)

/-- **The subfiles are a byte store**: in every run in which no operation begins on the bytes of
another one which is not over, unless both are reads, each read which succeeds has the bytes of its
range, as they were written last, and each write which succeeds has written all its bytes; what
a write which fails, or is deleted, leaves is a prefix of its data. -/
theorem subfiles_refine (fs : FileSys Datum UInt8) (evs : List IoEvent)
    (h : Guarded (FileIo.step c.layout profile) (FileIo.NoOverlap c.layout) (FileIo.init fs) evs) :
    (run (FileIo.step c.layout profile) (FileIo.init fs) evs).Refines c.layout (c.layout.byte fs) :=
  (FileIo.inv_run h).refines

/-- A write which spans both, a read of the byte before it while it is under way, and a read of
both. -/
theorem subfiles_refine_pair :
    let fs : FileSys Datum UInt8 := (FileSys.empty.create []).create [97]
    let evs : List IoEvent := [.write_ctor ⟨1, 4, by decide⟩ [6, 7, 8, 9] true,
      .zerotimer 0 (some 2) true, .read_ctor ⟨0, 0, by decide⟩ true, .zerotimer 0 (some 2) true,
      .zerotimer 1 (some 2) true, .zerotimer 0 (some 2) true,
      .read_ctor ⟨0, 3, by decide⟩ true, .zerotimer 2 (some 2) true, .zerotimer 2 (some 2) true]
    let s := run (FileIo.step pair.layout ⟨2, 2⟩) (FileIo.init fs) evs
    s.Refines pair.layout (pair.layout.byte fs) ∧
      s.log = [.read 2 ⟨0, 3, by decide⟩ .OK [0, 6, 7, 8],
        .written 0 ⟨1, 4, by decide⟩ [6, 7, 8, 9] 4 .OK, .read 1 ⟨0, 0, by decide⟩ .OK [0]] := by
  have hwrite : pair.layout.part_arr ⟨1, 4, by decide⟩ = [⟨0, 1, 1⟩, ⟨1, 0, 3⟩] :=
    congrArg (List.map ofIov) (@iovArr_pair ⟨1, 4, by decide⟩ [⟨0, ⟨1, 1⟩⟩, ⟨1, ⟨0, 2⟩⟩]
      (by decide +kernel) (by decide) (by decide))
  have hread : pair.layout.part_arr ⟨0, 3, by decide⟩ = [⟨0, 0, 2⟩, ⟨1, 0, 2⟩] :=
    congrArg (List.map ofIov) (@iovArr_pair ⟨0, 3, by decide⟩ [⟨0, ⟨0, 1⟩⟩, ⟨1, ⟨0, 1⟩⟩]
      (by decide +kernel) (by decide) (by decide))
  have hfirst : pair.layout.part_arr ⟨0, 0, by decide⟩ = [⟨0, 0, 1⟩] :=
    congrArg (List.map ofIov) (@iovArr_pair ⟨0, 0, by decide⟩ [⟨0, ⟨0, 0⟩⟩]
      (by decide +kernel) (by decide) (by decide))
  refine ⟨subfiles_refine pair ⟨2, 2⟩ _ _ ?_, ?_⟩
  · simp only [guarded_cons, FileIo.step, FileIo.writeCtor, FileIo.readCtor, hwrite, hread, hfirst]
    decide +kernel
  · simp only [run_cons, FileIo.step, FileIo.writeCtor, FileIo.readCtor, hwrite, hread, hfirst]
    decide +kernel

end Sfile

end Neoip
