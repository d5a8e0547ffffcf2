/-
Neoip/LocalDir.lean

Where the subfiles of a torrent are put: `set_file_local_dir`.

The names come from the torrent.  They are joined to the local directory, and the
path is put in normal form: a parent `..` takes a name of the directory back, and an
absolute path is one from the root when there is nothing before it.  As walks, the
path of the torrent goes on from the directory; it stays in it exactly when it goes
down again along all that it takes back.

Main result: `localDir_iff`.
-/
import Neoip.FilePathWalk
import Neoip.Metainfo

namespace Neoip

namespace FilePath

/-- A path which is the directory followed by at least one name, and no parent. -/
structure Holds (dirname local_path : FilePath) : Prop where
  drvletter : local_path.drvletter = dirname.drvletter
  names : ∃ names, names ≠ [] ∧ (∀ name ∈ names, IsName name) ∧
    local_path.name_db = dirname.dirNames ++ names

/-- The path of a torrent, its top directory `top` and then `path`, stays in the directory
`dirname`: it has no drive letter and no root of its own where the directory leaves this open,
and it goes down again along the names it takes back, and further. -/
structure Enters (dirname top path : FilePath) : Prop where
  drvletter : dirname.isNull = true →
    top.drvletter = [] ∧ (top.isNull = true → path.drvletter = [])
  relative : dirname.isAbsolute = false → (dirname.walk = 1 → top.isAbsolute = false) ∧
    (dirname.walk * top.walk = 1 → path.isAbsolute = false)
  within : dirname.isAbsolute = false → (top.walk * path.walk).up ≤ dirname.walk.down.length
  names : ∃ rest, rest ≠ [] ∧ (top.walk * path.walk).down =
    dirname.walk.down.drop (dirname.walk.down.length - (top.walk * path.walk).up) ++ rest

variable {dirname local_path top path : FilePath}

/-- To be held by a directory, as walks. -/
theorem holds_iff : dirname.Holds local_path ↔
    local_path.drvletter = dirname.drvletter ∧ local_path.isAbsolute = dirname.isAbsolute ∧
      local_path.walk.up = dirname.walk.up ∧
        ∃ rest, rest ≠ [] ∧ local_path.walk.down = dirname.walk.down ++ rest := by
  have hdir := dirNames_eq dirname
  constructor
  -- the names below the directory are the last ones of the walk
  · rintro ⟨hdrv, names, hne, hnames, heq⟩
    have hwalk : local_path.walk = dirname.walk * ⟨0, names⟩ := by
      rw [walk, heq, walkOf_append, walkOf_down hnames, dirNames, walkOf_filter_placeholder]
      rfl
    refine ⟨hdrv, ?_, ?_, names, hne, ?_⟩
    · rw [isAbsolute, heq, hdir]
      cases habs : dirname.isAbsolute with
      | true => rfl
      | false =>
        apply decide_eq_false
        intro hhead
        have hmem := List.mem_of_mem_head? hhead
        rw [if_neg Bool.false_ne_true, List.append_assoc] at hmem
        rcases List.mem_append.1 hmem with hmem | hmem
        · exact absurd (List.eq_of_mem_replicate hmem) (by decide)
        · rcases List.mem_append.1 hmem with hmem | hmem
          · exact (isName_of_mem_walk hmem).1 rfl
          · exact (hnames [] hmem).1 rfl
    · rw [hwalk, Walk.mul_up_eq_iff]
      exact Nat.zero_le _
    · rw [hwalk, Walk.mul_down_eq_append_iff, Nat.sub_zero, List.drop_length]
      rfl
  · rintro ⟨hdrv, habs, hup, rest, hne, hdown⟩
    have hwalk : local_path.walk ≠ 1 := by
      intro hone
      rw [hone] at hdown
      exact hne (List.append_eq_nil_iff.1 hdown.symm).2
    have hnull : local_path.isNull = false := by
      rw [Bool.eq_false_iff]
      intro hnull
      rw [eq_null hnull] at hwalk
      exact hwalk rfl
    refine ⟨hdrv, rest, hne, fun name hname => ?_, ?_⟩
    · apply isName_of_mem_walk (p := local_path)
      rw [hdown]
      exact List.mem_append_right _ hname
    · rw [name_db_eq hnull, namesOf, if_neg hwalk, habs, hup, hdown, hdir]
      split_ifs
      · rfl
      · rw [List.append_assoc]

/-- The drive letter is the one of the directory. -/
theorem drvletter_append_append_iff (dirname top path : FilePath) :
    ((dirname.append top).append path).drvletter = dirname.drvletter ↔
      (dirname.isNull = true →
        top.drvletter = [] ∧ (top.isNull = true → path.drvletter = [])) := by
  have hjoin := isNull_append dirname top
  rw [drvletter_append, drvletter_append]
  cases hdir : dirname.isNull with
  | false =>
    rw [if_neg (fun h => Bool.false_ne_true (hdir.symm.trans (hjoin.1 h).1)),
      if_neg Bool.false_ne_true]
    exact ⟨fun _ h => Bool.noConfusion h, fun _ => rfl⟩
  | true =>
    have hdrv : dirname.drvletter = [] := (isNull_iff.1 hdir).1
    rw [hdrv, if_pos rfl]
    cases htop : top.isNull with
    | true =>
      have htopdrv : top.drvletter = [] := (isNull_iff.1 htop).1
      rw [if_pos (hjoin.2 ⟨hdir, htop⟩)]
      exact ⟨fun h _ => ⟨htopdrv, fun _ => h⟩, fun h => (h rfl).2 rfl⟩
    | false =>
      rw [if_neg fun h => Bool.false_ne_true (htop.symm.trans (hjoin.1 h).2)]
      exact ⟨fun h _ => ⟨h, fun h' => Bool.noConfusion h'⟩, fun h => (h rfl).1⟩

/-- From a relative directory the joined path stays relative unless the torrent has a root where
nothing is before it. -/
theorem isAbsolute_append_append_iff (habs : dirname.isAbsolute = false) :
    ((dirname.append top).append path).isAbsolute = false ↔
      (dirname.walk = 1 → top.isAbsolute = false) ∧
        (dirname.walk * top.walk = 1 → path.isAbsolute = false) := by
  obtain ⟨habsJ, hwalkJ⟩ := append_spec dirname top
  obtain ⟨habsL, -⟩ := append_spec (dirname.append top) path
  constructor
  · intro hL
    have hJ : (dirname.append top).isAbsolute = false := by
      rw [Bool.eq_false_iff] at hL ⊢
      exact fun hJ => hL (habsL.2 (.inr hJ))
    rw [hJ, if_neg Bool.false_ne_true] at hwalkJ
    rw [Bool.eq_false_iff] at hL hJ
    constructor
    · intro hone
      rw [Bool.eq_false_iff]
      exact fun htop => hJ (habsJ.2 (.inl ⟨⟨habs, hone⟩, htop⟩))
    · intro hone
      rw [Bool.eq_false_iff]
      exact fun hpath => hL (habsL.2 (.inl ⟨⟨Bool.eq_false_iff.2 hJ, hwalkJ.trans hone⟩, hpath⟩))
  · rintro ⟨htop, hpath⟩
    rw [Bool.eq_false_iff]
    intro hL
    rcases habsL.1 hL with ⟨⟨hJ, hone⟩, hroot⟩ | hJ
    · rw [hwalkJ, hJ, if_neg Bool.false_ne_true] at hone
      rw [hpath hone] at hroot
      cases hroot
    · rcases habsJ.1 hJ with ⟨⟨-, hone⟩, hroot⟩ | hroot
      · rw [htop hone] at hroot
        cases hroot
      · rw [habs] at hroot
        cases hroot

/-- **Staying in the directory**: the joined path is held exactly when the path of the torrent
enters. -/
theorem holds_append_iff :
    dirname.Holds ((dirname.append top).append path) ↔ dirname.Enters top path := by
  obtain ⟨habsJ, hwalkJ⟩ := append_spec dirname top
  obtain ⟨habsL, hwalkL⟩ := append_spec (dirname.append top) path
  rw [holds_iff, drvletter_append_append_iff]
  cases habs : dirname.isAbsolute with
  | true =>
    have hJ : (dirname.append top).isAbsolute = true := habsJ.2 (.inr habs)
    have hL : ((dirname.append top).append path).isAbsolute = true := habsL.2 (.inr hJ)
    have hdown : ((dirname.append top).append path).walk.down
        = (dirname.walk * (top.walk * path.walk)).down := by
      rw [hwalkL, if_pos hL, hwalkJ, if_pos hJ, ← mul_assoc]
      rfl
    rw [hL, up_eq_zero habs, up_eq_zero hL, hdown]
    simp only [Walk.mul_down_eq_append_iff, true_and]
    exact ⟨fun ⟨hdrv, hnames⟩ =>
        ⟨hdrv, fun h => Bool.noConfusion (habs.symm.trans h),
          fun h => Bool.noConfusion (habs.symm.trans h), hnames⟩,
      fun h => ⟨h.drvletter, h.names⟩⟩
  | false =>
    have hwalk : ((dirname.append top).append path).isAbsolute = false →
        ((dirname.append top).append path).walk = dirname.walk * (top.walk * path.walk) := by
      intro hL
      have hJ : ¬ (dirname.append top).isAbsolute = true := fun hJ =>
        Bool.false_ne_true (hL.symm.trans (habsL.2 (.inr hJ)))
      rw [hwalkL, hL, if_neg Bool.false_ne_true, hwalkJ, if_neg hJ, mul_assoc]
    constructor
    · rintro ⟨hdrv, hL, hup, hnames⟩
      rw [hwalk hL] at hup hnames
      simp only [Walk.mul_down_eq_append_iff] at hnames
      exact ⟨hdrv, fun _ => (isAbsolute_append_append_iff habs).1 hL,
        fun _ => Walk.mul_up_eq_iff.1 hup, hnames⟩
    · rintro ⟨hdrv, hrel, hup, hnames⟩
      have hL := (isAbsolute_append_append_iff habs).2 (hrel habs)
      refine ⟨hdrv, hL, ?_, ?_⟩
      · rw [hwalk hL]
        exact Walk.mul_up_eq_iff.2 (hup habs)
      · rw [hwalk hL]
        simp only [Walk.mul_down_eq_append_iff]
        exact hnames

end FilePath

/-! ### Torrents -/

namespace Metainfo

/-- The local path which `set_file_local_dir` gives a subfile. -/
def localPath (m : Metainfo) (dirname : FilePath) (subfile : Subfile) : FilePath :=
  let local_path := dirname
  let local_path := if m.subfile_arr.length > 1 then local_path.append m.name else local_path
  local_path.append subfile.mfile_path

/-- `set_file_local_dir`: the local paths of the subfiles, which had none. -/
def setFileLocalDir (m : Metainfo) (dirname : FilePath) : List FilePath :=
  m.subfile_arr.map (m.localPath dirname)

/-- The top directory of a torrent: its name, when it has several subfiles. -/
def top (m : Metainfo) : FilePath := if m.subfile_arr.length > 1 then m.name else .null

theorem localPath_eq (m : Metainfo) (dirname : FilePath) (subfile : Subfile) :
    m.localPath dirname subfile = (dirname.append m.top).append subfile.mfile_path := by
  rw [localPath, top]
  split_ifs
  · rfl
  · rw [FilePath.append_null]

/-- **Containment**: the subfiles of a torrent are put in the local directory exactly when the
path of each of them enters it. -/
theorem localDir_iff (sha1 : Datum → BtId) (bencoded_mfile : Datum) (dirname : FilePath) :
    (∀ m ∈ fromBencode sha1 bencoded_mfile, ∀ local_path ∈ m.setFileLocalDir dirname,
      dirname.Holds local_path) ↔
    ∀ m ∈ fromBencode sha1 bencoded_mfile, ∀ subfile ∈ m.subfile_arr,
      dirname.Enters m.top subfile.mfile_path := by
  have hsubfile : ∀ m : Metainfo, (∀ local_path ∈ m.setFileLocalDir dirname,
      dirname.Holds local_path) ↔ ∀ subfile ∈ m.subfile_arr,
        dirname.Enters m.top subfile.mfile_path := by
    intro m
    rw [setFileLocalDir, List.forall_mem_map]
    refine forall₂_congr fun subfile _ => ?_
    rw [localPath_eq]
    exact FilePath.holds_append_iff
  exact forall₂_congr fun m _ => hsubfile m

/-- A torrent of the single file `../x`. -/
def sampleParent : Metainfo :=
  { sampleOne with
    name := FilePath.ofString [46, 46, 47, 120]
    subfile_arr := [⟨FilePath.ofString [46, 46, 47, 120], 1⟩] }

theorem sampleParent_stringsFit : sampleParent.StringsFit where
  announce_uri := by decide
  name := by decide
  pieces := by decide
  path := by
    intro subfile h i name hname
    obtain rfl := List.mem_singleton.1 h
    match i with
    | 0 => cases hname; decide
    | 1 => cases hname; decide
    | 2 => cases hname; decide
    | i + 3 => cases hname

def sampleParentFile : Datum :=
  Bencode.fromDvar (sampleParent.mfileDvar ((keyLength, intDvar 1) :: sampleParent.commonDvar))

/-- It is read, and put in `/x` when the local directory is `/a`. -/
theorem not_localDir : ¬ ∀ m ∈ fromBencode sampleHash sampleParentFile,
    ∀ local_path ∈ m.setFileLocalDir (FilePath.ofString [47, 97]),
      (FilePath.ofString [47, 97]).Holds local_path := by
  have hread := fromBencode_mfileDvar sampleHash (.inl rfl) (intDvar_ok 1) sampleParent_stringsFit
  rw [readSubfiles_single, Option.map_some] at hread
  have hne : ∀ names : List Datum,
      ([[], [120]] : List Datum) ≠ (FilePath.ofString [47, 97]).dirNames ++ names := by
    intro names heq
    have htwo : ([[], [120]] : List Datum) = [[], [97]] := congrArg (List.take 2) heq
    exact absurd htwo (by decide)
  intro h
  obtain ⟨-, names, -, -, heq⟩ := h _ hread _ (List.mem_singleton_self _)
  exact hne names heq

end Metainfo

end Neoip
