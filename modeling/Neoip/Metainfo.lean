/-
Neoip/Metainfo.lean

The metainfo file of a torrent: `bt_mfile_t`, `to_bencode` and `from_bencode`.

A file with one subfile has its length in the info map; one with several has a
list of files, each with its length and the list of the names of its path.  The
decoder looks for that list under `path`, the encoder puts it under `name`, and
it takes the name at the index of the subfile instead of the index in the path.

The hash is a parameter: `bt_id_t` keeps 20 bytes as they are and hashes any
other datum.  `announce_uri` stands for its string.

Main result: `Metainfo.roundTrips_iff`, which metainfo files are read back.
-/
import Mathlib.Data.UInt
import Neoip.Bencode
import Neoip.FilePath
import Neoip.Unit

namespace Neoip

/-! ### Identifiers -/

/-- `bt_id_t`. -/
abbrev BtId := { id : Datum // id.length = 20 }

/-- The constructor from a datum. -/
def BtId.ofDatum (sha1 : Datum → BtId) (datum : Datum) : BtId :=
  if h : datum.length = 20 then ⟨datum, h⟩ else sha1 datum

/-! ### Maps -/

namespace Dvar

/-- `std::map::find`. -/
def find (key : Datum) (inmap : List (Datum × Dvar)) : Option Dvar :=
  (inmap.find? fun x => x.1 = key).map Prod.snd

/-- `contain(key, STRING)` and the string under the key. -/
def getStr (key : Datum) (inmap : List (Datum × Dvar)) : Option Datum :=
  match find key inmap with
  | some (.string str) => some str
  | _ => none

/-- `contain(key, INTEGER)` and the integer. -/
def getInt (key : Datum) (inmap : List (Datum × Dvar)) : Option ℤ :=
  match find key inmap with
  | some (.integer value) => some value
  | _ => none

/-- `contain(key, ARRAY)` and the array. -/
def getArr (key : Datum) (inmap : List (Datum × Dvar)) : Option (List Dvar) :=
  match find key inmap with
  | some (.array arr) => some arr
  | _ => none

/-- `contain(key, MAP)` and the map. -/
def getMap (key : Datum) (inmap : List (Datum × Dvar)) : Option (List (Datum × Dvar)) :=
  match find key inmap with
  | some (.map inmap) => some inmap
  | _ => none

end Dvar

/-! ### `bt_mfile_t` -/

/-- `bt_mfile_subfile_t`. -/
structure Subfile where
  mfile_path : FilePath
  len : UInt64

/-- `bt_mfile_t`. -/
structure Metainfo where
  infohash : BtId
  piecelen : UInt64
  subfile_arr : List Subfile
  announce_uri : Datum
  name : FilePath
  piecehash_arr : List BtId
  no_external_peersrc : Bool
  do_piecehash : Bool

/-- `announce`. -/
def keyAnnounce : Datum := [97, 110, 110, 111, 117, 110, 99, 101]

/-- `files`. -/
def keyFiles : Datum := [102, 105, 108, 101, 115]

/-- `info`. -/
def keyInfo : Datum := [105, 110, 102, 111]

/-- `length`. -/
def keyLength : Datum := [108, 101, 110, 103, 116, 104]

/-- `name`. -/
def keyName : Datum := [110, 97, 109, 101]

/-- `path`. -/
def keyPath : Datum := [112, 97, 116, 104]

/-- `piece length`. -/
def keyPieceLength : Datum := [112, 105, 101, 99, 101, 32, 108, 101, 110, 103, 116, 104]

/-- `pieces`. -/
def keyPieces : Datum := [112, 105, 101, 99, 101, 115]

/-- `private`. -/
def keyPrivate : Datum := [112, 114, 105, 118, 97, 116, 101]

namespace Metainfo

/-- The sum of the lengths, a `uint64_t`. -/
def totfileSize (m : Metainfo) : UInt64 := (m.subfile_arr.map Subfile.len).sum

/-- `is_fully_init`. -/
structure IsFullyInit (m : Metainfo) : Prop where
  piecelen : m.piecelen ≠ 0
  infohash : m.infohash.1 ≠ List.replicate 20 0
  subfile_arr : m.subfile_arr ≠ []
  subfile : ∀ subfile ∈ m.subfile_arr,
    subfile.len ≠ fileSizeNone ∧ subfile.mfile_path.isNull = false
  piecehash_arr : m.do_piecehash = true →
    m.piecehash_arr.length = ceilDiv m.totfileSize.toNat m.piecelen.toNat

/-! ### `to_bencode` -/

/-- `dvar_int_t` of an unsigned number: it is converted to an `int64_t`. -/
def intDvar (n : UInt64) : Dvar := .integer n.toInt64.toInt

/-- The loop over the names of the path of the subfile `i`: each turn takes
`mfile_path()[i]`.  None when this is out of the vector. -/
def pathDvar (i : ℕ) (mfile_path : FilePath) : ℕ → Option (List Dvar)
  | 0 => some []
  | n + 1 => do
    let name ← mfile_path.get i
    let path_dvar ← pathDvar i mfile_path n
    some (.string name.toString :: path_dvar)

/-- One item of the files, whose path is put under `name`. -/
def itemDvar (i : ℕ) (subfile : Subfile) : Option Dvar := do
  let path_dvar ← pathDvar i subfile.mfile_path subfile.mfile_path.size
  some (.map (Dvar.mapInsert keyName (.array path_dvar)
    (Dvar.mapInsert keyLength (intDvar subfile.len) [])))

/-- The loop over the subfiles from the index `i` on. -/
def filesDvar : ℕ → List Subfile → Option (List Dvar)
  | _, [] => some []
  | i, subfile :: subfile_arr => do
    let item_dvar ← itemDvar i subfile
    let files_dvar ← filesDvar (i + 1) subfile_arr
    some (item_dvar :: files_dvar)

/-- The fields of the info which do not depend on the subfiles. -/
def commonDvar (m : Metainfo) : List (Datum × Dvar) :=
  let info_dvar := Dvar.mapInsert keyPieceLength (intDvar m.piecelen) []
  let info_dvar :=
    if m.no_external_peersrc then Dvar.mapInsert keyPrivate (.integer 1) info_dvar else info_dvar
  let pieces_str := m.piecehash_arr.flatMap Subtype.val
  let info_dvar := Dvar.mapInsert keyPieces (.string pieces_str) info_dvar
  Dvar.mapInsert keyName (.string m.name.toString) info_dvar

def infoDvar (m : Metainfo) : Option (List (Datum × Dvar)) :=
  match m.subfile_arr with
  | [subfile] => some (Dvar.mapInsert keyLength (intDvar subfile.len) m.commonDvar)
  | subfile_arr => do
    let files_dvar ← filesDvar 0 subfile_arr
    some (Dvar.mapInsert keyFiles (.array files_dvar) m.commonDvar)

def toDvar (m : Metainfo) : Option Dvar := do
  let info_dvar ← m.infoDvar
  some (.map (Dvar.mapInsert keyInfo (.map info_dvar)
    (Dvar.mapInsert keyAnnounce (.string m.announce_uri) [])))

/-- `to_bencode`; none when it reads out of a vector. -/
def toBencode (m : Metainfo) : Option Datum := m.toDvar.map Bencode.fromDvar

/-! ### `from_bencode` -/

/-- The number of an `int64_t`. -/
def ofInt64 (value : ℤ) : UInt64 := (Int64.ofInt value).toUInt64

/-- Whole identifiers off the string of the pieces. -/
def readPieces (sha1 : Datum → BtId) (pieces_str : Datum) : List BtId :=
  (List.range (pieces_str.length / 20)).map fun i =>
    BtId.ofDatum sha1 ((pieces_str.drop (i * 20)).take 20)

/-- The loop over the names of a path. -/
def readPath : FilePath → List Dvar → Option FilePath
  | file_path, [] => some file_path
  | file_path, .string str :: path_dvar =>
    readPath (file_path.append (FilePath.ofString str)) path_dvar
  | _, _ => none

/-- One item of the files. -/
def readItem : Dvar → Option Subfile
  | .map item_dvar => do
    let path_dvar ← Dvar.getArr keyPath item_dvar
    let len ← Dvar.getInt keyLength item_dvar
    let file_path ← readPath .null path_dvar
    some ⟨file_path, ofInt64 len⟩
  | _ => none

def readFiles : List Dvar → Option (List Subfile)
  | [] => some []
  | item :: files_dvar => do
    let subfile ← readItem item
    let subfile_arr ← readFiles files_dvar
    some (subfile :: subfile_arr)

/-- The subfiles of the info map. -/
def readSubfiles (name : FilePath) (info_dvar : List (Datum × Dvar)) : Option (List Subfile) :=
  if (Dvar.find keyLength info_dvar).isSome then do
    let file_len ← Dvar.getInt keyLength info_dvar
    some [⟨name, ofInt64 file_len⟩]
  else do
    let files_dvar ← Dvar.getArr keyFiles info_dvar
    readFiles files_dvar

/-- `from_bencode`; none is the null `bt_mfile_t`. -/
def fromBencode (sha1 : Datum → BtId) (bencoded_mfile : Datum) : Option Metainfo :=
  match Bencode.toDvar bencoded_mfile with
  | some (.map mfile_dvar) => do
    let announce_uri ← Dvar.getStr keyAnnounce mfile_dvar
    let info_dvar ← Dvar.getMap keyInfo mfile_dvar
    let infohash := BtId.ofDatum sha1 (Bencode.fromDvar (.map info_dvar))
    let name ← Dvar.getStr keyName info_dvar
    let piecelen ← Dvar.getInt keyPieceLength info_dvar
    let is_private := (Dvar.getInt keyPrivate info_dvar).any fun value => value ≠ 0
    let pieces_str ← Dvar.getStr keyPieces info_dvar
    let subfile_arr ← readSubfiles (FilePath.ofString name) info_dvar
    some {
      infohash
      piecelen := ofInt64 piecelen
      subfile_arr
      announce_uri
      name := FilePath.ofString name
      piecehash_arr := readPieces sha1 pieces_str
      no_external_peersrc := is_private
      do_piecehash := true }
  | _ => none

/-! ### What should be read back -/

/-- `file_path_t::compare` is zero: it looks at the names only, and the null path has none. -/
def SamePath (p other : FilePath) : Prop := p.name_db = other.name_db

/-- Two metainfo files are the same. -/
structure Same (m other : Metainfo) : Prop where
  infohash : m.infohash = other.infohash
  piecelen : m.piecelen = other.piecelen
  subfile_arr : List.Forall₂ (fun s s' : Subfile => SamePath s.mfile_path s'.mfile_path ∧
    s.len = s'.len) m.subfile_arr other.subfile_arr
  name : SamePath m.name other.name
  piecehash_arr : m.piecehash_arr = other.piecehash_arr

/-- What is bencoded is read back. -/
def RoundTrips (sha1 : Datum → BtId) (m : Metainfo) : Prop :=
  ∃ bencoded_mfile other, m.toBencode = some bencoded_mfile ∧
    fromBencode sha1 bencoded_mfile = some other ∧ other.Same m

/-- The lengths of the strings are `int`s. -/
structure StringsFit (m : Metainfo) : Prop where
  announce_uri : m.announce_uri.length < 2 ^ 31
  name : m.name.toString.length < 2 ^ 31
  pieces : 20 * m.piecehash_arr.length < 2 ^ 31
  path : ∀ subfile ∈ m.subfile_arr, ∀ i name, subfile.mfile_path.get i = some name →
    name.toString.length < 2 ^ 31

/-- The infohash is the one which `complete_init` computes from the info map. -/
def InfohashOf (sha1 : Datum → BtId) (m : Metainfo) : Prop :=
  ∃ info_dvar, m.infoDvar = some info_dvar ∧
    m.infohash = BtId.ofDatum sha1 (Bencode.fromDvar (.map info_dvar))

/-! ### Fields are read back -/

theorem ofInt64_toInt (n : UInt64) : ofInt64 n.toInt64.toInt = n := by
  rw [ofInt64, Int64.ofInt_toInt]
  exact UInt64.toUInt64_toInt64 n

theorem intDvar_ok (n : UInt64) : (intDvar n).Ok :=
  ⟨Int64.le_toInt _, Int64.toInt_lt _⟩

theorem length_flatMap_val (arr : List BtId) :
    (arr.flatMap Subtype.val).length = 20 * arr.length := by
  induction arr with
  | nil => rfl
  | cons id arr ih =>
    rw [List.flatMap_cons, List.length_append, ih, id.2, List.length_cons]
    omega

/-- The identifier `i` is at the offset `20 * i`. -/
theorem take_drop_flatMap_val {arr : List BtId} {i : ℕ} (hi : i < arr.length) :
    ((arr.flatMap Subtype.val).drop (i * 20)).take 20 = arr[i].1 := by
  induction arr generalizing i with
  | nil => exact absurd hi (Nat.not_lt_zero i)
  | cons id arr ih =>
    rw [List.flatMap_cons]
    cases i with
    | zero =>
      rw [Nat.zero_mul, List.drop_zero, List.take_append_of_le_length (by rw [id.2]),
        List.take_of_length_le (by rw [id.2])]
      rfl
    | succ i =>
      have hskip : (i + 1) * 20 = id.1.length + i * 20 := by
        rw [id.2]
        omega
      rw [hskip, ← List.drop_drop, List.drop_left, ih (Nat.lt_of_succ_lt_succ hi)]
      rfl

theorem readPieces_flatMap (sha1 : Datum → BtId) (arr : List BtId) :
    readPieces sha1 (arr.flatMap Subtype.val) = arr := by
  have hlen : (arr.flatMap Subtype.val).length / 20 = arr.length := by
    rw [length_flatMap_val]
    omega
  rw [readPieces, hlen]
  apply List.ext_getElem
  · rw [List.length_map, List.length_range]
  · intro i _ hi
    rw [List.getElem_map, List.getElem_range, take_drop_flatMap_val hi, BtId.ofDatum,
      dif_pos arr[i].2]

variable {m : Metainfo} {subfile : Subfile}

/-- The fields of the info, by increasing key. -/
theorem commonDvar_eq (m : Metainfo) : m.commonDvar =
    [(keyName, .string m.name.toString), (keyPieceLength, intDvar m.piecelen),
      (keyPieces, .string (m.piecehash_arr.flatMap Subtype.val))] ++
      if m.no_external_peersrc then [(keyPrivate, .integer 1)] else [] := by
  unfold commonDvar
  cases m.no_external_peersrc <;> rfl

theorem infoDvar_single (h : m.subfile_arr = [subfile]) :
    m.infoDvar = some ((keyLength, intDvar subfile.len) :: m.commonDvar) := by
  rw [infoDvar, h, commonDvar_eq]
  rfl

theorem infoDvar_multi (h : 2 ≤ m.subfile_arr.length) :
    m.infoDvar = (filesDvar 0 m.subfile_arr).map fun files_dvar =>
      (keyFiles, .array files_dvar) :: m.commonDvar := by
  rw [infoDvar, commonDvar_eq]
  match hsubfile : m.subfile_arr, h with
  | subfile :: subfile' :: subfile_arr, _ =>
    show (filesDvar 0 (subfile :: subfile' :: subfile_arr)).bind _ = _
    rw [Option.map_eq_bind]
    rfl

/-- The metainfo of an info map. -/
def mfileDvar (m : Metainfo) (info_dvar : List (Datum × Dvar)) : Dvar :=
  .map [(keyAnnounce, .string m.announce_uri), (keyInfo, .map info_dvar)]

theorem toDvar_eq (m : Metainfo) : m.toDvar = m.infoDvar.map m.mfileDvar := by
  rw [toDvar, Option.map_eq_bind]
  rfl

/-- The key of the subfiles is before those of the other fields. -/
theorem mfileDvar_ok {key : Datum} {value : Dvar} (hkey : key = keyLength ∨ key = keyFiles)
    (hvalue : value.Ok) (hfit : m.StringsFit) : (m.mfileDvar ((key, value) :: m.commonDvar)).Ok := by
  have hpieces : (m.piecehash_arr.flatMap Subtype.val).length < 2 ^ 31 := by
    rw [length_flatMap_val]
    exact hfit.pieces
  have hpiecelen := intDvar_ok m.piecelen
  rw [commonDvar_eq]
  cases m.no_external_peersrc <;> rcases hkey with rfl | rfl <;>
    simp only [mfileDvar, Dvar.Ok, Dvar.OkMap, List.cons_append, List.nil_append, List.map_cons,
      List.map_nil, if_true, reduceCtorEq, if_false, hvalue, hpieces, hpiecelen,
      hfit.announce_uri, hfit.name] <;> decide

/-- The fields are found under their keys. -/
theorem get_commonDvar (m : Metainfo) {key : Datum} (value : Dvar)
    (hkey : key = keyLength ∨ key = keyFiles) :
    Dvar.getStr keyName ((key, value) :: m.commonDvar) = some m.name.toString ∧
      Dvar.getInt keyPieceLength ((key, value) :: m.commonDvar) = some m.piecelen.toInt64.toInt ∧
      (Dvar.getInt keyPrivate ((key, value) :: m.commonDvar)).any (fun value => value ≠ 0) =
        m.no_external_peersrc ∧
      Dvar.getStr keyPieces ((key, value) :: m.commonDvar) =
        some (m.piecehash_arr.flatMap Subtype.val) := by
  rw [commonDvar_eq]
  cases m.no_external_peersrc <;> rcases hkey with rfl | rfl <;> exact ⟨rfl, rfl, rfl, rfl⟩

/-- What `from_bencode` makes of the fields, the subfiles apart. -/
theorem fromBencode_mfileDvar (sha1 : Datum → BtId) {key : Datum} {value : Dvar}
    (hkey : key = keyLength ∨ key = keyFiles) (hvalue : value.Ok) (hfit : m.StringsFit) :
    fromBencode sha1 (Bencode.fromDvar (m.mfileDvar ((key, value) :: m.commonDvar))) =
      (readSubfiles (FilePath.ofString m.name.toString) ((key, value) :: m.commonDvar)).map
        fun subfile_arr => {
          infohash := BtId.ofDatum sha1 (Bencode.fromDvar (.map ((key, value) :: m.commonDvar)))
          piecelen := m.piecelen
          subfile_arr
          announce_uri := m.announce_uri
          name := FilePath.ofString m.name.toString
          piecehash_arr := m.piecehash_arr
          no_external_peersrc := m.no_external_peersrc
          do_piecehash := true } := by
  have hok := mfileDvar_ok hkey hvalue hfit
  obtain ⟨hname, hpiecelen, hprivate, hpieces⟩ := get_commonDvar m value hkey
  set info_dvar := (key, value) :: m.commonDvar with hinfo
  have hannounce : Dvar.getStr keyAnnounce
      [(keyAnnounce, .string m.announce_uri), (keyInfo, .map info_dvar)] = some m.announce_uri := rfl
  have hmap : Dvar.getMap keyInfo
      [(keyAnnounce, .string m.announce_uri), (keyInfo, .map info_dvar)] = some info_dvar := rfl
  rw [fromBencode, Bencode.toDvar_fromDvar hok, mfileDvar]
  simp only [hannounce, hmap, Option.bind_eq_bind, Option.bind_some, hname, hpiecelen, hprivate, hpieces,
    ofInt64_toInt, readPieces_flatMap, Option.map_eq_bind, Function.comp_def]

/-! ### The subfiles -/

theorem readSubfiles_single (name : FilePath) (m : Metainfo) (len : UInt64) :
    readSubfiles name ((keyLength, intDvar len) :: m.commonDvar) = some [⟨name, len⟩] := by
  have hfind : (Dvar.find keyLength ((keyLength, intDvar len) :: m.commonDvar)).isSome = true := rfl
  have hint : Dvar.getInt keyLength ((keyLength, intDvar len) :: m.commonDvar) =
      some len.toInt64.toInt := rfl
  rw [readSubfiles, if_pos hfind, hint]
  show some [(⟨name, ofInt64 len.toInt64.toInt⟩ : Subfile)] = _
  rw [ofInt64_toInt]

theorem readSubfiles_multi (name : FilePath) (m : Metainfo) (files_dvar : List Dvar) :
    readSubfiles name ((keyFiles, .array files_dvar) :: m.commonDvar) = readFiles files_dvar := by
  have hfind : (Dvar.find keyLength ((keyFiles, .array files_dvar) :: m.commonDvar)).isSome =
      false := by
    rw [commonDvar_eq]
    cases m.no_external_peersrc <;> rfl
  rw [readSubfiles, hfind, if_neg Bool.false_ne_true]
  rfl

/-- The strings of a path are those of its names. -/
theorem pathDvar_ok {i n : ℕ} {mfile_path : FilePath} {path_dvar : List Dvar}
    (hfit : ∀ name, mfile_path.get i = some name → name.toString.length < 2 ^ 31)
    (h : pathDvar i mfile_path n = some path_dvar) : Dvar.OkArr path_dvar := by
  induction n generalizing path_dvar with
  | zero =>
    obtain rfl := Option.some.inj h
    exact trivial
  | succ n ih =>
    simp only [pathDvar, Option.bind_eq_bind, Option.bind_eq_some_iff, Option.some.injEq] at h
    obtain ⟨name, hname, path_dvar, hpath, rfl⟩ := h
    exact ⟨hfit name hname, ih hpath⟩

/-- An item has no `path`: the decoder finds nothing there. -/
theorem itemDvar_spec {i : ℕ} {item_dvar : Dvar}
    (hfit : ∀ name, subfile.mfile_path.get i = some name → name.toString.length < 2 ^ 31)
    (h : itemDvar i subfile = some item_dvar) : item_dvar.Ok ∧ readItem item_dvar = none := by
  simp only [itemDvar, Option.bind_eq_bind, Option.bind_eq_some_iff, Option.some.injEq] at h
  obtain ⟨path_dvar, hpath, rfl⟩ := h
  have hitem : Dvar.mapInsert keyName (.array path_dvar)
      (Dvar.mapInsert keyLength (intDvar subfile.len) []) =
        [(keyLength, intDvar subfile.len), (keyName, .array path_dvar)] := rfl
  rw [hitem]
  constructor
  · have hlen := intDvar_ok subfile.len
    have harr : (Dvar.array path_dvar).Ok := pathDvar_ok hfit hpath
    simp only [Dvar.Ok, Dvar.OkMap] at harr ⊢
    simp only [hlen, harr, List.map_cons, List.map_nil]
    decide
  · rfl

theorem filesDvar_ok {i : ℕ} {subfile_arr : List Subfile} {files_dvar : List Dvar}
    (hfit : ∀ subfile ∈ subfile_arr, ∀ i name, subfile.mfile_path.get i = some name →
      name.toString.length < 2 ^ 31)
    (h : filesDvar i subfile_arr = some files_dvar) : Dvar.OkArr files_dvar := by
  induction subfile_arr generalizing i files_dvar with
  | nil =>
    obtain rfl := Option.some.inj h
    exact trivial
  | cons subfile subfile_arr ih =>
    simp only [filesDvar, Option.bind_eq_bind, Option.bind_eq_some_iff, Option.some.injEq] at h
    obtain ⟨item_dvar, hitem, files_dvar, hfiles, rfl⟩ := h
    have hfst := itemDvar_spec (hfit subfile (List.mem_cons_self ..) i) hitem
    exact ⟨hfst.1, ih (fun s hs => hfit s (List.mem_cons_of_mem _ hs)) hfiles⟩

/-- Several subfiles are not read back. -/
theorem readFiles_filesDvar {i : ℕ} {subfile_arr : List Subfile} {files_dvar : List Dvar}
    (hne : subfile_arr ≠ [])
    (hfit : ∀ subfile ∈ subfile_arr, ∀ i name, subfile.mfile_path.get i = some name →
      name.toString.length < 2 ^ 31)
    (h : filesDvar i subfile_arr = some files_dvar) : readFiles files_dvar = none := by
  cases subfile_arr with
  | nil => exact absurd rfl hne
  | cons subfile subfile_arr =>
    simp only [filesDvar, Option.bind_eq_bind, Option.bind_eq_some_iff, Option.some.injEq] at h
    obtain ⟨item_dvar, hitem, files_dvar, -, rfl⟩ := h
    rw [readFiles, (itemDvar_spec (hfit subfile (List.mem_cons_self ..) i) hitem).2]
    rfl

/-! ### The round trip -/

theorem roundTrips_single (sha1 : Datum → BtId) (hfit : m.StringsFit)
    (h : m.subfile_arr = [subfile]) : RoundTrips sha1 m ↔
      SamePath subfile.mfile_path m.name ∧ m.name.PrintsBack ∧ m.InfohashOf sha1 := by
  have hinfo := infoDvar_single h
  have henc : m.toBencode =
      some (Bencode.fromDvar (m.mfileDvar ((keyLength, intDvar subfile.len) :: m.commonDvar))) := by
    rw [toBencode, toDvar_eq, hinfo]
    rfl
  have hdec := fromBencode_mfileDvar sha1 (.inl rfl) (intDvar_ok subfile.len) hfit
  rw [readSubfiles_single, Option.map_some] at hdec
  constructor
  · rintro ⟨bencoded_mfile, other, hbencoded, hother, hsame⟩
    obtain rfl := Option.some.inj (henc.symm.trans hbencoded)
    obtain rfl := Option.some.inj (hdec.symm.trans hother)
    have hname := hsame.name
    have hsubfile := hsame.subfile_arr
    rw [h, List.forall₂_cons] at hsubfile
    refine ⟨hsubfile.1.1.symm.trans hname, FilePath.name_db_ofString_iff.1 hname, ?_⟩
    exact ⟨_, hinfo, hsame.infohash.symm⟩
  · rintro ⟨hpath, hprints, info_dvar, hinfo', hinfohash⟩
    obtain rfl := Option.some.inj (hinfo.symm.trans hinfo')
    refine ⟨_, _, henc, hdec, ?_⟩
    rw [FilePath.ofString_toString hprints]
    constructor
    · exact hinfohash.symm
    · rfl
    · rw [h]
      exact .cons ⟨hpath.symm, rfl⟩ .nil
    · rfl
    · rfl

/-- The decoder gives up at the first of several subfiles. -/
theorem fromBencode_toBencode_multi (sha1 : Datum → BtId) (hfit : m.StringsFit)
    (h : 2 ≤ m.subfile_arr.length) {bencoded_mfile : Datum}
    (hbencoded : m.toBencode = some bencoded_mfile) : fromBencode sha1 bencoded_mfile = none := by
  rw [toBencode, toDvar_eq, infoDvar_multi h, Option.map_map, Option.map_map,
    Option.map_eq_some_iff] at hbencoded
  obtain ⟨files_dvar, hfiles, rfl⟩ := hbencoded
  have hne : m.subfile_arr ≠ [] := by
    intro hnil
    rw [hnil] at h
    exact absurd h (by decide)
  have hok : (Dvar.array files_dvar).Ok := filesDvar_ok hfit.path hfiles
  have hdec := fromBencode_mfileDvar sha1 (.inr rfl) hok hfit
  rw [readSubfiles_multi, readFiles_filesDvar hne hfit.path hfiles, Option.map_none] at hdec
  exact hdec

theorem not_roundTrips_multi (sha1 : Datum → BtId) (hfit : m.StringsFit)
    (h : 2 ≤ m.subfile_arr.length) : ¬RoundTrips sha1 m := by
  rintro ⟨bencoded_mfile, other, hbencoded, hother, -⟩
  rw [fromBencode_toBencode_multi sha1 hfit h hbencoded] at hother
  cases hother

/-- **What is read back**: one subfile, whose path is the name, with no colon at its head, and
the hash of the info map. -/
theorem roundTrips_iff (sha1 : Datum → BtId) (m : Metainfo) (hinit : m.IsFullyInit)
    (hfit : m.StringsFit) : RoundTrips sha1 m ↔
      (∃ subfile, m.subfile_arr = [subfile] ∧ SamePath subfile.mfile_path m.name) ∧
        m.name.PrintsBack ∧ m.InfohashOf sha1 := by
  rcases harr : m.subfile_arr with _ | ⟨subfile, _ | ⟨subfile', subfile_arr⟩⟩
  · exact absurd harr hinit.subfile_arr
  · rw [roundTrips_single sha1 hfit harr]
    constructor
    · rintro ⟨hpath, hrest⟩
      exact ⟨⟨subfile, rfl, hpath⟩, hrest⟩
    · rintro ⟨⟨s, hs, hpath⟩, hrest⟩
      obtain ⟨rfl, -⟩ := List.cons.inj hs
      exact ⟨hpath, hrest⟩
  · have hlen : 2 ≤ m.subfile_arr.length := by
      rw [harr]
      exact Nat.le_add_left 2 _
    refine iff_of_false (not_roundTrips_multi sha1 hfit hlen) ?_
    rintro ⟨⟨s, hs, -⟩, -⟩
    cases hs

/-! ### Two torrents -/

/-- A hash which is the same for all. -/
def sampleHash (_ : Datum) : BtId := ⟨List.replicate 20 1, length_ones⟩

/-- A torrent of subfiles of one byte each, in pieces of one byte. -/
def sample (pathnames : List Datum) : Metainfo where
  infohash := sampleHash []
  piecelen := 1
  subfile_arr := pathnames.map fun pathname => ⟨FilePath.ofString pathname, 1⟩
  announce_uri := [104, 116, 116, 112, 58, 47, 47, 104, 47]
  name := FilePath.ofString [97]
  piecehash_arr := pathnames.map sampleHash
  no_external_peersrc := false
  do_piecehash := true

/-- The subfile `a`. -/
def sampleOne : Metainfo := sample [[97]]

/-- The subfiles `b` and `c`. -/
def sampleTwo : Metainfo := sample [[98], [99]]

/-- A path with one name gives strings of one character. -/
theorem get_ofString_length {c : UInt8} (hc : c ∈ [97, 98, 99]) {i : ℕ} {name : FilePath}
    (h : (FilePath.ofString [c]).get i = some name) : name.toString.length = 1 := by
  simp only [List.mem_cons, List.not_mem_nil, or_false] at hc
  match i with
  | 0 =>
    rcases hc with rfl | rfl | rfl <;> (cases h; rfl)
  | 1 =>
    rcases hc with rfl | rfl | rfl <;> (cases h; rfl)
  | i + 2 =>
    rcases hc with rfl | rfl | rfl <;> cases h

theorem sampleOne_isFullyInit : sampleOne.IsFullyInit where
  piecelen := by decide
  infohash := by decide
  subfile_arr := List.cons_ne_nil _ _
  subfile := by
    intro subfile h
    obtain rfl := List.mem_singleton.1 h
    decide
  piecehash_arr := fun _ => by decide

theorem sampleOne_stringsFit : sampleOne.StringsFit where
  announce_uri := by decide
  name := by decide
  pieces := by decide
  path := by
    intro subfile h i name hname
    obtain rfl := List.mem_singleton.1 h
    rw [get_ofString_length (by decide) hname]
    decide

theorem sampleTwo_isFullyInit : sampleTwo.IsFullyInit where
  piecelen := by decide
  infohash := by decide
  subfile_arr := List.cons_ne_nil _ _
  subfile := by
    intro subfile h
    rcases List.mem_pair.1 h with rfl | rfl <;> decide
  piecehash_arr := fun _ => by decide

theorem sampleTwo_stringsFit : sampleTwo.StringsFit where
  announce_uri := by decide
  name := by decide
  pieces := by decide
  path := by
    intro subfile h i name hname
    rcases List.mem_pair.1 h with rfl | rfl <;>
      (rw [get_ofString_length (by decide) hname]; decide)

theorem sampleOne_infohashOf : sampleOne.InfohashOf sampleHash :=
  ⟨_, infoDvar_single rfl, rfl⟩

theorem roundTrips_sampleOne : RoundTrips sampleHash sampleOne :=
  (roundTrips_iff sampleHash sampleOne sampleOne_isFullyInit sampleOne_stringsFit).2
    ⟨⟨_, rfl, rfl⟩, .inr (by decide), sampleOne_infohashOf⟩

set_option maxRecDepth 4000 in
theorem sampleTwo_infohashOf : sampleTwo.InfohashOf sampleHash :=
  ⟨_, rfl, rfl⟩

/-- A valid torrent of two files is bencoded, and what is decoded is null. -/
theorem not_roundTrips_sampleTwo :
    sampleTwo.IsFullyInit ∧ sampleTwo.InfohashOf sampleHash ∧
      (∃ bencoded_mfile, sampleTwo.toBencode = some bencoded_mfile ∧
        fromBencode sampleHash bencoded_mfile = none) ∧ ¬RoundTrips sampleHash sampleTwo :=
  ⟨sampleTwo_isFullyInit, sampleTwo_infohashOf,
    ⟨_, rfl, fromBencode_toBencode_multi sampleHash sampleTwo_stringsFit le_rfl rfl⟩,
    not_roundTrips_multi sampleHash sampleTwo_stringsFit le_rfl⟩

end Metainfo

end Neoip
