/-
Neoip/Iov.lean

The io vectors of a byte range of the shared file: `complete_init` and
`get_iov_arr` of `bt_mfile_t`, and `bt_iov_arr_t`.

The sizes are those of `file_size_t`: 64 bits, one value of which is the null one,
and of which `MAX` is said to be the greatest acceptable.  A file range is null
when one of its ends is.  Nothing keeps the sizes of a metainfo file below `MAX`:
the sum of the lengths is taken as it comes.

The subfiles of some length are indexed by the place of their first byte in the
totfile.  `get_iov_arr` starts from the subfile before the first one which begins
in the range or after it.

An assertion which fails is `none`.

Main result: `Iov.get_iov_arr_designates`: a file of acceptable size.
-/
import Mathlib.Data.UInt
import Mathlib.Algebra.Order.BigOperators.Group.List
import Mathlib.Tactic.Common
import Neoip.Extent
import Neoip.Metainfo
import Neoip.Omap

namespace Neoip.Iov

/-! ### `file_range_t` on the words of the machine -/

/-- `file_range_t`, which may be null; both ends are included.  The source calls
the second one `end()`. -/
structure Range where
  beg : UInt64
  last : UInt64
deriving DecidableEq, Repr

namespace Range

/-- The range of the constructor without argument. -/
def null : Range := ⟨fileSizeNone, fileSizeNone⟩

def isNull (r : Range) : Bool := r.beg = fileSizeNone ∨ r.last = fileSizeNone

def isSane (r : Range) : Bool :=
  if r.isNull then true
  else if r.beg = fileSizeMax then false
  else if r.beg > r.last then false
  else true

/-- The constructor. -/
def make (beg last : UInt64) : Option Range :=
  let r : Range := ⟨beg, last⟩
  if r.isSane then some r else none

def fromOfflen (off length : UInt64) : Option Range :=
  if length > 0 then make off (off + length - 1) else none

def setBeg (r : Range) (value : UInt64) : Option Range := make value r.last

def setEnd (r : Range) (value : UInt64) : Option Range := make r.beg value

def isDistinct (r other : Range) : Option Bool :=
  if r.isNull ∨ other.isNull then none
  else if r.beg > other.last then some true
  else if r.last < other.beg then some true
  else some false

def isContiguous (r other : Range) : Option Bool :=
  if r.isNull ∨ other.isNull then none
  else if r.beg = other.last + 1 then some true
  else if r.last + 1 = other.beg then some true
  else some false

def clampedBy (r other : Range) : Option Range := do
  if (← r.isDistinct other) then some null
  else
    let r ← (if r.beg < other.beg then r.setBeg other.beg else some r)
    let r ← (if r.last > other.last then r.setEnd other.last else some r)
    if r.isSane then some r else none

def compare (r other : Range) : Ordering :=
  if r.isNull ∧ ¬other.isNull then .lt
  else if ¬r.isNull ∧ other.isNull then .gt
  else if r.isNull ∧ other.isNull then .eq
  else if r.beg < other.beg then .lt
  else if r.beg > other.beg then .gt
  else if r.last < other.last then .lt
  else if r.last > other.last then .gt
  else .eq

end Range

/-! ### `bt_iov_t` and `bt_iov_arr_t` -/

/-- `bt_iov_t`. -/
structure BtIov where
  subfile_idx : ℕ
  subfile_range : Range
deriving DecidableEq, Repr

namespace BtIov

def isNull (iov : BtIov) : Bool := iov.subfile_range.isNull

def isDistinct (iov other : BtIov) : Option Bool :=
  if iov.subfile_idx ≠ other.subfile_idx then some true
  else iov.subfile_range.isDistinct other.subfile_range

def isContiguous (iov other : BtIov) : Option Bool := do
  if !(← iov.isDistinct other) then none
  else if iov.subfile_idx ≠ other.subfile_idx then some false
  else iov.subfile_range.isContiguous other.subfile_range

def compare (iov other : BtIov) : Ordering :=
  if iov.isNull ∧ ¬other.isNull then .lt
  else if ¬iov.isNull ∧ other.isNull then .gt
  else if iov.isNull ∧ other.isNull then .eq
  else if iov.subfile_idx < other.subfile_idx then .lt
  else if iov.subfile_idx > other.subfile_idx then .gt
  else iov.subfile_range.compare other.subfile_range

/-- What the io vector designates, with the sizes as numbers. -/
def extent (iov : BtIov) : Extent :=
  ⟨iov.subfile_idx, iov.subfile_range.beg.toNat, iov.subfile_range.last.toNat⟩

end BtIov

/-- `item_arr_t::sort`. -/
def sort (iov_arr : List BtIov) : List BtIov :=
  iov_arr.mergeSort fun a b => (BtIov.compare a b).isLE

/-- `operator ==` of the arrays. -/
def equal (iov_arr other : List BtIov) : Bool :=
  iov_arr.isEqv other fun a b => BtIov.compare a b = .eq

/-- The loop of `reduce`, with the io vectors before the current one. -/
def reduceLoop (done : List BtIov) (curr : BtIov) : List BtIov → Option (List BtIov)
  | [] => some (done ++ [curr])
  | next :: rest => do
    if !(← curr.isContiguous next) then reduceLoop (done ++ [curr]) next rest
    else
      let range ← Range.make curr.subfile_range.beg next.subfile_range.last
      reduceLoop done ⟨curr.subfile_idx, range⟩ rest

def reduce : List BtIov → Option (List BtIov)
  | [] => some []
  | curr :: rest => reduceLoop [] curr rest

/-! ### `bt_mfile_t` -/

/-- The precomputed values of `bt_mfile_t`: the range of each subfile in the
totfile, null for a subfile of no length, and the others by their first byte. -/
structure MfilePrecpu where
  totfile_size : UInt64
  totfile_range : List Range
  subfile_db : List (UInt64 × ℕ)

/-- The loop of `complete_init` over the subfiles, with the ranges of those before. -/
def initLoop (totfile_beg_cur : UInt64) (done : List Range) (subfile_db : List (UInt64 × ℕ)) :
    List Subfile → Option (List Range × List (UInt64 × ℕ))
  | [] => some (done, subfile_db)
  | mfile_subfile :: rest => do
    if mfile_subfile.len = 0 then
      initLoop totfile_beg_cur (done ++ [Range.null]) subfile_db rest
    else
      let totfile_range ← Range.fromOfflen totfile_beg_cur mfile_subfile.len
      -- the place must be a new one
      if (Omap.find totfile_beg_cur subfile_db).isSome then none
      else
        initLoop (totfile_beg_cur + mfile_subfile.len) (done ++ [totfile_range])
          (Omap.place (fun a b => decide (a < b)) totfile_beg_cur done.length subfile_db) rest

/-- What `is_fully_init` asks of a subfile, its name apart. -/
def subfileOk (mfile_subfile : Subfile) (totfile_range : Range) : Bool :=
  mfile_subfile.len ≠ fileSizeNone ∧ (mfile_subfile.len > 0 → ¬totfile_range.isNull)

/-- `complete_init`, as far as the sizes go. -/
def completeInit (subfile_arr : List Subfile) : Option MfilePrecpu := do
  let totfile_size := (subfile_arr.map Subfile.len).sum
  let (totfile_range, subfile_db) ← initLoop 0 [] [] subfile_arr
  if totfile_size ≠ fileSizeNone ∧
      (subfile_arr.zip totfile_range).all fun x => subfileOk x.1 x.2 then
    some ⟨totfile_size, totfile_range, subfile_db⟩
  else none

/-- `totfile_range()` of the subfile: it must have been computed. -/
def MfilePrecpu.subfileTotfileRange (mfile : MfilePrecpu) (subfile_idx : ℕ) : Option Range := do
  let totfile_range ← mfile.totfile_range[subfile_idx]?
  if totfile_range.isNull then none else some totfile_range

/-- Where the walk of `get_iov_arr` starts: at the entry before the first one whose
key is not less than the begin of the range, or at this one when it is the first. -/
def startAt (beg : UInt64) (subfile_db : List (UInt64 × ℕ)) : List (UInt64 × ℕ) :=
  subfile_db.drop ((subfile_db.takeWhile fun x => x.1 < beg).length - 1)

/-- The walk of `get_iov_arr`. -/
def iovLoop (mfile : MfilePrecpu) (totfile_range : Range) (iov_arr : List BtIov) :
    List (UInt64 × ℕ) → Option (List BtIov)
  | [] => some iov_arr
  | (_, subfile_idx) :: rest => do
    let range ← mfile.subfileTotfileRange subfile_idx
    if range.beg > totfile_range.last then some iov_arr
    else if range.last < totfile_range.beg then iovLoop mfile totfile_range iov_arr rest
    else
      let subfile_range ← range.clampedBy totfile_range
      if subfile_range.isNull ∨ ¬subfile_range.beg ≥ range.beg ∨
          ¬subfile_range.last ≥ range.beg then none
      else
        let subfile_range ← subfile_range.setBeg (subfile_range.beg - range.beg)
        let subfile_range ← subfile_range.setEnd (subfile_range.last - range.beg)
        iovLoop mfile totfile_range (iov_arr ++ [⟨subfile_idx, subfile_range⟩]) rest

def getIovArr (mfile : MfilePrecpu) (totfile_range : Range) : Option (List BtIov) := do
  if mfile.subfile_db.isEmpty then some []
  else
    let iov_arr ← iovLoop mfile totfile_range [] (startAt totfile_range.beg mfile.subfile_db)
    let reduced ← reduce iov_arr
    if equal (sort iov_arr) iov_arr ∧ equal reduced iov_arr then some iov_arr else none

/-! ### What is expected of it -/

/-- The lengths of the subfiles, as numbers. -/
abbrev lens (subfile_arr : List Subfile) : List ℕ := subfile_arr.map fun x => x.len.toNat

/-- The size of the concatenation of the subfiles. -/
def total (subfile_arr : List Subfile) : ℕ := (lens subfile_arr).sum

/-- The io vectors are those of the range: none is null, they are in order, each
within its subfile, and what they designate is what is in the range. -/
structure Designates (subfile_arr : List Subfile) (totfile_range : Range) (iov_arr : List BtIov) :
    Prop where
  notNull : ∀ iov ∈ iov_arr, iov.isNull = false
  covers : Extent.Covers (lens subfile_arr) totfile_range.beg.toNat totfile_range.last.toNat
    (iov_arr.map BtIov.extent)

/-- `get_iov_arr` returns the io vectors of the range, and `reduce` keeps any array
of io vectors of it one. -/
def GetIovArr (subfile_arr : List Subfile) (totfile_range : Range) : Prop :=
  (∃ mfile iov_arr, completeInit subfile_arr = some mfile ∧
    getIovArr mfile totfile_range = some iov_arr ∧
    Designates subfile_arr totfile_range iov_arr) ∧
  ∀ iov_arr, Designates subfile_arr totfile_range iov_arr →
    ∃ reduced, reduce iov_arr = some reduced ∧ Designates subfile_arr totfile_range reduced

/-! ### Ranges of acceptable sizes -/

/-- The range has a byte and ends before `MAX`. -/
structure Range.Fits (r : Range) : Prop where
  le : r.beg.toNat ≤ r.last.toNat
  last_lt : r.last.toNat < fileSizeMax.toNat

namespace Range

variable {r other : Range} {beg last : UInt64}

theorem Fits.isNull (h : r.Fits) : r.isNull = false := by
  have hmax := h.last_lt
  have hle := h.le
  rw [fileSizeMax_toNat] at hmax
  rw [Range.isNull, decide_eq_false_iff_not, ← UInt64.toNat_inj, ← UInt64.toNat_inj,
    fileSizeNone_toNat]
  omega

theorem Fits.isSane (h : r.Fits) : r.isSane = true := by
  have hle := h.le
  have hlast := h.last_lt
  have hmax : r.beg ≠ fileSizeMax := by
    rw [Ne, ← UInt64.toNat_inj]
    omega
  rw [Range.isSane, h.isNull, if_neg Bool.false_ne_true, if_neg hmax, if_neg]
  exact UInt64.not_lt.2 (UInt64.le_iff_toNat_le.2 hle)

theorem make_eq (hle : beg.toNat ≤ last.toNat) (hlast : last.toNat < fileSizeMax.toNat) :
    make beg last = some ⟨beg, last⟩ :=
  if_pos (Fits.isSane ⟨hle, hlast⟩)

theorem isDistinct_eq (hr : r.Fits) (ho : other.Fits) :
    r.isDistinct other
      = some (decide (other.last.toNat < r.beg.toNat ∨ r.last.toNat < other.beg.toNat)) := by
  rw [isDistinct, if_neg (by rw [hr.isNull, ho.isNull]; simp)]
  split_ifs with h1 h2
  · rw [decide_eq_true (Or.inl (UInt64.lt_iff_toNat_lt.1 h1))]
  · rw [decide_eq_true (Or.inr (UInt64.lt_iff_toNat_lt.1 h2))]
  · rw [gt_iff_lt, UInt64.lt_iff_toNat_lt] at h1
    rw [UInt64.lt_iff_toNat_lt] at h2
    rw [decide_eq_false (by tauto)]

theorem clampedBy_eq (hr : r.Fits) (ho : other.Fits) (hbeg : ¬other.last.toNat < r.beg.toNat)
    (hlast : ¬r.last.toNat < other.beg.toNat) :
    ∃ common : Range, r.clampedBy other = some common ∧ common.Fits ∧
      common.beg.toNat = max r.beg.toNat other.beg.toNat ∧
      common.last.toNat = min r.last.toNat other.last.toNat := by
  have hdist : r.isDistinct other = some false := by
    rw [isDistinct_eq hr ho, decide_eq_false (by tauto)]
  have hle := hr.le
  have hle' := ho.le
  have hmax := hr.last_lt
  have hmax' := ho.last_lt
  -- the begin
  obtain ⟨r', hr', hbeg', hlast'⟩ : ∃ r' : Range,
      (if r.beg < other.beg then r.setBeg other.beg else some r) = some r' ∧
      r'.beg.toNat = max r.beg.toNat other.beg.toNat ∧ r'.last = r.last := by
    split_ifs with h <;> rw [UInt64.lt_iff_toNat_lt] at h
    · exact ⟨_, make_eq (by omega) hmax, by rw [Nat.max_eq_right (by omega)], rfl⟩
    · exact ⟨r, rfl, by rw [Nat.max_eq_left (by omega)], rfl⟩
  -- the end
  obtain ⟨c, hc, hcbeg, hclast⟩ : ∃ c : Range,
      (if r'.last > other.last then r'.setEnd other.last else some r') = some c ∧
      c.beg = r'.beg ∧ c.last.toNat = min r.last.toNat other.last.toNat := by
    split_ifs with h <;> rw [hlast', gt_iff_lt, UInt64.lt_iff_toNat_lt] at h
    · exact ⟨_, make_eq (by omega) hmax', rfl, by rw [Nat.min_eq_right (by omega)]⟩
    · exact ⟨r', rfl, rfl, by rw [hlast', Nat.min_eq_left (by omega)]⟩
  have hfits : c.Fits := ⟨by rw [hcbeg, hbeg', hclast]; omega, by rw [hclast]; omega⟩
  have hmake := make_eq hfits.le hfits.last_lt
  refine ⟨c, ?_, hfits, by rw [hcbeg, hbeg'], hclast⟩
  rw [clampedBy, hdist]
  show ((if r.beg < other.beg then r.setBeg other.beg else some r) >>= _) = some c
  rw [hr']
  show ((if r'.last > other.last then r'.setEnd other.last else some r') >>= _) = some c
  rw [hc]
  exact hmake

end Range

/-! ### The precomputed values -/

/-- The ranges of the subfiles, the first of which begins at `cur`. -/
def spans (cur : UInt64) : List Subfile → List Range
  | [] => []
  | s :: rest =>
    if s.len = 0 then Range.null :: spans cur rest
    else ⟨cur, cur + s.len - 1⟩ :: spans (cur + s.len) rest

/-- The entries of the subfiles of some length, the first of which is `idx`. -/
def entries (idx : ℕ) (cur : UInt64) : List Subfile → List (UInt64 × ℕ)
  | [] => []
  | s :: rest =>
    if s.len = 0 then entries (idx + 1) cur rest
    else (cur, idx) :: entries (idx + 1) (cur + s.len) rest

/-- The ranges of the subfiles are sane. -/
def Sane (cur : UInt64) : List Subfile → Prop
  | [] => True
  | s :: rest =>
    (s.len ≠ 0 → Range.isSane ⟨cur, cur + s.len - 1⟩ = true) ∧ Sane (cur + s.len) rest

variable {cur : UInt64} {s : Subfile} {subfile_arr rest : List Subfile} {done : List Range}
  {db : List (UInt64 × ℕ)}

theorem total_cons : total (s :: rest) = s.len.toNat + total rest := List.sum_cons

theorem len_pos (h : ¬s.len = 0) : 0 < s.len.toNat := by
  rw [← UInt64.toNat_inj] at h
  exact Nat.pos_of_ne_zero h

theorem toNat_add_len_of_lt (h : cur.toNat + total (s :: rest) < 2 ^ 64) :
    (cur + s.len).toNat = cur.toNat + s.len.toNat := by
  rw [total_cons] at h
  rw [UInt64.toNat_add, Nat.mod_eq_of_lt (by omega)]

theorem toNat_last_of_lt (h : cur.toNat + total (s :: rest) < 2 ^ 64) (hlen : ¬s.len = 0) :
    (cur + s.len - 1).toNat = cur.toNat + s.len.toNat - 1 := by
  have hadd := toNat_add_len_of_lt h
  have hpos := len_pos hlen
  have hone : (1 : UInt64).toNat = 1 := rfl
  rw [UInt64.toNat_sub_of_le _ _ (UInt64.le_iff_toNat_le.2 (by omega)), hadd, hone]

/-- Below `MAX` the places do not wrap. -/
theorem lt_of_le_max (h : cur.toNat + total rest ≤ fileSizeMax.toNat) :
    cur.toNat + total rest < 2 ^ 64 := by
  rw [fileSizeMax_toNat] at h
  omega

theorem toNat_add_len (h : cur.toNat + total (s :: rest) ≤ fileSizeMax.toNat) :
    (cur + s.len).toNat = cur.toNat + s.len.toNat :=
  toNat_add_len_of_lt (lt_of_le_max h)

theorem toNat_last (h : cur.toNat + total (s :: rest) ≤ fileSizeMax.toNat) (hlen : ¬s.len = 0) :
    (cur + s.len - 1).toNat = cur.toNat + s.len.toNat - 1 :=
  toNat_last_of_lt (lt_of_le_max h) hlen

theorem fits_span (h : cur.toNat + total (s :: rest) ≤ fileSizeMax.toNat) (hlen : ¬s.len = 0) :
    Range.Fits ⟨cur, cur + s.len - 1⟩ := by
  have hpos := len_pos hlen
  have hlast := toNat_last h hlen
  rw [total_cons] at h
  refine ⟨?_, ?_⟩
  · show cur.toNat ≤ (cur + s.len - 1).toNat
    omega
  · show (cur + s.len - 1).toNat < _
    omega

/-- A key greater than those of the map goes to its end. -/
theorem place_last {db : List (UInt64 × ℕ)} {k : UInt64} {a : ℕ} (h : ∀ x ∈ db, x.1 < k) :
    Omap.place (fun a b => decide (a < b)) k a db = db ++ [(k, a)] := by
  induction db with
  | nil => rfl
  | cons x db ih =>
    have hx := h x List.mem_cons_self
    rw [Omap.place, if_neg, ih fun y hy => h y (List.mem_cons_of_mem _ hy), List.cons_append]
    rw [decide_eq_true_iff]
    exact UInt64.lt_asymm hx

theorem initLoop_eq_some_iff (h : cur.toNat + total rest < 2 ^ 64) (hdb : ∀ x ∈ db, x.1 < cur)
    {out : List Range × List (UInt64 × ℕ)} :
    initLoop cur done db rest = some out ↔
      Sane cur rest ∧ out = (done ++ spans cur rest, db ++ entries done.length cur rest) := by
  induction rest generalizing cur done db with
  | nil =>
    rw [initLoop, spans, entries, List.append_nil, List.append_nil, Option.some.injEq]
    exact ⟨fun heq => ⟨trivial, heq.symm⟩, fun heq => heq.2.symm⟩
  | cons s rest ih =>
    have hadd := toNat_add_len_of_lt h
    have hrest : (cur + s.len).toNat + total rest < 2 ^ 64 := by
      rw [total_cons] at h
      omega
    rw [initLoop, Sane, spans, entries]
    by_cases hlen : s.len = 0
    · have hcur : cur + s.len = cur := by rw [hlen, UInt64.add_zero]
      rw [hcur] at hrest ⊢
      rw [if_pos hlen, if_pos hlen, if_pos hlen, ih hrest hdb, List.append_assoc,
        List.singleton_append, List.length_append, List.length_singleton]
      exact and_congr_left fun _ =>
        ⟨fun hsane => ⟨fun hne => absurd hlen hne, hsane⟩, And.right⟩
    · have hpos := len_pos hlen
      have hgt : (0 : UInt64) < s.len := UInt64.lt_iff_toNat_lt.2 hpos
      -- the keys so far are the first bytes of earlier subfiles
      have hnew : (Omap.find cur db).isSome = false := by
        rw [Option.isSome_eq_false_iff, Option.isNone_iff_eq_none, Omap.find_eq_none]
        intro a ha
        exact UInt64.lt_irrefl _ (hdb _ ha)
      have hdb' : ∀ x ∈ db ++ [(cur, done.length)], x.1 < cur + s.len := by
        intro x hx
        rw [UInt64.lt_iff_toNat_lt, hadd]
        rcases List.mem_append.1 hx with hx | hx
        · have hlt := UInt64.lt_iff_toNat_lt.1 (hdb x hx)
          omega
        · obtain rfl := List.mem_singleton.1 hx
          show cur.toNat < _
          omega
      have ih := @ih _ (done ++ [⟨cur, cur + s.len - 1⟩]) _ hrest hdb'
      rw [if_neg hlen, if_neg hlen, if_neg hlen, Range.fromOfflen, if_pos hgt, Range.make]
      cases hsane : Range.isSane ⟨cur, cur + s.len - 1⟩ with
      | false =>
        refine iff_of_false nofun fun hright => ?_
        exact Bool.false_ne_true (hright.1.1 hlen)
      | true =>
        show (if (Omap.find cur db).isSome = true then none else _) = some out ↔ _
        rw [hnew, if_neg Bool.false_ne_true, place_last hdb, ih, List.append_assoc,
          List.append_assoc, List.singleton_append, List.singleton_append, List.length_append,
          List.length_singleton]
        exact and_congr_left fun _ => ⟨fun hsane => ⟨fun _ => rfl, hsane⟩, And.right⟩

theorem sane_of_le_max (h : cur.toNat + total rest ≤ fileSizeMax.toNat) : Sane cur rest := by
  induction rest generalizing cur with
  | nil => trivial
  | cons s rest ih =>
    refine ⟨fun hlen => (fits_span h hlen).isSane, ih ?_⟩
    rw [toNat_add_len h]
    rw [total_cons] at h
    omega

theorem initLoop_eq (h : cur.toNat + total rest ≤ fileSizeMax.toNat) (hdb : ∀ x ∈ db, x.1 < cur) :
    initLoop cur done db rest = some (done ++ spans cur rest, db ++ entries done.length cur rest) :=
  (initLoop_eq_some_iff (lt_of_le_max h) hdb).2 ⟨sane_of_le_max h, rfl⟩

theorem subfileOk_spans (h : cur.toNat + total rest ≤ fileSizeMax.toNat) :
    (rest.zip (spans cur rest)).all (fun x => subfileOk x.1 x.2) = true := by
  induction rest generalizing cur with
  | nil => rfl
  | cons s rest ih =>
    have hlen : s.len ≠ fileSizeNone := by
      rw [Ne, ← UInt64.toNat_inj, fileSizeNone_toNat]
      rw [total_cons, fileSizeMax_toNat] at h
      omega
    rw [spans]
    split_ifs with hzero
    · rw [List.zip_cons_cons, List.all_cons, ih, Bool.and_true, subfileOk, decide_eq_true_iff]
      · refine ⟨hlen, fun hpos => ?_⟩
        rw [hzero] at hpos
        exact absurd hpos (UInt64.lt_irrefl 0)
      · rw [total_cons] at h
        omega
    · have hadd := toNat_add_len h
      have hfits := fits_span h hzero
      rw [List.zip_cons_cons, List.all_cons, ih, Bool.and_true, subfileOk, decide_eq_true_iff]
      · refine ⟨hlen, fun _ => ?_⟩
        rw [hfits.isNull]
        exact Bool.false_ne_true
      · rw [total_cons] at h
        omega

theorem toNat_sum (h : total subfile_arr ≤ fileSizeMax.toNat) :
    (subfile_arr.map Subfile.len).sum.toNat = total subfile_arr := by
  induction subfile_arr with
  | nil => rfl
  | cons s rest ih =>
    rw [total_cons] at h
    rw [List.map_cons, List.sum_cons, UInt64.toNat_add, ih (by omega), total_cons]
    rw [fileSizeMax_toNat] at h
    exact Nat.mod_eq_of_lt (by omega)

/-- The precomputed values of a file of acceptable size. -/
def precpu (subfile_arr : List Subfile) : MfilePrecpu :=
  ⟨(subfile_arr.map Subfile.len).sum, spans 0 subfile_arr, entries 0 0 subfile_arr⟩

theorem zero_add_total (h : total subfile_arr ≤ fileSizeMax.toNat) :
    (0 : UInt64).toNat + total subfile_arr ≤ fileSizeMax.toNat := by
  rw [show (0 : UInt64).toNat = 0 from rfl, Nat.zero_add]
  exact h

theorem completeInit_eq (h : total subfile_arr ≤ fileSizeMax.toNat) :
    completeInit subfile_arr = some (precpu subfile_arr) := by
  have hzero := zero_add_total h
  have hsum : (subfile_arr.map Subfile.len).sum ≠ fileSizeNone := by
    rw [Ne, ← UInt64.toNat_inj, toNat_sum h, fileSizeNone_toNat]
    rw [fileSizeMax_toNat] at h
    omega
  rw [completeInit, initLoop_eq hzero fun x hx => absurd hx List.not_mem_nil]
  exact if_pos ⟨hsum, subfileOk_spans hzero⟩

/-! ### The walk -/

theorem lens_cons : lens (s :: rest) = s.len.toNat :: lens rest := rfl

theorem cut_of_lt {b e idx pos : ℕ} {ls : List ℕ} (h : e < pos) :
    Extent.cut b e idx pos ls = [] := by
  induction ls generalizing idx pos with
  | nil => rfl
  | cons len ls ih =>
    rw [Extent.cut, if_pos (Or.inr (Or.inr h))]
    exact ih (Nat.lt_of_lt_of_le h (Nat.le_add_right ..))

variable {mfile : MfilePrecpu} {totfile_range range : Range} {iov_arr : List BtIov} {k : UInt64}
  {idx : ℕ} {db : List (UInt64 × ℕ)}

theorem subfileTotfileRange_eq {done more : List Range}
    (hrange : mfile.totfile_range = done ++ range :: more) (hr : range.Fits) :
    mfile.subfileTotfileRange done.length = some range := by
  rw [MfilePrecpu.subfileTotfileRange, hrange, List.getElem?_append_right (Nat.le_refl _),
    Nat.sub_self, List.getElem?_cons_zero]
  show (if range.isNull = true then none else some range) = some range
  rw [hr.isNull, if_neg Bool.false_ne_true]

theorem iovLoop_after (hget : mfile.subfileTotfileRange idx = some range)
    (hafter : totfile_range.last.toNat < range.beg.toNat) :
    iovLoop mfile totfile_range iov_arr ((k, idx) :: db) = some iov_arr := by
  rw [iovLoop, hget]
  exact if_pos (UInt64.lt_iff_toNat_lt.2 hafter)

theorem iovLoop_before (hget : mfile.subfileTotfileRange idx = some range)
    (hafter : ¬totfile_range.last.toNat < range.beg.toNat)
    (hbefore : range.last.toNat < totfile_range.beg.toNat) :
    iovLoop mfile totfile_range iov_arr ((k, idx) :: db)
      = iovLoop mfile totfile_range iov_arr db := by
  have hnot : ¬range.beg > totfile_range.last := by
    rw [gt_iff_lt, UInt64.lt_iff_toNat_lt]
    exact hafter
  rw [iovLoop, hget]
  exact (if_neg hnot).trans (if_pos (UInt64.lt_iff_toNat_lt.2 hbefore))

/-- A subfile which has a byte of the range. -/
theorem iovLoop_inside (iov_arr : List BtIov) (k : UInt64) (db : List (UInt64 × ℕ))
    (hget : mfile.subfileTotfileRange idx = some range) (hr : range.Fits)
    (ht : totfile_range.Fits) (hafter : ¬totfile_range.last.toNat < range.beg.toNat)
    (hbefore : ¬range.last.toNat < totfile_range.beg.toNat) :
    ∃ iov : BtIov, iovLoop mfile totfile_range iov_arr ((k, idx) :: db)
        = iovLoop mfile totfile_range (iov_arr ++ [iov]) db ∧
      iov.extent = ⟨idx, totfile_range.beg.toNat - range.beg.toNat,
        min range.last.toNat totfile_range.last.toNat - range.beg.toNat⟩ := by
  obtain ⟨common, hcommon, hfits, hbeg, hlast⟩ := Range.clampedBy_eq hr ht hafter hbefore
  have hle := hfits.le
  have hmax := hfits.last_lt
  have hgebeg : range.beg ≤ common.beg := UInt64.le_iff_toNat_le.2 (by omega)
  have hgelast : range.beg ≤ common.last := UInt64.le_iff_toNat_le.2 (by omega)
  have hsub := UInt64.toNat_sub_of_le _ _ hgebeg
  have hsub' := UInt64.toNat_sub_of_le _ _ hgelast
  -- the shift of the begin, then that of the end
  have hset : common.setBeg (common.beg - range.beg)
      = some ⟨common.beg - range.beg, common.last⟩ := Range.make_eq (by omega) hmax
  have hset' : Range.setEnd ⟨common.beg - range.beg, common.last⟩ (common.last - range.beg)
      = some ⟨common.beg - range.beg, common.last - range.beg⟩ :=
    Range.make_eq (by rw [hsub, hsub']; omega) (by omega)
  have hnotafter : ¬range.beg > totfile_range.last := by
    rw [gt_iff_lt, UInt64.lt_iff_toNat_lt]
    exact hafter
  have hnotbefore : ¬range.last < totfile_range.beg := by
    rw [UInt64.lt_iff_toNat_lt]
    exact hbefore
  have hok : ¬(common.isNull = true ∨ ¬common.beg ≥ range.beg ∨ ¬common.last ≥ range.beg) := by
    rw [hfits.isNull]
    rintro (h | h | h)
    · exact Bool.false_ne_true h
    · exact h hgebeg
    · exact h hgelast
  refine ⟨⟨idx, ⟨common.beg - range.beg, common.last - range.beg⟩⟩, ?_, ?_⟩
  · rw [iovLoop, hget]
    refine (if_neg hnotafter).trans ((if_neg hnotbefore).trans ?_)
    rw [hcommon]
    refine (if_neg hok).trans ?_
    rw [hset]
    show (Range.setEnd ⟨common.beg - range.beg, common.last⟩ (common.last - range.beg) >>= _) = _
    rw [hset']
    rfl
  · show (⟨idx, (common.beg - range.beg).toNat, (common.last - range.beg).toNat⟩ : Extent) = _
    rw [hsub, hsub', hbeg, hlast, show max range.beg.toNat totfile_range.beg.toNat - range.beg.toNat
      = totfile_range.beg.toNat - range.beg.toNat by omega]

theorem iovLoop_eq (iov_arr : List BtIov) {done : List Range} (hfits : totfile_range.Fits)
    (h : cur.toNat + total rest ≤ fileSizeMax.toNat)
    (hrange : mfile.totfile_range = done ++ spans cur rest) :
    ∃ more, iovLoop mfile totfile_range iov_arr (entries done.length cur rest)
        = some (iov_arr ++ more) ∧
      more.map BtIov.extent = Extent.cut totfile_range.beg.toNat totfile_range.last.toNat
        done.length cur.toNat (lens rest) := by
  induction rest generalizing cur done iov_arr with
  | nil => exact ⟨[], by rw [entries, iovLoop, List.append_nil], rfl⟩
  | cons s rest ih =>
    rw [entries, lens_cons, Extent.cut]
    by_cases hlen : s.len = 0
    · -- a subfile of no length has no entry
      have hzero : s.len.toNat = 0 := by rw [hlen]; rfl
      rw [if_pos hlen, if_pos (Or.inl hzero), hzero]
      rw [spans, if_pos hlen] at hrange
      have hnext := @ih cur iov_arr (done ++ [Range.null]) (by rw [total_cons] at h; omega)
        (by rw [hrange, List.append_assoc, List.singleton_append])
      rw [List.length_append, List.length_singleton] at hnext
      exact hnext
    · have hpos := len_pos hlen
      have hspan := fits_span h hlen
      have hlast := toNat_last h hlen
      have hadd := toNat_add_len h
      rw [spans, if_neg hlen] at hrange
      have hget := subfileTotfileRange_eq hrange hspan
      have hnext := fun arr => @ih (cur + s.len) arr (done ++ [⟨cur, cur + s.len - 1⟩])
        (by rw [total_cons] at h; omega)
        (by rw [hrange, List.append_assoc, List.singleton_append])
      rw [List.length_append, List.length_singleton, hadd] at hnext
      rw [if_neg hlen]
      by_cases hafter : totfile_range.last.toNat < cur.toNat
      · -- the subfiles from here on are after the range
        rw [iovLoop_after hget hafter, if_pos (Or.inr (Or.inr hafter)),
          cut_of_lt (Nat.lt_of_lt_of_le hafter (Nat.le_add_right ..))]
        exact ⟨[], by rw [List.append_nil], rfl⟩
      · by_cases hbefore : (cur + s.len - 1).toNat < totfile_range.beg.toNat
        · -- the subfile ends before the range
          rw [iovLoop_before hget hafter hbefore, if_pos (Or.inr (Or.inl (by omega)))]
          exact hnext iov_arr
        · obtain ⟨iov, hiov, hextent⟩ := iovLoop_inside iov_arr cur
            (entries (done.length + 1) (cur + s.len) rest) hget hspan hfits hafter hbefore
          obtain ⟨more, hmore, hcut⟩ := hnext (iov_arr ++ [iov])
          rw [hiov, hmore, if_neg (by omega)]
          refine ⟨iov :: more, by rw [List.append_assoc, List.singleton_append], ?_⟩
          rw [List.map_cons, hcut, hextent]
          congr 2
          show min (cur + s.len - 1).toNat _ - cur.toNat = _
          omega

/-- The first entry is that of the next byte of the totfile. -/
theorem entries_head (x : UInt64 × ℕ) (h : (entries idx cur rest).head? = some x) : x.1 = cur := by
  induction rest generalizing idx with
  | nil => cases h
  | cons s rest ih =>
    rw [entries] at h
    split_ifs at h with hlen
    · exact ih h
    · rw [← Option.some.inj h]

/-- The walk starts early enough: the entries which it leaves out are of subfiles
which end before the range. -/
theorem iovLoop_startAt (iov_arr : List BtIov) {done : List Range} (hfits : totfile_range.Fits)
    (h : cur.toNat + total rest ≤ fileSizeMax.toNat)
    (hrange : mfile.totfile_range = done ++ spans cur rest) :
    iovLoop mfile totfile_range iov_arr (startAt totfile_range.beg (entries done.length cur rest))
      = iovLoop mfile totfile_range iov_arr (entries done.length cur rest) := by
  induction rest generalizing cur done with
  | nil => rfl
  | cons s rest ih =>
    rw [entries]
    by_cases hlen : s.len = 0
    · rw [if_pos hlen]
      rw [spans, if_pos hlen] at hrange
      have hnext := @ih cur (done ++ [Range.null]) (by rw [total_cons] at h; omega)
        (by rw [hrange, List.append_assoc, List.singleton_append])
      rw [List.length_append, List.length_singleton] at hnext
      exact hnext
    · have hpos := len_pos hlen
      have hspan := fits_span h hlen
      have hlast := toNat_last h hlen
      have hadd := toNat_add_len h
      rw [spans, if_neg hlen] at hrange
      have hnext := @ih (cur + s.len) (done ++ [⟨cur, cur + s.len - 1⟩])
        (by rw [total_cons] at h; omega)
        (by rw [hrange, List.append_assoc, List.singleton_append])
      rw [List.length_append, List.length_singleton] at hnext
      rw [if_neg hlen, startAt, List.takeWhile_cons]
      set db := entries (done.length + 1) (cur + s.len) rest with hdb
      by_cases hkey : cur < totfile_range.beg
      · rw [if_pos (decide_eq_true hkey), List.length_cons, Nat.add_sub_cancel]
        cases htake : db.takeWhile fun x => x.1 < totfile_range.beg with
        | nil => rfl
        | cons y ys =>
          -- the next entry is before the range too, hence this subfile is
          have hsome := congrArg List.head? htake
          rw [List.head?_takeWhile, List.head?_cons, Option.filter_eq_some_iff,
            decide_eq_true_iff] at hsome
          obtain ⟨hhead, hy⟩ := hsome
          rw [entries_head y hhead, UInt64.lt_iff_toNat_lt, hadd] at hy
          have hle := hfits.le
          rw [iovLoop_before (subfileTotfileRange_eq hrange hspan)
            (by show ¬_ < cur.toNat; omega) (by show (cur + s.len - 1).toNat < _; omega), ← hnext, startAt,
            htake, List.length_cons, Nat.add_sub_cancel, List.drop_succ_cons]
      · rw [if_neg (by rw [decide_eq_true_iff]; exact hkey)]
        rfl

/-! ### The arrays of io vectors -/

/-- What is asked of two io vectors for the first one to be before the other. -/
theorem compare_lt {a b : BtIov} (ha : a.isNull = false) (hb : b.isNull = false)
    (hidx : a.subfile_idx < b.subfile_idx) : a.compare b = .lt := by
  rw [BtIov.compare, ha, hb]
  simp [hidx]

theorem compare_self {a : BtIov} : a.compare a = .eq := by
  have hrange : a.subfile_range.compare a.subfile_range = .eq := by
    rw [Range.compare]
    simp
  rw [BtIov.compare, hrange]
  simp

theorem equal_self {l : List BtIov} : equal l l = true := by
  induction l with
  | nil => rfl
  | cons a l ih =>
    rw [equal, List.isEqv, compare_self]
    exact ih

/-- Io vectors of different subfiles, in order, are sorted and cannot be reduced. -/
theorem sort_eq {l : List BtIov} (hnull : ∀ iov ∈ l, iov.isNull = false)
    (h : l.Pairwise fun a b => a.subfile_idx < b.subfile_idx) : sort l = l := by
  apply List.mergeSort_of_pairwise
  refine h.imp_of_mem fun ha hb hidx => ?_
  rw [compare_lt (hnull _ ha) (hnull _ hb) hidx]
  rfl

theorem isContiguous_of_idx {a b : BtIov} (h : a.subfile_idx ≠ b.subfile_idx) :
    a.isContiguous b = some false := by
  rw [BtIov.isContiguous, BtIov.isDistinct, if_pos h]
  exact if_pos h

theorem reduceLoop_eq {done l : List BtIov} {curr : BtIov}
    (h : (curr :: l).Pairwise fun a b => a.subfile_idx < b.subfile_idx) :
    reduceLoop done curr l = some (done ++ curr :: l) := by
  induction l generalizing done curr with
  | nil => rfl
  | cons next l ih =>
    obtain ⟨hhead, htail⟩ := List.pairwise_cons.1 h
    rw [reduceLoop, isContiguous_of_idx (hhead next List.mem_cons_self).ne]
    show reduceLoop (done ++ [curr]) next l = _
    rw [ih htail, List.append_assoc, List.singleton_append]

theorem reduce_eq {l : List BtIov} (h : l.Pairwise fun a b => a.subfile_idx < b.subfile_idx) :
    reduce l = some l := by
  cases l with
  | nil => rfl
  | cons curr l => exact reduceLoop_eq h

/-- The io vectors which designate a part of acceptable subfiles are not null. -/
theorem fits_of_covers {b e : ℕ} (h : total subfile_arr ≤ fileSizeMax.toNat)
    (hcovers : Extent.Covers (lens subfile_arr) b e (iov_arr.map BtIov.extent)) {iov : BtIov}
    (hiov : iov ∈ iov_arr) : iov.subfile_range.Fits := by
  have hmem := List.mem_map_of_mem (f := BtIov.extent) hiov
  obtain ⟨len, hlen, hlast⟩ := hcovers.within _ hmem
  have hle : len ≤ (lens subfile_arr).sum :=
    List.le_sum_of_mem (List.mem_of_getElem? hlen)
  refine ⟨hcovers.nonempty _ hmem, ?_⟩
  have hlast' : iov.subfile_range.last.toNat < len := hlast
  have hsum : (lens subfile_arr).sum = total subfile_arr := rfl
  omega

theorem isContiguous_eq {a b : BtIov} (ha : a.subfile_range.Fits) (hb : b.subfile_range.Fits)
    (h : a.extent.Before b.extent) :
    a.isContiguous b = some (decide (a.subfile_idx = b.subfile_idx ∧
      a.subfile_range.last.toNat + 1 = b.subfile_range.beg.toNat)) := by
  by_cases hidx : a.subfile_idx = b.subfile_idx
  · have hlt : a.subfile_range.last.toNat < b.subfile_range.beg.toNat := by
      rcases h with h | ⟨-, h⟩
      · exact absurd hidx (Nat.ne_of_lt h)
      · exact h
    have hle := ha.le
    have hle' := hb.le
    have hmax := ha.last_lt
    have hmax' := hb.last_lt
    rw [fileSizeMax_toNat] at hmax hmax'
    have hsucc : ∀ x : UInt64, x.toNat < 1152921504606846974 → (x + 1).toNat = x.toNat + 1 := by
      intro x hx
      rw [UInt64.toNat_add]
      exact Nat.mod_eq_of_lt (by show x.toNat + 1 < _; omega)
    have hback : ¬a.subfile_range.beg = b.subfile_range.last + 1 := by
      rw [← UInt64.toNat_inj, hsucc _ hmax']
      omega
    rw [BtIov.isContiguous, BtIov.isDistinct, if_neg (not_not.2 hidx),
      Range.isDistinct_eq ha hb, decide_eq_true (Or.inr hlt)]
    refine (if_neg (not_not.2 hidx)).trans ?_
    rw [Range.isContiguous, if_neg (by rw [ha.isNull, hb.isNull]; simp), if_neg hback]
    split_ifs with htouch
    · rw [← UInt64.toNat_inj, hsucc _ hmax] at htouch
      rw [decide_eq_true ⟨hidx, htouch⟩]
    · rw [← UInt64.toNat_inj, hsucc _ hmax] at htouch
      rw [decide_eq_false (fun h => htouch h.2)]
  · rw [isContiguous_of_idx hidx, decide_eq_false (fun h => hidx h.1)]

/-- One turn of `reduce` after the other, the io vectors stay those of the range. -/
theorem reduceLoop_covers {b e : ℕ} {done l : List BtIov} {curr : BtIov}
    (h : total subfile_arr ≤ fileSizeMax.toNat)
    (hcovers : Extent.Covers (lens subfile_arr) b e ((done ++ curr :: l).map BtIov.extent)) :
    ∃ reduced, reduceLoop done curr l = some reduced ∧
      Extent.Covers (lens subfile_arr) b e (reduced.map BtIov.extent) := by
  induction l generalizing done curr with
  | nil => exact ⟨_, rfl, hcovers⟩
  | cons next l ih =>
    have hcurr : curr.subfile_range.Fits := fits_of_covers h hcovers (by simp)
    have hnext : next.subfile_range.Fits := fits_of_covers h hcovers (by simp)
    rw [List.map_append, List.map_cons, List.map_cons] at hcovers
    have hbefore : curr.extent.Before next.extent :=
      (List.pairwise_cons.1 (List.pairwise_append.1 hcovers.ordered).2.1).1 _
        List.mem_cons_self
    rw [reduceLoop, isContiguous_eq hcurr hnext hbefore]
    by_cases htouch : curr.subfile_idx = next.subfile_idx ∧
        curr.subfile_range.last.toNat + 1 = next.subfile_range.beg.toNat
    · -- both are made one
      have hle := hcurr.le
      have hle' := hnext.le
      have hmake : Range.make curr.subfile_range.beg next.subfile_range.last
          = some ⟨curr.subfile_range.beg, next.subfile_range.last⟩ :=
        Range.make_eq (by omega) hnext.last_lt
      rw [decide_eq_true htouch, hmake]
      apply ih
      rw [List.map_append, List.map_cons]
      exact hcovers.merge htouch.1 htouch.2
    · rw [decide_eq_false htouch]
      apply ih
      rw [List.append_assoc, List.singleton_append, List.map_append, List.map_cons,
        List.map_cons]
      exact hcovers

theorem reduce_designates (h : total subfile_arr ≤ fileSizeMax.toNat)
    (hd : Designates subfile_arr totfile_range iov_arr) :
    ∃ reduced, reduce iov_arr = some reduced ∧ Designates subfile_arr totfile_range reduced := by
  cases iov_arr with
  | nil => exact ⟨[], rfl, hd⟩
  | cons curr l =>
    have hcovers : Extent.Covers (lens subfile_arr) totfile_range.beg.toNat
        totfile_range.last.toNat (([] ++ curr :: l).map BtIov.extent) := hd.covers
    obtain ⟨reduced, hreduced, hcovers⟩ := reduceLoop_covers h hcovers
    exact ⟨reduced, hreduced, fun iov hiov => (fits_of_covers h hcovers hiov).isNull, hcovers⟩

/-- The walk over the whole file. -/
theorem iovLoop_precpu (hfits : totfile_range.Fits) (h : total subfile_arr ≤ fileSizeMax.toNat) :
    ∃ iov_arr, iovLoop (precpu subfile_arr) totfile_range []
        (startAt totfile_range.beg (precpu subfile_arr).subfile_db) = some iov_arr ∧
      iov_arr.map BtIov.extent = Extent.cut totfile_range.beg.toNat totfile_range.last.toNat 0 0
        (lens subfile_arr) := by
  have hzero := zero_add_total h
  have hrange : (precpu subfile_arr).totfile_range = [] ++ spans 0 subfile_arr := rfl
  obtain ⟨iov_arr, hloop, hcut⟩ := iovLoop_eq [] hfits hzero hrange
  have hwalk := iovLoop_startAt [] hfits hzero hrange
  exact ⟨iov_arr, hwalk.trans hloop, hcut⟩

/-- A file of acceptable size: the io vectors of a range of bytes of it are right,
and stay so when they are reduced. -/
theorem get_iov_arr_designates (h : total subfile_arr ≤ fileSizeMax.toNat)
    (hle : totfile_range.beg ≤ totfile_range.last)
    (hin : totfile_range.last.toNat < total subfile_arr) :
    GetIovArr subfile_arr totfile_range := by
  have hfits : totfile_range.Fits := ⟨UInt64.le_iff_toNat_le.1 hle, by omega⟩
  refine ⟨?_, fun iov_arr => reduce_designates h⟩
  obtain ⟨iov_arr, hwalk, hcut⟩ := iovLoop_precpu hfits h
  have hcovers : Extent.Covers (lens subfile_arr) totfile_range.beg.toNat
      totfile_range.last.toNat (iov_arr.map BtIov.extent) := by
    rw [hcut]
    exact Extent.covers_cut hfits.le
  have hnull : ∀ iov ∈ iov_arr, iov.isNull = false :=
    fun iov hiov => (fits_of_covers h hcovers hiov).isNull
  have hidx : iov_arr.Pairwise fun a b => a.subfile_idx < b.subfile_idx := by
    have hpair : (Extent.cut totfile_range.beg.toNat totfile_range.last.toNat 0 0
        (lens subfile_arr)).Pairwise fun x y => x.idx < y.idx :=
      Extent.cut_idx_pairwise hfits.le 0 0
    rw [← hcut, List.pairwise_map] at hpair
    exact hpair
  -- nothing is left to sort or to reduce
  have hchecks : equal (sort iov_arr) iov_arr = true ∧ equal iov_arr iov_arr = true := by
    rw [sort_eq hnull hidx]
    exact ⟨equal_self, equal_self⟩
  refine ⟨_, iov_arr, completeInit_eq h, ?_, hnull, hcovers⟩
  rw [getIovArr]
  split_ifs with hempty
  · -- no subfile has a byte
    rw [List.isEmpty_iff.1 hempty] at hwalk
    exact hwalk
  · rw [hwalk]
    show (reduce iov_arr >>= _) = _
    rw [reduce_eq hidx]
    exact if_pos hchecks

/-- A range over three subfiles, the second without a byte, and across the border. -/
theorem get_iov_arr_designates_three :
    GetIovArr [⟨FilePath.ofString [97], 3⟩, ⟨FilePath.ofString [98], 0⟩,
      ⟨FilePath.ofString [99], 5⟩] ⟨2, 4⟩ := by
  apply get_iov_arr_designates
  · decide +kernel
  · decide
  · decide +kernel

/-- Two subfiles, the second longer than `MAX`: the io vector is a null one, as the
number of its last byte is the null size. -/
theorem get_iov_arr_null :
    let subfile_arr : List Subfile :=
      [⟨FilePath.ofString [97], 1⟩, ⟨FilePath.ofString [98], 0x2000000000000000⟩]
    let totfile_range : Range := ⟨3, 0x1000000000000000⟩
    totfile_range.beg ≤ totfile_range.last ∧ totfile_range.last.toNat < total subfile_arr ∧
      ¬GetIovArr subfile_arr totfile_range := by
  refine ⟨by decide, by decide +kernel, ?_⟩
  rintro ⟨⟨mfile, iov_arr, hinit, hget, hdesignates⟩, -⟩
  have hrun : (completeInit [⟨FilePath.ofString [97], 1⟩,
      ⟨FilePath.ofString [98], 0x2000000000000000⟩] >>= fun m =>
        getIovArr m ⟨3, 0x1000000000000000⟩) = some [⟨1, ⟨2, fileSizeNone⟩⟩] := by
    decide +kernel
  rw [hinit] at hrun
  have hiov : some iov_arr = some [⟨1, ⟨2, fileSizeNone⟩⟩] := hget.symm.trans hrun
  obtain rfl := Option.some.inj hiov
  exact absurd (hdesignates.notNull _ List.mem_cons_self) (by decide)

end Neoip.Iov
