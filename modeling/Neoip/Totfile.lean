/-
Neoip/Totfile.lean

The pieces of the totfile on the words of the machine: `bt_unit_t` and
`bt_prange_t`, with the values of `bt_mfile_t` which they read.

A size of the file is a `file_size_t`, an index, an offset in a piece or a length
of a piece a `size_t`; both are 64 bits wide, and their arithmetic wraps.  An
assertion which fails is `none`.

`Unit` has the same conversions over the natural numbers.  Where nothing wraps
the words compute these (`Mfile.nbPiece_toNat`, `pieceidxToTotfileRange_eq`), and
what wraps first is the sum of `ceil_div`.

Main result: `geometry_iff`.
-/
import Mathlib.Data.List.Chain
import Neoip.Iov
import Neoip.Unit

namespace Neoip.Totfile

open Iov (Range)

/-! ### `bt_mfile_t` -/

/-- `std::numeric_limits<size_t>::max()`. -/
def sizeMax : UInt64 := 0xFFFFFFFFFFFFFFFF

/-- `ceil_div`. -/
def ceilDiv (num div : UInt64) : UInt64 := (num + (div - 1)) / div

/-- The sizes of a `bt_mfile_t` which is fully initialised: `nb_piece` is computed
from them. -/
structure Mfile where
  totfile_size : UInt64
  piecelen : UInt64
  piecelen_ne : piecelen ≠ 0
  totfile_size_ne : totfile_size ≠ fileSizeNone
  nb_piece_ne : ceilDiv totfile_size piecelen ≠ sizeMax

def Mfile.nbPiece (m : Mfile) : UInt64 := ceilDiv m.totfile_size m.piecelen

/-- `complete_init`, of a file of this size: it asserts that `is_fully_init`. -/
def completeInit (totfile_size piecelen : UInt64) : Option Mfile :=
  if h : piecelen ≠ 0 ∧ totfile_size ≠ fileSizeNone ∧ ceilDiv totfile_size piecelen ≠ sizeMax then
    some ⟨totfile_size, piecelen, h.1, h.2.1, h.2.2⟩
  else none

/-! ### `bt_unit_t` -/

/-- `totfile_to_pieceidx`. -/
def totfileToPieceidx (totfile_offset : UInt64) (m : Mfile) : UInt64 :=
  totfile_offset / m.piecelen

/-- `pieceidx_to_piecelen`. -/
def pieceidxToPiecelen (piece_idx : UInt64) (m : Mfile) : Option UInt64 :=
  if ¬piece_idx < m.nbPiece then none
  else if piece_idx = m.nbPiece - 1 ∧ m.totfile_size % m.piecelen ≠ 0 then
    some (m.totfile_size % m.piecelen)
  else some m.piecelen

/-- `pieceidx_to_piecebeg`. -/
def pieceidxToPiecebeg (piece_idx : UInt64) (m : Mfile) : Option UInt64 :=
  if ¬piece_idx < m.nbPiece then none else some (m.piecelen * piece_idx)

/-- `pieceidx_to_pieceend`. -/
def pieceidxToPieceend (piece_idx : UInt64) (m : Mfile) : Option UInt64 :=
  if ¬piece_idx < m.nbPiece then none
  else if piece_idx = m.nbPiece - 1 then some (m.totfile_size - 1)
  else some (m.piecelen * (piece_idx + 1) - 1)

/-- `pieceidx_to_totfile_range`. -/
def pieceidxToTotfileRange (piece_idx : UInt64) (m : Mfile) : Option Range := do
  let file_range ← Range.null.setBeg (← pieceidxToPiecebeg piece_idx m)
  file_range.setEnd (← pieceidxToPieceend piece_idx m)

end Neoip.Totfile

namespace Neoip.Iov

/-- `file_range_t::len`. -/
def Range.len (r : Range) : UInt64 := r.last - r.beg + 1

end Neoip.Iov

namespace Neoip.Totfile

open Iov (Range)

/-- `bt_prange_t`. -/
structure Prange where
  piece_idx : UInt64
  offset : UInt64
  length : UInt64
deriving DecidableEq, Repr

namespace Prange

/-- `to_totfile_range`. -/
def toTotfileRange (p : Prange) (m : Mfile) : Option Range := do
  let file_range ← Range.null.setBeg (p.piece_idx * m.piecelen + p.offset)
  file_range.setEnd (file_range.beg + p.length - 1)

/-- It asserts that the range is within a piece. -/
def fromTotfileRange (r : Range) (m : Mfile) : Option Prange :=
  if r.beg / m.piecelen = r.last / m.piecelen then
    some ⟨r.beg / m.piecelen, r.beg % m.piecelen, r.len⟩
  else none

end Prange

/-- The loop of `totfile_range_to_prange_arr`.  Each turn takes a byte at least off the
range, so as many turns as there are bytes are enough. -/
def prangeArrLoop (m : Mfile) : ℕ → Range → List Prange → Option (List Prange)
  | 0, _, _ => none
  | fuel + 1, totfile_range, prange_arr => do
    let piece_idx := totfileToPieceidx totfile_range.beg m
    let piece_range ← pieceidxToTotfileRange piece_idx m
    let piece_range ← piece_range.clampedBy totfile_range
    let prange_arr := prange_arr ++ [← Prange.fromTotfileRange piece_range m]
    if piece_range.last = totfile_range.last then some prange_arr
    else
      let totfile_range ← totfile_range.setBeg (piece_range.last + 1)
      prangeArrLoop m fuel totfile_range prange_arr

/-- `totfile_range_to_prange_arr`. -/
def totfileRangeToPrangeArr (totfile_range : Range) (m : Mfile) : Option (List Prange) :=
  if totfile_range.last < m.totfile_size then
    prangeArrLoop m totfile_range.len.toNat totfile_range []
  else none

/-- `totfile_avail`. -/
def totfileAvail (pieceavail : Pieceavail) (m : Mfile) : Option UInt64 :=
  if pieceavail.nb_piece ≠ m.nbPiece.toNat ∨ pieceavail.nb_piece = 0 then none
  else
    let nb_piece := pieceavail.nb_piece
    let avl_size := (List.range (nb_piece - 1)).foldl (fun avl_size i =>
      if pieceavail.isAvail i then avl_size + m.piecelen else avl_size) 0
    if pieceavail.isAvail (nb_piece - 1) then
      let last_piece_off := UInt64.ofNat (nb_piece - 1) * m.piecelen
      some (avl_size + (m.totfile_size - last_piece_off))
    else some avl_size

/-! ### What is expected of it -/

/-- The ranges follow each other, from `beg` up to `stop`, which is not in them. -/
def Consecutive : ℕ → List Range → ℕ → Prop
  | beg, [], stop => beg = stop
  | beg, r :: ranges, stop =>
    r.beg.toNat = beg ∧ r.beg ≤ r.last ∧ Consecutive (r.last.toNat + 1) ranges stop

/-- The indices of the pieces. -/
def indices (m : Mfile) : List UInt64 := (List.range m.nbPiece.toNat).map UInt64.ofNat

/-- The piece range has a byte, and stays in its piece. -/
def Prange.InPiece (p : Prange) (m : Mfile) : Prop :=
  0 < p.length ∧ ∃ piecelen, pieceidxToPiecelen p.piece_idx m = some piecelen ∧
    p.offset.toNat + p.length.toNat ≤ piecelen.toNat

/-- The piece ranges of a range of the file: one in each of the pieces which follow each other,
and together they are the range. -/
structure Splits (m : Mfile) (r : Range) (prange_arr : List Prange) : Prop where
  in_piece : ∀ p ∈ prange_arr, p.InPiece m
  next_piece : prange_arr.IsChain fun p q => q.piece_idx.toNat = p.piece_idx.toNat + 1
  concat : ∃ ranges, List.Forall₂ (fun p range => Prange.toTotfileRange p m = some range)
    prange_arr ranges ∧ Consecutive r.beg.toNat ranges (r.last.toNat + 1)

/-- The conversions agree. -/
structure Geometry (m : Mfile) : Prop where
  pieces : ∃ ranges, List.Forall₂ (fun idx range => pieceidxToTotfileRange idx m = some range)
    (indices m) ranges ∧ Consecutive 0 ranges m.totfile_size.toNat
  prange_arr : ∀ beg last : UInt64, beg ≤ last → last < m.totfile_size →
    ∃ r prange_arr, Range.make beg last = some r ∧
      totfileRangeToPrangeArr r m = some prange_arr ∧ Splits m r prange_arr
  back : ∀ p : Prange, p.InPiece m →
    ∃ r, p.toTotfileRange m = some r ∧ Prange.fromTotfileRange r m = some p
  avail : ∀ pieceavail : Pieceavail, pieceavail.nb_piece = m.nbPiece.toNat →
    ∃ avl_size lens, totfileAvail pieceavail m = some avl_size ∧
      List.Forall₂ (fun idx len => pieceidxToPiecelen idx m = some len)
        ((indices m).filter fun idx => pieceavail.isAvail idx.toNat) lens ∧
      avl_size.toNat = (lens.map UInt64.toNat).sum

/-! ### Words and numbers -/

/-- The size of the file is acceptable, and the sum of `ceil_div` does not wrap. -/
structure Mfile.Fits (m : Mfile) : Prop where
  pos : 0 < m.totfile_size.toNat
  le_max : m.totfile_size.toNat ≤ fileSizeMax.toNat
  sum_le : m.totfile_size.toNat + m.piecelen.toNat ≤ 2 ^ 64

theorem Mfile.piecelen_pos (m : Mfile) : 0 < m.piecelen.toNat := by
  have hne := m.piecelen_ne
  rw [Ne, ← UInt64.toNat_inj] at hne
  exact Nat.pos_of_ne_zero hne

/-- The same sizes as numbers. -/
def Mfile.unit (m : Mfile) : Neoip.Mfile where
  totfile_size := m.totfile_size.toNat
  piecelen := m.piecelen.toNat
  do_piecehash := true
  piecelen_pos := m.piecelen_pos

variable {m : Mfile} {idx : UInt64}

theorem toNat_pred {x : UInt64} (h : 0 < x.toNat) : (x - 1).toNat = x.toNat - 1 := by
  have hle : (1 : UInt64).toNat ≤ x.toNat := h
  rw [UInt64.toNat_sub_of_le _ _ (UInt64.le_iff_toNat_le.2 hle)]
  rfl

theorem toNat_succ {x : UInt64} (h : x.toNat + 1 < 2 ^ 64) : (x + 1).toNat = x.toNat + 1 := by
  rw [UInt64.toNat_add]
  exact Nat.mod_eq_of_lt h

theorem toNat_ceilDiv (num : UInt64) {div : UInt64} (hdiv : 0 < div.toNat) :
    (ceilDiv num div).toNat = (num.toNat + (div.toNat - 1)) % 2 ^ 64 / div.toNat := by
  rw [ceilDiv, UInt64.toNat_div, UInt64.toNat_add, toNat_pred hdiv]

/-- A range which is built from the null one, its begin first, is still null then. -/
theorem setBeg_null (beg : UInt64) : Range.null.setBeg beg = some ⟨beg, fileSizeNone⟩ := by
  have hsane : Range.isSane ⟨beg, fileSizeNone⟩ = true := by
    rw [Range.isSane, Range.isNull, decide_eq_true (.inr rfl), if_pos rfl]
  exact if_pos hsane

theorem Mfile.nbPiece_toNat (h : m.Fits) : m.nbPiece.toNat = m.unit.nb_piece := by
  have hsum := h.sum_le
  have hpos := m.piecelen_pos
  rw [nbPiece, toNat_ceilDiv _ hpos, Nat.mod_eq_of_lt (by omega)]
  rfl

/-- Where the sum wraps there is no piece. -/
theorem Mfile.nbPiece_of_wrap (h : 2 ^ 64 < m.totfile_size.toNat + m.piecelen.toNat) :
    m.nbPiece.toNat = 0 := by
  have hpos := m.piecelen_pos
  have hsize := m.totfile_size.toNat_lt
  have hlen := m.piecelen.toNat_lt
  rw [nbPiece, toNat_ceilDiv _ hpos, Nat.mod_eq_sub_mod (by omega), Nat.mod_eq_of_lt (by omega)]
  exact Nat.div_eq_of_lt (by omega)

theorem lt_nbPiece_iff (h : m.Fits) : idx < m.nbPiece ↔ idx.toNat < m.unit.nb_piece := by
  rw [UInt64.lt_iff_toNat_lt, Mfile.nbPiece_toNat h]

theorem eq_last_iff (h : m.Fits) (hidx : idx.toNat < m.unit.nb_piece) :
    idx = m.nbPiece - 1 ↔ idx.toNat + 1 = m.unit.nb_piece := by
  have hnb := Mfile.nbPiece_toNat h
  rw [← UInt64.toNat_inj, toNat_pred (by omega), hnb]
  omega

theorem pieceidxToPiecelen_eq (h : m.Fits) (hidx : idx.toNat < m.unit.nb_piece) :
    ∃ piecelen, pieceidxToPiecelen idx m = some piecelen ∧
      piecelen.toNat = Neoip.pieceidxToPiecelen m.unit idx.toNat := by
  have hmod : m.totfile_size % m.piecelen ≠ 0 ↔ m.unit.totfile_size % m.unit.piecelen ≠ 0 := by
    rw [Ne, ← UInt64.toNat_inj, UInt64.toNat_mod]
    rfl
  have hcond := and_congr (eq_last_iff h hidx) hmod
  rw [pieceidxToPiecelen, if_neg (not_not.2 ((lt_nbPiece_iff h).2 hidx)),
    Neoip.pieceidxToPiecelen]
  by_cases hl : idx = m.nbPiece - 1 ∧ m.totfile_size % m.piecelen ≠ 0
  · rw [if_pos hl, if_pos (hcond.1 hl)]
    exact ⟨_, rfl, UInt64.toNat_mod ..⟩
  · rw [if_neg hl, if_neg fun hl' => hl (hcond.2 hl')]
    exact ⟨_, rfl, rfl⟩

/-- The range of a piece is not out of the file. -/
theorem pieceidxToTotfileRange_last_lt (hidx : idx.toNat < m.unit.nb_piece) :
    (Neoip.pieceidxToTotfileRange m.unit idx.toNat).last < m.totfile_size.toNat := by
  have hle := (Neoip.pieceidxToTotfileRange m.unit idx.toNat).le
  exact ((mem_pieceidxToTotfileRange hidx).1 ⟨hle, le_refl _⟩).1

theorem pieceidxToTotfileRange_eq (h : m.Fits) (hidx : idx.toNat < m.unit.nb_piece) :
    ∃ r, pieceidxToTotfileRange idx m = some r ∧ r.Fits ∧
      r.beg.toNat = (Neoip.pieceidxToTotfileRange m.unit idx.toNat).beg ∧
      r.last.toNat = (Neoip.pieceidxToTotfileRange m.unit idx.toNat).last := by
  have hmax := h.le_max
  have hlast := pieceidxToTotfileRange_last_lt hidx
  have hle := (Neoip.pieceidxToTotfileRange m.unit idx.toNat).le
  have hin := not_not.2 ((lt_nbPiece_iff h).2 hidx)
  -- the offset of the first byte
  have hmul : (m.piecelen * idx).toNat = Neoip.pieceidxToPiecebeg m.unit idx.toNat := by
    rw [UInt64.toNat_mul]
    exact Nat.mod_eq_of_lt (hle.trans_lt (hlast.trans m.totfile_size.toNat_lt))
  -- the offset of the last one
  obtain ⟨last, hend, hnat⟩ : ∃ last, pieceidxToPieceend idx m = some last ∧
      last.toNat = Neoip.pieceidxToPieceend m.unit idx.toNat := by
    rw [pieceidxToPieceend, if_neg hin, Neoip.pieceidxToPieceend]
    by_cases hl : idx.toNat + 1 = m.unit.nb_piece
    · rw [if_pos ((eq_last_iff h hidx).2 hl), if_pos hl]
      exact ⟨_, rfl, toNat_pred h.pos⟩
    · rw [if_neg fun heq => hl ((eq_last_iff h hidx).1 heq), if_neg hl]
      have hnext := (m.unit.lt_nb_piece_iff (idx.toNat + 1)).1 (by omega)
      have hlt : idx.toNat + 1 < 2 ^ 64 := by
        have := Nat.le_mul_of_pos_right (idx.toNat + 1) m.unit.piecelen_pos
        have := m.totfile_size.toNat_lt
        have : m.unit.totfile_size = m.totfile_size.toNat := rfl
        omega
      have hprod : (m.piecelen * (idx + 1)).toNat = m.unit.piecelen * (idx.toNat + 1) := by
        rw [UInt64.toNat_mul, toNat_succ hlt]
        rw [Nat.mul_comm] at hnext
        exact Nat.mod_eq_of_lt (hnext.trans m.totfile_size.toNat_lt)
      refine ⟨_, rfl, ?_⟩
      rw [toNat_pred, hprod]
      rw [hprod]
      exact Nat.mul_pos m.unit.piecelen_pos (Nat.succ_pos _)
  have hfits : Range.Fits ⟨m.piecelen * idx, last⟩ := by
    refine ⟨?_, ?_⟩
    · show (m.piecelen * idx).toNat ≤ last.toNat
      rw [hmul, hnat]
      exact hle
    · show last.toNat < _
      rw [hnat]
      exact hlast.trans_le hmax
  refine ⟨⟨m.piecelen * idx, last⟩, ?_, hfits, hmul, hnat⟩
  have hnull := setBeg_null (m.piecelen * idx)
  rw [pieceidxToTotfileRange, pieceidxToPiecebeg, if_neg hin, hend]
  show Range.null.setBeg (m.piecelen * idx) >>= _ = _
  rw [hnull]
  exact Range.make_eq hfits.le hfits.last_lt

/-! ### The pieces follow each other -/

theorem succ_pieceend {i : ℕ} (hi : i < m.unit.nb_piece) :
    Neoip.pieceidxToPieceend m.unit i + 1 = min (m.unit.piecelen * (i + 1)) m.unit.totfile_size := by
  have hpos := m.unit.piecelen_pos
  have hlt := (m.unit.lt_nb_piece_iff i).1 hi
  have hnext := m.unit.lt_nb_piece_iff (i + 1)
  have hmul : 0 < m.unit.piecelen * (i + 1) := Nat.mul_pos hpos (Nat.succ_pos _)
  rw [Nat.mul_comm (i + 1)] at hnext
  rw [Neoip.pieceidxToPieceend]
  split_ifs with hl
  · omega
  · omega

theorem consecutive_pieces (h : m.Fits) {i n : ℕ} (hn : i + n = m.unit.nb_piece) :
    ∃ ranges, List.Forall₂ (fun idx range => pieceidxToTotfileRange idx m = some range)
      ((List.range' i n).map UInt64.ofNat) ranges ∧
      Consecutive (min (m.unit.piecelen * i) m.unit.totfile_size) ranges m.totfile_size.toNat := by
  induction n generalizing i with
  | zero =>
    have hall := m.unit.lt_nb_piece_iff i
    rw [Nat.mul_comm] at hall
    refine ⟨[], .nil, ?_⟩
    show min (m.unit.piecelen * i) m.unit.totfile_size = m.unit.totfile_size
    omega
  | succ n ih =>
    have hi : i < m.unit.nb_piece := by omega
    have hlt := (m.unit.lt_nb_piece_iff i).1 hi
    rw [Nat.mul_comm] at hlt
    have hnb := Mfile.nbPiece_toNat h
    have hnat : (UInt64.ofNat i).toNat = i := by
      have := m.nbPiece.toNat_lt
      rw [UInt64.toNat_ofNat']
      exact Nat.mod_eq_of_lt (by omega)
    obtain ⟨r, hr, hfits, hbeg, hlast⟩ :=
      @pieceidxToTotfileRange_eq m (UInt64.ofNat i) h (by omega)
    rw [hnat] at hbeg hlast
    obtain ⟨ranges, hranges, hcons⟩ := @ih (i + 1) (by omega)
    refine ⟨r :: ranges, .cons hr hranges, ?_, UInt64.le_iff_toNat_le.2 hfits.le, ?_⟩
    · rw [hbeg]
      exact (Nat.min_eq_left hlt.le).symm
    · rw [hlast]
      show Consecutive (Neoip.pieceidxToPieceend m.unit i + 1) ranges _
      rw [succ_pieceend hi]
      exact hcons

/-! ### Piece ranges -/

/-- The offset in the totfile of what is in a piece. -/
theorem toNat_totfile_beg {p : Prange} {x : ℕ} (hx : x < 2 ^ 64)
    (heq : p.piece_idx.toNat * m.piecelen.toNat + p.offset.toNat = x) :
    (p.piece_idx * m.piecelen + p.offset).toNat = x := by
  have hle : p.piece_idx.toNat * m.piecelen.toNat ≤ x := by omega
  rw [UInt64.toNat_add, UInt64.toNat_mul, Nat.mod_eq_of_lt (hle.trans_lt hx), heq]
  exact Nat.mod_eq_of_lt hx

theorem Prange.toTotfileRange_eq {p : Prange} {r : Range} (hr : r.Fits)
    (hbeg : p.piece_idx.toNat * m.piecelen.toNat + p.offset.toNat = r.beg.toNat)
    (hlen : r.beg.toNat + p.length.toNat = r.last.toNat + 1) : p.toTotfileRange m = some r := by
  have hlast := hr.last_lt
  rw [fileSizeMax_toNat] at hlast
  have heq : p.piece_idx * m.piecelen + p.offset = r.beg :=
    UInt64.toNat_inj.1 (toNat_totfile_beg r.beg.toNat_lt hbeg)
  have hadd : (r.beg + p.length).toNat = r.last.toNat + 1 := by
    rw [UInt64.toNat_add, hlen]
    exact Nat.mod_eq_of_lt (by omega)
  have hend : r.beg + p.length - 1 = r.last := by
    rw [← UInt64.toNat_inj, toNat_pred (by omega), hadd, Nat.add_sub_cancel]
  rw [toTotfileRange, heq, setBeg_null]
  show Range.make r.beg (r.beg + p.length - 1) = some r
  rw [hend]
  exact Range.make_eq hr.le hr.last_lt

theorem toNat_len {r : Range} (hr : r.Fits) : r.len.toNat = r.last.toNat - r.beg.toNat + 1 := by
  have hlast := hr.last_lt
  rw [fileSizeMax_toNat] at hlast
  have hsub : (r.last - r.beg).toNat = r.last.toNat - r.beg.toNat :=
    UInt64.toNat_sub_of_le _ _ (UInt64.le_iff_toNat_le.2 hr.le)
  rw [Iov.Range.len, toNat_succ (by omega), hsub]

/-- A range within a piece, as a piece range, and back. -/
theorem Prange.fromTotfileRange_eq (h : m.Fits) {r : Range} (hr : r.Fits)
    (hlast : r.last.toNat < m.totfile_size.toNat)
    (hpiece : r.beg.toNat / m.piecelen.toNat = r.last.toNat / m.piecelen.toNat) :
    ∃ p, fromTotfileRange r m = some p ∧ p.piece_idx.toNat = r.beg.toNat / m.piecelen.toNat ∧
      p.InPiece m ∧ p.toTotfileRange m = some r := by
  have hle := hr.le
  have hlen := toNat_len hr
  have hidx : (r.beg / m.piecelen).toNat = r.beg.toNat / m.piecelen.toNat := UInt64.toNat_div ..
  have hoff : (r.beg % m.piecelen).toNat = r.beg.toNat % m.piecelen.toNat := UInt64.toNat_mod ..
  have hsame : r.beg / m.piecelen = r.last / m.piecelen := by
    rw [← UInt64.toNat_inj, UInt64.toNat_div, UInt64.toNat_div, hpiece]
  have hdiv := Nat.div_add_mod r.beg.toNat m.piecelen.toNat
  rw [Nat.mul_comm] at hdiv
  -- the piece which both ends are in
  have hin := mem_range_totfileToPieceidx (m := m.unit) (x := r.last.toNat) hlast
  have hlast' : Neoip.totfileToPieceidx m.unit r.last.toNat = r.beg.toNat / m.piecelen.toNat :=
    hpiece.symm
  rw [hlast'] at hin
  obtain ⟨hlt, hmem⟩ := hin
  rw [← hidx] at hlt hmem
  obtain ⟨piecelen, hpiecelen, hnat⟩ := pieceidxToPiecelen_eq h hlt
  have hrange := len_pieceidxToTotfileRange hlt
  have hbeg' : (Neoip.pieceidxToTotfileRange m.unit (r.beg / m.piecelen).toNat).beg =
      r.beg.toNat / m.piecelen.toNat * m.piecelen.toNat := by
    rw [hidx]
    exact Nat.mul_comm _ _
  rw [FileRange.mem_def] at hmem
  rw [FileRange.len] at hrange
  refine ⟨_, if_pos hsame, hidx, ⟨?_, piecelen, hpiecelen, ?_⟩, toTotfileRange_eq hr ?_ ?_⟩
  · rw [UInt64.lt_iff_toNat_lt, hlen]
    exact Nat.succ_pos _
  · show (r.beg % m.piecelen).toNat + r.len.toNat ≤ _
    omega
  · show (r.beg / m.piecelen).toNat * _ + (r.beg % m.piecelen).toNat = _
    rw [hidx, hoff, hdiv]
  · show r.beg.toNat + r.len.toNat = _
    omega

/-- A piece range of the file, as a range, and back. -/
theorem Prange.back (h : m.Fits) {p : Prange} (hp : p.InPiece m) :
    ∃ r, p.toTotfileRange m = some r ∧ fromTotfileRange r m = some p := by
  obtain ⟨hpos, piecelen, hpiecelen, hin⟩ := hp
  have hmax := h.le_max
  rw [UInt64.lt_iff_toNat_lt] at hpos
  have hidx : p.piece_idx.toNat < m.unit.nb_piece := by
    by_contra hge
    rw [pieceidxToPiecelen, if_pos fun hlt => hge ((lt_nbPiece_iff h).1 hlt)] at hpiecelen
    cases hpiecelen
  obtain ⟨piecelen', hpiecelen', hnat⟩ := pieceidxToPiecelen_eq h hidx
  obtain rfl := Option.some.inj (hpiecelen.symm.trans hpiecelen')
  rw [hnat] at hin
  have hle_len : Neoip.pieceidxToPiecelen m.unit p.piece_idx.toNat ≤ m.piecelen.toNat := by
    rw [Neoip.pieceidxToPiecelen]
    split_ifs
    · exact (Nat.mod_lt _ m.unit.piecelen_pos).le
    · exact le_refl _
  -- the range as numbers
  obtain ⟨r, hr, hlen, -, hlast⟩ := Neoip.Prange.toTotfileRange_spec (m := m.unit)
    (p := ⟨p.piece_idx.toNat, p.offset.toNat, p.length.toNat⟩) hidx hpos.ne' hin
  rw [Neoip.Prange.toTotfileRange] at hr
  dsimp only at hr
  split_ifs at hr with hsane
  obtain rfl := Option.some.inj hr
  replace hlast : p.piece_idx.toNat * m.piecelen.toNat + p.offset.toNat + p.length.toNat - 1
    < m.totfile_size.toNat := hlast
  have hword : ∀ x, x < m.totfile_size.toNat → (UInt64.ofNat x).toNat = x := by
    intro x hx
    have := m.totfile_size.toNat_lt
    rw [UInt64.toNat_ofNat']
    exact Nat.mod_eq_of_lt (by omega)
  have hbeg := hword (p.piece_idx.toNat * m.piecelen.toNat + p.offset.toNat) (by omega)
  have hend := hword _ hlast
  have hfits : Range.Fits
      ⟨UInt64.ofNat (p.piece_idx.toNat * m.piecelen.toNat + p.offset.toNat),
        UInt64.ofNat (p.piece_idx.toNat * m.piecelen.toNat + p.offset.toNat + p.length.toNat - 1)⟩ := by
    refine ⟨?_, ?_⟩
    · dsimp only
      omega
    · dsimp only
      omega
  refine ⟨_, toTotfileRange_eq hfits hbeg.symm ?_, ?_⟩
  · dsimp only
    omega
  · have hdiv : ∀ k, k < m.piecelen.toNat →
        (p.piece_idx.toNat * m.piecelen.toNat + k) / m.piecelen.toNat = p.piece_idx.toNat := by
      intro k hk
      rw [Nat.add_comm, Nat.add_mul_div_right _ _ m.piecelen_pos, Nat.div_eq_of_lt hk, Nat.zero_add]
    have hmod : (p.piece_idx.toNat * m.piecelen.toNat + p.offset.toNat) % m.piecelen.toNat =
        p.offset.toNat := by
      rw [Nat.add_comm, Nat.add_mul_mod_self_right]
      exact Nat.mod_eq_of_lt (by omega)
    have hbegdiv := hdiv p.offset.toNat (by omega)
    have henddiv := hdiv (p.offset.toNat + p.length.toNat - 1) (by omega)
    rw [← Nat.add_sub_assoc (by omega), ← Nat.add_assoc] at henddiv
    rw [fromTotfileRange, if_pos]
    · rw [Option.some.injEq, Prange.mk.injEq]
      refine ⟨?_, ?_, ?_⟩
      · rw [← UInt64.toNat_inj, UInt64.toNat_div, hbeg, hbegdiv]
      · rw [← UInt64.toNat_inj, UInt64.toNat_mod, hbeg, hmod]
      · rw [← UInt64.toNat_inj, toNat_len hfits]
        dsimp only
        omega
    · rw [← UInt64.toNat_inj, UInt64.toNat_div, UInt64.toNat_div, hbeg, hend, hbegdiv, henddiv]

/-! ### The loop -/

/-- **One turn**: what is in the piece of the first byte. -/
theorem prange_of_turn (h : m.Fits) {r : Range} (hr : r.Fits)
    (hlast : r.last.toNat < m.totfile_size.toNat) :
    ∃ piece_range c p, pieceidxToTotfileRange (totfileToPieceidx r.beg m) m = some piece_range ∧
      piece_range.clampedBy r = some c ∧ Prange.fromTotfileRange c m = some p ∧
      p.toTotfileRange m = some c ∧ p.InPiece m ∧
      p.piece_idx.toNat = r.beg.toNat / m.piecelen.toNat ∧ c.beg = r.beg ∧
      c.beg.toNat ≤ c.last.toNat ∧ c.last.toNat ≤ r.last.toNat ∧
      (c.last.toNat < r.last.toNat →
        (c.last.toNat + 1) / m.piecelen.toNat = r.beg.toNat / m.piecelen.toNat + 1) := by
  have hle := hr.le
  have hpos := m.piecelen_pos
  have hidx : (totfileToPieceidx r.beg m).toNat = r.beg.toNat / m.piecelen.toNat :=
    UInt64.toNat_div ..
  obtain ⟨hlt, hmem⟩ := mem_range_totfileToPieceidx (m := m.unit) (x := r.beg.toNat)
    (hle.trans_lt hlast)
  have hunit : Neoip.totfileToPieceidx m.unit r.beg.toNat = (totfileToPieceidx r.beg m).toNat :=
    hidx.symm
  rw [hunit] at hlt hmem
  obtain ⟨pr, hpr, hprfits, hprbeg, hprlast⟩ := pieceidxToTotfileRange_eq h hlt
  rw [FileRange.mem_def, ← hprbeg, ← hprlast] at hmem
  obtain ⟨c, hc, hcfits, hcbeg, hclast⟩ := Range.clampedBy_eq hprfits hr (by omega) (by omega)
  have hcle := hcfits.le
  have hbeg : c.beg.toNat = r.beg.toNat := by omega
  -- both ends are in the piece
  have hin : ∀ x, r.beg.toNat ≤ x → x ≤ c.last.toNat →
      x / m.piecelen.toNat = r.beg.toNat / m.piecelen.toNat := by
    intro x hge hxle
    have := (mem_pieceidxToTotfileRange hlt (x := x)).1 ⟨by omega, by omega⟩
    exact this.2.trans hidx
  obtain ⟨p, hp, hpidx, hpin, hback⟩ := Prange.fromTotfileRange_eq h hcfits (by omega)
    ((hin _ (by omega) (by omega)).trans (hin c.last.toNat (by omega) (le_refl _)).symm)
  refine ⟨pr, c, p, hpr, hc, hp, hback, hpin, by rw [hpidx, hbeg], UInt64.toNat_inj.1 hbeg, hcle,
    by omega, fun hmore => ?_⟩
  -- the range goes on, so the piece ends here, and is not the last one
  have hend : c.last.toNat + 1 =
      min (m.unit.piecelen * ((totfileToPieceidx r.beg m).toNat + 1)) m.unit.totfile_size := by
    rw [← succ_pieceend hlt]
    have : c.last.toNat =
        (Neoip.pieceidxToTotfileRange m.unit (totfileToPieceidx r.beg m).toNat).last := by
      omega
    rw [this]
    rfl
  have hfile : m.unit.totfile_size = m.totfile_size.toNat := rfl
  rw [Nat.min_eq_left (by omega), hidx] at hend
  rw [hend]
  exact Nat.mul_div_cancel_left _ hpos

theorem prangeArrLoop_spec (h : m.Fits) {fuel : ℕ} {r : Range} (done : List Prange) (hr : r.Fits)
    (hlast : r.last.toNat < m.totfile_size.toNat) (hfuel : r.last.toNat - r.beg.toNat < fuel) :
    ∃ prange_arr, prangeArrLoop m fuel r done = some (done ++ prange_arr) ∧
      Splits m r prange_arr ∧
      ∀ p ∈ prange_arr.head?, p.piece_idx.toNat = r.beg.toNat / m.piecelen.toNat := by
  induction fuel generalizing r done with
  | zero => exact absurd hfuel (Nat.not_lt_zero _)
  | succ fuel ih =>
    -- one turn cuts the range at the end of its first piece
    obtain ⟨pr, c, p, hpr, hc, hp, hback, hpin, hpidx, hbeg, hcle, hcr, hnext⟩ :=
      prange_of_turn h hr hlast
    have hrmax := hr.last_lt
    rw [fileSizeMax_toNat] at hrmax
    have hloop : prangeArrLoop m (fuel + 1) r done =
        if c.last = r.last then some (done ++ [p])
        else (r.setBeg (c.last + 1)).bind fun r' => prangeArrLoop m fuel r' (done ++ [p]) := by
      rw [prangeArrLoop]
      dsimp only
      rw [hpr]
      show pr.clampedBy r >>= _ = _
      rw [hc]
      show Prange.fromTotfileRange c m >>= _ = _
      rw [hp]
      rfl
    rw [hloop]
    by_cases hend : c.last = r.last
    · rw [if_pos hend]
      refine ⟨[p], rfl, ⟨?_, List.IsChain.singleton p, [c], .cons hback .nil, ?_⟩, ?_⟩
      · intro q hq
        rw [List.mem_singleton.1 hq]
        exact hpin
      · exact ⟨by rw [hbeg], UInt64.le_iff_toNat_le.2 hcle, by rw [hend]; rfl⟩
      · intro q hq
        obtain rfl := Option.some.inj hq
        exact hpidx
    · rw [if_neg hend]
      have hlt : c.last.toNat < r.last.toNat :=
        lt_of_le_of_ne hcr fun heq => hend (UInt64.toNat_inj.1 heq)
      -- the rest begins at the piece after it
      have hsucc : (c.last + 1).toNat = c.last.toNat + 1 := toNat_succ (by omega)
      have hfits : Range.Fits ⟨c.last + 1, r.last⟩ := by
        refine ⟨?_, hr.last_lt⟩
        dsimp only
        omega
      have hset : r.setBeg (c.last + 1) = some ⟨c.last + 1, r.last⟩ :=
        Range.make_eq hfits.le hfits.last_lt
      rw [hbeg] at hcle
      obtain ⟨arr, harr, hsplits, hhead⟩ := ih (done ++ [p]) hfits hlast (by dsimp only; omega)
      obtain ⟨ranges, hranges, hcons⟩ := hsplits.concat
      dsimp only at hhead hcons
      rw [hset]
      refine ⟨p :: arr, ?_, ⟨?_, ?_, c :: ranges, .cons hback hranges, ?_⟩, ?_⟩
      · show prangeArrLoop m fuel _ _ = _
        rw [harr, List.append_assoc, List.singleton_append]
      · intro q hq
        rcases List.mem_cons.1 hq with rfl | hq
        · exact hpin
        · exact hsplits.in_piece q hq
      · refine hsplits.next_piece.cons fun q hq => ?_
        rw [hhead q hq, hpidx, hsucc, hnext hlt]
      · refine ⟨by rw [hbeg], UInt64.le_iff_toNat_le.2 (by rw [hbeg]; exact hcle), ?_⟩
        rw [← hsucc]
        exact hcons
      · intro q hq
        obtain rfl := Option.some.inj hq
        exact hpidx

/-- **The splitting of a range** terminates, and gives its piece ranges. -/
theorem totfileRangeToPrangeArr_spec (h : m.Fits) {r : Range} (hr : r.Fits)
    (hlast : r.last < m.totfile_size) :
    ∃ prange_arr, totfileRangeToPrangeArr r m = some prange_arr ∧ Splits m r prange_arr := by
  have hfuel : r.last.toNat - r.beg.toNat < r.len.toNat := by
    rw [toNat_len hr]
    omega
  obtain ⟨prange_arr, harr, hsplits, -⟩ :=
    prangeArrLoop_spec h [] hr (UInt64.lt_iff_toNat_lt.1 hlast) hfuel
  exact ⟨prange_arr, (if_pos hlast).trans harr, hsplits⟩

/-! ### The available length -/

theorem pieceidxToPiecelen_of_lt {i : ℕ} (hi : i + 1 < m.unit.nb_piece) :
    Neoip.pieceidxToPiecelen m.unit i = m.piecelen.toNat := by
  rw [Neoip.pieceidxToPiecelen, if_neg fun hl => hi.ne hl.1]
  rfl

/-- The lengths of the available pieces of a list of indices. -/
theorem exists_lens (h : m.Fits) (pieceavail : Pieceavail) {l : List ℕ}
    (hl : ∀ i ∈ l, i < m.unit.nb_piece) :
    ∃ lens, List.Forall₂ (fun idx len => pieceidxToPiecelen idx m = some len)
        ((l.map UInt64.ofNat).filter fun idx => pieceavail.isAvail idx.toNat) lens ∧
      (lens.map UInt64.toNat).sum =
        (l.map fun i => if pieceavail.isAvail i then Neoip.pieceidxToPiecelen m.unit i else 0).sum := by
  induction l with
  | nil => exact ⟨[], .nil, rfl⟩
  | cons i l ih =>
    obtain ⟨lens, hlens, hsum⟩ := ih fun j hj => hl j (List.mem_cons_of_mem _ hj)
    have hi := hl i List.mem_cons_self
    have hnat : (UInt64.ofNat i).toNat = i := by
      have := m.nbPiece.toNat_lt
      have := Mfile.nbPiece_toNat h
      rw [UInt64.toNat_ofNat']
      exact Nat.mod_eq_of_lt (by omega)
    rw [List.map_cons, List.map_cons, List.sum_cons, List.filter_cons, hnat]
    split_ifs with havail
    · obtain ⟨len, hlen, heq⟩ := @pieceidxToPiecelen_eq m (UInt64.ofNat i) h (by omega)
      rw [hnat] at heq
      exact ⟨len :: lens, .cons hlen hlens, by rw [List.map_cons, List.sum_cons, heq, hsum]⟩
    · exact ⟨lens, hlens, by rw [hsum, Nat.zero_add]⟩

/-- The lengths of the first pieces are added up without a wrap. -/
theorem toNat_foldl_avail (pieceavail : Pieceavail) {n : ℕ}
    (hn : n < m.unit.nb_piece) :
    ((List.range n).foldl (fun avl_size i =>
        if pieceavail.isAvail i then avl_size + m.piecelen else avl_size) 0).toNat =
      ((List.range n).map fun i =>
        if pieceavail.isAvail i then Neoip.pieceidxToPiecelen m.unit i else 0).sum ∧
    ((List.range n).map fun i =>
        if pieceavail.isAvail i then Neoip.pieceidxToPiecelen m.unit i else 0).sum ≤
      n * m.piecelen.toNat := by
  induction n with
  | zero => exact ⟨rfl, Nat.zero_le _⟩
  | succ n ih =>
    obtain ⟨heq, hle⟩ := ih (Nat.lt_of_succ_lt hn)
    have hlen := pieceidxToPiecelen_of_lt hn
    have hlt := (m.unit.lt_nb_piece_iff (n + 1)).1 hn
    replace hlt : (n + 1) * m.piecelen.toNat < m.totfile_size.toNat := hlt
    have hsize := m.totfile_size.toNat_lt
    rw [Nat.succ_mul] at hlt ⊢
    rw [List.range_succ, List.foldl_append, List.map_append, List.sum_append, List.map_singleton,
      List.sum_singleton, List.foldl_cons, List.foldl_nil]
    split_ifs
    · rw [UInt64.toNat_add, heq, hlen, Nat.mod_eq_of_lt (by omega)]
      exact ⟨rfl, by omega⟩
    · exact ⟨heq, by omega⟩

theorem totfileAvail_spec (h : m.Fits) {pieceavail : Pieceavail}
    (hnb : pieceavail.nb_piece = m.nbPiece.toNat) :
    ∃ avl_size lens, totfileAvail pieceavail m = some avl_size ∧
      List.Forall₂ (fun idx len => pieceidxToPiecelen idx m = some len)
        ((indices m).filter fun idx => pieceavail.isAvail idx.toNat) lens ∧
      avl_size.toNat = (lens.map UInt64.toNat).sum := by
  have hnat := Mfile.nbPiece_toNat h
  have hsize := m.totfile_size.toNat_lt
  have hpos : 0 < m.unit.nb_piece := by
    rw [m.unit.lt_nb_piece_iff, Nat.zero_mul]
    exact h.pos
  obtain ⟨n, hn⟩ := Nat.exists_eq_succ_of_ne_zero hpos.ne'
  obtain ⟨lens, hlens, hsum⟩ := exists_lens h pieceavail (l := List.range m.unit.nb_piece)
    fun i hi => List.mem_range.1 hi
  obtain ⟨heq, hle⟩ := toNat_foldl_avail (m := m) pieceavail (n := n) (by omega)
  -- the last piece
  have hlt := (m.unit.lt_nb_piece_iff n).1 (by omega)
  replace hlt : n * m.piecelen.toNat < m.totfile_size.toNat := hlt
  have hoff : (UInt64.ofNat n * m.piecelen).toNat = n * m.piecelen.toNat := by
    have hword : (UInt64.ofNat n).toNat = n := by
      have := m.nbPiece.toNat_lt
      rw [UInt64.toNat_ofNat']
      exact Nat.mod_eq_of_lt (by omega)
    rw [UInt64.toNat_mul, hword]
    exact Nat.mod_eq_of_lt (by omega)
  have hlast : (m.totfile_size - UInt64.ofNat n * m.piecelen).toNat =
      Neoip.pieceidxToPiecelen m.unit n := by
    have hrange := @len_pieceidxToTotfileRange m.unit n (by omega)
    have hsucc := succ_pieceend (m := m) (i := n) (by omega)
    have hend : ¬(n + 1) * m.unit.piecelen < m.unit.totfile_size := by
      rw [← m.unit.lt_nb_piece_iff]
      omega
    have hbeg : (Neoip.pieceidxToTotfileRange m.unit n).beg = n * m.piecelen.toNat :=
      Nat.mul_comm _ _
    have hlast : (Neoip.pieceidxToTotfileRange m.unit n).last + 1 = m.totfile_size.toNat := by
      rw [Nat.mul_comm] at hend
      exact hsucc.trans (Nat.min_eq_right (not_lt.1 hend))
    have hle := (Neoip.pieceidxToTotfileRange m.unit n).le
    rw [FileRange.len] at hrange
    rw [UInt64.toNat_sub_of_le _ _ (UInt64.le_iff_toNat_le.2 (by omega)), hoff, ← hrange]
    omega
  rw [indices, hnat]
  rw [hn, Nat.succ_eq_add_one, List.range_succ, List.map_append, List.sum_append,
    List.map_singleton, List.sum_singleton] at hsum
  have hcond : ¬(pieceavail.nb_piece ≠ m.nbPiece.toNat ∨ pieceavail.nb_piece = 0) := by omega
  rw [totfileAvail, if_neg hcond]
  dsimp only
  rw [show pieceavail.nb_piece - 1 = n by omega]
  split_ifs with havail
  · refine ⟨_, lens, rfl, hlens, ?_⟩
    rw [if_pos havail] at hsum
    rw [UInt64.toNat_add, heq, hlast, hsum]
    refine Nat.mod_eq_of_lt ?_
    rw [← hlast, UInt64.toNat_sub_of_le _ _ (UInt64.le_iff_toNat_le.2 (by omega)), hoff]
    omega
  · refine ⟨_, lens, rfl, hlens, ?_⟩
    rw [if_neg havail, Nat.add_zero] at hsum
    rw [heq, hsum]

/-! ### The geometry -/

theorem geometry_of_fits (h : m.Fits) : Geometry m where
  pieces := by
    have hnat := Mfile.nbPiece_toNat h
    obtain ⟨ranges, hranges, hcons⟩ := consecutive_pieces h (i := 0) (Nat.zero_add _)
    rw [indices, hnat, List.range_eq_range']
    rw [Nat.mul_zero, Nat.zero_min] at hcons
    exact ⟨ranges, hranges, hcons⟩
  prange_arr := by
    intro beg last hle hlast
    have hmax := h.le_max
    rw [UInt64.le_iff_toNat_le] at hle
    have hlt := UInt64.lt_iff_toNat_lt.1 hlast
    have hfits : Range.Fits ⟨beg, last⟩ := by
      refine ⟨hle, ?_⟩
      dsimp only
      omega
    obtain ⟨prange_arr, harr, hsplits⟩ := totfileRangeToPrangeArr_spec h hfits hlast
    exact ⟨_, prange_arr, Range.make_eq hfits.le hfits.last_lt, harr, hsplits⟩
  back := fun _ hp => Prange.back h hp
  avail := fun _ hnb => totfileAvail_spec h hnb

/-- A file which is longer than the acceptable size has a byte of which there is no range. -/
theorem le_max_of_geometry (h : Geometry m) : m.totfile_size.toNat ≤ fileSizeMax.toNat := by
  by_contra hmax
  rw [not_le] at hmax
  obtain ⟨r, -, hr, -⟩ := h.prange_arr fileSizeMax fileSizeMax UInt64.le_rfl
    (UInt64.lt_iff_toNat_lt.2 hmax)
  cases hr

/-- **The geometry of the pieces**: the pieces are consecutive and make the file, a range of it
is split at them, a piece range is got back from its range, and the available length is that
of the available pieces, exactly when the size of the file is acceptable and the sum of
`ceil_div` does not wrap. -/
theorem geometry_iff (totfile_size piecelen : UInt64) (hsize : 0 < totfile_size)
    (hpiecelen : 0 < piecelen) :
    (∃ m, completeInit totfile_size piecelen = some m ∧ Geometry m) ↔
      totfile_size ≤ fileSizeMax ∧ totfile_size.toNat + piecelen.toNat ≤ 2 ^ 64 := by
  rw [UInt64.lt_iff_toNat_lt] at hsize hpiecelen
  constructor
  · rintro ⟨m, hm, hgeometry⟩
    have hmax := le_max_of_geometry hgeometry
    rw [completeInit] at hm
    split_ifs at hm with hinit
    obtain rfl := Option.some.inj hm
    refine ⟨UInt64.le_iff_toNat_le.2 hmax, ?_⟩
    by_contra hwrap
    obtain ⟨ranges, hranges, hcons⟩ := hgeometry.pieces
    rw [indices, Mfile.nbPiece_of_wrap (not_le.1 hwrap)] at hranges
    cases hranges
    -- there is no piece, and a byte
    have hzero : 0 = totfile_size.toNat := hcons
    exact hsize.ne hzero
  · rintro ⟨hmax, hsum⟩
    rw [UInt64.le_iff_toNat_le] at hmax
    have hne : piecelen ≠ 0 := by
      rintro rfl
      exact absurd hpiecelen (Nat.lt_irrefl 0)
    have hnone : totfile_size ≠ fileSizeNone := by
      rintro rfl
      exact absurd hmax (by decide)
    have hnb : ceilDiv totfile_size piecelen ≠ sizeMax := by
      intro heq
      have hnat := congrArg UInt64.toNat heq
      rw [toNat_ceilDiv _ hpiecelen, Nat.mod_eq_of_lt (by omega)] at hnat
      have hdiv := Nat.div_le_self (totfile_size.toNat + (piecelen.toNat - 1)) piecelen.toNat
      have hmul := Nat.div_mul_le_self (totfile_size.toNat + (piecelen.toNat - 1)) piecelen.toNat
      have hval : sizeMax.toNat = 2 ^ 64 - 1 := rfl
      have hfile : fileSizeMax.toNat = 2 ^ 60 - 2 := rfl
      have hle : totfile_size.toNat + (piecelen.toNat - 1) < 2 ^ 64 := by omega
      rw [hnat, hval] at hmul
      -- the number of pieces is at most the size
      have hone : piecelen.toNat ≤ 1 := by
        by_contra hlt
        have := Nat.mul_le_mul_left (2 ^ 64 - 1) (not_le.1 hlt)
        omega
      omega
    exact ⟨⟨totfile_size, piecelen, hne, hnone, hnb⟩, dif_pos ⟨hne, hnone, hnb⟩,
      geometry_of_fits ⟨hsize, hmax, hsum⟩⟩

/-- Five bytes in pieces of two. -/
theorem geometry_iff_five :
    (∃ m, completeInit 5 2 = some m ∧ Geometry m) ↔
      (5 : UInt64) ≤ fileSizeMax ∧ (5 : UInt64).toNat + (2 : UInt64).toNat ≤ 2 ^ 64 :=
  geometry_iff 5 2 (by decide) (by decide)

/-- A torrent whose piece length is `-1` is initialised, with no piece for its two bytes. -/
theorem not_geometry_minusOne :
    (∃ m, completeInit 2 0xFFFFFFFFFFFFFFFF = some m ∧ m.nbPiece = 0) ∧
      ¬∃ m, completeInit 2 0xFFFFFFFFFFFFFFFF = some m ∧ Geometry m := by
  refine ⟨⟨⟨2, 0xFFFFFFFFFFFFFFFF, by decide, by decide, by decide⟩, rfl, rfl⟩, ?_⟩
  rintro ⟨m, hm, hgeometry⟩
  obtain rfl := Option.some.inj hm
  obtain ⟨ranges, hranges, hcons⟩ := hgeometry.pieces
  cases hranges
  have hzero : 0 = (2 : UInt64).toNat := hcons
  exact absurd hzero (by decide)

end Neoip.Totfile
