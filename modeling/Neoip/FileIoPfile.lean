/-
Neoip/FileIoPfile.lean

`bt_io_pfile_t`: the total file with a file for each piece.

The parts of a range are its piece ranges; with `has_circularidx` a range may go
past the end of the file, and goes on at the first piece.  A write creates the files
it needs, in a directory which the io has made.

Main results: `Pfile.pieces_refine`, against a byte store, and
`Pfile.leaves_nothing`: in every run the io touches no file but those of its
pieces, and when it is destroyed none of them is left.
-/
import Neoip.Bencode
import Neoip.FileIoRun
import Neoip.Totfile

namespace Neoip

open Iov (Range)

/-! ### The layout -/

/-- What a `bt_io_pfile_t` is started with. -/
structure Pfile where
  mfile : Totfile.Mfile
  fits : mfile.Fits
  has_circularidx : Bool

namespace Pfile

variable (c : Pfile)

def toRange (r : FileRange) : Range := ⟨UInt64.ofNat r.beg, UInt64.ofNat r.last⟩

/-- The name of the file of a piece, in `dest_dirname`. -/
def pieceFilename (piece_idx : ℕ) : Datum :=
  let digits := Bencode.decimal piece_idx
  [112, 105, 101, 99, 101] ++ List.replicate (8 - digits.length) 48 ++ digits ++ [46, 116, 109, 112]

/-- The piece ranges of a range which begins in the file: what goes past the end is split from
the rest. -/
def splitToPrangeArr (totfile_range : Range) : Option (List Totfile.Prange) :=
  let totfile_size := c.mfile.totfile_size
  if totfile_range.last < totfile_size then Totfile.totfileRangeToPrangeArr totfile_range c.mfile
  else if c.has_circularidx then do
    let totfile_range1 ← Range.make (totfile_range.beg % totfile_size) (totfile_size - 1)
    let totfile_range2 ← Range.make 0 (totfile_range.last % totfile_size)
    let prange_arr ← Totfile.totfileRangeToPrangeArr totfile_range1 c.mfile
    some (prange_arr ++ (← Totfile.totfileRangeToPrangeArr totfile_range2 c.mfile))
  else none

/-- A range which begins past the end is shifted first; it asserts that `has_circularidx` is set
where it is needed. -/
def totfileToPrangeArr (totfile_range : Range) : Option (List Totfile.Prange) :=
  let totfile_size := c.mfile.totfile_size
  if totfile_range.beg ≥ totfile_size then
    if c.has_circularidx then do
      let delta := totfile_range.beg - totfile_range.beg % totfile_size
      c.splitToPrangeArr (← Range.make (totfile_range.beg - delta) (totfile_range.last - delta))
    else none
  else c.splitToPrangeArr totfile_range

/-- The pieces which `remove` is about: it asserts that they are whole. -/
def removeArr (totfile_range : Range) : Option (List ℕ) := do
  let prange_arr ← Totfile.totfileRangeToPrangeArr totfile_range c.mfile
  if prange_arr.all fun p => Totfile.pieceidxToPiecelen p.piece_idx c.mfile = some p.length then
    some (prange_arr.map fun p => p.piece_idx.toNat)
  else none

def ofPrange (p : Totfile.Prange) : FilePart := ⟨p.piece_idx.toNat, p.offset.toNat, p.length.toNat⟩

/-- Where a byte is: in which piece, and where in it. -/
def place (x : ℕ) : ℕ × ℕ := (x / c.mfile.piecelen.toNat, x % c.mfile.piecelen.toNat)

/-- A range within the file, or with `has_circularidx` one which does not come back to its
first byte. -/
def accepts (r : FileRange) : Bool :=
  r.last < fileSizeMax.toNat &&
    if c.has_circularidx then r.len ≤ c.mfile.totfile_size.toNat
    else r.last < c.mfile.totfile_size.toNat

/-! ### Names -/

theorem readDigits_pieceFilename (piece_idx : ℕ) :
    Bencode.readDigits 0 ((pieceFilename piece_idx).drop 5) = (piece_idx, [46, 116, 109, 112]) := by
  rw [pieceFilename, List.append_assoc, List.append_assoc,
    List.drop_left' (show ([112, 105, 101, 99, 101] : Datum).length = 5 from rfl)]
  generalize 8 - (Bencode.decimal piece_idx).length = k
  induction k with
  | zero => exact Bencode.readDigits_decimal rfl
  | succ k ih =>
    rw [List.replicate_succ, List.cons_append, Bencode.readDigits]
    exact ih

theorem pieceFilename_inj {i j : ℕ} (h : pieceFilename i = pieceFilename j) : i = j := by
  have hi := readDigits_pieceFilename i
  rw [h, readDigits_pieceFilename] at hi
  exact (congrArg Prod.fst hi).symm

/-! ### Parts -/

variable {c}

theorem map_range_add {α : Type} (f : ℕ → α) (m n : ℕ) :
    (List.range (m + n)).map f = (List.range m).map f ++ (List.range n).map fun i => f (m + i) := by
  rw [List.range_add, List.map_append, List.map_map]
  rfl

theorem place_add {x y i : ℕ} (hsame : x / c.mfile.piecelen.toNat = y / c.mfile.piecelen.toNat)
    (hi : x + i ≤ y) :
    c.place (x + i) = (x / c.mfile.piecelen.toNat, x % c.mfile.piecelen.toNat + i) := by
  have hpos := c.mfile.piecelen_pos
  have hdiv : (x + i) / c.mfile.piecelen.toNat = x / c.mfile.piecelen.toNat := by
    apply Nat.le_antisymm
    · rw [hsame]
      exact Nat.div_le_div_right hi
    · exact Nat.div_le_div_right (Nat.le_add_right x i)
  have hx := Nat.div_add_mod x c.mfile.piecelen.toNat
  have hxi := Nat.div_add_mod (x + i) c.mfile.piecelen.toNat
  rw [place, hdiv]
  rw [hdiv] at hxi
  congr 1
  omega

/-- The bytes of a piece range are those of its range. -/
theorem places_ofPrange {p : Totfile.Prange} {r : Range} (hp : p.InPiece c.mfile)
    (hr : p.toTotfileRange c.mfile = some r) (hle : r.beg ≤ r.last)
    (hlast : r.last.toNat < c.mfile.totfile_size.toNat) :
    (ofPrange p).places =
      (List.range (r.last.toNat - r.beg.toNat + 1)).map fun i => c.place (r.beg.toNat + i) := by
  obtain ⟨r', hr', hback⟩ := Totfile.Prange.back c.fits hp
  obtain rfl := Option.some.inj (hr.symm.trans hr')
  have hmax := c.fits.le_max
  have hfits : r.Fits := ⟨UInt64.le_iff_toNat_le.1 hle, by omega⟩
  rw [Totfile.Prange.fromTotfileRange] at hback
  split_ifs at hback with hsame
  have hp' := Option.some.inj hback
  have hsame' : r.beg.toNat / c.mfile.piecelen.toNat = r.last.toNat / c.mfile.piecelen.toNat := by
    rw [← UInt64.toNat_div, hsame, UInt64.toNat_div]
  rw [← hp', FilePart.places, ofPrange]
  dsimp only
  rw [Totfile.toNat_len hfits, UInt64.toNat_div, UInt64.toNat_mod]
  refine List.map_congr_left fun i hi => ?_
  rw [place_add hsame']
  have := List.mem_range.1 hi
  have := hfits.le
  omega

theorem flatMap_consecutive {prange_arr : List Totfile.Prange} {ranges : List Range} {beg stop : ℕ}
    (hall : List.Forall₂ (fun p range => Totfile.Prange.toTotfileRange p c.mfile = some range)
      prange_arr ranges)
    (hin : ∀ p ∈ prange_arr, p.InPiece c.mfile) (h : Totfile.Consecutive beg ranges stop)
    (hstop : stop ≤ c.mfile.totfile_size.toNat) :
    beg ≤ stop ∧ (prange_arr.map ofPrange).flatMap FilePart.places =
      (List.range (stop - beg)).map fun i => c.place (beg + i) := by
  induction hall generalizing beg with
  | nil =>
    obtain rfl : beg = stop := h
    rw [Nat.sub_self]
    exact ⟨Nat.le_refl _, rfl⟩
  | @cons p range prange_arr ranges hp hall ih =>
    obtain ⟨hbeg, hle, hrest⟩ := h
    obtain ⟨hle', hplaces⟩ := ih (fun q hq => hin q (List.mem_cons_of_mem p hq)) hrest
    have hle'' := UInt64.le_iff_toNat_le.1 hle
    refine ⟨by omega, ?_⟩
    rw [List.map_cons, List.flatMap_cons, hplaces,
      places_ofPrange (hin p List.mem_cons_self) hp hle (by omega)]
    have hsplit : stop - beg =
        (range.last.toNat - range.beg.toNat + 1) + (stop - (range.last.toNat + 1)) := by omega
    rw [hsplit, map_range_add _ (range.last.toNat - range.beg.toNat + 1), hbeg]
    congr 1
    refine List.map_congr_left fun i _ => ?_
    congr 1
    omega

theorem flatMap_splits {prange_arr : List Totfile.Prange} {r : Range}
    (h : Totfile.Splits c.mfile r prange_arr) (hr : r.Fits)
    (hlast : r.last.toNat < c.mfile.totfile_size.toNat) :
    (prange_arr.map ofPrange).flatMap FilePart.places =
      (List.range (r.last.toNat - r.beg.toNat + 1)).map fun i => c.place (r.beg.toNat + i) := by
  obtain ⟨ranges, hall, hconsecutive⟩ := h.concat
  obtain ⟨-, hplaces⟩ := flatMap_consecutive hall h.in_piece hconsecutive hlast
  rw [hplaces]
  congr 2
  have := hr.le
  omega

/-- A range as words. -/
theorem toRange_spec {r : FileRange} (hr : r.last < fileSizeMax.toNat) :
    (toRange r).Fits ∧ (toRange r).beg.toNat = r.beg ∧ (toRange r).last.toNat = r.last := by
  have hmax := fileSizeMax_toNat
  have hle := r.le
  have hbeg : (UInt64.ofNat r.beg).toNat = r.beg :=
    UInt64.toNat_ofNat_of_lt' (show _ < 2 ^ 64 by omega)
  have hlast : (UInt64.ofNat r.last).toNat = r.last :=
    UInt64.toNat_ofNat_of_lt' (show _ < 2 ^ 64 by omega)
  refine ⟨⟨?_, ?_⟩, hbeg, hlast⟩
  · show (UInt64.ofNat r.beg).toNat ≤ (UInt64.ofNat r.last).toNat
    rw [hbeg, hlast]
    exact hle
  · show (UInt64.ofNat r.last).toNat < _
    rw [hlast]
    exact hr

/-- The parts of a range which goes past the end are the ones up to it and those from the
beginning on. -/
theorem splitToPrangeArr_spec {r : Range} (hr : r.Fits)
    (hbeg : r.beg.toNat < c.mfile.totfile_size.toNat)
    (hcirc : c.has_circularidx = true ∨ r.last.toNat < c.mfile.totfile_size.toNat)
    (hlen : r.last.toNat - r.beg.toNat + 1 ≤ c.mfile.totfile_size.toNat) :
    ∃ prange_arr, c.splitToPrangeArr r = some prange_arr ∧ (∀ p ∈ prange_arr, p.InPiece c.mfile) ∧
      (prange_arr.map ofPrange).flatMap FilePart.places =
        (List.range (r.last.toNat - r.beg.toNat + 1)).map fun i =>
          c.place ((r.beg.toNat + i) % c.mfile.totfile_size.toNat) := by
  have hle := hr.le
  have hmax := c.fits.le_max
  rw [splitToPrangeArr]
  by_cases hlt : r.last < c.mfile.totfile_size
  · have hlt' := UInt64.lt_iff_toNat_lt.1 hlt
    obtain ⟨prange_arr, harr, hsplits⟩ := Totfile.totfileRangeToPrangeArr_spec c.fits hr hlt
    refine ⟨prange_arr, (if_pos hlt).trans harr, hsplits.in_piece, ?_⟩
    rw [flatMap_splits hsplits hr hlt']
    refine List.map_congr_left fun i hi => ?_
    have := List.mem_range.1 hi
    rw [Nat.mod_eq_of_lt (by omega)]
  · have hge := Nat.not_lt.1 fun h => hlt (UInt64.lt_iff_toNat_lt.2 h)
    have hpred : (c.mfile.totfile_size - 1).toNat = c.mfile.totfile_size.toNat - 1 :=
      Totfile.toNat_pred c.fits.pos
    have hbegmod : (r.beg % c.mfile.totfile_size).toNat = r.beg.toNat := by
      rw [UInt64.toNat_mod, Nat.mod_eq_of_lt hbeg]
    have hlastmod : (r.last % c.mfile.totfile_size).toNat =
        r.last.toNat - c.mfile.totfile_size.toNat := by
      rw [UInt64.toNat_mod, Nat.mod_eq_sub_mod hge, Nat.mod_eq_of_lt (by omega)]
    -- the two ranges
    have hfits1 : Range.Fits ⟨r.beg % c.mfile.totfile_size, c.mfile.totfile_size - 1⟩ := by
      constructor <;> dsimp only <;> omega
    have hfits2 : Range.Fits ⟨0, r.last % c.mfile.totfile_size⟩ :=
      ⟨Nat.zero_le _, by dsimp only; omega⟩
    have hmake1 := Range.make_eq hfits1.le hfits1.last_lt
    have hmake2 := Range.make_eq hfits2.le hfits2.last_lt
    dsimp only at hmake1 hmake2
    obtain ⟨arr1, harr1, hsplits1⟩ := Totfile.totfileRangeToPrangeArr_spec c.fits hfits1
      (UInt64.lt_iff_toNat_lt.2 (by dsimp only; omega))
    obtain ⟨arr2, harr2, hsplits2⟩ := Totfile.totfileRangeToPrangeArr_spec c.fits hfits2
      (UInt64.lt_iff_toNat_lt.2 (by dsimp only; omega))
    refine ⟨arr1 ++ arr2, ?_, ?_, ?_⟩
    · rw [if_neg hlt, if_pos (hcirc.resolve_right (by omega)), hmake1, Option.bind_eq_bind,
        Option.bind_some, hmake2, Option.bind_eq_bind, Option.bind_some, harr1,
        Option.bind_some, harr2]
      rfl
    · intro p hp
      rcases List.mem_append.1 hp with hp | hp
      · exact hsplits1.in_piece p hp
      · exact hsplits2.in_piece p hp
    · rw [List.map_append, List.flatMap_append,
        flatMap_splits hsplits1 hfits1 (by dsimp only; omega),
        flatMap_splits hsplits2 hfits2 (by dsimp only; omega)]
      dsimp only
      rw [hpred, hbegmod, hlastmod]
      have hcount : r.last.toNat - r.beg.toNat + 1 =
          (c.mfile.totfile_size.toNat - 1 - r.beg.toNat + 1) +
            (r.last.toNat - c.mfile.totfile_size.toNat + 1) := by omega
      rw [hcount, map_range_add _ (c.mfile.totfile_size.toNat - 1 - r.beg.toNat + 1)]
      congr 1
      · refine List.map_congr_left fun i hi => ?_
        have := List.mem_range.1 hi
        rw [Nat.mod_eq_of_lt (by omega)]
      · have hzero : (0 : UInt64).toNat = 0 := rfl
        rw [hzero, Nat.sub_zero]
        refine List.map_congr_left fun i hi => ?_
        have := List.mem_range.1 hi
        rw [Nat.mod_eq_sub_mod (by omega), Nat.mod_eq_of_lt (by omega)]
        congr 1
        omega

theorem accepts_len_le {r : FileRange} (hr : c.accepts r = true) :
    r.len ≤ c.mfile.totfile_size.toNat := by
  obtain ⟨-, hacc⟩ := Bool.and_eq_true_iff.1 hr
  have hle := r.le
  split_ifs at hacc
  · exact of_decide_eq_true hacc
  · have := of_decide_eq_true hacc
    rw [FileRange.len]
    omega

theorem totfileToPrangeArr_spec {r : FileRange} (hr : c.accepts r = true) :
    ∃ prange_arr, c.totfileToPrangeArr (toRange r) = some prange_arr ∧
      (∀ p ∈ prange_arr, p.InPiece c.mfile) ∧
        (prange_arr.map ofPrange).flatMap FilePart.places =
          (List.range r.len).map fun i => c.place ((r.beg + i) % c.mfile.totfile_size.toNat) := by
  obtain ⟨hmax, hacc⟩ := Bool.and_eq_true_iff.1 hr
  obtain ⟨hfits, hbeg, hlast⟩ := toRange_spec (of_decide_eq_true hmax)
  have hle := r.le
  have hlen : r.len = r.last - r.beg + 1 := rfl
  rw [totfileToPrangeArr]
  by_cases hge : (toRange r).beg ≥ c.mfile.totfile_size
  · have hge' := UInt64.le_iff_toNat_le.1 hge
    rw [hbeg] at hge'
    cases hcirc : c.has_circularidx with
    | false =>
      rw [hcirc] at hacc
      have := of_decide_eq_true hacc
      omega
    | true =>
      rw [hcirc] at hacc
      replace hacc := of_decide_eq_true hacc
      have hmod := Nat.mod_lt r.beg c.fits.pos
      have hmodle := Nat.mod_le r.beg c.mfile.totfile_size.toNat
      -- the range is shifted by a multiple of the size
      have hdelta : ((toRange r).beg - (toRange r).beg % c.mfile.totfile_size).toNat =
          r.beg - r.beg % c.mfile.totfile_size.toNat := by
        rw [UInt64.toNat_sub_of_le _ _ (UInt64.le_iff_toNat_le.2 (by
          rw [UInt64.toNat_mod, hbeg]; exact hmodle)), UInt64.toNat_mod, hbeg]
      set delta := (toRange r).beg - (toRange r).beg % c.mfile.totfile_size
      have hbeg' : ((toRange r).beg - delta).toNat = r.beg % c.mfile.totfile_size.toNat := by
        rw [UInt64.toNat_sub_of_le _ _ (UInt64.le_iff_toNat_le.2 (by omega)), hbeg, hdelta]
        omega
      have hlast' : ((toRange r).last - delta).toNat =
          r.beg % c.mfile.totfile_size.toNat + (r.last - r.beg) := by
        rw [UInt64.toNat_sub_of_le _ _ (UInt64.le_iff_toNat_le.2 (by omega)), hlast, hdelta]
        omega
      have hfits' : Range.Fits ⟨(toRange r).beg - delta, (toRange r).last - delta⟩ := by
        have := hfits.last_lt
        constructor <;> dsimp only <;> omega
      have hmake := Range.make_eq hfits'.le hfits'.last_lt
      dsimp only at hmake
      obtain ⟨prange_arr, harr, hin, hplaces⟩ := splitToPrangeArr_spec hfits'
        (by dsimp only; omega) (.inl hcirc) (by dsimp only; omega)
      refine ⟨prange_arr, ?_, hin, ?_⟩
      · rw [if_pos hge, if_pos rfl]
        dsimp only
        rw [hmake, Option.bind_eq_bind, Option.bind_some]
        exact harr
      · rw [hplaces]
        dsimp only
        have hcount : ((toRange r).last - delta).toNat - ((toRange r).beg - delta).toNat + 1 =
            r.len := by omega
        rw [hcount]
        refine List.map_congr_left fun i _ => ?_
        rw [hbeg', Nat.mod_add_mod]
  · have hlt := Nat.not_le.1 fun h => hge (UInt64.le_iff_toNat_le.2 h)
    have hcirc : c.has_circularidx = true ∧ r.len ≤ c.mfile.totfile_size.toNat ∨
        r.last < c.mfile.totfile_size.toNat := by
      cases hcirc : c.has_circularidx with
      | false =>
        rw [hcirc] at hacc
        exact .inr (of_decide_eq_true hacc)
      | true =>
        rw [hcirc] at hacc
        exact .inl ⟨rfl, of_decide_eq_true hacc⟩
    obtain ⟨prange_arr, harr, hin, hplaces⟩ := splitToPrangeArr_spec hfits hlt
      (hcirc.imp And.left fun h => by rw [hlast]; exact h)
      (by rw [hbeg] at hlt; omega)
    rw [hbeg, hlast] at hplaces
    exact ⟨prange_arr, (if_neg hge).trans harr, hin, hplaces⟩

/-! ### Removal -/

variable (c) in
/-- `remove` takes no range past the end. -/
def removes (r : FileRange) : Option (List ℕ) :=
  if r.last < fileSizeMax.toNat then c.removeArr (toRange r) else none

/-- The pieces which are removed are pieces of the file, and all their bytes are in the range. -/
theorem removes_spec {r : FileRange} {l : List ℕ} (h : c.removes r = some l) {idx : ℕ}
    (hidx : idx ∈ l) : idx < c.mfile.unit.nb_piece ∧ ∀ x < c.mfile.totfile_size.toNat,
      (c.place x).1 = idx → ∃ i < r.len, (r.beg + i) % c.mfile.totfile_size.toNat = x := by
  rw [removes] at h
  split_ifs at h with hmax
  obtain ⟨hfits, hbeg, hlast⟩ := toRange_spec hmax
  have hle := r.le
  have hlen : r.len = r.last - r.beg + 1 := rfl
  rw [removeArr] at h
  obtain ⟨prange_arr, harr, hall⟩ := Option.bind_eq_some_iff.1 h
  split_ifs at hall with hwhole
  obtain rfl := Option.some.inj hall
  obtain ⟨p, hp, rfl⟩ := List.mem_map.1 hidx
  -- the range is in the file
  have hlt : (toRange r).last < c.mfile.totfile_size := by
    rw [Totfile.totfileRangeToPrangeArr] at harr
    split_ifs at harr with hlt
    exact hlt
  have hlt' := UInt64.lt_iff_toNat_lt.1 hlt
  rw [hlast] at hlt'
  obtain ⟨prange_arr', harr', hsplits⟩ := Totfile.totfileRangeToPrangeArr_spec c.fits hfits hlt
  obtain rfl := Option.some.inj (harr'.symm.trans harr)
  have hplaces := flatMap_splits hsplits hfits (UInt64.lt_iff_toNat_lt.1 hlt)
  rw [hbeg, hlast, ← hlen] at hplaces
  obtain ⟨-, piecelen, hpiecelen, hin⟩ := hsplits.in_piece p hp
  have hfull := of_decide_eq_true (List.all_eq_true.1 hwhole p hp)
  obtain rfl := Option.some.inj (hpiecelen.symm.trans hfull)
  have hnb : p.piece_idx.toNat < c.mfile.unit.nb_piece := by
    by_contra hge
    rw [Totfile.pieceidxToPiecelen,
      if_pos fun hlt => hge ((Totfile.lt_nbPiece_iff c.fits).1 hlt)] at hfull
    cases hfull
  refine ⟨hnb, fun x hx hplace => ?_⟩
  obtain ⟨piecelen', hpiecelen', hnat⟩ := Totfile.pieceidxToPiecelen_eq c.fits hnb
  obtain rfl := Option.some.inj (hfull.symm.trans hpiecelen')
  -- the byte is before the end of its piece
  have hmem := (mem_pieceidxToTotfileRange (m := c.mfile.unit) hnb).2 ⟨hx, hplace⟩
  rw [FileRange.mem_def] at hmem
  have hpiece := len_pieceidxToTotfileRange hnb
  rw [FileRange.len, ← hnat] at hpiece
  have hbegpiece : (pieceidxToTotfileRange c.mfile.unit p.piece_idx.toNat).beg =
      c.mfile.piecelen.toNat * p.piece_idx.toNat := rfl
  have hdiv := Nat.div_add_mod x c.mfile.piecelen.toNat
  rw [show x / c.mfile.piecelen.toNat = p.piece_idx.toNat from hplace] at hdiv
  have hin' : c.place x ∈ (prange_arr'.map ofPrange).flatMap FilePart.places := by
    refine List.mem_flatMap.2 ⟨ofPrange p, List.mem_map_of_mem hp, ?_⟩
    refine List.mem_map.2 ⟨x % c.mfile.piecelen.toNat, List.mem_range.2 ?_, ?_⟩
    · show _ < p.length.toNat
      omega
    · refine Prod.ext hplace.symm ?_
      show p.offset.toNat + x % c.mfile.piecelen.toNat = x % c.mfile.piecelen.toNat
      omega
  rw [hplaces] at hin'
  obtain ⟨i, hi, hxi⟩ := List.mem_map.1 hin'
  have hi' := List.mem_range.1 hi
  refine ⟨i, hi', ?_⟩
  have heq : r.beg + i = x := by
    obtain ⟨h1, h2⟩ := Prod.mk.inj hxi
    have hdiv' := Nat.div_add_mod (r.beg + i) c.mfile.piecelen.toNat
    have hdivx := Nat.div_add_mod x c.mfile.piecelen.toNat
    rw [h1, h2] at hdiv'
    omega
  rw [heq, Nat.mod_eq_of_lt hx]

/-- The files of a `bt_io_pfile_t`. -/
def layout (c : Pfile) : FileLayout Datum where
  totfile_size := c.mfile.totfile_size.toNat
  size_pos := c.fits.pos
  nb_file := c.mfile.unit.nb_piece
  filepath := pieceFilename
  filepath_inj _ _ _ _ h := pieceFilename_inj h
  place := c.place
  place_lt x hx := (mem_range_totfileToPieceidx (m := c.mfile.unit) hx).1
  place_inj x _ y _ h := by
    obtain ⟨h1, h2⟩ := Prod.mk.inj h
    rw [← Nat.div_add_mod x c.mfile.piecelen.toNat, h1, h2, Nat.div_add_mod]
  creates := true
  accepts := c.accepts
  part_arr r := ((c.totfileToPrangeArr (toRange r)).getD []).map ofPrange
  len_le _ hr := accepts_len_le hr
  part_pos r hr part hpart := by
    obtain ⟨prange_arr, harr, hin, -⟩ := totfileToPrangeArr_spec hr
    rw [harr] at hpart
    obtain ⟨p, hp, rfl⟩ := List.mem_map.1 hpart
    exact UInt64.lt_iff_toNat_lt.1 (hin p hp).1
  places r hr := by
    obtain ⟨prange_arr, harr, -, hplaces⟩ := totfileToPrangeArr_spec hr
    rw [harr]
    exact hplaces
  removes := c.removes
  removes_lt _ _ h _ hidx := (removes_spec h hidx).1
  removes_whole _ _ h _ hidx x hx hplace := (removes_spec h hidx).2 x hx hplace

variable (c) (profile : FileAioProfile)

/-- **The piece files are a byte store**: in every run in which no operation, `remove` included,
begins on the bytes of another one which is not over, unless both are reads, each read which
succeeds has the bytes of its range, also past the end of a circular file, as they were written
last, and each write which succeeds has written all its bytes. -/
theorem pieces_refine (fs : FileSys Datum UInt8) (evs : List IoEvent)
    (h : Guarded (FileIo.step c.layout profile) (FileIo.NoOverlap c.layout) (FileIo.init fs) evs) :
    (run (FileIo.step c.layout profile) (FileIo.init fs) evs).Refines c.layout (c.layout.byte fs) :=
  (FileIo.inv_run h).refines

/-- A circular file of three pieces, the last one shorter. -/
def circular : Pfile where
  mfile := ⟨5, 2, by decide, by decide, by decide⟩
  fits := ⟨by decide, by decide, by decide⟩
  has_circularidx := true

/-- A write past the end goes on at the first piece, while the second one is removed; what is read
is what was written before. -/
theorem pieces_refine_circular :
    let evs : List IoEvent := [.write_ctor ⟨2, 3, by decide⟩ [4, 4] true,
      .zerotimer 0 (some 2) true, .write_ctor ⟨9, 11, by decide⟩ [7, 8, 9] true,
      .zerotimer 1 (some 2) true, .remove ⟨2, 3, by decide⟩ fun _ => true,
      .zerotimer 1 (some 2) true, .read_ctor ⟨4, 5, by decide⟩ true,
      .zerotimer 2 (some 2) true, .zerotimer 2 (some 2) true]
    let s := run (FileIo.step circular.layout ⟨2, 2⟩) (FileIo.init FileSys.empty) evs
    s.Refines circular.layout (circular.layout.byte FileSys.empty) ∧
      s.log = [.read 2 ⟨4, 5, by decide⟩ .OK [7, 8],
        .written 1 ⟨9, 11, by decide⟩ [7, 8, 9] 3 .OK, .removed 1,
        .written 0 ⟨2, 3, by decide⟩ [4, 4] 2 .OK] :=
  ⟨pieces_refine circular ⟨2, 2⟩ FileSys.empty _ (by decide +kernel), by decide +kernel⟩

/-! ### What is left -/

/-- `remove_temp_files`: the files which were marked are unlinked, and an error is ignored. -/
def removeTempFiles (s : FileIo Datum) (os_unlink : ℕ → Bool) : FileSys Datum UInt8 :=
  (List.range c.mfile.unit.nb_piece).foldl (fun fs piece_idx =>
    if s.file_exist piece_idx then
      (if os_unlink piece_idx then (fs.unlink (pieceFilename piece_idx)).getD fs else fs)
    else fs) s.fs

/-- The files which are unlinked in a loop. -/
theorem dir_foldl_unlink (file_exist : ℕ → Bool) (l : List ℕ) (fs : FileSys Datum UInt8)
    (q : Datum) :
    (l.foldl (fun fs idx =>
        if file_exist idx then
          (if (fun _ => true) idx then (fs.unlink (pieceFilename idx)).getD fs else fs)
        else fs) fs).dir q =
      if ∃ idx ∈ l, file_exist idx = true ∧ q = pieceFilename idx then none else fs.dir q := by
  induction l generalizing fs with
  | nil => rfl
  | cons idx l ih =>
    have hdir : (if file_exist idx then
        (if (fun _ => true) idx then (fs.unlink (pieceFilename idx)).getD fs else fs)
        else fs).dir q =
          if file_exist idx = true ∧ q = pieceFilename idx then none else fs.dir q := by
      cases file_exist idx with
      | false => rfl
      | true => exact FileSys.dir_getD_unlink.trans (by simp only [true_and])
    rw [List.foldl_cons, ih, hdir, ← ite_or]
    simp only [List.exists_mem_cons_iff, or_comm]

/-- **Nothing is left behind**: in every run, whatever operations overlap, fail or are deleted on
the way, no file changes but those of the pieces; and when the io is destroyed, and its calls of
`unlink(2)` succeed, the directory has the files which it had before. -/
theorem leaves_nothing (fs : FileSys Datum UInt8)
    (hfresh : ∀ i < c.mfile.unit.nb_piece, fs.dir (pieceFilename i) = none) (evs : List IoEvent) :
    (∀ q, (∀ i < c.mfile.unit.nb_piece, q ≠ pieceFilename i) →
      (run (FileIo.step c.layout profile) (FileIo.init fs) evs).fs.dir q = fs.dir q ∧
        ∀ ino, fs.dir q = some ino →
          (run (FileIo.step c.layout profile) (FileIo.init fs) evs).fs.node ino = fs.node ino) ∧
      (c.removeTempFiles (run (FileIo.step c.layout profile) (FileIo.init fs) evs)
        fun _ => true).dir = fs.dir := by
  have htidy := FileIo.tidy_run (L := c.layout) profile fs evs
  generalize run (FileIo.step c.layout profile) (FileIo.init fs) evs = s at htidy ⊢
  refine ⟨htidy.others, ?_⟩
  funext q
  rw [removeTempFiles, dir_foldl_unlink]
  by_cases hpiece : ∀ i < c.mfile.unit.nb_piece, q ≠ pieceFilename i
  · rw [if_neg, (htidy.others q hpiece).1]
    rintro ⟨i, hi, -, hq⟩
    exact hpiece i (List.mem_range.1 hi) hq
  · obtain ⟨i, hi, rfl⟩ : ∃ i < c.mfile.unit.nb_piece, q = pieceFilename i := by
      by_contra hnone
      exact hpiece fun i hi hq => hnone ⟨i, hi, hq⟩
    rw [hfresh i hi]
    split_ifs with hmarked
    · rfl
    · -- a file which was not marked was never made
      by_contra hne
      rcases htidy.marked rfl i hi hne with hmark | hold
      · exact hmarked ⟨i, List.mem_range.2 hi, hmark, rfl⟩
      · exact hold (hfresh i hi)

/-- A write which is deleted on its way, before the io is. -/
theorem leaves_nothing_circular :
    let s := run (FileIo.step circular.layout ⟨2, 2⟩) (FileIo.init FileSys.empty)
      [.write_ctor ⟨3, 5, by decide⟩ [7, 8, 9] true, .zerotimer 0 (some 1) true, .dtor 0]
    s.fs.dir (pieceFilename 1) = some 0 ∧ s.db 0 = none ∧
      (circular.removeTempFiles s fun _ => true).dir = fun _ => none :=
  ⟨by decide +kernel, by decide +kernel,
    (leaves_nothing circular ⟨2, 2⟩ FileSys.empty (fun _ _ => rfl) _).2⟩

/-- A write of three bytes in two pieces, of which the second cannot be opened. -/
theorem answers_circular :
    (run (FileIo.step circular.layout ⟨1, 1⟩) (FileIo.init FileSys.empty)
      ([.write_ctor ⟨3, 5, by decide⟩ [7, 8, 9] true] ++
        List.replicate 3 (.zerotimer 0 (some 1) false))).Answered 0 :=
  FileIo.answers (o := ⟨⟨3, 5, by decide⟩, [⟨1, 1, 1⟩, ⟨2, 0, 1⟩, ⟨0, 0, 1⟩], 0,
      .write [7, 8, 9] 0 (some ⟨0, 1, [7], 0⟩)⟩) FileSys.empty (by decide) (by decide)
    (by decide +kernel) (by rintro e he rfl; cases List.eq_of_mem_replicate he) (by decide +kernel)

end Pfile

end Neoip
