/-
Neoip/Unit.lean

File ranges, the shared file, and the conversions between them:
`file_range_t`, the precomputed values of `bt_mfile_t`, `bt_unit_t` and
`bt_prange_t`.

The shared file is the concatenation of its subfiles (the *totfile*), cut in
pieces of `piecelen` bytes, the last of which may be shorter.  A `FileRange`
carries its sanity (`beg ≤ end`: a range of no byte does not exist) as a field,
so the conversions that the source guards with an assertion on it return an
option.

Main results: the ranges of the pieces partition the totfile
(`mem_pieceidxToTotfileRange`), and a piece range which stays within its piece
is turned into a file range within that piece (`Prange.toTotfileRange_spec`).
-/
import Mathlib.Algebra.Order.Ring.Nat
import Mathlib.Tactic.Ring
import Neoip.Interval

namespace Neoip

/-! ### `file_size_t` -/

/-- `file_size_t::MAX_VAL`, "the maximum acceptable value for a file_size". -/
def fileSizeMax : UInt64 := 0xFFFFFFFFFFFFFFE

/-- `file_size_t::NONE_VAL`. -/
def fileSizeNone : UInt64 := 0xFFFFFFFFFFFFFFF

theorem fileSizeMax_toNat : fileSizeMax.toNat = 1152921504606846974 := rfl

theorem fileSizeNone_toNat : fileSizeNone.toNat = 1152921504606846975 := rfl

/-! ### `file_range_t` -/

/-- `file_range_t`, both ends included.  The source calls the second one `end()`,
or `last()`. -/
structure FileRange where
  beg : ℕ
  last : ℕ
  le : beg ≤ last
deriving DecidableEq, Repr

namespace FileRange

def len (r : FileRange) : ℕ := r.last - r.beg + 1

def isDistinct (r other : FileRange) : Bool :=
  if r.beg > other.last then true
  else if r.last < other.beg then true
  else false

def fullyInclude (r other : FileRange) : Bool :=
  if r.beg > other.beg then false
  else if r.last < other.last then false
  else true

def fullyAfter (r other : FileRange) : Bool := other.last < r.beg

/-- Strictly contiguous: ranges which overlap are not. -/
def isContiguous (r other : FileRange) : Bool :=
  if r.beg = other.last + 1 then true
  else if r.last + 1 = other.beg then true
  else false

def toInvalItem (r : FileRange) : FileSizeInval.Item := ⟨⟨r.beg, r.last⟩, r.le⟩

def fromInvalItem (item : FileSizeInval.Item) : FileRange := ⟨item.min_val, item.max_val, item.le⟩

instance : Membership ℕ FileRange := ⟨fun r x => r.beg ≤ x ∧ x ≤ r.last⟩

variable {r other : FileRange} {x : ℕ}

theorem mem_def : x ∈ r ↔ r.beg ≤ x ∧ x ≤ r.last := Iff.rfl

instance : Decidable (x ∈ r) := inferInstanceAs (Decidable (r.beg ≤ x ∧ x ≤ r.last))

theorem beg_mem (r : FileRange) : r.beg ∈ r := ⟨le_refl _, r.le⟩

theorem isDistinct_iff : r.isDistinct other = true ↔ ∀ x, x ∈ r → x ∉ other := by
  have hr := r.le
  have ho := other.le
  have hcond : r.isDistinct other = true ↔ r.beg > other.last ∨ r.last < other.beg := by
    unfold isDistinct
    split_ifs <;> simp_all
  rw [hcond]
  constructor
  · intro h x hx hx'
    rw [mem_def] at hx hx'
    omega
  · intro h
    by_contra hn
    refine h (max r.beg other.beg) ?_ ?_ <;> rw [mem_def] <;> omega

theorem fullyInclude_bounds :
    r.fullyInclude other = true ↔ r.beg ≤ other.beg ∧ other.last ≤ r.last := by
  unfold fullyInclude
  split_ifs <;> simp_all

theorem fullyInclude_iff : r.fullyInclude other = true ↔ ∀ x, x ∈ other → x ∈ r := by
  have hr := r.le
  have ho := other.le
  rw [fullyInclude_bounds]
  constructor
  · intro h x hx
    rw [mem_def] at hx ⊢
    omega
  · intro h
    have hbeg := h other.beg ⟨le_refl _, ho⟩
    have hlast := h other.last ⟨ho, le_refl _⟩
    rw [mem_def] at hbeg hlast
    omega

theorem isDistinct_bounds :
    r.isDistinct other = true ↔ other.last < r.beg ∨ r.last < other.beg := by
  unfold isDistinct
  split_ifs <;> simp_all

theorem isContiguous_bounds :
    r.isContiguous other = true ↔ r.beg = other.last + 1 ∨ r.last + 1 = other.beg := by
  unfold isContiguous
  split_ifs <;> simp_all

/-- `clamped_by`; the null range, of two distinct ranges, is `none`. -/
def clampedBy (r other : FileRange) : Option FileRange :=
  if h : r.isDistinct other then none
  else some
    { beg := if r.beg < other.beg then other.beg else r.beg
      last := if r.last > other.last then other.last else r.last
      le := by
        have hr := r.le
        have ho := other.le
        rw [isDistinct_bounds] at h
        split_ifs <;> omega }

/-- The smallest range with both in it. -/
def span (r other : FileRange) : FileRange where
  beg := min r.beg other.beg
  last := max r.last other.last
  le := (min_le_left ..).trans (r.le.trans (le_max_left ..))

theorem clampedBy_eq_some {common : FileRange} (h : r.clampedBy other = some common) :
    common.beg = max r.beg other.beg ∧ common.last = min r.last other.last := by
  unfold clampedBy at h
  by_cases hd : r.isDistinct other = true
  · rw [dif_pos hd] at h
    cases h
  · rw [dif_neg hd] at h
    obtain rfl := Option.some.inj h
    constructor
    · show (if r.beg < other.beg then other.beg else r.beg) = _
      split_ifs <;> omega
    · show (if r.last > other.last then other.last else r.last) = _
      split_ifs <;> omega

theorem clampedBy_isSome {x : ℕ} (hx : x ∈ r) (hx' : x ∈ other) :
    ∃ common, r.clampedBy other = some common := by
  unfold clampedBy
  rw [dif_neg]
  · exact ⟨_, rfl⟩
  · intro h
    exact isDistinct_iff.1 h x hx hx'

@[simp] theorem toInvalItem_min : r.toInvalItem.min_val = r.beg := rfl

@[simp] theorem toInvalItem_max : r.toInvalItem.max_val = r.last := rfl

end FileRange

/-! ### `bt_mfile_t` -/

def ceilDiv (num div : ℕ) : ℕ := (num + (div - 1)) / div

/-- The part of `bt_mfile_t` which the swarm reads: its precomputed values, and
whether the pieces are to be checked against a hash. -/
structure Mfile where
  totfile_size : ℕ
  piecelen : ℕ
  do_piecehash : Bool
  piecelen_pos : 0 < piecelen

namespace Mfile

def nb_piece (m : Mfile) : ℕ := ceilDiv m.totfile_size m.piecelen

theorem lt_nb_piece_iff (m : Mfile) (idx : ℕ) :
    idx < m.nb_piece ↔ idx * m.piecelen < m.totfile_size := by
  have hpos := m.piecelen_pos
  rw [nb_piece, ceilDiv, Nat.lt_div_iff_mul_lt hpos]
  omega

end Mfile

/-! ### `bt_unit_t` -/

variable (m : Mfile) (idx : ℕ)

def totfileToPieceidx (totfile_offset : ℕ) : ℕ := totfile_offset / m.piecelen

/-- The last piece is shorter when the size of the file is no multiple of `piecelen`. -/
def pieceidxToPiecelen : ℕ :=
  if idx + 1 = m.nb_piece ∧ m.totfile_size % m.piecelen ≠ 0 then m.totfile_size % m.piecelen
  else m.piecelen

def pieceidxToPiecebeg : ℕ := m.piecelen * idx

def pieceidxToPieceend : ℕ :=
  if idx + 1 = m.nb_piece then m.totfile_size - 1
  else m.piecelen * (idx + 1) - 1

variable {m idx}

theorem piecebeg_le_pieceend : pieceidxToPiecebeg m idx ≤ pieceidxToPieceend m idx := by
  have hpos := m.piecelen_pos
  unfold pieceidxToPiecebeg pieceidxToPieceend
  split_ifs with h
  · have hlt : idx * m.piecelen < m.totfile_size := (m.lt_nb_piece_iff idx).1 (by omega)
    rw [Nat.mul_comm] at hlt
    omega
  · rw [Nat.mul_add, Nat.mul_one]
    omega

def pieceidxToTotfileRange (m : Mfile) (idx : ℕ) : FileRange :=
  ⟨pieceidxToPiecebeg m idx, pieceidxToPieceend m idx, piecebeg_le_pieceend⟩

/-- The bytes of a piece are the bytes of the totfile whose offset divides to it. -/
theorem mem_pieceidxToTotfileRange (hidx : idx < m.nb_piece) {x : ℕ} :
    x ∈ pieceidxToTotfileRange m idx ↔ x < m.totfile_size ∧ totfileToPieceidx m x = idx := by
  have hpos := m.piecelen_pos
  have hlt := (m.lt_nb_piece_iff idx).1 hidx
  have hsucc := m.lt_nb_piece_iff (idx + 1)
  have hdiv : x / m.piecelen = idx ↔ m.piecelen * idx ≤ x ∧ x < m.piecelen * (idx + 1) := by
    rw [Nat.div_eq_iff hpos, Nat.mul_comm idx, Nat.mul_add, Nat.mul_one]
    omega
  rw [FileRange.mem_def, totfileToPieceidx, hdiv]
  simp only [pieceidxToTotfileRange, pieceidxToPiecebeg, pieceidxToPieceend]
  rw [Nat.mul_comm] at hlt hsucc
  have hstep : m.piecelen * (idx + 1) = m.piecelen * idx + m.piecelen := Nat.mul_succ _ _
  generalize m.piecelen * (idx + 1) = next at *
  generalize m.piecelen * idx = start at *
  split_ifs with h
  · have : ¬ (next < m.totfile_size) := by rw [← hsucc]; omega
    omega
  · have : next < m.totfile_size := hsucc.1 (by omega)
    omega

/-- Every byte of the totfile is in the range of its piece. -/
theorem mem_range_totfileToPieceidx {x : ℕ} (hx : x < m.totfile_size) :
    totfileToPieceidx m x < m.nb_piece ∧
      x ∈ pieceidxToTotfileRange m (totfileToPieceidx m x) := by
  have hidx : totfileToPieceidx m x < m.nb_piece := by
    rw [m.lt_nb_piece_iff]
    exact lt_of_le_of_lt (Nat.div_mul_le_self x m.piecelen) hx
  exact ⟨hidx, (mem_pieceidxToTotfileRange hidx).2 ⟨hx, rfl⟩⟩

theorem len_pieceidxToTotfileRange (hidx : idx < m.nb_piece) :
    (pieceidxToTotfileRange m idx).len = pieceidxToPiecelen m idx := by
  have hpos := m.piecelen_pos
  have hlt := (m.lt_nb_piece_iff idx).1 hidx
  have hsucc := m.lt_nb_piece_iff (idx + 1)
  simp only [FileRange.len, pieceidxToTotfileRange, pieceidxToPiecebeg, pieceidxToPieceend,
    pieceidxToPiecelen]
  rw [Nat.add_mul, Nat.one_mul] at hsucc
  rw [Nat.mul_comm] at hlt hsucc
  by_cases h : idx + 1 = m.nb_piece
  · have hle : m.totfile_size ≤ m.piecelen * idx + m.piecelen := by
      by_contra hn
      have := hsucc.2 (by omega)
      omega
    have hmod : m.totfile_size % m.piecelen = (m.totfile_size - m.piecelen * idx) % m.piecelen := by
      conv_lhs => rw [← Nat.sub_add_cancel (le_of_lt hlt), Nat.add_mul_mod_self_left]
    by_cases hfull : m.totfile_size = m.piecelen * idx + m.piecelen
    · have h0 : m.totfile_size % m.piecelen = 0 := by rw [hfull]; simp
      simp only [h, h0, ne_eq, not_true_eq_false, and_false, if_true, if_false]
      omega
    · have hrest : m.totfile_size % m.piecelen = m.totfile_size - m.piecelen * idx := by
        rw [hmod, Nat.mod_eq_of_lt (by omega)]
      have hne : m.totfile_size % m.piecelen ≠ 0 := by omega
      simp only [h, hne, ne_eq, not_false_eq_true, and_self, if_true]
      omega
  · simp only [h, false_and, if_false]
    rw [Nat.mul_add, Nat.mul_one]
    omega

/-! ### `bt_prange_t` -/

/-- `bt_prange_t`: a range of bytes inside a piece, as the messages give it. -/
structure Prange where
  piece_idx : ℕ
  offset : ℕ
  length : ℕ
deriving DecidableEq, Repr

namespace Prange

/-- `bt_prange_t::to_totfile_range`; no range when its sanity assertion fails. -/
def toTotfileRange (p : Prange) (m : Mfile) : Option FileRange :=
  let beg := p.piece_idx * m.piecelen + p.offset
  if h : beg + 1 ≤ beg + p.length then some ⟨beg, beg + p.length - 1, by omega⟩ else none

def fromTotfileRange (r : FileRange) (m : Mfile) : Prange where
  piece_idx := r.beg / m.piecelen
  offset := r.beg % m.piecelen
  length := r.len

/-- A range of at least one byte which stays in its piece is sane once turned into
a file range, and lies in the piece. -/
theorem toTotfileRange_spec {p : Prange} (hidx : p.piece_idx < m.nb_piece)
    (hlen : p.length ≠ 0) (hin : p.offset + p.length ≤ pieceidxToPiecelen m p.piece_idx) :
    ∃ r, p.toTotfileRange m = some r ∧ r.len = p.length ∧
      (pieceidxToTotfileRange m p.piece_idx).fullyInclude r = true ∧
      r.last < m.totfile_size := by
  have hlen' := len_pieceidxToTotfileRange hidx
  have hle := (pieceidxToTotfileRange m p.piece_idx).le
  have hlast := (mem_pieceidxToTotfileRange hidx).1
    (show (pieceidxToTotfileRange m p.piece_idx).last ∈ _ from ⟨hle, le_refl _⟩)
  have hbeg : (pieceidxToTotfileRange m p.piece_idx).beg = p.piece_idx * m.piecelen :=
    Nat.mul_comm _ _
  rw [FileRange.len] at hlen'
  refine ⟨⟨p.piece_idx * m.piecelen + p.offset,
    p.piece_idx * m.piecelen + p.offset + p.length - 1, by omega⟩, ?_, ?_, ?_, ?_⟩
  · simp only [toTotfileRange]
    rw [dif_pos (by omega)]
  · simp only [FileRange.len]
    omega
  · rw [FileRange.fullyInclude_iff]
    intro x hx
    rw [FileRange.mem_def] at hx ⊢
    simp only [] at hx
    omega
  · simp only []
    omega

end Prange

end Neoip
