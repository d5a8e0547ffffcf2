/-
Neoip/CastPidx.lean

The circular index of a piece in a cast: `bt_cast_pidx_t`.

A word of `w` bits stands for `size_t`.  An addition adds the whole operand
before it reduces the sum; a subtraction reduces its operand first, and adds what
is left to the modulo.  The distances add the modulo when the way goes around
and subtract right after, so that what the word loses comes back.

Main result: the operators compute in the integers, and the ranges and distances
agree with them, exactly when no sum which is reduced is lost in the word, or
the modulo divides the number of its values (`CastPidx.circular_iff`).
-/
import Mathlib.Data.BitVec
import Neoip.Dial

namespace Neoip

variable {w : ℕ}

/-- `bt_cast_pidx_t`, sane and not null. -/
@[ext]
structure CastPidx (w : ℕ) where
  modulo : BitVec w
  index : BitVec w
  index_lt : index < modulo
deriving DecidableEq

namespace CastPidx

/-! ### Queries -/

def isIn (p : CastPidx w) (range_beg range_end : BitVec w) : Bool :=
  if range_beg ≤ range_end then
    if p.index < range_beg then false
    else if p.index > range_end then false
    else true
  else if p.index ≥ range_beg then true
  else if p.index ≤ range_end then true
  else false

def isNbPieceBefore (p : CastPidx w) (pieceidx_fwd : BitVec w) : BitVec w :=
  let pieceidx_fwd := if pieceidx_fwd < p.index then pieceidx_fwd + p.modulo else pieceidx_fwd
  pieceidx_fwd - p.index

def isNbPieceAfter (p : CastPidx w) (pieceidx_bwd : BitVec w) : BitVec w :=
  let tmp_idx := if p.index < pieceidx_bwd then p.index + p.modulo else p.index
  tmp_idx - pieceidx_bwd

/-! ### Arithmetic operators -/

theorem toNat_index_lt (p : CastPidx w) : p.index.toNat < p.modulo.toNat := p.index_lt

theorem modulo_pos (p : CastPidx w) : 0 < p.modulo := by
  show (0#w).toNat < p.modulo.toNat
  rw [BitVec.toNat_zero]
  exact Nat.zero_lt_of_lt p.toNat_index_lt

/-- `m_index %= modulo()`, at the end of the operators. -/
def reduce (p : CastPidx w) (index : BitVec w) : CastPidx w where
  modulo := p.modulo
  index := index % p.modulo
  index_lt := BitVec.umod_lt _ p.modulo_pos

/-- `operator +=`. -/
def add (p : CastPidx w) (other : BitVec w) : CastPidx w := p.reduce (p.index + other)

/-- `operator -=`. -/
def sub (p : CastPidx w) (other : BitVec w) : CastPidx w :=
  p.reduce (p.index + (p.modulo - other % p.modulo))

theorem toNat_one (p : CastPidx w) : (1#w).toNat = 1 := by
  have hm := p.modulo.isLt
  have hi := p.toNat_index_lt
  rw [BitVec.toNat_ofNat]
  exact Nat.mod_eq_of_lt (by omega)

theorem toNat_index_add_one (p : CastPidx w) : (p.index + 1#w).toNat = p.index.toNat + 1 := by
  have hm := p.modulo.isLt
  have hi := p.toNat_index_lt
  rw [BitVec.toNat_add_of_lt (by rw [p.toNat_one]; omega), p.toNat_one]

theorem toNat_modulo_sub_one (p : CastPidx w) : (p.modulo - 1#w).toNat = p.modulo.toNat - 1 := by
  have hi := p.toNat_index_lt
  rw [BitVec.toNat_sub_of_le (by rw [BitVec.le_def, p.toNat_one]; omega), p.toNat_one]

/-- `operator ++`. -/
def incr (p : CastPidx w) : CastPidx w where
  modulo := p.modulo
  index := if p.index + 1#w ≠ p.modulo then p.index + 1#w else 0#w
  index_lt := by
    split_ifs with hne
    · rw [BitVec.lt_def, p.toNat_index_add_one]
      rw [Ne, ← BitVec.toNat_inj, p.toNat_index_add_one] at hne
      exact lt_of_le_of_ne p.toNat_index_lt hne
    · exact p.modulo_pos

/-- `operator --`. -/
def decr (p : CastPidx w) : CastPidx w where
  modulo := p.modulo
  index := if p.index ≠ 0#w then p.index - 1#w else p.modulo - 1#w
  index_lt := by
    have hi := p.toNat_index_lt
    split_ifs with hne
    · have hpos : 1#w ≤ p.index := by
        rw [BitVec.le_def, p.toNat_one]
        rw [Ne, ← BitVec.toNat_inj, BitVec.toNat_zero] at hne
        omega
      rw [BitVec.lt_def, BitVec.toNat_sub_of_le hpos]
      omega
    · rw [BitVec.lt_def, p.toNat_modulo_sub_one]
      omega

/-! ### Distances -/

variable {p : CastPidx w} {n x y m : BitVec w}

/-- The modulo which the sum loses in the word comes back with the difference. -/
theorem toNat_add_sub (hxy : x ≤ y) (hym : y ≤ m) :
    (x + m - y).toNat = x.toNat + m.toNat - y.toNat := by
  have hle : y - x ≤ m := by
    rw [BitVec.le_def, BitVec.toNat_sub_of_le hxy]
    exact (Nat.sub_le _ _).trans hym
  have heq : x + m - y = m - (y - x) := by rw [sub_sub_eq_add_sub, add_comm]
  rw [heq, BitVec.toNat_sub_of_le hle, BitVec.toNat_sub_of_le hxy]
  rw [BitVec.le_def] at hxy hym
  omega

/-- Either distance is the one on the dial. -/
theorem toNat_ite_sub (hx : x < m) (hy : y < m) :
    (((if x < y then x + m else x) - y).toNat : ℤ) = Dial.dist m.toNat y.toNat x.toNat := by
  have hx' : x.toNat < m.toNat := hx
  have hy' : y.toNat < m.toNat := hy
  split_ifs with hxy
  · have hxy' : x.toNat < y.toNat := hxy
    rw [toNat_add_sub (BitVec.le_of_lt hxy) (BitVec.le_of_lt hy),
      Dial.dist_of_lt (by omega) (by omega) (by omega)]
    omega
  · have hyx : y.toNat ≤ x.toNat := Nat.le_of_not_lt hxy
    rw [BitVec.toNat_sub_of_le hyx, Dial.dist_of_le (by omega) (by omega) (by omega)]
    omega

theorem toNat_isNbPieceBefore (hn : n < p.modulo) : ((p.isNbPieceBefore n).toNat : ℤ) =
    Dial.dist p.modulo.toNat p.index.toNat n.toNat :=
  toNat_ite_sub hn p.index_lt

theorem toNat_isNbPieceAfter (hn : n < p.modulo) : ((p.isNbPieceAfter n).toNat : ℤ) =
    Dial.dist p.modulo.toNat n.toNat p.index.toNat :=
  toNat_ite_sub p.index_lt hn

/-- The range holds what is not further from its beginning than its end. -/
theorem isIn_iff {range_beg range_end : BitVec w} (hbeg : range_beg < p.modulo)
    (hend : range_end < p.modulo) : p.isIn range_beg range_end = true ↔
      Dial.dist p.modulo.toNat range_beg.toNat p.index.toNat ≤
        Dial.dist p.modulo.toNat range_beg.toNat range_end.toNat := by
  have hbeg' : range_beg.toNat < p.modulo.toNat := hbeg
  have hend' : range_end.toNat < p.modulo.toNat := hend
  have hidx := p.toNat_index_lt
  unfold isIn
  by_cases hle : range_beg ≤ range_end
  · have hle' : range_beg.toNat ≤ range_end.toNat := hle
    rw [if_pos hle, Dial.dist_le_dist_of_le (by omega) (by omega) (by omega) (by omega) (by omega)]
    simp [BitVec.lt_def]
  · have hlt : range_end.toNat < range_beg.toNat := Nat.lt_of_not_le hle
    rw [if_neg hle, Dial.dist_le_dist_of_lt (by omega) (by omega) (by omega) (by omega) (by omega)]
    simp [BitVec.le_def]

/-! ### The operators -/

theorem toNat_add (p : CastPidx w) (n : BitVec w) : (p.add n).index.toNat =
    (p.index.toNat + n.toNat) % 2 ^ w % p.modulo.toNat := by
  show ((p.index + n) % p.modulo).toNat = _
  rw [BitVec.toNat_umod, BitVec.toNat_add]

/-- What `operator -=` adds. -/
def back (p : CastPidx w) (n : BitVec w) : ℕ := p.modulo.toNat - n.toNat % p.modulo.toNat

theorem toNat_sub (p : CastPidx w) (n : BitVec w) : (p.sub n).index.toNat =
    (p.index.toNat + p.back n) % 2 ^ w % p.modulo.toNat := by
  have hle : n % p.modulo ≤ p.modulo := BitVec.le_of_lt (BitVec.umod_lt n p.modulo_pos)
  show ((p.index + (p.modulo - n % p.modulo)) % p.modulo).toNat = _
  rw [BitVec.toNat_umod, BitVec.toNat_add, BitVec.toNat_sub_of_le hle, BitVec.toNat_umod, back]

/-! ### The integers -/

/-- The operators and the queries agree, as over the integers. -/
structure Circular (p : CastPidx w) (n : BitVec w) : Prop where
  add : ((p.add n).index.toNat : ℤ) = (p.index.toNat + n.toNat) % p.modulo.toNat
  sub : ((p.sub n).index.toNat : ℤ) = (p.index.toNat - n.toNat) % p.modulo.toNat
  sub_add : (p.add n).sub n = p
  before : ∀ fwd < p.modulo, ∀ d : ℤ,
    0 ≤ d ∧ d < p.modulo.toNat ∧ (p.index.toNat + d) % p.modulo.toNat = fwd.toNat ↔
      d = (p.isNbPieceBefore fwd).toNat
  after : ∀ bwd < p.modulo, ∀ d : ℤ,
    0 ≤ d ∧ d < p.modulo.toNat ∧ (p.index.toNat - d) % p.modulo.toNat = bwd.toNat ↔
      d = (p.isNbPieceAfter bwd).toNat
  isIn : ∀ range_beg < p.modulo, ∀ range_end < p.modulo,
    p.isIn range_beg range_end = true ↔
      Dial.dist p.modulo.toNat range_beg.toNat p.index.toNat ≤
        Dial.dist p.modulo.toNat range_beg.toNat range_end.toNat

/-- No sum which an operator reduces is lost in the word. -/
structure Fits (p : CastPidx w) (n : BitVec w) : Prop where
  add : p.index.toNat + n.toNat < 2 ^ w
  sub : p.index.toNat + (p.modulo.toNat - n.toNat % p.modulo.toNat) < 2 ^ w
  sub_add : p.index.toNat + n.toNat % p.modulo.toNat < p.modulo.toNat →
    p.index.toNat + p.modulo.toNat < 2 ^ w

theorem add_iff : ((p.add n).index.toNat : ℤ) = (p.index.toNat + n.toNat) % p.modulo.toNat ↔
    p.index.toNat + n.toNat < 2 ^ w ∨ p.modulo.toNat ∣ 2 ^ w := by
  have hi := p.index.isLt
  have hn := n.isLt
  rw [toNat_add, ← Dial.mod_mod_iff (by omega)]
  norm_cast

/-- What is added is the opposite of the operand. -/
theorem add_back_emod (p : CastPidx w) (n : BitVec w) (i : ℤ) :
    (i + p.back n) % p.modulo.toNat = (i - n.toNat) % p.modulo.toNat := by
  have hle : n.toNat % p.modulo.toNat ≤ p.modulo.toNat :=
    (Nat.mod_lt _ (Nat.zero_lt_of_lt p.toNat_index_lt)).le
  rw [back, Nat.cast_sub hle, Int.natCast_mod]
  have hsum : i + ((p.modulo.toNat : ℤ) - n.toNat % p.modulo.toNat) =
      i - n.toNat % p.modulo.toNat + p.modulo.toNat := by omega
  rw [hsum, Int.add_emod_right, Int.sub_emod_emod]

theorem sub_iff : ((p.sub n).index.toNat : ℤ) = (p.index.toNat - n.toNat) % p.modulo.toNat ↔
    p.index.toNat + p.back n < 2 ^ w ∨ p.modulo.toNat ∣ 2 ^ w := by
  have hi := p.index.isLt
  have hm := p.modulo.isLt
  have hback : p.back n ≤ p.modulo.toNat := Nat.sub_le _ _
  rw [toNat_sub, ← Dial.mod_mod_iff (by omega), ← add_back_emod]
  norm_cast

/-- Subtracting after an addition: the sum is the index again, or is past the end of the dial. -/
theorem add_mod_add_back (p : CastPidx w) (n : BitVec w) :
    (p.index.toNat + n.toNat) % p.modulo.toNat + p.back n =
      if p.index.toNat + n.toNat % p.modulo.toNat < p.modulo.toNat then
        p.index.toNat + p.modulo.toNat
      else p.index.toNat := by
  have hi := p.toNat_index_lt
  have hlt : n.toNat % p.modulo.toNat < p.modulo.toNat := Nat.mod_lt _ (by omega)
  rw [back, Nat.add_mod, Nat.mod_eq_of_lt hi]
  split_ifs with hsum
  · rw [Nat.mod_eq_of_lt hsum]
    omega
  · rw [Nat.mod_eq_sub_mod (Nat.le_of_not_lt hsum), Nat.mod_eq_of_lt (by omega)]
    omega

theorem sub_add_iff (hadd : (p.add n).index.toNat = (p.index.toNat + n.toNat) % p.modulo.toNat) :
    (p.add n).sub n = p ↔ (p.index.toNat + n.toNat % p.modulo.toNat < p.modulo.toNat →
      p.index.toNat + p.modulo.toNat < 2 ^ w) ∨ p.modulo.toNat ∣ 2 ^ w := by
  have hi := p.toNat_index_lt
  have hi' := p.index.isLt
  have hm := p.modulo.isLt
  have hsum := p.add_mod_add_back n
  have hindex : ((p.add n).sub n).index.toNat =
      ((p.index.toNat + n.toNat) % p.modulo.toNat + p.back n) % 2 ^ w % p.modulo.toNat := by
    rw [toNat_sub, hadd]
    rfl
  have hback : ((p.index.toNat + n.toNat) % p.modulo.toNat + p.back n) % p.modulo.toNat =
      p.index.toNat := by
    rw [hsum]
    split_ifs
    · rw [Nat.add_mod_right, Nat.mod_eq_of_lt hi]
    · exact Nat.mod_eq_of_lt hi
  have heq : (p.add n).sub n = p ↔ ((p.add n).sub n).index.toNat = p.index.toNat :=
    ⟨fun h => by rw [h], fun h => CastPidx.ext rfl (BitVec.eq_of_toNat_eq h)⟩
  have hfits : (p.index.toNat + n.toNat) % p.modulo.toNat + p.back n < 2 ^ w ↔
      (p.index.toNat + n.toNat % p.modulo.toNat < p.modulo.toNat →
        p.index.toNat + p.modulo.toNat < 2 ^ w) := by
    rw [hsum]
    split_ifs with hlt
    · simp [hlt]
    · simp [hlt, hi']
  have hle : (p.index.toNat + n.toNat) % p.modulo.toNat + p.back n < 2 * 2 ^ w := by
    rw [hsum]
    split_ifs <;> omega
  rw [heq, hindex, ← hfits, ← Dial.mod_mod_iff hle, hback]

theorem before_iff {fwd : BitVec w} (hfwd : fwd < p.modulo) (d : ℤ) :
    0 ≤ d ∧ d < p.modulo.toNat ∧ (p.index.toNat + d) % p.modulo.toNat = fwd.toNat ↔
      d = (p.isNbPieceBefore fwd).toNat := by
  have hfwd' : fwd.toNat < p.modulo.toNat := hfwd
  have hmod : (fwd.toNat : ℤ) % p.modulo.toNat = fwd.toNat :=
    Int.emod_eq_of_lt (by omega) (by omega)
  rw [toNat_isNbPieceBefore hfwd]
  constructor
  · rintro ⟨h0, hd, heq⟩
    exact Dial.eq_dist h0 hd (heq.trans hmod.symm)
  · rintro rfl
    exact ⟨Dial.dist_nonneg (by omega), Dial.dist_lt (by omega),
      (Dial.add_dist _ _ _).trans hmod⟩

theorem after_iff {bwd : BitVec w} (hbwd : bwd < p.modulo) (d : ℤ) :
    0 ≤ d ∧ d < p.modulo.toNat ∧ (p.index.toNat - d) % p.modulo.toNat = bwd.toNat ↔
      d = (p.isNbPieceAfter bwd).toNat := by
  have hbwd' : bwd.toNat < p.modulo.toNat := hbwd
  have hi := p.toNat_index_lt
  have hidx : (p.index.toNat : ℤ) % p.modulo.toNat = p.index.toNat :=
    Int.emod_eq_of_lt (by omega) (by omega)
  have hmod : (bwd.toNat : ℤ) % p.modulo.toNat = bwd.toNat :=
    Int.emod_eq_of_lt (by omega) (by omega)
  rw [toNat_isNbPieceAfter hbwd, Dial.sub_emod_eq_iff hmod]
  constructor
  · rintro ⟨h0, hd, heq⟩
    exact Dial.eq_dist h0 hd heq
  · rintro rfl
    exact ⟨Dial.dist_nonneg (by omega), Dial.dist_lt (by omega), Dial.add_dist _ _ _⟩

/-- The operators compute as over the integers exactly when no sum which they reduce is lost, or
the modulo hides the loss. -/
theorem circular_iff (p : CastPidx w) (n : BitVec w) :
    p.Circular n ↔ p.modulo.toNat ∣ 2 ^ w ∨ p.Fits n := by
  constructor
  · intro h
    by_cases hdvd : p.modulo.toNat ∣ 2 ^ w
    · exact Or.inl hdvd
    · have hadd : (p.add n).index.toNat = (p.index.toNat + n.toNat) % p.modulo.toNat := by
        exact_mod_cast h.add
      exact Or.inr ⟨(add_iff.1 h.add).resolve_right hdvd, (sub_iff.1 h.sub).resolve_right hdvd,
        ((sub_add_iff hadd).1 h.sub_add).resolve_right hdvd⟩
  · intro h
    have hadd := add_iff.2 (h.symm.imp_left Fits.add)
    exact {
      add := hadd
      sub := sub_iff.2 (h.symm.imp_left Fits.sub)
      sub_add := (sub_add_iff (by exact_mod_cast hadd)).2 (h.symm.imp_left Fits.sub_add)
      before := fun _ hfwd d => before_iff hfwd d
      after := fun _ hbwd d => after_iff hbwd d
      isIn := fun _ hbeg _ hend => isIn_iff hbeg hend }

/-- Ten pieces, and a jump by almost the whole word. -/
theorem not_circular :
    ¬ (⟨10, 5, by decide⟩ : CastPidx 64).Circular 18446744073709551615 := by
  intro h
  have hadd := h.add
  revert hadd
  decide

end CastPidx

end Neoip
