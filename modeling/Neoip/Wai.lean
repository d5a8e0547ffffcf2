/-
Neoip/Wai.lean

Wrap around integers: `wai_t`, sequence number arithmetic on `w` bits.

Two numbers are compared by the sign of their difference as a signed integer.
This is no order on all numbers: it is the one of the integers on numbers which
are less than `2 ^ (w - 1)` apart, which is what `wai_t` assumes of its user.

Main result: on such numbers the comparisons are those of the naturals which
the numbers are the low bits of (`lt_ofNat`, `ofNat_inj`), and the distance of
one behind another is the natural one (`behind_ofNat`).
-/
import Mathlib.Data.BitVec
import Mathlib.Tactic.Linarith
import Mathlib.Tactic.Common

namespace Neoip

/-- `wai_t`. -/
abbrev Wai (w : ℕ) := BitVec w

namespace Wai

variable {w m n k : ℕ}

/-- `wai_cmp`. -/
def cmp (a b : Wai w) : ℤ := (a - b).toInt

def lt (a b : Wai w) : Bool := cmp a b < 0

def gt (a b : Wai w) : Bool := 0 < cmp a b

/-- How far `a` is behind `b`. -/
def behind (a b : Wai w) : ℕ := (b - a).toNat

/-- Numbers less than half the range apart are compared as the naturals are. -/
theorem cmp_ofNat (hmn : m < n + 2 ^ w) (hnm : n < m + 2 ^ w) :
    cmp (BitVec.ofNat (w + 1) m) (BitVec.ofNat (w + 1) n) = m - n := by
  have hpow : 2 ^ (w + 1) = 2 * 2 ^ w := by rw [pow_succ, Nat.mul_comm]
  rw [cmp, BitVec.toInt_sub, BitVec.toInt_ofNat', BitVec.toInt_ofNat', Int.sub_bmod_bmod,
    Int.bmod_sub_bmod, hpow]
  generalize 2 ^ w = half at hmn hnm
  apply Int.bmod_eq_of_le
  · omega
  · omega

theorem lt_ofNat (hmn : m < n + 2 ^ w) (hnm : n < m + 2 ^ w) :
    lt (BitVec.ofNat (w + 1) m) (BitVec.ofNat (w + 1) n) = true ↔ m < n := by
  rw [lt, cmp_ofNat hmn hnm, decide_eq_true_iff]
  omega

theorem gt_ofNat (hmn : m < n + 2 ^ w) (hnm : n < m + 2 ^ w) :
    gt (BitVec.ofNat (w + 1) m) (BitVec.ofNat (w + 1) n) = true ↔ n < m := by
  rw [gt, cmp_ofNat hmn hnm, decide_eq_true_iff]
  omega

theorem ofNat_inj (hmn : m < n + 2 ^ w) (hnm : n < m + 2 ^ w)
    (heq : BitVec.ofNat (w + 1) m = BitVec.ofNat (w + 1) n) : m = n := by
  have hcmp := cmp_ofNat hmn hnm
  rw [heq, cmp, BitVec.sub_self, BitVec.toInt_zero] at hcmp
  omega

theorem ofNat_succ (w n : ℕ) : BitVec.ofNat w (n + 1) = BitVec.ofNat w n + 1 :=
  BitVec.ofNat_add n 1

theorem behind_ofNat (hmn : m ≤ n) (hlt : n < m + 2 ^ w) :
    behind (BitVec.ofNat w m) (BitVec.ofNat w n) = n - m := by
  obtain ⟨d, rfl⟩ := Nat.exists_eq_add_of_le hmn
  rw [behind, BitVec.ofNat_add, add_sub_cancel_left, BitVec.toNat_ofNat,
    Nat.add_sub_cancel_left, Nat.mod_eq_of_lt (by omega)]

end Wai

end Neoip
