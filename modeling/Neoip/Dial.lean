/-
Neoip/Dial.lean

Positions on a dial of `m` places, and sums of them which are formed in a
machine word before they are reduced.

`Dial.dist m a b` is how far `b` is after `a`.  Between positions it is a
difference, with `m` added when the way goes around (`dist_of_le`,
`dist_of_lt`).

A word of `M` values loses `M` from a sum it cannot hold, and the reduction
hides that only when `M` is a multiple of `m` (`Dial.mod_mod_iff`).
-/
import Mathlib.Data.Int.ModEq
import Mathlib.Data.Nat.ModEq
import Mathlib.Tactic.Common

namespace Dial

variable {m a b d : ℤ}

/-- How far `b` is after `a`. -/
def dist (m a b : ℤ) : ℤ := (b - a) % m

theorem dist_nonneg (hm : 0 < m) : 0 ≤ dist m a b := Int.emod_nonneg _ hm.ne'

theorem dist_lt (hm : 0 < m) : dist m a b < m := Int.emod_lt_of_pos _ hm

/-- The distance leads from the one position to the other. -/
theorem add_dist (m a b : ℤ) : (a + dist m a b) % m = b % m := by
  rw [dist, Int.add_emod, Int.emod_emod_of_dvd _ dvd_rfl, ← Int.add_emod, add_sub_cancel]

/-- Only the distance does, among the values less than `m`. -/
theorem eq_dist (h0 : 0 ≤ d) (hd : d < m) (h : (a + d) % m = b % m) : d = dist m a b := by
  have hsum : a + d ≡ b [ZMOD m] := h
  have hsub : d ≡ b - a [ZMOD m] := by simpa using hsum.sub_right a
  rw [dist, ← hsub, Int.emod_eq_of_lt h0 hd]

/-- Going back by `d` from `b`, and going on by `d` from `a`. -/
theorem sub_emod_eq_iff (ha : a % m = a) : (b - d) % m = a ↔ (a + d) % m = b % m := by
  have hsub : (b - d) % m = a ↔ b - d ≡ a [ZMOD m] := by rw [Int.ModEq, ha]
  have hadd : a + d ≡ b [ZMOD m] ↔ a ≡ b - d [ZMOD m] :=
    ⟨fun h => by simpa using h.sub_right d, fun h => by simpa using h.add_right d⟩
  exact hsub.trans (Int.modEq_comm.trans hadd.symm)

/-! ### Distances between positions -/

theorem dist_of_le (ha : 0 ≤ a) (hab : a ≤ b) (hb : b < m) : dist m a b = b - a :=
  Int.emod_eq_of_lt (by omega) (by omega)

theorem dist_of_lt (hb : 0 ≤ b) (hba : b < a) (ha : a < m) : dist m a b = b + m - a := by
  rw [dist, ← Int.add_emod_right]
  exact (Int.emod_eq_of_lt (by omega) (by omega)).trans (by omega)

/-- Not further than `e` on the way from `a`, which does not go around. -/
theorem dist_le_dist_of_le {e : ℤ} (ha : 0 ≤ a) (he : e < m) (hb : 0 ≤ b) (hbm : b < m)
    (hae : a ≤ e) : dist m a b ≤ dist m a e ↔ a ≤ b ∧ b ≤ e := by
  rw [dist_of_le ha hae he]
  rcases le_or_gt a b with hab | hba
  · rw [dist_of_le ha hab hbm]
    omega
  · rw [dist_of_lt hb hba (by omega)]
    omega

/-- Not further than `e` on the way from `a`, which goes around. -/
theorem dist_le_dist_of_lt {e : ℤ} (ha : a < m) (he : 0 ≤ e) (hb : 0 ≤ b) (hbm : b < m)
    (hea : e < a) : dist m a b ≤ dist m a e ↔ a ≤ b ∨ b ≤ e := by
  rw [dist_of_lt he hea ha]
  rcases le_or_gt a b with hab | hba
  · rw [dist_of_le (by omega) hab hbm]
    omega
  · rw [dist_of_lt hb hba ha]
    omega

/-! ### Sums in a word -/

/-- A sum of two values of a word of `M` values, reduced modulo `m`. -/
theorem mod_mod_iff {M m s : ℕ} (hs : s < 2 * M) : s % M % m = s % m ↔ s < M ∨ m ∣ M := by
  rcases Nat.lt_or_ge s M with hlt | hge
  · simp [Nat.mod_eq_of_lt hlt, hlt]
  · have hmod : s % M = s - M := by
      rw [Nat.mod_eq_sub_mod hge]
      exact Nat.mod_eq_of_lt (by omega)
    have hdvd : s - M ≡ s [MOD m] ↔ m ∣ s - (s - M) := Nat.modEq_iff_dvd' (Nat.sub_le s M)
    rw [hmod, or_iff_right (by omega)]
    rwa [Nat.sub_sub_self hge] at hdvd

end Dial
