/-
Neoip/BitPrefix.lean

Words with the same first bits, and cursors which go around from one word to
another one.

The words which agree with `b` on their first `p` bits are an interval.  Its
ends are `b` without its other bits, and with all of them (`agree_iff_mem_Icc`).
A cursor counts up to the last word and begins again at the first one
(`toNat_cursor`).
-/
import Mathlib.Data.BitVec
import Mathlib.Data.Nat.ModEq
import Mathlib.Tactic.Common

namespace BitPrefix

variable {w p : ℕ} {a b lo hi : BitVec w}

/-! ### The first bits -/

/-- The same first `p` bits. -/
def Agree (p : ℕ) (a b : BitVec w) : Prop := ∀ i < p, a.getMsbD i = b.getMsbD i

/-- The first `p` bits. -/
def mask (w p : ℕ) : BitVec w := BitVec.allOnes w <<< (w - p)

theorem getMsbD_mask {i : ℕ} (hp : p ≤ w) : (mask w p).getMsbD i = decide (i < p) := by
  rw [mask, BitVec.getMsbD_shiftLeft, BitVec.getMsbD_allOnes]
  exact decide_eq_decide.2 (by omega)

/-- Agreeing, and without any other bit. -/
theorem eq_and_mask_iff (hp : p ≤ w) :
    a = b &&& mask w p ↔ Agree p a b ∧ ∀ i, p ≤ i → i < w → a.getMsbD i = false := by
  constructor
  · rintro rfl
    refine ⟨fun i hi => ?_, fun i hpi hi => ?_⟩
    · rw [BitVec.getMsbD_and, getMsbD_mask hp, decide_eq_true hi, Bool.and_true]
    · rw [BitVec.getMsbD_and, getMsbD_mask hp, decide_eq_false (by omega), Bool.and_false]
  · rintro ⟨hagree, hlow⟩
    refine BitVec.eq_of_getMsbD_eq fun i hi => ?_
    rw [BitVec.getMsbD_and, getMsbD_mask hp]
    by_cases hip : i < p
    · rw [hagree i hip, decide_eq_true hip, Bool.and_true]
    · rw [hlow i (by omega) hi, decide_eq_false hip, Bool.and_false]

/-- Agreeing, and with all the other bits. -/
theorem eq_or_not_mask_iff (hp : p ≤ w) :
    a = b ||| ~~~mask w p ↔ Agree p a b ∧ ∀ i, p ≤ i → i < w → a.getMsbD i = true := by
  have hbit : ∀ i, i < w → (b ||| ~~~mask w p).getMsbD i = (b.getMsbD i || !decide (i < p)) := by
    intro i hi
    rw [BitVec.getMsbD_or, BitVec.getMsbD_not, getMsbD_mask hp, decide_eq_true hi, Bool.true_and]
  constructor
  · rintro rfl
    refine ⟨fun i hi => ?_, fun i hpi hi => ?_⟩
    · rw [hbit i (by omega), decide_eq_true hi, Bool.not_true, Bool.or_false]
    · rw [hbit i hi, decide_eq_false (by omega), Bool.not_false, Bool.or_true]
  · rintro ⟨hagree, hhigh⟩
    refine BitVec.eq_of_getMsbD_eq fun i hi => ?_
    rw [hbit i hi]
    by_cases hip : i < p
    · rw [hagree i hip, decide_eq_true hip, Bool.not_true, Bool.or_false]
    · rw [hhigh i (by omega) hi, decide_eq_false hip, Bool.not_false, Bool.or_true]

/-! ### As numbers -/

theorem agree_iff_div (hp : p ≤ w) :
    Agree p a b ↔ a.toNat / 2 ^ (w - p) = b.toNat / 2 ^ (w - p) := by
  have hshift : a >>> (w - p) = b >>> (w - p) ↔
      a.toNat / 2 ^ (w - p) = b.toNat / 2 ^ (w - p) := by
    rw [← BitVec.toNat_inj, BitVec.toNat_ushiftRight, BitVec.toNat_ushiftRight,
      Nat.shiftRight_eq_div_pow, Nat.shiftRight_eq_div_pow]
  rw [← hshift]
  constructor
  · intro h
    refine BitVec.eq_of_getLsbD_eq fun i hi => ?_
    rw [BitVec.getLsbD_ushiftRight, BitVec.getLsbD_ushiftRight]
    by_cases hip : i < p
    · have hbit := h (p - 1 - i) (by omega)
      rw [BitVec.getMsbD_eq_getLsbD, BitVec.getMsbD_eq_getLsbD,
        show w - 1 - (p - 1 - i) = w - p + i by omega] at hbit
      simpa [show p - 1 - i < w by omega] using hbit
    · rw [BitVec.getLsbD_of_ge a _ (by omega), BitVec.getLsbD_of_ge b _ (by omega)]
  · intro h i hi
    have hbit := congrArg (fun x => x.getLsbD (p - 1 - i)) h
    rw [BitVec.getLsbD_ushiftRight, BitVec.getLsbD_ushiftRight,
      show w - p + (p - 1 - i) = w - 1 - i by omega] at hbit
    rw [BitVec.getMsbD_eq_getLsbD, BitVec.getMsbD_eq_getLsbD, hbit]

theorem Agree.refl (p : ℕ) (a : BitVec w) : Agree p a a := fun _ _ => rfl

theorem Agree.trans {c : BitVec w} (h : Agree p a b) (h' : Agree p b c) : Agree p a c :=
  fun i hi => (h i hi).trans (h' i hi)

theorem Agree.symm (h : Agree p a b) : Agree p b a := fun i hi => (h i hi).symm

theorem agree_and_mask (hp : p ≤ w) (b : BitVec w) : Agree p (b &&& mask w p) b :=
  ((eq_and_mask_iff hp).1 rfl).1

theorem agree_or_not_mask (hp : p ≤ w) (b : BitVec w) : Agree p (b ||| ~~~mask w p) b :=
  ((eq_or_not_mask_iff hp).1 rfl).1

theorem Agree.and_mask_le (hp : p ≤ w) (h : Agree p a b) : b &&& mask w p ≤ a := by
  have heq : b &&& mask w p = a &&& mask w p :=
    (eq_and_mask_iff hp).2 ⟨(agree_and_mask hp b).trans h.symm, ((eq_and_mask_iff hp).1 rfl).2⟩
  rw [heq, BitVec.le_def, BitVec.toNat_and]
  exact Nat.and_le_left

theorem Agree.le_or_not_mask (hp : p ≤ w) (h : Agree p a b) : a ≤ b ||| ~~~mask w p := by
  have heq : b ||| ~~~mask w p = a ||| ~~~mask w p :=
    (eq_or_not_mask_iff hp).2
      ⟨(agree_or_not_mask hp b).trans h.symm, ((eq_or_not_mask_iff hp).1 rfl).2⟩
  rw [heq, BitVec.le_def, BitVec.toNat_or]
  exact Nat.left_le_or

/-- The words which agree are an interval. -/
theorem agree_iff_le_and_le (hp : p ≤ w) :
    Agree p a b ↔ b &&& mask w p ≤ a ∧ a ≤ b ||| ~~~mask w p := by
  constructor
  · intro h
    exact ⟨h.and_mask_le hp, h.le_or_not_mask hp⟩
  · rintro ⟨hle, hle'⟩
    have hdiv := (agree_iff_div hp).1 (agree_and_mask hp b)
    have hdiv' := (agree_iff_div hp).1 (agree_or_not_mask hp b)
    have hmono := Nat.div_le_div_right (c := 2 ^ (w - p)) (BitVec.le_def.1 hle)
    have hmono' := Nat.div_le_div_right (c := 2 ^ (w - p)) (BitVec.le_def.1 hle')
    exact (agree_iff_div hp).2 (by omega)

/-- A number with the first bits of `b`. -/
theorem agree_ofNat (hp : p ≤ w) {r : ℕ} (hr : r < 2 ^ (w - p)) :
    b.toNat / 2 ^ (w - p) * 2 ^ (w - p) + r < 2 ^ w ∧
      Agree p (BitVec.ofNat w (b.toNat / 2 ^ (w - p) * 2 ^ (w - p) + r)) b := by
  have hpow : 2 ^ w = 2 ^ p * 2 ^ (w - p) := by rw [← Nat.pow_add, Nat.add_sub_cancel' hp]
  have hd : b.toNat / 2 ^ (w - p) < 2 ^ p := Nat.div_lt_of_lt_mul (by
    rw [Nat.mul_comm, ← hpow]
    exact b.isLt)
  have hlt : b.toNat / 2 ^ (w - p) * 2 ^ (w - p) + r < 2 ^ w := by
    have hmul := Nat.mul_le_mul_right (2 ^ (w - p)) (Nat.succ_le_of_lt hd)
    rw [Nat.succ_mul, ← hpow] at hmul
    omega
  refine ⟨hlt, (agree_iff_div hp).2 ?_⟩
  rw [BitVec.toNat_ofNat, Nat.mod_eq_of_lt hlt, Nat.mul_comm, Nat.mul_add_div (by omega),
    Nat.div_eq_of_lt hr, Nat.add_zero]

theorem toNat_and_mask (hp : p ≤ w) (b : BitVec w) :
    (b &&& mask w p).toNat = b.toNat / 2 ^ (w - p) * 2 ^ (w - p) := by
  obtain ⟨hlt, hagree⟩ := agree_ofNat (b := b) hp (Nat.two_pow_pos (w - p))
  have hle := BitVec.le_def.1 (hagree.and_mask_le hp)
  have hge := Nat.div_mul_le_self (b &&& mask w p).toNat (2 ^ (w - p))
  rw [BitVec.toNat_ofNat, Nat.mod_eq_of_lt hlt] at hle
  rw [(agree_iff_div hp).1 (agree_and_mask hp b)] at hge
  omega

theorem toNat_or_not_mask (hp : p ≤ w) (b : BitVec w) :
    (b ||| ~~~mask w p).toNat = b.toNat / 2 ^ (w - p) * 2 ^ (w - p) + (2 ^ (w - p) - 1) := by
  have hpos := Nat.two_pow_pos (w - p)
  obtain ⟨hlt, hagree⟩ := agree_ofNat (b := b) (r := 2 ^ (w - p) - 1) hp (by omega)
  have hle := BitVec.le_def.1 (hagree.le_or_not_mask hp)
  have hge := Nat.lt_div_mul_add (a := (b ||| ~~~mask w p).toNat) hpos
  rw [BitVec.toNat_ofNat, Nat.mod_eq_of_lt hlt] at hle
  rw [(agree_iff_div hp).1 (agree_or_not_mask hp b)] at hge
  omega

/-! ### Cursors -/

/-- From `lo` to `hi`, and again. -/
def cursor (lo hi : BitVec w) : ℕ → BitVec w
  | 0 => lo
  | n + 1 => if cursor lo hi n = hi then lo else cursor lo hi n + 1

theorem toNat_cursor (h : lo ≤ hi) (n : ℕ) :
    (cursor lo hi n).toNat = lo.toNat + n % (hi.toNat + 1 - lo.toNat) := by
  have hle := BitVec.le_def.1 h
  have hhi := hi.isLt
  set size := hi.toNat + 1 - lo.toNat with hsize
  induction n with
  | zero => rw [Nat.zero_mod]; rfl
  | succ n ih =>
    have hlt : n % size < size := Nat.mod_lt n (by omega)
    by_cases hlast : n % size + 1 = size
    · have heq : cursor lo hi n = hi := BitVec.eq_of_toNat_eq (by omega)
      rw [cursor, if_pos heq, ← Nat.mod_add_mod, hlast, Nat.mod_self, Nat.add_zero]
    · have hne : cursor lo hi n ≠ hi := fun heq => hlast (by rw [heq] at ih; omega)
      rw [cursor, if_neg hne, ← Nat.mod_add_mod, Nat.mod_eq_of_lt (by omega : n % size + 1 < size)]
      have hone : (1 : BitVec w).toNat = 1 := by
        show (1#w).toNat = 1
        rw [BitVec.toNat_ofNat]
        exact Nat.mod_eq_of_lt (by omega)
      rw [BitVec.toNat_add_of_lt (by omega), hone]
      omega

theorem cursor_mem (h : lo ≤ hi) (n : ℕ) : lo ≤ cursor lo hi n ∧ cursor lo hi n ≤ hi := by
  have hle := BitVec.le_def.1 h
  have hlt : n % (hi.toNat + 1 - lo.toNat) < hi.toNat + 1 - lo.toNat := Nat.mod_lt n (by omega)
  rw [BitVec.le_def, BitVec.le_def, toNat_cursor h]
  omega

theorem cursor_periodic (h : lo ≤ hi) (n : ℕ) :
    cursor lo hi (n + (hi.toNat + 1 - lo.toNat)) = cursor lo hi n := by
  refine BitVec.eq_of_toNat_eq ?_
  rw [toNat_cursor h, toNat_cursor h, Nat.add_mod_right]

/-- The first word comes again after the last one only. -/
theorem cursor_succ_eq_iff (h : lo ≤ hi) (n : ℕ) :
    cursor lo hi (n + 1) = lo ↔ cursor lo hi n = hi := by
  have hle := BitVec.le_def.1 h
  have hlt : n % (hi.toNat + 1 - lo.toNat) < hi.toNat + 1 - lo.toNat := Nat.mod_lt n (by omega)
  have hn := toNat_cursor h n
  refine ⟨fun heq => ?_, fun heq => by rw [cursor, if_pos heq]⟩
  have hsucc := toNat_cursor h (n + 1)
  rw [heq, ← Nat.mod_add_mod] at hsucc
  refine BitVec.eq_of_toNat_eq ?_
  by_cases hlast : n % (hi.toNat + 1 - lo.toNat) + 1 < hi.toNat + 1 - lo.toNat
  · rw [Nat.mod_eq_of_lt hlast] at hsucc
    omega
  · omega

end BitPrefix
