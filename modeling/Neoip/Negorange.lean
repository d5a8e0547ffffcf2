/-
Neoip/Negorange.lean

The negotiation of a value between two peers: `negorange_t`, for any type of
values, and for `delay_t`.

A peer accepts the values of a range, and wishes one of them.  The common range
is what both accept.  Its wish is the one of a peer, or the average of both, and
is brought back into the common range.

Sums are formed in the type of the values.  `NegoValue.val` is what a value
stands for, and a sum is lost when it stands for something else than the sum of
what its terms stand for.

Main result: everything is as negotiated, exactly when the ranges are disjoint,
a side is preferred, or the sum of the wishes is a value (`Negorange.agreed_iff`).
-/
import Mathlib.Data.ENat.Basic
import Mathlib.Order.CompletePartialOrder
import Mathlib.Order.Interval.Set.Basic
import Neoip.Delay

namespace Neoip

/-- A type of values to negotiate.  A null value stands for nothing, and one may be infinite. -/
class NegoValue (T : Type*) extends LinearOrder T, Add T, Div T where
  two : T
  val : T → WithBot ℕ∞
  add_comm_val : ∀ a b : T, a + b = b + a
  val_add : ∀ a b c : T, val c ≠ ⊥ → val c = val a + val b → val (a + b) = val a + val b

/-- `negorange_t`, not null. -/
@[ext]
structure Negorange (T : Type*) [NegoValue T] where
  min_value : T
  max_value : T
  wished_value : T
  min_le_wished : min_value ≤ wished_value
  wished_le_max : wished_value ≤ max_value
deriving DecidableEq

namespace Negorange

open NegoValue

variable {T : Type*} [NegoValue T] {a b c : Negorange T} {lo hi w : T} {wish_pref : ℤ}

/-! ### The common range -/

def commonMin (a other : Negorange T) : T :=
  if a.min_value < other.min_value then other.min_value else a.min_value

def commonMax (a other : Negorange T) : T :=
  if a.max_value < other.max_value then a.max_value else other.max_value

def commonWished (a other : Negorange T) (wish_pref : ℤ) : T :=
  if wish_pref = 0 then (a.wished_value + other.wished_value) / two
  else if wish_pref < 0 then other.wished_value
  else a.wished_value

/-- The common wished value, clamped. -/
def clamp (lo hi w : T) : T :=
  let w := if w > hi then hi else w
  if w < lo then lo else w

theorem clamp_eq (lo hi w : T) : clamp lo hi w = max (min w hi) lo := by
  have hmin : (if w > hi then hi else w) = min w hi := by
    split_ifs with h
    · exact (min_eq_right h.le).symm
    · exact (min_eq_left (not_lt.1 h)).symm
  show (if (if w > hi then hi else w) < lo then lo else if w > hi then hi else w) = _
  rw [hmin]
  split_ifs with h
  · exact (max_eq_right h.le).symm
  · exact (max_eq_left (not_lt.1 h)).symm

theorem le_clamp (lo hi w : T) : lo ≤ clamp lo hi w := by
  rw [clamp_eq]
  exact le_max_right _ _

theorem clamp_le (h : lo ≤ hi) : clamp lo hi w ≤ hi := by
  rw [clamp_eq]
  exact max_le (min_le_right _ _) h

theorem commonMin_eq_max (a b : Negorange T) : a.commonMin b = max a.min_value b.min_value := by
  unfold commonMin
  split_ifs with h
  · exact (max_eq_right h.le).symm
  · exact (max_eq_left (not_lt.1 h)).symm

theorem commonMax_eq_min (a b : Negorange T) : a.commonMax b = min a.max_value b.max_value := by
  unfold commonMax
  split_ifs with h
  · exact (min_eq_left h.le).symm
  · exact (min_eq_right (not_lt.1 h)).symm

theorem min_le_max (a : Negorange T) : a.min_value ≤ a.max_value :=
  a.min_le_wished.trans a.wished_le_max

theorem commonMin_le_commonMax (h : ¬ b.max_value < a.min_value)
    (h' : ¬ a.max_value < b.min_value) : a.commonMin b ≤ a.commonMax b := by
  rw [commonMin_eq_max, commonMax_eq_min]
  exact max_le (le_min a.min_le_max (not_lt.1 h)) (le_min (not_lt.1 h') b.min_le_max)

/-- `get_common`, none when there is no common range. -/
def getCommon (a other : Negorange T) (wish_pref : ℤ) : Option (Negorange T) :=
  if h : other.max_value < a.min_value then none
  else if h' : a.max_value < other.min_value then none
  else some {
    min_value := a.commonMin other
    max_value := a.commonMax other
    wished_value :=
      clamp (a.commonMin other) (a.commonMax other) (a.commonWished other wish_pref)
    min_le_wished := le_clamp _ _ _
    wished_le_max := clamp_le (commonMin_le_commonMax h h') }

def getCommonLocalWish (a other : Negorange T) : Option (Negorange T) := a.getCommon other 1

def getCommonRemoteWish (a other : Negorange T) : Option (Negorange T) := a.getCommon other (-1)

def getCommonAverageWish (a other : Negorange T) : Option (Negorange T) := a.getCommon other 0

/-! ### What both accept -/

/-- What is accepted. -/
def values (a : Negorange T) : Set T := Set.Icc a.min_value a.max_value

theorem wished_mem (a : Negorange T) : a.wished_value ∈ a.values :=
  ⟨a.min_le_wished, a.wished_le_max⟩

theorem values_inter (a b : Negorange T) :
    a.values ∩ b.values = Set.Icc (a.commonMin b) (a.commonMax b) := by
  rw [commonMin_eq_max, commonMax_eq_min]
  exact Set.Icc_inter_Icc

theorem disjoint_iff :
    Disjoint a.values b.values ↔ b.max_value < a.min_value ∨ a.max_value < b.min_value := by
  rw [Set.disjoint_iff_inter_eq_empty, values_inter, Set.Icc_eq_empty_iff]
  constructor
  · intro h
    by_contra hne
    rw [not_or] at hne
    exact h (commonMin_le_commonMax hne.1 hne.2)
  · rw [commonMin_eq_max, commonMax_eq_min, not_le, min_lt_iff, lt_max_iff, lt_max_iff]
    rintro (h | h)
    · exact Or.inr (Or.inl h)
    · exact Or.inl (Or.inr h)

theorem getCommon_eq_some_iff : a.getCommon b wish_pref = some c ↔
    ¬ Disjoint a.values b.values ∧ c.min_value = a.commonMin b ∧ c.max_value = a.commonMax b ∧
      c.wished_value = clamp (a.commonMin b) (a.commonMax b) (a.commonWished b wish_pref) := by
  rw [disjoint_iff, not_or]
  unfold getCommon
  split_ifs with h h'
  · simp [h]
  · simp [h']
  · rw [Option.some.injEq]
    constructor
    · rintro rfl
      exact ⟨⟨h, h'⟩, rfl, rfl, rfl⟩
    · rintro ⟨-, hmin, hmax, hwished⟩
      exact Negorange.ext hmin.symm hmax.symm hwished.symm

theorem getCommon_eq_none_iff :
    a.getCommon b wish_pref = none ↔ Disjoint a.values b.values := by
  rw [disjoint_iff]
  unfold getCommon
  split_ifs with h h'
  · simp [h]
  · simp [h']
  · simp [h, h']

/-- The common range is what both accept. -/
theorem values_of_getCommon (h : a.getCommon b wish_pref = some c) :
    c.values = a.values ∩ b.values := by
  obtain ⟨-, hmin, hmax, -⟩ := getCommon_eq_some_iff.1 h
  rw [values_inter, values, hmin, hmax]

/-- The role of a peer is the other one at the other peer. -/
theorem commonWished_neg (a b : Negorange T) (wish_pref : ℤ) :
    b.commonWished a (-wish_pref) = a.commonWished b wish_pref := by
  unfold commonWished
  rcases lt_trichotomy wish_pref 0 with h | rfl | h
  · rw [if_neg (by omega), if_neg (by omega), if_neg h.ne, if_pos h]
  · rw [neg_zero, if_pos rfl, if_pos rfl, add_comm_val]
  · rw [if_neg (by omega), if_pos (by omega), if_neg h.ne', if_neg (by omega)]

theorem getCommon_neg (a b : Negorange T) (wish_pref : ℤ) :
    b.getCommon a (-wish_pref) = a.getCommon b wish_pref := by
  have hmin : b.commonMin a = a.commonMin b := by
    rw [commonMin_eq_max, commonMin_eq_max, max_comm]
  have hmax : b.commonMax a = a.commonMax b := by
    rw [commonMax_eq_min, commonMax_eq_min, min_comm]
  refine Option.ext fun c => ?_
  show b.getCommon a (-wish_pref) = some c ↔ a.getCommon b wish_pref = some c
  rw [getCommon_eq_some_iff, getCommon_eq_some_iff, disjoint_comm, hmin, hmax, commonWished_neg]

/-! ### Sums -/

/-- The sum of two values is a value. -/
def Representable (x y : T) : Prop := ∃ z : T, val z ≠ ⊥ ∧ val z = val x + val y

/-- What both peers compute, and that the sum which they form is the one of their wishes. -/
structure Agreed (a b : Negorange T) (wish_pref : ℤ) : Prop where
  null_iff : a.getCommon b wish_pref = none ↔ Disjoint a.values b.values
  within : ∀ c, a.getCommon b wish_pref = some c →
    c.values = a.values ∩ b.values ∧ c.wished_value ∈ a.values ∩ b.values
  same : b.getCommon a (-wish_pref) = a.getCommon b wish_pref
  sum : a.getCommon b wish_pref ≠ none → wish_pref = 0 →
    val (a.wished_value + b.wished_value) ≠ ⊥ ∧
      val (a.wished_value + b.wished_value) = val a.wished_value + val b.wished_value

theorem representable_iff {x y : T} :
    Representable x y ↔ val (x + y) ≠ ⊥ ∧ val (x + y) = val x + val y := by
  constructor
  · rintro ⟨z, hne, hz⟩
    have hadd := val_add x y z hne hz
    exact ⟨fun h => hne (hz.trans (hadd.symm.trans h)), hadd⟩
  · rintro ⟨hne, hadd⟩
    exact ⟨x + y, hne, hadd⟩

/-- The peers agree as they should, exactly when they form no sum or the sum of their wishes is a
value. -/
theorem agreed_iff (a b : Negorange T) (wish_pref : ℤ) : a.Agreed b wish_pref ↔
    Disjoint a.values b.values ∨ wish_pref ≠ 0 ∨
      Representable a.wished_value b.wished_value := by
  constructor
  · intro h
    by_cases hdis : Disjoint a.values b.values
    · exact Or.inl hdis
    · by_cases hpref : wish_pref = 0
      · have hne : a.getCommon b wish_pref ≠ none := fun hnone => hdis (h.null_iff.1 hnone)
        exact Or.inr (Or.inr (representable_iff.2 (h.sum hne hpref)))
      · exact Or.inr (Or.inl hpref)
  · intro h
    refine ⟨getCommon_eq_none_iff, fun c hc => ?_, getCommon_neg a b wish_pref, fun hne hpref => ?_⟩
    · rw [← values_of_getCommon hc]
      exact ⟨rfl, c.wished_mem⟩
    · rcases h with hdis | hpref' | hrep
      · exact absurd (getCommon_eq_none_iff.2 hdis) hne
      · exact absurd hpref hpref'
      · exact representable_iff.1 hrep

end Negorange

/-! ### Delays -/

namespace Delay

/-- What a delay stands for. -/
def val (d : Delay) : WithBot ℕ∞ :=
  if d.isNull then ⊥ else if d.isInfinite then ⊤ else (d.val_ms.toNat : ℕ∞)

variable {d x y : Delay} {n : ℕ}

theorem val_eq_bot_iff : d.val = ⊥ ↔ d.isNull = true := by
  unfold val
  split_ifs with hnull hinf
  · simp [hnull]
  · simp [hnull]
  · simp [hnull]

theorem val_eq_top_iff : d.val = ⊤ ↔ d.isInfinite = true := by
  unfold val
  split_ifs with hnull hinf
  · refine iff_of_false bot_ne_top fun hinf => ?_
    rw [isNull_of_isInfinite hinf] at hnull
    exact Bool.false_ne_true hnull
  · exact iff_of_true rfl hinf
  · refine iff_of_false (fun h => ?_) hinf
    exact ENat.natCast_ne_top _ (WithBot.coe_injective h)

theorem val_eq_natCast_iff : d.val = ((n : ℕ∞) : WithBot ℕ∞) ↔
    d.isNull = false ∧ d.isInfinite = false ∧ d.val_ms.toNat = n := by
  unfold val
  split_ifs with hnull hinf
  · simp [hnull]
  · refine iff_of_false (fun h => ?_) (by simp [hinf])
    exact ENat.natCast_ne_top _ (WithBot.coe_injective h).symm
  · rw [Bool.not_eq_true] at hnull hinf
    rw [WithBot.coe_inj, ENat.natCast_inj]
    simp [hnull, hinf]

/-- A delay which is neither null nor infinite is a number. -/
theorem val_of_finite (hnull : d.isNull = false) (hinf : d.isInfinite = false) :
    d.val = ((d.val_ms.toNat : ℕ∞) : WithBot ℕ∞) :=
  val_eq_natCast_iff.2 ⟨hnull, hinf, rfl⟩

theorem add_of_isInfinite (h : (x.isInfinite || y.isInfinite) = true) : x + y = INFINITE := by
  rw [add_def, if_pos h]

theorem top_add_val (hy : y.val ≠ ⊥) : ⊤ + y.val = ⊤ := by
  obtain ⟨v, hv⟩ := WithBot.ne_bot_iff_exists.1 hy
  rw [← hv]
  exact congrArg _ (top_add v)

theorem val_add_of_isInfinite (hx : x.val ≠ ⊥) (hy : y.val ≠ ⊥)
    (h : x.isInfinite = true ∨ y.isInfinite = true) : x.val + y.val = ⊤ := by
  rcases h with hinf | hinf
  · rw [val_eq_top_iff.2 hinf, top_add_val hy]
  · rw [val_eq_top_iff.2 hinf, AddCommMagma.add_comm, top_add_val hx]

theorem val_add_of_finite (hx : x.val ≠ ⊥) (hy : y.val ≠ ⊥) (hxinf : x.isInfinite = false)
    (hyinf : y.isInfinite = false) :
    x.val + y.val = ((x.val_ms.toNat + y.val_ms.toNat : ℕ) : ℕ∞) := by
  have hxnull : x.isNull = false := Bool.eq_false_iff.2 fun h => hx (val_eq_bot_iff.2 h)
  have hynull : y.isNull = false := Bool.eq_false_iff.2 fun h => hy (val_eq_bot_iff.2 h)
  rw [val_of_finite hxnull hxinf, val_of_finite hynull hyinf, ENat.natCast_add, WithBot.coe_add]

theorem val_add {z : Delay} (hne : z.val ≠ ⊥) (hz : z.val = x.val + y.val) :
    (x + y).val = x.val + y.val := by
  have hx : x.val ≠ ⊥ := fun h => hne (by rw [hz, h, WithBot.bot_add])
  have hy : y.val ≠ ⊥ := fun h => hne (by rw [hz, h, WithBot.add_bot])
  by_cases hinf : (x.isInfinite || y.isInfinite) = true
  · rw [add_of_isInfinite hinf, val_add_of_isInfinite hx hy (Bool.or_eq_true_iff.1 hinf)]
    exact val_eq_top_iff.2 rfl
  · -- the sum is a number, and the word is the one which stands for it
    rw [Bool.not_eq_true, Bool.or_eq_false_iff] at hinf
    have hsum := val_add_of_finite hx hy hinf.1 hinf.2
    obtain ⟨-, -, hnat⟩ := val_eq_natCast_iff.1 (hz.trans hsum)
    have hadd : x + y = z := by
      rw [add_def, hinf.1, hinf.2, if_neg (by decide)]
      refine Delay.ext (UInt64.toNat_inj.1 ?_)
      show (x.val_ms + y.val_ms).toNat = z.val_ms.toNat
      rw [UInt64.toNat_add, ← hnat, Nat.mod_eq_of_lt z.val_ms.toNat_lt]
    rw [hadd, hz]

instance : NegoValue Delay where
  two := ⟨2⟩
  val := val
  add_comm_val := Delay.add_comm
  val_add _ _ _ := val_add

theorem isNull_eq_false_iff : d.isNull = false ↔ d.val_ms.toNat ≠ NONE_VAL.toNat := by
  rw [isNull, decide_eq_false_iff_not, Delay.ext_iff, ← UInt64.toNat_inj]
  rfl

theorem isInfinite_eq_false_iff : d.isInfinite = false ↔ d.val_ms.toNat ≠ INFINITE_VAL.toNat := by
  rw [isInfinite, decide_eq_false_iff_not, Delay.ext_iff, ← UInt64.toNat_inj]
  rfl

/-- Delays whose sum is a delay: one is infinite, or their numbers have a sum which is less than
`2 ^ 64` and not a special value. -/
theorem representable_iff (hx : x.isNull = false) (hy : y.isNull = false) :
    Negorange.Representable x y ↔ x.isInfinite = true ∨ y.isInfinite = true ∨
      x.val_ms.toNat + y.val_ms.toNat < 2 ^ 64 ∧
        x.val_ms.toNat + y.val_ms.toNat ≠ INFINITE_VAL.toNat ∧
        x.val_ms.toNat + y.val_ms.toNat ≠ NONE_VAL.toNat := by
  have hx' : x.val ≠ ⊥ := fun h => by simp [val_eq_bot_iff.1 h] at hx
  have hy' : y.val ≠ ⊥ := fun h => by simp [val_eq_bot_iff.1 h] at hy
  by_cases hinf : (x.isInfinite || y.isInfinite) = true
  · have hor := Bool.or_eq_true_iff.1 hinf
    refine iff_of_true ⟨INFINITE, ?_, ?_⟩ (by tauto)
    · exact fun h => Bool.false_ne_true (isNull_INFINITE.symm.trans (val_eq_bot_iff.1 h))
    · exact (val_eq_top_iff.2 rfl).trans (val_add_of_isInfinite hx' hy' hor).symm
  · rw [Bool.not_eq_true, Bool.or_eq_false_iff] at hinf
    have hsum := val_add_of_finite hx' hy' hinf.1 hinf.2
    rw [hinf.1, hinf.2, or_iff_right Bool.false_ne_true, or_iff_right Bool.false_ne_true]
    constructor
    · rintro ⟨z, -, hz⟩
      obtain ⟨hnull, hinf', hnat⟩ := val_eq_natCast_iff.1 (hz.trans hsum)
      rw [← hnat]
      exact ⟨z.val_ms.toNat_lt, isInfinite_eq_false_iff.1 hinf', isNull_eq_false_iff.1 hnull⟩
    · rintro ⟨hlt, hne, hne'⟩
      have hnat : (x.val_ms + y.val_ms).toNat = x.val_ms.toNat + y.val_ms.toNat := by
        rw [UInt64.toNat_add, Nat.mod_eq_of_lt hlt]
      have hval : val ⟨x.val_ms + y.val_ms⟩ = x.val + y.val := by
        rw [hsum]
        refine val_eq_natCast_iff.2 ⟨isNull_eq_false_iff.2 ?_, isInfinite_eq_false_iff.2 ?_, hnat⟩
        · rwa [hnat]
        · rwa [hnat]
      refine ⟨⟨x.val_ms + y.val_ms⟩, fun h => ?_, hval⟩
      exact WithBot.natCast_ne_bot _ (hsum.symm.trans (hval.symm.trans h))

/-- All the delays are accepted by both, and both wish `2 ^ 63` milliseconds: the sum is 0. -/
theorem not_agreed : ¬ ∀ (a b : Negorange Delay) (wish_pref : ℤ), a.Agreed b wish_pref := by
  intro h
  let a : Negorange Delay := ⟨⟨0⟩, ⟨0xFFFFFFFFFFFFFFFF⟩, ⟨0x8000000000000000⟩, by decide, by decide⟩
  have hsum : Negorange.Representable a.wished_value a.wished_value :=
    Negorange.representable_iff.2 ((h a a 0).sum (by decide) rfl)
  rcases (representable_iff rfl rfl).1 hsum with hinf | hinf | ⟨hlt, -⟩
  · exact absurd hinf (by decide)
  · exact absurd hinf (by decide)
  · exact absurd hlt (by decide)

end Delay

end Neoip
