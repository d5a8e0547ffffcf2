/-
Neoip/Delay.lean

Delays in milliseconds: `delay_t`, and `date_t`, which is one since 1970.

Two values are special.  They are not the last ones of 64 bits, so that the sum
of two delays may be special by accident.
-/
import Mathlib.Algebra.Group.Nat.Defs
import Mathlib.Order.Defs.LinearOrder
import Mathlib.Order.Lattice
import Mathlib.Tactic.Common

namespace Neoip

/-- `delay_t`. -/
@[ext]
structure Delay where
  val_ms : UInt64
deriving DecidableEq, Repr

namespace Delay

def INFINITE_VAL : UInt64 := 0xFFFFFFFFFFFFFFE

def NONE_VAL : UInt64 := 0xFFFFFFFFFFFFFFF

def INFINITE : Delay := ⟨INFINITE_VAL⟩

def NONE : Delay := ⟨NONE_VAL⟩

def isNull (d : Delay) : Bool := d = NONE

def isInfinite (d : Delay) : Bool := d = INFINITE

/-- `operator +`. -/
instance : Add Delay where
  add d other :=
    if d.isInfinite || other.isInfinite then INFINITE else ⟨d.val_ms + other.val_ms⟩

/-- `operator /`. -/
instance : Div Delay where
  div d other :=
    if d.isInfinite || other.isInfinite then INFINITE else ⟨d.val_ms / other.val_ms⟩

def toMsec32bit (d : Delay) : UInt32 := d.val_ms.toUInt32

/-- The comparison of the values, also `compare`. -/
instance : LinearOrder Delay :=
  LinearOrder.lift' (fun d => d.val_ms.toNat) fun _ _ h => Delay.ext (UInt64.toNat_inj.1 h)

variable {d other : Delay}

theorem add_def (d other : Delay) : d + other =
    if d.isInfinite || other.isInfinite then INFINITE else ⟨d.val_ms + other.val_ms⟩ := rfl

theorem isInfinite_iff : d.isInfinite = true ↔ d = INFINITE := decide_eq_true_iff

theorem add_comm (d other : Delay) : d + other = other + d := by
  rw [add_def, add_def, Bool.or_comm, UInt64.add_comm]

theorem isNull_INFINITE : INFINITE.isNull = false := rfl

theorem isNull_of_isInfinite (h : d.isInfinite = true) : d.isNull = false := by
  rw [isInfinite_iff.1 h]
  rfl

/-- The conversion to 32 bits loses nothing of a delay of less than 50 days. -/
theorem toNat_toMsec32bit_iff : d.toMsec32bit.toNat = d.val_ms.toNat ↔ d.val_ms.toNat < 2 ^ 32 := by
  rw [toMsec32bit, UInt64.toNat_toUInt32]
  exact Nat.mod_eq_iff_lt (by decide)

end Delay

end Neoip
