/-
Neoip/Tally.lean

A total which is kept up to date while the entries of a map come, change and go.

The entries are those of `Omap`, each with a value in a commutative group; a change
takes the old value out of the total and puts the new one in.  Where the values are
words, the total is the sum modulo the size of a word.

Main results: the total stays the sum under each operation (`Tallied.place`,
`Tallied.assign`, `Tallied.erase`), and it is the sum of the numbers exactly while
this fits in a word (`Tallied.toNat_eq_iff`).
-/
import Neoip.Omap
import Mathlib.Data.BitVec
import Mathlib.Tactic.Abel

namespace Neoip

variable {κ α G : Type*} [DecidableEq κ] [AddCommGroup G]

/-- The total is the sum of the values of the entries. -/
def Tallied (value : α → G) (total : G) (l : List (κ × α)) : Prop :=
  total = (l.map fun e => value e.2).sum

namespace Tallied

variable {value : α → G} {total : G} {lt : κ → κ → Bool} {k : κ} {a b : α} {l : List (κ × α)}

omit [DecidableEq κ] in
theorem place (h : Tallied value total l) :
    Tallied value (total + value a) (Omap.place lt k a l) := by
  rw [Tallied, Omap.sum_place, h]
  abel

theorem erase (hkeyed : Omap.Keyed l) (ha : (k, a) ∈ l) (h : Tallied value total l) :
    Tallied value (total - value a) (Omap.erase k l) := by
  rw [Tallied, h, Omap.sum_erase hkeyed ha]
  abel

theorem assign (hkeyed : Omap.Keyed l) (ha : (k, a) ∈ l) (h : Tallied value total l) :
    Tallied value (total - value a + value b) (Omap.assign lt k b l) :=
  (h.erase hkeyed ha).place

end Tallied

/-! ### Words -/

section Words

variable {w : ℕ} {value : α → BitVec w} {total : BitVec w} {l : List (κ × α)}

omit [DecidableEq κ] in
theorem Tallied.toNat_eq (h : Tallied value total l) :
    total.toNat = (l.map fun e => (value e.2).toNat).sum % 2 ^ w := by
  rw [h]
  clear h
  induction l with
  | nil => simp
  | cons e l ih =>
    rw [List.map_cons, List.sum_cons, BitVec.toNat_add, ih, List.map_cons, List.sum_cons,
      Nat.add_mod_mod]

omit [DecidableEq κ] in
theorem Tallied.toNat_eq_iff (h : Tallied value total l) :
    total.toNat = (l.map fun e => (value e.2).toNat).sum ↔
      (l.map fun e => (value e.2).toNat).sum < 2 ^ w := by
  constructor
  · intro heq
    rw [← heq]
    exact total.isLt
  · intro hlt
    rw [h.toNat_eq, Nat.mod_eq_of_lt hlt]

end Words

end Neoip
