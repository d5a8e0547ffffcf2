/-
Neoip/Difflog.lean

A collection which is followed from afar, by what comes in and what goes out.

The collection is a multiset.  A follower holds what it was some time ago, and what
has come in and gone out since then are two lists; what has done both is left out of
what the follower is told (`net`).

Main result: a follower who is behind by the two lists holds the present collection
once it has been told (`Behind.told`).
-/
import Mathlib.Algebra.Order.Group.Multiset

namespace Neoip.Difflog

variable {α β : Type*} [DecidableEq α]

/-- What has come in and not gone out, and what has gone out and not come in. -/
def net : List α → List α → List α × List α
  | opened, [] => (opened, [])
  | opened, a :: closed =>
    if a ∈ opened then net (opened.erase a) closed
    else ((net opened closed).1, a :: (net opened closed).2)

/-- Whatever is left out, it is left out on both sides. -/
theorem map_net_add (f : α → β) (opened closed : List α) :
    (((net opened closed).1.map f : List β) : Multiset β) + (closed.map f : List β) =
      (opened.map f : List β) + ((net opened closed).2.map f : List β) := by
  induction closed generalizing opened with
  | nil => rfl
  | cons a closed ih =>
    rw [net]
    split_ifs with hmem
    · have hperm : (opened.map f : List β) =
          (f a ::ₘ ((opened.erase a).map f : List β) : Multiset β) := by
        rw [Multiset.cons_coe, Multiset.coe_eq_coe, ← List.map_cons]
        exact (List.perm_cons_erase hmem).map f
      rw [List.map_cons, ← Multiset.cons_coe, Multiset.add_cons, ih, hperm, Multiset.cons_add]
    · rw [List.map_cons, List.map_cons, ← Multiset.cons_coe, ← Multiset.cons_coe,
        Multiset.add_cons, ih, Multiset.add_cons]

/-- The collection is what is held, with what has come in and without what has gone out. -/
def Behind (held opened closed current : Multiset β) : Prop :=
  held + opened = current + closed

variable {held opened closed current : Multiset β}

omit [DecidableEq α] in
theorem behind_refl (current : Multiset β) : Behind current 0 0 current := rfl

omit [DecidableEq α] in
theorem behind_open_iff (s : Multiset β) :
    Behind held (opened + s) closed (current + s) ↔ Behind held opened closed current := by
  rw [Behind, Behind, ← add_assoc, add_right_comm current s closed, add_left_inj]

omit [DecidableEq α] in
theorem behind_close_iff (s : Multiset β) :
    Behind held opened (closed + s) current ↔ Behind held opened closed (current + s) := by
  rw [Behind, Behind, add_right_comm current s closed, add_assoc]

omit [DecidableEq α] in
/-- A change which is not told is seen. -/
theorem Behind.congr_iff {current' : Multiset β} (h : Behind held opened closed current) :
    Behind held opened closed current' ↔ current = current' := by
  rw [Behind, show held + opened = current + closed from h, add_left_inj]

/-- **Being told**: what goes out is held, and the rest is the present collection. -/
theorem behind_iff_told [DecidableEq β] (f : α → β) (opened closed : List α) :
    Behind held (opened.map f : List β) (closed.map f : List β) current ↔
      (((net opened closed).2.map f : List β) : Multiset β) ≤
          held + ((net opened closed).1.map f : List β) ∧
        held + ((net opened closed).1.map f : List β) - ((net opened closed).2.map f : List β) =
          current := by
  have hnet := map_net_add f opened closed
  have hiff : Behind held (opened.map f : List β) (closed.map f : List β) current ↔
      held + ((net opened closed).1.map f : List β) =
        current + ((net opened closed).2.map f : List β) := by
    rw [Behind, ← add_left_inj (((net opened closed).2.map f : List β) : Multiset β), add_assoc,
      ← hnet, ← add_assoc, add_right_comm current, add_left_inj]
  rw [hiff]
  constructor
  · intro h
    rw [h]
    exact ⟨Multiset.le_add_left _ _, Multiset.add_sub_cancel_right⟩
  · rintro ⟨hle, rfl⟩
    exact (Multiset.sub_add_cancel hle).symm

end Neoip.Difflog
