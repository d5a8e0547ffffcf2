/-
Neoip/Nearest.lean

The `n` elements of a list which are the nearest ones, by a distance.

A search which has sorted a part of the list, of `n` elements or more, is right
exactly when each element it has left out is farther than `n` of those it has
(`nearest_take_iff`).
-/
import Mathlib.Data.List.Nodup
import Mathlib.Data.List.Perm.Subperm
import Mathlib.Algebra.Order.Group.Nat
import Mathlib.Tactic.Common

namespace Neoip

variable {α : Type*} {dist : α → ℕ} {n : ℕ} {all l : List α}

/-- `l` is the `n` nearest elements of `all`, or all of them, and the nearest one is first. -/
structure Nearest (dist : α → ℕ) (n : ℕ) (all l : List α) : Prop where
  sorted : l.Pairwise fun a b => dist a < dist b
  mem : ∀ a ∈ l, a ∈ all
  length_eq : l.length = min n all.length
  nearest : ∀ a ∈ all, a ∉ l → ∀ b ∈ l, dist b < dist a

/-- Of a sorted list, an element which `n` of the list are nearer than is behind the first `n`. -/
theorem lt_of_mem_take_of_countP (hsorted : l.Pairwise fun a b => dist a < dist b) {a : α}
    (hcount : n ≤ l.countP fun b => dist b < dist a) : ∀ b ∈ l.take n, dist b < dist a := by
  intro b hb
  by_contra hge
  -- what follows `b` is no nearer than `a`, so fewer than `n` are
  have hdrop : (l.drop n).countP (fun b => dist b < dist a) = 0 := by
    apply List.countP_eq_zero.2
    intro c hc hlt
    rw [← List.take_append_drop n l, List.pairwise_append] at hsorted
    exact hge ((hsorted.2.2 b hb c hc).trans (of_decide_eq_true hlt))
  have htake : (l.take n).countP (fun b => dist b < dist a) < (l.take n).length := by
    apply lt_of_le_of_ne List.countP_le_length
    intro heq
    exact hge (of_decide_eq_true (List.countP_eq_length.1 heq b hb))
  rw [← List.take_append_drop n l, List.countP_append, hdrop] at hcount
  have hlen := List.length_take_le n l
  omega

/-- **The nearest of a part**: the first `n` of the sorted part are the nearest of all. -/
theorem nearest_take_iff (hall : all.Nodup) (hsorted : l.Pairwise fun a b => dist a < dist b)
    (hsub : ∀ a ∈ l, a ∈ all) (hstop : n ≤ l.length ∨ ∀ a ∈ all, a ∈ l) :
    Nearest dist n all (l.take n) ↔
      ∀ a ∈ all, a ∉ l → n ≤ l.countP fun b => dist b < dist a := by
  have hnodup : l.Nodup := hsorted.imp fun hlt => fun heq => absurd (heq ▸ hlt) (lt_irrefl _)
  have hle : l.length ≤ all.length := (hnodup.subperm hsub).length_le
  constructor
  · intro h a ha hal
    have hn : n ≤ l.length := hstop.resolve_right fun hl => hal (hl a ha)
    have hnear := h.nearest a ha fun hmem => hal (List.mem_of_mem_take hmem)
    calc n = (l.take n).length := (List.length_take_of_le hn).symm
      _ = (l.take n).countP (fun b => dist b < dist a) := by
        symm
        apply List.countP_eq_length.2
        intro b hb
        exact decide_eq_true (hnear b hb)
      _ ≤ l.countP (fun b => dist b < dist a) := (List.take_sublist n l).countP_le
  · intro h
    refine ⟨hsorted.sublist (List.take_sublist n l), fun a ha => hsub a (List.mem_of_mem_take ha),
      ?_, ?_⟩
    · rw [List.length_take]
      rcases hstop with hn | hl
      · rw [min_eq_left hn, min_eq_left (hn.trans hle)]
      · rw [le_antisymm hle (hall.subperm hl).length_le]
    · intro a ha hnot b hb
      by_cases hal : a ∈ l
      · rw [← List.take_append_drop n l] at hal hsorted
        rw [List.pairwise_append] at hsorted
        exact hsorted.2.2 b hb a ((List.mem_append.1 hal).resolve_left hnot)
      · exact lt_of_mem_take_of_countP hsorted (h a ha hal) b hb

end Neoip
