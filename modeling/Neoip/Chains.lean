/-
Neoip/Chains.lean

Chains of a relation in which everything has at most one next and at most one
previous element.

A chain which has no next element at its end and no previous one at its
beginning is maximal: each chain with an element of it is a part of it
(`infix_of_isChain`).
-/
import Mathlib.Data.List.Chain
import Mathlib.Data.List.Infix

namespace Neoip

variable {α : Type*} {r : α → α → Prop} {l l' : List α} {x : α}

/-- From one element on, a chain follows another one which does not end before it. -/
theorem prefix_of_isChain (hnext : ∀ a b b', r a b → r a b' → b = b')
    (hl : (x :: l).IsChain r) (hl' : (x :: l').IsChain r)
    (hend : ∀ y ∈ (x :: l).getLast?, ∀ z, ¬ r y z) : l' <+: l := by
  induction l' generalizing x l with
  | nil => exact List.nil_prefix
  | cons y ys ih =>
    obtain ⟨hxy, hys⟩ := List.isChain_cons_cons.1 hl'
    cases l with
    | nil => exact absurd hxy (hend x rfl y)
    | cons z zs =>
      obtain ⟨hxz, hzs⟩ := List.isChain_cons_cons.1 hl
      obtain rfl := hnext x z y hxz hxy
      rw [List.getLast?_cons_cons] at hend
      exact List.prefix_cons_inj z |>.2 (ih hzs hys hend)

/-- **A chain which cannot be continued is maximal.** -/
theorem infix_of_isChain (hnext : ∀ a b b', r a b → r a b' → b = b')
    (hprev : ∀ a b b', r b a → r b' a → b = b') (hl : l.IsChain r) (hl' : l'.IsChain r)
    (hx : x ∈ l) (hx' : x ∈ l') (hlast : ∀ y ∈ l.getLast?, ∀ z, ¬ r y z)
    (hhead : ∀ y ∈ l.head?, ∀ z, ¬ r z y) : l' <:+: l := by
  obtain ⟨u, v, rfl⟩ := List.append_of_mem hx
  obtain ⟨u', v', rfl⟩ := List.append_of_mem hx'
  obtain ⟨hu, hv⟩ := List.isChain_split.1 hl
  obtain ⟨hu', hv'⟩ := List.isChain_split.1 hl'
  have hright : v' <+: v := by
    refine prefix_of_isChain hnext hv hv' ?_
    rw [List.getLast?_append_cons] at hlast
    exact hlast
  -- the same backwards
  have hleft : u'.reverse <+: u.reverse := by
    refine prefix_of_isChain (r := fun a b => r b a) hprev (x := x) ?_ ?_ ?_
    · rw [← List.isChain_reverse, List.reverse_cons, List.reverse_reverse]
      exact hu
    · rw [← List.isChain_reverse, List.reverse_cons, List.reverse_reverse]
      exact hu'
    · rw [← List.reverse_concat', List.getLast?_reverse]
      intro y hy
      refine hhead y ?_
      cases u with
      | nil => exact hy
      | cons w ws => exact hy
  obtain ⟨a, ha⟩ := List.reverse_prefix.1 hleft
  obtain ⟨b, hb⟩ := hright
  refine ⟨a, b, ?_⟩
  rw [← ha, ← hb]
  simp

end Neoip
