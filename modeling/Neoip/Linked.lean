/-
Neoip/Linked.lean

Chains of links: the places which are come to from a place on, one link after
the other, up to another place or to none.

`Chain f s l e` says that the links `f` lead from `s` over the places of `l` to
`e`.  A chain depends on the links of its places only (`chain_congr`), and is cut
and put together as lists are (`chain_append`).  Taking a place out moves the
link, or the start, which led to it (`Chain.relink`).

A walk with enough fuel gives the places of the chain (`Chain.walk`).
-/
import Mathlib.Data.List.Nodup
import Mathlib.Logic.Function.Basic
import Mathlib.Tactic.Common

namespace Linked

variable {α : Type*} {f g : α → Option α} {s e : Option α} {a b l : List α} {x y : α}

/-- The links `f` lead from `s` over the places `l` to `e`. -/
def Chain (f : α → Option α) : Option α → List α → Option α → Prop
  | s, [], e => s = e
  | s, x :: l, e => s = some x ∧ Chain f (f x) l e

theorem chain_nil : Chain f s [] e ↔ s = e := Iff.rfl

theorem chain_cons : Chain f s (x :: l) e ↔ s = some x ∧ Chain f (f x) l e := Iff.rfl

theorem chain_append : Chain f s (a ++ b) e ↔ ∃ t, Chain f s a t ∧ Chain f t b e := by
  induction a generalizing s with
  | nil =>
    constructor
    · intro h
      exact ⟨s, rfl, h⟩
    · rintro ⟨t, rfl, h⟩
      exact h
  | cons x a ih =>
    rw [List.cons_append, chain_cons, ih]
    constructor
    · rintro ⟨hs, t, ha, hb⟩
      exact ⟨t, ⟨hs, ha⟩, hb⟩
    · rintro ⟨t, ⟨hs, ha⟩, hb⟩
      exact ⟨hs, t, ha, hb⟩

theorem chain_concat : Chain f s (a ++ [x]) e ↔ Chain f s a (some x) ∧ f x = e := by
  rw [chain_append]
  constructor
  · rintro ⟨t, ha, rfl, he⟩
    exact ⟨ha, he⟩
  · rintro ⟨ha, he⟩
    exact ⟨some x, ha, rfl, he⟩

/-- Only the links of its places matter. -/
theorem chain_congr (h : ∀ x ∈ l, f x = g x) : Chain f s l e ↔ Chain g s l e := by
  induction l generalizing s with
  | nil => exact Iff.rfl
  | cons x l ih =>
    rw [chain_cons, chain_cons, h x List.mem_cons_self,
      ih fun y hy => h y (List.mem_cons_of_mem x hy)]

theorem Chain.head?_eq (h : Chain f s l none) : l.head? = s := by
  cases l with
  | nil => exact h.symm
  | cons x l => exact h.1.symm

section Relink

variable [DecidableEq α]

theorem chain_update_of_notMem {t : Option α} (h : x ∉ l) :
    Chain (Function.update f x t) s l e ↔ Chain f s l e :=
  chain_congr fun _ hy => Function.update_of_ne (ne_of_mem_of_not_mem hy h) t f

/-- A place is taken out: what led to it leads to what it led to. -/
theorem Chain.relink (h : Chain f s (a ++ x :: b) none) (hnodup : (a ++ x :: b).Nodup) :
    Chain (a.getLast?.elim f fun y => Function.update f y (f x))
      (a.getLast?.elim (f x) fun _ => s) (a ++ b) none := by
  obtain ⟨t, ha, rfl, hb⟩ := chain_append.1 h
  rcases List.eq_nil_or_concat a with rfl | ⟨a, y, rfl⟩
  · exact hb
  · rw [List.concat_eq_append, List.append_assoc, List.singleton_append,
      List.nodup_middle, List.nodup_cons, List.mem_append, not_or, List.mem_cons, not_or] at hnodup
    obtain ⟨⟨hya, -, hyb⟩, -⟩ := hnodup
    rw [List.concat_eq_append] at ha ⊢
    rw [List.getLast?_concat]
    obtain ⟨ha, -⟩ := chain_concat.1 ha
    refine chain_append.2 ⟨f x, chain_concat.2 ⟨?_, Function.update_self _ _ _⟩, ?_⟩
    · exact (chain_update_of_notMem hya).2 ha
    · exact (chain_update_of_notMem hyb).2 hb

end Relink

/-! ### Walks -/

/-- The places from `s` on up to none, when the fuel is enough. -/
def walk (f : α → Option α) : ℕ → Option α → Option (List α)
  | 0, _ => none
  | _ + 1, none => some []
  | fuel + 1, some x => (walk f fuel (f x)).map (x :: ·)

theorem Chain.walk (h : Chain f s l none) {fuel : ℕ} (hfuel : l.length < fuel) :
    walk f fuel s = some l := by
  induction l generalizing s fuel with
  | nil =>
    cases fuel with
    | zero => omega
    | succ fuel => rw [chain_nil.1 h, Linked.walk]
  | cons x l ih =>
    cases fuel with
    | zero => omega
    | succ fuel =>
      obtain ⟨rfl, h⟩ := h
      rw [Linked.walk, ih h (Nat.lt_of_succ_lt_succ hfuel), Option.map_some]

end Linked
