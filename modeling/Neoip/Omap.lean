/-
Neoip/Omap.lean

`std::map` as the list of its entries, in the order of the keys.

An entry is found by its key; an insertion under a key which is there already
does nothing.  The order is a parameter, and need not be one: what is said here
of the entries as a set holds for any comparison of the keys.
-/
import Mathlib.Data.List.Nodup
import Mathlib.Algebra.BigOperators.Group.List.Basic
import Mathlib.Tactic.Common

namespace Neoip.Omap

variable {κ α : Type*} [DecidableEq κ] {lt : κ → κ → Bool} {k k' : κ} {a b : α} {l : List (κ × α)}
  {e : κ × α}

def find (k : κ) (l : List (κ × α)) : Option α := (l.find? fun e => e.1 = k).map Prod.snd

/-- The entry comes before the first one whose key is greater. -/
def place (lt : κ → κ → Bool) (k : κ) (a : α) : List (κ × α) → List (κ × α)
  | [] => [(k, a)]
  | e :: l => if lt k e.1 then (k, a) :: e :: l else e :: place lt k a l

def insert (lt : κ → κ → Bool) (k : κ) (a : α) (l : List (κ × α)) : List (κ × α) :=
  match find k l with
  | some _ => l
  | none => place lt k a l

def erase (k : κ) (l : List (κ × α)) : List (κ × α) := l.filter fun e => e.1 ≠ k

/-- The value of a key is set, whether the key is there or not. -/
def assign (lt : κ → κ → Bool) (k : κ) (a : α) (l : List (κ × α)) : List (κ × α) :=
  place lt k a (erase k l)

/-- No key is there twice. -/
def Keyed (l : List (κ × α)) : Prop := (l.map Prod.fst).Nodup

theorem find_eq_none : find k l = none ↔ ∀ a, (k, a) ∉ l := by
  rw [find, Option.map_eq_none_iff, List.find?_eq_none]
  constructor
  · intro h a ha
    exact h (k, a) ha (decide_eq_true rfl)
  · rintro h ⟨k', a⟩ ha
    rw [decide_eq_true_iff]
    rintro rfl
    exact h a ha

theorem mem_of_find (h : find k l = some a) : (k, a) ∈ l := by
  obtain ⟨⟨k', a'⟩, hfind, rfl⟩ := Option.map_eq_some_iff.1 h
  have hkey : k' = k := by simpa using List.find?_some hfind
  subst hkey
  exact List.mem_of_find?_eq_some hfind

omit [DecidableEq κ] in
theorem Keyed.eq (h : Keyed l) (ha : (k, a) ∈ l) (hb : (k, b) ∈ l) : a = b := by
  have heq := List.inj_on_of_nodup_map h ha hb rfl
  exact (Prod.mk.inj heq).2

theorem find_eq_some (h : Keyed l) : find k l = some a ↔ (k, a) ∈ l := by
  refine ⟨mem_of_find, fun ha => ?_⟩
  cases hfind : find k l with
  | none => exact absurd ha (find_eq_none.1 hfind a)
  | some b => rw [h.eq ha (mem_of_find hfind)]

omit [DecidableEq κ] in
theorem place_perm : (place lt k a l).Perm ((k, a) :: l) := by
  induction l with
  | nil => exact List.Perm.refl _
  | cons e l ih =>
    rw [place]
    split_ifs
    · exact List.Perm.refl _
    · exact (ih.cons e).trans (List.Perm.swap _ _ _)

omit [DecidableEq κ] in
theorem mem_place : e ∈ place lt k a l ↔ e = (k, a) ∨ e ∈ l := by
  rw [place_perm.mem_iff, List.mem_cons]

theorem mem_erase : e ∈ erase k l ↔ e ∈ l ∧ e.1 ≠ k := by
  rw [erase, List.mem_filter, decide_eq_true_iff]

theorem keyed_place (h : Keyed l) (hk : find k l = none) : Keyed (place lt k a l) := by
  have hnodup : (((k, a) :: l).map Prod.fst).Nodup := by
    rw [List.map_cons, List.nodup_cons]
    refine ⟨fun hmem => ?_, h⟩
    obtain ⟨⟨k', b⟩, hb, rfl⟩ := List.mem_map.1 hmem
    exact find_eq_none.1 hk b hb
  exact (place_perm.map Prod.fst).nodup_iff.2 hnodup

theorem keyed_insert (h : Keyed l) : Keyed (insert lt k a l) := by
  rw [insert]
  cases hfind : find k l with
  | none => exact keyed_place h hfind
  | some b => exact h

omit [DecidableEq κ] in
/-- The entries stay in an order in which the new key is before those which it goes before, and
behind the others. -/
theorem pairwise_place_of {r : κ → κ → Prop} (hlt : ∀ {a}, lt k a = true → r k a)
    (htrans : ∀ {a b}, lt k a = true → r a b → r k b)
    (hge : ∀ e ∈ l, lt k e.1 = false → r e.1 k) (h : l.Pairwise fun a b => r a.1 b.1) :
    (place lt k a l).Pairwise fun a b => r a.1 b.1 := by
  induction l with
  | nil => exact List.pairwise_singleton _ _
  | cons e l ih =>
    obtain ⟨hhead, htail⟩ := List.pairwise_cons.1 h
    rw [place]
    split_ifs with hke
    · refine List.pairwise_cons.2 ⟨fun b hb => ?_, h⟩
      rcases List.mem_cons.1 hb with rfl | hb
      · exact hlt hke
      · exact htrans hke (hhead b hb)
    · refine List.pairwise_cons.2 ⟨fun b hb => ?_,
        ih (fun e he => hge e (List.mem_cons_of_mem _ he)) htail⟩
      rcases mem_place.1 hb with rfl | hb
      · exact hge e List.mem_cons_self (Bool.eq_false_iff.2 hke)
      · exact hhead b hb

variable (lt) in
/-- Where the keys are in a strict order, they stay in it. -/
theorem sorted_place (htrans : ∀ {a b c : κ}, lt a b = true → lt b c = true → lt a c = true)
    (htotal : ∀ {a b : κ}, a ≠ b → lt b a = false → lt a b = true)
    (h : l.Pairwise fun a b => lt a.1 b.1 = true) (hk : find k l = none) :
    (place lt k a l).Pairwise fun a b => lt a.1 b.1 = true := by
  refine pairwise_place_of (r := fun a b => lt a b = true) (fun hlt => hlt) htrans
    (fun e he hke => ?_) h
  refine htotal ?_ hke
  rintro rfl
  exact find_eq_none.1 hk e.2 he

/-- Where the order is that of the numbers, the entries stay in it. -/
theorem pairwise_place {l : List (ℕ × α)} {k : ℕ} (h : l.Pairwise fun a b => a.1 < b.1)
    (hk : find k l = none) :
    (place (fun a b => decide (a < b)) k a l).Pairwise fun a b => a.1 < b.1 := by
  have hplace := sorted_place (fun a b : ℕ => decide (a < b)) (a := a)
    (fun hab hbc => decide_eq_true
      (Nat.lt_trans (of_decide_eq_true hab) (of_decide_eq_true hbc)))
    (fun hne hba => decide_eq_true
      (Nat.lt_of_le_of_ne (Nat.not_lt.1 (of_decide_eq_false hba)) hne))
    (h.imp fun hab => decide_eq_true hab) hk
  exact hplace.imp fun hab => of_decide_eq_true hab

theorem keyed_erase (h : Keyed l) : Keyed (erase k l) :=
  h.sublist (List.filter_sublist.map Prod.fst)

theorem erase_of_notMem (hk : ∀ e ∈ l, e.1 ≠ k) : erase k l = l :=
  List.filter_eq_self.2 fun e he => decide_eq_true (hk e he)

theorem find_cons : find k (e :: l) = if e.1 = k then some e.2 else find k l := by
  rw [find, find, List.find?_cons]
  by_cases h : e.1 = k
  · rw [decide_eq_true h, if_pos h]
    rfl
  · rw [decide_eq_false h, if_neg h]

theorem find_place_self (hk : find k l = none) : find k (place lt k a l) = some a := by
  induction l with
  | nil => rw [place, find_cons, if_pos rfl]
  | cons e l ih =>
    rw [find_cons] at hk
    split_ifs at hk with hne
    rw [place]
    split_ifs
    · rw [find_cons, if_pos rfl]
    · rw [find_cons, if_neg hne]
      exact ih hk

theorem find_place_of_ne (hne : k ≠ k') : find k' (place lt k a l) = find k' l := by
  induction l with
  | nil => rw [place, find_cons, if_neg hne]
  | cons e l ih =>
    rw [place]
    split_ifs
    · rw [find_cons, if_neg hne]
    · rw [find_cons, find_cons, ih]

theorem find_erase_of_ne (hne : k ≠ k') : find k' (erase k l) = find k' l := by
  induction l with
  | nil => rfl
  | cons e l ih =>
    by_cases h : e.1 = k
    · rw [erase, List.filter_cons_of_neg (by simp [h]), ← erase, ih, find_cons,
        if_neg fun h' => hne (h.symm.trans h')]
    · rw [erase, List.filter_cons_of_pos (by simp [h]), ← erase, find_cons, find_cons, ih]

theorem find_erase_self : find k (erase k l) = none :=
  find_eq_none.2 fun _ ha => (mem_erase.1 ha).2 rfl

@[simp] theorem find_assign_self : find k (assign lt k a l) = some a :=
  find_place_self find_erase_self

theorem find_assign_of_ne (hne : k ≠ k') : find k' (assign lt k a l) = find k' l := by
  rw [assign, find_place_of_ne hne, find_erase_of_ne hne]

theorem find_erase : find k' (erase k l) = if k' = k then none else find k' l := by
  split_ifs with heq
  · rw [heq, find_erase_self]
  · exact find_erase_of_ne (Ne.symm heq)

theorem find_assign : find k' (assign lt k a l) = if k' = k then some a else find k' l := by
  split_ifs with heq
  · rw [heq, find_assign_self]
  · exact find_assign_of_ne (Ne.symm heq)

theorem find_place (hk : find k l = none) :
    find k' (place lt k a l) = if k' = k then some a else find k' l := by
  split_ifs with heq
  · rw [heq, find_place_self hk]
  · exact find_place_of_ne (Ne.symm heq)

theorem keyed_assign (h : Keyed l) : Keyed (assign lt k a l) :=
  keyed_place (keyed_erase h) find_erase_self

theorem perm_erase (h : Keyed l) (ha : (k, a) ∈ l) : l.Perm ((k, a) :: erase k l) := by
  induction l with
  | nil => cases ha
  | cons e l ih =>
    obtain ⟨hhead, htail⟩ := List.nodup_cons.1 h
    rcases List.mem_cons.1 ha with rfl | hmem
    · have hrest : ∀ e ∈ l, e.1 ≠ k := by
        rintro e he heq
        exact hhead (List.mem_map.2 ⟨e, he, heq⟩)
      rw [erase, List.filter_cons_of_neg (by simp), ← erase, erase_of_notMem hrest]
    · have hne : e.1 ≠ k := by
        intro heq
        exact hhead (List.mem_map.2 ⟨(k, a), hmem, heq.symm⟩)
      rw [erase, List.filter_cons_of_pos (by simpa using hne), ← erase]
      exact ((ih htail hmem).cons e).trans (List.Perm.swap _ _ _)

theorem erase_place (hk : find k l = none) : erase k (place lt k a l) = l := by
  have hrest : ∀ e ∈ l, e.1 ≠ k := by
    rintro ⟨k', b⟩ he rfl
    exact find_eq_none.1 hk b he
  induction l with
  | nil => simp [place, erase]
  | cons e l ih =>
    rw [place]
    split_ifs
    · rw [erase, List.filter_cons_of_neg (by simp), ← erase, erase_of_notMem hrest]
    · have hne : e.1 ≠ k := hrest e List.mem_cons_self
      have htail : ∀ e ∈ l, e.1 ≠ k := fun e he => hrest e (List.mem_cons_of_mem _ he)
      have hnone : find k l = none := by rwa [find_cons, if_neg hne] at hk
      rw [erase, List.filter_cons_of_pos (by simpa using hne), ← erase, ih hnone htail]

theorem insert_of_find (hk : find k l = none) : insert lt k a l = place lt k a l := by
  rw [insert, hk]

omit [DecidableEq κ] in
theorem sum_place {M : Type*} [AddCommMonoid M] (f : κ × α → M) :
    ((place lt k a l).map f).sum = f (k, a) + (l.map f).sum := by
  rw [(place_perm.map f).sum_eq, List.map_cons, List.sum_cons]

/-- Erasing an entry takes it out of any sum over the entries. -/
theorem sum_erase {M : Type*} [AddCommMonoid M] (h : Keyed l) (ha : (k, a) ∈ l)
    (f : κ × α → M) :
    (l.map f).sum = f (k, a) + ((erase k l).map f).sum := by
  rw [((perm_erase h ha).map f).sum_eq, List.map_cons, List.sum_cons]

end Neoip.Omap
