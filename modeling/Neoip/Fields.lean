/-
Neoip/Fields.lean

Text which is cut in fields.

`split` cuts at delimiters, and stops at a number of fields: the last one is what is
left, delimiters and all.  What was joined with a delimiter which is not in it is cut
there (`split_append_cons`), and two fields are one cut (`split_two_eq_iff`).  `strip`
takes away what surrounds a field.  A delimiter of two elements may lie across the end
of a part: where it is in two parts put together is `pair_infix_append`.
-/
import Mathlib.Data.List.DropRight
import Mathlib.Data.List.TakeWhile

namespace Neoip

namespace Fields

variable {α : Type*} {p : α → Bool} {l a b : List α} {c d : α} {n : ℕ}

/-! ### Cutting -/

/-- The fields of a list, `n` of them at most, which are delimited by the elements of `p`. -/
def split (p : α → Bool) : ℕ → List α → List (List α)
  | 0, l => [l]
  | 1, l => [l]
  | n + 2, l =>
    match l.dropWhile fun c => !p c with
    | [] => [l]
    | _ :: rest => l.takeWhile (fun c => !p c) :: split p (n + 1) rest

/-- A list which holds no delimiter is one field. -/
theorem split_of_forall (h : ∀ c ∈ l, p c = false) : split p n l = [l] := by
  have hdrop : (l.dropWhile fun c => !p c) = [] := by
    rw [List.dropWhile_eq_nil_iff]
    intro c hc
    simp [h c hc]
  match n with
  | 0 => rfl
  | 1 => rfl
  | n + 2 => rw [split, hdrop]

/-- The first field ends at the first delimiter. -/
theorem split_append_cons (h : ∀ c ∈ a, p c = false) (hd : p d = true) :
    split p (n + 2) (a ++ d :: b) = a :: split p (n + 1) b := by
  have hnot : ∀ c ∈ a, (!p c) = true := fun c hc => by simp [h c hc]
  have hd' : ¬ (!p d) = true := by simp [hd]
  rw [split, List.dropWhile_append_of_pos hnot, List.takeWhile_append_of_pos hnot,
    List.dropWhile_cons_of_neg (p := fun c => !p c) hd',
    List.takeWhile_cons_of_neg (p := fun c => !p c) hd', List.append_nil]

/-- There is no delimiter in a list, or a first one. -/
theorem forall_or_exists_cut (p : α → Bool) (l : List α) : (∀ c ∈ l, p c = false) ∨
    ∃ a d b, l = a ++ d :: b ∧ p d = true ∧ ∀ c ∈ a, p c = false := by
  induction l with
  | nil => exact .inl fun c hc => absurd hc List.not_mem_nil
  | cons e l ih =>
    rcases he : p e with - | -
    · rcases ih with hnone | ⟨a, d, b, rfl, hd, ha⟩
      · exact .inl (List.forall_mem_cons.2 ⟨he, hnone⟩)
      · exact .inr ⟨e :: a, d, b, rfl, hd, List.forall_mem_cons.2 ⟨he, ha⟩⟩
    · exact .inr ⟨[], e, l, rfl, he, fun c hc => absurd hc List.not_mem_nil⟩

section DecidableEq

variable [DecidableEq α]

theorem forall_ne_iff : (∀ d ∈ a, decide (d = c) = false) ↔ c ∉ a := by
  constructor
  · intro h hc
    simpa using h c hc
  · intro h d hd
    exact decide_eq_false fun heq => h (heq ▸ hd)

/-- Two fields are what is before the first delimiter, and after it. -/
theorem split_two_eq_iff : split (fun d => decide (d = c)) 2 l = [a, b] ↔
    l = a ++ c :: b ∧ c ∉ a := by
  constructor
  · intro h
    rcases forall_or_exists_cut (fun d => decide (d = c)) l with hnone | ⟨a', d, b', rfl, hd, ha⟩
    · rw [split_of_forall hnone] at h
      cases h
    · rw [split_append_cons ha hd] at h
      obtain ⟨rfl, hb⟩ := List.cons.inj h
      obtain rfl := (List.cons.inj hb).1
      obtain rfl := of_decide_eq_true hd
      exact ⟨rfl, forall_ne_iff.1 ha⟩
  · rintro ⟨rfl, ha⟩
    rw [split_append_cons (forall_ne_iff.2 ha) (decide_eq_true rfl)]
    rfl

end DecidableEq

/-! ### What surrounds a field -/

/-- A list without what is in `p` at its end, and then at its beginning. -/
def strip (p : α → Bool) (l : List α) : List α := (l.rdropWhile p).dropWhile p

/-- What is before a field is taken away, and nothing of the field. -/
theorem strip_cons (hd : p d = true) (hhead : ∀ c, l.head? = some c → p c = false)
    (hlast : ∀ c, l.getLast? = some c → p c = false) : strip p (d :: l) = l := by
  cases l with
  | nil => rw [strip, List.rdropWhile_singleton, if_pos hd, List.dropWhile_nil]
  | cons e l =>
    have hend : ¬ p ((d :: e :: l).getLast (List.cons_ne_nil d _)) = true := by
      rw [List.getLast_cons (List.cons_ne_nil e l),
        hlast _ (List.getLast?_eq_getLast_of_ne_nil _)]
      exact Bool.false_ne_true
    have hhead' : ¬ p e = true := by
      rw [hhead e rfl]
      exact Bool.false_ne_true
    rw [strip, List.rdropWhile_eq_self_iff.2 fun _ => hend, List.dropWhile_cons_of_pos hd,
      List.dropWhile_cons_of_neg hhead']

/-! ### A delimiter of two elements -/

/-- A pair in two lists put together is in one of them, or across where they meet. -/
theorem pair_infix_append (h : [c, d] <:+: a ++ b) :
    [c, d] <:+: a ∨ [c, d] <:+: b ∨ a.getLast? = some c ∧ b.head? = some d := by
  induction a with
  | nil => exact .inr (.inl h)
  | cons e a ih =>
    rw [List.cons_append, List.infix_cons_iff] at h
    rcases h with hbegin | hpair
    · obtain ⟨rfl, hnext⟩ := List.cons_prefix_cons.1 hbegin
      cases a with
      | nil =>
        obtain ⟨tail, rfl⟩ := hnext
        exact .inr (.inr ⟨rfl, rfl⟩)
      | cons f a =>
        obtain ⟨rfl, -⟩ := List.cons_prefix_cons.1 hnext
        exact .inl ⟨[], a, rfl⟩
    · rcases ih hpair with ha | hb | ⟨hlast, hhead⟩
      · exact .inl (List.infix_cons ha)
      · exact .inr (.inl hb)
      · refine .inr (.inr ⟨?_, hhead⟩)
        cases a with
        | nil => cases hlast
        | cons f a => rw [List.getLast?_cons_cons, hlast]

/-- A list which does not hold the first element of a pair does not hold the pair. -/
theorem not_pair_infix_of_notMem (h : c ∉ l) : ¬ [c, d] <:+: l :=
  fun hpair => h (hpair.subset (List.mem_cons_self ..))

end Fields

end Neoip
