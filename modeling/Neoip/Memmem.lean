/-
Neoip/Memmem.lean

The first occurrence of a list in another one.

`memmem needle l` is the first place of `l` where `needle` is.  A reader who looks for a
mark in a stream, as it comes in, finds it once it has all of it, and at the same place
whatever has come behind it (`memmem_of_prefix`): it is enough that the mark is first
where it was put, among what is before it.
-/
import Mathlib.Data.List.Infix
import Mathlib.Tactic.Common

namespace Neoip

variable {α : Type*} [DecidableEq α] {needle l pad s rest : List α} {i : ℕ}

/-- The first place of a list where `needle` is. -/
def memmem (needle : List α) : List α → Option ℕ
  | [] => if needle = [] then some 0 else none
  | a :: l => if needle <+: a :: l then some 0 else (memmem needle l).map (· + 1)

theorem memmem_eq_some_iff :
    memmem needle l = some i ↔
      i ≤ l.length ∧ needle <+: l.drop i ∧ ∀ j < i, ¬ needle <+: l.drop j := by
  induction l generalizing i with
  | nil =>
    rw [memmem]
    split_ifs with hnil
    · subst hnil
      constructor
      · rintro ⟨⟩
        exact ⟨Nat.le_refl 0, List.nil_prefix, fun j hj => absurd hj (Nat.not_lt_zero j)⟩
      · rintro ⟨hle, -⟩
        rw [Nat.le_zero.1 hle]
    · constructor
      · rintro ⟨⟩
      · rintro ⟨-, hpre, -⟩
        rw [List.drop_nil] at hpre
        exact absurd (List.prefix_nil.1 hpre) hnil
  | cons a l ih =>
    rw [memmem]
    -- found here, or else where it is in the tail
    split_ifs with hpre
    · constructor
      · rintro ⟨⟩
        exact ⟨Nat.zero_le _, hpre, fun j hj => absurd hj (Nat.not_lt_zero j)⟩
      · rintro ⟨-, -, hfirst⟩
        rcases Nat.eq_zero_or_pos i with rfl | hi
        · rfl
        · exact absurd hpre (hfirst 0 hi)
    · rw [Option.map_eq_some_iff]
      constructor
      · rintro ⟨i, hi, rfl⟩
        obtain ⟨hle, hhere, hfirst⟩ := ih.1 hi
        refine ⟨Nat.succ_le_succ hle, hhere, fun j hj => ?_⟩
        cases j with
        | zero => exact hpre
        | succ j => exact hfirst j (Nat.lt_of_succ_lt_succ hj)
      · rintro ⟨hle, hhere, hfirst⟩
        cases i with
        | zero => exact absurd hhere hpre
        | succ i =>
          exact ⟨i, ih.2 ⟨Nat.le_of_succ_le_succ hle, hhere,
            fun j hj => hfirst (j + 1) (Nat.succ_lt_succ hj)⟩, rfl⟩

/-- Where it is found, all of it is there. -/
theorem add_length_le_of_memmem (h : memmem needle l = some i) :
    i + needle.length ≤ l.length := by
  obtain ⟨hle, hpre, -⟩ := memmem_eq_some_iff.1 h
  have hlen := hpre.length_le
  rw [List.length_drop] at hlen
  omega

omit [DecidableEq α] in
/-- What a stream has of its first packet, and behind it. -/
theorem prefix_append_cut {n : ℕ} (h : s <+: pad ++ rest) (hn : pad.length = n)
    (hle : n ≤ s.length) : s.take n = pad ∧ s.drop n <+: rest := by
  have htake := h.take n
  have hdrop := h.drop n
  rw [List.take_left' hn] at htake
  rw [List.drop_left' hn] at hdrop
  refine ⟨htake.eq_of_length ?_, hdrop⟩
  rw [hn, List.length_take, Nat.min_eq_left hle]

/-- What was before the mark does not hold it, also when more of the stream is known. -/
theorem memmem_of_prefix (h : memmem needle (pad ++ needle) = some pad.length)
    (hs : s <+: pad ++ (needle ++ rest)) :
    memmem needle s =
      if pad.length + needle.length ≤ s.length then some pad.length else none := by
  obtain ⟨-, -, hfirst⟩ := memmem_eq_some_iff.1 h
  -- an occurrence which ends in the mark is one in the pad and the mark
  have hback : ∀ j, needle <+: s.drop j → j + needle.length ≤ pad.length + needle.length →
      needle <+: (pad ++ needle).drop j := by
    intro j hj hle
    have hdrop : s.drop j <+: ((pad ++ needle) ++ rest).drop j := by
      rw [List.append_assoc]
      exact hs.drop j
    rw [List.drop_append_of_le_length (by rw [List.length_append]; omega)] at hdrop
    apply List.prefix_of_prefix_length_le (hj.trans hdrop) (List.prefix_append _ _)
    rw [List.length_drop, List.length_append]
    omega
  split_ifs with hlen
  · rw [memmem_eq_some_iff]
    refine ⟨by omega, ?_, fun j hj hpre => hfirst j hj (hback j hpre (by omega))⟩
    obtain ⟨-, hdrop⟩ := prefix_append_cut hs rfl (by omega)
    refine List.prefix_of_prefix_length_le (List.prefix_append needle rest) hdrop ?_
    rw [List.length_drop]
    omega
  · cases hfind : memmem needle s with
    | none => rfl
    | some j =>
      -- it would end before the mark does
      have hend := add_length_le_of_memmem hfind
      obtain ⟨-, hpre, -⟩ := memmem_eq_some_iff.1 hfind
      exact absurd (hback j hpre (by omega)) (hfirst j (by omega))

end Neoip
