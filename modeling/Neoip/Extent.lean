/-
Neoip/Extent.lean

Parts of a concatenation.

An extent designates consecutive items of one list out of several.  Extents
*cover* an interval of the concatenation of the lists when they are in order,
each within its list, and designate together the items of the interval and no
other, whatever the lists hold.  Only the lengths of the lists matter, so a cover
is one for all lists of these lengths.

`cut` goes through the lengths once and keeps of each list the part which is in
the interval.

Main results: `covers_cut`, and `Covers.merge`: two extents which touch are
replaced by one.
-/
import Mathlib.Data.List.Basic
import Mathlib.Tactic.Common

namespace Neoip

/-- The items from `beg` to `last`, both included, of the list `idx`. -/
structure Extent where
  idx : ℕ
  beg : ℕ
  last : ℕ
deriving DecidableEq, Repr

namespace Extent

/-- What an extent designates. -/
def slice {α : Type} (datas : List (List α)) (x : Extent) : List α :=
  ((datas[x.idx]?.getD []).take (x.last + 1)).drop x.beg

def Before (x y : Extent) : Prop := x.idx < y.idx ∨ x.idx = y.idx ∧ x.last < y.beg

/-- The two extents as one. -/
def merge (x y : Extent) : Extent := ⟨x.idx, x.beg, y.last⟩

/-- The extents of the interval from `b` to `e`, for lists of lengths `lens` the
first of which is the list `idx` and begins at `pos`. -/
def cut (b e : ℕ) : ℕ → ℕ → List ℕ → List Extent
  | _, _, [] => []
  | idx, pos, len :: lens =>
    if len = 0 ∨ pos + len ≤ b ∨ e < pos then cut b e (idx + 1) (pos + len) lens
    else ⟨idx, b - pos, min (len - 1) (e - pos)⟩ :: cut b e (idx + 1) (pos + len) lens

/-- The extents are those of the interval from `b` to `e`, in order. -/
structure Covers (lens : List ℕ) (b e : ℕ) (l : List Extent) : Prop where
  ordered : l.Pairwise Before
  nonempty : ∀ x ∈ l, x.beg ≤ x.last
  within : ∀ x ∈ l, ∃ len, lens[x.idx]? = some len ∧ x.last < len
  content : ∀ {α : Type} (datas : List (List α)), datas.map List.length = lens →
    l.flatMap (slice datas) = (datas.flatten.take (e + 1)).drop b

variable {b e : ℕ} {lens : List ℕ} {x y : Extent} {α : Type} {datas : List (List α)}

/-! ### The extents of an interval -/

theorem mem_cut {idx pos : ℕ} (hbe : b ≤ e) (hx : x ∈ cut b e idx pos lens) :
    x.beg ≤ x.last ∧ idx ≤ x.idx ∧
      ∃ len, lens[x.idx - idx]? = some len ∧ x.last < len := by
  induction lens generalizing idx pos with
  | nil => cases hx
  | cons len lens ih =>
    -- an extent of the other lists
    have hrest : x ∈ cut b e (idx + 1) (pos + len) lens → x.beg ≤ x.last ∧ idx ≤ x.idx ∧
        ∃ len', (len :: lens)[x.idx - idx]? = some len' ∧ x.last < len' := by
      intro h
      obtain ⟨hne, hidx, len', hlen', hlast⟩ := ih h
      refine ⟨hne, by omega, len', ?_, hlast⟩
      rw [show x.idx - idx = x.idx - (idx + 1) + 1 by omega, List.getElem?_cons_succ]
      exact hlen'
    rw [cut] at hx
    split_ifs at hx with hout
    · exact hrest hx
    · rcases List.mem_cons.1 hx with rfl | hx
      · refine ⟨?_, Nat.le_refl _, len, ?_, ?_⟩
        · show b - pos ≤ min (len - 1) (e - pos)
          omega
        · show (len :: lens)[idx - idx]? = some len
          rw [Nat.sub_self, List.getElem?_cons_zero]
        · show min (len - 1) (e - pos) < len
          omega
      · exact hrest hx

theorem cut_idx_pairwise (hbe : b ≤ e) (idx pos : ℕ) :
    (cut b e idx pos lens).Pairwise fun x y => x.idx < y.idx := by
  induction lens generalizing idx pos with
  | nil => exact List.Pairwise.nil
  | cons len lens ih =>
    rw [cut]
    split_ifs
    · exact ih ..
    · refine List.pairwise_cons.2 ⟨fun y hy => ?_, ih ..⟩
      obtain ⟨-, hidx, -⟩ := mem_cut hbe hy
      exact hidx

/-- Of one list, the part in the interval: none of it when the list is outside. -/
theorem drop_take_eq_nil {pos : ℕ} {d : List α}
    (hout : d.length = 0 ∨ pos + d.length ≤ b ∨ e < pos) :
    (d.take (e + 1 - pos)).drop (b - pos) = [] := by
  rw [List.drop_eq_nil_iff, List.length_take]
  omega

/-- What is before the interval in a concatenation is taken off its two parts. -/
theorem drop_take_append {pos : ℕ} (d rest : List α) :
    ((d ++ rest).take (e + 1 - pos)).drop (b - pos) = (d.take (e + 1 - pos)).drop (b - pos)
      ++ (rest.take (e + 1 - (pos + d.length))).drop (b - (pos + d.length)) := by
  rw [List.take_append, List.drop_append, List.length_take,
    show e + 1 - pos - d.length = e + 1 - (pos + d.length) by omega]
  congr 1
  -- when the interval ends in the first part, nothing of the second is in it
  by_cases hend : e + 1 - pos ≤ d.length
  · rw [show e + 1 - (pos + d.length) = 0 by omega, List.take_zero, List.drop_nil, List.drop_nil]
  · rw [show b - pos - min (e + 1 - pos) d.length = b - (pos + d.length) by omega]

/-- The lists before the list `idx` do not matter. -/
theorem cut_content (pre : List (List α)) (pos : ℕ) :
    (cut b e pre.length pos (datas.map List.length)).flatMap (slice (pre ++ datas))
      = (datas.flatten.take (e + 1 - pos)).drop (b - pos) := by
  induction datas generalizing pre pos with
  | nil => rw [List.map_nil, cut, List.flatMap_nil, List.flatten_nil, List.take_nil, List.drop_nil]
  | cons d datas ih =>
    have hrest := ih (pre ++ [d]) (pos + d.length)
    rw [List.append_assoc, List.singleton_append, List.length_append, List.length_singleton]
      at hrest
    rw [List.map_cons, cut, List.flatten_cons, drop_take_append]
    split_ifs with hout
    · rw [hrest, drop_take_eq_nil hout, List.nil_append]
    · rw [List.flatMap_cons, hrest]
      congr 1
      -- the part of the list `d`
      show (((pre ++ d :: datas)[pre.length]?.getD []).take
        (min (d.length - 1) (e - pos) + 1)).drop (b - pos) = _
      rw [List.getElem?_append_right (Nat.le_refl _), Nat.sub_self, List.getElem?_cons_zero]
      show (d.take (min (d.length - 1) (e - pos) + 1)).drop (b - pos) = _
      by_cases hend : e + 1 - pos ≤ d.length
      · rw [show min (d.length - 1) (e - pos) + 1 = e + 1 - pos by omega]
      · rw [List.take_of_length_le (by omega), List.take_of_length_le (by omega)]

/-- The parts which `cut` keeps are those of the interval. -/
theorem covers_cut (hbe : b ≤ e) : Covers lens b e (cut b e 0 0 lens) where
  ordered := (cut_idx_pairwise hbe 0 0).imp fun h => Or.inl h
  nonempty := fun x hx => (mem_cut hbe hx).1
  within := fun x hx => by
    obtain ⟨-, -, h⟩ := mem_cut hbe hx
    exact h
  content := fun datas hdatas => by
    obtain rfl := hdatas
    exact cut_content [] 0

/-! ### Two extents which touch -/

theorem slice_merge (hbeg : x.beg ≤ x.last) (hidx : x.idx = y.idx) (htouch : x.last + 1 = y.beg)
    (hlast : y.beg ≤ y.last) :
    slice datas (x.merge y) = slice datas x ++ slice datas y := by
  rw [slice, slice, slice, merge, ← hidx, ← htouch]
  show (List.take (y.last + 1) _).drop x.beg = _
  generalize datas[x.idx]?.getD [] = d
  have hsplit := List.take_append_drop (x.last + 1) (d.take (y.last + 1))
  rw [List.take_take, Nat.min_eq_left (by omega)] at hsplit
  by_cases hlen : x.last + 1 ≤ d.length
  · calc (d.take (y.last + 1)).drop x.beg
        = (d.take (x.last + 1) ++ (d.take (y.last + 1)).drop (x.last + 1)).drop x.beg := by
          rw [hsplit]
      _ = (d.take (x.last + 1)).drop x.beg ++ (d.take (y.last + 1)).drop (x.last + 1) :=
          List.drop_append_of_le_length (by rw [List.length_take]; omega)
  · -- the list ends before the second extent
    rw [List.take_of_length_le (by omega), List.take_of_length_le (by omega),
      List.drop_eq_nil_of_le (by omega : d.length ≤ x.last + 1), List.append_nil]

theorem Covers.merge {pre post : List Extent} (h : Covers lens b e (pre ++ x :: y :: post))
    (hidx : x.idx = y.idx) (htouch : x.last + 1 = y.beg) :
    Covers lens b e (pre ++ x.merge y :: post) := by
  have hx : x ∈ pre ++ x :: y :: post := List.mem_append_right _ List.mem_cons_self
  have hy : y ∈ pre ++ x :: y :: post :=
    List.mem_append_right _ (List.mem_cons_of_mem _ List.mem_cons_self)
  -- an extent of the new list is the merged one, or was there
  have hmem : ∀ z ∈ pre ++ x.merge y :: post, z = x.merge y ∨ z ∈ pre ++ x :: y :: post := by
    intro z hz
    rw [List.mem_append, List.mem_cons] at hz
    rw [List.mem_append, List.mem_cons, List.mem_cons]
    tauto
  have hxlast := h.nonempty x hx
  have hylast := h.nonempty y hy
  obtain ⟨hpre, hrest, hacross⟩ := List.pairwise_append.1 h.ordered
  obtain ⟨hhead, hrest⟩ := List.pairwise_cons.1 hrest
  obtain ⟨hnext, hpost⟩ := List.pairwise_cons.1 hrest
  refine ⟨?_, ?_, ?_, ?_⟩
  · refine List.pairwise_append.2 ⟨hpre, List.pairwise_cons.2 ⟨fun z hz => ?_, hpost⟩, ?_⟩
    · -- the merged extent ends where the second one did
      rcases hnext z hz with hlt | ⟨heq, hlt⟩
      · exact Or.inl (hidx ▸ hlt)
      · exact Or.inr ⟨hidx.trans heq, hlt⟩
    · intro z hz w hw
      rcases List.mem_cons.1 hw with rfl | hw
      · exact hacross z hz x List.mem_cons_self
      · exact hacross z hz w (List.mem_cons_of_mem _ (List.mem_cons_of_mem _ hw))
  · intro z hz
    rcases hmem z hz with rfl | hz
    · show x.beg ≤ y.last
      omega
    · exact h.nonempty z hz
  · intro z hz
    rcases hmem z hz with rfl | hz
    · obtain ⟨len, hlen, hlt⟩ := h.within y hy
      exact ⟨len, hidx ▸ hlen, hlt⟩
    · exact h.within z hz
  · intro α datas hdatas
    rw [← h.content datas hdatas, List.flatMap_append, List.flatMap_append, List.flatMap_cons,
      List.flatMap_cons, List.flatMap_cons, slice_merge hxlast hidx htouch hylast,
      List.append_assoc]

end Extent

end Neoip
