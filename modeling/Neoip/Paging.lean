/-
Neoip/Paging.lean

Reading a collection page by page.

The elements have a rank.  The reader has a cursor, which is none at first; it
is given a page of what comes after the cursor, and takes the rank of the last
element of the page as its cursor.  A page goes up, and leaves nothing out
before its last element (`IsPage`); it is empty when nothing is left only.

Main results: what was read is always what is not after the cursor, each
element once (`IsPage.perm`), and a sequence of pages which are not empty is no
longer than the collection (`IsPage.length_le`).
-/
import Mathlib.Data.List.Nodup
import Mathlib.Data.List.Perm.Subperm
import Mathlib.Data.List.Perm.Lattice
import Mathlib.Order.Lattice
import Mathlib.Tactic.Common

namespace Neoip

namespace Paging

variable {α β : Type*} [LinearOrder β] {rank : α → β} {items page got : List α}
  {cur : Option β} {a b : α}

/-- A rank is after a cursor.  Each one is after none. -/
def isAfter (cur : Option β) (r : β) : Bool := cur.all (· < r)

@[simp] theorem isAfter_none (r : β) : isAfter none r = true := rfl

@[simp] theorem isAfter_some (r r' : β) : isAfter (some r') r = decide (r' < r) := rfl

/-- A page of the elements which come after a cursor. -/
structure IsPage (rank : α → β) (items : List α) (cur : Option β) (page : List α) : Prop where
  sorted : page.Pairwise fun a b => rank a < rank b
  mem : ∀ a ∈ page, a ∈ items ∧ isAfter cur (rank a) = true
  gap : ∀ a ∈ items, isAfter cur (rank a) = true → ∀ b ∈ page, rank a ≤ rank b → a ∈ page
  empty : page = [] → ∀ a ∈ items, isAfter cur (rank a) = false

/-- What has been read, when the cursor is there. -/
def upTo (rank : α → β) (items : List α) (cur : Option β) : List α :=
  items.filter fun a => !isAfter cur (rank a)

theorem mem_upTo : a ∈ upTo rank items cur ↔ a ∈ items ∧ isAfter cur (rank a) = false := by
  rw [upTo, List.mem_filter, Bool.not_eq_true']

@[simp] theorem upTo_none : upTo rank items none = [] :=
  List.filter_eq_nil_iff.2 fun _ _ => by simp

/-- The last element of a page is its greatest one. -/
theorem IsPage.le_last (h : IsPage rank items cur page) (hlast : page.getLast? = some b)
    (ha : a ∈ page) : rank a ≤ rank b := by
  obtain ⟨init, rfl⟩ := List.getLast?_eq_some_iff.1 hlast
  rcases List.mem_append.1 ha with hinit | hsing
  · exact ((List.pairwise_append.1 h.sorted).2.2 a hinit b (List.mem_singleton.2 rfl)).le
  · rw [List.mem_singleton.1 hsing]

/-- **A page more**: what has been read, and the page, is what is not after its last element. -/
theorem IsPage.perm (h : IsPage rank items cur page) (hnodup : items.Nodup)
    (hlast : page.getLast? = some b) (hgot : got.Perm (upTo rank items cur)) :
    (got ++ page).Perm (upTo rank items (some (rank b))) := by
  have hb : b ∈ page := List.mem_of_getLast? hlast
  have hpage : page.Nodup := h.sorted.imp fun hlt heq => absurd (heq ▸ hlt) (lt_irrefl _)
  have hread : (got ++ page).Nodup := by
    refine List.nodup_append'.2 ⟨hgot.nodup_iff.2 (hnodup.filter _), hpage, ?_⟩
    intro a ha ha'
    have hbefore := (mem_upTo.1 (hgot.mem_iff.1 ha)).2
    rw [(h.mem a ha').2] at hbefore
    cases hbefore
  apply (List.perm_ext_iff_of_nodup hread (hnodup.filter _)).2
  intro a
  rw [List.mem_append, hgot.mem_iff, ← upTo, mem_upTo, mem_upTo, isAfter_some,
    decide_eq_false_iff_not, not_lt]
  constructor
  · rintro (⟨hmem, hbefore⟩ | ha)
    · refine ⟨hmem, ?_⟩
      have hafter := (h.mem b hb).2
      cases cur with
      | none => cases hbefore
      | some r =>
        rw [isAfter_some, decide_eq_false_iff_not, not_lt] at hbefore
        rw [isAfter_some, decide_eq_true_iff] at hafter
        exact hbefore.trans hafter.le
    · exact ⟨(h.mem a ha).1, h.le_last hlast ha⟩
  · rintro ⟨hmem, hle⟩
    cases hafter : isAfter cur (rank a) with
    | false => exact .inl ⟨hmem, rfl⟩
    | true => exact .inr (h.gap a hmem hafter b hb hle)

/-- **The last page**: when it is empty everything has been read, once. -/
theorem IsPage.perm_of_nil (h : IsPage rank items cur []) (hgot : got.Perm (upTo rank items cur)) :
    got.Perm items := by
  have hall : upTo rank items cur = items :=
    List.filter_eq_self.2 fun a ha => by rw [h.empty rfl a ha]; rfl
  rwa [hall] at hgot

/-- No more is read than there is. -/
theorem length_le_of_perm (hgot : got.Perm (upTo rank items cur)) : got.length ≤ items.length :=
  hgot.length_eq ▸ List.length_filter_le _ _

/-- The first elements of a sorted list are a page, when nothing comes before them that the list
does not have. -/
theorem isPage_take {l : List α} {n : ℕ} (hsorted : l.Pairwise fun a b => rank a < rank b)
    (hmem : ∀ a ∈ l, a ∈ items ∧ isAfter cur (rank a) = true)
    (hgap : ∀ a ∈ items, isAfter cur (rank a) = true → ∀ b ∈ l, rank a ≤ rank b → a ∈ l)
    (hempty : l.take n = [] → ∀ a ∈ items, isAfter cur (rank a) = false) :
    IsPage rank items cur (l.take n) := by
  refine ⟨hsorted.sublist (List.take_sublist n l), fun a ha => hmem a (List.mem_of_mem_take ha),
    fun a ha hafter b hb hle => ?_, hempty⟩
  have hal := hgap a ha hafter b (List.mem_of_mem_take hb) hle
  rw [← List.take_append_drop n l, List.mem_append] at hal
  apply hal.resolve_right
  intro hdrop
  rw [← List.take_append_drop n l, List.pairwise_append] at hsorted
  exact absurd (hsorted.2.2 b hb a hdrop) (not_lt.2 hle)

end Paging

end Neoip
