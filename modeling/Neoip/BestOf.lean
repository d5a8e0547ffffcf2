/-
Neoip/BestOf.lean

The best copies of the items of a list.

Each item has a key and a rank.  `BestOf key rank l best` says that `best` has,
for each key which an item of `l` has, one item of `l` with this key, and of
the greatest rank there is for it.

A list of best copies is made item by item: `keepBest` puts a new item at the
end, in place of the one with its key, unless that one has the same rank or a
greater one (`BestOf.keepBest`); of the greatest items with a key it keeps the
first one (`FirstBest`, `BestOf.firstBest_keepBest`).
`BestUpTo n` is what is left of the best copies when there shall be no more
than `n` of them (`BestOf.upTo`).
-/
import Mathlib.Data.List.Dedup
import Mathlib.Data.List.Perm.Basic
import Mathlib.Order.Lattice

namespace Neoip

variable {α κ ρ : Type*} [DecidableEq κ] [LinearOrder ρ] {key : α → κ} {rank : α → ρ}

/-! ### The copies -/

/-- `best` has one item for each key of `l`, of the greatest rank. -/
structure BestOf (key : α → κ) (rank : α → ρ) (l best : List α) : Prop where
  nodup : (best.map key).Nodup
  mem : ∀ a ∈ best, a ∈ l
  greatest : ∀ a ∈ best, ∀ b ∈ l, key b = key a → rank b ≤ rank a
  all : ∀ b ∈ l, key b ∈ best.map key

/-- No more than `n` of the best copies, and all of them when there are no more; 0 is no limit. -/
structure BestUpTo (key : α → κ) (rank : α → ρ) (n : ℕ) (l best : List α) : Prop where
  nodup : (best.map key).Nodup
  mem : ∀ a ∈ best, a ∈ l
  greatest : ∀ a ∈ best, ∀ b ∈ l, key b = key a → rank b ≤ rank a
  length : best.length =
    if n = 0 then (l.map key).dedup.length else min n (l.map key).dedup.length

omit [DecidableEq κ] in
theorem BestOf.nil : BestOf key rank [] [] :=
  ⟨List.nodup_nil, nofun, nofun, nofun⟩

/-- There are as many best copies as keys. -/
theorem BestOf.length_eq {l best : List α} (h : BestOf key rank l best) :
    best.length = (l.map key).dedup.length := by
  have hperm : (best.map key).Perm (l.map key).dedup := by
    rw [List.perm_ext_iff_of_nodup h.nodup (List.nodup_dedup _)]
    intro k
    rw [List.mem_dedup]
    constructor
    · intro hk
      obtain ⟨a, ha, rfl⟩ := List.mem_map.1 hk
      exact List.mem_map_of_mem (h.mem a ha)
    · intro hk
      obtain ⟨b, hb, rfl⟩ := List.mem_map.1 hk
      exact h.all b hb
  rw [← hperm.length_eq, List.length_map]

theorem BestOf.upTo_of_length_le {l best : List α} {n : ℕ} (h : BestOf key rank l best)
    (hn : n = 0 ∨ best.length ≤ n) : BestUpTo key rank n l best where
  nodup := h.nodup
  mem := h.mem
  greatest := h.greatest
  length := by
    rw [← h.length_eq]
    split_ifs with h0
    · rfl
    · exact (Nat.min_eq_right (hn.resolve_left h0)).symm

theorem BestOf.upTo {l best : List α} {n : ℕ} (h : BestOf key rank l best) (hn : n ≠ 0) :
    BestUpTo key rank n l (best.take n) where
  nodup := h.nodup.sublist ((List.take_sublist _ _).map _)
  mem a ha := h.mem a (List.mem_of_mem_take ha)
  greatest a ha := h.greatest a (List.mem_of_mem_take ha)
  length := by rw [if_neg hn, List.length_take, h.length_eq]

/-! ### Making them -/

/-- The item with the key of `a` is taken out, and `a` is put at the end. -/
def replaceKey (key : α → κ) (a : α) (best : List α) : List α :=
  best.eraseP (fun b => key b = key a) ++ [a]

/-- `a` is put in, unless there is an item with its key whose rank is no less. -/
def keepBest (key : α → κ) (rank : α → ρ) (a : α) (best : List α) : List α :=
  match best.find? fun b => key b = key a with
  | some b => if rank b < rank a then replaceKey key a best else best
  | none => replaceKey key a best

omit [LinearOrder ρ] in
/-- With distinct keys, taking out the first item with a key takes out all of them. -/
theorem eraseP_eq_filter {best : List α} (h : (best.map key).Nodup) (k : κ) :
    best.eraseP (fun b => key b = k) = best.filter fun b => key b ≠ k := by
  induction best with
  | nil => rfl
  | cons b best ih =>
    rw [List.map_cons, List.nodup_cons] at h
    by_cases hb : key b = k
    · rw [List.eraseP_cons_of_pos (by simpa using hb),
        List.filter_cons_of_neg (by simpa using hb), List.filter_eq_self.2]
      intro other hother
      have hne : key other ≠ k := by
        rintro rfl
        exact h.1 (List.mem_map.2 ⟨other, hother, hb.symm⟩)
      simpa using hne
    · rw [List.eraseP_cons_of_neg (by simpa using hb),
        List.filter_cons_of_pos (by simpa using hb), ih h.2]

theorem mem_replaceKey {best : List α} (h : (best.map key).Nodup) {a b : α} :
    b ∈ replaceKey key a best ↔ (b ∈ best ∧ key b ≠ key a) ∨ b = a := by
  rw [replaceKey, eraseP_eq_filter h, List.mem_append, List.mem_filter, List.mem_singleton]
  simp

theorem nodup_replaceKey {best : List α} (h : (best.map key).Nodup) (a : α) :
    ((replaceKey key a best).map key).Nodup := by
  rw [replaceKey, eraseP_eq_filter h, List.map_append, List.nodup_append]
  refine ⟨h.sublist (List.filter_sublist.map _), List.nodup_singleton _, ?_⟩
  rintro k hmem _ hsing rfl
  obtain ⟨b, hb, rfl⟩ := List.mem_map.1 hmem
  exact of_decide_eq_true (List.mem_filter.1 hb).2 (List.mem_singleton.1 hsing)

/-- An item which is greater than those with its key takes their place. -/
theorem BestOf.replaceKey {l best : List α} {a : α} (h : BestOf key rank l best)
    (ha : ∀ b ∈ l, key b = key a → rank b ≤ rank a) :
    BestOf key rank (l ++ [a]) (replaceKey key a best) where
  nodup := nodup_replaceKey h.nodup a
  mem b hb := by
    rcases (mem_replaceKey h.nodup).1 hb with ⟨hb, -⟩ | rfl
    · exact List.mem_append_left _ (h.mem b hb)
    · exact List.mem_append_right _ List.mem_cons_self
  greatest b hb c hc hkey := by
    rw [List.mem_append, List.mem_singleton] at hc
    rcases (mem_replaceKey h.nodup).1 hb with ⟨hb, hne⟩ | rfl
    · rcases hc with hc | rfl
      · exact h.greatest b hb c hc hkey
      · exact absurd hkey.symm hne
    · rcases hc with hc | rfl
      · exact ha c hc hkey
      · exact le_refl _
  all b hb := by
    by_cases hkey : key b = key a
    · rw [hkey]
      exact List.mem_map_of_mem ((mem_replaceKey h.nodup).2 (.inr rfl))
    · have hb : b ∈ l := by
        rcases List.mem_append.1 hb with hb | hb
        · exact hb
        · exact absurd (congrArg key (List.mem_singleton.1 hb)) hkey
      obtain ⟨c, hc, hcb⟩ := List.mem_map.1 (h.all b hb)
      refine List.mem_map.2 ⟨c, (mem_replaceKey h.nodup).2 (.inl ⟨hc, ?_⟩), hcb⟩
      rwa [hcb]

/-- `keepBest` keeps the best copies. -/
theorem BestOf.keepBest {l best : List α} (h : BestOf key rank l best) (a : α) :
    BestOf key rank (l ++ [a]) (keepBest key rank a best) := by
  rw [Neoip.keepBest]
  cases hfind : best.find? fun b => key b = key a with
  | none =>
    apply h.replaceKey
    intro b hb hkey
    obtain ⟨c, hc, hcb⟩ := List.mem_map.1 (h.all b hb)
    exact absurd (hcb.trans hkey) (by simpa using List.find?_eq_none.1 hfind c hc)
  | some c =>
    have hc : c ∈ best := List.mem_of_find?_eq_some hfind
    have hca : key c = key a := by simpa using List.find?_some hfind
    show BestOf key rank _ (if rank c < rank a then _ else _)
    split_ifs with hlt
    · apply h.replaceKey
      intro b hb hkey
      exact (h.greatest c hc b hb (hkey.trans hca.symm)).trans hlt.le
    · -- the copy which is there has no lesser rank than the new one
      refine ⟨h.nodup, fun b hb => List.mem_append_left _ (h.mem b hb), ?_, ?_⟩
      · intro b hb d hd hkey
        rcases List.mem_append.1 hd with hd | hd
        · exact h.greatest b hb d hd hkey
        · rw [List.mem_singleton.1 hd] at hkey ⊢
          exact (not_lt.1 hlt).trans (h.greatest b hb c (h.mem c hc) (hca.trans hkey))
      · intro b hb
        rcases List.mem_append.1 hb with hb | hb
        · exact h.all b hb
        · rw [List.mem_singleton.1 hb, ← hca]
          exact List.mem_map_of_mem hc

/-! ### Which one of the greatest -/

/-- `a` is the first one of the items of `l` with its key which has the greatest rank. -/
def FirstBest (key : α → κ) (rank : α → ρ) (l : List α) (a : α) : Prop :=
  ∃ front back, l = front ++ a :: back ∧ (∀ b ∈ front, key b = key a → rank b < rank a)
    ∧ ∀ b ∈ back, key b = key a → rank b ≤ rank a

/-- `a` is the last one of them. -/
def LastBest (key : α → κ) (rank : α → ρ) (l : List α) (a : α) : Prop :=
  ∃ front back, l = front ++ a :: back ∧ (∀ b ∈ front, key b = key a → rank b ≤ rank a)
    ∧ ∀ b ∈ back, key b = key a → rank b < rank a

section

variable {l best : List α} {a b c : α}

omit [DecidableEq κ]

theorem firstBest_reverse : FirstBest key rank l.reverse a ↔ LastBest key rank l a := by
  constructor
  · rintro ⟨front, back, heq, hfront, hback⟩
    refine ⟨back.reverse, front.reverse, ?_, ?_, ?_⟩
    · rw [← List.reverse_reverse l, heq]
      simp
    · simpa using hback
    · simpa using hfront
  · rintro ⟨front, back, rfl, hfront, hback⟩
    refine ⟨back.reverse, front.reverse, ?_, ?_, ?_⟩
    · simp
    · simpa using hback
    · simpa using hfront

theorem firstBest_cons : FirstBest key rank (b :: l) a
    ↔ (b = a ∧ ∀ c ∈ l, key c = key a → rank c ≤ rank a)
      ∨ FirstBest key rank l a ∧ (key b = key a → rank b < rank a) := by
  constructor
  · rintro ⟨front, back, heq, hfront, hback⟩
    cases front with
    | nil =>
      obtain ⟨rfl, rfl⟩ := List.cons.inj heq
      exact .inl ⟨rfl, hback⟩
    | cons d front =>
      obtain ⟨rfl, rfl⟩ := List.cons.inj heq
      rw [List.forall_mem_cons] at hfront
      exact .inr ⟨⟨front, back, rfl, hfront.2, hback⟩, hfront.1⟩
  · rintro (⟨rfl, hback⟩ | ⟨⟨front, back, rfl, hfront, hback⟩, hb⟩)
    · exact ⟨[], l, rfl, nofun, hback⟩
    · exact ⟨b :: front, back, rfl, List.forall_mem_cons.2 ⟨hb, hfront⟩, hback⟩

theorem FirstBest.mem (h : FirstBest key rank l a) : a ∈ l := by
  obtain ⟨front, back, rfl, -, -⟩ := h
  exact List.mem_append_right _ List.mem_cons_self

theorem FirstBest.le (h : FirstBest key rank l a) (hb : b ∈ l) (hkey : key b = key a) :
    rank b ≤ rank a := by
  obtain ⟨front, back, rfl, hfront, hback⟩ := h
  rcases List.mem_append.1 hb with hb | hb
  · exact (hfront b hb hkey).le
  · rcases List.mem_cons.1 hb with rfl | hb
    · exact le_refl _
    · exact hback b hb hkey

/-- Each key has one first of its greatest items. -/
theorem FirstBest.eq (ha : FirstBest key rank l a) (hb : FirstBest key rank l b)
    (hkey : key a = key b) : a = b := by
  induction l with
  | nil => exact absurd ha.mem List.not_mem_nil
  | cons c l ih =>
    rcases firstBest_cons.1 ha with ⟨rfl, hca⟩ | ⟨ha, hca⟩
    · rcases firstBest_cons.1 hb with ⟨rfl, -⟩ | ⟨hb, hcb⟩
      · rfl
      · exact absurd (hca b hb.mem hkey.symm) (not_le.2 (hcb hkey))
    · rcases firstBest_cons.1 hb with ⟨rfl, hcb⟩ | ⟨hb, -⟩
      · exact absurd (hcb a ha.mem hkey) (not_le.2 (hca hkey.symm))
      · exact ih ha hb

theorem exists_firstBest (hb : b ∈ l) : ∃ a, FirstBest key rank l a ∧ key a = key b := by
  induction l generalizing b with
  | nil => exact absurd hb List.not_mem_nil
  | cons c l ih =>
    by_cases htail : ∃ d ∈ l, key d = key b
    · obtain ⟨d, hd, hkey⟩ := htail
      obtain ⟨a, ha, hka⟩ := ih hd
      by_cases hc : key c = key a → rank c < rank a
      · exact ⟨a, firstBest_cons.2 (.inr ⟨ha, hc⟩), hka.trans hkey⟩
      · -- the head has the key, and no lesser rank
        obtain ⟨hkc, hle⟩ := Classical.not_imp.1 hc
        refine ⟨c, firstBest_cons.2 (.inl ⟨rfl, ?_⟩), hkc.trans (hka.trans hkey)⟩
        intro e he hke
        exact (ha.le he (hke.trans hkc)).trans (not_lt.1 hle)
    · have hcb : b = c := by
        rcases List.mem_cons.1 hb with rfl | hb
        · rfl
        · exact absurd ⟨b, hb, rfl⟩ htail
      refine ⟨c, firstBest_cons.2 (.inl ⟨rfl, ?_⟩), congrArg key hcb.symm⟩
      intro e he hke
      exact absurd ⟨e, he, hke.trans (congrArg key hcb.symm)⟩ htail

theorem LastBest.eq (ha : LastBest key rank l a) (hb : LastBest key rank l b)
    (hkey : key a = key b) : a = b :=
  (firstBest_reverse.2 ha).eq (firstBest_reverse.2 hb) hkey

theorem exists_lastBest (hb : b ∈ l) : ∃ a, LastBest key rank l a ∧ key a = key b := by
  have hfirst : ∃ a, FirstBest key rank l.reverse a ∧ key a = key b :=
    exists_firstBest (List.mem_reverse.2 hb)
  obtain ⟨a, ha, hkey⟩ := hfirst
  exact ⟨a, firstBest_reverse.1 ha, hkey⟩

theorem FirstBest.append (h : FirstBest key rank l a) (hc : key c = key a → rank c ≤ rank a) :
    FirstBest key rank (l ++ [c]) a := by
  obtain ⟨front, back, rfl, hfront, hback⟩ := h
  refine ⟨front, back ++ [c], by simp, hfront, ?_⟩
  intro b hb
  rcases List.mem_append.1 hb with hb | hb
  · exact hback b hb
  · rw [List.mem_singleton.1 hb]
    exact hc

theorem firstBest_last (h : ∀ b ∈ l, key b = key a → rank b < rank a) :
    FirstBest key rank (l ++ [a]) a :=
  ⟨l, [], rfl, h, nofun⟩

end

/-- What `keepBest` keeps is the first one of the greatest. -/
theorem BestOf.firstBest_keepBest {l best : List α} (h : BestOf key rank l best)
    (hfirst : ∀ a ∈ best, FirstBest key rank l a) (c : α) :
    ∀ a ∈ Neoip.keepBest key rank c best, FirstBest key rank (l ++ [c]) a := by
  have hreplace (hc : ∀ b ∈ l, key b = key c → rank b < rank c) :
      ∀ a ∈ Neoip.replaceKey key c best, FirstBest key rank (l ++ [c]) a := by
    intro a ha
    rcases (mem_replaceKey h.nodup).1 ha with ⟨ha, hne⟩ | rfl
    · exact (hfirst a ha).append fun hkey => absurd hkey.symm hne
    · exact firstBest_last hc
  rw [Neoip.keepBest]
  cases hfind : best.find? fun b => key b = key c with
  | none =>
    apply hreplace
    intro b hb hkey
    obtain ⟨d, hd, hdb⟩ := List.mem_map.1 (h.all b hb)
    exact absurd (hdb.trans hkey) (by simpa using List.find?_eq_none.1 hfind d hd)
  | some b =>
    have hb : b ∈ best := List.mem_of_find?_eq_some hfind
    have hbc : key b = key c := by simpa using List.find?_some hfind
    show ∀ a ∈ (if rank b < rank c then _ else _), _
    split_ifs with hlt
    · apply hreplace
      intro d hd hkey
      exact (h.greatest b hb d hd (hkey.trans hbc.symm)).trans_lt hlt
    · intro a ha
      apply (hfirst a ha).append
      intro hkey
      have hab : b = a := List.inj_on_of_nodup_map h.nodup hb ha (hbc.trans hkey)
      exact hab ▸ not_lt.1 hlt

end Neoip
