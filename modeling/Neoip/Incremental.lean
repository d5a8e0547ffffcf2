/-
Neoip/Incremental.lean

Decoders which are given their input piece by piece.

`next` looks at the symbols which have come and not been consumed: it finds an
item at their front and says how many symbols this takes, or waits for more of
them, or fails.  What it finds, or a failure, must not depend on the symbols
after it (`item_append`, `fault_append`); that it waits may.  `drain` takes
items until there is none.

Main results: how the input is cut does not matter (`Decoder.feed_eq_drain`),
and no beginning of an input fails if the input itself does not
(`Decoder.verdict_of_append`).
-/
import Mathlib.Data.List.Basic
import Mathlib.Tactic.Common

namespace Neoip

/-- What is at the front of the symbols: nothing yet, an error, or an item which takes `n`
symbols and leads to the state `s`. -/
inductive Verdict (σ φ : Type*)
  | wait
  | fault (f : φ)
  | item (s : σ) (n : ℕ)

/-- What reads one item at a time, of what has arrived. -/
structure Decoder (σ β φ : Type*) where
  next : σ → List β → Verdict σ φ
  item_pos : ∀ {s b s' n}, next s b = .item s' n → 0 < n
  item_le : ∀ {s b s' n}, next s b = .item s' n → n ≤ b.length
  item_append : ∀ {s b s' n} (c), next s b = .item s' n → next s (b ++ c) = .item s' n
  fault_append : ∀ {s b f} (c), next s b = .fault f → next s (b ++ c) = .fault f

namespace Decoder

variable {σ β φ : Type*} (D : Decoder σ β φ) {s s' s'' : σ} {b b' b'' c : List β} {n : ℕ} {f : φ}

/-! ### Draining -/

/-- Take up to `fuel` items. -/
def drainN : ℕ → σ → List β → σ × List β
  | 0, s, b => (s, b)
  | fuel + 1, s, b =>
    match D.next s b with
    | .item s' n => drainN fuel s' (b.drop n)
    | _ => (s, b)

/-- Take items until there is none; each of them takes at least one symbol. -/
def drain (s : σ) (b : List β) : σ × List β := D.drainN b.length s b

/-- What `next` says where no item is left. -/
def verdict (s : σ) (b : List β) : Verdict σ φ := D.next (D.drain s b).1 (D.drain s b).2

variable {D}

theorem length_drop_of_item (h : D.next s b = .item s' n) : (b.drop n).length < b.length := by
  have hpos := D.item_pos h
  have hle := D.item_le h
  rw [List.length_drop]
  omega

theorem drainN_of_le {fuel : ℕ} (h : b.length ≤ fuel) : D.drainN fuel s b = D.drain s b := by
  suffices ∀ m k, b.length ≤ m → b.length ≤ k → D.drainN m s b = D.drainN k s b from
    this fuel b.length h (Nat.le_refl _)
  intro m
  induction m generalizing s b with
  | zero =>
    intro k hm _
    obtain rfl : b = [] := List.eq_nil_of_length_eq_zero (Nat.le_zero.mp hm)
    cases k with
    | zero => rfl
    | succ k =>
      rw [drainN, drainN]
      cases hnext : D.next s [] with
      | item s' n => exact absurd (length_drop_of_item hnext) (by simp)
      | wait => rfl
      | fault f => rfl
  | succ m ih =>
    intro k hm hk
    cases hnext : D.next s b with
    | item s' n =>
      have hlt := length_drop_of_item hnext
      cases k with
      | zero => omega
      | succ k =>
        rw [drainN, drainN, hnext]
        exact ih (by omega) k (by omega) (by omega)
    | wait => cases k <;> simp [drainN, hnext]
    | fault f => cases k <;> simp [drainN, hnext]

theorem drain_item (h : D.next s b = .item s' n) : D.drain s b = D.drain s' (b.drop n) := by
  have hlt := length_drop_of_item h
  rw [drain, show b.length = b.length - 1 + 1 by omega, drainN, h]
  exact drainN_of_le (by omega)

theorem drain_stop (h : ∀ s' n, D.next s b ≠ .item s' n) : D.drain s b = (s, b) := by
  rw [drain]
  cases hlen : b.length with
  | zero => rfl
  | succ m =>
    rw [drainN]
    cases hnext : D.next s b with
    | item s' n => exact absurd hnext (h s' n)
    | wait => rfl
    | fault f => rfl

theorem drain_wait (h : D.next s b = .wait) : D.drain s b = (s, b) :=
  drain_stop fun s' n => by simp [h]

theorem drain_fault (h : D.next s b = .fault f) : D.drain s b = (s, b) :=
  drain_stop fun s' n => by simp [h]

/-- Induction on the items at the front. -/
theorem drain_induct {motive : σ → List β → Prop}
    (hitem : ∀ s b s' n, D.next s b = .item s' n → motive s' (b.drop n) → motive s b)
    (hstop : ∀ s b, (∀ s' n, D.next s b ≠ .item s' n) → motive s b) (s : σ) (b : List β) :
    motive s b := by
  induction hlen : b.length using Nat.strongRecOn generalizing s b with
  | ind m ih =>
    subst hlen
    cases hnext : D.next s b with
    | item s' n =>
      exact hitem s b s' n hnext (ih _ (length_drop_of_item hnext) s' _ rfl)
    | wait => exact hstop s b fun s' n => by simp [hnext]
    | fault f => exact hstop s b fun s' n => by simp [hnext]

theorem verdict_item (h : D.next s b = .item s' n) : D.verdict s b = D.verdict s' (b.drop n) := by
  rw [verdict, verdict, drain_item h]

theorem verdict_ne_item (s : σ) (b : List β) : ∀ s' n, D.verdict s b ≠ .item s' n := by
  apply drain_induct (motive := fun s b => ∀ s' n, D.verdict s b ≠ .item s' n)
  · intro s b s' n h ih
    rw [verdict_item h]
    exact ih
  · intro s b h
    rw [verdict, drain_stop h]
    exact h

/-- **More symbols**: the items before them are the same. -/
theorem drain_append (s : σ) (b c : List β) :
    D.drain s (b ++ c) = D.drain (D.drain s b).1 ((D.drain s b).2 ++ c) := by
  apply drain_induct (D := D)
    (motive := fun s b => D.drain s (b ++ c) = D.drain (D.drain s b).1 ((D.drain s b).2 ++ c))
  · intro s b s' n h ih
    rw [drain_item h, drain_item (D.item_append c h), List.drop_append_of_le_length (D.item_le h)]
    exact ih
  · intro s b h
    rw [drain_stop h]

/-- A failure is not undone by more symbols. -/
theorem verdict_append (h : D.verdict s b = .fault f) : D.verdict s (b ++ c) = .fault f := by
  have hnext : D.next (D.drain s b).1 ((D.drain s b).2 ++ c) = .fault f := D.fault_append c h
  rw [verdict, drain_append, drain_fault hnext]
  exact hnext

/-- A beginning of what does not fail does not fail. -/
theorem verdict_of_append (h : D.verdict s (b ++ c) = .wait) : D.verdict s b = .wait := by
  cases hv : D.verdict s b with
  | wait => rfl
  | item s' n => exact absurd hv (verdict_ne_item s b s' n)
  | fault f =>
    rw [verdict_append hv] at h
    exact absurd h (by simp)

/-! ### Input in pieces -/

/-- Give the pieces one after the other, and take the items there are after each. -/
def feed (D : Decoder σ β φ) (s : σ) (b : List β) (pieces : List (List β)) : σ × List β :=
  pieces.foldl (fun st piece => D.drain st.1 (st.2 ++ piece)) (s, b)

/-- **How the input is cut does not matter.** -/
theorem feed_eq_drain (h : D.drain s b = (s, b)) (pieces : List (List β)) :
    D.feed s b pieces = D.drain s (b ++ pieces.flatten) := by
  induction pieces generalizing s b with
  | nil =>
    rw [List.flatten_nil, List.append_nil, h]
    rfl
  | cons piece pieces ih =>
    have hidem : D.drain (D.drain s (b ++ piece)).1 (D.drain s (b ++ piece)).2
        = D.drain s (b ++ piece) := drain_stop (verdict_ne_item s (b ++ piece))
    calc D.feed s b (piece :: pieces)
        = D.feed (D.drain s (b ++ piece)).1 (D.drain s (b ++ piece)).2 pieces := rfl
      _ = D.drain (D.drain s (b ++ piece)).1
            ((D.drain s (b ++ piece)).2 ++ pieces.flatten) := ih hidem
      _ = D.drain s (b ++ (piece :: pieces).flatten) := by
            rw [← drain_append, List.flatten_cons, List.append_assoc]

end Decoder

end Neoip
