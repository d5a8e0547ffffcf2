/-
Neoip/Pselect.lean

The piece selectors: what `bt_pselect_fixed_t` and `bt_pselect_slide_t` share.

Both keep four arrays with an entry for each piece: how often the peers have it,
how much they wish it, whether it is being downloaded and whether it is there.
An array of `n` entries is a function of the piece here.  A piece index which
is out of range, the `NULL` of the selectors, is `none`.

`Best` says what a selector should return when the pieces are ranked by their
precedence and then by the wish.
-/
import Mathlib.Data.Fintype.Basic
import Mathlib.Tactic.Common

namespace Neoip

/-- `bt_pieceprec_t`. -/
abbrev Pieceprec := UInt64

namespace Pieceprec

def notneeded : Pieceprec := 0

def highest : Pieceprec := 0xFFFFFFFFFFFFFFFF

def default : Pieceprec := highest / 2

end Pieceprec

/-- The state of the pieces. -/
structure PieceState (n : ℕ) where
  remote_pfreq : Fin n → UInt64
  remote_pwish : Fin n → UInt64
  local_pdling : Fin n → Bool
  local_pavail : Fin n → Bool

namespace PieceState

variable {n : ℕ}

def empty : PieceState n := ⟨fun _ => 0, fun _ => 0, fun _ => false, fun _ => false⟩

def cantSelect (s : PieceState n) (pieceidx : Fin n) : Bool :=
  s.local_pdling pieceidx || s.local_pavail pieceidx

def maySelect (s : PieceState n) (pieceidx : Fin n) : Bool := !s.cantSelect pieceidx

/-! ### Updates of one piece -/

def incPfreq (pieceidx : Fin n) (s : PieceState n) : PieceState n :=
  { s with
    remote_pfreq := Function.update s.remote_pfreq pieceidx (s.remote_pfreq pieceidx + 1) }

def decPfreq (pieceidx : Fin n) (s : PieceState n) : PieceState n :=
  { s with
    remote_pfreq := Function.update s.remote_pfreq pieceidx (s.remote_pfreq pieceidx - 1) }

def incPwish (pieceidx : Fin n) (s : PieceState n) : PieceState n :=
  { s with
    remote_pwish := Function.update s.remote_pwish pieceidx (s.remote_pwish pieceidx + 1) }

def decPwish (pieceidx : Fin n) (s : PieceState n) : PieceState n :=
  { s with
    remote_pwish := Function.update s.remote_pwish pieceidx (s.remote_pwish pieceidx - 1) }

def setPdling (value : Bool) (pieceidx : Fin n) (s : PieceState n) : PieceState n :=
  { s with local_pdling := Function.update s.local_pdling pieceidx value }

def setPavail (value : Bool) (pieceidx : Fin n) (s : PieceState n) : PieceState n :=
  { s with local_pavail := Function.update s.local_pavail pieceidx value }

/-- An update for each piece of a bitfield. -/
def updAll (upd : Fin n → PieceState n → PieceState n) (extfield : Fin n → Bool)
    (s : PieceState n) : PieceState n :=
  (List.finRange n).foldl (fun s pieceidx => if extfield pieceidx then upd pieceidx s else s) s

/-- Nothing which the selection looks at is changed elsewhere. -/
structure SameElsewhere (pieceidx : Fin n) (s s' : PieceState n) : Prop where
  remote_pwish : ∀ i, i ≠ pieceidx → s'.remote_pwish i = s.remote_pwish i
  local_pdling : ∀ i, i ≠ pieceidx → s'.local_pdling i = s.local_pdling i
  local_pavail : ∀ i, i ≠ pieceidx → s'.local_pavail i = s.local_pavail i

section

variable (s : PieceState n) (pieceidx : Fin n)

theorem sameElsewhere_incPwish : SameElsewhere pieceidx s (s.incPwish pieceidx) :=
  ⟨fun _ hi => Function.update_of_ne hi _ _, fun _ _ => rfl, fun _ _ => rfl⟩

theorem sameElsewhere_decPwish : SameElsewhere pieceidx s (s.decPwish pieceidx) :=
  ⟨fun _ hi => Function.update_of_ne hi _ _, fun _ _ => rfl, fun _ _ => rfl⟩

theorem sameElsewhere_setPdling (value : Bool) :
    SameElsewhere pieceidx s (s.setPdling value pieceidx) :=
  ⟨fun _ _ => rfl, fun _ hi => Function.update_of_ne hi _ _, fun _ _ => rfl⟩

theorem sameElsewhere_setPavail (value : Bool) :
    SameElsewhere pieceidx s (s.setPavail value pieceidx) :=
  ⟨fun _ _ => rfl, fun _ _ => rfl, fun _ hi => Function.update_of_ne hi _ _⟩

end

/-- A frequency is not looked at. -/
theorem updAll_pfreq (upd : Fin n → PieceState n → PieceState n) (extfield : Fin n → Bool)
    (hupd : ∀ i s, (upd i s).remote_pwish = s.remote_pwish ∧
      (upd i s).local_pdling = s.local_pdling ∧ (upd i s).local_pavail = s.local_pavail)
    (s : PieceState n) : (updAll upd extfield s).remote_pwish = s.remote_pwish ∧
      (updAll upd extfield s).local_pdling = s.local_pdling ∧
        (updAll upd extfield s).local_pavail = s.local_pavail := by
  unfold updAll
  induction List.finRange n generalizing s with
  | nil => exact ⟨rfl, rfl, rfl⟩
  | cons i l ih =>
    rw [List.foldl_cons]
    split_ifs
    · obtain ⟨hwish, hdling, havail⟩ := ih (upd i s)
      obtain ⟨hwish', hdling', havail'⟩ := hupd i s
      exact ⟨hwish.trans hwish', hdling.trans hdling', havail.trans havail'⟩
    · exact ih s

/-! ### The hint -/

/-- `next_piece_to_select` of both selectors: the hint instead of the piece which is selected
without it. -/
def followHint (s : PieceState n) (pieceprec : Fin n → Pieceprec)
    (remote_pieceavail : Fin n → Bool) (pieceidx_hint normal_pieceidx : Option (Fin n)) :
    Option (Fin n) :=
  match pieceidx_hint, normal_pieceidx with
  | none, normal => normal
  | some _, none => none
  | some hint, some normal =>
    if s.cantSelect hint then some normal
    else if !remote_pieceavail hint then some normal
    else if pieceprec hint < pieceprec normal then some normal
    else if s.remote_pwish hint < s.remote_pwish normal then some normal
    else some hint

/-- A hint which is followed is not below the other piece. -/
theorem followHint_cases (s : PieceState n) (pieceprec : Fin n → Pieceprec)
    (remote_pieceavail : Fin n → Bool) (pieceidx_hint normal_pieceidx : Option (Fin n)) :
    s.followHint pieceprec remote_pieceavail pieceidx_hint normal_pieceidx = normal_pieceidx ∨
      ∃ hint normal, normal_pieceidx = some normal ∧
        s.followHint pieceprec remote_pieceavail pieceidx_hint normal_pieceidx = some hint ∧
        s.maySelect hint = true ∧ remote_pieceavail hint = true ∧
        pieceprec normal ≤ pieceprec hint ∧ s.remote_pwish normal ≤ s.remote_pwish hint := by
  rcases pieceidx_hint with _ | hint <;> rcases normal_pieceidx with _ | normal
  · exact .inl rfl
  · exact .inl rfl
  · exact .inl rfl
  · dsimp only [followHint]
    split_ifs with hcant hremote hprec hwish
    · exact .inl rfl
    · exact .inl rfl
    · exact .inl rfl
    · exact .inl rfl
    · exact .inr ⟨hint, normal, rfl, rfl, by simpa [maySelect] using hcant,
        by simpa using hremote, UInt64.not_lt.1 hprec, UInt64.not_lt.1 hwish⟩

end PieceState

/-! ### What should be selected -/

/-- `r` is a best candidate: none when there is no candidate, otherwise one such that `less`
holds from it to none. -/
structure Best {α : Type} (candidate : α → Prop) (less : α → α → Prop) (r : Option α) : Prop where
  eq_none_iff : r = none ↔ ∀ i, ¬candidate i
  mem : ∀ i, r = some i → candidate i
  maximal : ∀ i, r = some i → ∀ j, candidate j → ¬less i j

/-- By precedence, then by wish. -/
def LessWished {n : ℕ} (prec : Fin n → Pieceprec) (wish : Fin n → UInt64) (i j : Fin n) : Prop :=
  prec i < prec j ∨ (prec i = prec j ∧ wish i < wish j)

end Neoip
