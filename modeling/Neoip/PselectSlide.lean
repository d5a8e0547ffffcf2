/-
Neoip/PselectSlide.lean

The selector for sliding cursors: `bt_pselect_slide_t`, `bt_pselect_slide_curs_t`.

A cursor lays an array of precedences over the pieces from its offset on, around
the end when its indexes are circular.  `prec_db` has the entries of all the
cursors under their precedence; an item is a cursor and an index in its array.
The items of one precedence are shuffled, then sorted by the wish of their
pieces.  The comparator `cmpPieceDb` converts both indexes with the cursor of
the first item.

The cursors have distinct positions, so that a cursor stands for its pointer.

Main result: the comparator is a strict weak order on each precedence, and a
best piece is selected, exactly when the indexes of a precedence are read alike
by its cursors (`PselectSlide.correct_iff`).
-/
import Mathlib.Data.List.GetD
import Mathlib.Data.Nat.ModEq
import Mathlib.Order.Defs.Unbundled
import Neoip.Buckets
import Neoip.Pselect

namespace Neoip

open Std

/-! ### Cursors -/

/-- `bt_pselect_slide_curs_t`, attached to a selector of `n` pieces. -/
structure SlideCurs (n : ℕ) where
  pieceprec_arr : List Pieceprec
  offset : ℕ
  has_circularidx : Bool
  size_le : pieceprec_arr.length ≤ n
  offset_lt : offset < n
deriving DecidableEq

namespace SlideCurs

variable {n : ℕ}

/-- `cursidx_to_pieceidx`; none is out of range. -/
def cursidxToPieceidx (c : SlideCurs n) (curs_idx : ℕ) : Option (Fin n) :=
  if c.has_circularidx then
    some ⟨(curs_idx + c.offset) % n, Nat.mod_lt _ (Nat.zero_lt_of_lt c.offset_lt)⟩
  else if h : curs_idx + c.offset < n then some ⟨curs_idx + c.offset, h⟩
  else none

def pieceprec (c : SlideCurs n) (piece_idx : Fin n) : Pieceprec :=
  let piece_idx := if c.has_circularidx ∧ piece_idx < c.offset then piece_idx + n else piece_idx
  if piece_idx < c.offset then Pieceprec.notneeded
  else c.pieceprec_arr.getD (piece_idx - c.offset) Pieceprec.notneeded

variable {c c' : SlideCurs n} {i j : ℕ} {p : Fin n} {prec : Pieceprec}

theorem val_of_cursidxToPieceidx (h : c.cursidxToPieceidx i = some p) :
    p.val = (i + c.offset) % n := by
  unfold cursidxToPieceidx at h
  split_ifs at h with hcirc hlt
  · rw [← Option.some.inj h]
  · rw [← Option.some.inj h, Nat.mod_eq_of_lt hlt]

/-- A cursor has a piece at one index only. -/
theorem cursidx_inj (hi : i < n) (hj : j < n) (h : c.cursidxToPieceidx i = some p)
    (h' : c.cursidxToPieceidx j = some p) : i = j := by
  have heq := (val_of_cursidxToPieceidx h).symm.trans (val_of_cursidxToPieceidx h')
  exact Nat.ModEq.eq_of_lt_of_lt (Nat.ModEq.add_right_cancel' _ heq) hi hj

/-- Cursors at distinct positions have distinct pieces at an index. -/
theorem offset_inj (h : c.cursidxToPieceidx i = some p) (h' : c'.cursidxToPieceidx i = some p) :
    c.offset = c'.offset := by
  have heq := (val_of_cursidxToPieceidx h).symm.trans (val_of_cursidxToPieceidx h')
  exact Nat.ModEq.eq_of_lt_of_lt (Nat.ModEq.add_left_cancel' _ heq) c.offset_lt c'.offset_lt

/-- The precedence of a piece is its entry in the array. -/
theorem pieceprec_eq (h : c.cursidxToPieceidx i = some p)
    (hget : c.pieceprec_arr[i]? = some prec) : c.pieceprec p = prec := by
  have hi : i < c.pieceprec_arr.length := (List.getElem?_eq_some_iff.1 hget).1
  have hn := c.size_le
  have ho := c.offset_lt
  have hval := val_of_cursidxToPieceidx h
  have hpos : (if c.has_circularidx ∧ p < c.offset then p.val + n else p) = i + c.offset := by
    by_cases hlt : i + c.offset < n
    · rw [Nat.mod_eq_of_lt hlt] at hval
      rw [if_neg (by omega), hval]
    · have hcirc : c.has_circularidx = true := by
        unfold cursidxToPieceidx at h
        split_ifs at h with hcirc
        exact hcirc
      rw [Nat.mod_eq_sub_mod (Nat.le_of_not_lt hlt), Nat.mod_eq_of_lt (by omega)] at hval
      rw [if_pos ⟨hcirc, by omega⟩]
      omega
  rw [pieceprec, hpos]
  show (if i + c.offset < c.offset then _ else _) = prec
  rw [if_neg (by omega), Nat.add_sub_cancel, List.getD_eq_getElem?_getD, hget]
  rfl

/-- A piece with a precedence is in the array. -/
theorem exists_of_pieceprec (h : c.pieceprec p ≠ Pieceprec.notneeded) :
    ∃ i, c.cursidxToPieceidx i = some p ∧ c.pieceprec_arr[i]? = some (c.pieceprec p) := by
  unfold pieceprec at h ⊢
  set piece_idx := if c.has_circularidx ∧ p < c.offset then p.val + n else p with hidx
  have hn := c.size_le
  have ho := c.offset_lt
  have hp := p.isLt
  by_cases hlt : piece_idx < c.offset
  · exact absurd (if_pos hlt) h
  · rw [if_neg hlt] at h ⊢
    have hget : piece_idx - c.offset < c.pieceprec_arr.length := by
      by_contra hge
      exact h (List.getD_eq_default _ _ (Nat.le_of_not_lt hge))
    refine ⟨piece_idx - c.offset, ?_, ?_⟩
    · have hsum : piece_idx - c.offset + c.offset = piece_idx :=
        Nat.sub_add_cancel (Nat.le_of_not_lt hlt)
      simp only [cursidxToPieceidx, hsum]
      by_cases hcirc : c.has_circularidx = true
      · rw [if_pos hcirc, Option.some.injEq, Fin.ext_iff]
        show piece_idx % n = p.val
        rw [hidx]
        split_ifs
        · rw [Nat.add_mod_right, Nat.mod_eq_of_lt hp]
        · exact Nat.mod_eq_of_lt hp
      · have hidx' : piece_idx = p.val := by
          rw [hidx, if_neg fun hc => hcirc hc.1]
        rw [if_neg hcirc, dif_pos (hidx' ▸ hp), Option.some.injEq, Fin.ext_iff]
        exact hidx'
    · rw [List.getD_eq_getElem?_getD, List.getElem?_eq_getElem hget]
      rfl

end SlideCurs

/-- `piece_curs_t`: a cursor and an index in its array. -/
abbrev PieceCurs (n : ℕ) := SlideCurs n × ℕ

/-! ### The selector -/

/-- `bt_pselect_slide_t`. -/
structure PselectSlide (n : ℕ) extends PieceState n where
  curs_db : List (SlideCurs n)

namespace PselectSlide

variable {n : ℕ}

/-- The entries of the cursors, each with its precedence. -/
def entries (curs_db : List (SlideCurs n)) : List (PieceCurs n × Pieceprec) :=
  curs_db.flatMap fun slide_curs =>
    slide_curs.pieceprec_arr.zipIdx.map fun x => ((slide_curs, x.2), x.1)

/-- One turn of the inner loop of `generate_prec_db`. -/
def putEntry (prec_db : TreeMap UInt64 (List (PieceCurs n))) (x : PieceCurs n × Pieceprec) :
    TreeMap UInt64 (List (PieceCurs n)) :=
  if x.2 = Pieceprec.notneeded then prec_db
  else prec_db.alter x.2 fun piece_db => some (piece_db.getD [] ++ [x.1])

/-- `generate_prec_db`. -/
def generatePrecDb (curs_db : List (SlideCurs n)) : TreeMap UInt64 (List (PieceCurs n)) :=
  (entries curs_db).foldl putEntry ∅

/-- The wish of a piece which may be out of range. -/
def wishAt (s : PieceState n) (pieceidx : Option (Fin n)) : UInt64 :=
  match pieceidx with
  | none => 0
  | some pieceidx => s.remote_pwish pieceidx

/-- `cmp_piece_db_t`: both indexes are converted with the cursor of the first item. -/
def cmpPieceDb (s : PieceState n) (item1 item2 : PieceCurs n) : Bool :=
  let pieceidx1 := item1.1.cursidxToPieceidx item1.2
  let pieceidx2 := item1.1.cursidxToPieceidx item2.2
  wishAt s pieceidx1 > wishAt s pieceidx2

/-- `std::sort` after `std::random_shuffle`, which is any permutation. -/
def sortPieceDb (s : PieceState n) (shuffle : List (PieceCurs n) → List (PieceCurs n))
    (piece_db : List (PieceCurs n)) : List (PieceCurs n) :=
  (shuffle piece_db).mergeSort fun item1 item2 => !cmpPieceDb s item2 item1

/-- One turn of the loop over a `piece_db`. -/
def selectItem (s : PieceState n) (remote_pieceavail : Fin n → Bool) (item : PieceCurs n) :
    Option (Fin n) :=
  match item.1.cursidxToPieceidx item.2 with
  | none => none
  | some piece_idx =>
    if s.cantSelect piece_idx then none
    else if !remote_pieceavail piece_idx then none
    else some piece_idx

/-- `next_piece_to_select_nohint`. -/
def nextPieceToSelectNohint (s : PselectSlide n) (remote_pieceavail : Fin n → Bool)
    (shuffle : List (PieceCurs n) → List (PieceCurs n)) : Option (Fin n) :=
  (generatePrecDb s.curs_db).toList.reverse.findSome? fun x =>
    (sortPieceDb s.toPieceState shuffle x.2).findSome? (selectItem s.toPieceState remote_pieceavail)

/-- `pieceprec`: the highest precedence of the cursors. -/
def pieceprec (curs_db : List (SlideCurs n)) (piece_idx : Fin n) : Pieceprec :=
  curs_db.foldl (fun max_pieceprec slide_curs => max max_pieceprec (slide_curs.pieceprec piece_idx))
    Pieceprec.notneeded

def nextPieceToSelect (s : PselectSlide n) (remote_pieceavail : Fin n → Bool)
    (pieceidx_hint : Option (Fin n)) (shuffle : List (PieceCurs n) → List (PieceCurs n)) :
    Option (Fin n) :=
  s.followHint (pieceprec s.curs_db) remote_pieceavail pieceidx_hint
    (s.nextPieceToSelectNohint remote_pieceavail shuffle)

/-! ### What should be selected -/

/-- The item is an entry with this precedence. -/
def InLevel (curs_db : List (SlideCurs n)) (prec : Pieceprec) (item : PieceCurs n) : Prop :=
  item.1 ∈ curs_db ∧ item.1.pieceprec_arr[item.2]? = some prec

/-- The item stands for the piece. -/
def At (item : PieceCurs n) (pieceidx : Fin n) : Prop :=
  item.1.cursidxToPieceidx item.2 = some pieceidx

def Candidate (s : PselectSlide n) (remote_pieceavail : Fin n → Bool) (pieceidx : Fin n) : Prop :=
  pieceprec s.curs_db pieceidx ≠ Pieceprec.notneeded ∧ s.maySelect pieceidx = true ∧
    remote_pieceavail pieceidx = true

/-- By precedence, then by the comparator: an item of the second piece is before one of the
first. -/
def Less (s : PselectSlide n) (i j : Fin n) : Prop :=
  pieceprec s.curs_db i < pieceprec s.curs_db j ∨
    (pieceprec s.curs_db i = pieceprec s.curs_db j ∧
      ∃ x y, InLevel s.curs_db (pieceprec s.curs_db i) x ∧ At x i ∧
        InLevel s.curs_db (pieceprec s.curs_db i) y ∧ At y j ∧ cmpPieceDb s.toPieceState y x = true)

/-- What is expected of a set of cursors, whatever the state of the pieces. -/
structure Correct (curs_db : List (SlideCurs n)) : Prop where
  strictWeak : ∀ (s : PieceState n) (prec : Pieceprec), prec ≠ Pieceprec.notneeded →
    IsStrictWeakOrder {item // InLevel curs_db prec item}
      fun item1 item2 => cmpPieceDb s item1.1 item2.1 = true
  pieceprec_max : ∀ pieceidx item prec, InLevel curs_db prec item → At item pieceidx →
    prec ≤ pieceprec curs_db pieceidx
  pieceprec_mem : ∀ pieceidx, pieceprec curs_db pieceidx ≠ Pieceprec.notneeded →
    ∃ item, InLevel curs_db (pieceprec curs_db pieceidx) item ∧ At item pieceidx
  best : ∀ (s : PieceState n) (remote_pieceavail : Fin n → Bool) (pieceidx_hint : Option (Fin n))
    (shuffle : List (PieceCurs n) → List (PieceCurs n)), (∀ l, (shuffle l).Perm l) →
      Best (Candidate ⟨s, curs_db⟩ remote_pieceavail) (Less ⟨s, curs_db⟩)
        (nextPieceToSelect ⟨s, curs_db⟩ remote_pieceavail pieceidx_hint shuffle)

/-- The items of a precedence which do not suffer from the comparator: all have one index, or an
item in range meets other cursors only in items which are out of range, and which it reads out of
range too unless they are all the others. -/
def ReadAlike (level : PieceCurs n → Prop) : Prop :=
  (∀ x y, level x → level y → x.2 = y.2) ∨
    ∀ x y, level x → level y → x.1.cursidxToPieceidx x.2 ≠ none → y.1 ≠ x.1 →
      y.1.cursidxToPieceidx y.2 = none ∧
        (x.1.cursidxToPieceidx y.2 = none ∨ ∀ z, level z → z ≠ x → z.2 = y.2)

variable {curs_db : List (SlideCurs n)} {prec : Pieceprec} {item x y z : PieceCurs n}

/-! ### Levels -/

theorem InLevel.lt (h : InLevel curs_db prec item) : item.2 < n :=
  Nat.lt_of_lt_of_le (List.getElem?_eq_some_iff.1 h.2).1 item.1.size_le

theorem mem_entries : (item, prec) ∈ entries curs_db ↔ InLevel curs_db prec item := by
  obtain ⟨c, i⟩ := item
  simp only [entries, List.mem_flatMap, List.mem_map, Prod.mk.injEq, InLevel]
  constructor
  · rintro ⟨c', hc', ⟨prec', i'⟩, hmem, ⟨rfl, rfl⟩, rfl⟩
    exact ⟨hc', List.mem_zipIdx_iff_getElem?.1 hmem⟩
  · rintro ⟨hc, hget⟩
    exact ⟨c, hc, (prec, i), List.mem_zipIdx_iff_getElem?.2 hget, ⟨rfl, rfl⟩, rfl⟩

theorem getElem?_putEntry (prec_db : TreeMap UInt64 (List (PieceCurs n)))
    (x : PieceCurs n × Pieceprec) (prec : Pieceprec) : (putEntry prec_db x)[prec]? =
      if x.2 = prec ∧ prec ≠ Pieceprec.notneeded then some ((prec_db[prec]?).getD [] ++ [x.1])
      else prec_db[prec]? := by
  unfold putEntry
  by_cases hneeded : x.2 = Pieceprec.notneeded
  · rw [if_pos hneeded, if_neg]
    rintro ⟨rfl, hne⟩
    exact hne hneeded
  · rw [if_neg hneeded, TreeMap.getElem?_alter]
    by_cases hx : x.2 = prec
    · subst hx
      rw [if_pos ReflCmp.compare_self, if_pos ⟨rfl, hneeded⟩]
    · rw [if_neg (mt LawfulEqCmp.compare_eq_iff_eq.1 hx), if_neg fun h => hx h.1]

/-- A loop over the entries puts those with a precedence under it. -/
theorem mem_foldl_putEntry (l : List (PieceCurs n × Pieceprec))
    (prec_db : TreeMap UInt64 (List (PieceCurs n))) :
    item ∈ ((l.foldl putEntry prec_db)[prec]?).getD [] ↔
      item ∈ (prec_db[prec]?).getD [] ∨ ((item, prec) ∈ l ∧ prec ≠ Pieceprec.notneeded) := by
  induction l generalizing prec_db with
  | nil => simp
  | cons x l ih =>
    rw [List.foldl_cons, ih, getElem?_putEntry, List.mem_cons]
    obtain ⟨x, xprec⟩ := x
    by_cases hx : xprec = prec ∧ prec ≠ Pieceprec.notneeded
    · obtain ⟨rfl, hne⟩ := hx
      rw [if_pos ⟨rfl, hne⟩, Option.getD_some, List.mem_append, List.mem_singleton,
        Prod.ext_iff (x := (item, xprec))]
      tauto
    · rw [if_neg hx, Prod.mk.injEq]
      tauto

theorem getElem?_foldl_putEntry (l : List (PieceCurs n × Pieceprec))
    (prec_db : TreeMap UInt64 (List (PieceCurs n))) :
    (l.foldl putEntry prec_db)[Pieceprec.notneeded]? = prec_db[Pieceprec.notneeded]? := by
  induction l generalizing prec_db with
  | nil => rfl
  | cons x l ih => rw [List.foldl_cons, ih, getElem?_putEntry, if_neg fun h => h.2 rfl]

/-- The list under a precedence has its level. -/
theorem generatePrecDb_spec {piece_db : List (PieceCurs n)}
    (h : (generatePrecDb curs_db)[prec]? = some piece_db) :
    prec ≠ Pieceprec.notneeded ∧ ∀ item, item ∈ piece_db ↔ InLevel curs_db prec item := by
  have hne : prec ≠ Pieceprec.notneeded := by
    rintro rfl
    rw [generatePrecDb, getElem?_foldl_putEntry] at h
    simp at h
  refine ⟨hne, fun item => ?_⟩
  have hmem := @mem_foldl_putEntry _ prec item (entries curs_db) ∅
  rw [← generatePrecDb, h, Option.getD_some, mem_entries] at hmem
  rw [hmem]
  simp [hne]

theorem exists_of_inLevel (hne : prec ≠ Pieceprec.notneeded) (h : InLevel curs_db prec item) :
    ∃ piece_db, (generatePrecDb curs_db)[prec]? = some piece_db := by
  have hmem := (mem_foldl_putEntry (entries curs_db) ∅).2 (.inr ⟨mem_entries.2 h, hne⟩)
  rw [← generatePrecDb] at hmem
  rcases hget : (generatePrecDb curs_db)[prec]? with _ | piece_db
  · rw [hget] at hmem
    exact absurd hmem List.not_mem_nil
  · exact ⟨piece_db, rfl⟩

/-! ### The precedence of a piece -/

/-- The maximum of a list from `m` on: it bounds them all and is one of them. -/
theorem le_foldl_max (l : List Pieceprec) (m : Pieceprec) :
    m ≤ l.foldl max m ∧ (∀ prec ∈ l, prec ≤ l.foldl max m) ∧
      (l.foldl max m = m ∨ l.foldl max m ∈ l) := by
  induction l generalizing m with
  | nil => exact ⟨UInt64.le_refl m, nofun, .inl rfl⟩
  | cons prec l ih =>
    obtain ⟨hm, hl, hmem⟩ := ih (max m prec)
    have hmax : m ≤ max m prec ∧ prec ≤ max m prec ∧ (max m prec = m ∨ max m prec = prec) := by
      show m ≤ (if m ≤ prec then prec else m) ∧ prec ≤ (if m ≤ prec then prec else m) ∧
        ((if m ≤ prec then prec else m) = m ∨ (if m ≤ prec then prec else m) = prec)
      split_ifs with hle
      · exact ⟨hle, UInt64.le_refl _, .inr rfl⟩
      · exact ⟨UInt64.le_refl _, UInt64.le_of_lt (UInt64.not_le.1 hle), .inl rfl⟩
    rw [List.foldl_cons]
    refine ⟨UInt64.le_trans hmax.1 hm, ?_, ?_⟩
    · intro prec' hprec'
      rcases List.mem_cons.1 hprec' with rfl | hprec'
      · exact UInt64.le_trans hmax.2.1 hm
      · exact hl prec' hprec'
    · rcases hmem with heq | hmem
      · rcases hmax.2.2 with hm' | hprec
        · exact .inl (heq.trans hm')
        · exact .inr (List.mem_cons.2 (.inl (heq.trans hprec)))
      · exact .inr (List.mem_cons_of_mem _ hmem)

theorem pieceprec_eq_foldl (pieceidx : Fin n) : pieceprec curs_db pieceidx =
    (curs_db.map fun c => c.pieceprec pieceidx).foldl max Pieceprec.notneeded := by
  rw [pieceprec, List.foldl_map]

theorem pieceprec_max {pieceidx : Fin n} (h : InLevel curs_db prec item) (hat : At item pieceidx) :
    prec ≤ pieceprec curs_db pieceidx := by
  rw [pieceprec_eq_foldl, ← SlideCurs.pieceprec_eq hat h.2]
  exact (le_foldl_max _ _).2.1 _ (List.mem_map_of_mem h.1)

theorem pieceprec_mem {pieceidx : Fin n}
    (h : pieceprec curs_db pieceidx ≠ Pieceprec.notneeded) :
    ∃ item, InLevel curs_db (pieceprec curs_db pieceidx) item ∧ At item pieceidx := by
  rw [pieceprec_eq_foldl] at h ⊢
  rcases (le_foldl_max (curs_db.map fun c => c.pieceprec pieceidx) Pieceprec.notneeded).2.2 with
    heq | hmem
  · exact absurd heq h
  · obtain ⟨c, hc, heq⟩ := List.mem_map.1 hmem
    rw [← heq] at h ⊢
    obtain ⟨i, hat, hget⟩ := SlideCurs.exists_of_pieceprec h
    exact ⟨(c, i), ⟨hc, hget⟩, hat⟩

/-! ### The comparator -/

/-- The piece of the index of `y` for the cursor of `x`. -/
def readBy (x y : PieceCurs n) : Option (Fin n) := x.1.cursidxToPieceidx y.2

variable {s : PieceState n} {level : PieceCurs n → Prop}

theorem cmp_iff : cmpPieceDb s x y = true ↔ wishAt s (readBy x y) < wishAt s (readBy x x) :=
  decide_eq_true_iff

theorem cmp_false_of_none (h : readBy x x = none) : cmpPieceDb s x y = false := by
  rw [Bool.eq_false_iff, Ne, cmp_iff, h]
  exact UInt64.not_lt_zero

theorem cmp_false_of_idx (h : x.2 = y.2) : cmpPieceDb s x y = false := by
  rw [Bool.eq_false_iff, Ne, cmp_iff, readBy, readBy, h]
  exact UInt64.lt_irrefl _

/-- What the comparator is on a level which is read alike: it never holds, or it ranks by the
wish, or it puts the one item in range before all the others or before none. -/
inductive CmpCases (s : PieceState n) (level : PieceCurs n → Prop) : Prop
  | never (h : ∀ x y, level x → level y → cmpPieceDb s x y = false)
  | byWish (h : ∀ x y, level x → level y →
      (cmpPieceDb s x y = true ↔ wishAt s (readBy y y) < wishAt s (readBy x x)))
  | one (x₀ : PieceCurs n) (before : Bool)
      (hrange : ∀ x, level x → readBy x x ≠ none → x = x₀)
      (h : ∀ x y, level x → level y →
        (cmpPieceDb s x y = true ↔ x = x₀ ∧ y ≠ x₀ ∧ before = true))

theorem ReadAlike.cmpCases (h : ReadAlike level) (s : PieceState n) : CmpCases s level := by
  rcases h with hidx | h
  · exact .never fun x y hx hy => cmp_false_of_idx (hidx x y hx hy)
  by_cases hmeet : ∃ x y, level x ∧ level y ∧ readBy x x ≠ none ∧ y.1 ≠ x.1 ∧ readBy x y ≠ none
  · obtain ⟨x₀, y, hx₀, hy, hrange, hcurs, hread⟩ := hmeet
    -- all the others have the index of `y`, and none of them is in range
    have hothers := (h x₀ y hx₀ hy hrange hcurs).2.resolve_left hread
    have hone : ∀ x, level x → readBy x x ≠ none → x = x₀ := by
      intro x hx hxrange
      by_contra hne
      have hcurs' : x.1 = x₀.1 := by
        by_contra hc
        exact hxrange (h x₀ x hx₀ hx hrange hc).1
      have hidx : x.2 = y.2 := hothers x hx hne
      rcases (h x y hx hy hxrange (hcurs' ▸ hcurs)).2 with hnone | hall
      · rw [← hidx] at hnone
        exact hxrange hnone
      · have hidx₀ : x₀.2 = y.2 := hall x₀ hx₀ (Ne.symm hne)
        exact hne (Prod.ext hcurs' (hidx.trans hidx₀.symm))
    refine .one x₀ (wishAt s (readBy x₀ y) < wishAt s (readBy x₀ x₀)) hone fun x z hx hz => ?_
    rw [decide_eq_true_iff]
    by_cases hxx : x = x₀
    · subst hxx
      by_cases hzx : z = x
      · subst hzx
        rw [cmp_iff]
        simp [UInt64.lt_irrefl]
      · have hread' : readBy x z = readBy x y := by
          rw [readBy, hothers z hz hzx]
          rfl
        rw [cmp_iff, hread']
        simp [hzx]
    · have hnone : readBy x x = none := by
        by_contra hxrange
        exact hxx (hone x hx hxrange)
      rw [cmp_false_of_none hnone]
      simp [hxx]
  · push Not at hmeet
    refine .byWish fun x y hx hy => ?_
    by_cases hxrange : readBy x x = none
    · rw [cmp_false_of_none hxrange, hxrange]
      simp [wishAt]
    · rw [cmp_iff]
      by_cases hcurs : y.1 = x.1
      · rw [readBy, ← hcurs]
        rfl
      · have hy' : readBy y y = none := (h x y hx hy hxrange hcurs).1
        rw [hmeet x y hx hy hxrange hcurs, hy']

/-- The comparator on the items of a level. -/
abbrev LevelCmp (s : PieceState n) (level : PieceCurs n → Prop)
    (item1 item2 : {item // level item}) : Prop := cmpPieceDb s item1.1 item2.1 = true

theorem cmp_self (s : PieceState n) (x : PieceCurs n) : cmpPieceDb s x x = false :=
  cmp_false_of_idx rfl

theorem CmpCases.isStrictWeakOrder (h : CmpCases s level) :
    IsStrictWeakOrder {item // level item} (LevelCmp s level) := by
  have hirrefl : ∀ x : {item // level item}, ¬LevelCmp s level x x := fun x hx =>
    Bool.false_ne_true ((cmp_self s x.1).symm.trans hx)
  have hrules : (∀ x y z : {item // level item}, LevelCmp s level x y → LevelCmp s level y z →
      LevelCmp s level x z) ∧ ∀ x y z : {item // level item}, ¬LevelCmp s level x y →
        ¬LevelCmp s level y z → ¬LevelCmp s level x z := by
    cases h with
    | never h =>
      refine ⟨fun x y z hxy => ?_, fun x y z _ _ hxz => ?_⟩
      · exact absurd ((h x.1 y.1 x.2 y.2).symm.trans hxy) Bool.false_ne_true
      · exact absurd ((h x.1 z.1 x.2 z.2).symm.trans hxz) Bool.false_ne_true
    | byWish h =>
      simp only [LevelCmp, h _ _ (Subtype.prop _) (Subtype.prop _), UInt64.not_lt]
      refine ⟨fun x y z hxy hyz => UInt64.lt_trans hyz hxy, fun x y z hxy hyz => ?_⟩
      exact UInt64.le_trans hxy hyz
    | one x₀ before hrange h =>
      simp only [LevelCmp, h _ _ (Subtype.prop _) (Subtype.prop _)]
      refine ⟨fun x y z hxy hyz => absurd hyz.1 hxy.2.1, fun x y z hxy hyz hxz => ?_⟩
      obtain ⟨hx, hz, hbefore⟩ := hxz
      by_cases hy : y.1 = x₀
      · exact hyz ⟨hy, hz, hbefore⟩
      · exact hxy ⟨hx, hy, hbefore⟩
  obtain ⟨htrans, hneg⟩ := hrules
  exact {
    irrefl := hirrefl
    trans := htrans
    incomp_trans := fun x y z hxy hyz =>
      ⟨hneg x y z hxy.1 hyz.1, hneg z y x hyz.2 hxy.2⟩ }

/-- Where a piece in range is not before an item, it is not before one which is not less wished. -/
theorem CmpCases.not_cmp_of_le (h : CmpCases s level) (hx : level x) (hy : level y) (hz : level z)
    (hxrange : readBy x x ≠ none)
    (hle : wishAt s (readBy z z) ≤ wishAt s (readBy x x)) (hyz : cmpPieceDb s y z = false) :
    cmpPieceDb s y x = false := by
  cases h with
  | never h => exact h y x hy hx
  | byWish h =>
    rw [Bool.eq_false_iff, Ne, h _ _ hy hx, UInt64.not_lt]
    rw [Bool.eq_false_iff, Ne, h _ _ hy hz, UInt64.not_lt] at hyz
    exact UInt64.le_trans hyz hle
  | one x₀ before hrange h =>
    rw [Bool.eq_false_iff, Ne, h _ _ hy hx]
    exact fun hcmp => hcmp.2.1 (hrange x hx hxrange)

/-! ### What the comparator needs -/

/-- The state with these wishes. -/
def withWish (wish : Fin n → UInt64) : PieceState n := { PieceState.empty with remote_pwish := wish }

/-- One piece is wished most, a second one less and the others are not. -/
def wishTwo (p q : Fin n) : PieceState n :=
  withWish fun r => if r = p then 2 else if r = q then 1 else 0

theorem wishAt_wishTwo (p q : Fin n) (o : Option (Fin n)) : wishAt (wishTwo p q) o =
    if o = some p then 2 else if o = some q then 1 else 0 := by
  cases o with
  | none => rfl
  | some r => simp only [wishAt, wishTwo, withWish, Option.some.injEq]

section Needed

variable (hweak : ∀ s, IsStrictWeakOrder {item // level item} (LevelCmp s level))
  (hlt : ∀ x, level x → x.2 < n)
  (hcurs : ∀ x y, level x → level y → x.1.offset = y.1.offset → x.1 = y.1)

include hweak in
theorem not_cmp_both (hx : level x) (hy : level y) (hxy : cmpPieceDb s x y = true) :
    cmpPieceDb s y x = false := by
  by_contra hyx
  have horder := hweak s
  exact horder.irrefl ⟨x, hx⟩ (horder.trans ⟨x, hx⟩ ⟨y, hy⟩ ⟨x, hx⟩ hxy (Bool.of_not_eq_false hyx))

include hweak in
theorem not_cmp_across (hx : level x) (hy : level y) (hz : level z)
    (hxy : cmpPieceDb s x y = false) (hyx : cmpPieceDb s y x = false)
    (hyz : cmpPieceDb s y z = false) (hzy : cmpPieceDb s z y = false) :
    cmpPieceDb s x z = false := by
  have h := (hweak s).incomp_trans ⟨x, hx⟩ ⟨y, hy⟩ ⟨z, hz⟩
    ⟨Bool.eq_false_iff.1 hxy, Bool.eq_false_iff.1 hyx⟩
    ⟨Bool.eq_false_iff.1 hyz, Bool.eq_false_iff.1 hzy⟩
  exact Bool.eq_false_iff.2 h.1

include hlt in
theorem readBy_ne_self {p : Fin n} (hx : level x) (hy : level y) (h : readBy x x = some p)
    (hne : x.2 ≠ y.2) : readBy x y ≠ some p := fun h' =>
  hne (SlideCurs.cursidx_inj (hlt x hx) (hlt y hy) h h')

include hcurs in
theorem readBy_ne_other {p : Fin n} (hx : level x) (hy : level y) (h : readBy x x = some p)
    (hne : y.1 ≠ x.1) : readBy y x ≠ some p := fun h' =>
  hne (hcurs y x hy hx (SlideCurs.offset_inj h' h))

include hweak hlt hcurs

/-- Two items in range of two cursors: each would be before the other. -/
theorem idx_eq_of_range {p q : Fin n} (hx : level x) (hy : level y) (hxp : readBy x x = some p)
    (hyq : readBy y y = some q) (hne : y.1 ≠ x.1) : x.2 = y.2 := by
  by_contra hidx
  have hxy : cmpPieceDb (wishTwo p q) x y = true := by
    have hself := readBy_ne_self hlt hx hy hxp hidx
    rw [cmp_iff, wishAt_wishTwo, wishAt_wishTwo, if_neg hself, if_pos hxp]
    split_ifs <;> decide
  have hyx : cmpPieceDb (wishTwo p q) y x = true := by
    have hself := readBy_ne_self hlt hy hx hyq (Ne.symm hidx)
    have hother := readBy_ne_other hcurs hx hy hxp hne
    rw [cmp_iff, wishAt_wishTwo, wishAt_wishTwo, if_neg hother, if_neg hself, hyq,
      if_pos (rfl : some q = some q)]
    split_ifs <;> decide
  rw [not_cmp_both hweak hx hy hxy] at hyx
  cases hyx

/-- Where the indexes are not all the same, an item in range meets no other in range of another
cursor: a third one, with another index, would be after one of the two only. -/
theorem none_of_range {p : Fin n} (hidx : ∃ z, level z ∧ z.2 ≠ y.2) (hx : level x) (hy : level y)
    (hxp : readBy x x = some p) (hne : y.1 ≠ x.1) : readBy y y = none := by
  by_contra hyrange
  obtain ⟨q, hyq⟩ := Option.ne_none_iff_exists'.1 hyrange
  have hxy := idx_eq_of_range hweak hlt hcurs hx hy hxp hyq hne
  obtain ⟨z, hz, hzy⟩ := hidx
  have hznone : readBy z z = none := by
    by_contra hzrange
    obtain ⟨r, hzr⟩ := Option.ne_none_iff_exists'.1 hzrange
    by_cases hzx : z.1 = x.1
    · exact hzy (idx_eq_of_range hweak hlt hcurs hy hz hyq hzr (hzx ▸ Ne.symm hne)).symm
    · exact hzy ((idx_eq_of_range hweak hlt hcurs hx hz hxp hzr hzx).symm.trans hxy)
  have hyp : readBy y y ≠ some p := by
    have hother := readBy_ne_other hcurs hx hy hxp hne
    rwa [readBy, hxy] at hother
  have hcmp : cmpPieceDb (wishTwo p p) x z = true := by
    have hself := readBy_ne_self hlt hx hz hxp (hxy ▸ Ne.symm hzy)
    rw [cmp_iff, wishAt_wishTwo, wishAt_wishTwo, if_neg hself, if_neg hself, if_pos hxp]
    decide
  have hyz : cmpPieceDb (wishTwo p p) y z = false := by
    rw [Bool.eq_false_iff, Ne, cmp_iff, wishAt_wishTwo _ _ (readBy y y), if_neg hyp, if_neg hyp]
    exact UInt64.not_lt_zero
  rw [not_cmp_across hweak hx hy hz (cmp_false_of_idx hxy) (cmp_false_of_idx hxy.symm) hyz
    (cmp_false_of_none hznone)] at hcmp
  cases hcmp

/-- What an item in range reads in range for another cursor is read by all the others. -/
theorem idx_eq_of_read {p q : Fin n} (hx : level x) (hy : level y) (hz : level z)
    (hxp : readBy x x = some p) (hynone : readBy y y = none) (hread : readBy x y = some q)
    (hzx : z ≠ x) : z.2 = y.2 := by
  by_contra hzy
  have hqz : readBy x z ≠ some q := fun h =>
    hzy (SlideCurs.cursidx_inj (hlt z hz) (hlt y hy) h hread)
  have hzcurs : readBy z z ≠ none → z.1 = x.1 := by
    intro hzrange
    by_contra hne
    exact hzrange (none_of_range hweak hlt hcurs ⟨y, hy, Ne.symm hzy⟩ hx hz hxp hne)
  -- wishes of the one or two pieces of `x` under which the order is not weak
  by_cases hpz : readBy x z = some p
  · have hznone : readBy z z = none := by
      by_contra hzrange
      have hidx := SlideCurs.cursidx_inj (hlt z hz) (hlt x hx) hpz hxp
      exact hzx (Prod.ext (hzcurs hzrange) hidx)
    have hqp : some q ≠ some p := fun h => hqz (hpz.trans h.symm)
    have hxy : cmpPieceDb (wishTwo p p) x y = true := by
      rw [cmp_iff, wishAt_wishTwo, wishAt_wishTwo, hread, if_neg hqp, if_neg hqp, if_pos hxp]
      decide
    have hxz : cmpPieceDb (wishTwo p p) x z = false := by
      rw [Bool.eq_false_iff, Ne, cmp_iff, hpz, hxp]
      exact UInt64.lt_irrefl _
    rw [not_cmp_across hweak hx hz hy hxz (cmp_false_of_none hznone) (cmp_false_of_none hznone)
      (cmp_false_of_none hynone)] at hxy
    cases hxy
  · have hxz : cmpPieceDb (wishTwo q p) x z = true := by
      rw [cmp_iff, wishAt_wishTwo, wishAt_wishTwo, if_neg hqz, if_neg hpz, hxp,
        if_pos (rfl : some p = some p)]
      split_ifs <;> decide
    have hxy : cmpPieceDb (wishTwo q p) x y = false := by
      rw [Bool.eq_false_iff, Ne, cmp_iff, wishAt_wishTwo, wishAt_wishTwo, if_pos hread, hxp,
        if_pos (rfl : some p = some p)]
      split_ifs <;> decide
    have hzy' : cmpPieceDb (wishTwo q p) z y = false := by
      by_cases hzrange : readBy z z = none
      · exact cmp_false_of_none hzrange
      · have hown : readBy z z = readBy x z := by rw [readBy, hzcurs hzrange, readBy]
        rw [Bool.eq_false_iff, Ne, cmp_iff, hown, wishAt_wishTwo _ _ (readBy x z), if_neg hqz,
          if_neg hpz]
        exact UInt64.not_lt_zero
    rw [not_cmp_across hweak hx hy hz hxy (cmp_false_of_none hynone) (cmp_false_of_none hynone)
      hzy'] at hxz
    cases hxz

/-- **A comparator which is a strict weak order for all wishes reads the indexes alike.** -/
theorem readAlike_of_weak : ReadAlike level := by
  by_cases hsame : ∀ x y, level x → level y → x.2 = y.2
  · exact .inl hsame
  refine .inr fun x y hx hy hxrange hne => ?_
  obtain ⟨p, hxp⟩ := Option.ne_none_iff_exists'.1 hxrange
  have hidx : ∃ z, level z ∧ z.2 ≠ y.2 := by
    by_contra hno
    push Not at hno
    exact hsame fun u v hu hv => (hno u hu).trans (hno v hv).symm
  have hynone := none_of_range hweak hlt hcurs hidx hx hy hxp hne
  refine ⟨hynone, ?_⟩
  by_cases hread : readBy x y = none
  · exact .inl hread
  · obtain ⟨q, hread⟩ := Option.ne_none_iff_exists'.1 hread
    exact .inr fun z hz hzx => idx_eq_of_read hweak hlt hcurs hx hy hz hxp hynone hread hzx

end Needed

/-! ### The selection -/

variable {shuffle : List (PieceCurs n) → List (PieceCurs n)} {piece_db : List (PieceCurs n)}
  {remote_pieceavail : Fin n → Bool}

theorem mem_sortPieceDb (hshuffle : ∀ l, (shuffle l).Perm l) :
    item ∈ sortPieceDb s shuffle piece_db ↔ item ∈ piece_db := by
  rw [sortPieceDb, (List.mergeSort_perm _ _).mem_iff, (hshuffle piece_db).mem_iff]

/-- Under a strict weak order the items are sorted. -/
theorem pairwise_sortPieceDb (hweak : IsStrictWeakOrder {item // level item} (LevelCmp s level))
    (hshuffle : ∀ l, (shuffle l).Perm l) (hlevel : ∀ item ∈ piece_db, level item) :
    (sortPieceDb s shuffle piece_db).Pairwise fun x y => cmpPieceDb s y x = false := by
  have hmem : ∀ item ∈ shuffle piece_db, level item := fun item h =>
    hlevel item ((hshuffle piece_db).mem_iff.1 h)
  set le : {item // level item} → {item // level item} → Bool :=
    fun item1 item2 => !cmpPieceDb s item2.1 item1.1 with hle
  have hneg : ∀ x y : {item // level item}, le x y = true ↔ ¬LevelCmp s level y x := by
    intro x y
    rw [hle, LevelCmp]
    simp
  have hsorted := @List.pairwise_mergeSort _ le ?_ ?_ ((shuffle piece_db).attachWith level hmem)
  · have hmap := List.map_mergeSort (r := le) (s := fun item1 item2 => !cmpPieceDb s item2 item1)
      (f := Subtype.val) (l := (shuffle piece_db).attachWith level hmem) fun _ _ _ _ => rfl
    rw [List.attachWith_map_subtype_val] at hmap
    rw [sortPieceDb, ← hmap, List.pairwise_map]
    refine hsorted.imp fun h => ?_
    simpa [hle] using h
  · intro x y z hxy hyz
    rw [hneg] at hxy hyz ⊢
    intro hzx
    by_cases hxy' : LevelCmp s level x y
    · exact hyz (hweak.trans _ _ _ hzx hxy')
    · by_cases hyz' : LevelCmp s level y z
      · exact hxy (hweak.trans _ _ _ hyz' hzx)
      · exact (hweak.incomp_trans _ _ _ ⟨hyz, hyz'⟩ ⟨hxy, hxy'⟩).1 hzx
  · intro x y
    rw [Bool.or_eq_true, hneg, hneg]
    by_contra hboth
    push Not at hboth
    exact hweak.irrefl _ (hweak.trans _ _ _ hboth.1 hboth.2)

theorem selectItem_eq_some {pieceidx : Fin n} :
    selectItem s remote_pieceavail item = some pieceidx ↔ At item pieceidx ∧
      s.maySelect pieceidx = true ∧ remote_pieceavail pieceidx = true := by
  unfold selectItem
  constructor
  · intro h
    split at h
    · cases h
    · next p hp =>
        split_ifs at h with hcant hremote
        obtain rfl := Option.some.inj h
        exact ⟨hp, by simpa [PieceState.maySelect] using hcant, by simpa using hremote⟩
  · rintro ⟨hat, hmay, hremote⟩
    have hcant : s.cantSelect pieceidx = false := by simpa [PieceState.maySelect] using hmay
    rw [At] at hat
    rw [hat]
    dsimp only
    rw [hcant, hremote]
    rfl

variable {t : PselectSlide n} {pieceidx : Fin n}

/-- The list under a precedence gives something as soon as its level has a candidate. -/
theorem findSome?_ne_none (hshuffle : ∀ l, (shuffle l).Perm l)
    (hcand : t.Candidate remote_pieceavail pieceidx) :
    ∃ piece_db, (generatePrecDb t.curs_db)[pieceprec t.curs_db pieceidx]? = some piece_db ∧
      (sortPieceDb t.toPieceState shuffle piece_db).findSome?
        (selectItem t.toPieceState remote_pieceavail) ≠ none := by
  obtain ⟨hneeded, hmay, hremote⟩ := hcand
  obtain ⟨item, hlevel, hat⟩ := pieceprec_mem hneeded
  obtain ⟨piece_db, hget⟩ := exists_of_inLevel hneeded hlevel
  refine ⟨piece_db, hget, fun hnone => ?_⟩
  have hmem := (mem_sortPieceDb (s := t.toPieceState) hshuffle).2
    (((generatePrecDb_spec hget).2 item).2 hlevel)
  have hselect := List.findSome?_eq_none_iff.1 hnone item hmem
  rw [selectItem_eq_some.2 ⟨hat, hmay, hremote⟩] at hselect
  cases hselect

/-- The comparator is a strict weak order on every level. -/
abbrev WeakLevels (t : PselectSlide n) : Prop := ∀ prec, prec ≠ Pieceprec.notneeded →
  IsStrictWeakOrder {item // InLevel t.curs_db prec item}
    (LevelCmp t.toPieceState (InLevel t.curs_db prec))

/-- What is found in a sorted list: no item of a candidate is before it. -/
theorem findSome?_sortPieceDb {prec : Pieceprec} (hweak : t.WeakLevels)
    (hshuffle : ∀ l, (shuffle l).Perm l)
    (hget : (generatePrecDb t.curs_db)[prec]? = some piece_db)
    (h : (sortPieceDb t.toPieceState shuffle piece_db).findSome?
      (selectItem t.toPieceState remote_pieceavail) = some pieceidx) :
    t.maySelect pieceidx = true ∧ remote_pieceavail pieceidx = true ∧
      ∃ x, InLevel t.curs_db prec x ∧ At x pieceidx ∧
        ∀ j y, t.Candidate remote_pieceavail j → InLevel t.curs_db prec y → At y j →
          cmpPieceDb t.toPieceState y x = false := by
  obtain ⟨hne, hlevel⟩ := generatePrecDb_spec hget
  obtain ⟨l₁, x, l₂, hsplit, hx, hbefore⟩ := List.findSome?_eq_some_iff.1 h
  obtain ⟨hat, hmay, hremote⟩ := selectItem_eq_some.1 hx
  have hmem : ∀ item, item ∈ l₁ ++ x :: l₂ ↔ InLevel t.curs_db prec item := by
    intro item
    rw [← hsplit, mem_sortPieceDb hshuffle, hlevel]
  have hsorted := pairwise_sortPieceDb (hweak prec hne) hshuffle fun item => (hlevel item).1
  rw [hsplit] at hsorted
  refine ⟨hmay, hremote, x, (hmem x).1 (by simp), hat, fun j y hj hy haty => ?_⟩
  rcases List.mem_append.1 ((hmem y).2 hy) with hy₁ | hy₂
  · -- the item of a candidate would have been selected
    have hselect := hbefore y hy₁
    rw [selectItem_eq_some.2 ⟨haty, hj.2.1, hj.2.2⟩] at hselect
    cases hselect
  · rcases List.mem_cons.1 hy₂ with rfl | hy₂
    · exact cmp_self _ _
    · exact (List.pairwise_cons.1 (List.pairwise_append.1 hsorted).2.1).1 y hy₂

/-- What is selected without a hint is a candidate of the highest precedence, and no item of a
candidate is before its own. -/
theorem nextPieceToSelectNohint_eq_some (hweak : t.WeakLevels)
    (hshuffle : ∀ l, (shuffle l).Perm l)
    (h : t.nextPieceToSelectNohint remote_pieceavail shuffle = some pieceidx) :
    t.Candidate remote_pieceavail pieceidx ∧
      (∀ j, t.Candidate remote_pieceavail j →
        pieceprec t.curs_db j ≤ pieceprec t.curs_db pieceidx) ∧
      ∃ x, InLevel t.curs_db (pieceprec t.curs_db pieceidx) x ∧ At x pieceidx ∧
        ∀ j y, t.Candidate remote_pieceavail j →
          InLevel t.curs_db (pieceprec t.curs_db pieceidx) y → At y j →
            cmpPieceDb t.toPieceState y x = false := by
  obtain ⟨⟨prec, piece_db⟩, hmem, hfind, hhigher⟩ :=
    findSome?_reverse_eq_some TreeMap.ordered_keys_toList h
  have hget := TreeMap.mem_toList_iff_getElem?_eq_some.1 hmem
  obtain ⟨hmay, hremote, x, hx, hat, hbefore⟩ := findSome?_sortPieceDb hweak hshuffle hget hfind
  -- a candidate is found under its own precedence, which is not above this one
  have hle : ∀ j, t.Candidate remote_pieceavail j → pieceprec t.curs_db j ≤ prec := by
    intro j hj
    obtain ⟨piece_db', hget', hsome⟩ := findSome?_ne_none hshuffle hj
    rcases hhigher (_, piece_db') (TreeMap.mem_toList_iff_getElem?_eq_some.2 hget') hsome with
      heq | hlt
    · rw [(Prod.mk.inj heq).1]
      exact UInt64.le_refl _
    · exact UInt64.le_of_lt (compareOfLessAndEq_eq_lt.1 hlt)
  have hmax := pieceprec_max hx hat
  have hne := (generatePrecDb_spec hget).1
  have hcand : t.Candidate remote_pieceavail pieceidx := by
    refine ⟨fun hzero => hne ?_, hmay, hremote⟩
    rw [hzero] at hmax
    exact UInt64.le_antisymm hmax UInt64.zero_le
  have hprec : pieceprec t.curs_db pieceidx = prec := UInt64.le_antisymm (hle _ hcand) hmax
  rw [hprec]
  exact ⟨hcand, hle, x, hx, hat, hbefore⟩

/-- A candidate which is not below a selected piece is as good. -/
theorem not_less_of_le {i k : Fin n} {x : PieceCurs n}
    (hcases : CmpCases t.toPieceState (InLevel t.curs_db (pieceprec t.curs_db i)))
    (hmax : ∀ j, t.Candidate remote_pieceavail j → pieceprec t.curs_db j ≤ pieceprec t.curs_db i)
    (hx : InLevel t.curs_db (pieceprec t.curs_db i) x) (hat : At x i)
    (hbefore : ∀ j y, t.Candidate remote_pieceavail j →
      InLevel t.curs_db (pieceprec t.curs_db i) y → At y j → cmpPieceDb t.toPieceState y x = false)
    (hprec : pieceprec t.curs_db k = pieceprec t.curs_db i)
    (hwish : t.remote_pwish i ≤ t.remote_pwish k) {j : Fin n}
    (hj : t.Candidate remote_pieceavail j) : ¬t.Less k j := by
  rintro (hlt | ⟨-, x', y, hx', hat', hy, haty, hcmp⟩)
  · rw [hprec] at hlt
    exact UInt64.not_lt.2 (hmax j hj) hlt
  · rw [hprec] at hx' hy
    have hown : readBy x x = some i := hat
    have hown' : readBy x' x' = some k := hat'
    have hrange : readBy x' x' ≠ none := by
      rw [hown']
      exact Option.some_ne_none k
    have hle : wishAt t.toPieceState (readBy x x) ≤ wishAt t.toPieceState (readBy x' x') := by
      rw [hown, hown']
      exact hwish
    rw [hcases.not_cmp_of_le hx' hy hx hrange hle (hbefore j y hj hy haty)] at hcmp
    cases hcmp

/-- **Selection**: on levels which are read alike the best candidate is returned. -/
theorem best_of_readAlike
    (h : ∀ prec, prec ≠ Pieceprec.notneeded → ReadAlike (InLevel t.curs_db prec))
    (hshuffle : ∀ l, (shuffle l).Perm l) (pieceidx_hint : Option (Fin n)) :
    Best (t.Candidate remote_pieceavail) t.Less
      (t.nextPieceToSelect remote_pieceavail pieceidx_hint shuffle) := by
  have hweak : t.WeakLevels := fun prec hne => ((h prec hne).cmpCases _).isStrictWeakOrder
  unfold nextPieceToSelect
  rcases hnormal : t.nextPieceToSelectNohint remote_pieceavail shuffle with _ | i
  · have hno : ∀ j, ¬t.Candidate remote_pieceavail j := by
      intro j hj
      obtain ⟨piece_db, hget, hsome⟩ := findSome?_ne_none hshuffle hj
      exact hsome (findSome?_reverse_eq_none.1 hnormal _
        (TreeMap.mem_toList_iff_getElem?_eq_some.2 hget))
    have hnone : t.followHint (pieceprec t.curs_db) remote_pieceavail pieceidx_hint none = none := by
      cases pieceidx_hint <;> rfl
    rw [hnone]
    exact ⟨iff_of_true rfl hno, nofun, nofun⟩
  · obtain ⟨hcand, hmax, x, hx, hat, hbefore⟩ := nextPieceToSelectNohint_eq_some hweak hshuffle hnormal
    have hcases := (h _ hcand.1).cmpCases t.toPieceState
    -- the piece which is returned is a candidate with the rank of the one selected first
    have hbest : ∀ k, t.Candidate remote_pieceavail k → pieceprec t.curs_db i ≤ pieceprec t.curs_db k →
        t.remote_pwish i ≤ t.remote_pwish k →
          Best (t.Candidate remote_pieceavail) t.Less (some k) := by
      intro k hk hprec hwish
      refine ⟨⟨nofun, fun hno => absurd hk (hno k)⟩, ?_, ?_⟩
      · intro k' hk'
        obtain rfl := Option.some.inj hk'
        exact hk
      · intro k' hk' j hj
        obtain rfl := Option.some.inj hk'
        exact not_less_of_le hcases hmax hx hat hbefore (UInt64.le_antisymm (hmax k hk) hprec)
          hwish hj
    rcases t.followHint_cases (pieceprec t.curs_db) remote_pieceavail pieceidx_hint (some i) with
      heq | ⟨hint, normal, hi, heq, hmay, hremote, hprec, hwish⟩
    · rw [heq]
      exact hbest i hcand (UInt64.le_refl _) (UInt64.le_refl _)
    · obtain rfl := Option.some.inj hi
      rw [heq]
      refine hbest hint ⟨fun hzero => hcand.1 ?_, hmay, hremote⟩ hprec hwish
      rw [hzero] at hprec
      exact UInt64.le_antisymm hprec UInt64.zero_le

/-- **Cursors at distinct positions are served right exactly when the comparator reads the indexes
of every precedence alike.** -/
theorem correct_iff (curs_db : List (SlideCurs n)) (hpos : (curs_db.map SlideCurs.offset).Nodup) :
    Correct curs_db ↔
      ∀ prec, prec ≠ Pieceprec.notneeded → ReadAlike (InLevel curs_db prec) := by
  constructor
  · intro h prec hne
    refine readAlike_of_weak (fun s => h.strictWeak s prec hne) (fun x hx => hx.lt) ?_
    exact fun x y hx hy hoffset => List.inj_on_of_nodup_map hpos hx.1 hy.1 hoffset
  · intro h
    exact {
      strictWeak := fun s prec hne => ((h prec hne).cmpCases s).isStrictWeakOrder
      pieceprec_max := fun pieceidx item prec hlevel hat => pieceprec_max hlevel hat
      pieceprec_mem := fun pieceidx hne => pieceprec_mem hne
      best := fun s remote_pieceavail pieceidx_hint shuffle hshuffle =>
        best_of_readAlike h hshuffle pieceidx_hint }

/-- A precedence which one cursor has is read alike. -/
theorem readAlike_of_one_curs (h : ∀ x y, level x → level y → y.1 = x.1) : ReadAlike level :=
  .inr fun x y hx hy _ hne => absurd (h x y hx hy) hne

/-! ### Cursors over three pieces -/

/-- The pieces 0 and 1. -/
def cursFirst : SlideCurs 3 := ⟨[7, 7], 0, false, by decide, by decide⟩

/-- The piece 2, at a precedence of its own or at that of the others. -/
def cursLast (prec : Pieceprec) : SlideCurs 3 := ⟨[prec], 2, false, by simp, by decide⟩

theorem inLevel_apart {item : PieceCurs 3} (h : InLevel [cursFirst, cursLast 6] prec item) :
    (item.1 = cursFirst ∧ prec = 7) ∨ (item.1 = cursLast 6 ∧ prec = 6) := by
  have hmem := List.mem_of_getElem? h.2
  rcases List.mem_pair.1 h.1 with hcurs | hcurs
  · rw [hcurs] at hmem
    exact .inl ⟨hcurs, by simpa [cursFirst] using hmem⟩
  · rw [hcurs] at hmem
    exact .inr ⟨hcurs, by simpa [cursLast] using hmem⟩

theorem correct_apart : Correct [cursFirst, cursLast 6] := by
  refine (correct_iff [cursFirst, cursLast 6] (by decide)).2 fun prec _ =>
    readAlike_of_one_curs fun x y hx hy => ?_
  rcases inLevel_apart hx with ⟨hxc, rfl⟩ | ⟨hxc, rfl⟩ <;>
    rcases inLevel_apart hy with ⟨hyc, hprec⟩ | ⟨hyc, hprec⟩
  · exact hyc.trans hxc.symm
  · exact absurd hprec (by decide)
  · exact absurd hprec (by decide)
  · exact hyc.trans hxc.symm

/-- With the wishes 0, 1, 1 each of two items is before the other. -/
theorem cmp_together :
    let s : PieceState 3 := withWish fun p => if p = 0 then 0 else 1
    cmpPieceDb s (cursFirst, 1) (cursLast 7, 0) = true ∧
      cmpPieceDb s (cursLast 7, 0) (cursFirst, 1) = true := by decide

theorem not_correct_together :
    ([cursFirst, cursLast 7].map SlideCurs.offset).Nodup ∧
      ([cursFirst, cursLast 7].map SlideCurs.pieceprec_arr).Nodup ∧
      ¬Correct [cursFirst, cursLast 7] := by
  refine ⟨by decide, by decide, fun h => ?_⟩
  have horder := h.strictWeak (withWish fun p => if p = 0 then 0 else 1) 7 (by decide)
  have hx : InLevel [cursFirst, cursLast 7] 7 (cursFirst, 1) := by
    constructor <;> decide
  have hy : InLevel [cursFirst, cursLast 7] 7 (cursLast 7, 0) := by
    constructor <;> decide
  exact horder.irrefl ⟨_, hx⟩
    (horder.trans ⟨_, hx⟩ ⟨_, hy⟩ ⟨_, hx⟩ cmp_together.1 cmp_together.2)

end PselectSlide

end Neoip
