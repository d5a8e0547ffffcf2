/-
Neoip/PselectSlideCurs.lean

Sliding cursors with the offset they were built with: `bt_pselect_slide_curs_t`,
`bt_pselect_slide_t`.

The setter of the offset reduces it for a circular cursor, the constructor takes
it as it is.  Sums are formed in words of `w` bits, for `size_t`.  A conversion to
a piece reduces the sum as often as needed, and `pieceprec`, which goes from a
piece to its index in the array, adds the number of pieces once.

A cursor whose offset is a position of a piece, and whose sums fit, is a
`SlideCurs` (`cursidxToPieceidx_toSlideCurs`, `pieceprec_toSlideCurs`).

Main result: both conversions are inverse to each other and both computations of
the precedences agree, exactly when the array of each cursor ends before it is
around for the second time, and before the end of the word
(`SlideWord.slides_iff`).
-/
import Neoip.PselectSlide

namespace Neoip

/-- `bt_pselect_slide_curs_t`, attached to a selector of `n` pieces. -/
structure SlideWord (w n : ℕ) where
  pieceprec_arr : List Pieceprec
  offset : ℕ
  has_circularidx : Bool
  size_le : pieceprec_arr.length ≤ n
  nb_piece_lt : n < 2 ^ w
  offset_lt : offset < 2 ^ w

namespace SlideWord

variable {w n : ℕ} {c : SlideWord w n} {curs_db : List (SlideWord w n)} {i j p : ℕ}

/-! ### Conversions -/

/-- `std::numeric_limits<size_t>::max()`, for out of range. -/
def outOfRange (w : ℕ) : ℕ := 2 ^ w - 1

def cursidxToPieceidx (c : SlideWord w n) (curs_idx : ℕ) : ℕ :=
  let piece_idx := (curs_idx + c.offset) % 2 ^ w
  if c.has_circularidx then piece_idx % n
  else if piece_idx ≥ n then outOfRange w
  else piece_idx

/-- The piece with the full size added when it is before the offset, as in `pieceprec`. -/
def wrapped (c : SlideWord w n) (piece_idx : ℕ) : ℕ :=
  if c.has_circularidx ∧ piece_idx < c.offset then (piece_idx + n) % 2 ^ w else piece_idx

def pieceprec (c : SlideWord w n) (piece_idx : ℕ) : Pieceprec :=
  let piece_idx := c.wrapped piece_idx
  if piece_idx < c.offset then Pieceprec.notneeded
  else if piece_idx ≥ (c.offset + c.pieceprec_arr.length) % 2 ^ w then Pieceprec.notneeded
  else c.pieceprec_arr.getD (piece_idx - c.offset) Pieceprec.notneeded

/-- The index in the array which `pieceprec` reads. -/
def pieceidxToCursidx (c : SlideWord w n) (piece_idx : ℕ) : Option ℕ :=
  let piece_idx := c.wrapped piece_idx
  if piece_idx < c.offset then none
  else if piece_idx ≥ (c.offset + c.pieceprec_arr.length) % 2 ^ w then none
  else some (piece_idx - c.offset)

/-- `offset`, the setter. -/
def setOffset (c : SlideWord w n) (new_offset : ℕ) (h : new_offset < 2 ^ w) : SlideWord w n where
  pieceprec_arr := c.pieceprec_arr
  offset := if c.has_circularidx then new_offset % n else new_offset
  has_circularidx := c.has_circularidx
  size_le := c.size_le
  nb_piece_lt := c.nb_piece_lt
  offset_lt := by
    split_ifs
    · exact (Nat.mod_le _ _).trans_lt h
    · exact h

/-! ### The selector -/

/-- One turn of the inner loop of `pieceprec_arr`. -/
def putPrec (c : SlideWord w n) (pieceprec_arr : List Pieceprec) (curs_idx : ℕ) : List Pieceprec :=
  let curs_pieceprec := c.pieceprec_arr.getD curs_idx Pieceprec.notneeded
  let piece_idx := c.cursidxToPieceidx curs_idx
  if piece_idx = outOfRange w then pieceprec_arr
  else pieceprec_arr.set piece_idx
    (max (pieceprec_arr.getD piece_idx Pieceprec.notneeded) curs_pieceprec)

/-- `bt_pselect_slide_t::pieceprec_arr`. -/
def pieceprecArr (curs_db : List (SlideWord w n)) : List Pieceprec :=
  curs_db.foldl
    (fun pieceprec_arr c => (List.range c.pieceprec_arr.length).foldl c.putPrec pieceprec_arr)
    (List.replicate n Pieceprec.notneeded)

/-- `bt_pselect_slide_t::pieceprec`. -/
def maxPieceprec (curs_db : List (SlideWord w n)) (piece_idx : ℕ) : Pieceprec :=
  curs_db.foldl (fun max_pieceprec c => max max_pieceprec (c.pieceprec piece_idx))
    Pieceprec.notneeded

/-! ### What the cursors are for -/

/-- Both conversions are inverse, and both computations of the precedences agree. -/
structure Slides (curs_db : List (SlideWord w n)) : Prop where
  inverse : ∀ c ∈ curs_db, ∀ p < n, ∀ i,
    c.pieceidxToCursidx p = some i ↔ i < c.pieceprec_arr.length ∧ c.cursidxToPieceidx i = p
  entry : ∀ c ∈ curs_db, ∀ p < n, ∀ i prec, c.pieceprec_arr[i]? = some prec →
    c.cursidxToPieceidx i = p → c.pieceprec p = prec
  notneeded : ∀ c ∈ curs_db, ∀ p < n,
    (∀ i < c.pieceprec_arr.length, c.cursidxToPieceidx i ≠ p) → c.pieceprec p = Pieceprec.notneeded
  entry_iff : ∀ c ∈ curs_db, c.pieceprec_arr.Nodup → Pieceprec.notneeded ∉ c.pieceprec_arr →
    ∀ p < n, ∀ i prec, c.pieceprec_arr[i]? = some prec →
      (c.pieceprec p = prec ↔ c.cursidxToPieceidx i = p)
  agree : ∀ p < n, (pieceprecArr curs_db)[p]? = some (maxPieceprec curs_db p)

/-- The array ends before the end of the word, and before it is around for the second time. -/
def Fits (c : SlideWord w n) : Prop :=
  c.pieceprec_arr = [] ∨ if c.has_circularidx then
      c.offset + c.pieceprec_arr.length < 2 ^ w ∧ c.offset + c.pieceprec_arr.length ≤ 2 * n
    else c.offset + c.pieceprec_arr.length < 2 ^ w ∨
      c.offset + c.pieceprec_arr.length = 2 ^ w ∧ n ≤ c.offset

/-! ### From a piece to an index and back -/

theorem pieceprec_eq (c : SlideWord w n) (p : ℕ) : c.pieceprec p =
    (c.pieceidxToCursidx p).elim Pieceprec.notneeded fun i =>
      c.pieceprec_arr.getD i Pieceprec.notneeded := by
  simp only [pieceprec, pieceidxToCursidx]
  split_ifs <;> rfl

theorem pieceidxToCursidx_eq_some_iff (h : c.offset + c.pieceprec_arr.length < 2 ^ w) :
    c.pieceidxToCursidx p = some i ↔ i < c.pieceprec_arr.length ∧ c.wrapped p = i + c.offset := by
  simp only [pieceidxToCursidx, Nat.mod_eq_of_lt h]
  split_ifs with hlt hge
  · exact iff_of_false (by simp) (by omega)
  · exact iff_of_false (by simp) (by omega)
  · rw [Option.some.injEq]
    omega

/-- No index is read when the end of the array is not a number of the word. -/
theorem pieceidxToCursidx_of_le (h : 2 ^ w ≤ c.offset + c.pieceprec_arr.length) :
    c.pieceidxToCursidx p = none := by
  have hlen := c.size_le
  have hn := c.nb_piece_lt
  have ho := c.offset_lt
  have hmod : (c.offset + c.pieceprec_arr.length) % 2 ^ w =
      c.offset + c.pieceprec_arr.length - 2 ^ w := by
    rw [Nat.mod_eq_sub_mod h]
    exact Nat.mod_eq_of_lt (by omega)
  simp only [pieceidxToCursidx, hmod]
  split_ifs with hlt hge
  · rfl
  · rfl
  · omega

theorem cursidxToPieceidx_of_circularidx (hcirc : c.has_circularidx = true)
    (h : i + c.offset < 2 ^ w) : c.cursidxToPieceidx i = (i + c.offset) % n := by
  simp only [cursidxToPieceidx, hcirc, if_true, Nat.mod_eq_of_lt h]

theorem cursidxToPieceidx_of_not (hcirc : ¬ c.has_circularidx = true) (h : i + c.offset < 2 ^ w) :
    c.cursidxToPieceidx i = if i + c.offset ≥ n then outOfRange w else i + c.offset := by
  simp only [cursidxToPieceidx, if_neg hcirc, Nat.mod_eq_of_lt h]

/-- Around once. -/
theorem mod_eq_ite {x : ℕ} (h : x < 2 * n) : x % n = if x < n then x else x - n := by
  split_ifs with hlt
  · exact Nat.mod_eq_of_lt hlt
  · rw [Nat.mod_eq_sub_mod (Nat.le_of_not_lt hlt)]
    exact Nat.mod_eq_of_lt (by omega)

/-- A piece before the offset is found around the end, unless the sum is lost, and then it is not
in the array. -/
theorem wrapped_eq_iff (hcirc : c.has_circularidx = true) (hi : i + c.offset < 2 ^ w) :
    c.wrapped p = i + c.offset ↔
      if p < c.offset then p + n = i + c.offset else p = i + c.offset := by
  have hn := c.nb_piece_lt
  simp only [wrapped, hcirc, true_and]
  split_ifs with hlt
  · rcases Nat.lt_or_ge (p + n) (2 ^ w) with hsum | hsum
    · rw [Nat.mod_eq_of_lt hsum]
    · rw [Nat.mod_eq_sub_mod hsum, Nat.mod_eq_of_lt (by omega)]
      omega
  · exact Iff.rfl

theorem Fits.inverse (h : c.Fits) (hp : p < n) : c.pieceidxToCursidx p = some i ↔
    i < c.pieceprec_arr.length ∧ c.cursidxToPieceidx i = p := by
  have hlen := c.size_le
  have hn := c.nb_piece_lt
  have ho := c.offset_lt
  rcases h with hnil | h
  · rw [pieceidxToCursidx_eq_some_iff (by rw [hnil]; exact ho), hnil]
    simp
  · split_ifs at h with hcirc
    · rw [pieceidxToCursidx_eq_some_iff h.1]
      refine and_congr_right fun hi => ?_
      rw [wrapped_eq_iff hcirc (by omega), cursidxToPieceidx_of_circularidx hcirc (by omega),
        mod_eq_ite (by omega)]
      split_ifs <;> omega
    · have hrange : outOfRange w ≠ p := by
        rw [outOfRange]
        omega
      rcases h with hlt | ⟨heq, hle⟩
      · rw [pieceidxToCursidx_eq_some_iff hlt]
        refine and_congr_right fun hi => ?_
        rw [cursidxToPieceidx_of_not hcirc (by omega), wrapped, if_neg fun hc => hcirc hc.1]
        split_ifs <;> omega
      · rw [pieceidxToCursidx_of_le heq.ge]
        refine iff_of_false nofun ?_
        rintro ⟨hi, hpiece⟩
        rw [cursidxToPieceidx_of_not hcirc (by omega), if_pos (by omega)] at hpiece
        exact hrange hpiece

theorem fits_of_inverse (h : ∀ p < n, ∀ i, c.pieceidxToCursidx p = some i ↔
    i < c.pieceprec_arr.length ∧ c.cursidxToPieceidx i = p) : c.Fits := by
  have hlen := c.size_le
  have hn := c.nb_piece_lt
  have ho := c.offset_lt
  by_cases hnil : c.pieceprec_arr = []
  · exact Or.inl hnil
  · have hpos : 0 < c.pieceprec_arr.length := List.length_pos_iff.2 hnil
    refine Or.inr ?_
    split_ifs with hcirc
    · have hzero : c.pieceidxToCursidx (c.offset % n) = some 0 := by
        refine (h _ (Nat.mod_lt _ (by omega)) 0).2 ⟨hpos, ?_⟩
        rw [cursidxToPieceidx_of_circularidx hcirc (by omega), Nat.zero_add]
      have hlt : c.offset + c.pieceprec_arr.length < 2 ^ w := by
        by_contra hge
        rw [pieceidxToCursidx_of_le (Nat.le_of_not_lt hge)] at hzero
        nomatch hzero
      refine ⟨hlt, ?_⟩
      by_contra hgt
      rcases Nat.lt_or_ge c.offset (2 * n) with hoff | hoff
      · -- the piece at the end of the second turn
        have hmod : c.cursidxToPieceidx (2 * n - c.offset) = 0 := by
          rw [cursidxToPieceidx_of_circularidx hcirc (by omega), Nat.sub_add_cancel hoff.le,
            Nat.mul_mod_left]
        have hread := (h 0 (by omega) (2 * n - c.offset)).2 ⟨by omega, hmod⟩
        have hwrap := ((pieceidxToCursidx_eq_some_iff hlt).1 hread).2
        rw [wrapped_eq_iff hcirc (by omega)] at hwrap
        split_ifs at hwrap <;> omega
      · -- the first index, after two turns or more
        have hmod : c.offset % n < n := Nat.mod_lt _ (by omega)
        have hwrap := ((pieceidxToCursidx_eq_some_iff hlt).1 hzero).2
        rw [wrapped_eq_iff hcirc (by omega), if_pos (by omega)] at hwrap
        omega
    · by_contra hnot
      rw [not_or] at hnot
      have hge : 2 ^ w ≤ c.offset + c.pieceprec_arr.length := Nat.le_of_not_lt hnot.1
      have hout : ∀ i < c.pieceprec_arr.length, ∀ p < n, c.cursidxToPieceidx i ≠ p := by
        intro i hi p hp heq
        have hread := (h p hp i).2 ⟨hi, heq⟩
        rw [pieceidxToCursidx_of_le hge] at hread
        nomatch hread
      rcases hge.eq_or_lt with heq | hgt
      · have hoff : c.offset < n := Nat.lt_of_not_le fun hle => hnot.2 ⟨heq.symm, hle⟩
        refine hout 0 hpos c.offset hoff ?_
        rw [cursidxToPieceidx_of_not hcirc (by omega), Nat.zero_add, if_neg (by omega)]
      · refine hout (2 ^ w - c.offset) (by omega) 0 (by omega) ?_
        simp only [cursidxToPieceidx, if_neg hcirc, Nat.sub_add_cancel ho.le, Nat.mod_self]
        exact if_neg (by omega)

/-! ### Offsets which are positions -/

theorem fits_of_offset_lt (hn : 2 * n ≤ 2 ^ w) (h : c.offset < n) : c.Fits := by
  have hlen := c.size_le
  refine Or.inr ?_
  split_ifs
  · omega
  · exact Or.inl (by omega)

/-- The setter leaves a circular cursor with an offset which is a position. -/
theorem fits_setOffset (hn : 2 * n ≤ 2 ^ w) (hcirc : c.has_circularidx = true) (hpos : 0 < n)
    {new_offset : ℕ} (hnew : new_offset < 2 ^ w) : (c.setOffset new_offset hnew).Fits := by
  refine fits_of_offset_lt hn ?_
  show (if c.has_circularidx then new_offset % n else new_offset) < n
  rw [if_pos hcirc]
  exact Nat.mod_lt _ hpos

/-- The cursor without its words. -/
def toSlideCurs (c : SlideWord w n) (h : c.offset < n) : SlideCurs n where
  pieceprec_arr := c.pieceprec_arr
  offset := c.offset
  has_circularidx := c.has_circularidx
  size_le := c.size_le
  offset_lt := h

/-- An index has the same piece without the words. -/
theorem cursidxToPieceidx_toSlideCurs (h : c.offset < n) (hi : i + c.offset < 2 ^ w)
    (p : Fin n) : (c.toSlideCurs h).cursidxToPieceidx i = some p ↔ c.cursidxToPieceidx i = p := by
  have hn := c.nb_piece_lt
  have hp := p.isLt
  by_cases hcirc : c.has_circularidx = true
  · rw [cursidxToPieceidx_of_circularidx hcirc hi]
    simp only [SlideCurs.cursidxToPieceidx, toSlideCurs, hcirc, if_true, Option.some.injEq,
      Fin.ext_iff]
  · rw [cursidxToPieceidx_of_not hcirc hi]
    rw [SlideCurs.cursidxToPieceidx,
      if_neg (show ¬ (c.toSlideCurs h).has_circularidx = true from hcirc)]
    by_cases hlt : i + c.offset < n
    · rw [dif_pos (show i + (c.toSlideCurs h).offset < n from hlt), if_neg (Nat.not_le.2 hlt),
        Option.some.injEq, Fin.ext_iff]
      rfl
    · rw [dif_neg (show ¬ i + (c.toSlideCurs h).offset < n from hlt), if_pos (Nat.le_of_not_lt hlt),
        outOfRange]
      exact iff_of_false (by simp) (by omega)

/-- The precedence which the cursor gives to a piece is the same one. -/
theorem pieceprec_toSlideCurs (hn : 2 * n ≤ 2 ^ w) (h : c.offset < n) (p : Fin n) :
    (c.toSlideCurs h).pieceprec p = c.pieceprec p := by
  have hlen := c.size_le
  have hp := p.isLt
  have hwrap : c.wrapped p = if c.has_circularidx ∧ p < c.offset then p.val + n else p.val := by
    rw [wrapped]
    split_ifs
    · exact Nat.mod_eq_of_lt (by omega)
    · rfl
  have hend : (c.offset + c.pieceprec_arr.length) % 2 ^ w = c.offset + c.pieceprec_arr.length :=
    Nat.mod_eq_of_lt (by omega)
  have hdef : (c.toSlideCurs h).pieceprec p = if c.wrapped p < c.offset then Pieceprec.notneeded
      else c.pieceprec_arr.getD (c.wrapped p - c.offset) Pieceprec.notneeded := by
    rw [hwrap]
    rfl
  rw [hdef]
  simp only [pieceprec, hend]
  split_ifs with hlt hge
  · rfl
  · exact List.getD_eq_default _ _ (by omega)
  · rfl

/-! ### One piece and all of them -/

theorem length_putPrec (c : SlideWord w n) (arr : List Pieceprec) (i : ℕ) :
    (c.putPrec arr i).length = arr.length := by
  simp only [putPrec]
  split_ifs
  · rfl
  · exact List.length_set

/-- A turn of the loop changes the entry of its piece only. -/
theorem getD_putPrec {arr : List Pieceprec} (harr : arr.length = n) (hp : p < n) :
    (c.putPrec arr i).getD p Pieceprec.notneeded =
      if c.cursidxToPieceidx i = p then
        max (arr.getD p Pieceprec.notneeded) (c.pieceprec_arr.getD i Pieceprec.notneeded)
      else arr.getD p Pieceprec.notneeded := by
  have hn := c.nb_piece_lt
  simp only [putPrec]
  by_cases hout : c.cursidxToPieceidx i = outOfRange w
  · rw [if_pos hout, if_neg]
    rw [hout, outOfRange]
    omega
  · rw [if_neg hout, List.getD_eq_getElem?_getD, List.getElem?_set]
    by_cases heq : c.cursidxToPieceidx i = p
    · rw [if_pos heq, if_pos heq, if_pos (by omega), heq]
      rfl
    · rw [if_neg heq, if_neg heq, List.getD_eq_getElem?_getD]

/-- The loop over an array collects the entries of the indexes of each piece. -/
theorem getD_foldl_putPrec (l : List ℕ) {arr : List Pieceprec} (harr : arr.length = n)
    (hp : p < n) : (l.foldl c.putPrec arr).length = n ∧
      (l.foldl c.putPrec arr).getD p Pieceprec.notneeded =
        ((l.filter fun i => c.cursidxToPieceidx i = p).map fun i =>
          c.pieceprec_arr.getD i Pieceprec.notneeded).foldl max
            (arr.getD p Pieceprec.notneeded) := by
  induction l generalizing arr with
  | nil => exact ⟨harr, rfl⟩
  | cons i l ih =>
    obtain ⟨hlen, hget⟩ := ih ((c.length_putPrec arr i).trans harr)
    refine ⟨hlen, ?_⟩
    rw [List.foldl_cons, hget, getD_putPrec harr hp, List.filter_cons]
    by_cases heq : c.cursidxToPieceidx i = p
    · rw [if_pos heq, if_pos (decide_eq_true heq), List.map_cons, List.foldl_cons]
    · rw [if_neg heq, if_neg (by simp [heq])]

theorem max_notneeded (prec : Pieceprec) : max prec Pieceprec.notneeded = prec := by
  show (if prec ≤ Pieceprec.notneeded then Pieceprec.notneeded else prec) = prec
  split_ifs with hle
  · exact (UInt64.le_antisymm hle UInt64.zero_le).symm
  · rfl

/-- With both conversions inverse, an array has one entry for a piece, or none. -/
theorem filter_cursidxToPieceidx (h : c.Fits) (hp : p < n) :
    (List.range c.pieceprec_arr.length).filter (fun i => c.cursidxToPieceidx i = p) =
      (c.pieceidxToCursidx p).toList := by
  cases hread : c.pieceidxToCursidx p with
  | none =>
    rw [Option.toList_none, List.filter_eq_nil_iff]
    intro i hi hpiece
    have hsome := (h.inverse hp).2 ⟨List.mem_range.1 hi, of_decide_eq_true hpiece⟩
    rw [hread] at hsome
    nomatch hsome
  | some j =>
    obtain ⟨hj, hpiece⟩ := (h.inverse hp).1 hread
    have hiff : ∀ i ∈ List.range c.pieceprec_arr.length,
        decide (c.cursidxToPieceidx i = p) = (i == j) := by
      intro i hi
      rw [Bool.eq_iff_iff, decide_eq_true_iff, beq_iff_eq]
      refine ⟨fun heq => ?_, fun heq => heq ▸ hpiece⟩
      have hsome := (h.inverse hp).2 ⟨List.mem_range.1 hi, heq⟩
      exact Option.some.inj (hsome.symm.trans hread)
    rw [List.filter_congr hiff, List.filter_beq,
      List.count_eq_one_of_mem List.nodup_range (List.mem_range.2 hj)]
    rfl

/-- The loop over the array of a cursor. -/
theorem getD_foldl_range (h : c.Fits) {arr : List Pieceprec} (harr : arr.length = n)
    (hp : p < n) :
    ((List.range c.pieceprec_arr.length).foldl c.putPrec arr).getD p Pieceprec.notneeded =
      max (arr.getD p Pieceprec.notneeded) (c.pieceprec p) := by
  rw [(getD_foldl_putPrec _ harr hp).2, filter_cursidxToPieceidx h hp, pieceprec_eq]
  cases c.pieceidxToCursidx p with
  | none => exact (max_notneeded _).symm
  | some j => rfl

theorem getD_pieceprecArr (h : ∀ c ∈ curs_db, c.Fits) {arr : List Pieceprec}
    (harr : arr.length = n) (prec : Pieceprec) (hprec : arr.getD p Pieceprec.notneeded = prec)
    (hp : p < n) :
    (curs_db.foldl (fun pieceprec_arr c =>
      (List.range c.pieceprec_arr.length).foldl c.putPrec pieceprec_arr) arr)[p]? =
    some (curs_db.foldl (fun max_pieceprec c => max max_pieceprec (c.pieceprec p)) prec) := by
  induction curs_db generalizing arr prec with
  | nil =>
    have hlt : p < arr.length := by omega
    rw [List.foldl_nil, List.foldl_nil, List.getElem?_eq_getElem hlt, ← hprec]
    rw [List.getD_eq_getElem _ _ hlt]
  | cons c curs_db ih =>
    rw [List.foldl_cons, List.foldl_cons]
    refine ih (fun d hd => h d (List.mem_cons_of_mem c hd)) (getD_foldl_putPrec _ harr hp).1 _ ?_
    rw [getD_foldl_range (h c List.mem_cons_self) harr hp, hprec]

theorem Fits.entry {prec : Pieceprec} (h : c.Fits) (hp : p < n)
    (hget : c.pieceprec_arr[i]? = some prec) (hpiece : c.cursidxToPieceidx i = p) :
    c.pieceprec p = prec := by
  have hi := (List.getElem?_eq_some_iff.1 hget).1
  rw [pieceprec_eq, (h.inverse hp).2 ⟨hi, hpiece⟩, Option.elim_some, List.getD_eq_getElem?_getD,
    hget, Option.getD_some]

theorem Fits.notneeded (h : c.Fits) (hp : p < n)
    (hnone : ∀ i < c.pieceprec_arr.length, c.cursidxToPieceidx i ≠ p) :
    c.pieceprec p = Pieceprec.notneeded := by
  rw [pieceprec_eq]
  cases hread : c.pieceidxToCursidx p with
  | none => rfl
  | some j =>
    obtain ⟨hj, hpiece⟩ := (h.inverse hp).1 hread
    exact absurd hpiece (hnone j hj)

/-- Entries which are distinct and needed tell their pieces. -/
theorem Fits.entry_iff {prec : Pieceprec} (h : c.Fits) (hnodup : c.pieceprec_arr.Nodup)
    (hneeded : Pieceprec.notneeded ∉ c.pieceprec_arr) (hp : p < n)
    (hget : c.pieceprec_arr[i]? = some prec) :
    c.pieceprec p = prec ↔ c.cursidxToPieceidx i = p := by
  refine ⟨fun heq => ?_, h.entry hp hget⟩
  have hmem : prec ∈ c.pieceprec_arr := List.mem_of_getElem? hget
  rw [pieceprec_eq] at heq
  cases hread : c.pieceidxToCursidx p with
  | none =>
    rw [hread, Option.elim_none] at heq
    exact absurd (heq ▸ hmem) hneeded
  | some j =>
    obtain ⟨hj, hpiece⟩ := (h.inverse hp).1 hread
    rw [hread, Option.elim_some, List.getD_eq_getElem _ _ hj] at heq
    obtain ⟨hi, hget'⟩ := List.getElem?_eq_some_iff.1 hget
    have hij : i = j := (hnodup.getElem_inj_iff).1 (hget'.trans heq.symm)
    rw [hij, hpiece]

/-- **The cursors do what they are for** exactly when each array ends before it is around for the
second time, and before the end of the word. -/
theorem slides_iff (curs_db : List (SlideWord w n)) : Slides curs_db ↔ ∀ c ∈ curs_db, c.Fits := by
  constructor
  · intro h c hc
    exact fits_of_inverse (h.inverse c hc)
  · intro h
    exact {
      inverse := fun c hc p hp i => (h c hc).inverse hp
      entry := fun c hc p hp i prec hget => (h c hc).entry hp hget
      notneeded := fun c hc p hp => (h c hc).notneeded hp
      entry_iff := fun c hc hnodup hneeded p hp i prec hget =>
        (h c hc).entry_iff hnodup hneeded hp hget
      agree := fun p hp => by
        refine getD_pieceprecArr h (List.length_replicate) _ ?_ hp
        rw [List.getD_eq_getElem?_getD, List.getElem?_replicate, if_pos hp]
        rfl }

/-- Three pieces, and one entry from the eighth on, which is the second one. -/
theorem not_slides : ¬ ∀ (w n : ℕ) (curs_db : List (SlideWord w n)), Slides curs_db := by
  intro h
  have hagree := (h 64 3 [⟨[5], 7, true, by decide, by decide, by decide⟩]).agree 1 (by decide)
  revert hagree
  decide

end SlideWord

end Neoip
