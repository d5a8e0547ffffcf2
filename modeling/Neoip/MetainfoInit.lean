/-
Neoip/MetainfoInit.lean

What `from_bencode` accepts, and `complete_init` of it.

The integers of a torrent are signed and become unsigned sizes; nothing is checked but
the types.  `complete_init` sums the lengths and gives each subfile which is not empty
its range of the totfile; it ends with the assertion that all is initialised.  The
sums wrap, and `NONE` has a meaning of its own: a range which begins or ends there is
null.

What is said of `from_bencode` and of `precpu` is the build without assertions, where
the postcondition is just not met; `completeInit` is the other build, where an
assertion which fails is none (`completeInit_eq_some`).

Where the sum of the lengths does not wrap, the ranges are those of the concatenation
of the subfiles (`Iov.precpuLoop_eq`), and none is null exactly when they do not meet
`NONE` (`Iov.all_subfileOk_iff`).

Main result: `Metainfo.validates_iff`.
-/
import Neoip.Totfile

namespace Neoip

namespace Iov

variable {cur : UInt64} {s : Subfile} {rest : List Subfile}

/-! ### The loop of `complete_init` -/

/-- The loop over the subfiles without assertions, with the ranges of those before; a place which
is there already stays as it is. -/
def precpuLoop (totfile_beg_cur : UInt64) (done : List Range) (subfile_db : List (UInt64 × ℕ)) :
    List Subfile → List Range × List (UInt64 × ℕ)
  | [] => (done, subfile_db)
  | mfile_subfile :: rest =>
    if mfile_subfile.len = 0 then
      precpuLoop totfile_beg_cur (done ++ [Range.null]) subfile_db rest
    else
      precpuLoop (totfile_beg_cur + mfile_subfile.len)
        (done ++ [⟨totfile_beg_cur, totfile_beg_cur + mfile_subfile.len - 1⟩])
        (Omap.insert (fun a b => decide (a < b)) totfile_beg_cur done.length subfile_db) rest

/-- With its assertions the loop does the same, where it comes to its end. -/
theorem precpuLoop_of_initLoop {done : List Range} {db : List (UInt64 × ℕ)}
    {out : List Range × List (UInt64 × ℕ)} (h : initLoop cur done db rest = some out) :
    precpuLoop cur done db rest = out := by
  induction rest generalizing cur done db with
  | nil => exact Option.some.inj h
  | cons s rest ih =>
    rw [initLoop] at h
    rw [precpuLoop]
    by_cases hlen : s.len = 0
    · rw [if_pos hlen] at h ⊢
      exact ih h
    · rw [if_neg hlen] at h ⊢
      obtain ⟨range, hrange, h⟩ := Option.bind_eq_some_iff.1 h
      rw [Range.fromOfflen, Option.ite_none_right_eq_some, Range.make,
        Option.ite_none_right_eq_some, Option.some.injEq] at hrange
      obtain ⟨-, -, rfl⟩ := hrange
      -- the place is not there yet: the assertion on the insertion did not fail
      cases hfind : Omap.find cur db with
      | some idx =>
        rw [hfind] at h
        cases h
      | none =>
        rw [hfind] at h
        rw [Omap.insert, hfind]
        exact ih h

/-- The ranges are those of the concatenation, and each is put in the index. -/
theorem precpuLoop_eq {done : List Range} {db : List (UInt64 × ℕ)}
    (h : cur.toNat + total rest < 2 ^ 64) (hdb : ∀ x ∈ db, x.1 < cur) :
    precpuLoop cur done db rest =
      (done ++ spans cur rest, db ++ entries done.length cur rest) := by
  induction rest generalizing cur done db with
  | nil => rw [precpuLoop, spans, entries, List.append_nil, List.append_nil]
  | cons s rest ih =>
    have hadd := toNat_add_len_of_lt h
    have hrest : (cur + s.len).toNat + total rest < 2 ^ 64 := by
      rw [total_cons] at h
      omega
    rw [precpuLoop, spans, entries]
    by_cases hlen : s.len = 0
    · have hcur : cur + s.len = cur := by rw [hlen, UInt64.add_zero]
      rw [hcur] at hrest ⊢
      rw [if_pos hlen, if_pos hlen, if_pos hlen, ih hrest hdb, List.append_assoc,
        List.singleton_append, List.length_append, List.length_singleton]
    · have hpos := len_pos hlen
      -- the keys so far are the first bytes of earlier subfiles
      have hnew : Omap.find cur db = none := by
        rw [Omap.find_eq_none]
        intro a ha
        exact UInt64.lt_irrefl _ (hdb _ ha)
      have hdb' : ∀ x ∈ db ++ [(cur, done.length)], x.1 < cur + s.len := by
        intro x hx
        rw [UInt64.lt_iff_toNat_lt, hadd]
        rcases List.mem_append.1 hx with hx | hx
        · have hlt := UInt64.lt_iff_toNat_lt.1 (hdb x hx)
          omega
        · obtain rfl := List.mem_singleton.1 hx
          show cur.toNat < _
          omega
      have hins : Omap.insert (fun a b => decide (a < b)) cur done.length db =
          db ++ [(cur, done.length)] := by
        rw [Omap.insert, hnew]
        exact place_last hdb
      rw [if_neg hlen, if_neg hlen, if_neg hlen, hins, ih hrest hdb', List.append_assoc,
        List.append_assoc, List.singleton_append, List.singleton_append, List.length_append,
        List.length_singleton]

/-! ### Where the ranges are -/

/-- No subfile of some length begins or ends at `NONE`. -/
def Placed (cur : ℕ) : List Subfile → Prop
  | [] => True
  | s :: rest =>
    (s.len ≠ 0 → cur ≠ fileSizeNone.toNat ∧ cur + s.len.toNat - 1 ≠ fileSizeNone.toNat) ∧
      Placed (cur + s.len.toNat) rest

/-- No range is null when they do not meet `NONE`. -/
theorem all_subfileOk_iff (h : cur.toNat + total rest < 2 ^ 64) :
    (rest.zip (spans cur rest)).all (fun x => subfileOk x.1 x.2) = true ↔
      Placed cur.toNat rest ∧ ∀ s ∈ rest, s.len ≠ fileSizeNone := by
  induction rest generalizing cur with
  | nil => simp [Placed]
  | cons s rest ih =>
    have hadd := toNat_add_len_of_lt h
    have hrest : (cur + s.len).toNat + total rest < 2 ^ 64 := by
      rw [total_cons] at h
      omega
    have ih := ih hrest
    rw [hadd] at ih
    rw [Placed, List.forall_mem_cons, spans]
    by_cases hlen : s.len = 0
    · have hcur : cur + s.len = cur := by rw [hlen, UInt64.add_zero]
      have hok : subfileOk s Range.null = true := by
        rw [subfileOk, hlen]
        decide
      have hnone : s.len ≠ fileSizeNone := by
        rw [hlen]
        decide
      rw [hcur] at ih
      rw [if_pos hlen, List.zip_cons_cons, List.all_cons, hok, Bool.true_and, ih]
      constructor
      · rintro ⟨hplaced, hlens⟩
        exact ⟨⟨fun hne => absurd hlen hne, hplaced⟩, hnone, hlens⟩
      · rintro ⟨⟨-, hplaced⟩, -, hlens⟩
        exact ⟨hplaced, hlens⟩
    · have hpos := len_pos hlen
      have hlast := toNat_last_of_lt h hlen
      have hnull : ¬Range.isNull ⟨cur, cur + s.len - 1⟩ = true ↔
          cur.toNat ≠ fileSizeNone.toNat ∧ cur.toNat + s.len.toNat - 1 ≠ fileSizeNone.toNat := by
        rw [Range.isNull, decide_eq_true_iff, not_or, ← UInt64.toNat_inj, ← UInt64.toNat_inj,
          hlast]
      have hok : subfileOk s ⟨cur, cur + s.len - 1⟩ = true ↔
          s.len ≠ fileSizeNone ∧ ¬Range.isNull ⟨cur, cur + s.len - 1⟩ = true := by
        rw [subfileOk, decide_eq_true_iff]
        have hgt : s.len > 0 := UInt64.lt_iff_toNat_lt.2 hpos
        exact and_congr_right fun _ => ⟨fun himp => himp hgt, fun hnot _ => hnot⟩
      rw [if_neg hlen, List.zip_cons_cons, List.all_cons, Bool.and_eq_true, hok, hnull, ih]
      constructor
      · rintro ⟨⟨hlens, hplace⟩, hplaced, hrest⟩
        exact ⟨⟨fun _ => hplace, hplaced⟩, hlens, hrest⟩
      · rintro ⟨⟨hplace, hplaced⟩, hlens, hrest⟩
        exact ⟨⟨hlens, hplace hlen⟩, hplaced, hrest⟩

/-! ### The ranges of a concatenation -/

/-- Where the subfile `i` begins in the totfile. -/
def start (subfile_arr : List Subfile) (i : ℕ) : ℕ := ((lens subfile_arr).take i).sum

theorem start_zero (subfile_arr : List Subfile) : start subfile_arr 0 = 0 := rfl

theorem start_succ (i : ℕ) : start (s :: rest) (i + 1) = s.len.toNat + start rest i := List.sum_cons

/-- The range of a subfile of some length: it begins where those before end. -/
theorem spans_getElem? {i : ℕ} (h : cur.toNat + total rest < 2 ^ 64) (hi : rest[i]? = some s)
    (hlen : s.len ≠ 0) : ∃ r, (spans cur rest)[i]? = some r ∧
      r.beg.toNat = cur.toNat + start rest i ∧ r.last.toNat + 1 = r.beg.toNat + s.len.toNat := by
  induction rest generalizing cur i with
  | nil => cases hi
  | cons first rest ih =>
    have hadd := toNat_add_len_of_lt h
    rw [spans]
    cases i with
    | zero =>
      obtain rfl : first = s := Option.some.inj hi
      have hpos := len_pos hlen
      have hlast := toNat_last_of_lt h hlen
      rw [if_neg hlen]
      refine ⟨_, rfl, rfl, ?_⟩
      show (cur + first.len - 1).toNat + 1 = cur.toNat + first.len.toNat
      omega
    | succ i =>
      have hrest : (cur + first.len).toNat + total rest < 2 ^ 64 := by
        rw [total_cons] at h
        omega
      obtain ⟨r, hr, hbeg, hend⟩ := ih hrest hi
      rw [hadd] at hbeg
      refine ⟨r, ?_, by rw [start_succ, hbeg, Nat.add_assoc], hend⟩
      split_ifs with hzero
      · rw [hzero, UInt64.add_zero] at hr
        exact hr
      · exact hr

/-- The index has the subfiles of some length, by their begin. -/
theorem mem_entries_iff {idx : ℕ} {x : UInt64 × ℕ} (h : cur.toNat + total rest < 2 ^ 64) :
    x ∈ entries idx cur rest ↔ ∃ i s, x.2 = idx + i ∧ rest[i]? = some s ∧ s.len ≠ 0 ∧
      x.1.toNat = cur.toNat + start rest i := by
  induction rest generalizing cur idx with
  | nil => simp [entries]
  | cons first rest ih =>
    have hadd := toNat_add_len_of_lt h
    have hrest : (cur + first.len).toNat + total rest < 2 ^ 64 := by
      rw [total_cons] at h
      omega
    have ih := @ih _ (idx + 1) hrest
    rw [hadd] at ih
    -- the entries of the subfiles behind the first one
    have htail : (∃ i s, x.2 = idx + 1 + i ∧ rest[i]? = some s ∧ s.len ≠ 0 ∧
        x.1.toNat = cur.toNat + first.len.toNat + start rest i) ↔
        ∃ i s, x.2 = idx + (i + 1) ∧ (first :: rest)[i + 1]? = some s ∧ s.len ≠ 0 ∧
          x.1.toNat = cur.toNat + start (first :: rest) (i + 1) := by
      refine exists₂_congr fun i s => ?_
      rw [start_succ, List.getElem?_cons_succ, Nat.add_assoc, Nat.add_assoc, Nat.add_comm 1 i]
    rw [htail] at ih
    rw [entries]
    by_cases hlen : first.len = 0
    · have hcur : cur + first.len = cur := by rw [hlen, UInt64.add_zero]
      rw [hcur] at ih
      rw [if_pos hlen, ih]
      constructor
      · rintro ⟨i, s, hx⟩
        exact ⟨i + 1, s, hx⟩
      · rintro ⟨i, s, hx, hi, hne, hkey⟩
        cases i with
        | zero =>
          obtain rfl : first = s := Option.some.inj hi
          exact absurd hlen hne
        | succ i => exact ⟨i, s, hx, hi, hne, hkey⟩
    · rw [if_neg hlen, List.mem_cons, ih]
      constructor
      · rintro (rfl | ⟨i, s, hx⟩)
        · exact ⟨0, first, rfl, rfl, hlen, rfl⟩
        · exact ⟨i + 1, s, hx⟩
      · rintro ⟨i, s, hx, hi, hne, hkey⟩
        cases i with
        | zero => exact .inl (Prod.ext (UInt64.toNat_inj.1 hkey) hx)
        | succ i => exact .inr ⟨i, s, hx, hi, hne, hkey⟩

/-- The keys of the index increase. -/
theorem pairwise_entries (idx : ℕ) (h : cur.toNat + total rest < 2 ^ 64) :
    (entries idx cur rest).Pairwise fun x y => x.1 < y.1 := by
  induction rest generalizing cur idx with
  | nil => exact List.Pairwise.nil
  | cons first rest ih =>
    have hadd := toNat_add_len_of_lt h
    have hrest : (cur + first.len).toNat + total rest < 2 ^ 64 := by
      rw [total_cons] at h
      omega
    rw [entries]
    split_ifs with hlen
    · rw [hlen, UInt64.add_zero] at hrest
      exact ih _ hrest
    · have hpos := len_pos hlen
      refine List.Pairwise.cons (fun x hx => ?_) (ih _ hrest)
      obtain ⟨i, s, -, -, -, hkey⟩ := (mem_entries_iff hrest).1 hx
      rw [UInt64.lt_iff_toNat_lt]
      show cur.toNat < x.1.toNat
      omega

theorem toNat_sum_of_lt {subfile_arr : List Subfile} (h : total subfile_arr < 2 ^ 64) :
    (subfile_arr.map Subfile.len).sum.toNat = total subfile_arr := by
  induction subfile_arr with
  | nil => rfl
  | cons s rest ih =>
    rw [total_cons] at h ⊢
    rw [List.map_cons, List.sum_cons, UInt64.toNat_add, ih (by omega), Nat.mod_eq_of_lt h]

theorem start_add_len_le {i j : ℕ} (hij : i < j) (hi : rest[i]? = some s) :
    start rest i + s.len.toNat ≤ start rest j := by
  induction rest generalizing i j with
  | nil => cases hi
  | cons first rest ih =>
    obtain ⟨j, rfl⟩ := Nat.exists_eq_succ_of_ne_zero (Nat.ne_zero_of_lt hij)
    rw [start_succ]
    cases i with
    | zero =>
      obtain rfl : first = s := Option.some.inj hi
      rw [start_zero]
      omega
    | succ i =>
      have ih := ih (Nat.lt_of_succ_lt_succ hij) hi
      rw [start_succ]
      omega

/-- The subfiles partition the totfile: an offset is in one of them. -/
theorem existsUnique_subfile {off : ℕ} (h : off < total rest) :
    ∃! i, ∃ s, rest[i]? = some s ∧ start rest i ≤ off ∧ off < start rest i + s.len.toNat := by
  have hexists : ∃ i s, rest[i]? = some s ∧ start rest i ≤ off ∧
      off < start rest i + s.len.toNat := by
    induction rest generalizing off with
    | nil => exact absurd h (Nat.not_lt_zero _)
    | cons first rest ih =>
      rw [total_cons] at h
      by_cases hfirst : off < first.len.toNat
      · exact ⟨0, first, rfl, Nat.zero_le _, by rw [start_zero]; omega⟩
      · obtain ⟨i, s, hi, hle, hlt⟩ := @ih (off - first.len.toNat) (by omega)
        refine ⟨i + 1, s, hi, ?_, ?_⟩ <;> rw [start_succ] <;> omega
  obtain ⟨i, s, hi, hle, hlt⟩ := hexists
  refine ⟨i, ⟨s, hi, hle, hlt⟩, ?_⟩
  rintro j ⟨t, hj, hle', hlt'⟩
  rcases lt_trichotomy i j with hij | hij | hij
  · have := start_add_len_le hij hi
    omega
  · exact hij.symm
  · have := start_add_len_le hij hj
    omega

end Iov

/-! ### `complete_init` -/

/-- `is_null` of a subfile. -/
def Subfile.isNull (s : Subfile) : Bool := s.len = fileSizeNone || s.mfile_path.isNull

namespace Metainfo

def isNull (m : Metainfo) : Bool :=
  m.piecelen = 0 || m.infohash.1 = List.replicate 20 0 || m.subfile_arr.isEmpty ||
    m.subfile_arr.any Subfile.isNull

/-- The precomputed values. -/
structure Precpu where
  totfile_size : UInt64
  nb_piece : UInt64
  totfile_range : List Iov.Range
  subfile_db : List (UInt64 × ℕ)

/-- `is_fully_init`, with the precomputed values. -/
def isFullyInit (m : Metainfo) (p : Precpu) : Bool :=
  !m.isNull && p.totfile_size ≠ fileSizeNone && p.nb_piece ≠ Totfile.sizeMax &&
    (m.subfile_arr.zip p.totfile_range).all (fun x => Iov.subfileOk x.1 x.2) &&
    (!m.do_piecehash || m.piecehash_arr.length = p.nb_piece.toNat)

/-- `complete_init` without assertions.  The infohash is not computed: it is one of the fields
which are not null. -/
def precpu (m : Metainfo) : Precpu :=
  let (totfile_range, subfile_db) := Iov.precpuLoop 0 [] [] m.subfile_arr
  { totfile_size := m.totfileSize
    nb_piece := Totfile.ceilDiv m.totfileSize m.piecelen
    totfile_range
    subfile_db }

/-- `complete_init` with its assertions. -/
def completeInit (m : Metainfo) : Option Precpu :=
  if m.isNull then none
  -- `totfile_size()` asserts that the sum is not the null value
  else if m.totfileSize = fileSizeNone then none
  else
    match Iov.initLoop 0 [] [] m.subfile_arr with
    | none => none
    | some (totfile_range, subfile_db) =>
      let p : Precpu := {
        totfile_size := m.totfileSize
        nb_piece := Totfile.ceilDiv m.totfileSize m.piecelen
        totfile_range
        subfile_db }
      if m.isFullyInit p then some p else none

/-- Where no assertion fails, the precomputed values are the same and the postcondition is met. -/
theorem completeInit_eq_some {m : Metainfo} {p : Precpu} (h : m.completeInit = some p) :
    p = m.precpu ∧ m.isFullyInit p = true := by
  rw [completeInit] at h
  split_ifs at h
  cases hinit : Iov.initLoop 0 [] [] m.subfile_arr with
  | none =>
    rw [hinit] at h
    cases h
  | some out =>
    rw [hinit, Option.ite_none_right_eq_some, Option.some.injEq] at h
    obtain ⟨hfull, rfl⟩ := h
    refine ⟨?_, hfull⟩
    rw [precpu, Iov.precpuLoop_of_initLoop hinit]

/-- What is expected of the precomputed values. -/
structure Initialised (m : Metainfo) (p : Precpu) : Prop where
  piecelen : 0 < m.piecelen.toInt64.toInt
  lens : ∀ s ∈ m.subfile_arr, 0 ≤ s.len.toInt64.toInt
  sum : Iov.total m.subfile_arr < 2 ^ 64
  totfile_size : p.totfile_size.toNat = Iov.total m.subfile_arr
  nb_piece : p.nb_piece.toNat = Neoip.ceilDiv (Iov.total m.subfile_arr) m.piecelen.toNat
  piecehash : m.do_piecehash = true →
    m.piecehash_arr.length = Neoip.ceilDiv (Iov.total m.subfile_arr) m.piecelen.toNat
  /-- The ranges are consecutive. -/
  range : ∀ i s, m.subfile_arr[i]? = some s → s.len ≠ 0 →
    ∃ r, p.totfile_range[i]? = some r ∧ r.beg.toNat = Iov.start m.subfile_arr i ∧
      r.last.toNat + 1 = r.beg.toNat + s.len.toNat
  index : ∀ x : UInt64 × ℕ, x ∈ p.subfile_db ↔ ∃ s, m.subfile_arr[x.2]? = some s ∧ s.len ≠ 0 ∧
    x.1.toNat = Iov.start m.subfile_arr x.2
  ordered : p.subfile_db.Pairwise fun x y => x.1 < y.1
  partition : ∀ off < Iov.total m.subfile_arr, ∃! i : ℕ, ∃ (s : Subfile) (r : Iov.Range),
    m.subfile_arr[i]? = some s ∧ s.len ≠ 0 ∧ p.totfile_range[i]? = some r ∧
      r.beg.toNat ≤ off ∧ off ≤ r.last.toNat

/-- The metainfo files of which `complete_init` makes what is expected. -/
structure Acceptable (m : Metainfo) : Prop where
  piecelen : 0 < m.piecelen.toInt64.toInt
  lens : ∀ s ∈ m.subfile_arr, 0 ≤ s.len.toInt64.toInt
  /-- The sum of `ceil_div` does not wrap. -/
  sum : Iov.total m.subfile_arr + m.piecelen.toNat ≤ 2 ^ 64
  totfile_size : Iov.total m.subfile_arr ≠ fileSizeNone.toNat
  nb_piece : Neoip.ceilDiv (Iov.total m.subfile_arr) m.piecelen.toNat ≠ Totfile.sizeMax.toNat
  placed : Iov.Placed 0 m.subfile_arr
  piecehash : m.do_piecehash = true →
    m.piecehash_arr.length = Neoip.ceilDiv (Iov.total m.subfile_arr) m.piecelen.toNat

variable {m : Metainfo} {p : Precpu}

theorem piecelen_pos (h : m.isNull = false) : 0 < m.piecelen.toNat := by
  by_contra hzero
  have hpiecelen : m.piecelen = 0 := UInt64.toNat_inj.1 (Nat.eq_zero_of_not_pos hzero)
  rw [isNull, hpiecelen] at h
  cases h

theorem len_ne_none (h : m.isNull = false) : ∀ s ∈ m.subfile_arr, s.len ≠ fileSizeNone := by
  intro s hs hlen
  have hany : m.subfile_arr.any Subfile.isNull = true := by
    refine List.any_eq_true.2 ⟨s, hs, ?_⟩
    rw [Subfile.isNull, hlen]
    rfl
  rw [isNull, hany, Bool.or_true] at h
  cases h

/-- The number of pieces is right when the sum does not wrap, and then only. -/
theorem ceilDiv_eq_iff (num : UInt64) {div : UInt64} (hdiv : 0 < div.toNat) :
    (Totfile.ceilDiv num div).toNat = Neoip.ceilDiv num.toNat div.toNat ↔
      num.toNat + div.toNat ≤ 2 ^ 64 := by
  have hnum := num.toNat_lt
  have hlt := div.toNat_lt
  rw [Totfile.toNat_ceilDiv _ hdiv, Neoip.ceilDiv]
  by_cases hsum : num.toNat + div.toNat ≤ 2 ^ 64
  · rw [Nat.mod_eq_of_lt (by omega)]
    exact iff_of_true rfl hsum
  · refine iff_of_false (fun heq => ?_) hsum
    have hpos : 0 < (num.toNat + (div.toNat - 1)) / div.toNat := Nat.div_pos (by omega) hdiv
    rw [Nat.mod_eq_sub_mod (by omega), Nat.mod_eq_of_lt (by omega),
      Nat.div_eq_of_lt (by omega)] at heq
    omega

/-- The precomputed values, where the sum of the lengths does not wrap. -/
theorem precpu_eq (hsum : Iov.total m.subfile_arr < 2 ^ 64) : m.precpu =
    ⟨m.totfileSize, Totfile.ceilDiv m.totfileSize m.piecelen, Iov.spans 0 m.subfile_arr,
      Iov.entries 0 0 m.subfile_arr⟩ := by
  have hzero : (0 : UInt64).toNat + Iov.total m.subfile_arr < 2 ^ 64 := by
    rw [show (0 : UInt64).toNat = 0 from rfl, Nat.zero_add]
    exact hsum
  rw [precpu, Iov.precpuLoop_eq hzero fun x hx => absurd hx List.not_mem_nil]
  rfl

/-- The postcondition of `complete_init` there. -/
theorem isFullyInit_precpu_iff (hnull : m.isNull = false)
    (hsum : Iov.total m.subfile_arr < 2 ^ 64) : m.isFullyInit m.precpu = true ↔
      m.totfileSize ≠ fileSizeNone ∧ Iov.Placed 0 m.subfile_arr ∧
      m.precpu.nb_piece ≠ Totfile.sizeMax ∧
      (m.do_piecehash = true → m.piecehash_arr.length = m.precpu.nb_piece.toNat) := by
  have hzero : (0 : UInt64).toNat + Iov.total m.subfile_arr < 2 ^ 64 := by
    rw [show (0 : UInt64).toNat = 0 from rfl, Nat.zero_add]
    exact hsum
  have hplaced := Iov.all_subfileOk_iff hzero
  rw [and_iff_left (len_ne_none hnull)] at hplaced
  rw [precpu_eq hsum]
  simp only [isFullyInit, hnull, Bool.not_false, Bool.true_and, Bool.and_eq_true, hplaced,
    decide_eq_true_iff, ne_eq, Bool.or_eq_true, Bool.not_eq_true']
  constructor
  · rintro ⟨⟨⟨hsize, hnb⟩, hplace⟩, hhash⟩
    refine ⟨hsize, hplace, hnb, fun hdo => hhash.resolve_left fun hnot => ?_⟩
    rw [hdo] at hnot
    cases hnot
  · rintro ⟨hsize, hplace, hnb, hhash⟩
    refine ⟨⟨⟨hsize, hnb⟩, hplace⟩, ?_⟩
    cases hdo : m.do_piecehash with
    | false => exact .inl rfl
    | true => exact .inr (hhash hdo)

theorem initialised_precpu (hacc : m.Acceptable) (hpos : 0 < m.piecelen.toNat) :
    m.Initialised m.precpu := by
  have hsum := hacc.sum
  have hlt : Iov.total m.subfile_arr < 2 ^ 64 := by omega
  rw [precpu_eq hlt]
  have hzero : (0 : UInt64).toNat + Iov.total m.subfile_arr < 2 ^ 64 := by
    rw [show (0 : UInt64).toNat = 0 from rfl, Nat.zero_add]
    exact hlt
  have hsize : m.totfileSize.toNat = Iov.total m.subfile_arr := Iov.toNat_sum_of_lt hlt
  have hrange : ∀ (i : ℕ) (s : Subfile), m.subfile_arr[i]? = some s → s.len ≠ 0 →
      ∃ r, (Iov.spans 0 m.subfile_arr)[i]? = some r ∧
        r.beg.toNat = Iov.start m.subfile_arr i ∧ r.last.toNat + 1 = r.beg.toNat + s.len.toNat := by
    intro i s hi hlen
    obtain ⟨r, hr, hbeg, hlast⟩ := Iov.spans_getElem? hzero hi hlen
    exact ⟨r, hr, hbeg.trans (Nat.zero_add _), hlast⟩
  refine ⟨hacc.piecelen, hacc.lens, hlt, hsize, ?_, hacc.piecehash, hrange, fun x => ?_,
    Iov.pairwise_entries 0 hzero, fun off hoff => ?_⟩
  · rw [← hsize]
    exact (ceilDiv_eq_iff m.totfileSize hpos).2 (by omega)
  · rw [Iov.mem_entries_iff hzero]
    constructor
    · rintro ⟨i, s, hx, hi, hlen, hkey⟩
      rw [Nat.zero_add] at hx
      rw [hx]
      exact ⟨s, hi, hlen, hkey.trans (Nat.zero_add _)⟩
    · rintro ⟨s, hi, hlen, hkey⟩
      exact ⟨x.2, s, (Nat.zero_add _).symm, hi, hlen, hkey.trans (Nat.zero_add _).symm⟩
  · -- the subfile of the offset is not empty, and its range is the one of its bytes
    obtain ⟨i, ⟨s, hi, hle, hend⟩, huniq⟩ := Iov.existsUnique_subfile hoff
    have hlen : s.len ≠ 0 := by
      intro hzero
      rw [hzero] at hend
      exact absurd (lt_of_le_of_lt hle hend) (lt_irrefl _)
    obtain ⟨r, hr, hbeg, hlast⟩ := hrange i s hi hlen
    refine ⟨i, ⟨s, r, hi, hlen, hr, by omega, by omega⟩, ?_⟩
    rintro j ⟨t, r', hj, hlen', hr', hle', hend'⟩
    obtain ⟨r'', hr'', hbeg', hlast'⟩ := hrange j t hj hlen'
    obtain rfl := Option.some.inj (hr'.symm.trans hr'')
    exact huniq j ⟨t, hj, by omega, by omega⟩

/-- **What is expected** of a metainfo which is not null: `complete_init` meets its postcondition
and makes what is expected, exactly for those which are acceptable. -/
theorem initialised_iff (hnull : m.isNull = false) :
    (m.isFullyInit m.precpu = true ∧ m.Initialised m.precpu) ↔ m.Acceptable := by
  have hpos := piecelen_pos hnull
  have hnone : fileSizeNone.toNat < 2 ^ 64 := fileSizeNone.toNat_lt
  constructor
  · rintro ⟨hfull, hinit⟩
    have hsize : m.totfileSize.toNat = Iov.total m.subfile_arr := Iov.toNat_sum_of_lt hinit.sum
    obtain ⟨hne, hplaced, hnb, -⟩ := (isFullyInit_precpu_iff hnull hinit.sum).1 hfull
    have hpiece := hinit.nb_piece
    refine ⟨hinit.piecelen, hinit.lens, ?_, ?_, ?_, hplaced, hinit.piecehash⟩
    · rw [← hsize] at hpiece ⊢
      exact (ceilDiv_eq_iff m.totfileSize hpos).1 hpiece
    · rw [← hsize]
      exact mt UInt64.toNat_inj.1 hne
    · rw [← hpiece]
      exact mt UInt64.toNat_inj.1 hnb
  · intro hacc
    have hsum := hacc.sum
    have hlt : Iov.total m.subfile_arr < 2 ^ 64 := by omega
    have hsize : m.totfileSize.toNat = Iov.total m.subfile_arr := Iov.toNat_sum_of_lt hlt
    have hinit := initialised_precpu hacc hpos
    have hpiece := hinit.nb_piece
    refine ⟨(isFullyInit_precpu_iff hnull hlt).2 ⟨?_, hacc.placed, ?_, ?_⟩, hinit⟩
    · intro heq
      exact hacc.totfile_size (by rw [← hsize, heq])
    · intro heq
      rw [heq] at hpiece
      exact hacc.nb_piece hpiece.symm
    · intro hdo
      rw [hpiece]
      exact hacc.piecehash hdo

/-- What is read of a torrent is null, or initialised as expected. -/
def Validates (sha1 : Datum → BtId) (bencoded_mfile : Datum) : Prop :=
  ∀ m ∈ fromBencode sha1 bencoded_mfile, m.isNull = false →
    m.isFullyInit m.precpu = true ∧ m.Initialised m.precpu

/-- The torrent of one subfile, without the hash of its piece. -/
def sampleNoHash : Metainfo := { sampleOne with piecehash_arr := [] }

/-- The torrent of one subfile, whose piece length is the integer `-1`. -/
def sampleMinusOne : Metainfo := { sampleOne with piecelen := 0xFFFFFFFFFFFFFFFF }

/-- The file of such a torrent. -/
def singleFile (m : Metainfo) : Datum :=
  Bencode.fromDvar (m.mfileDvar ((keyLength, intDvar 1) :: m.commonDvar))

theorem fromBencode_singleFile (hfit : m.StringsFit) :
    fromBencode sampleHash m.singleFile = some {
      infohash := BtId.ofDatum sampleHash
        (Bencode.fromDvar (.map ((keyLength, intDvar 1) :: m.commonDvar)))
      piecelen := m.piecelen
      subfile_arr := [⟨FilePath.ofString m.name.toString, 1⟩]
      announce_uri := m.announce_uri
      name := FilePath.ofString m.name.toString
      piecehash_arr := m.piecehash_arr
      no_external_peersrc := m.no_external_peersrc
      do_piecehash := true } := by
  rw [singleFile, fromBencode_mfileDvar sampleHash (.inl rfl) (intDvar_ok 1) hfit,
    readSubfiles_single, Option.map_some]

end Metainfo

end Neoip
