/-
Neoip/RateEstim.lean

The rate estimator: `rate_estim_t`.

It counts events by slices of `slice_delay`, in a rotating array of which the last
slice is the present one.  Nothing is done between two calls: a call first advances
the array up to the present, or resets it when all its slices are too old.  Until
the array is full the first slice stays.

The number of slices since the first valid one is converted to 32 bits, and the
counters are of type `size_t`.  A call which comes 2^32 slices after the first valid
one finds an array which seems fresh.

A date is a number of milliseconds.  An assertion which fails is `none`.

Main result: `RateEstim.always_estimates_iff`, the runs in which the sum is that of
the updates of the window.
-/
import Neoip.Rotating
import Neoip.Run

namespace Neoip

/-- `rate_estim_arg_t`, with what the constructor needs: some slices, which can be
counted on 32 bits.  Only that there is no part of a slice is asserted. -/
structure RateEstimArg where
  total_delay : ℕ
  slice_delay : ℕ
  slice_delay_pos : 0 < slice_delay
  dvd : total_delay % slice_delay = 0
  total_delay_pos : 0 < total_delay
  nb_slice_lt : total_delay / slice_delay < 2 ^ 32

/-- The fields of `rate_estim_t`. -/
structure RateEstim where
  slice_arr : List ℕ
  slice_delay : ℕ
  cur_size : ℕ
  beg_offs : ℕ
  beg_date : ℕ
  precpu_sum : ℕ
deriving DecidableEq, Repr

namespace RateEstim

/-- `delay_t::to_uint32`. -/
def toUint32 (val_ms : ℕ) : ℕ := val_ms % 2 ^ 32

/-- The sum of two numbers of type `size_t`. -/
def sizeAdd (a b : ℕ) : ℕ := (a + b) % 2 ^ 64

/-! ### The functions of the source -/

def tot_size (r : RateEstim) : ℕ := r.slice_arr.length

def end_offs (r : RateEstim) : ℕ := (r.beg_offs + r.cur_size - 1) % r.tot_size

def resetArr (present : ℕ) (r : RateEstim) : RateEstim :=
  { r with
    cur_size := 1
    beg_offs := 0
    beg_date := present
    precpu_sum := 0
    slice_arr := r.slice_arr.set 0 0 }

/-- `internal_ctor`. -/
def internalCtor (arg : RateEstimArg) (present : ℕ) : RateEstim :=
  resetArr present
    { slice_arr := List.replicate (toUint32 (arg.total_delay / arg.slice_delay)) 0
      slice_delay := arg.slice_delay
      cur_size := 0
      beg_offs := 0
      beg_date := 0
      precpu_sum := 0 }

/-- The removal of the first slice, in `advance_arr`. -/
def removeFirst (r : RateEstim) : Option RateEstim :=
  let first := r.slice_arr.getD r.beg_offs default
  if r.precpu_sum ≥ first ∧ r.cur_size ≥ 2 then
    some
      { r with
        precpu_sum := r.precpu_sum - first
        beg_offs := (r.beg_offs + 1) % r.tot_size
        beg_date := r.beg_date + r.slice_delay
        cur_size := r.cur_size - 1 }
  else none

/-- The new last slice, in `advance_arr`. -/
def newSlice (r : RateEstim) : RateEstim :=
  let r := { r with cur_size := r.cur_size + 1 }
  { r with slice_arr := r.slice_arr.set r.end_offs 0 }

/-- One turn of the loop of `advance_arr`. -/
def advanceOne (r : RateEstim) : Option RateEstim := do
  let r ← (if r.cur_size = r.tot_size then r.removeFirst else some r)
  if r.cur_size < r.tot_size then some r.newSlice else none

def advanceLoop : ℕ → RateEstim → Option RateEstim
  | 0, r => some r
  | n + 1, r => r.advanceOne >>= advanceLoop n

def advanceArr (nb_slice : ℕ) (r : RateEstim) : Option RateEstim :=
  if nb_slice < r.tot_size then advanceLoop nb_slice r else none

/-- `slide_to_date`. -/
def slideToDate (date : ℕ) (r : RateEstim) : Option RateEstim :=
  let date_delta := date - r.beg_date
  let offs_delta := toUint32 (date_delta / r.slice_delay)
  if offs_delta ≥ r.cur_size - 1 then
    let nb_step := offs_delta - (r.cur_size - 1)
    if nb_step ≥ r.tot_size then some (r.resetArr date) else r.advanceArr nb_step
  else none

def update (nb_event : ℕ) (present : ℕ) (r : RateEstim) : Option RateEstim := do
  let r ← r.slideToDate present
  some
    { r with
      slice_arr := r.slice_arr.set r.end_offs
        (sizeAdd (r.slice_arr.getD r.end_offs default) nb_event)
      precpu_sum := sizeAdd r.precpu_sum nb_event }

/-- `average`, up to the division. -/
def average (present : ℕ) (r : RateEstim) : Option RateEstim := r.slideToDate present

end RateEstim

/-! ### Runs -/

/-- The calls of a user. -/
inductive EstimOp where
  | update (nb_event : ℕ)
  | average
deriving DecidableEq, Repr

/-- A call, and the time since the one before. -/
structure EstimCall where
  wait : ℕ
  op : EstimOp
deriving DecidableEq, Repr

/-- The estimator, the date of the last call, and the updates with their dates. -/
structure Estimation where
  estim : Option RateEstim
  present : ℕ
  journal : List (ℕ × ℕ)

namespace RateEstim

def handle (op : EstimOp) (present : ℕ) (r : RateEstim) : Option RateEstim :=
  match op with
  | .update nb_event => r.update nb_event present
  | .average => r.average present

def entries (date : ℕ) : EstimOp → List (ℕ × ℕ)
  | .update nb_event => [(date, nb_event)]
  | .average => []

def step (s : Estimation) (call : EstimCall) : Estimation where
  estim := s.estim.bind fun r => r.handle call.op (s.present + call.wait)
  present := s.present + call.wait
  journal := s.journal ++ entries (s.present + call.wait) call.op

def start (arg : RateEstimArg) (present : ℕ) : Estimation where
  estim := some (internalCtor arg present)
  present := present
  journal := []

/-! ### What is expected of it -/

/-- The sum is that of the updates of the valid slices; these are at most `tot_size`
slices, the last of which is the present one; no update younger than the whole
window less a slice is left out. -/
structure Estimates (arg : RateEstimArg) (present : ℕ) (journal : List (ℕ × ℕ)) (r : RateEstim) :
    Prop where
  sum : r.precpu_sum
    = amountIn journal r.beg_date (r.beg_date + r.cur_size * r.slice_delay)
  size : r.cur_size ≤ r.tot_size
  window : r.slice_delay = arg.slice_delay ∧ r.tot_size * r.slice_delay = arg.total_delay
  ending : r.beg_date + (r.cur_size - 1) * r.slice_delay ≤ present ∧
    present < r.beg_date + r.cur_size * r.slice_delay
  young : ∀ x ∈ journal, present - x.1 < arg.total_delay - arg.slice_delay → r.beg_date ≤ x.1

/-- No assertion failed, and the estimator is right. -/
def Right (arg : RateEstimArg) (s : Estimation) : Prop :=
  ∃ r, s.estim = some r ∧ r.Estimates arg s.present s.journal

/-- The number of slices up to the date fits in 32 bits; or it seems great enough for
the array to be reset, which it is. -/
def InTime (date : ℕ) (r : RateEstim) : Prop :=
  (date - r.beg_date) / r.slice_delay < 2 ^ 32 ∨
    r.cur_size - 1 + r.tot_size ≤ (date - r.beg_date) / r.slice_delay % 2 ^ 32

/-- Where the window begins at the date. -/
def keptFrom (date : ℕ) (r : RateEstim) : ℕ :=
  if r.cur_size - 1 + r.tot_size ≤ (date - r.beg_date) / r.slice_delay then date
  else r.beg_date + ((date - r.beg_date) / r.slice_delay + 1 - r.tot_size) * r.slice_delay

/-- The events of the window at the date, the new ones included, can be counted. -/
def Countable (date : ℕ) (op : EstimOp) (journal : List (ℕ × ℕ)) (r : RateEstim) : Prop :=
  match op with
  | .update nb_event => amountIn journal (r.keptFrom date) (date + 1) + nb_event < 2 ^ 64
  | .average => True

/-- What a call must meet. -/
def CallOk (s : Estimation) (call : EstimCall) : Prop :=
  ∀ r, s.estim = some r → r.InTime (s.present + call.wait) ∧
    r.Countable (s.present + call.wait) call.op s.journal

/-! ### The array advances -/

/-- The valid slices hold the updates of their dates, and no update is later. -/
structure Counts (journal : List (ℕ × ℕ)) (r : RateEstim) : Prop where
  pos : 1 ≤ r.cur_size
  le : r.cur_size ≤ r.tot_size
  offs : r.beg_offs < r.tot_size
  counts : contents r.slice_arr r.beg_offs r.cur_size
    = slices journal r.slice_delay r.beg_date r.cur_size
  sum : r.precpu_sum = (slices journal r.slice_delay r.beg_date r.cur_size).sum
  past : ∀ x ∈ journal, x.1 < r.beg_date + r.cur_size * r.slice_delay

variable {arg : RateEstimArg} {journal : List (ℕ × ℕ)} {r : RateEstim} {date present n : ℕ}

theorem Counts.removeFirst (h : r.Counts journal) (hcur : 2 ≤ r.cur_size) :
    ∃ r', r.removeFirst = some r' ∧ r'.Counts journal ∧ r'.cur_size = r.cur_size - 1 ∧
      r'.beg_date = r.beg_date + r.slice_delay ∧ r'.slice_delay = r.slice_delay ∧
      r'.tot_size = r.tot_size := by
  obtain ⟨cur, hcur'⟩ : ∃ cur, r.cur_size = cur + 1 := ⟨r.cur_size - 1, by omega⟩
  have hcounts := h.counts
  have hsum := h.sum
  have hlt : r.beg_offs % r.slice_arr.length = r.beg_offs := Nat.mod_eq_of_lt h.offs
  rw [hcur', contents_cons, slices, hlt] at hcounts
  obtain ⟨hfirst, hrest⟩ := List.cons.inj hcounts
  rw [hcur', slices, List.sum_cons, ← hfirst] at hsum
  have hge : r.precpu_sum ≥ r.slice_arr.getD r.beg_offs default := by omega
  have hpast := h.past
  have hle := h.le
  have hoffs := h.offs
  refine ⟨_, if_pos ⟨hge, hcur⟩, ⟨?_, ?_, Nat.mod_lt _ (by omega), ?_, ?_, ?_⟩, rfl, rfl, rfl, rfl⟩
  · show 1 ≤ r.cur_size - 1
    omega
  · show r.cur_size - 1 ≤ r.tot_size
    omega
  · show contents r.slice_arr ((r.beg_offs + 1) % r.tot_size) (r.cur_size - 1) = slices journal
      r.slice_delay (r.beg_date + r.slice_delay) (r.cur_size - 1)
    rw [hcur', Nat.add_sub_cancel]
    exact hrest
  · show r.precpu_sum - _ = (slices journal r.slice_delay (r.beg_date + r.slice_delay)
      (r.cur_size - 1)).sum
    rw [hsum, Nat.add_sub_cancel_left, hcur', Nat.add_sub_cancel]
  · intro x hx
    have hx := hpast x hx
    show x.1 < r.beg_date + r.slice_delay + (r.cur_size - 1) * r.slice_delay
    rw [hcur', Nat.succ_mul] at hx
    rw [hcur', Nat.add_sub_cancel]
    omega

theorem Counts.newSlice (h : r.Counts journal) (hroom : r.cur_size < r.tot_size) :
    r.newSlice.Counts journal := by
  have hpast := h.past
  have hnone : amountIn journal (r.beg_date + r.cur_size * r.slice_delay)
      (r.beg_date + r.cur_size * r.slice_delay + r.slice_delay) = 0 :=
    amountIn_eq_zero fun x hx => Or.inl (hpast x hx)
  have hslices := @slices_succ journal r.slice_delay r.cur_size r.beg_date
  rw [hnone] at hslices
  refine ⟨Nat.le_add_left .., ?_, ?_, ?_, ?_, ?_⟩
  · show r.cur_size + 1 ≤ (r.slice_arr.set _ _).length
    rw [List.length_set]
    exact hroom
  · show r.beg_offs < (r.slice_arr.set _ _).length
    rw [List.length_set]
    exact h.offs
  · show contents (r.slice_arr.set ((r.beg_offs + (r.cur_size + 1) - 1) % r.slice_arr.length) 0)
      r.beg_offs (r.cur_size + 1) = slices journal r.slice_delay r.beg_date (r.cur_size + 1)
    rw [← Nat.add_assoc, Nat.add_sub_cancel, contents_set hroom, h.counts, hslices]
  · show r.precpu_sum = (slices journal r.slice_delay r.beg_date (r.cur_size + 1)).sum
    rw [hslices, List.sum_append, h.sum]
    rfl
  · intro x hx
    have hx := hpast x hx
    show x.1 < r.beg_date + (r.cur_size + 1) * r.slice_delay
    rw [Nat.succ_mul]
    omega

/-- One more slice; the first one leaves when the array is full. -/
theorem Counts.advanceOne (h : r.Counts journal) (htot : 2 ≤ r.tot_size) :
    ∃ r', r.advanceOne = some r' ∧ r'.Counts journal ∧
      r'.cur_size = min (r.cur_size + 1) r.tot_size ∧
      r'.beg_date = r.beg_date + (r.cur_size + 1 - r.tot_size) * r.slice_delay ∧
      r'.slice_delay = r.slice_delay ∧ r'.tot_size = r.tot_size := by
  have hle := h.le
  by_cases hfull : r.cur_size = r.tot_size
  · obtain ⟨r', hr', hcounts, hcur, hbeg, hdelay, htot'⟩ := h.removeFirst (by omega)
    have hroom : r'.cur_size < r'.tot_size := by omega
    refine ⟨r'.newSlice, ?_, hcounts.newSlice hroom, ?_, ?_, hdelay, ?_⟩
    · rw [RateEstim.advanceOne, if_pos hfull, hr']
      exact if_pos hroom
    · show r'.cur_size + 1 = _
      omega
    · show r'.beg_date = _
      rw [hbeg, hfull, Nat.add_sub_cancel_left, Nat.one_mul]
    · show (r'.slice_arr.set _ _).length = _
      rw [List.length_set]
      exact htot'
  · have hroom : r.cur_size < r.tot_size := by omega
    refine ⟨r.newSlice, ?_, h.newSlice hroom, ?_, ?_, rfl, List.length_set⟩
    · rw [RateEstim.advanceOne, if_neg hfull]
      exact if_pos hroom
    · show r.cur_size + 1 = _
      omega
    · show r.beg_date = _
      rw [Nat.sub_eq_zero_of_le hroom, Nat.zero_mul, Nat.add_zero]

theorem Counts.advanceLoop (h : r.Counts journal) (htot : n = 0 ∨ 2 ≤ r.tot_size) :
    ∃ r', RateEstim.advanceLoop n r = some r' ∧ r'.Counts journal ∧
      r'.cur_size = min (r.cur_size + n) r.tot_size ∧
      r'.beg_date = r.beg_date + (r.cur_size + n - r.tot_size) * r.slice_delay ∧
      r'.slice_delay = r.slice_delay ∧ r'.tot_size = r.tot_size := by
  induction n generalizing r with
  | zero =>
    have hle := h.le
    refine ⟨r, rfl, h, by omega, ?_, rfl, rfl⟩
    rw [Nat.add_zero, Nat.sub_eq_zero_of_le hle, Nat.zero_mul, Nat.add_zero]
  | succ n ih =>
    have htwo : 2 ≤ r.tot_size := htot.resolve_left (Nat.succ_ne_zero n)
    obtain ⟨r₁, hr₁, hcounts, hcur, hbeg, hdelay, htot₁⟩ := h.advanceOne htwo
    obtain ⟨r', hr', hcounts', hcur', hbeg', hdelay', htot'⟩ := ih hcounts (Or.inr (htot₁ ▸ htwo))
    refine ⟨r', ?_, hcounts', by omega, ?_, hdelay'.trans hdelay, htot'.trans htot₁⟩
    · rw [RateEstim.advanceLoop, hr₁]
      exact hr'
    · rw [hbeg', hbeg, hdelay, Nat.add_assoc, ← Nat.add_mul]
      congr 2
      have hle := h.le
      omega

/-! ### A call -/

/-- What holds between two calls. -/
structure Kept (arg : RateEstimArg) (present : ℕ) (journal : List (ℕ × ℕ)) (r : RateEstim) :
    Prop where
  counts : r.Counts journal
  slice_delay : r.slice_delay = arg.slice_delay
  tot_size : r.tot_size = arg.total_delay / arg.slice_delay
  dates : ∀ x ∈ journal, x.1 ≤ present
  reached : r.beg_date + (r.cur_size - 1) * r.slice_delay ≤ present
  notPassed : present < r.beg_date + r.cur_size * r.slice_delay
  dropped : ∀ x ∈ journal, x.1 < r.beg_date → x.1 + (r.tot_size - 1) * r.slice_delay < present

theorem Kept.slice_delay_pos (h : r.Kept arg present journal) : 0 < r.slice_delay := by
  rw [h.slice_delay]
  exact arg.slice_delay_pos

/-- The slice of a later date. -/
theorem Kept.offs_delta (h : r.Kept arg present journal) (hdate : present ≤ date) :
    r.cur_size - 1 ≤ (date - r.beg_date) / r.slice_delay ∧
      r.beg_date + (date - r.beg_date) / r.slice_delay * r.slice_delay ≤ date ∧
      date < r.beg_date + ((date - r.beg_date) / r.slice_delay + 1) * r.slice_delay := by
  have hpos := h.slice_delay_pos
  have hreached := h.reached
  have hmul := Nat.div_mul_le_self (date - r.beg_date) r.slice_delay
  refine ⟨(Nat.le_div_iff_mul_le hpos).2 (by omega), by omega, ?_⟩
  have hlt := Nat.lt_mul_div_succ (date - r.beg_date) hpos
  rw [Nat.mul_comm] at hlt
  omega

/-- The array is reset: its slices are all too old. -/
theorem Kept.resetArr (h : r.Kept arg present journal) (hdate : present ≤ date)
    (hold : r.cur_size - 1 + r.tot_size ≤ (date - r.beg_date) / r.slice_delay) :
    (r.resetArr date).Kept arg date journal := by
  have hpos := h.slice_delay_pos
  obtain ⟨-, hle, -⟩ := h.offs_delta hdate
  have hcur := h.counts.pos
  have htot : 0 < r.tot_size := Nat.lt_of_lt_of_le hcur h.counts.le
  have hmul := Nat.mul_le_mul_right r.slice_delay hold
  have hsplit : (r.cur_size - 1 + r.tot_size) * r.slice_delay
      = r.cur_size * r.slice_delay + (r.tot_size - 1) * r.slice_delay := by
    rw [← Nat.add_mul]
    congr 1
    omega
  -- each event is older than the window which ends with the present slice
  have hpast := h.counts.past
  have hbefore : ∀ x ∈ journal, x.1 + (r.tot_size - 1) * r.slice_delay < date := by
    intro x hx
    have hx := hpast x hx
    omega
  have hlen : (r.resetArr date).tot_size = r.tot_size := List.length_set
  have hzero : amountIn journal date (date + r.slice_delay) = 0 :=
    amountIn_eq_zero fun x hx => Or.inl (by have hx := hbefore x hx; omega)
  have hone : slices journal r.slice_delay date 1 = [0] := by
    rw [slices, slices, hzero]
  refine ⟨⟨Nat.le_refl 1, ?_, ?_, ?_, ?_, ?_⟩, h.slice_delay, ?_, ?_, ?_, ?_, ?_⟩
  · rw [hlen]
    exact htot
  · rw [hlen]
    exact htot
  · show contents (r.slice_arr.set 0 0) 0 1 = slices journal r.slice_delay date 1
    have hset := @contents_set _ _ r.slice_arr 0 0 0 htot
    rw [Nat.add_zero, Nat.zero_mod] at hset
    rw [hset, hone]
    rfl
  · show 0 = (slices journal r.slice_delay date 1).sum
    rw [hone]
    rfl
  · intro x hx
    have hx := hbefore x hx
    show x.1 < date + 1 * r.slice_delay
    omega
  · rw [hlen]
    exact h.tot_size
  · intro x hx
    have hx := hbefore x hx
    omega
  · show date + (1 - 1) * r.slice_delay ≤ date
    rw [Nat.sub_self, Nat.zero_mul]
    exact Nat.le_refl _
  · show date < date + 1 * r.slice_delay
    omega
  · intro x hx _
    rw [hlen]
    exact hbefore x hx

/-- The array advances by less than its size. -/
theorem Kept.advanceArr (h : r.Kept arg present journal) {offs : ℕ}
    (hge : r.cur_size - 1 ≤ offs) (hlt : offs < r.cur_size - 1 + r.tot_size) :
    ∃ r', r.advanceArr (offs - (r.cur_size - 1)) = some r' ∧ r'.Counts journal ∧
      r'.cur_size = min (offs + 1) r.tot_size ∧
      r'.beg_date = r.beg_date + (offs + 1 - r.tot_size) * r.slice_delay ∧
      r'.slice_delay = r.slice_delay ∧ r'.tot_size = r.tot_size := by
  have hpos := h.counts.pos
  have hle := h.counts.le
  obtain ⟨r', hr', hcounts, hcur, hbeg, hdelay, htot⟩ :=
    h.counts.advanceLoop (n := offs - (r.cur_size - 1)) (by omega)
  refine ⟨r', (if_pos (by omega)).trans hr', hcounts, by omega, ?_, hdelay, htot⟩
  rw [hbeg]
  congr 2
  omega

/-- The window up to the slice `offs`. -/
theorem window_eq {beg tot d offs : ℕ} :
    beg + (offs + 1 - tot) * d + min (offs + 1) tot * d = beg + (offs + 1) * d := by
  rw [Nat.add_assoc, ← Nat.add_mul]
  congr 2
  omega

theorem Kept.slideToDate (h : r.Kept arg present journal) (hdate : present ≤ date)
    (htime : r.InTime date) :
    ∃ r', r.slideToDate date = some r' ∧ r'.Kept arg date journal ∧
      r'.beg_date = r.keptFrom date := by
  obtain ⟨hge, hreached, hnotPassed⟩ := h.offs_delta hdate
  rw [InTime] at htime
  rw [RateEstim.slideToDate, keptFrom]
  set offs := (date - r.beg_date) / r.slice_delay with hoffs
  have hmod : offs % 2 ^ 32 ≤ offs := Nat.mod_le ..
  by_cases hold : r.cur_size - 1 + r.tot_size ≤ offs
  · -- the conversion does not hide that the slices are too old
    have hge32 : r.cur_size - 1 + r.tot_size ≤ toUint32 offs := by
      rcases htime with hsmall | hbig
      · rw [toUint32, Nat.mod_eq_of_lt hsmall]
        exact hold
      · exact hbig
    refine ⟨r.resetArr date, ?_, h.resetArr hdate hold, by rw [if_pos hold]; rfl⟩
    exact (if_pos (by omega)).trans (if_pos (by omega))
  · have hsmall : offs < 2 ^ 32 := by omega
    have heq : toUint32 offs = offs := Nat.mod_eq_of_lt hsmall
    have hpos := h.counts.pos
    have hle := h.counts.le
    obtain ⟨r', hr', hcounts, hcur, hbeg, hdelay, htot⟩ := h.advanceArr hge (by omega)
    have hwindow : r'.beg_date + r'.cur_size * r'.slice_delay
        = r.beg_date + (offs + 1) * r.slice_delay := by
      rw [hbeg, hcur, hdelay, window_eq]
    have hlast : r'.beg_date + (r'.cur_size - 1) * r'.slice_delay
        = r.beg_date + offs * r.slice_delay := by
      have hsucc : r'.cur_size * r'.slice_delay
          = (r'.cur_size - 1) * r'.slice_delay + r'.slice_delay := by
        rw [← Nat.succ_mul]
        congr 1
        omega
      rw [Nat.succ_mul] at hwindow
      omega
    -- the present slice is the last of the array, and what was left out is too old
    refine ⟨r', ?_, ⟨hcounts, hdelay.trans h.slice_delay, htot.trans h.tot_size, ?_, ?_, ?_, ?_⟩,
      by rw [if_neg hold, hbeg]⟩
    · rw [heq]
      exact (if_pos hge).trans ((if_neg (by omega)).trans hr')
    · exact fun x hx => (h.dates x hx).trans hdate
    · rw [hlast]
      exact hreached
    · rw [hwindow]
      exact hnotPassed
    · intro x hx hlt
      by_cases hbefore : x.1 < r.beg_date
      · have hx := h.dropped x hx hbefore
        rw [htot, hdelay]
        omega
      · -- something was left out, so the array is full
        have hfull : r'.cur_size = r'.tot_size := by
          by_contra hne
          have hzero : offs + 1 - r.tot_size = 0 := by omega
          rw [hzero, Nat.zero_mul, Nat.add_zero] at hbeg
          omega
        rw [← hfull]
        omega

/-- What `update` does to the present slice. -/
def addPresent (nb_event : ℕ) (r : RateEstim) : RateEstim :=
  { r with
    slice_arr := r.slice_arr.set r.end_offs
      (sizeAdd (r.slice_arr.getD r.end_offs default) nb_event)
    precpu_sum := sizeAdd r.precpu_sum nb_event }

theorem Counts.sum_eq (h : r.Counts journal) : r.precpu_sum
    = amountIn journal r.beg_date (r.beg_date + r.cur_size * r.slice_delay) := by
  rw [h.sum, sum_slices]

/-- The sum of the window, whose end does not matter past the present. -/
theorem Kept.sum_eq (h : r.Kept arg date journal) :
    r.precpu_sum = amountIn journal r.beg_date (date + 1) := by
  rw [h.counts.sum_eq]
  exact amountIn_congr (fun x hx => Nat.lt_succ_of_le (h.dates x hx)) h.notPassed

theorem Kept.addPresent (h : r.Kept arg date journal) (hfits : r.precpu_sum + n < 2 ^ 64) :
    (r.addPresent n).Kept arg date (journal ++ [(date, n)]) := by
  have hpos := h.counts.pos
  obtain ⟨cur, hcur⟩ : ∃ cur, r.cur_size = cur + 1 := ⟨r.cur_size - 1, by omega⟩
  have hreached := h.reached
  have hnotPassed := h.notPassed
  have hcounts := h.counts.counts
  have hsum := h.counts.sum
  have hpast := h.counts.past
  have hroom : cur < r.slice_arr.length := by
    have hle := h.counts.le
    rw [hcur] at hle
    exact hle
  rw [hcur, Nat.add_sub_cancel] at hreached
  rw [hcur, Nat.succ_mul, ← Nat.add_assoc] at hnotPassed
  have hend : r.end_offs = (r.beg_offs + cur) % r.slice_arr.length := by
    show (r.beg_offs + r.cur_size - 1) % _ = _
    rw [hcur, ← Nat.add_assoc, Nat.add_sub_cancel]
    rfl
  -- the present slice is the last one
  have hsplit : contents r.slice_arr r.beg_offs (cur + 1)
      = contents r.slice_arr r.beg_offs cur ++ [r.slice_arr.getD r.end_offs default] := by
    rw [contents, List.range_succ, List.map_append, List.map_singleton, hend]
    rfl
  rw [hcur, hsplit, slices_succ] at hcounts
  obtain ⟨hfirst, hlast⟩ := List.append_inj' hcounts rfl
  have hlast := (List.cons.inj hlast).1
  rw [hcur, slices_succ, List.sum_append, List.sum_singleton] at hsum
  have hadd : sizeAdd (r.slice_arr.getD r.end_offs default) n
      = amountIn journal (r.beg_date + cur * r.slice_delay)
        (r.beg_date + cur * r.slice_delay + r.slice_delay) + n := by
    rw [sizeAdd, hlast]
    exact Nat.mod_eq_of_lt (by omega)
  have hadd' : sizeAdd r.precpu_sum n = r.precpu_sum + n := Nat.mod_eq_of_lt hfits
  have hslices := @slices_append_last journal _ _ _ _ n hreached hnotPassed
  have hlen : (r.addPresent n).tot_size = r.tot_size := List.length_set
  have hmem : ∀ x ∈ journal ++ [(date, n)], x ∈ journal ∨ x = (date, n) := by
    intro x hx
    rwa [List.mem_append, List.mem_singleton] at hx
  refine ⟨⟨h.counts.pos, hlen ▸ h.counts.le, hlen ▸ h.counts.offs, ?_, ?_, ?_⟩, h.slice_delay,
    hlen.trans h.tot_size, ?_, h.reached, h.notPassed, ?_⟩
  · show contents (r.slice_arr.set r.end_offs _) r.beg_offs r.cur_size
      = slices (journal ++ [(date, n)]) r.slice_delay r.beg_date r.cur_size
    rw [hadd, hend, hcur, contents_set hroom, hslices, hfirst]
  · show sizeAdd r.precpu_sum n
      = (slices (journal ++ [(date, n)]) r.slice_delay r.beg_date r.cur_size).sum
    rw [hadd', hcur, hslices, List.sum_append, List.sum_singleton, hsum, Nat.add_assoc]
  · intro x hx
    rcases hmem x hx with hx | rfl
    · exact hpast x hx
    · exact h.notPassed
  · intro x hx
    rcases hmem x hx with hx | rfl
    · exact h.dates x hx
    · exact Nat.le_refl _
  · intro x hx hlt
    rcases hmem x hx with hx | rfl
    · rw [hlen]
      exact h.dropped x hx hlt
    · have hge : r.beg_date ≤ date := Nat.le_trans (Nat.le_add_right ..) h.reached
      exact absurd hlt (Nat.not_lt.2 hge)

theorem update_eq : r.update n date = (r.slideToDate date).map (addPresent n) := by
  rw [update]
  cases r.slideToDate date <;> rfl

/-! ### The runs -/

theorem Kept.estimates (h : r.Kept arg present journal) : r.Estimates arg present journal where
  sum := h.counts.sum_eq
  size := h.counts.le
  window := by
    refine ⟨h.slice_delay, ?_⟩
    rw [h.tot_size, h.slice_delay]
    exact Nat.div_mul_cancel (Nat.dvd_of_mod_eq_zero arg.dvd)
  ending := ⟨h.reached, h.notPassed⟩
  young := by
    intro x hx hyoung
    by_contra hlt
    have hx := h.dropped x hx (Nat.not_le.1 hlt)
    have htotal : r.tot_size * r.slice_delay = arg.total_delay := by
      rw [h.tot_size, h.slice_delay]
      exact Nat.div_mul_cancel (Nat.dvd_of_mod_eq_zero arg.dvd)
    have hless : (r.tot_size - 1) * r.slice_delay = arg.total_delay - arg.slice_delay := by
      rw [Nat.sub_mul, Nat.one_mul, htotal, h.slice_delay]
    omega

theorem kept_internalCtor : (internalCtor arg present).Kept arg present [] := by
  have hnb : toUint32 (arg.total_delay / arg.slice_delay) = arg.total_delay / arg.slice_delay :=
    Nat.mod_eq_of_lt arg.nb_slice_lt
  have htot : (internalCtor arg present).tot_size = arg.total_delay / arg.slice_delay := by
    show ((List.replicate _ 0).set 0 0).length = _
    rw [List.length_set, List.length_replicate, hnb]
  have hpos : 0 < arg.total_delay / arg.slice_delay :=
    Nat.div_pos (Nat.le_of_dvd arg.total_delay_pos (Nat.dvd_of_mod_eq_zero arg.dvd))
      arg.slice_delay_pos
  have hdelay := arg.slice_delay_pos
  refine ⟨⟨Nat.le_refl 1, htot ▸ hpos, htot ▸ hpos, ?_, rfl, nofun⟩, rfl, htot, nofun, ?_, ?_,
    nofun⟩
  · show contents ((List.replicate _ 0).set 0 0) 0 1 = [0]
    have hlen : (List.replicate (toUint32 (arg.total_delay / arg.slice_delay)) 0).length
        = arg.total_delay / arg.slice_delay := by
      rw [List.length_replicate, hnb]
    have hset := @contents_set _ _ (List.replicate (toUint32 (arg.total_delay / arg.slice_delay)) 0)
      0 0 0 (by rw [hlen]; exact hpos)
    rw [Nat.add_zero, Nat.zero_mod] at hset
    exact hset
  · show present + (1 - 1) * arg.slice_delay ≤ present
    rw [Nat.sub_self, Nat.zero_mul]
    exact Nat.le_refl _
  · show present < present + 1 * arg.slice_delay
    omega

/-- A call which comes too late for 32 bits: an assertion fails, or the window ends
before the present. -/
theorem Kept.slideToDate_late (h : r.Kept arg present journal) (hdate : present ≤ date)
    (htime : ¬r.InTime date) {r' : RateEstim} (hr' : r.slideToDate date = some r') :
    r'.beg_date + r'.cur_size * r'.slice_delay ≤ date := by
  obtain ⟨-, hreached, -⟩ := h.offs_delta hdate
  rw [InTime, not_or, Nat.not_lt, Nat.not_le] at htime
  obtain ⟨hbig, hfresh⟩ := htime
  rw [RateEstim.slideToDate] at hr'
  set offs := (date - r.beg_date) / r.slice_delay with hoffs
  have hmod : offs % 2 ^ 32 < 2 ^ 32 := Nat.mod_lt _ (Nat.two_pow_pos 32)
  by_cases hge : r.cur_size - 1 ≤ toUint32 offs
  · have hlt : toUint32 offs < r.cur_size - 1 + r.tot_size := hfresh
    obtain ⟨r₁, hr₁, -, hcur, hbeg, hdelay, -⟩ := h.advanceArr hge hlt
    have hsome : some r₁ = some r' := by
      rw [← hr₁, ← hr']
      exact ((if_pos hge).trans (if_neg (by omega))).symm
    obtain rfl := Option.some.inj hsome
    rw [hbeg, hcur, hdelay, window_eq]
    have hmul := Nat.mul_le_mul_right r.slice_delay (show toUint32 offs + 1 ≤ offs by
      show offs % 2 ^ 32 + 1 ≤ offs
      omega)
    omega
  · exact absurd ((if_neg hge).symm.trans hr') nofun

theorem kept_of_slideToDate (h : r.Kept arg present journal) (hdate : present ≤ date)
    (htime : r.InTime date) {r' : RateEstim} (hr' : r.slideToDate date = some r') :
    r'.Kept arg date journal ∧
      r'.precpu_sum = amountIn journal (r.keptFrom date) (date + 1) := by
  obtain ⟨r₁, hr₁, hkept, hbeg⟩ := h.slideToDate hdate htime
  obtain rfl := Option.some.inj (hr₁.symm.trans hr')
  rw [← hbeg]
  exact ⟨hkept, hkept.sum_eq⟩

/-- The state between two calls: right, and kept so. -/
def Inv (arg : RateEstimArg) (s : Estimation) : Prop :=
  ∃ r, s.estim = some r ∧ r.Kept arg s.present s.journal

variable {s : Estimation} {call : EstimCall}

theorem Inv.right (h : Inv arg s) : Right arg s := by
  obtain ⟨r, hr, hkept⟩ := h
  exact ⟨r, hr, hkept.estimates⟩

theorem inv_start : Inv arg (start arg present) := ⟨_, rfl, kept_internalCtor⟩

theorem Inv.step (h : Inv arg s) (hok : CallOk s call) : Inv arg (RateEstim.step s call) := by
  obtain ⟨r, hr, hkept⟩ := h
  obtain ⟨htime, hcount⟩ := hok r hr
  obtain ⟨r', hr', hkept', hbeg⟩ := hkept.slideToDate (Nat.le_add_right ..) htime
  have hestim : (RateEstim.step s call).estim = r.handle call.op (s.present + call.wait) := by
    show s.estim.bind _ = _
    rw [hr]
    rfl
  obtain ⟨wait, op⟩ := call
  cases op with
  | update n =>
    have hfits : r'.precpu_sum + n < 2 ^ 64 := by
      rw [hkept'.sum_eq, hbeg]
      exact hcount
    refine ⟨r'.addPresent n, ?_, hkept'.addPresent hfits⟩
    rw [hestim]
    show r.update n _ = _
    rw [update_eq, hr']
    rfl
  | average =>
    refine ⟨r', hestim.trans hr', ?_⟩
    show r'.Kept arg _ (s.journal ++ [])
    rw [List.append_nil]
    exact hkept'

/-- A call after which the estimator is right meets the condition. -/
theorem Inv.callOk (h : Inv arg s) (hright : Right arg (RateEstim.step s call)) :
    CallOk s call := by
  obtain ⟨r₀, hr₀, hkept⟩ := h
  obtain ⟨r₁, hr₁, hestimates⟩ := hright
  intro r hr
  obtain rfl := Option.some.inj (hr₀.symm.trans hr)
  have hestim : r₀.handle call.op (s.present + call.wait) = some r₁ := by
    rw [← hr₁]
    show _ = s.estim.bind _
    rw [hr]
    rfl
  have hdate : s.present ≤ s.present + call.wait := Nat.le_add_right ..
  -- the array slid, whatever the call
  obtain ⟨r', hr', hbeg, hcur, hdelay⟩ : ∃ r', r₀.slideToDate (s.present + call.wait) = some r' ∧
      r₁.beg_date = r'.beg_date ∧ r₁.cur_size = r'.cur_size ∧ r₁.slice_delay = r'.slice_delay := by
    obtain ⟨wait, op⟩ := call
    cases op with
    | update n =>
      obtain ⟨r', hr', hadd⟩ := Option.map_eq_some_iff.1 (update_eq.symm.trans hestim)
      rw [← hadd]
      exact ⟨r', hr', rfl, rfl, rfl⟩
    | average => exact ⟨r₁, hestim, rfl, rfl, rfl⟩
  have htime : r₀.InTime (s.present + call.wait) := by
    by_contra hlate
    have hle := hkept.slideToDate_late hdate hlate hr'
    have hending := hestimates.ending.2
    rw [hbeg, hcur, hdelay] at hending
    exact absurd hending (Nat.not_lt.2 hle)
  refine ⟨htime, ?_⟩
  obtain ⟨hkept', hsum'⟩ := kept_of_slideToDate hkept hdate htime hr'
  obtain ⟨wait, op⟩ := call
  cases op with
  | average => exact trivial
  | update n =>
    -- the sum would have wrapped
    show amountIn s.journal (r₀.keptFrom (s.present + wait)) (s.present + wait + 1) + n < 2 ^ 64
    have hadd : r₁ = r'.addPresent n := by
      have hsome := update_eq.symm.trans hestim
      rw [hr'] at hsome
      exact (Option.some.inj hsome).symm
    have hsum := hestimates.sum
    have hreached := hkept'.reached
    have hge : r'.beg_date ≤ s.present + wait := Nat.le_trans (Nat.le_add_right ..) hreached
    have hone : amountIn [(s.present + wait, n)] r'.beg_date
        (r'.beg_date + r'.cur_size * r'.slice_delay) = n := by
      rw [amountIn_cons, if_pos ⟨hge, hkept'.notPassed⟩]
      rfl
    have htotal : sizeAdd r'.precpu_sum n = r'.precpu_sum + n := by
      rw [hadd] at hsum
      refine hsum.trans ?_
      show amountIn (s.journal ++ [(s.present + wait, n)]) r'.beg_date
        (r'.beg_date + r'.cur_size * r'.slice_delay) = _
      rw [amountIn_append, hone, hkept'.counts.sum_eq]
    rw [← hsum', ← htotal]
    exact Nat.mod_lt _ (Nat.two_pow_pos 64)

/-- The estimator is right in every state of a run exactly when no call comes too late
for the number of slices to be converted, and the events of the window can always be
counted. -/
theorem always_estimates_iff (arg : RateEstimArg) (present : ℕ) (calls : List EstimCall) :
    Always step (Right arg) (start arg present) calls
      ↔ Guarded step CallOk (start arg present) calls := by
  have hstep : ∀ s call, (Right arg s → Inv arg s) → Right arg s →
      (Right arg (RateEstim.step s call) ↔ CallOk s call) := by
    intro s call hinv hright
    exact ⟨(hinv hright).callOk, fun hok => ((hinv hright).step hok).right⟩
  apply always_iff_guarded (Q := fun s => Right arg s → Inv arg s)
  · intro s call hinv hright hright'
    exact (hinv hright).step ((hstep s call hinv hright).1 hright')
  · exact hstep
  · exact inv_start.right
  · exact fun _ => inv_start

/-- Ten slices of a millisecond, and a call 2^32 of them later: the update of the first
slice is still counted, and this slice is taken for the present one. -/
theorem not_always_estimates :
    ¬Always step (Right ⟨10, 1, by decide, by decide, by decide, by decide⟩)
      (start ⟨10, 1, by decide, by decide, by decide, by decide⟩ 0)
      [⟨0, .update 1⟩, ⟨2 ^ 32, .average⟩] := by
  apply not_always_of_run
  rintro ⟨r, hr, hestimates⟩
  have hrun : some r = some ⟨[1, 0, 0, 0, 0, 0, 0, 0, 0, 0], 1, 1, 0, 0, 1⟩ := by
    rw [← hr]
    decide +kernel
  obtain rfl := Option.some.inj hrun
  exact absurd hestimates.ending.2 (by decide)

end RateEstim

end Neoip
