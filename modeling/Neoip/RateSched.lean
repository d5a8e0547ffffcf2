/-
Neoip/RateSched.lean

The rate scheduler: `rate_sched_t` and its `rate_limit_t`.

A limit has a maximum precedence, and a used one while its `inuse_timeout` runs.  The
scheduler keeps the sums of both, of type `size_t`.  A request is granted the share of
the maximum rate which goes with the precedence, clamped with the absolute maximum of
the limit, over a window of time.

What is of type `double` is not negative here, and the exact result of an operation is
rounded; what is left open is how, by `Rounding`.  The length of a timeout is not in the
model, nor is the random choice of a window: a request comes with its own, and with a
random rate of at most one it is not negative either.

An assertion which fails, and a conversion to `size_t` which is not defined, are `none`.

Main results: the sums are right whatever happens (`RateSched.always_counted`), and
`RateSched.always_sane_iff`, the runs in which a request meets what is expected of it.
-/
import Neoip.Run
import Neoip.Tally
import Mathlib.Data.NNRat.Floor
import Mathlib.Tactic.Positivity

namespace Neoip

/-- How the exact result of an operation becomes a `double`. -/
structure Rounding where
  rnd : ℚ≥0 → ℚ≥0
  mono : Monotone rnd
  one : rnd 1 = 1

theorem Rounding.one_le (R : Rounding) {n : ℕ} (h : 1 ≤ n) : 1 ≤ R.rnd n := by
  rw [← R.one]
  apply R.mono
  exact_mod_cast h

/-- `rate_prec_t`. -/
abbrev RatePrec := BitVec 64

/-- `rate_limit_tmp_t`. -/
structure RateLimitTmp where
  window_delay : ℚ≥0
  maxi_len : ℚ≥0
deriving DecidableEq

/-- The fields of `rate_limit_t`: `is_used` is whether `inuse_timeout` runs, and
`nb_notified` is the number of calls of the callback. -/
structure RateLimit where
  maxi_prec : RatePrec
  used_prec : RatePrec
  absrate_max : ℚ≥0
  is_used : Bool
  nb_notified : ℕ
deriving DecidableEq

/-- The sums which `rate_sched_t` keeps. -/
structure RatePrecsum where
  maxi_precsum : RatePrec
  used_precsum : RatePrec
deriving DecidableEq, Repr

/-- The fields of `rate_sched_t`; the limits are known by the order they come in. -/
structure RateSched where
  max_rate : ℚ≥0
  precsum : RatePrecsum
  limit_db : List (ℕ × RateLimit)
  next_id : ℕ

namespace RateLimit

/-! ### The functions of the source -/

/-- `std::numeric_limits<double>::max()`. -/
def doubleMax : ℚ≥0 := 9007199254740991 * 2 ^ 971

/-- `std::numeric_limits<size_t>::max()`. -/
def sizeMax : ℕ := 18446744073709551615

/-- The conversion of a `double` to `size_t`. -/
def toSize (x : ℚ≥0) : Option ℕ := if ⌊x⌋₊ ≤ sizeMax then some ⌊x⌋₊ else none

def ctor : RateLimit where
  maxi_prec := 0
  used_prec := 0
  absrate_max := doubleMax
  is_used := false
  nb_notified := 0

/-- `used_prec(new_prec)`. -/
def setUsedPrec (new_prec : RatePrec) (x : RateLimit × RatePrecsum) : RateLimit × RatePrecsum :=
  ({ x.1 with used_prec := new_prec },
    { x.2 with used_precsum := x.2.used_precsum - x.1.used_prec + new_prec })

/-- `maxi_prec(new_prec)`. -/
def setMaxiPrec (new_prec : RatePrec) (x : RateLimit × RatePrecsum) : RateLimit × RatePrecsum :=
  let x := if x.1.is_used then setUsedPrec new_prec x else x
  ({ x.1 with maxi_prec := new_prec },
    { x.2 with maxi_precsum := x.2.maxi_precsum - x.1.maxi_prec + new_prec })

/-- `start`, once the limit is linked. -/
def start (maxi_prec : RatePrec) (x : RateLimit × RatePrecsum) : RateLimit × RatePrecsum :=
  setUsedPrec 0 (setMaxiPrec maxi_prec x)

/-- `inuse_timeout.start`. -/
def startInuse (x : RateLimit × RatePrecsum) : RateLimit × RatePrecsum :=
  ({ x.1 with is_used := true }, x.2)

/-- The ratio of the precedences.  It is a number which is not more than one. -/
def precRatio (R : Rounding) (limit : RateLimit) (precsum : RatePrecsum) : Option ℚ≥0 :=
  let sum := precsum.used_precsum - limit.used_prec + limit.maxi_prec
  let prec_ratio := R.rnd (R.rnd limit.maxi_prec.toNat / R.rnd sum.toNat)
  if sum ≠ 0 ∧ prec_ratio ≤ 1 then some prec_ratio else none

def dataRequest (R : Rounding) (max_rate : ℚ≥0) (request_len : ℕ) (window_delay : ℚ≥0)
    (limit : RateLimit) (precsum : RatePrecsum) : Option (ℕ × RateLimitTmp) :=
  if limit.is_used then none
  else do
    let prec_ratio ← precRatio R limit precsum
    let allowed_rate := min (R.rnd (max_rate * prec_ratio)) limit.absrate_max
    let maxi_len := min (R.rnd (allowed_rate * window_delay)) (R.rnd sizeMax)
    let len ← toSize maxi_len
    pure (min len request_len, { window_delay := window_delay, maxi_len := maxi_len })

def dataNotify (used_len : ℕ) (limit_tmp : RateLimitTmp) (x : RateLimit × RatePrecsum) :
    RateLimit × RatePrecsum :=
  -- nothing was allowed: the frozen window
  if limit_tmp.maxi_len = 0 then startInuse (setUsedPrec x.1.maxi_prec x)
  else if used_len = 0 then x
  else startInuse (setUsedPrec x.1.maxi_prec x)

/-- `neoip_timeout_expire_cb`, when the timeout runs. -/
def expire (x : RateLimit × RatePrecsum) : RateLimit × RatePrecsum :=
  if x.1.is_used then
    let x := setUsedPrec 0 x
    ({ x.1 with is_used := false, nb_notified := x.1.nb_notified + 1 }, x.2)
  else x

/-! ### One limit -/

/-- The used precedence is the maximum one while the limit is used, and 0 while it is idle. -/
def Sane (limit : RateLimit) : Prop :=
  limit.used_prec = if limit.is_used then limit.maxi_prec else 0

/-- What a function does to a limit, it does to the sums as well. -/
structure Moves (f : RateLimit × RatePrecsum → RateLimit × RatePrecsum) : Prop where
  maxi : ∀ x, (f x).2.maxi_precsum = x.2.maxi_precsum - x.1.maxi_prec + (f x).1.maxi_prec
  used : ∀ x, (f x).2.used_precsum = x.2.used_precsum - x.1.used_prec + (f x).1.used_prec

variable {f g : RateLimit × RatePrecsum → RateLimit × RatePrecsum} {x : RateLimit × RatePrecsum}
  {limit_tmp : RateLimitTmp} {used_len : ℕ}

theorem Moves.comp (hg : Moves g) (hf : Moves f) : Moves fun x => g (f x) where
  maxi x := by
    rw [hg.maxi, hf.maxi]
    abel
  used x := by
    rw [hg.used, hf.used]
    abel

theorem Moves.ite {p : RateLimit × RatePrecsum → Prop} [DecidablePred p] (hf : Moves f)
    (hg : Moves g) : Moves fun x => if p x then f x else g x where
  maxi x := by
    split_ifs
    · exact hf.maxi x
    · exact hg.maxi x
  used x := by
    split_ifs
    · exact hf.used x
    · exact hg.used x

theorem moves_id : Moves fun x => x where
  maxi x := by abel
  used x := by abel

theorem moves_setUsedPrec (new_prec : RatePrec) : Moves (setUsedPrec new_prec) where
  maxi x := by
    rw [setUsedPrec]
    abel
  used _ := rfl

theorem moves_setMaxiPrec (new_prec : RatePrec) : Moves (setMaxiPrec new_prec) := by
  have hset : Moves fun x : RateLimit × RatePrecsum => ({ x.1 with maxi_prec := new_prec },
      { x.2 with maxi_precsum := x.2.maxi_precsum - x.1.maxi_prec + new_prec }) :=
    { maxi := fun _ => rfl, used := fun x => by abel }
  exact hset.comp (Moves.ite (moves_setUsedPrec new_prec) moves_id)

theorem moves_start (maxi_prec : RatePrec) : Moves (start maxi_prec) :=
  (moves_setUsedPrec 0).comp (moves_setMaxiPrec maxi_prec)

theorem moves_dataNotify (used_len : ℕ) (limit_tmp : RateLimitTmp) :
    Moves (dataNotify used_len limit_tmp) := by
  have hused : Moves fun x : RateLimit × RatePrecsum =>
      startInuse (setUsedPrec x.1.maxi_prec x) :=
    { maxi := fun x => by
        rw [startInuse, setUsedPrec]
        abel
      used := fun _ => rfl }
  exact hused.ite (moves_id.ite hused)

theorem moves_expire : Moves expire := by
  have hexpire : Moves fun x : RateLimit × RatePrecsum =>
      ({ (setUsedPrec 0 x).1 with is_used := false, nb_notified := x.1.nb_notified + 1 },
        (setUsedPrec 0 x).2) :=
    ⟨(moves_setUsedPrec 0).maxi, (moves_setUsedPrec 0).used⟩
  exact hexpire.ite moves_id

theorem sane_start (maxi_prec : RatePrec) (h : x.1.is_used = false) :
    Sane (start maxi_prec x).1 := by
  rw [start, setMaxiPrec, h]
  simp [Sane, setUsedPrec, h]

theorem sane_setMaxiPrec (new_prec : RatePrec) (h : Sane x.1) :
    Sane (setMaxiPrec new_prec x).1 := by
  rw [Sane] at h
  rw [setMaxiPrec]
  cases hused : x.1.is_used with
  | true => simp [Sane, setUsedPrec, hused]
  | false =>
    rw [hused] at h
    simpa [Sane, hused] using h

theorem sane_dataNotify (used_len : ℕ) (limit_tmp : RateLimitTmp) (h : Sane x.1) :
    Sane (dataNotify used_len limit_tmp x).1 := by
  rw [dataNotify]
  split_ifs
  · rfl
  · exact h
  · rfl

theorem sane_expire (h : Sane x.1) : Sane (expire x).1 := by
  rw [expire]
  split_ifs
  · rfl
  · exact h

/-- What notifying 0 bytes does depends on whether nothing at all was allowed. -/
theorem dataNotify_zero_used_iff (h : x.1.is_used = false) :
    (dataNotify 0 limit_tmp x).1.is_used = true ↔ limit_tmp.maxi_len = 0 := by
  rw [dataNotify]
  split_ifs with hzero hlen
  · exact iff_of_true rfl hzero
  · rw [h]
    exact iff_of_false Bool.false_ne_true hzero
  · exact absurd rfl hlen

/-! ### One request -/

/-- What a request is allowed by the rates, before it is clamped to a `size_t`, where
`used` is the sum of the used precedences. -/
def allowance (R : Rounding) (max_rate : ℚ≥0) (used : ℕ) (window_delay : ℚ≥0)
    (limit : RateLimit) : ℚ≥0 :=
  R.rnd (min (R.rnd (max_rate * R.rnd (R.rnd limit.maxi_prec.toNat
    / R.rnd (used + limit.maxi_prec.toNat : ℕ)))) limit.absrate_max * window_delay)

/-- A request is answered, with no more than what is asked and what `absrate_max` allows;
after an answer of 0 bytes, notifying 0 bytes makes the limit used. -/
def RequestOk (R : Rounding) (max_rate : ℚ≥0) (request_len : ℕ) (window_delay : ℚ≥0)
    (limit : RateLimit) (precsum : RatePrecsum) : Prop :=
  ∃ len limit_tmp,
    dataRequest R max_rate request_len window_delay limit precsum = some (len, limit_tmp) ∧
    len ≤ request_len ∧ (len : ℚ≥0) ≤ R.rnd (limit.absrate_max * window_delay) ∧
    (0 < request_len → len = 0 → (dataNotify 0 limit_tmp (limit, precsum)).1.is_used = true)

variable {R : Rounding} {limit : RateLimit} {precsum : RatePrecsum} {max_rate : ℚ≥0}
  {request_len : ℕ} {window_delay : ℚ≥0}

theorem toSize_eq_some_iff {y : ℚ≥0} {len : ℕ} :
    toSize y = some len ↔ y < (sizeMax + 1 : ℕ) ∧ ⌊y⌋₊ = len := by
  rw [toSize, ← Nat.floor_lt', Nat.lt_succ_iff]
  · split_ifs with h
    · rw [Option.some_inj, and_iff_right h]
    · exact iff_of_false not_false fun heq => h heq.1
  · exact Nat.succ_ne_zero _

/-- The share of an idle limit is not more than one. -/
theorem ratio_le_one (used maxi : ℕ) (h : used + maxi ≠ 0) :
    R.rnd (R.rnd maxi / R.rnd (used + maxi : ℕ)) ≤ 1 := by
  have hpos : 0 < R.rnd (used + maxi : ℕ) :=
    zero_lt_one.trans_le (R.one_le (Nat.one_le_iff_ne_zero.2 h))
  have hle : R.rnd maxi ≤ R.rnd (used + maxi : ℕ) := by
    apply R.mono
    exact_mod_cast Nat.le_add_left maxi used
  calc R.rnd (R.rnd maxi / R.rnd (used + maxi : ℕ)) ≤ R.rnd 1 := R.mono ((div_le_one hpos).2 hle)
    _ = 1 := R.one

theorem precRatio_eq (hprec : limit.used_prec = 0)
    (hlt : precsum.used_precsum.toNat + limit.maxi_prec.toNat < 2 ^ 64) :
    precRatio R limit precsum =
      if precsum.used_precsum.toNat + limit.maxi_prec.toNat = 0 then none
      else some (R.rnd (R.rnd limit.maxi_prec.toNat
        / R.rnd (precsum.used_precsum.toNat + limit.maxi_prec.toNat : ℕ))) := by
  have hsum : (precsum.used_precsum - limit.used_prec + limit.maxi_prec).toNat =
      precsum.used_precsum.toNat + limit.maxi_prec.toNat := by
    rw [hprec, sub_zero, BitVec.toNat_add, Nat.mod_eq_of_lt hlt]
  simp only [precRatio, hsum, BitVec.toNat_ne]
  split_ifs with h hzero hzero
  · exact absurd hzero h.1
  · rfl
  · rfl
  · exact absurd ⟨hzero, ratio_le_one _ _ hzero⟩ h

theorem dataRequest_eq (hidle : limit.is_used = false) (hprec : limit.used_prec = 0)
    (hlt : precsum.used_precsum.toNat + limit.maxi_prec.toNat < 2 ^ 64)
    (hne : precsum.used_precsum.toNat + limit.maxi_prec.toNat ≠ 0) :
    dataRequest R max_rate request_len window_delay limit precsum =
      let maxi_len := min (allowance R max_rate precsum.used_precsum.toNat window_delay limit)
        (R.rnd sizeMax)
      (toSize maxi_len).map fun len =>
        (min len request_len, { window_delay := window_delay, maxi_len := maxi_len }) := by
  rw [dataRequest, precRatio_eq hprec hlt, if_neg hne, if_neg (Bool.eq_false_iff.1 hidle)]
  show (toSize _).bind _ = _
  rw [Option.map_eq_bind]
  rfl

theorem requestOk_iff (hidle : limit.is_used = false) (hprec : limit.used_prec = 0)
    (hlt : precsum.used_precsum.toNat + limit.maxi_prec.toNat < 2 ^ 64) :
    RequestOk R max_rate request_len window_delay limit precsum ↔
      precsum.used_precsum.toNat + limit.maxi_prec.toNat ≠ 0 ∧
      min (allowance R max_rate precsum.used_precsum.toNat window_delay limit) (R.rnd sizeMax)
        < (sizeMax + 1 : ℕ) ∧
      (request_len = 0 ∨ allowance R max_rate precsum.used_precsum.toNat window_delay limit = 0 ∨
        1 ≤ allowance R max_rate precsum.used_precsum.toNat window_delay limit) := by
  by_cases hne : precsum.used_precsum.toNat + limit.maxi_prec.toNat = 0
  · refine iff_of_false ?_ fun h => h.1 hne
    rintro ⟨len, limit_tmp, heq, -⟩
    rw [dataRequest, precRatio_eq hprec hlt, if_pos hne,
      if_neg (Bool.eq_false_iff.1 hidle)] at heq
    exact nomatch heq
  rw [RequestOk, dataRequest_eq hidle hprec hlt hne, and_iff_right hne]
  have hle : allowance R max_rate precsum.used_precsum.toNat window_delay limit ≤
      R.rnd (limit.absrate_max * window_delay) :=
    R.mono (mul_le_mul_left (min_le_right _ _) _)
  generalize allowance R max_rate precsum.used_precsum.toNat window_delay limit = a at hle ⊢
  have hmax : (1 : ℚ≥0) ≤ R.rnd sizeMax := R.one_le (by decide)
  constructor
  · rintro ⟨len, limit_tmp, heq, -, -, hzero⟩
    obtain ⟨len', hsize, heq⟩ := Option.map_eq_some_iff.1 heq
    obtain ⟨hlt', hfloor⟩ := toSize_eq_some_iff.1 hsize
    obtain ⟨rfl, rfl⟩ := Prod.mk.inj heq
    refine ⟨hlt', ?_⟩
    by_contra hcon
    obtain ⟨hreq, hcon⟩ := not_or.1 hcon
    obtain ⟨hne', hlt1⟩ := not_or.1 hcon
    -- an allowance below one byte is rounded to nothing
    have hlen : len' = 0 := by
      rw [← hfloor, Nat.floor_eq_zero]
      exact (min_le_left _ _).trans_lt (not_le.1 hlt1)
    have hused := hzero (Nat.pos_of_ne_zero hreq) (by rw [hlen, Nat.zero_min])
    rw [dataNotify_zero_used_iff hidle] at hused
    -- notifying 0 bytes only makes the limit used when its allowance is zero
    rcases min_eq_iff.1 hused with ⟨h, -⟩ | ⟨h, -⟩
    · exact hne' h
    · rw [h] at hmax
      exact absurd hmax (not_le.2 zero_lt_one)
  · rintro ⟨hlt', hcases⟩
    refine ⟨_, _, Option.map_eq_some_iff.2 ⟨_, toSize_eq_some_iff.2 ⟨hlt', rfl⟩, rfl⟩,
      min_le_right _ _, ?_, ?_⟩
    · have hfloor : ((min ⌊min a (R.rnd sizeMax)⌋₊ request_len : ℕ) : ℚ≥0) ≤
          ⌊min a (R.rnd sizeMax)⌋₊ := by
        exact_mod_cast min_le_left _ _
      calc _ ≤ _ := hfloor
        _ ≤ min a (R.rnd sizeMax) := Nat.floor_le zero_le
        _ ≤ a := min_le_left _ _
        _ ≤ _ := hle
    · intro hreq hlen
      rw [dataNotify_zero_used_iff hidle]
      rcases hcases with h | h | h
      · exact absurd h (Nat.pos_iff_ne_zero.1 hreq)
      · exact (min_eq_left (h ▸ zero_le)).trans h
      · have hfloor : 1 ≤ ⌊min a (R.rnd sizeMax)⌋₊ := (Nat.one_le_floor_iff _).2 (le_min h hmax)
        omega

end RateLimit

namespace RateSched

def ctor (max_rate : ℚ≥0) : RateSched where
  max_rate := max_rate
  precsum := { maxi_precsum := 0, used_precsum := 0 }
  limit_db := []
  next_id := 0

/-- A function of the limit `id`. -/
def onLimit (id : ℕ) (f : RateLimit × RatePrecsum → RateLimit × RatePrecsum) (s : RateSched) :
    RateSched :=
  match Omap.find id s.limit_db with
  | none => s
  | some limit =>
    { s with
      precsum := (f (limit, s.precsum)).2
      limit_db := Omap.assign (fun a b => decide (a < b)) id (f (limit, s.precsum)).1 s.limit_db }

/-- The constructor and `start` of a limit, at the end of the list. -/
def startLimit (maxi_prec : RatePrec) (absrate_max : Option ℚ≥0) (s : RateSched) : RateSched :=
  let limit := { RateLimit.ctor with absrate_max := absrate_max.getD RateLimit.doubleMax }
  let x := RateLimit.start maxi_prec (limit, s.precsum)
  { s with
    precsum := x.2
    limit_db := Omap.place (fun a b => decide (a < b)) s.next_id x.1 s.limit_db
    next_id := s.next_id + 1 }

/-- The destructor of the limit `id`. -/
def destroy (id : ℕ) (s : RateSched) : RateSched :=
  match Omap.find id s.limit_db with
  | none => s
  | some limit =>
    { s with
      precsum :=
        { maxi_precsum := s.precsum.maxi_precsum - limit.maxi_prec
          used_precsum := s.precsum.used_precsum - limit.used_prec }
      limit_db := Omap.erase id s.limit_db }

/-! ### Runs -/

/-- The calls of the users, and the timers. -/
inductive Event where
  | start (maxi_prec : RatePrec) (absrate_max : Option ℚ≥0)
  | maxiPrec (id : ℕ) (new_prec : RatePrec)
  | absrateMax (id : ℕ) (new_absrate_max : ℚ≥0)
  | maxRate (new_value : ℚ≥0)
  | request (id request_len : ℕ) (window_delay : ℚ≥0)
  | notify (id used_len : ℕ) (limit_tmp : RateLimitTmp)
  | expire (id : ℕ)
  | destroy (id : ℕ)

/-- A request changes nothing. -/
def step (s : RateSched) : Event → RateSched
  | .start maxi_prec absrate_max => s.startLimit maxi_prec absrate_max
  | .maxiPrec id new_prec => s.onLimit id (RateLimit.setMaxiPrec new_prec)
  | .absrateMax id new_absrate_max =>
    s.onLimit id fun x => ({ x.1 with absrate_max := new_absrate_max }, x.2)
  | .maxRate new_value => { s with max_rate := new_value }
  | .request _ _ _ => s
  | .notify id used_len limit_tmp => s.onLimit id (RateLimit.dataNotify used_len limit_tmp)
  | .expire id => s.onLimit id RateLimit.expire
  | .destroy id => s.destroy id

/-! ### What is expected of it -/

def maxiTotal (limit_db : List (ℕ × RateLimit)) : ℕ :=
  (limit_db.map fun x => x.2.maxi_prec.toNat).sum

def usedTotal (limit_db : List (ℕ × RateLimit)) : ℕ :=
  (limit_db.map fun x => x.2.used_prec.toNat).sum

/-- The sums of the scheduler are those of its limits, and the used precedence of a limit
goes with its state. -/
structure Sane (s : RateSched) : Prop where
  maxi : s.precsum.maxi_precsum.toNat = maxiTotal s.limit_db
  used : s.precsum.used_precsum.toNat = usedTotal s.limit_db
  limits : ∀ x ∈ s.limit_db, x.2.Sane

/-- The request of an idle limit is answered as it should be, and the callback is called
when a used limit expires. -/
def StepOk (R : Rounding) (s : RateSched) : Event → Prop
  | .request id request_len window_delay => ∀ limit, Omap.find id s.limit_db = some limit →
      limit.is_used = false →
      RateLimit.RequestOk R s.max_rate request_len window_delay limit s.precsum
  | .expire id => ∀ limit, Omap.find id s.limit_db = some limit → limit.is_used = true →
      ∃ limit', Omap.find id (s.step (.expire id)).limit_db = some limit' ∧
        limit'.is_used = false ∧ limit'.nb_notified = limit.nb_notified + 1
  | _ => True

/-- The maximum precedences add up to a `size_t`; there is a precedence to share, and what a
request of some bytes is allowed is a `size_t`, and is not a part of a byte. -/
def EventOk (R : Rounding) (s : RateSched) : Event → Prop
  | .start maxi_prec _ => maxiTotal s.limit_db + maxi_prec.toNat < 2 ^ 64
  | .maxiPrec id new_prec => ∀ limit, Omap.find id s.limit_db = some limit →
      maxiTotal (Omap.erase id s.limit_db) + new_prec.toNat < 2 ^ 64
  | .request id request_len window_delay => ∀ limit, Omap.find id s.limit_db = some limit →
      limit.is_used = false →
      usedTotal s.limit_db + limit.maxi_prec.toNat ≠ 0 ∧
      min (limit.allowance R s.max_rate (usedTotal s.limit_db) window_delay)
        (R.rnd RateLimit.sizeMax) < (RateLimit.sizeMax + 1 : ℕ) ∧
      (request_len = 0 ∨ limit.allowance R s.max_rate (usedTotal s.limit_db) window_delay = 0 ∨
        1 ≤ limit.allowance R s.max_rate (usedTotal s.limit_db) window_delay)
  | _ => True

/-! ### The sums -/

/-- What holds whatever the limits do: the sums are right modulo the size of a word. -/
structure Counted (s : RateSched) : Prop where
  keyed : Omap.Keyed s.limit_db
  fresh : ∀ x ∈ s.limit_db, x.1 < s.next_id
  maxi : Tallied RateLimit.maxi_prec s.precsum.maxi_precsum s.limit_db
  used : Tallied RateLimit.used_prec s.precsum.used_precsum s.limit_db
  limits : ∀ x ∈ s.limit_db, x.2.Sane

variable {R : Rounding} {s : RateSched} {id : ℕ} {limit : RateLimit}
  {f : RateLimit × RatePrecsum → RateLimit × RatePrecsum}

theorem counted_ctor (max_rate : ℚ≥0) : Counted (ctor max_rate) :=
  ⟨List.nodup_nil, nofun, rfl, rfl, nofun⟩

theorem onLimit_of_none (f : RateLimit × RatePrecsum → RateLimit × RatePrecsum)
    (hfind : Omap.find id s.limit_db = none) : s.onLimit id f = s := by
  rw [onLimit, hfind]

theorem onLimit_of_some (f : RateLimit × RatePrecsum → RateLimit × RatePrecsum)
    (hfind : Omap.find id s.limit_db = some limit) : s.onLimit id f = { s with
      precsum := (f (limit, s.precsum)).2
      limit_db :=
        Omap.assign (fun a b => decide (a < b)) id (f (limit, s.precsum)).1 s.limit_db } := by
  rw [onLimit, hfind]

theorem Counted.onLimit (h : Counted s) (id : ℕ) (hf : RateLimit.Moves f)
    (hsane : ∀ x, x.1.Sane → (f x).1.Sane) : Counted (s.onLimit id f) := by
  cases hfind : Omap.find id s.limit_db with
  | none =>
    rw [onLimit_of_none f hfind]
    exact h
  | some limit =>
    have hmem := Omap.mem_of_find hfind
    rw [onLimit_of_some f hfind]
    refine ⟨Omap.keyed_assign h.keyed, ?_, ?_, ?_, ?_⟩
    · intro x hx
      rcases Omap.mem_place.1 hx with rfl | hx
      · exact h.fresh (id, limit) hmem
      · exact h.fresh x (Omap.mem_erase.1 hx).1
    · rw [hf.maxi]
      exact h.maxi.assign h.keyed hmem
    · rw [hf.used]
      exact h.used.assign h.keyed hmem
    · intro x hx
      rcases Omap.mem_place.1 hx with rfl | hx
      · exact hsane _ (h.limits _ hmem)
      · exact h.limits x (Omap.mem_erase.1 hx).1

theorem Counted.startLimit (h : Counted s) (maxi_prec : RatePrec) (absrate_max : Option ℚ≥0) :
    Counted (s.startLimit maxi_prec absrate_max) := by
  have hfind : Omap.find s.next_id s.limit_db = none :=
    Omap.find_eq_none.2 fun a ha => absurd (h.fresh _ ha) (Nat.lt_irrefl _)
  have hmoves := RateLimit.moves_start maxi_prec
  refine ⟨Omap.keyed_place h.keyed hfind, ?_, ?_, ?_, ?_⟩
  · intro x hx
    rcases Omap.mem_place.1 hx with rfl | hx
    · exact Nat.lt_succ_self _
    · exact (h.fresh x hx).trans (Nat.lt_succ_self _)
  · show Tallied _ (RateLimit.start maxi_prec _).2.maxi_precsum _
    rw [hmoves.maxi]
    show Tallied _ (s.precsum.maxi_precsum - 0 + _) _
    rw [sub_zero]
    exact h.maxi.place
  · show Tallied _ (RateLimit.start maxi_prec _).2.used_precsum _
    rw [hmoves.used]
    show Tallied _ (s.precsum.used_precsum - 0 + _) _
    rw [sub_zero]
    exact h.used.place
  · intro x hx
    rcases Omap.mem_place.1 hx with rfl | hx
    · exact RateLimit.sane_start maxi_prec rfl
    · exact h.limits x hx

theorem Counted.destroy (h : Counted s) (id : ℕ) : Counted (s.destroy id) := by
  rw [RateSched.destroy]
  cases hfind : Omap.find id s.limit_db with
  | none => exact h
  | some limit =>
    have hmem := Omap.mem_of_find hfind
    exact ⟨Omap.keyed_erase h.keyed, fun x hx => h.fresh x (Omap.mem_erase.1 hx).1,
      h.maxi.erase h.keyed hmem, h.used.erase h.keyed hmem,
      fun x hx => h.limits x (Omap.mem_erase.1 hx).1⟩

theorem step_counted (h : Counted s) (e : Event) : Counted (s.step e) := by
  cases e with
  | start maxi_prec absrate_max => exact h.startLimit maxi_prec absrate_max
  | maxiPrec id new_prec =>
    exact h.onLimit id (RateLimit.moves_setMaxiPrec new_prec)
      fun _ => RateLimit.sane_setMaxiPrec new_prec
  | absrateMax id new_absrate_max =>
    have hmoves : RateLimit.Moves fun x => ({ x.1 with absrate_max := new_absrate_max }, x.2) :=
      ⟨RateLimit.moves_id.maxi, RateLimit.moves_id.used⟩
    exact h.onLimit id hmoves fun _ hsane => hsane
  | maxRate new_value => exact ⟨h.keyed, h.fresh, h.maxi, h.used, h.limits⟩
  | request id request_len window_delay => exact h
  | notify id used_len limit_tmp =>
    exact h.onLimit id (RateLimit.moves_dataNotify used_len limit_tmp)
      fun _ => RateLimit.sane_dataNotify used_len limit_tmp
  | expire id => exact h.onLimit id RateLimit.moves_expire fun _ => RateLimit.sane_expire
  | destroy id => exact h.destroy id

/-! ### While the sums fit -/

theorem usedTotal_le {l : List (ℕ × RateLimit)} (h : ∀ x ∈ l, x.2.Sane) :
    usedTotal l ≤ maxiTotal l := by
  apply List.sum_le_sum
  intro x hx
  rw [h x hx]
  split_ifs
  · exact le_rfl
  · exact Nat.zero_le _

theorem Counted.sane_iff (h : Counted s) : s.Sane ↔ maxiTotal s.limit_db < 2 ^ 64 := by
  constructor
  · intro hsane
    exact h.maxi.toNat_eq_iff.1 hsane.maxi
  · intro hlt
    exact ⟨h.maxi.toNat_eq_iff.2 hlt,
      h.used.toNat_eq_iff.2 ((usedTotal_le h.limits).trans_lt hlt), h.limits⟩

theorem maxiTotal_erase (h : Counted s) (hfind : Omap.find id s.limit_db = some limit) :
    maxiTotal s.limit_db = limit.maxi_prec.toNat + maxiTotal (Omap.erase id s.limit_db) :=
  Omap.sum_erase h.keyed (Omap.mem_of_find hfind) _

theorem maxiTotal_onLimit (f : RateLimit × RatePrecsum → RateLimit × RatePrecsum)
    (hfind : Omap.find id s.limit_db = some limit) : maxiTotal (s.onLimit id f).limit_db =
      (f (limit, s.precsum)).1.maxi_prec.toNat + maxiTotal (Omap.erase id s.limit_db) := by
  rw [onLimit_of_some f hfind]
  exact Omap.sum_place _

/-- What leaves the maximum precedence of a limit as it is. -/
theorem sane_onLimit (h : Counted s) (hsane : s.Sane) (hcounted : Counted (s.onLimit id f))
    (hf : ∀ x, (f x).1.maxi_prec = x.1.maxi_prec) : Sane (s.onLimit id f) := by
  rw [hcounted.sane_iff]
  rw [h.sane_iff] at hsane
  cases hfind : Omap.find id s.limit_db with
  | none => rwa [onLimit_of_none f hfind]
  | some limit =>
    rw [maxiTotal_onLimit f hfind, hf]
    rwa [maxiTotal_erase h hfind] at hsane

/-- What an idle limit asks for fits in the sum. -/
theorem used_add_lt (h : Counted s) (hsane : s.Sane)
    (hfind : Omap.find id s.limit_db = some limit) (hprec : limit.used_prec = 0) :
    s.precsum.used_precsum.toNat + limit.maxi_prec.toNat < 2 ^ 64 := by
  have hlt := h.sane_iff.1 hsane
  have hmaxi := maxiTotal_erase h hfind
  have hused : usedTotal s.limit_db =
      limit.used_prec.toNat + usedTotal (Omap.erase id s.limit_db) :=
    Omap.sum_erase h.keyed (Omap.mem_of_find hfind) _
  have hzero : limit.used_prec.toNat = 0 := by
    rw [hprec]
    rfl
  have hle : usedTotal (Omap.erase id s.limit_db) ≤ maxiTotal (Omap.erase id s.limit_db) :=
    usedTotal_le fun x hx => h.limits x (Omap.mem_erase.1 hx).1
  rw [hsane.used]
  omega

theorem request_iff (h : Counted s) (hsane : s.Sane) (id request_len : ℕ) (window_delay : ℚ≥0) :
    StepOk R s (.request id request_len window_delay) ↔
      EventOk R s (.request id request_len window_delay) := by
  have hlimit : ∀ limit, Omap.find id s.limit_db = some limit → limit.is_used = false →
      limit.used_prec = 0 := by
    intro limit hfind hidle
    have hprec := h.limits _ (Omap.mem_of_find hfind)
    rwa [RateLimit.Sane, hidle] at hprec
  simp only [StepOk, EventOk, ← hsane.used]
  constructor
  · intro hok limit hfind hidle
    have hprec := hlimit limit hfind hidle
    exact (RateLimit.requestOk_iff hidle hprec (used_add_lt h hsane hfind hprec)).1
      (hok limit hfind hidle)
  · intro hok limit hfind hidle
    have hprec := hlimit limit hfind hidle
    exact (RateLimit.requestOk_iff hidle hprec (used_add_lt h hsane hfind hprec)).2
      (hok limit hfind hidle)

theorem expire_ok (id : ℕ) : StepOk R s (.expire id) := by
  intro limit hfind hused
  refine ⟨(RateLimit.expire (limit, s.precsum)).1, ?_, ?_⟩
  · rw [step, onLimit_of_some _ hfind]
    exact Omap.find_assign_self
  · rw [RateLimit.expire, if_pos hused]
    exact ⟨rfl, rfl⟩

/-- **One step**: the sums stay right, and what is expected of the step is met, exactly
where the precedences fit, and a request is allowed nothing or at least one byte. -/
theorem step_sane_iff (h : Counted s) (hsane : s.Sane) (e : Event) :
    Sane (s.step e) ∧ StepOk R s e ↔ EventOk R s e := by
  have hcounted := step_counted h e
  cases e with
  | start maxi_prec absrate_max =>
    rw [hcounted.sane_iff]
    have htotal : maxiTotal (s.step (.start maxi_prec absrate_max)).limit_db =
        maxi_prec.toNat + maxiTotal s.limit_db := Omap.sum_place _
    rw [htotal, Nat.add_comm]
    exact and_iff_left trivial
  | maxiPrec id new_prec =>
    refine (and_iff_left trivial).trans ?_
    rw [hcounted.sane_iff]
    cases hfind : Omap.find id s.limit_db with
    | none =>
      rw [step, onLimit_of_none _ hfind]
      refine iff_of_true (h.sane_iff.1 hsane) fun limit hlimit => ?_
      rw [hfind] at hlimit
      exact nomatch hlimit
    | some limit =>
      rw [step, maxiTotal_onLimit _ hfind, Nat.add_comm]
      exact ⟨fun hlt _ _ => hlt, fun hok => hok limit hfind⟩
  | absrateMax id new_absrate_max =>
    have hkeep := sane_onLimit (f := fun x => ({ x.1 with absrate_max := new_absrate_max }, x.2))
      h hsane hcounted fun _ => rfl
    exact iff_of_true ⟨hkeep, trivial⟩ trivial
  | maxRate new_value => exact iff_of_true ⟨⟨hsane.maxi, hsane.used, hsane.limits⟩, trivial⟩ trivial
  | request id request_len window_delay =>
    exact (and_iff_right hsane).trans (request_iff h hsane id request_len window_delay)
  | notify id used_len limit_tmp =>
    refine iff_of_true ⟨sane_onLimit h hsane hcounted fun x => ?_, trivial⟩ trivial
    rw [RateLimit.dataNotify]
    split_ifs <;> rfl
  | expire id =>
    refine iff_of_true ⟨sane_onLimit h hsane hcounted fun x => ?_, expire_ok id⟩ trivial
    rw [RateLimit.expire]
    split_ifs <;> rfl
  | destroy id =>
    refine iff_of_true ⟨?_, trivial⟩ trivial
    rw [hcounted.sane_iff, step, RateSched.destroy]
    have hlt := h.sane_iff.1 hsane
    cases hfind : Omap.find id s.limit_db with
    | none => exact hlt
    | some limit =>
      rw [maxiTotal_erase h hfind] at hlt
      exact (Nat.le_add_left _ _).trans_lt hlt

/-- **The rate scheduler**: the sums are those of the limits, and a request is answered as
it should be, exactly in the runs where the precedences fit in their sum, and where no
request is allowed only a part of a byte. -/
theorem always_sane_iff (R : Rounding) (max_rate : ℚ≥0) (evs : List Event) :
    Always step Sane (ctor max_rate) evs ∧ Guarded step (StepOk R) (ctor max_rate) evs ↔
      Guarded step (EventOk R) (ctor max_rate) evs :=
  always_and_guarded_iff (fun _ e hcounted _ _ => step_counted hcounted e)
    (fun _ e hcounted hsane _ => step_sane_iff hcounted hsane e)
    ⟨rfl, rfl, nofun⟩ (counted_ctor max_rate) always_true

/-- The numbers as they are. -/
def exactRounding : Rounding where
  rnd x := x
  mono _ _ h := h
  one := rfl

/-- With a rate of one byte a second, half a second allows half a byte. -/
theorem not_always_sane :
    ¬(Always step Sane (ctor 1) [.start 50 none, .request 0 10 (1 / 2)] ∧
      Guarded step (StepOk exactRounding) (ctor 1)
        [.start 50 none, .request 0 10 (1 / 2)]) := by
  rintro ⟨-, -, hok, -⟩
  have hhalf : RateLimit.allowance exactRounding 1 0 (1 / 2)
      { RateLimit.ctor with maxi_prec := 50 } = 1 / 2 := by decide +kernel
  obtain ⟨-, -, hcases⟩ := (RateLimit.requestOk_iff rfl rfl (by decide)).1 (hok _ rfl rfl)
  rcases hcases with h | h | h
  · exact absurd h (by decide)
  · exact one_div_ne_zero two_ne_zero (hhalf.symm.trans h)
  · exact absurd (h.trans hhalf.le) (not_le.2 one_half_lt_one)

end RateSched

end Neoip
