/-
Neoip/Timeout.lean

Periodic timers: `timeout_t`, over a timer of libevent which fires once.

The timeout is started when `next_expire_date` is not null, while the timer of
libevent is pending or not on its own.  The callback of an expiration may do
anything with both, and what is done after it is guessed from them: when the
timeout is started and the timer is not pending, it is taken for one which
the callback left alone.

`Timer` is what the timeout is for: the delay it was started with, and when.
The callback has a `true` result, as otherwise there is no timeout any more.

Main result: `timeout_iff`, in which runs the timeout does as the timer.
-/
import Neoip.Delay
import Neoip.Run

namespace Neoip

/-- `struct timeval` -/
structure Timeval where
  tv_sec : ℕ
  tv_usec : ℕ

/-- What is done with a timeout, at some date. -/
inductive TimeoutAct
  | start (period present : Delay)
  | stop
  | changePeriod (period : Delay)

/-- What is done from outside, and the expiration, with what its callback does and the date at
which it returns. -/
inductive TimeoutEvent
  | act (act : TimeoutAct)
  | expire (acts : List TimeoutAct) (present : Delay)

def TimeoutAct.restarts : TimeoutAct → Bool
  | .changePeriod _ => false
  | _ => true

/-! ### `timeout_t` -/

/-- `external` is what the timer of libevent is pending with, and `callback` whether there is one.
The notifications are counted. -/
structure Timeout where
  period : Delay
  next_expire_date : Delay
  callback : Bool
  external : Option Timeval
  notified : ℕ

namespace Timeout

def ctor : Timeout := ⟨.NONE, .NONE, false, none, 0⟩

def isNull (c : Timeout) : Bool := !c.callback

def isStarted (c : Timeout) : Bool :=
  if c.isNull then false else if c.next_expire_date.isNull then false else true

def externalIsStarted (c : Timeout) : Bool := c.external.isSome

def timeval (delay : Delay) : Timeval where
  tv_sec := delay.toMsec32bit.toNat / 1000
  tv_usec := delay.toMsec32bit.toNat % 1000 * 1000

def externalStart (delay : Delay) (c : Timeout) : Timeout :=
  { c with external := some (timeval delay) }

def externalStop (c : Timeout) : Timeout := { c with external := none }

def launchTimerext (present delay : Delay) (c : Timeout) : Timeout :=
  if delay.isNull then { c with next_expire_date := .NONE }
  else if delay.isInfinite then { c with next_expire_date := delay }
  else ({ c with next_expire_date := present + delay }).externalStart delay

def start (period present : Delay) (c : Timeout) : Timeout :=
  let c := if c.externalIsStarted then c.externalStop else c
  ({ c with period, callback := true }).launchTimerext present period

def stop (c : Timeout) : Timeout :=
  let c := if c.externalIsStarted then c.externalStop else c
  { c with next_expire_date := .NONE }

def changePeriod (period : Delay) (c : Timeout) : Timeout := { c with period }

def act (c : Timeout) : TimeoutAct → Timeout
  | .start period present => c.start period present
  | .stop => c.stop
  | .changePeriod period => c.changePeriod period

/-- The callback does its acts. -/
def cppExpiredCb (acts : List TimeoutAct) (present : Delay) (c : Timeout) : Timeout :=
  let c := acts.foldl act { c with notified := c.notified + 1 }
  if c.isStarted && !c.externalIsStarted then c.launchTimerext present c.period else c

/-- The timer of libevent fires when it is pending, which it is not any more then. -/
def step (c : Timeout) : TimeoutEvent → Timeout
  | .act a => c.act a
  | .expire acts present =>
    if c.externalIsStarted then c.externalStop.cppExpiredCb acts present else c

/-- The delay in milliseconds which the timer of libevent is pending with. -/
def armed (c : Timeout) : Option ℕ := c.external.map fun tv => tv.tv_sec * 1000 + tv.tv_usec / 1000

end Timeout

/-! ### What it is for -/

/-- A timer, with the delay it was started with and the date. -/
structure Timer where
  period : Delay
  started : Option (Delay × Delay)
  notified : ℕ

namespace Timer

def ctor : Timer := ⟨.NONE, none, 0⟩

/-- Without a delay it is not started. -/
def launch (present delay : Delay) (t : Timer) : Timer :=
  { t with started := if delay.isNull then none else some (delay, present) }

def act (t : Timer) : TimeoutAct → Timer
  | .start period present => ({ t with period }).launch present period
  | .stop => { t with started := none }
  | .changePeriod period => { t with period }

/-- It is armed when it is started with a delay which is finite. -/
def armed (t : Timer) : Option ℕ :=
  t.started.bind fun s => if s.1.isInfinite then none else some s.1.val_ms.toNat

/-- After the callback, it is started with its period, unless the callback stopped or started
it. -/
def step (t : Timer) : TimeoutEvent → Timer
  | .act a => t.act a
  | .expire acts present =>
    if t.armed.isSome then
      let t := acts.foldl act { t with notified := t.notified + 1 }
      if acts.any TimeoutAct.restarts then t else t.launch present t.period
    else t

end Timer

/-! ### Both -/

namespace Timeout

def pairStep (s : Timeout × Timer) (e : TimeoutEvent) : Timeout × Timer := (s.1.step e, s.2.step e)

/-- The timeout does as the timer. -/
structure Follows (s : Timeout × Timer) : Prop where
  started : s.1.isStarted = s.2.started.isSome
  armed : s.1.armed = s.2.armed
  period : s.1.period = s.2.period
  notified : s.1.notified = s.2.notified

/-- The delay fits in 32 bits, and does not end at the date which stands for none. -/
def Fits (date delay : Delay) : Prop := delay.val_ms.toNat < 2 ^ 32 ∧ date + delay ≠ .NONE

def LaunchOk (present delay : Delay) : Prop :=
  delay.isNull = true ∨ delay.isInfinite = true ∨ Fits present delay

/-- After the callback: the delay which it started with last fits, or is for ever and so is the
period; or, when it left the timer alone, the period is launched rightly. -/
def ExpireOk (acts : List TimeoutAct) (present : Delay) (t : Timer) : Prop :=
  if acts.any TimeoutAct.restarts then
    match (acts.foldl Timer.act t).started with
    | none => True
    | some (delay, date) =>
      if delay.isInfinite then (acts.foldl Timer.act t).period.isInfinite = true
      else Fits date delay
  else LaunchOk present (acts.foldl Timer.act t).period

/-- When an event is handled rightly. -/
def StepOk (s : Timeout × Timer) : TimeoutEvent → Prop
  | .act (.start period present) => LaunchOk present period
  | .act _ => True
  | .expire acts present => s.2.armed.isSome → ExpireOk acts present s.2

/-! ### What the fields are after a launch -/

section Fields

variable {c : Timeout} {t : Timer} {present delay : Delay}

def nextDateOf : Option (Delay × Delay) → Delay
  | none => .NONE
  | some (delay, date) => if delay.isInfinite then delay else date + delay

def externalOf : Option (Delay × Delay) → Option Timeval
  | none => none
  | some (delay, _) => if delay.isInfinite then none else some (timeval delay)

/-- The fields are those which come of the delay and the date of the timer. -/
structure Tracks (c : Timeout) (t : Timer) : Prop where
  next : c.next_expire_date = nextDateOf t.started
  external : c.external = externalOf t.started
  callback : t.started ≠ none → c.callback = true

/-- What is started is found started, and armed with its delay. -/
def StartedOk : Option (Delay × Delay) → Prop
  | none => True
  | some (delay, date) => delay.isInfinite = true ∨ Fits date delay

theorem tracks_launch (hexternal : c.external = none) (hcallback : c.callback = true) :
    Tracks (c.launchTimerext present delay) (t.launch present delay) := by
  rw [launchTimerext, Timer.launch]
  by_cases hnull : delay.isNull = true
  · rw [if_pos hnull, if_pos hnull]
    exact ⟨rfl, hexternal, fun _ => hcallback⟩
  · rw [if_neg hnull, if_neg hnull]
    by_cases hinf : delay.isInfinite = true
    · rw [if_pos hinf]
      exact ⟨(if_pos hinf).symm, hexternal.trans (if_pos hinf).symm, fun _ => hcallback⟩
    · rw [if_neg hinf]
      exact ⟨(if_neg hinf).symm, (if_neg hinf).symm, fun _ => hcallback⟩

theorem startedOk_launch : StartedOk (t.launch present delay).started ↔ LaunchOk present delay := by
  rw [Timer.launch, LaunchOk]
  by_cases hnull : delay.isNull = true
  · rw [if_pos hnull]
    exact iff_of_true trivial (.inl hnull)
  · rw [if_neg hnull]
    exact (or_iff_right hnull).symm

theorem isStarted_iff : c.isStarted = true ↔ c.callback = true ∧ c.next_expire_date ≠ .NONE := by
  simp [isStarted, isNull, Delay.isNull]

/-- The milliseconds of a `timeval` are those of 32 bits. -/
theorem armed_timeval (delay : Delay) :
    (timeval delay).tv_sec * 1000 + (timeval delay).tv_usec / 1000 = delay.toMsec32bit.toNat := by
  rw [timeval, Nat.mul_div_cancel _ (by decide : 0 < 1000)]
  exact Nat.div_add_mod' _ _

/-- **The fields say what they should** when what was launched was launched rightly. -/
theorem Tracks.follows_iff (h : Tracks c t) (hperiod : c.period = t.period)
    (hnotified : c.notified = t.notified) : Follows (c, t) ↔ StartedOk t.started := by
  have hfollows : Follows (c, t) ↔ c.isStarted = t.started.isSome ∧ c.armed = t.armed :=
    ⟨fun hf => ⟨hf.started, hf.armed⟩, fun hf => ⟨hf.1, hf.2, hperiod, hnotified⟩⟩
  obtain ⟨hnext, hexternal, hcallback⟩ := h
  rw [hfollows, armed, Timer.armed, hexternal, Bool.eq_iff_iff, isStarted_iff, hnext]
  rcases hstarted : t.started with - | ⟨delay, date⟩
  · exact iff_of_true ⟨iff_of_false (fun h => h.2 rfl) Bool.false_ne_true, rfl⟩ trivial
  · have hcallback : c.callback = true := hcallback (hstarted ▸ Option.some_ne_none _)
    rw [and_iff_right hcallback, nextDateOf, externalOf, StartedOk, Option.bind_some]
    by_cases hinf : delay.isInfinite = true
    · rw [if_pos hinf, if_pos hinf]
      refine iff_of_true ⟨iff_of_true (fun hnone => ?_) rfl, (if_pos hinf).symm⟩ (.inl hinf)
      rw [Delay.isInfinite_iff.1 hinf] at hnone
      exact absurd hnone (by decide)
    · rw [if_neg hinf, if_neg hinf, if_neg hinf, or_iff_right hinf, Option.map_some,
        armed_timeval, Option.some_inj, Delay.toNat_toMsec32bit_iff, and_comm]
      exact and_congr_right fun _ => iff_true_right rfl

end Fields

/-! ### Acts -/

section Acts

variable {c : Timeout} {t : Timer} {acts : List TimeoutAct}

theorem start_eq (period present : Delay) (c : Timeout) : c.start period present =
    ({ c with external := none, period, callback := true }).launchTimerext present period := by
  rw [start, externalIsStarted]
  rcases hexternal : c.external with - | tv
  · rw [Option.isSome_none, if_neg Bool.false_ne_true, ← hexternal]
  · rfl

theorem stop_eq (c : Timeout) : c.stop = { c with external := none, next_expire_date := .NONE } := by
  rw [stop, externalIsStarted]
  rcases hexternal : c.external with - | tv
  · rw [Option.isSome_none, if_neg Bool.false_ne_true, ← hexternal]
  · rfl

/-- What a launch leaves as it was. -/
theorem launchTimerext_frame (present delay : Delay) (c : Timeout) :
    (c.launchTimerext present delay).period = c.period ∧
      (c.launchTimerext present delay).notified = c.notified := by
  rw [launchTimerext]
  split_ifs
  · exact ⟨rfl, rfl⟩
  · exact ⟨rfl, rfl⟩
  · exact ⟨rfl, rfl⟩

/-- An act which restarts sets the fields, whatever they were. -/
theorem tracks_act {a : TimeoutAct} (h : a.restarts = true ∨ Tracks c t) :
    Tracks (c.act a) (t.act a) := by
  cases a with
  | start period present =>
    show Tracks (c.start period present) _
    rw [start_eq]
    exact tracks_launch rfl rfl
  | stop =>
    show Tracks c.stop _
    rw [stop_eq]
    exact ⟨rfl, rfl, fun h => absurd rfl h⟩
  | changePeriod period =>
    obtain ⟨hnext, hexternal, hcallback⟩ := h.resolve_left Bool.false_ne_true
    exact ⟨hnext, hexternal, hcallback⟩

theorem act_frame (a : TimeoutAct) (h : c.period = t.period ∧ c.notified = t.notified) :
    (c.act a).period = (t.act a).period ∧ (c.act a).notified = (t.act a).notified := by
  cases a with
  | start period present =>
    obtain ⟨hperiod, hnotified⟩ : (c.start period present).period = period ∧
        (c.start period present).notified = c.notified := by
      rw [start_eq]
      exact launchTimerext_frame ..
    exact ⟨hperiod, hnotified.trans h.2⟩
  | stop =>
    show c.stop.period = t.period ∧ c.stop.notified = t.notified
    rw [stop_eq]
    exact h
  | changePeriod period => exact ⟨rfl, h.2⟩

/-- The acts of a callback leave the period and the count the same on both sides. -/
theorem foldl_act_frame (acts : List TimeoutAct) (h : c.period = t.period ∧ c.notified = t.notified) :
    (acts.foldl act c).period = (acts.foldl Timer.act t).period ∧
      (acts.foldl act c).notified = (acts.foldl Timer.act t).notified := by
  induction acts generalizing c t with
  | nil => exact h
  | cons a acts ih => exact ih (act_frame a h)

theorem tracks_foldl_act (h : acts.any TimeoutAct.restarts = true ∨ Tracks c t) :
    Tracks (acts.foldl act c) (acts.foldl Timer.act t) := by
  induction acts generalizing c t with
  | nil => exact h.resolve_left Bool.false_ne_true
  | cons a acts ih =>
    rw [List.any_cons, Bool.or_eq_true, or_right_comm] at h
    exact ih (h.symm.imp_right tracks_act)

/-- Acts which do not restart leave the fields as they were. -/
theorem foldl_act_of_not_restarts (h : acts.any TimeoutAct.restarts = false) :
    ∃ period, acts.foldl act c = { c with period } := by
  induction acts generalizing c with
  | nil => exact ⟨c.period, rfl⟩
  | cons a acts ih =>
    rw [List.any_cons, Bool.or_eq_false_iff] at h
    cases a with
    | changePeriod period =>
      obtain ⟨period', heq⟩ := ih (c := c.changePeriod period) h.2
      exact ⟨period', heq⟩
    | start period present => cases h.1
    | stop => cases h.1

/-! ### Steps -/

variable {present : Delay}

theorem Follows.externalIsStarted (h : Follows (c, t)) :
    c.externalIsStarted = t.armed.isSome := by
  have harmed : c.armed = t.armed := h.armed
  rw [← harmed, Timeout.armed, Option.isSome_map]
  rfl

/-- A timer which was armed is started. -/
theorem Follows.isStarted (h : Follows (c, t)) (harmed : t.armed.isSome = true) :
    c.isStarted = true := by
  rw [show c.isStarted = t.started.isSome from h.started]
  rcases hstarted : t.started with - | s
  · rw [Timer.armed, hstarted] at harmed
    cases harmed
  · rfl

/-- The acts of a callback do not count. -/
theorem foldl_act_notified (acts : List TimeoutAct) (t : Timer) (n : ℕ) :
    acts.foldl Timer.act { t with notified := n } =
      { acts.foldl Timer.act t with notified := n } := by
  induction acts generalizing t with
  | nil => rfl
  | cons a acts ih =>
    have hact : Timer.act { t with notified := n } a = { t.act a with notified := n } := by
      cases a <;> rfl
    rw [List.foldl_cons, List.foldl_cons, hact, ih]

/-- A timeout which was started for ever is launched again, with its period. -/
theorem follows_launch_iff {delay date : Delay} (h : Tracks c t) (hperiod : c.period = t.period)
    (hnotified : c.notified = t.notified) (hstarted : t.started = some (delay, date))
    (hinf : delay.isInfinite = true) :
    Follows (c.launchTimerext present c.period, t) ↔ t.period.isInfinite = true := by
  have hexternal : c.external = none := by
    rw [h.external, hstarted, externalOf, if_pos hinf]
  have hframe := launchTimerext_frame present c.period c
  rw [← hperiod]
  constructor
  · intro hf
    by_contra hfinite
    rw [launchTimerext] at hf
    by_cases hnull : c.period.isNull = true
    · rw [if_pos hnull] at hf
      have hisStarted : _ = t.started.isSome := hf.started
      rw [hstarted, Option.isSome_some, isStarted_iff] at hisStarted
      exact hisStarted.2 rfl
    · rw [if_neg hnull, if_neg hfinite] at hf
      have harmed : some _ = t.armed := hf.armed
      rw [Timer.armed, hstarted, Option.bind_some, if_pos hinf] at harmed
      cases harmed
  · intro hperiodInf
    have htracks : Tracks (c.launchTimerext present c.period) t := by
      rw [launchTimerext, if_neg (by rw [Delay.isNull_of_isInfinite hperiodInf]; exact nofun),
        if_pos hperiodInf]
      refine ⟨?_, h.external, h.callback⟩
      rw [hstarted, nextDateOf, if_pos hinf, Delay.isInfinite_iff.1 hinf,
        Delay.isInfinite_iff.1 hperiodInf]
    rw [htracks.follows_iff (hframe.1.trans hperiod) (hframe.2.trans hnotified), hstarted]
    exact .inl hinf

/-- After a callback which restarts. -/
theorem follows_restarted_iff (present : Delay) (h : Tracks c t) (hperiod : c.period = t.period)
    (hnotified : c.notified = t.notified) :
    Follows (if c.isStarted && !c.externalIsStarted then c.launchTimerext present c.period else c, t) ↔
      match t.started with
      | none => True
      | some (delay, date) =>
        if delay.isInfinite then t.period.isInfinite = true else Fits date delay := by
  have hfollows := h.follows_iff hperiod hnotified
  rcases hstarted : t.started with - | ⟨delay, date⟩
  · have hstopped : ¬ c.isStarted = true := by
      rw [isStarted_iff, h.next, hstarted]
      exact fun h => h.2 rfl
    rw [Bool.eq_false_of_not_eq_true hstopped, Bool.false_and, if_neg Bool.false_ne_true, hfollows,
      hstarted]
    rfl
  · by_cases hinf : delay.isInfinite = true
    · have hexternal : c.externalIsStarted = false := by
        rw [externalIsStarted, h.external, hstarted, externalOf, if_pos hinf]
        rfl
      have hisStarted : c.isStarted = true := by
        rw [isStarted_iff, h.next, hstarted, nextDateOf, if_pos hinf, Delay.isInfinite_iff.1 hinf]
        exact ⟨h.callback (hstarted ▸ Option.some_ne_none _), by decide⟩
      rw [hisStarted, hexternal, Bool.not_false, Bool.true_and, if_pos rfl,
        follows_launch_iff h hperiod hnotified hstarted hinf]
      exact (if_pos hinf).to_iff.symm
    · have hexternal : c.externalIsStarted = true := by
        rw [externalIsStarted, h.external, hstarted, externalOf, if_neg hinf]
        rfl
      rw [hexternal, Bool.not_true, Bool.and_false, if_neg Bool.false_ne_true, hfollows, hstarted]
      exact (or_iff_right hinf).trans (if_neg hinf).to_iff.symm

/-- After a callback which leaves the timer alone. -/
theorem follows_left_iff (present : Delay) (hstarted : c.isStarted = true)
    (hexternal : c.external = none) (hperiod : c.period = t.period)
    (hnotified : c.notified = t.notified) :
    Follows (if c.isStarted && !c.externalIsStarted then c.launchTimerext present c.period else c,
      t.launch present t.period) ↔ LaunchOk present t.period := by
  have hpending : c.externalIsStarted = false := by
    rw [externalIsStarted, hexternal]
    rfl
  have hframe := launchTimerext_frame present c.period c
  rw [hstarted, hpending, Bool.not_false, Bool.true_and, if_pos rfl, ← startedOk_launch, ← hperiod]
  exact (tracks_launch hexternal (isStarted_iff.1 hstarted).1).follows_iff
    (hframe.1.trans hperiod) (hframe.2.trans hnotified)

/-- **An event** is handled rightly exactly under its condition. -/
theorem follows_step_iff (s : Timeout × Timer) (e : TimeoutEvent) (h : Follows s) :
    Follows (pairStep s e) ↔ StepOk s e := by
  obtain ⟨c, t⟩ := s
  cases e with
  | act a =>
    have hframe := act_frame a ⟨h.period, h.notified⟩
    cases a with
    | start period present =>
      exact ((tracks_act (.inl rfl)).follows_iff hframe.1 hframe.2).trans startedOk_launch
    | stop => exact (tracks_act (.inl rfl)).follows_iff hframe.1 hframe.2
    | changePeriod period =>
      exact iff_of_true ⟨h.started, h.armed, hframe.1, hframe.2⟩ trivial
  | expire acts present =>
    have hpending := h.externalIsStarted
    by_cases harmed : t.armed.isSome = true
    · have hstep : pairStep (c, t) (.expire acts present) =
          (c.externalStop.cppExpiredCb acts present, t.step (.expire acts present)) := by
        rw [pairStep, step, hpending, if_pos harmed]
      have hok : StepOk (c, t) (.expire acts present) ↔ ExpireOk acts present t :=
        forall_prop_of_true harmed
      rw [hstep, hok, cppExpiredCb, Timer.step, if_pos harmed, ExpireOk]
      have hframe := foldl_act_frame (c := { c.externalStop with notified := c.notified + 1 })
        (t := { t with notified := t.notified + 1 }) acts
        ⟨h.period, congrArg Nat.succ h.notified⟩
      -- the callback starts the timer itself, or leaves it stopped
      by_cases hrestarts : acts.any TimeoutAct.restarts = true
      · have htracks := tracks_foldl_act (t := { t with notified := t.notified + 1 })
          (c := { c.externalStop with notified := c.notified + 1 }) (.inl hrestarts)
        have hiff := follows_restarted_iff present htracks hframe.1 hframe.2
        simp only [hrestarts, if_true]
        rw [foldl_act_notified] at hiff ⊢
        exact hiff
      · rw [Bool.not_eq_true] at hrestarts
        obtain ⟨period, hleft⟩ := foldl_act_of_not_restarts
          (c := { c.externalStop with notified := c.notified + 1 }) hrestarts
        have hiff := follows_left_iff present
          (c := acts.foldl act { c.externalStop with notified := c.notified + 1 })
          (by rw [hleft]; exact h.isStarted harmed) (by rw [hleft]; rfl) hframe.1 hframe.2
        simp only [hrestarts, Bool.false_eq_true, if_false]
        rw [foldl_act_notified] at hiff ⊢
        exact hiff
    · have hstep : pairStep (c, t) (.expire acts present) = (c, t) := by
        rw [pairStep, step, hpending, if_neg harmed, Timer.step, if_neg harmed]
      rw [hstep]
      exact iff_of_true h fun hsome => absurd hsome harmed

end Acts

/-- **Timeouts.**  In every run, the timeout does as the timer in all its states exactly when each
event is handled rightly. -/
theorem timeout_iff (evs : List TimeoutEvent) :
    Always pairStep Follows (ctor, Timer.ctor) evs ↔ Guarded pairStep StepOk (ctor, Timer.ctor) evs :=
  always_iff_guarded (Q := fun _ => True) (fun _ _ _ _ => trivial)
    (fun s e _ h => follows_step_iff s e h) ⟨rfl, rfl, rfl, rfl⟩ trivial

/-- 2^32 milliseconds are armed as none; and a timeout which its callback started for ever is armed
with the period which the callback changed. -/
theorem not_timeout :
    ¬ Always pairStep Follows (ctor, Timer.ctor) [.act (.start ⟨0x100000000⟩ ⟨0⟩)] ∧
    ¬ Always pairStep Follows (ctor, Timer.ctor) [.act (.start ⟨10⟩ ⟨0⟩),
      .expire [.start .INFINITE ⟨10⟩, .changePeriod ⟨5⟩] ⟨10⟩] :=
  ⟨not_always_of_run fun h => absurd h.armed (by decide),
    not_always_of_run fun h => absurd h.armed (by decide)⟩

end Timeout

end Neoip
