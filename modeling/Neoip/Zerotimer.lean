/-
Neoip/Zerotimer.lean

Callbacks for the next turn of the event loop: `zerotimer_t`.

When the timeout expires, the list is copied and cleared before anything is
called.  `remove` does not find the callbacks of the copy any more, so that one
which was removed is still called, as with `event_hook_t`.

`unremoved` is not in the source: it is what has been added and not removed
since, be it in the list or in a copy.

Main results: `pending_running`, and `notify_iff`, for both classes.
-/
import Neoip.EventHook

namespace Neoip

/-- `cbuserptr_t` -/
structure Cbuserptr where
  callback : ℕ
  userptr : ℕ
deriving DecidableEq

/-- A call of `append`. -/
structure ZeroReg where
  item : Cbuserptr
  id : ℕ
deriving DecidableEq

/-- `zerotimer_t`. -/
structure Zerotimer where
  running : Bool
  cbuserptr_list : List ZeroReg
  stack : Notify.Stack ZeroReg
  nb_reg : ℕ
  unremoved : List ZeroReg

/-- The calls of a user, and the timer. -/
inductive ZeroEvent
  | append (item : Cbuserptr)
  | remove (item : Cbuserptr)
  | expire
  | ret

namespace Zerotimer

open Notify

def ctor : Zerotimer := ⟨false, [], ⟨[], []⟩, 0, []⟩

def registered (s : Zerotimer) (r : ZeroReg) : Bool := r ∈ s.unremoved

def contain (item : Cbuserptr) (s : Zerotimer) : Bool :=
  s.cbuserptr_list.any fun r => r.item = item

def append (item : Cbuserptr) (s : Zerotimer) : Zerotimer :=
  { s with
    running := if !s.running then true else s.running
    cbuserptr_list := s.cbuserptr_list ++ [⟨item, s.nb_reg⟩]
    nb_reg := s.nb_reg + 1
    unremoved := s.unremoved ++ [⟨item, s.nb_reg⟩] }

def remove (item : Cbuserptr) (s : Zerotimer) : Zerotimer :=
  let cbuserptr_list := s.cbuserptr_list.filter fun r => r.item ≠ item
  { s with
    running := if cbuserptr_list.length = 0 && s.running then false else s.running
    cbuserptr_list
    unremoved := s.unremoved.filter fun r => r.item ≠ item }

/-- The beginning of `neoip_timeout_expire_cb`, to the first callback.  A timeout which is not
running does not expire. -/
def expire (s : Zerotimer) : Zerotimer :=
  if s.running then
    { s with
      running := false
      cbuserptr_list := []
      stack := s.stack.enter s.registered s.cbuserptr_list }
  else s

def ret (s : Zerotimer) : Zerotimer := { s with stack := s.stack.ret s.registered }

def step (s : Zerotimer) : ZeroEvent → Zerotimer
  | .append item => s.append item
  | .remove item => s.remove item
  | .expire => s.expire
  | .ret => s.ret

/-- An event removes nothing which waits for its turn. -/
def KeepsWaiting (s : Zerotimer) : ZeroEvent → Prop
  | .remove item => ∀ f ∈ s.stack.frames, ∀ r ∈ f.waiting, r.item ≠ item
  | _ => True

instance (s : Zerotimer) : ∀ e, Decidable (s.KeepsWaiting e)
  | .append .. => inferInstanceAs (Decidable True)
  | .remove .. => inferInstanceAs (Decidable (∀ f ∈ s.stack.frames, ∀ r ∈ f.waiting, _))
  | .expire => inferInstanceAs (Decidable True)
  | .ret => inferInstanceAs (Decidable True)

/-- The timeout is running while a callback is pending. -/
def PendingRunning (s : Zerotimer) : Prop := s.cbuserptr_list ≠ [] → s.running = true

/-- The invariant of a run. -/
structure Ok (s : Zerotimer) : Prop where
  sorted : s.cbuserptr_list.Pairwise fun r r' => r.id < r'.id
  unremoved : ∀ r ∈ s.cbuserptr_list, r ∈ s.unremoved
  known : ∀ r ∈ s.unremoved, r.id < s.nb_reg
  running : s.PendingRunning

variable {s : Zerotimer} {item : Cbuserptr} {r : ZeroReg}

theorem registered_append : (s.append item).registered r = true ↔
    s.registered r = true ∨ r = ⟨item, s.nb_reg⟩ := by
  rw [registered, registered, decide_eq_true_iff, decide_eq_true_iff]
  exact List.mem_append.trans (or_congr_right List.mem_singleton)

theorem registered_remove : (s.remove item).registered r = true ↔
    s.registered r = true ∧ r.item ≠ item := by
  rw [registered, registered, decide_eq_true_iff, decide_eq_true_iff]
  exact List.mem_filter.trans (and_congr_right fun _ => decide_eq_true_iff)

/-! ### The invariant -/

theorem ok_ctor : ctor.Ok := ⟨.nil, nofun, nofun, fun h => absurd rfl h⟩

theorem Ok.append (h : s.Ok) (item : Cbuserptr) : (s.append item).Ok where
  sorted := by
    refine List.pairwise_append.2 ⟨h.sorted, List.pairwise_singleton .., fun r hr r' hr' => ?_⟩
    rw [List.mem_singleton.1 hr']
    exact h.known r (h.unremoved r hr)
  unremoved r hr := by
    rcases List.mem_append.1 hr with hr | hr
    · exact List.mem_append_left _ (h.unremoved r hr)
    · exact List.mem_append_right _ hr
  known r hr := by
    rcases List.mem_append.1 hr with hr | hr
    · exact Nat.lt_succ_of_lt (h.known r hr)
    · rw [List.mem_singleton.1 hr]
      exact Nat.lt_succ_self _
  running _ := by
    show (if !s.running then true else s.running) = true
    cases s.running <;> rfl

theorem Ok.remove (h : s.Ok) (item : Cbuserptr) : (s.remove item).Ok where
  sorted := h.sorted.filter _
  unremoved r hr := by
    obtain ⟨hmem, hne⟩ := List.mem_filter.1 hr
    exact List.mem_filter.2 ⟨h.unremoved r hmem, hne⟩
  known r hr := h.known r (List.mem_filter.1 hr).1
  running hne := by
    have hne : s.cbuserptr_list.filter (fun r => r.item ≠ item) ≠ [] := hne
    have hlength : (s.cbuserptr_list.filter fun r => r.item ≠ item).length ≠ 0 := fun hzero =>
      hne (List.eq_nil_of_length_eq_zero hzero)
    have hbefore : s.running = true := h.running fun hnil => hne (by rw [hnil]; rfl)
    show (if _ then _ else _) = true
    rw [decide_eq_false hlength, Bool.false_and, if_neg Bool.false_ne_true, hbefore]

theorem Ok.expire (h : s.Ok) : s.expire.Ok := by
  rw [Zerotimer.expire]
  split_ifs
  · exact ⟨.nil, nofun, h.known, fun hne => absurd rfl hne⟩
  · exact h

theorem ok_step (s : Zerotimer) (e : ZeroEvent) (h : s.Ok) : (s.step e).Ok := by
  cases e with
  | append item => exact h.append item
  | remove item => exact h.remove item
  | expire => exact h.expire
  | ret => exact ⟨h.sorted, h.unremoved, h.known, h.running⟩

/-! ### What is called -/

def notifier : Notifier Zerotimer ZeroEvent ZeroReg where
  step := step
  stack := stack
  registered := registered
  known s r := r.id < s.nb_reg

/-- What an expiration leaves as it was. -/
theorem expire_frame (s : Zerotimer) : s.expire.unremoved = s.unremoved ∧
    s.expire.nb_reg = s.nb_reg := by
  rw [expire]
  split_ifs
  · exact ⟨rfl, rfl⟩
  · exact ⟨rfl, rfl⟩

theorem registered_expire (s : Zerotimer) : s.expire.registered = s.registered := by
  funext r
  rw [registered, registered, (expire_frame s).1]

theorem lawful_notifier : notifier.Lawful (fun r r' => r.id < r'.id) Ok where
  inv_step := ok_step
  known_of_registered s r h hreg := h.known r (of_decide_eq_true hreg)
  known_step s e r hknown := by
    cases e with
    | append item => exact Nat.lt_succ_of_lt hknown
    | remove item => exact hknown
    | expire =>
      show r.id < s.expire.nb_reg
      rw [(expire_frame s).2]
      exact hknown
    | ret => exact hknown
  registered_of_step s e r h hknown hreg := by
    cases e with
    | append item =>
      rcases registered_append.1 hreg with hreg | rfl
      · exact hreg
      · exact absurd hknown (Nat.lt_irrefl _)
    | remove item => exact (registered_remove.1 hreg).1
    | expire =>
      have hreg : s.expire.registered r = true := hreg
      rwa [registered_expire] at hreg
    | ret => exact hreg
  step_cases s e h := by
    cases e with
    | append item => exact .inl rfl
    | remove item => exact .inl rfl
    | expire =>
      show s.expire.stack = s.stack ∨ s.expire.registered = s.registered ∧ _
      by_cases hrunning : s.running = true
      · refine .inr ⟨registered_expire s, .inl ⟨s.cbuserptr_list, h.sorted,
          fun r hr => decide_eq_true (h.unremoved r hr), ?_⟩⟩
        show s.expire.stack = _
        rw [expire, if_pos hrunning]
        rfl
      · refine .inl ?_
        rw [expire, if_neg hrunning]
    | ret => exact .inr ⟨rfl, .inr rfl⟩

theorem keeps_iff (e : ZeroEvent) (hfresh : s.stack.Fresh s.registered) :
    notifier.Keeps s e ↔ s.KeepsWaiting e := by
  cases e with
  | append item => exact iff_of_true (fun f _ r _ hreg => registered_append.2 (.inl hreg)) trivial
  | remove item =>
    refine forall₂_congr fun f hf => forall₂_congr fun r hr => ?_
    exact (forall_prop_of_true (hfresh f hf r hr)).trans
      (registered_remove.trans (and_iff_right (hfresh f hf r hr)))
  | expire =>
    refine iff_of_true (fun f _ r _ hreg => ?_) trivial
    show s.expire.registered r = true
    rw [registered_expire]
    exact hreg
  | ret => exact iff_of_true (fun f _ r _ hreg => hreg) trivial

/-! ### Runs -/

variable (evs : List ZeroEvent)

/-- **The timeout** is running whenever a callback is pending, in every state of every run. -/
theorem pending_running : Always step PendingRunning ctor evs :=
  (always_invariant ok_step ok_ctor evs).mono fun _ h => h.running

theorem zero_order : (run step ctor evs).stack.Ok (fun r r' => r.id < r'.id)
    fun r => r.id < (run step ctor evs).nb_reg :=
  (lawful_notifier.ok_run ok_ctor nofun evs).2

theorem guarded_iff : Guarded step notifier.Keeps ctor evs ↔ Guarded step KeepsWaiting ctor evs :=
  lawful_notifier.guarded_iff (fun _ e _ hfresh => keeps_iff e hfresh) ok_ctor nofun

theorem zero_exact (h : Guarded step KeepsWaiting ctor evs) : (run step ctor evs).stack.Exact :=
  lawful_notifier.exact_of_guarded ok_ctor nofun nofun nofun ((guarded_iff evs).2 h)

theorem zero_iff (hover : (run step ctor evs).stack.frames = []) :
    (run step ctor evs).stack.Exact ↔ Guarded step KeepsWaiting ctor evs := by
  rw [← guarded_iff]
  exact lawful_notifier.exact_iff_guarded ok_ctor nofun nofun nofun hover

/-! ### Both classes -/

/-- **Notifications under modification.**  In any run of hooks and of a timer, what a notification
calls is in order, once each and nothing new, and a pending callback has its timeout running.  The
calls are exactly those of what is still registered when nothing which waits for its turn is
removed, and, once all notifications are over, only then. -/
theorem notification_iff (nb_level : ℕ) (hook_evs : List HookEvent) (zero_evs : List ZeroEvent) :
    ((run EventHook.step (.ctor nb_level) hook_evs).stack.Ok (fun r r' => r.id < r'.id)
        (fun r => r.id < (run EventHook.step (.ctor nb_level) hook_evs).nb_reg) ∧
      (Guarded EventHook.step EventHook.KeepsWaiting (.ctor nb_level) hook_evs →
        (run EventHook.step (.ctor nb_level) hook_evs).stack.Exact) ∧
      ((run EventHook.step (.ctor nb_level) hook_evs).stack.frames = [] →
        ((run EventHook.step (.ctor nb_level) hook_evs).stack.Exact ↔
          Guarded EventHook.step EventHook.KeepsWaiting (.ctor nb_level) hook_evs))) ∧
    ((run step ctor zero_evs).stack.Ok (fun r r' => r.id < r'.id)
        (fun r => r.id < (run step ctor zero_evs).nb_reg) ∧
      (Guarded step KeepsWaiting ctor zero_evs → (run step ctor zero_evs).stack.Exact) ∧
      ((run step ctor zero_evs).stack.frames = [] →
        ((run step ctor zero_evs).stack.Exact ↔ Guarded step KeepsWaiting ctor zero_evs))) ∧
    Always step PendingRunning ctor zero_evs :=
  ⟨⟨EventHook.hook_order nb_level hook_evs, EventHook.hook_exact nb_level hook_evs,
      EventHook.hook_iff nb_level hook_evs⟩,
    ⟨zero_order zero_evs, zero_exact zero_evs, zero_iff zero_evs⟩, pending_running zero_evs⟩

/-- The first callback removes the second one, which is called next. -/
theorem not_notification :
    ¬ (run EventHook.step (.ctor 1) [.append 0 ⟨1, 0⟩, .append 0 ⟨2, 0⟩, .notify 0,
      .remove 0 ⟨2, 0⟩, .ret, .ret]).stack.Exact ∧
    ¬ (run step ctor [.append ⟨1, 0⟩, .append ⟨2, 0⟩, .expire, .remove ⟨2, 0⟩, .ret,
      .ret]).stack.Exact :=
  ⟨fun h => absurd (h _ (List.mem_singleton_self _)) (by decide),
    fun h => absurd (h _ (List.mem_singleton_self _)) (by decide)⟩

end Zerotimer

end Neoip
