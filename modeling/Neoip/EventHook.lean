/-
Neoip/EventHook.lean

Hooks on events, in levels: `event_hook_t`.

`notify` goes over a copy of the list of its level.  It is the only one which
has the copy, so that `remove` does not take anything out of it: a callback
which was removed is still called when it waits for its turn.

The calls of `notify` which are going on, and the numbers of the
registrations, are not fields of the source.  Every callback returns `true`.

Main results: `hook_order`, in which order what is called, and `hook_iff`, when
it is exactly what is still registered.
-/
import Neoip.Notify

namespace Neoip

/-- A callback and its `userptr`, as pointers. -/
structure HookItem where
  callback : ℕ
  userptr : ℕ
deriving DecidableEq

/-- A call of `append`. -/
structure HookReg where
  level_no : ℕ
  item : HookItem
  id : ℕ
deriving DecidableEq

/-- `event_hook_t`. -/
structure EventHook where
  level_arr : List (List HookReg)
  stack : Notify.Stack HookReg
  nb_reg : ℕ

/-- What callbacks, and anything else, may do. -/
inductive HookEvent
  | append (level_no : ℕ) (item : HookItem)
  | remove (level_no : ℕ) (item : HookItem)
  | notify (level_no : ℕ)
  | ret

namespace EventHook

open Notify

def ctor (nb_level : ℕ) : EventHook := ⟨List.replicate nb_level [], ⟨[], []⟩, 0⟩

def level (s : EventHook) (level_no : ℕ) : List HookReg := s.level_arr.getD level_no []

/-- Added, and not removed since. -/
def registered (s : EventHook) (r : HookReg) : Bool := r ∈ s.level r.level_no

def contain (level_no : ℕ) (item : HookItem) (s : EventHook) : Bool :=
  (s.level level_no).any fun r => r.item = item

def append (level_no : ℕ) (item : HookItem) (s : EventHook) : EventHook :=
  { s with
    level_arr := s.level_arr.modify level_no (· ++ [⟨level_no, item, s.nb_reg⟩])
    nb_reg := s.nb_reg + 1 }

/-- `std::list::remove` removes all the items which are equal. -/
def remove (level_no : ℕ) (item : HookItem) (s : EventHook) : EventHook :=
  { s with level_arr := s.level_arr.modify level_no (·.filter fun r => r.item ≠ item) }

/-- The beginning of `notify`, to the first callback. -/
def notify (level_no : ℕ) (s : EventHook) : EventHook :=
  { s with stack := s.stack.enter s.registered (s.level level_no) }

/-- A callback returns to the loop of `notify`. -/
def ret (s : EventHook) : EventHook := { s with stack := s.stack.ret s.registered }

def step (s : EventHook) : HookEvent → EventHook
  | .append level_no item => s.append level_no item
  | .remove level_no item => s.remove level_no item
  | .notify level_no => s.notify level_no
  | .ret => s.ret

/-- An event removes nothing which waits for its turn in a call of `notify`. -/
def KeepsWaiting (s : EventHook) : HookEvent → Prop
  | .remove level_no item =>
    ∀ f ∈ s.stack.frames, ∀ r ∈ f.waiting, ¬ (r.level_no = level_no ∧ r.item = item)
  | _ => True

instance (s : EventHook) : ∀ e, Decidable (s.KeepsWaiting e)
  | .append .. => inferInstanceAs (Decidable True)
  | .remove .. => inferInstanceAs (Decidable (∀ f ∈ s.stack.frames, ∀ r ∈ f.waiting, _))
  | .notify .. => inferInstanceAs (Decidable True)
  | .ret => inferInstanceAs (Decidable True)

/-- The levels have what was added to them, in order. -/
def Ok (s : EventHook) : Prop :=
  ∀ level_no, (s.level level_no).Pairwise (fun r r' => r.id < r'.id) ∧
    ∀ r ∈ s.level level_no, r.level_no = level_no ∧ r.id < s.nb_reg

variable {s : EventHook} {level_no : ℕ} {item : HookItem} {r : HookReg}

/-! ### The levels after an event -/

theorem level_modify (level_arr : List (List HookReg)) (level_no i : ℕ)
    (g : List HookReg → List HookReg) :
    (level_arr.modify level_no g).getD i [] =
      if i = level_no ∧ i < level_arr.length then g (level_arr.getD i [])
      else level_arr.getD i [] := by
  rw [List.getD_eq_getElem?_getD, List.getD_eq_getElem?_getD, List.getElem?_modify]
  by_cases hlt : i < level_arr.length
  · rw [List.getElem?_eq_getElem hlt]
    show (if level_no = i then g level_arr[i] else level_arr[i]) = _
    by_cases hi : i = level_no
    · rw [if_pos hi.symm, if_pos ⟨hi, hlt⟩]
      rfl
    · rw [if_neg (Ne.symm hi), if_neg fun h => hi h.1]
      rfl
  · rw [if_neg fun h => hlt h.2, List.getElem?_eq_none (Nat.le_of_not_lt hlt)]
    rfl

theorem level_append (level_no : ℕ) (item : HookItem) (s : EventHook) (i : ℕ) :
    (s.append level_no item).level i =
      if i = level_no ∧ i < s.level_arr.length then s.level i ++ [⟨level_no, item, s.nb_reg⟩]
      else s.level i := level_modify ..

theorem mem_level_append {i : ℕ} (h : r ∈ (s.append level_no item).level i) :
    r ∈ s.level i ∨ r = ⟨level_no, item, s.nb_reg⟩ := by
  rw [level_append] at h
  split_ifs at h
  · exact (List.mem_append.1 h).imp_right List.mem_singleton.1
  · exact .inl h

theorem mem_level_remove {i : ℕ} : r ∈ (s.remove level_no item).level i ↔
    r ∈ s.level i ∧ ¬ (i = level_no ∧ r.item = item) := by
  have hlevel : (s.remove level_no item).level i = _ := level_modify ..
  rw [hlevel]
  split_ifs with hi
  · rw [List.mem_filter, decide_eq_true_iff, and_iff_right hi.1]
    rfl
  · refine (and_iff_left_of_imp fun hmem hremoved => hi ⟨hremoved.1, ?_⟩).symm
    by_contra hlt
    have hnil : s.level i = [] := by
      rw [level, List.getD_eq_getElem?_getD, List.getElem?_eq_none (Nat.le_of_not_lt hlt)]
      rfl
    have hmem : r ∈ s.level i := hmem
    rw [hnil] at hmem
    nomatch hmem

theorem registered_remove : (s.remove level_no item).registered r = true ↔
    s.registered r = true ∧ ¬ (r.level_no = level_no ∧ r.item = item) := by
  rw [registered, registered, decide_eq_true_iff, decide_eq_true_iff, mem_level_remove]

/-! ### The invariant -/

theorem ok_ctor (nb_level : ℕ) : (ctor nb_level).Ok := by
  intro level_no
  have hlevel : (ctor nb_level).level level_no = [] := by
    rw [level, ctor, List.getD_eq_getElem?_getD, List.getElem?_replicate]
    split_ifs
    · rfl
    · rfl
  rw [hlevel]
  exact ⟨.nil, nofun⟩

theorem Ok.append (h : s.Ok) (level_no : ℕ) (item : HookItem) : (s.append level_no item).Ok := by
  intro i
  obtain ⟨hsorted, hmem⟩ := h i
  rw [level_append]
  split_ifs with hi
  · constructor
    · refine List.pairwise_append.2 ⟨hsorted, List.pairwise_singleton .., fun r hr r' hr' => ?_⟩
      rw [List.mem_singleton.1 hr']
      exact (hmem r hr).2
    · intro r hr
      rcases List.mem_append.1 hr with hr | hr
      · exact ⟨(hmem r hr).1, Nat.lt_succ_of_lt (hmem r hr).2⟩
      · rw [List.mem_singleton.1 hr]
        exact ⟨hi.1.symm, Nat.lt_succ_self _⟩
  · exact ⟨hsorted, fun r hr => ⟨(hmem r hr).1, Nat.lt_succ_of_lt (hmem r hr).2⟩⟩

theorem Ok.remove (h : s.Ok) (level_no : ℕ) (item : HookItem) : (s.remove level_no item).Ok := by
  intro i
  refine ⟨?_, fun r hr => (h i).2 r (mem_level_remove.1 hr).1⟩
  have hlevel : (s.remove level_no item).level i = _ := level_modify ..
  rw [hlevel]
  split_ifs
  · exact (h i).1.filter _
  · exact (h i).1

theorem ok_step (s : EventHook) (e : HookEvent) (h : s.Ok) : (s.step e).Ok := by
  cases e with
  | append level_no item => exact h.append level_no item
  | remove level_no item => exact h.remove level_no item
  | notify level_no => exact h
  | ret => exact h

/-! ### What is called -/

/-- The hooks as what notifies: a registration is known from its number on. -/
def notifier : Notifier EventHook HookEvent HookReg where
  step := step
  stack := stack
  registered := registered
  known s r := r.id < s.nb_reg

theorem Ok.registered_spec (h : s.Ok) (hreg : s.registered r = true) : r.id < s.nb_reg :=
  ((h r.level_no).2 r (of_decide_eq_true hreg)).2

theorem lawful_notifier : notifier.Lawful (fun r r' => r.id < r'.id) Ok where
  inv_step := ok_step
  known_of_registered s r h hreg := h.registered_spec hreg
  known_step s e r hknown := by
    cases e with
    | append level_no item => exact Nat.lt_succ_of_lt hknown
    | remove level_no item => exact hknown
    | notify level_no => exact hknown
    | ret => exact hknown
  registered_of_step s e r h hknown hreg := by
    cases e with
    | append level_no item =>
      rcases mem_level_append (of_decide_eq_true hreg) with hmem | rfl
      · exact decide_eq_true hmem
      · exact absurd hknown (Nat.lt_irrefl _)
    | remove level_no item => exact (registered_remove.1 hreg).1
    | notify level_no => exact hreg
    | ret => exact hreg
  step_cases s e h := by
    cases e with
    | append level_no item => exact .inl rfl
    | remove level_no item => exact .inl rfl
    | notify level_no =>
      refine .inr ⟨rfl, .inl ⟨s.level level_no, (h level_no).1, fun r hr => ?_, rfl⟩⟩
      refine decide_eq_true ?_
      rw [((h level_no).2 r hr).1]
      exact hr
    | ret => exact .inr ⟨rfl, .inr rfl⟩

theorem keeps_iff (e : HookEvent) (hfresh : s.stack.Fresh s.registered) :
    notifier.Keeps s e ↔ s.KeepsWaiting e := by
  cases e with
  | append level_no item =>
    refine iff_of_true (fun f _ r _ hreg => decide_eq_true ?_) trivial
    show r ∈ (s.append level_no item).level r.level_no
    rw [level_append]
    split_ifs
    · exact List.mem_append_left _ (of_decide_eq_true hreg)
    · exact of_decide_eq_true hreg
  | remove level_no item =>
    refine forall₂_congr fun f hf => forall₂_congr fun r hr => ?_
    exact (forall_prop_of_true (hfresh f hf r hr)).trans
      (registered_remove.trans (and_iff_right (hfresh f hf r hr)))
  | notify level_no => exact iff_of_true (fun f _ r _ hreg => hreg) trivial
  | ret => exact iff_of_true (fun f _ r _ hreg => hreg) trivial

/-! ### Runs -/

variable (nb_level : ℕ) (evs : List HookEvent)

/-- **In any run**, each call of `notify` goes over what was registered when it started, in the
order of the registrations and once for each, and over nothing which was added later. -/
theorem hook_order : (run step (ctor nb_level) evs).stack.Ok (fun r r' => r.id < r'.id)
    fun r => r.id < (run step (ctor nb_level) evs).nb_reg :=
  (lawful_notifier.ok_run (ok_ctor nb_level) nofun evs).2

theorem guarded_iff : Guarded step notifier.Keeps (ctor nb_level) evs ↔
    Guarded step KeepsWaiting (ctor nb_level) evs :=
  lawful_notifier.guarded_iff (fun _ e _ hfresh => keeps_iff e hfresh) (ok_ctor nb_level) nofun

theorem hook_exact (h : Guarded step KeepsWaiting (ctor nb_level) evs) :
    (run step (ctor nb_level) evs).stack.Exact :=
  lawful_notifier.exact_of_guarded (ok_ctor nb_level) nofun nofun nofun
    ((guarded_iff nb_level evs).2 h)

/-- **When no call of `notify` is going on any more**, they all called exactly what was still
registered if and only if nothing which waited for its turn was removed. -/
theorem hook_iff (hover : (run step (ctor nb_level) evs).stack.frames = []) :
    (run step (ctor nb_level) evs).stack.Exact ↔
      Guarded step KeepsWaiting (ctor nb_level) evs := by
  rw [← guarded_iff]
  exact lawful_notifier.exact_iff_guarded (ok_ctor nb_level) nofun nofun nofun hover

end EventHook

end Neoip
