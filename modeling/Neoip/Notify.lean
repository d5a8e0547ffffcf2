/-
Neoip/Notify.lean

Notifications which go over a copy of what is registered.

A callback may do anything before it returns: it may register others, remove
some, or start a notification of its own, which is over before it goes on.
So the notifications which are going on are a stack, the innermost one in
front, and each of them has the rest of its copy.

A frame notes which registrations have been called, and which of these were
still registered when their turn came; it is exact when they are the same.
The copy is gone through whatever happens to the registrations, so that a
notification is exact when none of those which wait for their turn in it is
removed.

Main results: `exact_of_guarded`, and `exact_iff_guarded` for the runs at the
end of which no notification is going on.
-/
import Neoip.Run

namespace Neoip.Notify

variable {ρ σ ε : Type*}

/-! ### Frames -/

/-- A notification: what was registered when it started, the rest of it, what has been called, and
what of this was registered when its turn came. -/
structure Frame (ρ : Type*) where
  started : List ρ
  waiting : List ρ
  called : List ρ
  expected : List ρ
deriving DecidableEq

namespace Frame

def start (copy : List ρ) : Frame ρ := ⟨copy, copy, [], []⟩

def call (registered : ρ → Bool) (r : ρ) (waiting : List ρ) (f : Frame ρ) : Frame ρ :=
  { f with
    waiting
    called := f.called ++ [r]
    expected := if registered r then f.expected ++ [r] else f.expected }

/-- Those which were called are those which were still registered. -/
def Exact (f : Frame ρ) : Prop := f.called = f.expected

instance [DecidableEq ρ] (f : Frame ρ) : Decidable f.Exact :=
  inferInstanceAs (Decidable (f.called = f.expected))

/-- The calls are made in the order `R` of the registrations, which were all known when the
notification started. -/
structure Ok (R : ρ → ρ → Prop) (known : ρ → Prop) (f : Frame ρ) : Prop where
  order : f.called ++ f.waiting = f.started
  sorted : f.started.Pairwise R
  known : ∀ r ∈ f.started, known r
  sublist : f.expected.Sublist f.called

variable {f : Frame ρ} {registered : ρ → Bool} {r : ρ} {waiting : List ρ}
  {R : ρ → ρ → Prop} {known known' : ρ → Prop}

theorem ok_start {copy : List ρ} (hsorted : copy.Pairwise R) (hknown : ∀ r ∈ copy, known r) :
    (start copy).Ok R known := ⟨rfl, hsorted, hknown, .refl _⟩

theorem Ok.mono (h : f.Ok R known) (hknown : ∀ r, known r → known' r) : f.Ok R known' :=
  ⟨h.order, h.sorted, fun r hr => hknown r (h.known r hr), h.sublist⟩

theorem exact_start (copy : List ρ) : (start copy).Exact := rfl

theorem Ok.call (h : f.Ok R known) (hwaiting : f.waiting = r :: waiting) :
    (f.call registered r waiting).Ok R known where
  order := by
    show f.called ++ [r] ++ waiting = f.started
    rw [← h.order, hwaiting, List.append_assoc]
    rfl
  sorted := h.sorted
  known := h.known
  sublist := by
    rw [Frame.call]
    split_ifs
    · exact h.sublist.append_right [r]
    · exact h.sublist.trans (List.sublist_append_left ..)

/-- A call is as it should be when what is called is registered. -/
theorem Ok.exact_call (h : f.Ok R known) :
    (f.call registered r waiting).Exact ↔ f.Exact ∧ registered r = true := by
  rw [Exact, Frame.call]
  by_cases hr : registered r = true
  · rw [if_pos hr, and_iff_left hr]
    exact List.append_left_inj [r]
  · rw [if_neg hr]
    refine iff_of_false (fun heq => ?_) fun hexact => hr hexact.2
    have hle := h.sublist.length_le
    have hlength : (f.called ++ [r]).length = f.expected.length := congrArg List.length heq
    rw [List.length_append, List.length_singleton] at hlength
    omega

end Frame

/-! ### The stack -/

/-- The notifications which are going on, and those which are over. -/
structure Stack (ρ : Type*) where
  frames : List (Frame ρ)
  finished : List (Frame ρ)

namespace Stack

/-- The next call of a notification, if any. -/
def next (registered : ρ → Bool) (f : Frame ρ) (st : Stack ρ) : Stack ρ :=
  match f.waiting with
  | [] => { st with finished := f :: st.finished }
  | r :: waiting => { st with frames := f.call registered r waiting :: st.frames }

/-- A notification is started. -/
def enter (registered : ρ → Bool) (copy : List ρ) (st : Stack ρ) : Stack ρ :=
  st.next registered (.start copy)

/-- A callback returns. -/
def ret (registered : ρ → Bool) (st : Stack ρ) : Stack ρ :=
  match st.frames with
  | [] => st
  | f :: frames => ({ st with frames }).next registered f

def all (st : Stack ρ) : List (Frame ρ) := st.frames ++ st.finished

def Ok (R : ρ → ρ → Prop) (known : ρ → Prop) (st : Stack ρ) : Prop := ∀ f ∈ st.all, f.Ok R known

def Exact (st : Stack ρ) : Prop := ∀ f ∈ st.all, f.Exact

/-- What waits for its turn is registered. -/
def Fresh (registered : ρ → Bool) (st : Stack ρ) : Prop :=
  ∀ f ∈ st.frames, ∀ r ∈ f.waiting, registered r = true

variable {st : Stack ρ} {registered : ρ → Bool} {f : Frame ρ} {copy : List ρ}
  {R : ρ → ρ → Prop} {known known' : ρ → Prop}

theorem mem_all_cons {frames finished : List (Frame ρ)} {g : Frame ρ} :
    g ∈ all ⟨f :: frames, finished⟩ ↔ g = f ∨ g ∈ all ⟨frames, finished⟩ := by
  rw [all, all, List.cons_append, List.mem_cons]

/-- The frames of the next state: those of before, and the one which goes on. -/
theorem exists_next (registered : ρ → Bool) (f : Frame ρ) (st : Stack ρ) :
    (f.waiting = [] ∧ ∀ g, g ∈ (st.next registered f).all ↔ g = f ∨ g ∈ st.all) ∨
      ∃ r waiting, f.waiting = r :: waiting ∧
        ∀ g, g ∈ (st.next registered f).all ↔ g = f.call registered r waiting ∨ g ∈ st.all := by
  rcases hwaiting : f.waiting with - | ⟨r, waiting⟩
  · refine .inl ⟨rfl, fun g => ?_⟩
    rw [next, hwaiting]
    simp only [all, List.mem_append, List.mem_cons]
    exact or_left_comm
  · refine .inr ⟨r, waiting, rfl, fun g => ?_⟩
    rw [next, hwaiting]
    exact mem_all_cons

theorem Ok.mono (h : st.Ok R known) (hknown : ∀ r, known r → known' r) : st.Ok R known' :=
  fun f hf => (h f hf).mono hknown

theorem Ok.next (h : st.Ok R known) (hf : f.Ok R known) : (st.next registered f).Ok R known := by
  intro g hg
  rcases exists_next registered f st with ⟨-, hall⟩ | ⟨r, waiting, hwaiting, hall⟩
  · rcases (hall g).1 hg with rfl | hg
    · exact hf
    · exact h g hg
  · rcases (hall g).1 hg with rfl | hg
    · exact hf.call hwaiting
    · exact h g hg

theorem Exact.next (h : st.Exact) (hok : f.Ok R known) (hf : f.Exact)
    (hfresh : ∀ r ∈ f.waiting, registered r = true) : (st.next registered f).Exact := by
  intro g hg
  rcases exists_next registered f st with ⟨-, hall⟩ | ⟨r, waiting, hwaiting, hall⟩
  · rcases (hall g).1 hg with rfl | hg
    · exact hf
    · exact h g hg
  · rcases (hall g).1 hg with rfl | hg
    · exact hok.exact_call.2 ⟨hf, hfresh r (hwaiting ▸ List.mem_cons_self)⟩
    · exact h g hg

theorem Fresh.next (h : st.Fresh registered) (hfresh : ∀ r ∈ f.waiting, registered r = true) :
    (st.next registered f).Fresh registered := by
  intro g hg r hr
  rw [Stack.next] at hg
  rcases hwaiting : f.waiting with - | ⟨r', waiting⟩
  · rw [hwaiting] at hg
    exact h g hg r hr
  · rw [hwaiting] at hg
    rcases List.mem_cons.1 hg with rfl | hg
    · exact hfresh r (hwaiting ▸ List.mem_cons_of_mem _ hr)
    · exact h g hg r hr

theorem Ok.enter (h : st.Ok R known) (hsorted : copy.Pairwise R) (hknown : ∀ r ∈ copy, known r) :
    (st.enter registered copy).Ok R known := h.next (Frame.ok_start hsorted hknown)

theorem Exact.enter (h : st.Exact) (hsorted : copy.Pairwise R)
    (hfresh : ∀ r ∈ copy, registered r = true) : (st.enter registered copy).Exact :=
  h.next (Frame.ok_start hsorted hfresh)
    (Frame.exact_start copy) hfresh

theorem Fresh.enter (h : st.Fresh registered) (hfresh : ∀ r ∈ copy, registered r = true) :
    (st.enter registered copy).Fresh registered := h.next hfresh

theorem Ok.ret (h : st.Ok R known) : (st.ret registered).Ok R known := by
  obtain ⟨frames, finished⟩ := st
  rcases frames with - | ⟨f, frames⟩
  · exact h
  · have hrest : Ok R known ⟨frames, finished⟩ := fun g hg => h g (mem_all_cons.2 (.inr hg))
    exact hrest.next (h f (mem_all_cons.2 (.inl rfl)))

theorem Exact.ret (h : st.Exact) (hok : st.Ok R known) (hfresh : st.Fresh registered) :
    (st.ret registered).Exact := by
  obtain ⟨frames, finished⟩ := st
  rcases frames with - | ⟨f, frames⟩
  · exact h
  · have hrest : Exact ⟨frames, finished⟩ := fun g hg => h g (mem_all_cons.2 (.inr hg))
    have hmem : f ∈ all ⟨f :: frames, finished⟩ := mem_all_cons.2 (.inl rfl)
    exact hrest.next (hok f hmem) (h f hmem) (hfresh f List.mem_cons_self)

theorem Fresh.ret (h : st.Fresh registered) : (st.ret registered).Fresh registered := by
  obtain ⟨frames, finished⟩ := st
  rcases frames with - | ⟨f, frames⟩
  · exact h
  · have hrest : Fresh registered ⟨frames, finished⟩ := fun g hg =>
      h g (List.mem_cons_of_mem _ hg)
    exact hrest.next (h f List.mem_cons_self)

/-- A notification has gone wrong, or will: something which waits in it is registered no more. -/
def Lost (dead : ρ → Prop) (st : Stack ρ) : Prop :=
  ¬ st.Exact ∨ ∃ f ∈ st.frames, ∃ r ∈ f.waiting, dead r

variable {dead : ρ → Prop}

/-- What goes wrong in the rest of the stack is not touched. -/
theorem Lost.next (h : st.Lost dead) : (st.next registered f).Lost dead := by
  rcases h with h | ⟨g, hg, hdead⟩
  · refine .inl fun hexact => h fun g hg => hexact g ?_
    rcases exists_next registered f st with ⟨-, hall⟩ | ⟨r, waiting, -, hall⟩
    · exact (hall g).2 (.inr hg)
    · exact (hall g).2 (.inr hg)
  · refine .inr ⟨g, ?_, hdead⟩
    rw [Stack.next]
    split
    · exact hg
    · exact List.mem_cons_of_mem _ hg

/-- What has gone wrong in a frame stays so, and what will does at its turn. -/
theorem lost_next (hok : f.Ok R known) (hdead : ∀ r, dead r → registered r = false)
    (h : ¬ f.Exact ∨ ∃ r ∈ f.waiting, dead r) : (st.next registered f).Lost dead := by
  rw [Stack.next]
  rcases hwaiting : f.waiting with - | ⟨r, waiting⟩
  · rw [hwaiting] at h
    refine .inl fun hexact => h.elim (fun h => h (hexact f ?_)) fun ⟨r, hr, _⟩ => nomatch hr
    exact List.mem_append_right _ List.mem_cons_self
  · show Lost dead ⟨f.call registered r waiting :: st.frames, st.finished⟩
    have hwrong (h : ¬ (f.call registered r waiting).Exact) :
        Lost dead ⟨f.call registered r waiting :: st.frames, st.finished⟩ :=
      .inl fun hexact => h (hexact _ (mem_all_cons.2 (.inl rfl)))
    rw [hwaiting] at h
    rcases h with h | ⟨r', hr, hr'⟩
    · exact hwrong fun hexact => h (hok.exact_call.1 hexact).1
    · rcases List.mem_cons.1 hr with rfl | hr
      · refine hwrong fun hexact => ?_
        exact Bool.false_ne_true ((hdead r' hr').symm.trans (hok.exact_call.1 hexact).2)
      · exact .inr ⟨_, List.mem_cons_self, r', hr, hr'⟩

theorem Lost.ret (h : st.Lost dead) (hok : st.Ok R known)
    (hdead : ∀ r, dead r → registered r = false) :
    (st.ret registered).Lost dead := by
  obtain ⟨frames, finished⟩ := st
  rcases frames with - | ⟨f, frames⟩
  · exact h
  · have hf : f.Ok R known := hok f (mem_all_cons.2 (.inl rfl))
    by_cases hthis : ¬ f.Exact ∨ ∃ r ∈ f.waiting, dead r
    · exact lost_next hf hdead hthis
    · rw [not_or, not_not] at hthis
      refine Lost.next ?_
      rcases h with h | ⟨g, hg, hwrong⟩
      · refine .inl fun hexact => h fun g hg => ?_
        rcases mem_all_cons.1 hg with rfl | hg
        · exact hthis.1
        · exact hexact g hg
      · rcases List.mem_cons.1 hg with rfl | hg
        · exact absurd hwrong hthis.2
        · exact .inr ⟨g, hg, hwrong⟩

end Stack

/-! ### Runs -/

/-- What notifies: its steps, the stack, what is registered and what has ever been. -/
structure Notifier (σ ε ρ : Type*) where
  step : σ → ε → σ
  stack : σ → Stack ρ
  registered : σ → ρ → Bool
  known : σ → ρ → Prop

namespace Notifier

variable (N : Notifier σ ε ρ)

/-- What a step may do: start a notification of some of what is registered, let a callback return,
or change what is registered, but not register again what has been. -/
structure Lawful (R : ρ → ρ → Prop) (inv : σ → Prop) : Prop where
  inv_step : ∀ s e, inv s → inv (N.step s e)
  known_of_registered : ∀ s r, inv s → N.registered s r = true → N.known s r
  known_step : ∀ s e r, N.known s r → N.known (N.step s e) r
  registered_of_step : ∀ s e r, inv s → N.known s r → N.registered (N.step s e) r = true →
    N.registered s r = true
  step_cases : ∀ s e, inv s → N.stack (N.step s e) = N.stack s ∨
    N.registered (N.step s e) = N.registered s ∧
      ((∃ copy : List ρ, copy.Pairwise R ∧ (∀ r ∈ copy, N.registered s r = true) ∧
        N.stack (N.step s e) = (N.stack s).enter (N.registered s) copy) ∨
      N.stack (N.step s e) = (N.stack s).ret (N.registered s))

/-- The step removes nothing which waits for its turn. -/
def Keeps (s : σ) (e : ε) : Prop :=
  ∀ f ∈ (N.stack s).frames, ∀ r ∈ f.waiting, N.registered s r = true →
    N.registered (N.step s e) r = true

variable {N} {R : ρ → ρ → Prop} {inv : σ → Prop} {s : σ} {e : ε} {evs : List ε}

theorem Lawful.ok_step (h : N.Lawful R inv) (hinv : inv s) (hok : (N.stack s).Ok R (N.known s)) :
    (N.stack (N.step s e)).Ok R (N.known (N.step s e)) := by
  refine Stack.Ok.mono ?_ (h.known_step s e)
  rcases h.step_cases s e hinv with hst | ⟨-, ⟨copy, hsorted, hcopy, hst⟩ | hst⟩
  · rwa [hst]
  · rw [hst]
    exact hok.enter hsorted fun r hr => h.known_of_registered s r hinv (hcopy r hr)
  · rw [hst]
    exact hok.ret

theorem Lawful.exact_step (h : N.Lawful R inv) (hinv : inv s) (hok : (N.stack s).Ok R (N.known s))
    (hexact : (N.stack s).Exact) (hfresh : (N.stack s).Fresh (N.registered s)) :
    (N.stack (N.step s e)).Exact := by
  rcases h.step_cases s e hinv with hst | ⟨-, ⟨copy, hsorted, hcopy, hst⟩ | hst⟩
  · rwa [hst]
  · rw [hst]
    exact hexact.enter hsorted hcopy
  · rw [hst]
    exact hexact.ret hok hfresh

theorem Lawful.fresh_step (h : N.Lawful R inv) (hinv : inv s)
    (hfresh : (N.stack s).Fresh (N.registered s)) (hkeeps : N.Keeps s e) :
    (N.stack (N.step s e)).Fresh (N.registered (N.step s e)) := by
  rcases h.step_cases s e hinv with hst | ⟨hreg, ⟨copy, -, hcopy, hst⟩ | hst⟩
  · rw [hst]
    exact fun f hf r hr => hkeeps f hf r hr (hfresh f hf r hr)
  · rw [hst, hreg]
    exact hfresh.enter hcopy
  · rw [hst, hreg]
    exact hfresh.ret

/-- Registered once, and removed since. -/
def Dead (N : Notifier σ ε ρ) (s : σ) (r : ρ) : Prop := N.known s r ∧ N.registered s r = false

theorem Lawful.dead_step (h : N.Lawful R inv) (hinv : inv s) {r : ρ} (hdead : N.Dead s r) :
    N.Dead (N.step s e) r := by
  refine ⟨h.known_step s e r hdead.1, ?_⟩
  by_contra hreg
  rw [Bool.not_eq_false] at hreg
  have hbefore := h.registered_of_step s e r hinv hdead.1 hreg
  rw [hdead.2] at hbefore
  exact Bool.false_ne_true hbefore

theorem Lawful.lost_step (h : N.Lawful R inv) (hinv : inv s) (hok : (N.stack s).Ok R (N.known s))
    (hlost : (N.stack s).Lost (N.Dead s)) : (N.stack (N.step s e)).Lost (N.Dead (N.step s e)) := by
  have hlater : (N.stack (N.step s e)).Lost (N.Dead s) := by
    rcases h.step_cases s e hinv with hst | ⟨-, ⟨copy, -, -, hst⟩ | hst⟩
    · rwa [hst]
    · rw [hst]
      exact hlost.next
    · rw [hst]
      exact hlost.ret hok fun r hr => hr.2
  refine hlater.imp_right ?_
  rintro ⟨f, hf, r, hr, hdead⟩
  exact ⟨f, hf, r, hr, h.dead_step hinv hdead⟩

/-- A removal of what waits for its turn makes the notification go wrong. -/
theorem Lawful.lost_of_not_keeps (h : N.Lawful R inv) (hinv : inv s) (hkeeps : ¬ N.Keeps s e) :
    (N.stack (N.step s e)).Lost (N.Dead (N.step s e)) := by
  simp only [Keeps, not_forall] at hkeeps
  obtain ⟨f, hf, r, hr, hreg, hremoved⟩ := hkeeps
  rcases h.step_cases s e hinv with hst | ⟨hsame, -⟩
  · refine .inr ⟨f, hst ▸ hf, r, hr, ?_, Bool.not_eq_true _ ▸ hremoved⟩
    exact h.known_step s e r (h.known_of_registered s r hinv hreg)
  · exact absurd (hsame ▸ hreg) hremoved

/-! #### Rules -/

theorem Lawful.ok_run (h : N.Lawful R inv) (hinv : inv s) (hok : (N.stack s).Ok R (N.known s))
    (evs : List ε) :
    inv (run N.step s evs) ∧ (N.stack (run N.step s evs)).Ok R (N.known (run N.step s evs)) :=
  run_invariant (P := fun s => inv s ∧ (N.stack s).Ok R (N.known s))
    (fun s e ⟨hinv, hok⟩ => ⟨h.inv_step s e hinv, h.ok_step hinv hok⟩) ⟨hinv, hok⟩ evs

/-- **Where nothing which waits for its turn is removed**, exactly what is registered is called. -/
theorem Lawful.exact_of_guarded (h : N.Lawful R inv) (hinv : inv s)
    (hok : (N.stack s).Ok R (N.known s)) (hexact : (N.stack s).Exact)
    (hfresh : (N.stack s).Fresh (N.registered s))
    (hrun : Guarded N.step N.Keeps s evs) : (N.stack (run N.step s evs)).Exact := by
  induction evs generalizing s with
  | nil => exact hexact
  | cons e evs ih =>
    exact ih (h.inv_step s e hinv) (h.ok_step hinv hok) (h.exact_step hinv hok hexact hfresh)
      (h.fresh_step hinv hfresh hrun.1) hrun.2

theorem Lawful.lost_run (h : N.Lawful R inv) (hinv : inv s) (hok : (N.stack s).Ok R (N.known s))
    (hlost : (N.stack s).Lost (N.Dead s)) :
    (N.stack (run N.step s evs)).Lost (N.Dead (run N.step s evs)) := by
  induction evs generalizing s with
  | nil => exact hlost
  | cons e evs ih =>
    exact ih (h.inv_step s e hinv) (h.ok_step hinv hok) (h.lost_step hinv hok hlost)

/-- A guard which says the same while what waits is registered says the same over the runs. -/
theorem Lawful.guarded_iff (h : N.Lawful R inv) {G : σ → ε → Prop}
    (hG : ∀ s e, inv s → (N.stack s).Fresh (N.registered s) → (N.Keeps s e ↔ G s e))
    (hinv : inv s) (hfresh : (N.stack s).Fresh (N.registered s)) :
    Guarded N.step N.Keeps s evs ↔ Guarded N.step G s evs := by
  induction evs generalizing s with
  | nil => exact Iff.rfl
  | cons e evs ih =>
    rw [guarded_cons, guarded_cons, ← hG s e hinv hfresh]
    exact and_congr_right fun hkeeps => ih (h.inv_step s e hinv) (h.fresh_step hinv hfresh hkeeps)

/-- **When all notifications are over**, they went well exactly when nothing which waited for its
turn was removed. -/
theorem Lawful.exact_iff_guarded (h : N.Lawful R inv) (hinv : inv s)
    (hok : (N.stack s).Ok R (N.known s)) (hexact : (N.stack s).Exact)
    (hfresh : (N.stack s).Fresh (N.registered s))
    (hover : (N.stack (run N.step s evs)).frames = []) :
    (N.stack (run N.step s evs)).Exact ↔ Guarded N.step N.Keeps s evs := by
  constructor
  · intro hend
    induction evs generalizing s with
    | nil => trivial
    | cons e evs ih =>
      have hinv' := h.inv_step s e hinv
      have hok' := h.ok_step (e := e) hinv hok
      by_cases hkeeps : N.Keeps s e
      · exact ⟨hkeeps, ih hinv' hok' (h.exact_step hinv hok hexact hfresh)
          (h.fresh_step hinv hfresh hkeeps) hover hend⟩
      · -- what is lost is found at the end, where nothing waits
        have hlost : (N.stack (run N.step (N.step s e) evs)).Lost
            (N.Dead (run N.step (N.step s e) evs)) :=
          h.lost_run hinv' hok' (h.lost_of_not_keeps hinv hkeeps)
        rcases hlost with hwrong | ⟨f, hf, -⟩
        · exact absurd hend hwrong
        · rw [run_cons] at hover
          rw [hover] at hf
          nomatch hf
  · exact h.exact_of_guarded hinv hok hexact hfresh

end Notifier

end Neoip.Notify
