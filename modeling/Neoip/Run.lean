/-
Neoip/Run.lean

Runs of a deterministic event machine.

The components of the repository are single-threaded and event driven: a
state, and a handler which is run to its end for each event before the next
one is looked at.  Such a component is a total function
`step : σ → ε → σ`, and a run of it is a list of events.

* `run step s evs` is the state after the events;
* `Always step P s evs` says that `P` holds in every state the run passes
  through, the first and the last included;
* `Guarded step G s evs` says that every event of the run meets `G` in the
  state it is handled in.

Main results: an invariant of the guarded steps holds always
(`Guarded.always`), an invariant of all steps holds at the end of every run
(`run_invariant`), and where the guard is exactly what one step needs to keep
`P`, it is exactly what the whole run needs (`always_iff_guarded`).
-/
import Mathlib.Data.List.Basic
import Mathlib.Tactic.Common

namespace Neoip

variable {σ ε τ : Type*}

/-! ### Runs -/

/-- The state after the events `evs`, handled one after the other. -/
def run (step : σ → ε → σ) (s : σ) (evs : List ε) : σ := evs.foldl step s

/-- `P` holds in every state of the run. -/
def Always (step : σ → ε → σ) (P : σ → Prop) : σ → List ε → Prop
  | s, [] => P s
  | s, e :: evs => P s ∧ Always step P (step s e) evs

/-- Every event of the run meets `G` in the state it is handled in. -/
def Guarded (step : σ → ε → σ) (G : σ → ε → Prop) : σ → List ε → Prop
  | _, [] => True
  | s, e :: evs => G s e ∧ Guarded step G (step s e) evs

variable {step : σ → ε → σ} {P Q : σ → Prop} {G : σ → ε → Prop}

@[simp] theorem run_nil (s : σ) : run step s [] = s := rfl

@[simp] theorem run_cons (s : σ) (e : ε) (evs : List ε) :
    run step s (e :: evs) = run step (step s e) evs := rfl

theorem run_append (s : σ) (evs evs' : List ε) :
    run step s (evs ++ evs') = run step (run step s evs) evs' := by
  simp [run]

@[simp] theorem always_nil (s : σ) : Always step P s [] ↔ P s := Iff.rfl

@[simp] theorem always_cons (s : σ) (e : ε) (evs : List ε) :
    Always step P s (e :: evs) ↔ P s ∧ Always step P (step s e) evs := Iff.rfl

@[simp] theorem guarded_nil (s : σ) : Guarded step G s [] := trivial

@[simp] theorem guarded_cons (s : σ) (e : ε) (evs : List ε) :
    Guarded step G s (e :: evs) ↔ G s e ∧ Guarded step G (step s e) evs := Iff.rfl

instance Always.decidable [DecidablePred P] :
    ∀ (s : σ) (evs : List ε), Decidable (Always step P s evs)
  | s, [] => inferInstanceAs (Decidable (P s))
  | s, e :: evs =>
    haveI := Always.decidable (step s e) evs
    inferInstanceAs (Decidable (P s ∧ Always step P (step s e) evs))

instance Guarded.decidable [∀ s e, Decidable (G s e)] :
    ∀ (s : σ) (evs : List ε), Decidable (Guarded step G s evs)
  | _, [] => inferInstanceAs (Decidable True)
  | s, e :: evs =>
    haveI := Guarded.decidable (step s e) evs
    inferInstanceAs (Decidable (G s e ∧ Guarded step G (step s e) evs))

/-! ### Rules -/

theorem Always.head {s : σ} {evs : List ε} (h : Always step P s evs) : P s := by
  cases evs with
  | nil => exact h
  | cons e evs => exact h.1

theorem Always.run {s : σ} {evs : List ε} (h : Always step P s evs) :
    P (run step s evs) := by
  induction evs generalizing s with
  | nil => exact h
  | cons e evs ih => exact ih h.2

theorem not_always_of_run {s : σ} {evs : List ε} (h : ¬P (run step s evs)) :
    ¬Always step P s evs := fun hall => h hall.run

theorem Always.mono {s : σ} {evs : List ε} (hPQ : ∀ s, P s → Q s)
    (h : Always step P s evs) : Always step Q s evs := by
  induction evs generalizing s with
  | nil => exact hPQ s h
  | cons e evs ih => exact ⟨hPQ s h.1, ih h.2⟩

/-- **Guarded invariants**: a property that every guarded step keeps holds in
every state of a guarded run. -/
theorem Guarded.always {s : σ} {evs : List ε}
    (hstep : ∀ s e, P s → G s e → P (step s e)) (hs : P s)
    (h : Guarded step G s evs) : Always step P s evs := by
  induction evs generalizing s with
  | nil => exact hs
  | cons e evs ih => exact ⟨hs, ih (hstep s e hs h.1) h.2⟩

theorem guarded_append {s : σ} {evs evs' : List ε} : Guarded step G s (evs ++ evs') ↔
    Guarded step G s evs ∧ Guarded step G (run step s evs) evs' := by
  induction evs generalizing s with
  | nil => exact (and_iff_right trivial).symm
  | cons e evs ih =>
    rw [List.cons_append, guarded_cons, guarded_cons, ih, and_assoc, run_cons]

/-- A property that every step keeps holds in every state of every run. -/
theorem always_invariant {s : σ} (hstep : ∀ s e, P s → P (step s e)) (hs : P s)
    (evs : List ε) : Always step P s evs := by
  induction evs generalizing s with
  | nil => exact hs
  | cons e evs ih => exact ⟨hs, ih (hstep s e hs)⟩

theorem run_invariant {s : σ} (hstep : ∀ s e, P s → P (step s e)) (hs : P s)
    (evs : List ε) : P (run step s evs) :=
  (always_invariant hstep hs evs).run

/-- **Exact guards**: in a run in whose states `W` holds, let `Q` be an invariant such that in
the states of `Q` a step keeps `P`, and has `S`, exactly when it meets `G`.  Then the run keeps
`P`, and all its steps have `S`, exactly when all its steps meet `G`. -/
theorem always_and_guarded_iff {W : σ → Prop} {S : σ → ε → Prop} {s : σ} {evs : List ε}
    (hQ : ∀ s e, Q s → P s → W (step s e) → Q (step s e))
    (hstep : ∀ s e, Q s → P s → W (step s e) → (P (step s e) ∧ S s e ↔ G s e))
    (hs : P s) (hs' : Q s) (hW : Always step W s evs) :
    Always step P s evs ∧ Guarded step S s evs ↔ Guarded step G s evs := by
  induction evs generalizing s with
  | nil => simpa using hs
  | cons e evs ih =>
    have hWe := hW.2.head
    constructor
    · rintro ⟨⟨-, hP⟩, hS, hrest⟩
      exact ⟨(hstep s e hs' hs hWe).1 ⟨hP.head, hS⟩,
        (ih hP.head (hQ s e hs' hs hWe) hW.2).1 ⟨hP, hrest⟩⟩
    · rintro ⟨hG, h⟩
      obtain ⟨hP, hS⟩ := (hstep s e hs' hs hWe).2 hG
      obtain ⟨hall, hrest⟩ := (ih hP (hQ s e hs' hs hWe) hW.2).2 h
      exact ⟨⟨hs, hall⟩, hS, hrest⟩

theorem always_true {s : σ} {evs : List ε} : Always step (fun _ => True) s evs :=
  always_invariant (fun _ _ _ => trivial) trivial evs

theorem guarded_true {s : σ} {evs : List ε} : Guarded step (fun _ _ => True) s evs := by
  induction evs generalizing s with
  | nil => trivial
  | cons e evs ih => exact ⟨trivial, ih⟩

/-- Where `Q` is an invariant and, in the states of `Q`, a step keeps `P` exactly when it meets
`G`, a run keeps `P` exactly when all its steps meet `G`. -/
theorem always_iff_guarded {s : σ} {evs : List ε}
    (hQ : ∀ s e, Q s → P s → Q (step s e))
    (hstep : ∀ s e, Q s → P s → (P (step s e) ↔ G s e))
    (hs : P s) (hs' : Q s) : Always step P s evs ↔ Guarded step G s evs := by
  rw [← always_and_guarded_iff (W := fun _ => True) (S := fun _ _ => True)
    (fun s e hq hp _ => hQ s e hq hp) (fun s e hq hp _ => ?_) hs hs' always_true]
  · exact (and_iff_left guarded_true).symm
  · rw [and_iff_left trivial]
    exact hstep s e hq hp

/-- Where `Q` is an invariant and two guards agree in its states, they agree over the runs. -/
theorem guarded_congr {G' : σ → ε → Prop} {s : σ} (hQ : ∀ s e, Q s → Q (step s e))
    (hG : ∀ s e, Q s → (G s e ↔ G' s e)) (hs : Q s) (evs : List ε) :
    Guarded step G s evs ↔ Guarded step G' s evs := by
  induction evs generalizing s with
  | nil => exact Iff.rfl
  | cons e evs ih => exact and_congr (hG s e hs) (ih (hQ s e hs))

end Neoip
