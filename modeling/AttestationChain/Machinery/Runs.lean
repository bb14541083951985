import Mathlib.Order.Defs.PartialOrder
import Mathlib.Data.List.Basic
import Mathlib.Tactic.Basic

/-!
# Machinery/Runs — runs of a deterministic system, and what guarded steps preserve

A system is a step function `step : σ → α → σ`; a run is a list of inputs.  A few rules carry every
result about whole runs:

* `invariant_run` — what each *guarded* step preserves, a guarded run preserves;
* `simulates_run` — what each guarded step keeps between two systems, a guarded run keeps;
* `rel_run` — what each step respects (a reflexive, transitive relation), a run respects;
* `Guarded.of_append` — the guard of a run is the guard of its prefix and of what follows it.

The guard may look at the state a step starts from, so "no step takes the branch that goes wrong"
is a condition on the run alone; `guarded_iff` says when it is the exact one.
-/

namespace Runs

variable {σ α : Type*} {step : σ → α → σ}

/-- The state a run ends in. -/
def run (step : σ → α → σ) (s : σ) (tr : List α) : σ := tr.foldl step s

@[simp] theorem run_nil (s : σ) : run step s [] = s := rfl

@[simp] theorem run_cons (s : σ) (a : α) (tr : List α) :
    run step s (a :: tr) = run step (step s a) tr := rfl

theorem run_append (s : σ) (pre suf : List α) :
    run step s (pre ++ suf) = run step (run step s pre) suf := List.foldl_append

/-- The last step of a run, taken in the state its prefix reaches. -/
theorem run_concat (s : σ) (tr : List α) (a : α) :
    run step s (tr ++ [a]) = step (run step s tr) a := by
  rw [run_append, run_cons, run_nil]

/-- **The guard of a run**: `ok` holds of every step in the state the step starts from. -/
def Guarded (step : σ → α → σ) (ok : σ → α → Prop) : σ → List α → Prop
  | _, [] => True
  | s, a :: tr => ok s a ∧ Guarded step ok (step s a) tr

variable {ok ok' : σ → α → Prop}

@[simp] theorem guarded_nil (s : σ) : Guarded step ok s [] := trivial

@[simp] theorem guarded_cons (s : σ) (a : α) (tr : List α) :
    Guarded step ok s (a :: tr) ↔ ok s a ∧ Guarded step ok (step s a) tr := Iff.rfl

theorem guarded_append {s : σ} {pre suf : List α} :
    Guarded step ok s (pre ++ suf) ↔
      Guarded step ok s pre ∧ Guarded step ok (run step s pre) suf := by
  induction pre generalizing s with
  | nil => simp
  | cons a pre ih => rw [List.cons_append, guarded_cons, guarded_cons, ih, run_cons, and_assoc]

/-- The guard of a run is the guard of each of its prefixes. -/
theorem Guarded.of_append {s : σ} {pre suf : List α} (h : Guarded step ok s (pre ++ suf)) :
    Guarded step ok s pre := (guarded_append.1 h).1

/-- A weaker guard holds wherever a stronger one does. -/
theorem Guarded.mono {s : σ} {tr : List α} (h : Guarded step ok s tr)
    (himp : ∀ s a, ok s a → ok' s a) : Guarded step ok' s tr := by
  induction tr generalizing s with
  | nil => trivial
  | cons a tr ih => exact ⟨himp s a h.1, ih h.2⟩

/-- Two guards of a run are one. -/
theorem Guarded.and {s : σ} {tr : List α} (h : Guarded step ok s tr)
    (h' : Guarded step ok' s tr) : Guarded step (fun s a => ok s a ∧ ok' s a) s tr := by
  induction tr generalizing s with
  | nil => trivial
  | cons a tr ih => exact ⟨⟨h.1, h'.1⟩, ih h.2 h'.2⟩

/-- **An invariant of guarded steps is an invariant of guarded runs.** -/
theorem invariant_run {I : σ → Prop} (hstep : ∀ s a, I s → ok s a → I (step s a)) {s : σ}
    {tr : List α} (h : Guarded step ok s tr) (hs : I s) : I (run step s tr) := by
  induction tr generalizing s with
  | nil => exact hs
  | cons a tr ih => exact ih h.2 (hstep s a hs h.1)

/-- What an invariant and a guard make of each step, they make of a guarded run. -/
theorem guarded_of_invariant {I : σ → Prop} (hstep : ∀ s a, I s → ok s a → I (step s a))
    (himp : ∀ s a, I s → ok s a → ok' s a) {s : σ} {tr : List α} (h : Guarded step ok s tr)
    (hs : I s) : Guarded step ok' s tr := by
  induction tr generalizing s with
  | nil => trivial
  | cons a tr ih => exact ⟨himp s a hs h.1, ih h.2 (hstep s a hs h.1)⟩

/-- An invariant of every step needs no guard. -/
theorem invariant_run' {I : σ → Prop} (hstep : ∀ s a, I s → I (step s a)) {s : σ}
    (tr : List α) (hs : I s) : I (run step s tr) := by
  induction tr generalizing s with
  | nil => exact hs
  | cons a tr ih => exact ih (hstep s a hs)

/-- **A guard that is exact for one step is exact for runs**: where a step keeps `I` just if the
guard holds of it — given what holds anyway, `J` — a run keeps `I` throughout just if it is
guarded. -/
theorem guarded_iff {I J : σ → Prop} (hJ : ∀ s a, J s → J (step s a))
    (hok : ∀ s a, J s → I s → (I (step s a) ↔ ok s a)) {s : σ} {tr : List α} (hJs : J s)
    (hs : I s) : Guarded step ok s tr ↔ ∀ pre suf, tr = pre ++ suf → I (run step s pre) := by
  induction tr generalizing s with
  | nil =>
    refine ⟨fun _ pre suf h => ?_, fun _ => trivial⟩
    obtain ⟨rfl, -⟩ := List.append_eq_nil_iff.1 h.symm
    exact hs
  | cons a tr ih =>
    rw [guarded_cons]
    constructor
    · rintro ⟨ha, htr⟩ pre suf h
      rcases pre with _ | ⟨b, pre⟩
      · exact hs
      · obtain ⟨rfl, htl⟩ := List.cons.inj h
        exact (ih (hJ s a hJs) ((hok s a hJs hs).2 ha)).1 htr pre suf htl
    · intro h
      have hnext : I (step s a) := h [a] tr rfl
      refine ⟨(hok s a hJs hs).1 hnext, (ih (hJ s a hJs) hnext).2 fun pre suf htl => ?_⟩
      exact h (a :: pre) suf (by rw [htl, List.cons_append])

section Simulation

variable {τ : Type*} {step' : τ → α → τ} {R Q : σ → τ → Prop}

/-- **A simulation of guarded steps is one of guarded runs.** -/
theorem simulates_run (hstep : ∀ s t a, R s t → ok s a → R (step s a) (step' t a)) {s : σ} {t : τ}
    {tr : List α} (h : Guarded step ok s tr) (hst : R s t) :
    R (run step s tr) (run step' t tr) := by
  induction tr generalizing s t with
  | nil => exact hst
  | cons a tr ih => exact ih h.2 (hstep s t a hst h.1)

/-- **The guard is the exact condition** of what a simulation gives: where a step that is not
guarded breaks it, it holds throughout a run just if the run is guarded. -/
theorem guarded_iff_simulates (hstep : ∀ s t a, R s t → ok s a → R (step s a) (step' t a))
    (hbreaks : ∀ s t a, R s t → ¬ ok s a → ¬ Q (step s a) (step' t a))
    (hgives : ∀ s t, R s t → Q s t) {s : σ} {t : τ} {tr : List α} (hst : R s t) :
    Guarded step ok s tr ↔ ∀ pre suf, tr = pre ++ suf → Q (run step s pre) (run step' t pre) := by
  constructor
  · rintro h pre suf rfl
    exact hgives _ _ (simulates_run hstep h.of_append hst)
  · intro h
    induction tr generalizing s t with
    | nil => trivial
    | cons a tr ih =>
      have ha : ok s a := by
        by_contra hbad
        exact hbreaks s t a hst hbad (h [a] tr rfl)
      exact ⟨ha, ih (hstep s t a hst ha) fun pre suf htl =>
        h (a :: pre) suf (by rw [htl, List.cons_append])⟩

end Simulation

/-- **What every step respects, a run respects.** -/
theorem rel_run {R : σ → σ → Prop} (hrefl : ∀ s, R s s) (htrans : ∀ {a b c}, R a b → R b c → R a c)
    (hstep : ∀ s a, R s (step s a)) (s : σ) (tr : List α) : R s (run step s tr) := by
  induction tr generalizing s with
  | nil => exact hrefl s
  | cons a tr ih => exact htrans (hstep s a) (ih (step s a))

end Runs
