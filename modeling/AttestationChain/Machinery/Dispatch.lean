import Mathlib.Tactic.Basic

/-!
# Machinery/Dispatch — calls that fail halfway

A call reads and writes a state, and may fail; what it wrote before it failed stays written
(`Dispatch`).  So a call that fails changes nothing just if it is written in the right order: first
what only looks, then at most one effect that may fail and changes nothing where it does, then what
cannot fail.  `Atomic.bind` and `Atomic.of_readOnly_bind` are that order as rules, and
`atomic_tryMutate` the rule for a stored value that is edited in place and written back on success.
-/

namespace Dispatches

/-- **A call**: it fails or answers, and in either case keeps what it wrote. -/
abbrev Dispatch (ε σ α : Type) := ExceptT ε (StateM σ) α

variable {ε σ α β γ : Type}

/-- The outcome of a call, and the state it leaves. -/
def outcome (call : Dispatch ε σ α) (s : σ) : Except ε α × σ := (ExceptT.run call).run s

/-! ## The steps of a call -/

/-- `ensure!`: fails where a condition does not hold. -/
def ensure (holds : σ → Bool) (e : ε) : Dispatch ε σ Unit := fun s =>
  if holds s then (.ok (), s) else (.error e, s)

/-- Something that other code computes of the state, or fails to. -/
def ask (f : σ → Except ε α) : Dispatch ε σ α := fun s => (f s, s)

/-- An effect that cannot fail. -/
def effect (f : σ → σ) : Dispatch ε σ Unit := fun s => (.ok (), f s)

/-- An effect of other code that changes nothing where it fails. -/
def attempt (f : σ → Except ε σ) : Dispatch ε σ Unit := fun s =>
  match f s with
  | .ok s' => (.ok (), s')
  | .error e => (.error e, s)

/-- `try_mutate`: a closure edits a copy of a stored value, which is written back where the closure
succeeds.  What else the closure does to the state is done, whether it succeeds or not. -/
def tryMutate (get : σ → β) (put : β → σ → σ) (edit : β → Dispatch ε σ (β × α)) :
    Dispatch ε σ α := fun s =>
  match outcome (edit (get s)) s with
  | (.ok (b, a), s') => (.ok a, put b s')
  | (.error e, s') => (.error e, s')

section Outcomes

variable (s : σ)

@[simp] theorem outcome_pure (a : α) : outcome (pure a : Dispatch ε σ α) s = (.ok a, s) := rfl

@[simp] theorem outcome_ensure (holds : σ → Bool) (e : ε) :
    outcome (ensure holds e) s = if holds s then (.ok (), s) else (.error e, s) := rfl

@[simp] theorem outcome_ask (f : σ → Except ε α) : outcome (ask f) s = (f s, s) := rfl

@[simp] theorem outcome_effect (f : σ → σ) :
    outcome (effect f : Dispatch ε σ Unit) s = (.ok (), f s) := rfl

theorem outcome_attempt (f : σ → Except ε σ) : outcome (attempt f) s =
    match f s with
    | .ok s' => (.ok (), s')
    | .error e => (.error e, s) := rfl

theorem outcome_tryMutate (get : σ → β) (put : β → σ → σ) (edit : β → Dispatch ε σ (β × α)) :
    outcome (tryMutate get put edit) s =
      match outcome (edit (get s)) s with
      | (.ok (b, a), s') => (.ok a, put b s')
      | (.error e, s') => (.error e, s') := rfl

/-- **One call behind another.** -/
theorem outcome_bind (call : Dispatch ε σ α) (next : α → Dispatch ε σ β) :
    outcome (call >>= next) s =
      match outcome call s with
      | (.ok a, s') => outcome (next a) s'
      | (.error e, s') => (.error e, s') := by
  change outcome (ExceptT.bind call next) s = _
  rw [outcome, ExceptT.run, ExceptT.bind, ExceptT.mk, StateT.run_bind]
  change (match outcome call s with | (r, s') => (ExceptT.bindCont next r).run s') = _
  obtain ⟨e | a, s'⟩ := outcome call s
  · rfl
  · rfl

/-- The first fails, and so do both; or the second goes on where the first ends. -/
theorem outcome_bind_cases (call : Dispatch ε σ α) (next : α → Dispatch ε σ β) :
    (∃ e, (outcome call s).1 = .error e ∧
      outcome (call >>= next) s = (.error e, (outcome call s).2)) ∨
    ∃ a, (outcome call s).1 = .ok a ∧
      outcome (call >>= next) s = outcome (next a) (outcome call s).2 := by
  rw [outcome_bind]
  rcases outcome call s with ⟨e | a, s'⟩
  · exact .inl ⟨e, rfl, rfl⟩
  · exact .inr ⟨a, rfl, rfl⟩

/-- The closure fails, and nothing is written back; or its copy is. -/
theorem outcome_tryMutate_cases (get : σ → β) (put : β → σ → σ)
    (edit : β → Dispatch ε σ (β × α)) :
    (∃ e, (outcome (edit (get s)) s).1 = .error e ∧
      outcome (tryMutate get put edit) s = (.error e, (outcome (edit (get s)) s).2)) ∨
    ∃ b a, (outcome (edit (get s)) s).1 = .ok (b, a) ∧
      outcome (tryMutate get put edit) s = (.ok a, put b (outcome (edit (get s)) s).2) := by
  rw [outcome_tryMutate]
  rcases outcome (edit (get s)) s with ⟨e | ⟨b, a⟩, s'⟩
  · exact .inl ⟨e, rfl, rfl⟩
  · exact .inr ⟨b, a, rfl, rfl⟩

end Outcomes

/-! ## Calls that change nothing where they fail -/

/-- **Only looks.** -/
def ReadOnly (call : Dispatch ε σ α) : Prop := ∀ s, (outcome call s).2 = s

/-- **Cannot fail.** -/
def Total (call : Dispatch ε σ α) : Prop := ∀ s e, (outcome call s).1 ≠ .error e

/-- **Changes nothing where it fails.** -/
def Atomic (call : Dispatch ε σ α) : Prop :=
  ∀ s e, (outcome call s).1 = .error e → (outcome call s).2 = s

variable {call : Dispatch ε σ α} {next : α → Dispatch ε σ β}

theorem ReadOnly.atomic (h : ReadOnly call) : Atomic call := fun s _ _ => h s

theorem Total.atomic (h : Total call) : Atomic call := fun s e he => absurd he (h s e)

theorem readOnly_ensure (holds : σ → Bool) (e : ε) : ReadOnly (ensure holds e) := by
  intro s
  rw [outcome_ensure]
  split
  · rfl
  · rfl

theorem readOnly_ask (f : σ → Except ε α) : ReadOnly (ask f) := fun _ => rfl

theorem total_effect (f : σ → σ) : Total (effect f : Dispatch ε σ Unit) :=
  fun _ _ he => by cases he

theorem total_pure (a : α) : Total (pure a : Dispatch ε σ α) := fun _ _ he => by cases he

theorem atomic_attempt (f : σ → Except ε σ) : Atomic (attempt f) := by
  intro s e he
  rw [outcome_attempt] at he ⊢
  cases hf : f s with
  | ok s' => rw [hf] at he; cases he
  | error e' => rfl

/-- Behind what only looks, anything atomic. -/
theorem Atomic.of_readOnly_bind (hcall : ReadOnly call) (hnext : ∀ a, Atomic (next a)) :
    Atomic (call >>= next) := by
  intro s e he
  rcases outcome_bind_cases s call next with ⟨e', -, heq⟩ | ⟨a, -, heq⟩
  · rw [heq]
    exact hcall s
  · rw [hcall s] at heq
    rw [heq] at he ⊢
    exact hnext a s e he

/-- Behind what is atomic, anything that cannot fail. -/
theorem Atomic.bind (hcall : Atomic call) (hnext : ∀ a, Total (next a)) :
    Atomic (call >>= next) := by
  intro s e he
  rcases outcome_bind_cases s call next with ⟨e', hfail, heq⟩ | ⟨a, -, heq⟩
  · rw [heq]
    exact hcall s e' hfail
  · rw [heq] at he
    exact absurd he (hnext a _ e)

/-- Two calls that cannot fail. -/
theorem Total.bind (hcall : Total call) (hnext : ∀ a, Total (next a)) : Total (call >>= next) := by
  intro s e he
  rcases outcome_bind_cases s call next with ⟨e', hfail, -⟩ | ⟨a, -, heq⟩
  · exact hcall s e' hfail
  · rw [heq] at he
    exact hnext a _ e he

/-- An edit that is atomic leaves the stored value and the rest as they were. -/
theorem atomic_tryMutate {get : σ → γ} {put : γ → σ → σ} {edit : γ → Dispatch ε σ (γ × α)}
    (hedit : ∀ b, Atomic (edit b)) : Atomic (tryMutate get put edit) := by
  intro s e he
  rcases outcome_tryMutate_cases s get put edit with ⟨e', hfail, heq⟩ | ⟨b, a, -, heq⟩
  · rw [heq]
    exact hedit _ s e' hfail
  · rw [heq] at he
    cases he

end Dispatches
